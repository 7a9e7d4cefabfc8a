/-
  Foundation/Calls.lean --- calls that may not return.

  One statement says what a call has done when it returns and under which condition it does
  return, so that both follow from the same walk through the code.
-/
import Mathlib.Data.Option.Basic

set_option autoImplicit false

namespace ChronOS.Foundation

variable {α β : Type} {live : Prop} {call : Option α} {Q R : α → Prop}

/-- When the call returns, its result is as `Q` says; and if `live` it returns. -/
structure Ensures (live : Prop) (call : Option α) (Q : α → Prop) : Prop where
  post : ∀ a, call = some a → Q a
  returns : live → ∃ a, call = some a

namespace Ensures

theorem some {a : α} (h : Q a) : Ensures live (Option.some a) Q where
  post := by
    rintro b ⟨⟩
    exact h
  returns := fun _ => ⟨a, rfl⟩

/-- One call after the other. -/
theorem bind {f : α → Option β} {R : β → Prop} (h : Ensures live call Q)
    (hf : ∀ a, Q a → Ensures live (f a) R) : Ensures live (call >>= f) R where
  post := by
    intro b hb
    obtain ⟨a, ha, hb⟩ := Option.bind_eq_some_iff.mp hb
    exact (hf a (h.post a ha)).post b hb
  returns := by
    intro hlive
    obtain ⟨a, ha⟩ := h.returns hlive
    obtain ⟨b, hb⟩ := (hf a (h.post a ha)).returns hlive
    exact ⟨b, Option.bind_eq_some_iff.mpr ⟨a, ha, hb⟩⟩

theorem imp (h : Ensures live call Q) (hR : ∀ a, Q a → R a) : Ensures live call R :=
  ⟨fun a ha => hR a (h.post a ha), h.returns⟩

theorem result (h : Ensures live call Q) (hlive : live) : ∃ a, call = Option.some a ∧ Q a := by
  obtain ⟨a, ha⟩ := h.returns hlive
  exact ⟨a, ha, h.post a ha⟩

end Ensures

end ChronOS.Foundation
