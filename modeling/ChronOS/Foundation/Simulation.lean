/-
  Foundation/Simulation.lean --- runs with labels, and simulations between them.

  A label says what was asked for and what was answered.  When every step of one system is a
  step of another with the same label, the same holds of their runs.
-/
import Mathlib

set_option autoImplicit false

namespace ChronOS.Foundation

variable {State Abstract Label : Type} {step : State → Label → State → Prop}
  {astep : Abstract → Label → Abstract → Prop} {s s' : State} {ls : List Label}

/-- A run with the labels of its steps. -/
inductive Runs (step : State → Label → State → Prop) : State → List Label → State → Prop
  | nil (s : State) : Runs step s [] s
  | cons {s s' s'' : State} {l : Label} {ls : List Label} (hstep : step s l s')
      (hrest : Runs step s' ls s'') : Runs step s (l :: ls) s''

/-- A run is simulated when its steps are. -/
theorem Runs.simulate {R : State → Abstract → Prop}
    (hrun : Runs step s ls s')
    (hsim : ∀ {s l s' x}, R s x → step s l s' → ∃ x', astep x l x' ∧ R s' x') {x : Abstract}
    (hx : R s x) :
    ∃ x', Runs astep x ls x' ∧ R s' x' := by
  induction hrun generalizing x with
  | nil s => exact ⟨x, .nil x, hx⟩
  | cons hstep _ ih =>
    obtain ⟨x₁, hastep, hx₁⟩ := hsim hx hstep
    obtain ⟨x', harun, hx'⟩ := ih hx₁
    exact ⟨x', .cons hastep harun, hx'⟩

/-- What no step with such a label changes, no run of them changes. -/
theorem Runs.unchanged {α : Type} {f : State → α} {P : Label → Prop}
    (hrun : Runs step s ls s') (hsame : ∀ {s l s'}, step s l s' → P l → f s' = f s)
    (hls : ∀ l ∈ ls, P l) : f s' = f s := by
  induction hrun with
  | nil s => rfl
  | cons hstep _ ih =>
    rw [ih fun l hl => hls l (List.mem_cons_of_mem _ hl),
      hsame hstep (hls _ List.mem_cons_self)]

end ChronOS.Foundation
