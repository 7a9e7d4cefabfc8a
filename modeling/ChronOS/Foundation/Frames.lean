/-
  Foundation/Frames.lean --- the bytes that a piece of code changes.

  Bytes are numbered from a base address on, and a set of such numbers bounds what
  may have changed.  A store adds the bytes it covers; a read that covers none of
  the bytes in the set gives what it gave before.
-/
import ChronOS.Foundation.Memory

set_option autoImplicit false

namespace ChronOS.Foundation

/-- The memories differ at most in the bytes `A`, counted from `base`. -/
def ChangesIn (base : Word) (A : Set Nat) (m m' : Mem) : Prop :=
  ∀ y, (y - base).toNat ∉ A → m' y = m y

namespace ChangesIn

variable {base : Word} {A B : Set Nat} {m m₁ m₂ : Mem} {n k : Nat}

theorem refl : ChangesIn base A m m := fun _ _ => rfl

theorem trans (h₁ : ChangesIn base A m m₁) (h₂ : ChangesIn base A m₁ m₂) :
    ChangesIn base A m m₂ :=
  fun y hy => (h₂ y hy).trans (h₁ y hy)

theorem mono (h : ChangesIn base A m m₁) (hsub : A ⊆ B) : ChangesIn base B m m₁ :=
  fun y hy => h y fun hA => hy (hsub hA)

/-- A store into `A`. -/
theorem write (h : ChangesIn base A m m₁) {v : BitVec (8 * n)} (hfit : k + n ≤ 2 ^ 64)
    (hA : Set.Ico k (k + n) ⊆ A) : ChangesIn base A m (m₁.write (base + BitVec.ofNat 64 k) v) := by
  intro y hy
  rw [← h y hy]
  refine Mem.write_of_ge (Nat.not_lt.mp fun hlt => hy (hA ?_))
  have hat : (y - base).toNat = k + (y - (base + BitVec.ofNat 64 k)).toNat := by
    have hy' := add_offset (base + BitVec.ofNat 64 k) y
    rw [BitVec.add_assoc, ← BitVec.ofNat_add] at hy'
    conv_lhs => rw [← hy']
    exact toNat_offset base (by omega)
  rw [hat]
  exact ⟨by omega, by omega⟩

theorem write64 (h : ChangesIn base A m m₁) {v : Word} (hfit : k + 8 ≤ 2 ^ 64)
    (hA : Set.Ico k (k + 8) ⊆ A) : ChangesIn base A m (m₁.write64 (base + BitVec.ofNat 64 k) v) :=
  h.write hfit hA

theorem read_of_notMem (h : ChangesIn base A m m₁) {a : Word}
    (ha : ∀ j < n, (a + BitVec.ofNat 64 j - base).toNat ∉ A) : m₁.read n a = m.read n a :=
  Mem.read_congr fun j hj => h _ (ha j hj)

/-- A read of bytes from number `k` on. -/
theorem read (h : ChangesIn base A m m₁) (hfit : k + n ≤ 2 ^ 64)
    (hA : ∀ j ∈ Set.Ico k (k + n), j ∉ A) :
    m₁.read n (base + BitVec.ofNat 64 k) = m.read n (base + BitVec.ofNat 64 k) := by
  refine h.read_of_notMem fun j hj => ?_
  rw [BitVec.add_assoc, ← BitVec.ofNat_add, toNat_offset base (by omega)]
  exact hA _ ⟨by omega, by omega⟩

end ChangesIn

end ChronOS.Foundation
