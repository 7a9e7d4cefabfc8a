/-
  Foundation/BitField.lean --- read-modify-write of a field of a bit vector.

  Clearing a field with a shifted mask and or-ing the shifted value in replaces the
  bits of the field and no others.
-/
import Mathlib

set_option autoImplicit false

namespace ChronOS.Foundation

variable {w f : Nat}

/-- The field of `f` bits at bit `p` of `x`, replaced by `v` with a mask and shifts. -/
def insertField (x : BitVec w) (p : Nat) (v : BitVec f) : BitVec w :=
  x &&& ~~~((BitVec.allOnes f).setWidth w <<< p) ||| v.setWidth w <<< p

theorem getLsbD_insertField (x : BitVec w) (p : Nat) (v : BitVec f) {i : Nat} (hi : i < w) :
    (insertField x p v).getLsbD i =
      if p ≤ i ∧ i < p + f then v.getLsbD (i - p) else x.getLsbD i := by
  simp only [insertField, BitVec.getLsbD_or, BitVec.getLsbD_and, BitVec.getLsbD_not,
    BitVec.getLsbD_shiftLeft, BitVec.getLsbD_setWidth, BitVec.getLsbD_allOnes, hi, decide_true,
    Bool.true_and]
  by_cases hlow : i < p
  · have hout : ¬ (p ≤ i ∧ i < p + f) := by omega
    simp [hlow, hout]
  · have hpos : i - p < w := by omega
    by_cases hfield : i < p + f
    · have hin : p ≤ i ∧ i < p + f := by omega
      have hoff : i - p < f := by omega
      simp [hlow, hin, hpos, hoff]
    · have hout : ¬ (p ≤ i ∧ i < p + f) := by omega
      have hoff : ¬ i - p < f := by omega
      have hzero : v.getLsbD (i - p) = false := BitVec.getLsbD_of_ge v _ (by omega)
      simp [hlow, hout, hpos, hoff, hzero]

/-- Bits inside the field are those of the value. -/
theorem extractLsb'_insertField_inside (x : BitVec w) {p q g : Nat} (v : BitVec f) (hp : p ≤ q)
    (hq : q + g ≤ p + f) (hw : q + g ≤ w) :
    (insertField x p v).extractLsb' q g = v.extractLsb' (q - p) g := by
  apply BitVec.eq_of_getLsbD_eq
  intro i hi
  have hin : p ≤ q + i ∧ q + i < p + f := by omega
  have hoff : q + i - p = q - p + i := by omega
  simp only [BitVec.getLsbD_extractLsb', hi, decide_true, Bool.true_and]
  rw [getLsbD_insertField x p v (by omega), if_pos hin, hoff]

theorem extractLsb'_insertField_outside (x : BitVec w) {p q g : Nat} (v : BitVec f)
    (hq : q + g ≤ p ∨ p + f ≤ q) (hw : q + g ≤ w) :
    (insertField x p v).extractLsb' q g = x.extractLsb' q g := by
  apply BitVec.eq_of_getLsbD_eq
  intro i hi
  have hout : ¬ (p ≤ q + i ∧ q + i < p + f) := by omega
  simp only [BitVec.getLsbD_extractLsb', hi, decide_true, Bool.true_and]
  rw [getLsbD_insertField x p v (by omega), if_neg hout]

/-- A field that is the whole vector. -/
theorem insertField_zero (x v : BitVec w) : insertField x 0 v = v := by
  apply BitVec.eq_of_getLsbD_eq
  intro i hi
  have hin : 0 ≤ i ∧ i < 0 + w := by omega
  rw [getLsbD_insertField x 0 v hi, if_pos hin, Nat.sub_zero]

/-- Shifting the field down and masking it. -/
theorem setWidth_and_shiftRight (x : BitVec w) (p : Nat) (hf : f ≤ w) :
    (x >>> p &&& (BitVec.allOnes f).setWidth w).setWidth f = x.extractLsb' p f := by
  apply BitVec.eq_of_getLsbD_eq
  intro i hi
  have hw : i < w := Nat.lt_of_lt_of_le hi hf
  simp [hi, hw]

end ChronOS.Foundation
