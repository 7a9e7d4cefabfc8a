/-
  Foundation/BitStream.lean --- tables of fields packed into bytes.

  A sequence of bytes is a stream of bits, the least significant bit of the first byte
  first.  Fields of one width, packed one after the other, are ranges of the stream, so that a
  store that keeps every bit outside one range keeps every other field, also one that shares a
  byte with it.
-/
import Mathlib

set_option autoImplicit false

namespace ChronOS.Foundation

variable {bytes bytes' bytes'' : Nat → BitVec 8} {off n : Nat}

/-- A byte shifted in at the lower end. -/
theorem getLsbD_shiftLeft_or_byte {w : Nat} (x : BitVec w) (b : BitVec 8) {i : Nat} (hi : i < w) :
    (x <<< 8 ||| b.setWidth w).getLsbD i = if i < 8 then b.getLsbD i else x.getLsbD (i - 8) := by
  split_ifs with hlow
  · simp [hi, hlow]
  · have hzero : b.getLsbD i = false := BitVec.getLsbD_of_ge b i (by omega)
    simp only [BitVec.getLsbD_or, BitVec.getLsbD_shiftLeft, BitVec.getLsbD_setWidth, hi, hlow,
      hzero, decide_true, decide_false, Bool.not_false, Bool.true_and, Bool.and_false,
      Bool.or_false]

/-- Bit `j` of the stream. -/
def streamBit (bytes : Nat → BitVec 8) (j : Nat) : Bool := (bytes (j / 8)).getLsbD (j % 8)

theorem streamBit_of_byte {j k i : Nat} (hj : j = 8 * k + i) (hi : i < 8) :
    streamBit bytes j = (bytes k).getLsbD i := by
  have hdiv : j / 8 = k := by omega
  have hmod : j % 8 = i := by omega
  rw [streamBit, hdiv, hmod]

/-- The `n` bits of the stream from bit `off` on. -/
def streamField (bytes : Nat → BitVec 8) (off : Nat) : (n : Nat) → BitVec n
  | 0 => 0#0
  | n + 1 => (streamField bytes off n).cons (streamBit bytes (off + n))

theorem getLsbD_streamField (bytes : Nat → BitVec 8) (off : Nat) {n i : Nat} (hi : i < n) :
    (streamField bytes off n).getLsbD i = streamBit bytes (off + i) := by
  induction n with
  | zero => exact absurd hi (Nat.not_lt_zero i)
  | succ n ih =>
    rw [streamField, BitVec.getLsbD_cons]
    split_ifs with hlast
    · rw [hlast]
    · exact ih (by omega)

/-- A field that begins with a byte, from its bytes. -/
theorem streamField_of_bytes {w k : Nat} {x : BitVec w}
    (h : ∀ m, 8 * m < n → bytes (k + m) = (x >>> (8 * m)).setWidth 8) :
    streamField bytes (8 * k) n = x.setWidth n := by
  apply BitVec.eq_of_getLsbD_eq
  intro i hi
  have hlt : i % 8 < 8 := Nat.mod_lt i (by decide)
  rw [getLsbD_streamField bytes _ hi,
    streamBit_of_byte (show 8 * k + i = 8 * (k + i / 8) + i % 8 by omega) hlt, h _ (by omega)]
  simp [hi, hlt, Nat.div_add_mod]

/-- No bit differs outside the `n` bits from bit `off` on. -/
def SameOutside (off n : Nat) (bytes bytes' : Nat → BitVec 8) : Prop :=
  ∀ j, ¬ (off ≤ j ∧ j < off + n) → streamBit bytes' j = streamBit bytes j

theorem SameOutside.refl (off n : Nat) (bytes : Nat → BitVec 8) :
    SameOutside off n bytes bytes := fun _ _ => rfl

theorem SameOutside.trans (h : SameOutside off n bytes bytes')
    (h' : SameOutside off n bytes' bytes'') : SameOutside off n bytes bytes'' :=
  fun j hj => (h' j hj).trans (h j hj)

/-- Storing a byte is such a change when it keeps the bits it has outside the range. -/
theorem sameOutside_update {k : Nat} {b : BitVec 8}
    (h : ∀ i < 8, ¬ (off ≤ 8 * k + i ∧ 8 * k + i < off + n) →
      b.getLsbD i = (bytes k).getLsbD i) :
    SameOutside off n bytes (Function.update bytes k b) := by
  intro j hj
  unfold streamBit
  by_cases hk : j / 8 = k
  · rw [hk, Function.update_self]
    refine h (j % 8) (Nat.mod_lt j (by decide)) fun hin => hj ?_
    omega
  · rw [Function.update_of_ne hk]

theorem SameOutside.streamField (h : SameOutside off n bytes bytes') {off' n' : Nat}
    (hapart : off' + n' ≤ off ∨ off + n ≤ off') :
    streamField bytes' off' n' = streamField bytes off' n' := by
  apply BitVec.eq_of_getLsbD_eq
  intro i hi
  rw [getLsbD_streamField bytes' off' hi, getLsbD_streamField bytes off' hi]
  exact h (off' + i) (by omega)

end ChronOS.Foundation
