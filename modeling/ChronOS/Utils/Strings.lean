/-
  Utils/Strings.lean --- `memcmp`, `strlen` and `strcmp` of string.c.

  `memcmp` and `strcmp` compare two objects, each given by its bytes; `strlen` counts
  in a memory.  `strlen` does not return if there is no terminator, and `strcmp` if
  there is neither a difference nor a terminator.
-/
import ChronOS.Foundation.Memory
import ChronOS.Foundation.Search

set_option autoImplicit false

namespace ChronOS.Utils

open ChronOS.Foundation

/-- `memcmp` from offset `i` on. -/
def memcmpFrom (a b : Nat → Byte) : Nat → Nat → Int
  | _, 0 => 0
  | i, n + 1 => if a i < b i then -1 else if b i < a i then 1 else memcmpFrom a b (i + 1) n

def memcmp (a b : Nat → Byte) (size : Nat) : Int := memcmpFrom a b 0 size

/-- `strlen`, on the memory the caller sees; `none` if there is no terminator. -/
def strlen (user : Word → Byte) (str : Word) : Option Word :=
  searchIndex fun len => user (str + len) == 0

/-- `strcmp`: the loop is left at the first difference or terminator. -/
def strcmp (cs ct : Word → Byte) : Option Int := do
  let k ← searchIndex fun k => cs k != ct k || cs k == 0
  return if cs k = ct k then 0 else if cs k < ct k then -1 else 1

theorem memcmpFrom_eq_zero (a b : Nat → Byte) (n : Nat) :
    ∀ i, memcmpFrom a b i n = 0 ↔ ∀ j < n, a (i + j) = b (i + j) := by
  induction n with
  | zero => exact fun i => ⟨fun _ j hj => absurd hj (Nat.not_lt_zero j), fun _ => rfl⟩
  | succ n ih =>
    intro i
    unfold memcmpFrom
    split_ifs with hlt hgt
    · refine ⟨fun h => absurd h (by decide), fun h => ?_⟩
      exact absurd (h 0 (Nat.succ_pos n)) (BitVec.ne_of_lt hlt)
    · refine ⟨fun h => absurd h (by decide), fun h => ?_⟩
      exact absurd (h 0 (Nat.succ_pos n)).symm (BitVec.ne_of_lt hgt)
    · have hfirst : a i = b i := BitVec.le_antisymm (BitVec.not_lt.mp hgt) (BitVec.not_lt.mp hlt)
      rw [ih (i + 1)]
      constructor
      · intro h j hj
        cases j with
        | zero => exact hfirst
        | succ j =>
          have := h j (Nat.lt_of_succ_lt_succ hj)
          rwa [Nat.add_assoc, Nat.add_comm 1 j] at this
      · intro h j hj
        have := h (j + 1) (Nat.succ_lt_succ hj)
        rwa [Nat.add_assoc, Nat.add_comm 1 j]

theorem memcmp_eq_zero (a b : Nat → Byte) (n : Nat) : memcmp a b n = 0 ↔ ∀ j < n, a j = b j := by
  unfold memcmp
  rw [memcmpFrom_eq_zero]
  simp only [Nat.zero_add]

/-- With a terminator in the second string, at `len`, `strcmp` returns, and it returns 0 exactly if
the first string has the same bytes up to there. -/
theorem strcmp_returns (cs : Word → Byte) {ct : Word → Byte} {len : Word} (hend : ct len = 0)
    (hchars : ∀ k < len, ct k ≠ 0) :
    ∃ r, strcmp cs ct = some r ∧ (r = 0 ↔ ∀ k ≤ len, cs k = ct k) := by
  have hstop : (cs len != ct len || cs len == 0) = true := by
    by_cases hzero : cs len = 0
    · simp [hzero]
    · rw [hend]
      simpa using Or.inl hzero
  obtain ⟨j, hj, hle⟩ := @searchIndex_exists 64 (fun k => cs k != ct k || cs k == 0) len hstop
  obtain ⟨hexit, hbefore⟩ := searchIndex_eq_some.mp hj
  refine ⟨if cs j = ct j then 0 else if cs j < ct j then -1 else 1, ?_, ?_⟩
  · simp only [strcmp, hj, Option.bind_eq_bind, Option.bind_some, Option.pure_def]
  · have hzero : (if cs j = ct j then (0 : Int) else if cs j < ct j then -1 else 1) = 0 ↔
        cs j = ct j := by
      split_ifs <;> simp_all
    rw [hzero]
    constructor
    · intro heq
      -- the loop was left at a terminator, and the second string has its first one at `len`
      have hterm : ct j = 0 := by
        have hcs : cs j = 0 := by simpa [heq] using hexit
        rw [← heq, hcs]
      have hjlen : j = len := by
        by_contra hne
        exact hchars j (BitVec.lt_of_le_ne hle hne) hterm
      subst hjlen
      intro k hk
      by_cases hkj : k = j
      · rw [hkj, heq]
      · have hsame := hbefore k (BitVec.lt_of_le_ne hk hkj)
        simp only [Bool.or_eq_false_iff, bne_eq_false_iff_eq] at hsame
        exact hsame.1
    · exact fun h => h j hle

end ChronOS.Utils
