/-
  Foundation/Loop.lean --- counting loops.

  If each iteration appends to a log what depends on its index only, a loop appends
  the concatenation over its indices; and if only one index produces a certain kind
  of entry, these entries are the ones of that index.

  `intLoop` is a loop over an `int` up to a bound of 64 bits without sign, as in
  `for (int i = 0; i < count; i++)`: the comparison extends the sign of `i`, so the
  values from 2^31 on count as very large, and the value -1 ends every such loop.
-/
import Mathlib

set_option autoImplicit false

namespace ChronOS.Foundation

variable {σ ι α : Type}

/-- The log of a loop whose iterations keep `P` and append `out i`. -/
theorem foldl_log {f : σ → ι → σ} {out : ι → List α} (log : σ → List α) (P : σ → Prop)
    {l : List ι} (hstep : ∀ i ∈ l, ∀ s, P s → P (f s i) ∧ log (f s i) = log s ++ out i) {s : σ}
    (hs : P s) : P (l.foldl f s) ∧ log (l.foldl f s) = log s ++ l.flatMap out := by
  induction l generalizing s with
  | nil => exact ⟨hs, (List.append_nil _).symm⟩
  | cons i l ih =>
    obtain ⟨hP, hlog⟩ := hstep i List.mem_cons_self s hs
    obtain ⟨hP', hlog'⟩ := ih (fun j hj => hstep j (List.mem_cons_of_mem i hj)) hP
    refine ⟨hP', ?_⟩
    rw [List.foldl_cons, hlog', hlog, List.flatMap_cons, List.append_assoc]

/-- Entries that one index alone can produce. -/
theorem filter_flatMap_if [DecidableEq ι] {p : α → Bool} {out : ι → List α} {l : List ι}
    (hl : l.Nodup) {k : ι} {Q : ι → Prop} [DecidablePred Q] {r : List α}
    (h : ∀ i ∈ l, (out i).filter p = if i = k ∧ Q i then r else []) :
    (l.flatMap out).filter p = if k ∈ l ∧ Q k then r else [] := by
  induction l with
  | nil => rfl
  | cons i l ih =>
    obtain ⟨hi, hl⟩ := List.nodup_cons.mp hl
    rw [List.flatMap_cons, List.filter_append, h i List.mem_cons_self,
      ih hl fun j hj => h j (List.mem_cons_of_mem i hj)]
    by_cases hik : i = k
    · subst hik
      simp [hi]
    · simp [hik, Ne.symm hik]

/-! ## An `int` against a `size_t` -/

/-- `for (; i < count; i++)`, for at most `fuel` tests. -/
def intLoop {σ : Type} (count : BitVec 64) (body : BitVec 32 → σ → Option σ) :
    (fuel : Nat) → BitVec 32 → σ → Option σ
  | 0, _, _ => none
  | fuel + 1, i, s =>
      if i.signExtend 64 < count then do
        let s ← body i s
        intLoop count body fuel (i + 1) s
      else some s

/-- The number of times the body runs when `i` starts at 0. -/
def iterations (count : BitVec 64) : Nat :=
  if count.toNat ≤ 2 ^ 31 then count.toNat
  else if count.toNat ≤ 2 ^ 64 - 2 ^ 31 then 2 ^ 31
  else count.toNat - (2 ^ 64 - 2 ^ 32)

theorem iterations_lt (count : BitVec 64) : iterations count < 2 ^ 32 := by
  have hcount := count.isLt
  unfold iterations
  split_ifs <;> omega

theorem signExtend_lt_iff (count : BitVec 64) {i : Nat} (hi : i < 2 ^ 32) :
    (BitVec.ofNat 32 i).signExtend 64 < count ↔
      (if i < 2 ^ 31 then i else i + (2 ^ 64 - 2 ^ 32)) < count.toNat := by
  have hnat : (BitVec.ofNat 32 i).toNat = i := Nat.mod_eq_of_lt hi
  rw [BitVec.lt_def, BitVec.toNat_signExtend, BitVec.toNat_setWidth, BitVec.msb_eq_decide, hnat]
  simp only [decide_eq_true_eq]
  split_ifs <;> omega

/-- The test succeeds up to the last iteration and fails after it. -/
theorem test_iff (count : BitVec 64) {i : Nat} (hi : i ≤ iterations count) :
    (BitVec.ofNat 32 i).signExtend 64 < count ↔ i < iterations count := by
  have hlt := iterations_lt count
  rw [signExtend_lt_iff count (by omega)]
  have hcount := count.isLt
  unfold iterations at *
  split_ifs at * <;> omega

/-- The loop is a fold over the values of `i`, and 2^32 tests are enough for it. -/
theorem intLoop_eq_foldlM {σ : Type} (count : BitVec 64) (body : BitVec 32 → σ → Option σ) (s : σ) :
    intLoop count body (2 ^ 32) 0 s =
      ((List.range (iterations count)).map (BitVec.ofNat 32)).foldlM (fun s i => body i s) s := by
  have hfrom : ∀ fuel i s, i + fuel = 2 ^ 32 → i ≤ iterations count →
      intLoop count body fuel (BitVec.ofNat 32 i) s =
        ((List.range' i (iterations count - i)).map (BitVec.ofNat 32)).foldlM
          (fun s i => body i s) s := by
    intro fuel
    induction fuel with
    | zero =>
      intro i s hfuel hi
      have := iterations_lt count
      omega
    | succ fuel ih =>
      intro i s hfuel hi
      rw [intLoop]
      by_cases hend : i = iterations count
      · rw [if_neg (mt (test_iff count hi).mp (by omega)), hend, Nat.sub_self]
        rfl
      · have hstep : iterations count - i = iterations count - (i + 1) + 1 := by omega
        have hnext : BitVec.ofNat 32 i + 1 = BitVec.ofNat 32 (i + 1) := by
          rw [BitVec.ofNat_add]
          rfl
        rw [if_pos ((test_iff count hi).mpr (by omega)), hstep, List.range'_succ, List.map_cons,
          List.foldlM_cons, hnext]
        refine Option.bind_congr fun s' _ => ?_
        exact ih (i + 1) s' (by omega) (by omega)
  have hzero := hfrom (2 ^ 32) 0 s (Nat.zero_add _) (Nat.zero_le _)
  rw [Nat.sub_zero, ← List.range_eq_range'] at hzero
  exact hzero

end ChronOS.Foundation
