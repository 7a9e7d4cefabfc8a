/-
  Foundation/Search.lean --- `int idx = 0; while (!stop(idx)) idx++;`

  The loops modelled with this file change nothing but their counter, and the
  counter is a machine integer that wraps.  Such a loop either stops at the
  first index that satisfies its exit test or, once every value of the counter
  has been tried, never stops: `2 ^ w` iterations therefore decide it, and `none`
  below is divergence, not a bound that was chosen too small.  The same holds for a
  loop that walks through any finite type (`searchFrom_card`).
-/
import Mathlib

set_option autoImplicit false

namespace ChronOS.Foundation

/-- Iterate `next` until `stop` holds, for at most `fuel` tests. -/
def searchFrom {α : Type} (stop : α → Bool) (next : α → α) : Nat → α → Option α
  | 0, _ => none
  | fuel + 1, i => if stop i then some i else searchFrom stop next fuel (next i)

section

variable {α : Type} {stop : α → Bool} {next : α → α}

/-- The search ends at the first state on its way that passes the exit test. -/
theorem searchFrom_iterate {fuel : Nat} {i j : α} :
    searchFrom stop next fuel i = some j ↔
      ∃ n < fuel, next^[n] i = j ∧ stop j = true ∧ ∀ k < n, stop (next^[k] i) = false := by
  induction fuel generalizing i with
  | zero => simp [searchFrom]
  | succ fuel ih =>
    rw [searchFrom]
    by_cases hstop : stop i = true
    · rw [if_pos hstop, Option.some.injEq]
      constructor
      · rintro rfl
        exact ⟨0, Nat.succ_pos fuel, rfl, hstop, fun k hk => absurd hk (Nat.not_lt_zero k)⟩
      · rintro ⟨n, -, rfl, -, hbefore⟩
        cases n with
        | zero => rfl
        | succ n =>
          have hgoes : stop i = false := hbefore 0 (Nat.succ_pos n)
          exact absurd hstop (by simp [hgoes])
    · rw [if_neg hstop, ih]
      constructor
      · rintro ⟨n, hn, hj, hend, hbefore⟩
        refine ⟨n + 1, Nat.succ_lt_succ hn, hj, hend, fun k hk => ?_⟩
        cases k with
        | zero => simpa using hstop
        | succ k => exact hbefore k (Nat.lt_of_succ_lt_succ hk)
      · rintro ⟨n, hn, hj, hend, hbefore⟩
        cases n with
        | zero =>
          subst hj
          exact absurd hend hstop
        | succ n =>
          exact ⟨n, Nat.lt_of_succ_lt_succ hn, hj, hend, fun k hk => hbefore (k + 1) (by omega)⟩

theorem searchFrom_stop {fuel : Nat} {i j : α} (h : searchFrom stop next fuel i = some j) :
    stop j = true := by
  obtain ⟨n, -, -, hstop, -⟩ := searchFrom_iterate.mp h
  exact hstop

/-- What holds at the start and is kept by every iteration holds at the end. -/
theorem searchFrom_induct {I : α → Prop} (hstep : ∀ x, stop x = false → I x → I (next x))
    {fuel : Nat} {i j : α} (hi : I i) (h : searchFrom stop next fuel i = some j) : I j := by
  induction fuel generalizing i with
  | zero => simp [searchFrom] at h
  | succ fuel ih =>
    rw [searchFrom] at h
    split_ifs at h with hstop
    · exact Option.some.inj h ▸ hi
    · exact ih (hstep i (by simpa using hstop) hi) h

/-- A search over a finite type that ends visits no state twice, so as many tests as there are
states decide it. -/
theorem searchFrom_card [Fintype α] {fuel : Nat} {i j : α}
    (h : searchFrom stop next fuel i = some j) :
    searchFrom stop next (Fintype.card α) i = some j := by
  obtain ⟨n, -, hj, hstop, hbefore⟩ := searchFrom_iterate.mp h
  have hinj : Set.InjOn (fun k => next^[k] i) (Finset.range (n + 1)) := by
    intro a ha b hb heq
    simp only [Finset.coe_range, Set.mem_Iio] at ha hb
    -- from a repeated state the exit would have been reached by the shorter way too
    have hshort : ∀ a b, a < b → b ≤ n → next^[a] i ≠ next^[b] i := by
      intro a b hab hbn heq
      have hexit : next^[n - b + a] i = j := by
        rw [Function.iterate_add_apply, heq, ← Function.iterate_add_apply, Nat.sub_add_cancel hbn,
          hj]
      have hfalse := hbefore (n - b + a) (by omega)
      rw [hexit, hstop] at hfalse
      cases hfalse
    rcases Nat.lt_trichotomy a b with hlt | rfl | hlt
    · exact absurd heq (hshort a b hlt (by omega))
    · rfl
    · exact absurd heq.symm (hshort b a hlt (by omega))
  classical
  have hcard := Finset.card_le_univ ((Finset.range (n + 1)).image fun k => next^[k] i)
  rw [Finset.card_image_of_injOn hinj, Finset.card_range] at hcard
  exact searchFrom_iterate.mpr ⟨n, hcard, hj, hstop, hbefore⟩

end

/-- The same for machine words. -/
theorem searchFrom_pow {w : Nat} {stop : BitVec w → Bool} {next : BitVec w → BitVec w}
    {fuel : Nat} {i j : BitVec w} (h : searchFrom stop next fuel i = some j) :
    searchFrom stop next (2 ^ w) i = some j := by
  have hcard : Fintype.card (BitVec w) = 2 ^ w := by
    rw [Fintype.card_congr BitVec.equivFin.toEquiv, Fintype.card_fin]
  exact hcard ▸ searchFrom_card h

/-- Count up from zero until `stop` holds; `none` when no index ever stops the
loop. -/
def searchIndex {w : Nat} (stop : BitVec w → Bool) : Option (BitVec w) :=
  searchFrom stop (· + 1) (2 ^ w) 0

section

variable {w : Nat} {stop : BitVec w → Bool}

theorem searchFrom_eq_some {fuel i : Nat} (hbound : i + fuel ≤ 2 ^ w) {j : BitVec w} :
    searchFrom stop (· + 1) fuel (BitVec.ofNat w i) = some j ↔
      i ≤ j.toNat ∧ j.toNat < i + fuel ∧ stop j = true ∧
        ∀ k, i ≤ k → k < j.toNat → stop (BitVec.ofNat w k) = false := by
  induction fuel generalizing i with
  | zero => simp [searchFrom]; omega
  | succ fuel ih =>
      have hi : (BitVec.ofNat w i).toNat = i := by
        simp [Nat.mod_eq_of_lt (show i < 2 ^ w by omega)]
      rw [searchFrom]
      by_cases hstop : stop (BitVec.ofNat w i) = true
      · rw [if_pos hstop, Option.some.injEq]
        constructor
        · rintro rfl
          exact ⟨by omega, by omega, hstop, fun k hik hk => by omega⟩
        · rintro ⟨hij, _, _, hbefore⟩
          apply BitVec.eq_of_toNat_eq
          by_contra hne
          have := hbefore i (by omega) (by omega)
          simp [hstop] at this
      · have hnext : BitVec.ofNat w i + 1 = BitVec.ofNat w (i + 1) := by
          rw [BitVec.ofNat_add]; rfl
        rw [if_neg hstop, hnext, ih (by omega)]
        constructor
        · rintro ⟨hij, hlt, hj, hbefore⟩
          refine ⟨by omega, by omega, hj, fun k hik hk => ?_⟩
          rcases Nat.eq_or_lt_of_le hik with rfl | hik
          · simpa using hstop
          · exact hbefore k hik hk
        · rintro ⟨hij, hlt, hj, hbefore⟩
          have hne : j.toNat ≠ i := by
            intro heq
            have : j = BitVec.ofNat w i := BitVec.eq_of_toNat_eq (by omega)
            exact hstop (this ▸ hj)
          exact ⟨by omega, by omega, hj, fun k hik hk => hbefore k (by omega) hk⟩

/-- The loop stops at `j` exactly when `j` is the least index that passes the
exit test. -/
theorem searchIndex_eq_some {j : BitVec w} :
    searchIndex stop = some j ↔ stop j = true ∧ ∀ i, i < j → stop i = false := by
  have hfrom := @searchFrom_eq_some w stop (2 ^ w) 0 (by omega) j
  have hzero : BitVec.ofNat w 0 = (0 : BitVec w) := rfl
  rw [hzero] at hfrom
  rw [searchIndex, hfrom]
  constructor
  · rintro ⟨_, _, hj, hbefore⟩
    refine ⟨hj, fun i hi => ?_⟩
    have := hbefore i.toNat (by omega) (BitVec.lt_def.mp hi)
    simpa using this
  · rintro ⟨hj, hbefore⟩
    refine ⟨by omega, by have := j.isLt; omega, hj, fun k _ hk => hbefore _ ?_⟩
    have hkw : k < 2 ^ w := by have := j.isLt; omega
    rw [BitVec.lt_def, BitVec.toNat_ofNat, Nat.mod_eq_of_lt hkw]
    exact hk

/-- Some index passes the exit test, so the loop stops no later than there. -/
theorem searchIndex_exists {i : BitVec w} (hi : stop i = true) :
    ∃ j, searchIndex stop = some j ∧ j ≤ i := by
  induction hn : i.toNat using Nat.strong_induction_on generalizing i with
  | _ n ih =>
      by_cases hearlier : ∃ k, k < i ∧ stop k = true
      · obtain ⟨k, hk, hstop⟩ := hearlier
        obtain ⟨j, hj, hle⟩ := ih k.toNat (by rw [← hn]; exact BitVec.lt_def.mp hk) hstop rfl
        refine ⟨j, hj, ?_⟩
        rw [BitVec.le_def] at hle ⊢
        have := BitVec.lt_def.mp hk
        omega
      · refine ⟨i, searchIndex_eq_some.mpr ⟨hi, fun k hk => ?_⟩, BitVec.le_refl i⟩
        have hnot : ¬ stop k = true := fun hs => hearlier ⟨k, hk, hs⟩
        simpa using hnot

/-- No index passes the exit test, so the loop never ends. -/
theorem searchIndex_eq_none :
    searchIndex stop = none ↔ ∀ i, stop i = false := by
  constructor
  · intro hnone i
    by_contra hi
    have hstop : stop i = true := by simpa using hi
    obtain ⟨j, hj, _⟩ := searchIndex_exists hstop
    simp [hnone] at hj
  · intro hall
    cases hsearch : searchIndex stop with
    | none => rfl
    | some j =>
        have hstop := (searchIndex_eq_some.mp hsearch).1
        simp [hall j] at hstop

end

/-- A loop that keeps the last match ends with a match, or has kept what it started with. -/
theorem foldl_last_match {α : Type} (p : α → Prop) [DecidablePred p] (l : List α)
    (start : Option α) :
    (∃ x ∈ l, p x ∧ l.foldl (fun x i => if p i then some i else x) start = some x) ∨
      ((∀ x ∈ l, ¬ p x) ∧ l.foldl (fun x i => if p i then some i else x) start = start) := by
  induction l generalizing start with
  | nil => exact Or.inr ⟨by simp, rfl⟩
  | cons a l ih =>
    rw [List.foldl_cons]
    by_cases ha : p a
    · rw [if_pos ha]
      rcases ih (some a) with ⟨x, hx, hpx, heq⟩ | ⟨-, heq⟩
      · exact Or.inl ⟨x, List.mem_cons_of_mem a hx, hpx, heq⟩
      · exact Or.inl ⟨a, List.mem_cons_self, ha, heq⟩
    · rw [if_neg ha]
      rcases ih start with ⟨x, hx, hpx, heq⟩ | ⟨hnone, heq⟩
      · exact Or.inl ⟨x, List.mem_cons_of_mem a hx, hpx, heq⟩
      · exact Or.inr ⟨List.forall_mem_cons.mpr ⟨ha, hnone⟩, heq⟩

end ChronOS.Foundation
