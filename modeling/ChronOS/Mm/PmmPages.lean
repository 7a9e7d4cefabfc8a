/-
  Mm/PmmPages.lean --- runs of pages, and indices against addresses.

  `pmm_getpages` searches for one clear index and takes the following ones as
  they are; `getpages_takes_free_run_iff` says in which states that is a run of
  free pages.  An index becomes an address by an `int` product and an address an
  index by a division; `indices_convert_iff` says up to which memory size the two
  are inverse to each other on the whole bitmap.
-/
import ChronOS.Mm.PmmRuns

set_option autoImplicit false

namespace ChronOS.Mm

open ChronOS.Foundation ChronOS.Ds

/-! ## Marking a run -/

@[simp] theorem mark_pmmBitmap (s : Pmm) (idx : BitVec 32) (value : Byte) :
    (s.mark idx value).pmmBitmap = s.pmmBitmap := rfl

@[simp] theorem mark_limit (s : Pmm) (idx : BitVec 32) (value : Byte) :
    (s.mark idx value).limit = s.limit := rfl

@[simp] theorem markFrom_pmmBitmap (s : Pmm) (idx : BitVec 32) (n : Nat) :
    (s.markFrom idx n).pmmBitmap = s.pmmBitmap := by
  induction n with
  | zero => rfl
  | succ n ih => rw [Pmm.markFrom, mark_pmmBitmap, ih]

@[simp] theorem markFrom_limit (s : Pmm) (idx : BitVec 32) (n : Nat) :
    (s.markFrom idx n).limit = s.limit := by
  rw [Pmm.limit, markFrom_pmmBitmap]
  rfl

/-- The marking loop sets the accepted ones among its indices and no other bit. -/
theorem taken_markFrom (s : Pmm) (idx : BitVec 32) {j : Nat} (hj : j / 8 < 2 ^ 64) (n : Nat) :
    (s.markFrom idx n).taken j = true ↔
      s.taken j = true ∨ j ≤ s.limit ∧ ∃ i < n, (idx + BitVec.ofNat 32 i).toNat = j := by
  induction n with
  | zero => simp [Pmm.markFrom]
  | succ n ih =>
    have hlast : (∃ i < n + 1, (idx + BitVec.ofNat 32 i).toNat = j) ↔
        (∃ i < n, (idx + BitVec.ofNat 32 i).toNat = j) ∨
          (idx + BitVec.ofNat 32 n).toNat = j := by
      simp only [Nat.lt_succ_iff_lt_or_eq, or_and_right, exists_or, exists_eq_left]
    rw [Pmm.markFrom, hlast]
    by_cases hacc : (idx + BitVec.ofNat 32 n).toNat ≤ s.limit
    · rw [taken_mark _ _ (by rwa [markFrom_limit]) hj]
      by_cases hhit : j = (idx + BitVec.ofNat 32 n).toNat
      · simp [← hhit, hhit ▸ hacc]
      · have hmiss : ¬ (idx + BitVec.ofNat 32 n).toNat = j := fun h => hhit h.symm
        rw [if_neg hhit, ih]
        simp only [hmiss, or_false]
    · rw [mark_rejected _ _ (by rw [markFrom_limit]; omega), ih]
      constructor
      · rintro (h | ⟨hle, h⟩)
        · exact Or.inl h
        · exact Or.inr ⟨hle, Or.inl h⟩
      · rintro (h | ⟨hle, h | heq⟩)
        · exact Or.inl h
        · exact Or.inr ⟨hle, h⟩
        · omega

/-- Without overflow of the index the loop sets the accepted indices of an interval. -/
theorem taken_markFrom_of_le (s : Pmm) {idx : BitVec 32} {n : Nat} (hn : idx.toNat + n ≤ 2 ^ 32)
    {j : Nat} (hj : j / 8 < 2 ^ 64) :
    (s.markFrom idx n).taken j = true ↔
      s.taken j = true ∨ j ≤ s.limit ∧ idx.toNat ≤ j ∧ j < idx.toNat + n := by
  have hsum : ∀ i < n, (idx + BitVec.ofNat 32 i).toNat = idx.toNat + i :=
    fun i hi => toNat_add_ofNat idx (by omega)
  have hrun : (∃ i < n, (idx + BitVec.ofNat 32 i).toNat = j) ↔
      idx.toNat ≤ j ∧ j < idx.toNat + n := by
    constructor
    · rintro ⟨i, hi, rfl⟩
      rw [hsum i hi]
      omega
    · intro ⟨hlow, hhigh⟩
      exact ⟨j - idx.toNat, by omega, by rw [hsum _ (by omega)]; omega⟩
  rw [taken_markFrom s idx hj, hrun]

/-- The first clear index is at most one past the limit. -/
theorem firstClear_le {s : Pmm} {k : BitVec 32} (hlimit : s.limit + 1 < 2 ^ 32)
    (hk : firstClear s = some k) : k.toNat ≤ s.limit + 1 := by
  obtain ⟨k', hk', hle⟩ := firstClear_exists s (s.limit + 1) hlimit fun h => by omega
  obtain rfl : k = k' := Option.some.inj (hk.symm.trans hk')
  exact hle

/-! ## `pmm_getpages` -/

/-- The indices `k .. k + n - 1` are clear and below `8 * size`. -/
def Pmm.FreeRun (s : Pmm) (k n : Nat) : Prop :=
  k + n ≤ s.limit ∧ ∀ j < n, s.taken (k + j) = false

/-- What `pmm_getpages` is expected to do in the state `s`: it returns the address of a run of
`n` free pages and sets exactly the bits of that run. -/
def TakesFreeRun (pages : BitVec 32) (s : Pmm) : Prop :=
  ∃ k s', pmmGetpages pages s = some (s.page k, s') ∧ s.FreeRun k pages.toInt.toNat ∧
    ∀ j < 2 ^ 64, s'.taken j =
      if k ≤ j ∧ j < k + pages.toInt.toNat then true else s.taken j

/-- The `int` product is the address of the page only below 2^19. -/
theorem pageAddress_eq_page_iff (s : Pmm) {k : Nat} (hk : k < 2 ^ 32) :
    pageAddress s.startOfMem (BitVec.ofNat 32 k) = s.page k ↔ k < 2 ^ 19 := by
  have hnat : (BitVec.ofNat 32 k).toNat = k := Nat.mod_eq_of_lt hk
  constructor
  · intro h
    have hoff := congrArg BitVec.toNat ((BitVec.add_right_inj _).mp h)
    rw [toNat_pageOffset, hnat, BitVec.toNat_ofNat] at hoff
    split at hoff <;> omega
  · intro hsmall
    rw [pageAddress_eq _ (by omega), hnat, Pmm.page]

/-- A free run that the call takes begins at the first clear index. -/
theorem TakesFreeRun.begins_at_firstClear {s : Pmm} {pages : BitVec 32}
    (hpages : 1 ≤ pages.toInt) (h : TakesFreeRun pages s) :
    ∃ k < 2 ^ 19, (∀ i < k, s.taken i = true) ∧ s.FreeRun k pages.toInt.toNat := by
  have hlt := @BitVec.toInt_lt 32 pages
  obtain ⟨k, s', hget, ⟨hroom, hclear⟩, hbits⟩ := h
  obtain ⟨idx, hfirst, haddr, rfl⟩ := pmmGetpages_eq_some.mp hget
  obtain ⟨hidx, hlow⟩ := (firstClear_eq_some s idx).mp hfirst
  -- index `k` was clear, so the search does not run past it
  have hle : idx.toNat ≤ k := by
    by_contra hgt
    have htaken := (hlow k (by omega)).2
    rw [← Nat.add_zero k, hclear 0 (by omega)] at htaken
    cases htaken
  -- the index where it stops is set by the call, so it belongs to the run
  have hset : (s.markFrom idx pages.toInt.toNat).taken idx.toNat = true :=
    (taken_markFrom s idx (by omega) _).mpr (Or.inr ⟨by omega, 0, by omega, by simp⟩)
  rw [hbits idx.toNat (by omega)] at hset
  have heq : idx.toNat = k := by
    by_contra hne
    rw [if_neg (by omega), hidx (by omega)] at hset
    cases hset
  have hidxEq : idx = BitVec.ofNat 32 k := by
    rw [← heq, BitVec.ofNat_toNat, BitVec.setWidth_eq]
  rw [hidxEq, pageAddress_eq_page_iff s (by omega)] at haddr
  exact ⟨k, haddr, fun i hi => (hlow i (by omega)).2, hroom, hclear⟩

/-- A free run that begins at the first clear index is taken. -/
theorem TakesFreeRun.of_firstClear {s : Pmm} {pages : BitVec 32} (hpages : 1 ≤ pages.toInt)
    {k : Nat} (hk : k < 2 ^ 19) (hlow : ∀ i < k, s.taken i = true)
    (hrun : s.FreeRun k pages.toInt.toNat) : TakesFreeRun pages s := by
  have hlt := @BitVec.toInt_lt 32 pages
  obtain ⟨hroom, hclear⟩ := hrun
  have hnat : (BitVec.ofNat 32 k).toNat = k := Nat.mod_eq_of_lt (by omega)
  have hfirst : firstClear s = some (BitVec.ofNat 32 k) := by
    rw [firstClear_eq_some, hnat]
    exact ⟨fun _ => hclear 0 (by omega), fun i hi => ⟨by omega, hlow i hi⟩⟩
  have haddr := (pageAddress_eq_page_iff s (by omega)).mpr hk
  refine ⟨k, _, pmmGetpages_eq_some.mpr ⟨_, hfirst, haddr, rfl⟩, ⟨hroom, hclear⟩, ?_⟩
  intro j hj
  have hmark := @taken_markFrom_of_le s (BitVec.ofNat 32 k) pages.toInt.toNat (by omega) j
    (by omega)
  rw [hnat] at hmark
  by_cases hin : k ≤ j ∧ j < k + pages.toInt.toNat
  · rw [if_pos hin, hmark]
    exact Or.inr ⟨by omega, hin⟩
  · rw [if_neg hin, Bool.eq_iff_iff, hmark]
    simp [hin]

/-- `pmm_getpages` takes a run of free pages exactly when the first clear index begins one:
it is below 2^19, and the indices after it that the call takes are clear and in range. -/
theorem getpages_takes_free_run_iff (s : Pmm) (pages : BitVec 32) (hpages : 1 ≤ pages.toInt) :
    TakesFreeRun pages s ↔
      ∃ k < 2 ^ 19, (∀ i < k, s.taken i = true) ∧ s.FreeRun k pages.toInt.toNat := by
  constructor
  · intro h
    exact h.begins_at_firstClear hpages
  · rintro ⟨k, hk, hlow, hrun⟩
    exact .of_firstClear hpages hk hlow hrun

/-- In `lockedPmm` index 0 is clear and index 1 is locked, and the indices 2 and 3 are a free
run; a request for two pages takes 0 and 1. -/
theorem lockedPmm_getpages_takes_locked :
    lockedPmm.FreeRun 2 2 ∧ lockedPmm.taken 1 = true ∧
    (∃ s', pmmGetpages 2 lockedPmm = some (0x104000, s')) ∧ ¬ TakesFreeRun 2 lockedPmm := by
  have hrun : lockedPmm.FreeRun 2 2 := by unfold Pmm.FreeRun; decide
  have hfirst : firstClear lockedPmm = some 0 := by decide +kernel
  refine ⟨hrun, by decide, ⟨_, pmmGetpages_eq_some.mpr ⟨0, hfirst, by decide, rfl⟩⟩, ?_⟩
  rintro ⟨k, s', hget, ⟨hroom, hclear⟩, -⟩
  obtain ⟨idx, hidx, haddr, -⟩ := pmmGetpages_eq_some.mp hget
  obtain rfl : idx = 0 := Option.some.inj (hidx.symm.trans hfirst)
  have hlimit : lockedPmm.limit = 8 := rfl
  have hk : 0 = k := page_injective lockedPmm (by decide) (by omega) haddr
  have hsecond := hclear 1 (by decide)
  rw [← hk] at hsecond
  cases hsecond

/-- After the first page of `lockedPmm` is taken the next two free pages form a run. -/
theorem lockedPmm_getpages_takes_free_run :
    (1 : Int) ≤ (2 : BitVec 32).toInt ∧ TakesFreeRun 2 (lockedPmm.mark 0 1) := by
  refine ⟨by decide, (getpages_takes_free_run_iff _ 2 (by decide)).mpr ⟨2, by decide, ?_, ?_⟩⟩
  · decide
  · unfold Pmm.FreeRun
    decide

/-! ## Indices and addresses -/

/-- Indices and addresses convert exactly: the address `pmm_getpage` computes for an index of
the bitmap is the page of that index, no two indices share an address, and `pmm_freepage` of
the address clears the bit of the index and no other. -/
structure Converts (s : Pmm) : Prop where
  address : ∀ k < s.limit, pageAddress s.startOfMem (BitVec.ofNat 32 k) = s.page k
  distinct : ∀ i < s.limit, ∀ k < s.limit,
    pageAddress s.startOfMem (BitVec.ofNat 32 i) = pageAddress s.startOfMem (BitVec.ofNat 32 k) →
      i = k
  freepage : ∀ k < s.limit, ∀ j < 2 ^ 64,
    (pmmFreepage (pageAddress s.startOfMem (BitVec.ofNat 32 k)) s).taken j =
      if j = k then false else s.taken j

/-- The number of bits of the bitmap `pmm_init` makes for a memory size. -/
theorem limit_of_memorySize {s : Pmm} {memorySize : Word}
    (hsize : s.pmmBitmap.size = memorySize / 4096#64 / 8#64 + 1#64) :
    s.limit = 8 * (memorySize.toNat / 0x8000 + 1) := by
  have hlt := memorySize.isLt
  rw [Pmm.limit, Bitmap.limit, hsize]
  simp only [BitVec.toNat_mul, BitVec.toNat_add, BitVec.toNat_udiv, BitVec.toNat_ofNat,
    Nat.reducePow, Nat.reduceMod]
  omega

/-- With the bitmap size `pmm_init` computes, indices and addresses convert exactly if and only
if the memory is smaller than 2^31 bytes. -/
theorem indices_convert_iff (s : Pmm) (memorySize : Word)
    (hsize : s.pmmBitmap.size = memorySize / 4096#64 / 8#64 + 1#64) :
    Converts s ↔ memorySize.toNat < 2 ^ 31 := by
  have hlimit := limit_of_memorySize hsize
  constructor
  · intro h
    by_contra hbig
    have haddr := h.address (2 ^ 19) (by omega)
    rw [pageAddress_eq_page_iff s (by decide)] at haddr
    omega
  · intro hsmall
    have hnat : ∀ k < s.limit, (BitVec.ofNat 32 k).toNat = k :=
      fun k hk => Nat.mod_eq_of_lt (by omega)
    have haddr : ∀ k < s.limit, pageAddress s.startOfMem (BitVec.ofNat 32 k) = s.page k :=
      fun k hk => (pageAddress_eq_page_iff s (by omega)).mpr (by omega)
    refine ⟨haddr, fun i hi k hk heq => ?_, fun k hk j hj => ?_⟩
    · rw [haddr i hi, haddr k hk] at heq
      exact page_injective s (by omega) (by omega) heq
    · rw [pmmFreepage, pageIndex_pageAddress _ (by rw [hnat k hk]; omega),
        taken_mark s 0 (by rw [hnat k hk]; omega) (by omega), hnat k hk]
      rfl

/-- The allocator on 2 GiB of memory: 2^19 + 8 indices. -/
def twoGibPmm : Pmm where
  mem := fun _ => 0
  pmmBitmap := ⟨0x100000, 0x10001⟩
  startOfMem := 0x104000
  memorySizeBytes := 0x80000000

/-- Index 2^19 of `twoGibPmm` is computed to be 2 GiB below the start of memory. -/
theorem twoGibPmm_converts_wrong :
    2 ^ 19 < twoGibPmm.limit ∧
    pageAddress twoGibPmm.startOfMem (BitVec.ofNat 32 (2 ^ 19)) = 0xFFFFFFFF80104000 ∧
    twoGibPmm.page (2 ^ 19) = 0x80104000 ∧ ¬ Converts twoGibPmm := by
  have hpage : twoGibPmm.page (2 ^ 19) = 0x80104000 := by decide
  have haddr : pageAddress twoGibPmm.startOfMem (BitVec.ofNat 32 (2 ^ 19)) =
      0xFFFFFFFF80104000 := by decide
  have hlimit : 2 ^ 19 < twoGibPmm.limit := by decide
  refine ⟨hlimit, haddr, hpage, fun h => ?_⟩
  have := h.address (2 ^ 19) hlimit
  rw [haddr, hpage] at this
  cases this

theorem lockedPmm_converts :
    lockedPmm.pmmBitmap.size = (0x7000 : Word) / 4096#64 / 8#64 + 1#64 ∧ Converts lockedPmm :=
  ⟨by decide, (indices_convert_iff lockedPmm 0x7000 (by decide)).mpr (by decide)⟩

end ChronOS.Mm
