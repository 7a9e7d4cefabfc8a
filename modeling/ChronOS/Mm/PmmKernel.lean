/-
  Mm/PmmKernel.lean --- the kernel image and the page allocator.

  When the segment begins below the kernel, `pmm_init` locks the bits of the
  kernel's pages once.  Nothing renews the lock: `pmm_getpages` runs over locked
  indices without looking at them, and a page it has handed out may be freed.
  The result is about the runs in which no request for several pages reaches the
  kernel.
-/
import ChronOS.Mm.PmmSegments

set_option autoImplicit false

namespace ChronOS.Mm

open ChronOS.Foundation ChronOS.Ds

/-! ## Runs of the allocator's interface -/

/-- `PmmTrace ok s₀ s out`: calls that satisfy `ok` lead from `s₀` to `s`, `out` are the pages
obtained on the way, and only such pages are freed. -/
inductive PmmTrace (ok : PmmCall → Pmm → Prop) (s₀ : Pmm) : Pmm → List Word → Prop
  | start : PmmTrace ok s₀ s₀ []
  | call {s s' : Pmm} {out pages : List Word} (c : PmmCall) :
      PmmTrace ok s₀ s out → ok c s → (∀ a, c = .freepage a → a ∈ out) →
      c.exec s = some (pages, s') → PmmTrace ok s₀ s' (out ++ pages)

/-- Some byte of the page at `a` lies in `[lo, hi)`. -/
def PageMeets (lo hi a : Word) : Prop :=
  max lo.toNat a.toNat < min hi.toNat (a.toNat + 0x1000)

/-- Some byte of the descriptor's range lies in `[lo, hi)`. -/
def Descriptor.Overlaps (d : Descriptor) (lo hi : Word) : Prop :=
  max lo.toNat d.physAddr.toNat < min hi.toNat d.stop

instance (lo hi a : Word) : Decidable (PageMeets lo hi a) := inferInstanceAs (Decidable (_ < _))

instance (d : Descriptor) (lo hi : Word) : Decidable (d.Overlaps lo hi) :=
  inferInstanceAs (Decidable (_ < _))

/-- The allocator never hands out the kernel: after every run whose calls satisfy `ok`, a page
returned by `pmm_getpage` while an index is clear has no byte in `[kernStart, kernEnd)`. -/
def KernelKept (kernStart kernEnd : Word) (ok : PmmCall → Pmm → Prop) (s₀ : Pmm) : Prop :=
  ∀ s out a s', PmmTrace ok s₀ s out → s.HasFree → pmmGetpage s = some (a, s') →
    ¬ PageMeets kernStart kernEnd a

/-- The call takes no index of the kernel: from the first clear index on, the requested indices
below the limit belong to other pages. -/
def PmmCall.SparesKernel (kernStart kernEnd : Word) : PmmCall → Pmm → Prop
  | .getpages pages, s => ∀ k, (k ≤ s.limit → s.taken k = false) →
      (∀ i < k, i ≤ s.limit ∧ s.taken i = true) →
      ∀ j < pages.toInt.toNat, k + j < s.limit → ¬ PageMeets kernStart kernEnd (s.page (k + j))
  | _, _ => True

/-! ## The lock -/

section Lock

variable {kernStart kernEnd : Word} {s₀ s : Pmm} {out : List Word}

/-- The bits of the kernel's pages are set, and freeing a page obtained so far clears none of
them. -/
structure KernelLocked (kernStart kernEnd : Word) (s₀ s : Pmm) (out : List Word) : Prop where
  geometry : s.startOfMem = s₀.startOfMem ∧ s.limit = s₀.limit
  locked : ∀ i < s₀.limit, PageMeets kernStart kernEnd (s₀.page i) → s.taken i = true
  obtained : ∀ a ∈ out, ∀ i < s₀.limit, PageMeets kernStart kernEnd (s₀.page i) →
    (pageIndex s₀.startOfMem a).toNat ≠ i

theorem toNat_pageIndex_run (start : Word) {k : BitVec 32} (hk : k.toNat < 2 ^ 19) {j : Nat}
    (hj : j < 2 ^ 31) :
    (pageIndex start (pageAddress start k + BitVec.ofNat 64 (0x1000 * j))).toNat =
      k.toNat + j := by
  have hpage : pageAddress start k + BitVec.ofNat 64 (0x1000 * j) =
      start + BitVec.ofNat 64 (0x1000 * (k.toNat + j)) := by
    rw [pageAddress_eq start hk, BitVec.add_assoc, ← BitVec.ofNat_add, ← Nat.mul_add]
  rw [pageIndex, hpage, BitVec.toNat_setWidth, BitVec.toNat_udiv, toNat_offset _ (by omega)]
  simp only [BitVec.toNat_ofNat, Nat.reducePow, Nat.reduceMod]
  omega

/-- Taking the `n` indices from the first clear one on, none of them the kernel's. -/
theorem KernelLocked.take (hlimit : s₀.limit + 1 < 2 ^ 19)
    (h : KernelLocked kernStart kernEnd s₀ s out) {k : BitVec 32} (hk : firstClear s = some k)
    {n : Nat} (hn : n < 2 ^ 31)
    (hspare : ∀ j < n, k.toNat + j < s₀.limit →
      ¬ PageMeets kernStart kernEnd (s₀.page (k.toNat + j))) :
    KernelLocked kernStart kernEnd s₀ (s.markFrom k n)
      (out ++ (List.range n).map fun j =>
        pageAddress s.startOfMem k + BitVec.ofNat 64 (0x1000 * j)) := by
  obtain ⟨hstart, hsize⟩ := h.geometry
  have hkle := firstClear_le (by omega) hk
  refine ⟨⟨by simpa using hstart, by simpa using hsize⟩, fun i hi hmeets => ?_,
    fun a ha i hi hmeets heq => ?_⟩
  · exact (taken_markFrom s k (by omega) n).mpr (Or.inl (h.locked i hi hmeets))
  · rcases List.mem_append.mp ha with ha | ha
    · exact h.obtained a ha i hi hmeets heq
    · obtain ⟨j, hj, rfl⟩ := List.mem_map.mp ha
      rw [List.mem_range] at hj
      rw [hstart, toNat_pageIndex_run _ (by omega) (by omega)] at heq
      exact hspare j hj (by omega) (heq ▸ hmeets)

/-- Freeing a page that was obtained. -/
theorem KernelLocked.freepage (h : KernelLocked kernStart kernEnd s₀ s out) {a : Word}
    (ha : a ∈ out) (hlimit : s₀.limit < 2 ^ 64) :
    KernelLocked kernStart kernEnd s₀ (pmmFreepage a s) out := by
  obtain ⟨hstart, hsize⟩ := h.geometry
  refine ⟨⟨hstart, hsize⟩, fun i hi hmeets => ?_, h.obtained⟩
  have hne := h.obtained a ha i hi hmeets
  rw [← hstart] at hne
  unfold pmmFreepage
  by_cases hacc : (pageIndex s.startOfMem a).toNat ≤ s.limit
  · rw [taken_mark s 0 hacc (by omega), if_neg (Ne.symm hne)]
    exact h.locked i hi hmeets
  · rw [mark_rejected s 0 (by omega)]
    exact h.locked i hi hmeets

/-- The first clear index is not the kernel's. -/
theorem KernelLocked.not_meets_firstClear (h : KernelLocked kernStart kernEnd s₀ s out)
    {k : BitVec 32} (hk : firstClear s = some k) (hlt : k.toNat < s₀.limit) :
    ¬ PageMeets kernStart kernEnd (s₀.page k.toNat) := by
  intro hmeets
  have hclear := ((firstClear_eq_some s k).mp hk).1 (by have := h.geometry.2; omega)
  rw [h.locked _ hlt hmeets] at hclear
  cases hclear

/-- One call. -/
theorem KernelLocked.exec (hlimit : s₀.limit + 1 < 2 ^ 19)
    (h : KernelLocked kernStart kernEnd s₀ s out) {c : PmmCall}
    (hok : c.SparesKernel kernStart kernEnd s) (hfree : ∀ a, c = .freepage a → a ∈ out)
    {pages : List Word} {s' : Pmm} (hexec : c.exec s = some (pages, s')) :
    KernelLocked kernStart kernEnd s₀ s' (out ++ pages) := by
  obtain ⟨hstart, hsize⟩ := h.geometry
  cases c with
  | getpage =>
    simp only [PmmCall.exec, Option.bind_eq_bind, Option.bind_eq_some_iff, Option.pure_def,
      Option.some.injEq, Prod.mk.injEq, Prod.exists, pmmGetpage_eq_some] at hexec
    obtain ⟨a, s₁, ⟨k, hk, rfl, rfl⟩, rfl, rfl⟩ := hexec
    have htake := h.take hlimit hk (n := 1) (by decide) fun j hj hlt => by
      obtain rfl : j = 0 := by omega
      exact h.not_meets_firstClear hk hlt
    simpa [Pmm.markFrom] using htake
  | getpages pages' =>
    simp only [PmmCall.exec, Option.bind_eq_bind, Option.bind_eq_some_iff, Option.pure_def,
      Option.some.injEq, Prod.mk.injEq, Prod.exists, pmmGetpages_eq_some] at hexec
    obtain ⟨a, s₁, ⟨k, hk, rfl, rfl⟩, rfl, rfl⟩ := hexec
    obtain ⟨hclear, hlow⟩ := (firstClear_eq_some s k).mp hk
    have hlt := @BitVec.toInt_lt 32 pages'
    refine h.take hlimit hk (by omega) fun j hj hjlt => ?_
    have := hok k.toNat hclear hlow j hj (by omega)
    rwa [Pmm.page, hstart] at this
  | freepage a =>
    cases hexec
    rw [List.append_nil]
    exact h.freepage (hfree a rfl) (by omega)

theorem PmmTrace.kernelLocked (hlimit : s₀.limit + 1 < 2 ^ 19)
    (h₀ : KernelLocked kernStart kernEnd s₀ s₀ [])
    (htrace : PmmTrace (PmmCall.SparesKernel kernStart kernEnd) s₀ s out) :
    KernelLocked kernStart kernEnd s₀ s out := by
  induction htrace with
  | start => exact h₀
  | call c _ hok hobtained hexec ih => exact ih.exec hlimit hok hobtained hexec

theorem KernelLocked.kept (hlimit : s₀.limit + 1 < 2 ^ 19)
    (h₀ : KernelLocked kernStart kernEnd s₀ s₀ []) :
    KernelKept kernStart kernEnd (PmmCall.SparesKernel kernStart kernEnd) s₀ := by
  intro s out a s' htrace hfree hget
  have h := htrace.kernelLocked hlimit h₀
  obtain ⟨hstart, hsize⟩ := h.geometry
  obtain ⟨k, hk, rfl, -⟩ := pmmGetpage_eq_some.mp hget
  obtain ⟨i, hi, hclear⟩ := hfree
  obtain ⟨k', hk', hle⟩ := firstClear_exists s i (by omega) fun _ => hclear
  obtain rfl : k = k' := Option.some.inj (hk.symm.trans hk')
  rw [hstart, pageAddress_eq _ (by omega)]
  exact h.not_meets_firstClear hk (by omega)

end Lock

/-! ## After `pmm_init` -/

/-- Where the lock of `pmm_init` covers the kernel.  A kernel that begins up to `start_of_mem` is
not locked, so the chosen segment is larger than its reservation, or the kernel ends there.  One
that begins behind it is locked from the page of its first byte on, and the division that counts
its pages does not lose the last one.  The memory is small enough for every index to have its own
address. -/
structure KernelPlaced (kernStart kernEnd : Word) (map : MemoryMap) (s : Pmm) : Prop where
  below : ∃ d, chosenDescriptor map.entries s = some d ∧
    (kernStart ≤ (clearedPmm map.entries s).startOfMem →
      4 < d.numPages.toNat ∨ kernEnd ≤ (clearedPmm map.entries s).startOfMem)
  behind : (clearedPmm map.entries s).startOfMem < kernStart →
    (kernEnd - kernStart).toNat < 2 ^ 42 ∧
      (kernStart - (clearedPmm map.entries s).startOfMem).toNat % 0x1000 +
        (kernEnd - kernStart).toNat % 0x1000 ≤ 0x1000
  memory : (getMemSize map.entries s.memorySizeBytes).toNat < 0x7FFF8000

theorem toNat_page (s : Pmm) {i : Nat} (h : s.startOfMem.toNat + 0x1000 * i < 2 ^ 64) :
    (s.page i).toNat = s.startOfMem.toNat + 0x1000 * i := by
  rw [Pmm.page, BitVec.toNat_add, BitVec.toNat_ofNat]
  omega

theorem toNat_kernelPages {size : Word} (hsize : size.toNat < 2 ^ 42) :
    ((size / 0x1000#64 + 1#64).setWidth 32 : BitVec 32).toInt.toNat = size.toNat / 0x1000 + 1 := by
  have hnat : ((size / 0x1000#64 + 1#64).setWidth 32 : BitVec 32).toNat =
      size.toNat / 0x1000 + 1 := by
    simp only [BitVec.toNat_setWidth, BitVec.toNat_add, BitVec.toNat_udiv, BitVec.toNat_ofNat,
      Nat.reducePow, Nat.reduceMod]
    omega
  rw [BitVec.toInt_eq_toNat_cond, hnat]
  split <;> omega

/-- Locking from the kernel's first page on covers every page with a byte of the kernel. -/
theorem lockpages_covers {s : Pmm} {kernStart kernEnd : Word}
    (hsize : (kernEnd - kernStart).toNat < 2 ^ 42)
    (hround : (kernStart - s.startOfMem).toNat % 0x1000 + (kernEnd - kernStart).toNat % 0x1000 ≤
      0x1000) (hbelow : s.startOfMem < kernStart) {i : Nat} (hi : i ≤ s.limit) (hlt : i < 2 ^ 19)
    (hroom : s.startOfMem.toNat + 0x1000 * i < 2 ^ 64)
    (hmeets : PageMeets kernStart kernEnd (s.page i)) :
    (pmmLockpages kernStart (((kernEnd - kernStart) / 0x1000#64 + 1#64).setWidth 32) s).taken i =
      true := by
  unfold PageMeets at hmeets
  rw [toNat_page s hroom] at hmeets
  rw [BitVec.lt_def] at hbelow
  have hkernLt := kernEnd.isLt
  have hoff : (kernStart - s.startOfMem).toNat = kernStart.toNat - s.startOfMem.toNat :=
    BitVec.toNat_sub_of_le (BitVec.le_def.mpr hbelow.le)
  -- the first index locked
  have hidx : (pageIndex s.startOfMem kernStart).toNat =
      (kernStart.toNat - s.startOfMem.toNat) / 0x1000 := by
    simp only [pageIndex, BitVec.toNat_setWidth, BitVec.toNat_udiv, hoff, BitVec.toNat_ofNat,
      Nat.reducePow, Nat.reduceMod]
    omega
  have hdiff : (kernEnd - kernStart).toNat = kernEnd.toNat - kernStart.toNat :=
    BitVec.toNat_sub_of_le (BitVec.le_def.mpr (by omega))
  rw [hoff, hdiff] at hround
  rw [pmmLockpages, toNat_kernelPages hsize, hdiff, taken_markFrom s _ (by omega)]
  refine Or.inr ⟨hi, i - (kernStart.toNat - s.startOfMem.toNat) / 0x1000, by omega, ?_⟩
  rw [BitVec.toNat_add, hidx, BitVec.toNat_ofNat]
  omega

/-- After `pmm_init` every page of the bitmap with a byte of the kernel is locked. -/
theorem pmmInit_kernelLocked {map : MemoryMap} {kernStart kernEnd : Word} {s : Pmm}
    (h : KernelPlaced kernStart kernEnd map s)
    (hdisjoint : ∀ d ∈ map.entries, d.type = efiConventionalMemory →
      ¬ d.Overlaps kernStart kernEnd) :
    KernelLocked kernStart kernEnd (pmmInit kernStart kernEnd map.entries s)
      (pmmInit kernStart kernEnd map.entries s) [] := by
  obtain ⟨d, hchosen, hreserved⟩ := h.below
  obtain ⟨hd, htype, -, -⟩ := chosenDescriptor_eq_some hchosen
  obtain ⟨-, hstart⟩ := clearedPmm_of_chosen hchosen
  have hbound := map.bounded d hd
  have hapart := hdisjoint d hd htype
  unfold Descriptor.Overlaps Descriptor.stop at hapart
  unfold Descriptor.stop at hbound
  have hstartNat : (clearedPmm map.entries s).startOfMem.toNat = d.physAddr.toNat + 0x4000 := by
    rw [hstart, BitVec.toNat_add, BitVec.toNat_ofNat]
    omega
  have hlimit := clearedPmm_limit map.entries s
  have hmem := h.memory
  refine ⟨⟨rfl, rfl⟩, ?_, by simp⟩
  rw [pmmInit_eq]
  by_cases hbelow : (clearedPmm map.entries s).startOfMem < kernStart
  · rw [if_pos hbelow]
    intro i hi hmeets
    have hi' : i < (clearedPmm map.entries s).limit := by simpa [pmmLockpages] using hi
    refine lockpages_covers (h.behind hbelow).1 (h.behind hbelow).2 hbelow (by omega) (by omega)
      (by omega) ?_
    simpa [pmmLockpages, Pmm.page] using hmeets
  · -- a segment with pages behind the reservation begins where the kernel has ended
    rw [if_neg hbelow]
    intro i hi hmeets
    rw [BitVec.not_lt] at hbelow
    have hend := hreserved hbelow
    rw [BitVec.le_def] at hbelow hend
    have hpage := @toNat_page (clearedPmm map.entries s) i (by omega)
    unfold PageMeets at hmeets
    omega

/-- The kernel is never handed out, as long as no call of `pmm_getpages` takes an index of the
kernel: on every memory map whose conventional descriptors lie apart from the kernel and whose
chosen segment lies as `KernelPlaced` says. -/
theorem kernel_never_handed_out (map : MemoryMap) (kernStart kernEnd : Word) (s : Pmm)
    (hplaced : KernelPlaced kernStart kernEnd map s)
    (hdisjoint : ∀ d ∈ map.entries, d.type = efiConventionalMemory →
      ¬ d.Overlaps kernStart kernEnd) :
    KernelKept kernStart kernEnd (PmmCall.SparesKernel kernStart kernEnd)
      (pmmInit kernStart kernEnd map.entries s) := by
  refine (pmmInit_kernelLocked hplaced hdisjoint).kept ?_
  have hlimit := pmmInit_limit kernStart kernEnd map.entries s
  have hmem := hplaced.memory
  omega

/-- Eight conventional pages in front of the kernel. -/
def frontMap : MemoryMap where
  entries := [⟨7, 0x100000, 8⟩]
  bounded := by unfold Descriptor.stop; decide
  disjoint := by simp

/-- The allocator on `frontMap` with the kernel at 0x108000. -/
def frontPmm : Pmm := pmmInit 0x108000 0x10A000 frontMap.entries bootPmm

theorem frontMap_placed :
    KernelPlaced 0x108000 0x10A000 frontMap bootPmm ∧
    ∀ d ∈ frontMap.entries, d.type = efiConventionalMemory → ¬ d.Overlaps 0x108000 0x10A000 := by
  refine ⟨⟨⟨⟨7, 0x100000, 8⟩, rfl, fun _ => Or.inl (by decide)⟩, fun _ => ?_, by decide⟩, ?_⟩
  · decide
  · intro d hd _
    obtain rfl := List.mem_singleton.mp hd
    unfold Descriptor.Overlaps Descriptor.stop
    decide

/-- The four pages of the segment are clear, and the three pages after them are locked. -/
theorem frontPmm_taken {i : Nat} (hi : i ≤ 16) :
    frontPmm.limit = 16 ∧ (frontPmm.taken i = true ↔ 4 ≤ i ∧ i < 7) := by
  have hinit : frontPmm = (clearedPmm frontMap.entries bootPmm).markFrom 4 3 := by
    unfold frontPmm
    rw [pmmInit_eq, if_pos (by decide), pmmLockpages]
    congr 1
  have hlimit : (clearedPmm frontMap.entries bootPmm).limit = 16 := by
    rw [clearedPmm_limit]
    decide
  have hclear := clearedPmm_taken frontMap.entries bootPmm (i := i) (by omega)
  rw [hinit, markFrom_limit, hlimit, taken_markFrom_of_le _ (by decide) (by omega), hclear, hlimit]
  have hfour : (4 : BitVec 32).toNat = 4 := rfl
  refine ⟨rfl, ?_⟩
  simp only [hfour, Bool.false_eq_true, false_or]
  omega

theorem frontPmm_firstClear : firstClear frontPmm = some 0 := by
  refine (firstClear_eq_some _ _).mpr ⟨fun _ => ?_, by simp⟩
  have h := (frontPmm_taken (Nat.zero_le 16)).2
  simpa using h

theorem frontPmm_startOfMem : frontPmm.startOfMem = 0x104000 := by
  unfold frontPmm
  rw [pmmInit_startOfMem]
  decide

/-- After `pmm_getpages(6)`: the four pages of the segment and two of the kernel are taken. -/
def frontTaken : Pmm := frontPmm.markFrom 0 6

/-- After `pmm_freepage(0x108000)`. -/
def frontFreed : Pmm := pmmFreepage 0x108000 frontTaken

theorem frontTaken_getpages : pmmGetpages 6 frontPmm = some (0x104000, frontTaken) := by
  refine pmmGetpages_eq_some.mpr ⟨0, frontPmm_firstClear, ?_, rfl⟩
  rw [frontPmm_startOfMem]
  decide

theorem frontTaken_taken {i : Nat} (hi : i ≤ 16) : frontTaken.taken i = true ↔ i < 7 := by
  obtain ⟨hlimit, htaken⟩ := frontPmm_taken hi
  have hzero : (0 : BitVec 32).toNat = 0 := rfl
  rw [frontTaken, taken_markFrom_of_le _ (by decide) (by omega), htaken, hlimit, hzero]
  omega

theorem frontTaken_geometry : frontTaken.startOfMem = 0x104000 ∧ frontTaken.limit = 16 := by
  rw [frontTaken, markFrom_startOfMem, markFrom_limit]
  exact ⟨frontPmm_startOfMem, (frontPmm_taken (Nat.zero_le 16)).1⟩

theorem frontFreed_eq : frontFreed = frontTaken.mark 4 0 := by
  rw [frontFreed, pmmFreepage, frontTaken_geometry.1]
  congr 1

theorem frontFreed_taken {i : Nat} (hi : i ≤ 16) :
    frontFreed.taken i = true ↔ i < 7 ∧ i ≠ 4 := by
  have hfour : (4 : BitVec 32).toNat = 4 := rfl
  have hlimit := frontTaken_geometry.2
  rw [frontFreed_eq, taken_mark _ _ (by omega) (by omega), hfour]
  by_cases hi4 : i = 4
  · simp [hi4]
  · rw [if_neg hi4, frontTaken_taken hi]
    omega

/-- The next page is the first page of the kernel. -/
theorem frontFreed_getpage :
    frontFreed.HasFree ∧ pmmGetpage frontFreed = some (0x108000, frontFreed.mark 4 1) := by
  have hlimit : frontFreed.limit = 16 := by
    rw [frontFreed_eq, mark_limit]
    exact frontTaken_geometry.2
  have hclear : frontFreed.taken 4 = false := by
    have := frontFreed_taken (show 4 ≤ 16 by decide)
    simpa using this
  refine ⟨⟨4, by omega, hclear⟩, pmmGetpage_eq_some.mpr ⟨4, ?_, ?_, rfl⟩⟩
  · refine (firstClear_eq_some _ _).mpr ⟨fun _ => hclear, fun i hi => ?_⟩
    have hi4 : i < 4 := hi
    exact ⟨by omega, (frontFreed_taken (by omega)).mpr (by omega)⟩
  · rw [frontFreed_eq, mark_startOfMem, frontTaken_geometry.1]
    decide

/-- On `frontMap` a request for six pages returns the four pages of the segment and two of the
kernel; after 0x108000 is freed, the next page is the first page of the kernel. -/
theorem frontPmm_hands_out_kernel :
    (∀ d ∈ frontMap.entries, d.type = efiConventionalMemory → ¬ d.Overlaps 0x108000 0x10A000) ∧
    (∃ out, PmmTrace (fun _ _ => True) frontPmm frontFreed out) ∧
    frontFreed.HasFree ∧ (∃ s', pmmGetpage frontFreed = some (0x108000, s')) ∧
    ¬ KernelKept 0x108000 0x10A000 (fun _ _ => True) frontPmm := by
  obtain ⟨hfree, hpage⟩ := frontFreed_getpage
  have htrace : ∃ out, PmmTrace (fun _ _ => True) frontPmm frontFreed out := by
    refine ⟨_, .call (.freepage 0x108000) (.call (.getpages 6) .start trivial (by simp)
      (by rw [PmmCall.exec, frontTaken_getpages]; rfl)) trivial ?_ rfl⟩
    intro a ha
    obtain rfl := PmmCall.freepage.inj ha
    decide
  refine ⟨frontMap_placed.2, htrace, hfree, ⟨_, hpage⟩, fun hkept => ?_⟩
  obtain ⟨out, htrace⟩ := htrace
  exact hkept _ _ _ _ htrace hfree hpage (by decide)

/-- The first page handed out on `frontMap` is not the kernel's. -/
theorem frontPmm_keeps_kernel :
    KernelPlaced 0x108000 0x10A000 frontMap bootPmm ∧
    ∃ s', pmmGetpage frontPmm = some (0x104000, s') ∧ ¬ PageMeets 0x108000 0x10A000 0x104000 := by
  obtain ⟨hplaced, hdisjoint⟩ := frontMap_placed
  have hget : pmmGetpage frontPmm = some (0x104000, frontPmm.mark 0 1) := by
    refine pmmGetpage_eq_some.mpr ⟨0, frontPmm_firstClear, ?_, rfl⟩
    rw [frontPmm_startOfMem]
    decide
  have hhas : frontPmm.HasFree := by
    obtain ⟨hlimit, htaken⟩ := frontPmm_taken (Nat.zero_le 16)
    exact ⟨0, by omega, by simpa using htaken⟩
  exact ⟨hplaced, _, hget, kernel_never_handed_out frontMap 0x108000 0x10A000 bootPmm hplaced
    hdisjoint _ _ _ _ .start hhas hget⟩

end ChronOS.Mm
