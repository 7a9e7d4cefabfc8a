/-
  Mm/VmmIsolation.lean --- the two calls and the rest of the address space.

  `munmap` derives two things from its address: a bitmap index, which
  `bitmap_set` checks, and a virtual page, which nothing checks.  Pages outside
  the window are unmapped as readily as pages inside it.

  `mmap` ORs the flags of the caller into the entries of all four levels.  Flags
  without address bits only ever add tables obtained from the page allocator
  (`Extends`); any address bit ends up in the frame of some translation.
-/
import ChronOS.Mm.VmmMapping

set_option autoImplicit false

namespace ChronOS.Mm

open ChronOS.Foundation ChronOS.Ds ChronOS.Utils

/-! ## `munmap` outside the window -/

/-- The page of `v` is one of the pages of the window. -/
def WindowAddress (v : Word) : Prop :=
  ∃ j < VMM_SIZE_PAGES, pageNumber v = pageNumber (windowPage j)

/-- No page outside the window changes its translation. -/
def OutsideKept (proc : AddressSpace) (m m' : Mem) : Prop :=
  ∀ v, ¬ WindowAddress v → pageWalk m' proc.pml4 v = pageWalk m proc.pml4 v

section Unmap

variable {σ : Type} {dirs used : Set Word} {proc : AddressSpace} {owner : Owner}

theorem munmapSyscall_mem (proc : AddressSpace) (regs : Regs) (s : Machine σ) :
    (munmapSyscall (some proc) regs s).2.mem =
      if regs.rdi = 0 then s.mem
      else unmapPages proc regs.rdi (pageIndex VMM_ADDR_START regs.rdi)
        (regs.rsi.setWidth 32 : BitVec 32).toInt.toNat s.mem := by
  by_cases haddr : regs.rdi = 0
  · simp [munmapSyscall, munmap, haddr]
  · by_cases hpages : (regs.rsi.setWidth 32 : BitVec 32) = 0
    · have hcount : (0 : BitVec 32).toInt.toNat = 0 := rfl
      simp only [munmapSyscall, munmap, haddr, hpages, or_true, if_true, if_false, hcount,
        unmapPages]
    · simp only [munmapSyscall, munmap, haddr, hpages, or_self, if_false]

/-- `munmap_syscall` keeps every translation outside the window exactly when it is refused or each
page it is asked to unmap lies in the window or is not mapped. -/
theorem munmap_outside_kept_iff (hproc : proc.pml4 ∈ dirs) (s : Machine σ)
    (hT : Tables dirs s.mem used owner) (regs : Regs)
    (hbits : BitsApart proc.bitmap owner (pageIndex VMM_ADDR_START regs.rdi)
      (regs.rsi.setWidth 32 : BitVec 32).toInt.toNat) :
    OutsideKept proc s.mem (munmapSyscall (some proc) regs s).2.mem ↔
      regs.rdi = 0 ∨ ∀ i < (regs.rsi.setWidth 32 : BitVec 32).toInt.toNat,
        WindowAddress (pageAddress regs.rdi (BitVec.ofNat 32 i)) ∨
        pageWalk s.mem proc.pml4 (pageAddress regs.rdi (BitVec.ofNat 32 i)) = none := by
  rw [munmapSyscall_mem]
  obtain ⟨-, hwalk⟩ := unmapPages_walk hproc hT regs.rdi _ hbits
  by_cases haddr : regs.rdi = 0
  · rw [if_pos haddr]
    exact iff_of_true (fun _ _ => rfl) (Or.inl haddr)
  · rw [if_neg haddr, or_iff_right haddr]
    constructor
    · intro hkept i hi
      rw [or_iff_not_imp_left]
      intro hout
      rw [← hkept _ hout]
      exact (hwalk _).1 ⟨i, hi, rfl⟩
    · intro hpages v hout
      by_cases hin : InPages regs.rdi (regs.rsi.setWidth 32 : BitVec 32).toInt.toNat v
      · rw [(hwalk v).1 hin]
        obtain ⟨i, hi, heq⟩ := hin
        rw [pageWalk_of_pageNumber heq]
        rcases hpages i hi with ⟨j, hj, hwindow⟩ | hnone
        · exact absurd ⟨j, hj, heq.trans hwindow⟩ hout
        · exact hnone.symm
      · exact (hwalk v).2 hin

end Unmap

/-- `munmap(VMM_ADDR_START, 1)`. -/
def firstMunmap : Regs := { Regs.zero with rdi := VMM_ADDR_START, rsi := 1 }

/-- Unmapping the first page of the window stays inside it. -/
theorem firstMunmap_outside_kept :
    OutsideKept sampleProc sampleMachine.mem
      (munmapSyscall (some sampleProc) firstMunmap sampleMachine).2.mem := by
  obtain ⟨owner, hT, hstored⟩ := sampleMachine_tables
  have hcount : (firstMunmap.rsi.setWidth 32 : BitVec 32).toInt.toNat = 1 := rfl
  refine (munmap_outside_kept_iff (Set.mem_singleton _) sampleMachine hT firstMunmap
    (hstored.bitsApart hT rfl (inIndices_one.not.mpr (by decide)))).mpr
    (Or.inr fun i hi => Or.inl ⟨0, ?_, ?_⟩)
  · decide
  · obtain rfl : i = 0 := by omega
    decide

/-- `munmap(0x5000, 1)`. -/
def lowMunmap : Regs := { Regs.zero with rdi := 0x5000, rsi := 1 }

theorem not_windowAddress_low : ¬ WindowAddress 0x5000 := by
  rintro ⟨j, hj, heq⟩
  have hnat := congrArg BitVec.toNat heq
  have hlow : (0x5000 : Word).toNat = 0x5000 := rfl
  rw [toNat_pageNumber, toNat_pageNumber, toNat_windowPage hj, hlow] at hnat
  unfold VMM_SIZE_PAGES at hj
  omega

/-- A process whose page 0x5000 is identity mapped loses that mapping: the index of the address
is past the bitmap and is ignored, the page is unmapped all the same. -/
theorem lowMunmap_unmaps :
    ∃ s, pagingMap poolSource 0x1000 0x5000 0x5000 PAGE_PRESENT sampleMachine = some s ∧
      ¬ WindowAddress 0x5000 ∧ pageWalk s.mem 0x1000 0x5000 = some 0x5000 ∧
      pageWalk (munmapSyscall (some sampleProc) lowMunmap s).2.mem 0x1000 0x5000 = none ∧
      ¬ OutsideKept sampleProc s.mem (munmapSyscall (some sampleProc) lowMunmap s).2.mem := by
  obtain ⟨owner, hT, -⟩ := sampleMachine_tables
  obtain ⟨s, hmap, -⟩ := @pagingMap_progress _ poolSource 0 sampleMachine
    (poolSource_supplies 3 _ (by decide)) 0x1000 0x5000 0x5000 PAGE_PRESENT
  obtain ⟨owner', hgrows, hwalk⟩ := pagingMap_spec poolSource_lawful hT (Set.mem_singleton _)
    (by decide) (by decide) hmap
  have hbefore : pageWalk s.mem 0x1000 0x5000 = some 0x5000 := by
    rw [hwalk _ (Set.mem_singleton _), if_pos ⟨rfl, rfl⟩]
    decide
  have hafter : pageWalk (munmapSyscall (some sampleProc) lowMunmap s).2.mem 0x1000 0x5000 =
      none := by
    have haddr : lowMunmap.rdi ≠ 0 := by decide
    rw [munmapSyscall_mem, if_neg haddr]
    refine ((unmapPages_walk (Set.mem_singleton _) hgrows.tables _ 1 ?_).2 _).1 ⟨0, by decide, rfl⟩
    -- the index of 0x5000 is not one of the bitmap
    intro k hk haccept
    obtain rfl : k = 0 := by omega
    exact absurd haccept (by decide)
  refine ⟨s, hmap, not_windowAddress_low, hbefore, hafter, fun hkept => ?_⟩
  have hsame := hkept _ not_windowAddress_low
  have habsurd : (none : Option Word) = some 0x5000 := hafter.symm.trans (hsame.trans hbefore)
  cases habsurd

/-! ## The flags of `mmap` -/

section Flags

variable {σ : Type} {src : PageSource σ} {taken : σ → Set Word} {dirs : Set Word}
  {proc : AddressSpace}

/-- Tables are only added, and those added were not in use before. -/
structure Extends (taken : σ → Set Word) (s s' : Machine σ) (owner owner' : Owner) : Prop where
  taken_mono : taken s.pmm ⊆ taken s'.pmm
  owner_mono : ∀ t o, owner t = some o → owner' t = some o
  owner_new : ∀ t ∈ taken s.pmm, owner t = none → owner' t = none

theorem Extends.trans {s₁ s₂ s₃ : Machine σ} {o₁ o₂ o₃ : Owner}
    (h : Extends taken s₁ s₂ o₁ o₂) (h' : Extends taken s₂ s₃ o₂ o₃) :
    Extends taken s₁ s₃ o₁ o₃ where
  taken_mono := h.taken_mono.trans h'.taken_mono
  owner_mono := fun t o ho => h'.owner_mono t o (h.owner_mono t o ho)
  owner_new := fun t ht ho => h'.owner_new t (h.taken_mono ht) (h.owner_new t ht ho)

theorem mapPages_extends (hlaw : src.Lawful taken) (hproc : proc.pml4 ∈ dirs)
    {virtaddr physAddr flags : Word} {idx : BitVec 32} (hpresent : Present flags)
    (hflags : NoAddressBits flags) {s : Machine σ} {owner : Owner}
    (hT : Tables dirs s.mem (taken s.pmm) owner)
    (hstored : Stored proc.bitmap (taken s.pmm) owner) :
    ∀ (n : Nat) {s' : Machine σ}, idx.toNat + n ≤ VMM_SIZE_PAGES →
      mapPages src proc virtaddr physAddr flags idx n s = some s' →
      ∃ owner', Tables dirs s'.mem (taken s'.pmm) owner' ∧
        Stored proc.bitmap (taken s'.pmm) owner' ∧ Extends taken s s' owner owner' := by
  intro n
  induction n with
  | zero =>
    intro s' _ h
    cases h
    exact ⟨owner, hT, hstored, subset_rfl, fun _ _ h => h, fun _ _ h => h⟩
  | succ n ih =>
    intro s' hroom h
    simp only [mapPages, Option.bind_eq_bind, Option.bind_eq_some_iff] at h
    obtain ⟨s₁, hloop, hlast⟩ := h
    obtain ⟨owner₁, hT₁, hstored₁, hext⟩ := ih (by omega) hloop
    have hj : (idx + BitVec.ofNat 32 n).toNat < VMM_SIZE_PAGES := by
      rw [toNat_windowIndex hroom (Nat.lt_succ_self n)]
      omega
    obtain ⟨hT₂, -⟩ := bitmapSet_tables hT₁ (fun _ => hstored₁.not_inPage_bit hT₁ hj) 1
    obtain ⟨owner', hgrows, -⟩ := pagingMap_spec hlaw hT₂ hproc hpresent hflags hlast
    exact ⟨owner', hgrows.tables, (hgrows.apart hstored₁).1,
      hext.trans ⟨hgrows.taken_mono, hgrows.owner_mono, hgrows.owner_new⟩⟩

/-- A table that was not linked before is a page that was not in use before. -/
theorem Extends.obtained {s s' : Machine σ} {owner owner' : Owner}
    (h : Extends taken s s' owner owner') (hT : Tables dirs s.mem (taken s.pmm) owner)
    (hT' : Tables dirs s'.mem (taken s'.pmm) owner') {r : Word} (hr : r ∈ dirs)
    {q : List (BitVec 9)} (hq : q.length < 4) {t : Word}
    (hafter : Radix.walk (child s'.mem) r q = some t)
    (hbefore : Radix.walk (child s.mem) r q = none) : t ∈ taken s'.pmm ∧ t ∉ taken s.pmm := by
  have hown := hT'.forest.owner_of_walk hr hafter hq
  refine ⟨hT'.inUse t (by simp [hown]), fun hold => ?_⟩
  cases ho : owner t with
  | none =>
    rw [h.owner_new t hold ho] at hown
    cases hown
  | some o =>
    -- a table of before keeps its place, and was linked there
    rw [h.owner_mono t o ho] at hown
    have hlinked := hT.forest.linked t r q (ho.trans hown)
    rw [hbefore] at hlinked
    cases hlinked

/-- The call that returned `ret` for `n` pages from `phys` did what it was asked to: the pages are
mapped in order, new tables come from the page allocator, and the rest translates as before. -/
structure MapsAsAsked (taken : σ → Set Word) (proc : AddressSpace) (phys ret : Word) (n : Nat)
    (s s' : Machine σ) : Prop where
  translated : ∀ i < n, pageWalk s'.mem proc.pml4 (ret + BitVec.ofNat 64 (0x1000 * i)) =
    some ((phys &&& 0xFFFFFFFFFFFFF000#64) + BitVec.ofNat 64 (0x1000 * i))
  obtained : ∀ v : Word, ∀ level ≤ 3, ∀ t,
    Radix.walk (child s'.mem) proc.pml4 ((path v).take level) = some t →
    Radix.walk (child s.mem) proc.pml4 ((path v).take level) = none →
    t ∈ taken s'.pmm ∧ t ∉ taken s.pmm
  outside : ∀ v, (∀ i < n, pageNumber v ≠ pageNumber (ret + BitVec.ofNat 64 (0x1000 * i))) →
    pageWalk s'.mem proc.pml4 v = pageWalk s.mem proc.pml4 v

/-- Whatever the process, the physical range and the number of pages, `mmap_syscall` with these
flags maps what it was asked to. -/
def CannotRedirect (flags : Word) : Prop :=
  ∀ (σ : Type) (src : PageSource σ) (taken : σ → Set Word) (dirs : Set Word) (owner : Owner)
    (proc : AddressSpace) (regs regs' : Regs) (s s' : Machine σ), src.Lawful taken →
    proc.pml4 ∈ dirs → Tables dirs s.mem (taken s.pmm) owner →
    Stored proc.bitmap (taken s.pmm) owner →
    proc.bitmap.size = BitVec.ofNat 64 (VMM_SIZE_PAGES / 8) → regs.rsi = flags → regs.rdi ≠ 0 →
    1 ≤ (regs.rdx.setWidth 32 : BitVec 32).toInt →
    regs.rdi.toNat + 0x1000 * (regs.rdx.setWidth 32 : BitVec 32).toInt.toNat < 2 ^ 40 →
    (∃ k, WindowRun s.mem proc.bitmap k (regs.rdx.setWidth 32 : BitVec 32).toInt.toNat) →
    mmapSyscall src (some proc) regs s = some (regs', s') →
    MapsAsAsked taken proc regs.rdi regs'.rax (regs.rdx.setWidth 32 : BitVec 32).toInt.toNat s s'

theorem windowPage_add (k i : Nat) :
    windowPage k + BitVec.ofNat 64 (0x1000 * i) = windowPage (k + i) := by
  rw [windowPage, windowPage, BitVec.add_assoc, ← BitVec.ofNat_add, ← Nat.mul_add]

theorem mmapSyscall_eq_some {regs regs' : Regs} {s s' : Machine σ} :
    mmapSyscall src (some proc) regs s = some (regs', s') ↔
      ∃ ret, mmap src (some proc) regs.rdi regs.rsi (regs.rdx.setWidth 32) s = some (ret, s') ∧
        regs' = { regs with rax := ret } := by
  simp only [mmapSyscall, Option.bind_eq_bind, Option.bind_eq_some_iff, Option.pure_def,
    Option.some.injEq, Prod.mk.injEq, Prod.exists]
  constructor
  · rintro ⟨ret, s₁, hmmap, rfl, rfl⟩
    exact ⟨ret, hmmap, rfl⟩
  · rintro ⟨ret, hmmap, rfl⟩
    exact ⟨ret, s', hmmap, rfl, rfl⟩

/-- Flags without address bits cannot redirect a translation. -/
theorem cannotRedirect_of_noAddressBits {flags : Word} (hflags : NoAddressBits flags) :
    CannotRedirect flags := by
  intro σ src taken dirs owner proc regs regs' s s' hlaw hproc hT hstored hsize hrsi hphys hpages
    hroom hfit h
  have hlimit := limit_of_size hsize
  obtain ⟨ret, hmmap, rfl⟩ := mmapSyscall_eq_some.mp h
  generalize (regs.rdx.setWidth 32 : BitVec 32) = pages at *
  rw [hrsi, mmap_eq_some hphys (ne_zero_of_pos hpages)] at hmmap
  obtain ⟨idx, hfind, rfl, hloop⟩ := hmmap
  obtain ⟨idx', hfind', ⟨hwindow, -⟩, -⟩ := findPages_first_fit hlimit hpages hfit
  obtain rfl : idx = idx' := Option.some.inj (hfind.symm.trans hfind')
  have hpresent : Present (flags ||| PAGE_PRESENT) := present_or (by decide)
  have hidx : idx.toNat < VMM_SIZE_PAGES := by omega
  rw [pageAddress_window hidx] at hloop ⊢
  obtain ⟨-, -, hmapped, hother⟩ := mapPages_spec hlaw hproc hlimit hpresent
    (noAddressBits_or_present hflags) hT hstored _ hwindow hloop
  obtain ⟨owner', hT', -, hext⟩ := mapPages_extends hlaw hproc hpresent
    (noAddressBits_or_present hflags) hT hstored _ hwindow hloop
  refine ⟨fun i hi => ?_, fun v level hlevel t hafter hbefore => ?_, fun v hv => ?_⟩
  · rw [windowPage_add, hmapped i hi, frame_of_page hroom (by omega) hi]
  · refine hext.obtained hT hT' hproc ?_ hafter hbefore
    rw [List.length_take]
    omega
  · apply hother v
    rintro ⟨i, hi, heq⟩
    exact hv i hi (heq.trans (congrArg pageNumber (windowPage_add _ i).symm))

end Flags

/-! ## Flags with address bits -/

/-- The sample process after `mmap(0x1000, 0, 1)`: bit 0 of the bitmap is set, no other one, and
page 0 of the window has its tables. -/
theorem sampleMachine_mapped :
    ∃ s owner, mmap poolSource (some sampleProc) 0x1000 0 1 sampleMachine =
        some (windowPage 0, s) ∧
      Tables {0x1000} s.mem s.pmm.taken owner ∧ Stored sampleProc.bitmap s.pmm.taken owner ∧
      (∀ i < VMM_SIZE_PAGES, bitAt s.mem sampleProc.bitmap.bitmap i = decide (i = 0)) ∧
      ∃ pt, Radix.walk (child s.mem) 0x1000 ((path (windowPage 0)).take 3) = some pt := by
  obtain ⟨owner, hT, hstored⟩ := sampleMachine_tables
  have hcount : (1 : BitVec 32).toInt.toNat = 1 := rfl
  obtain ⟨idx, hfind, ⟨hwindow, -⟩, hleast⟩ := @findPages_first_fit sampleMachine.mem
    sampleProc.bitmap rfl 1 (by decide) ⟨0, sampleMachine_window⟩
  have hzero : idx.toNat = 0 := by
    by_contra hne
    exact hleast 0 (Nat.pos_of_ne_zero hne) sampleMachine_window
  obtain ⟨s, hloop, -⟩ := @mapPages_progress _ poolSource sampleProc (windowPage idx.toNat)
    (0x1000 &&& 0xFFFFFFFFFFFFF000#64) (0 ||| PAGE_PRESENT) idx (1 : BitVec 32).toInt.toNat 0
    sampleMachine (poolSource_supplies 3 _ (by decide))
  obtain ⟨⟨owner', hT', hstored'⟩, hbits, hmapped, -⟩ := mapPages_spec poolSource_lawful
    (Set.mem_singleton _) rfl (by decide) (by decide) hT hstored _ hwindow hloop
  rw [hzero] at hbits hmapped hloop
  have haddr : windowPage 0 = pageAddress VMM_ADDR_START idx := by
    rw [pageAddress_window (by rw [hzero]; decide), hzero]
  refine ⟨s, owner', (mmap_eq_some (by decide) (by decide)).mpr ⟨idx, hfind, haddr, hloop⟩, hT',
    hstored', fun i hi => ?_, ?_⟩
  · rw [hbits i hi, sampleMachine_clear.1 i hi, hcount]
    by_cases hfirst : i = 0
    · rw [if_pos (by omega), decide_eq_true hfirst]
    · rw [if_neg (by omega), decide_eq_false hfirst]
  · have hwalk := hmapped 0 (by decide)
    rw [Nat.add_zero] at hwalk
    exact table_of_pageWalk hwalk

/-- The next page of the window shares these tables, so any flags end up in its frame. -/
theorem second_mmap (phys flags : Word) (hphys : phys ≠ 0) :
    ∃ s₁ s₂ owner, mmap poolSource (some sampleProc) 0x1000 0 1 sampleMachine =
        some (windowPage 0, s₁) ∧
      Tables {0x1000} s₁.mem s₁.pmm.taken owner ∧ Stored sampleProc.bitmap s₁.pmm.taken owner ∧
      WindowRun s₁.mem sampleProc.bitmap 1 1 ∧
      mmap poolSource (some sampleProc) phys flags 1 s₁ = some (windowPage 1, s₂) ∧
      pageWalk s₂.mem 0x1000 (windowPage 1) =
        some ((phys &&& 0x000000fffffff000#64) ||| (flags &&& 0x000ffffffffff000#64)) := by
  obtain ⟨s₁, owner, hfirst, hT, hstored, hbits, pt, hpt⟩ := sampleMachine_mapped
  have hrun : WindowRun s₁.mem sampleProc.bitmap 1 1 := by
    refine ⟨by decide, fun j hj => ?_⟩
    obtain rfl : j = 0 := by omega
    rw [hbits _ (by decide)]
    rfl
  -- page 0 is in use, so the search ends at page 1
  obtain ⟨idx, hfind, ⟨hwindow, hclear⟩, hleast⟩ := @findPages_first_fit s₁.mem
    sampleProc.bitmap rfl 1 (by decide) ⟨1, hrun⟩
  have hle : idx.toNat ≤ 1 := by
    by_contra hgt
    exact hleast 1 (by omega) hrun
  have hne : idx.toNat ≠ 0 := by
    intro hzero
    have hbit := hclear 0 (by decide)
    rw [hzero, hbits _ (by decide)] at hbit
    cases hbit
  have hone : idx.toNat = 1 := by omega
  have hj : (idx + 0#32).toNat < VMM_SIZE_PAGES := by
    rw [BitVec.add_zero, hone]
    decide
  obtain ⟨hT', -⟩ := bitmapSet_tables hT (fun _ => hstored.not_inPage_bit hT hj) 1
  have hshared : Radix.walk (child (bitmapSet s₁.mem sampleProc.bitmap (idx + 0#32) 1).2) 0x1000
      ((path (windowPage 1)).take 3) = some pt := by
    have hown := hT.forest.owner_of_walk (Set.mem_singleton _) hpt (by simp [path])
    exact hT'.forest.linked _ _ _ hown
  obtain ⟨m, hmap, -, hwalk⟩ := @pagingMap_of_walk _ poolSource _
    { s₁ with mem := (bitmapSet s₁.mem sampleProc.bitmap (idx + 0#32) 1).2 } _ _ hT' 0x1000
    (windowPage 1) (phys &&& 0xFFFFFFFFFFFFF000#64) (flags ||| PAGE_PRESENT) _
    (Set.mem_singleton _) hshared (present_or (by decide))
  have hpage : ∀ x : Word, pageAddress x 0#32 = x := by
    intro x
    rw [pageAddress_eq x (by decide)]
    exact BitVec.add_zero x
  have hloop : mapPages poolSource sampleProc (windowPage 1) (phys &&& 0xFFFFFFFFFFFFF000#64)
      (flags ||| PAGE_PRESENT) idx (1 : BitVec 32).toInt.toNat s₁ = some { s₁ with mem := m } := by
    have hcount : (1 : BitVec 32).toInt.toNat = 1 := rfl
    rw [hcount, mapPages_one, mapPage, hpage, hpage]
    exact hmap
  have haddr : windowPage 1 = pageAddress VMM_ADDR_START idx := by
    rw [pageAddress_window (by rw [hone]; decide), hone]
  refine ⟨s₁, _, owner, hfirst, hT, hstored, hrun,
    (mmap_eq_some hphys (by decide)).mpr ⟨idx, hfind, haddr, hloop⟩, ?_⟩
  have hround : phys &&& 0xFFFFFFFFFFFFF000#64 &&& 0x000000fffffff000#64 =
      phys &&& 0x000000fffffff000#64 := by
    rw [BitVec.and_assoc]
    rfl
  have hpresent : (flags ||| PAGE_PRESENT) &&& 0x000ffffffffff000#64 =
      flags &&& 0x000ffffffffff000#64 := by
    rw [BitVec.and_or_distrib_right]
    exact BitVec.or_zero
  rw [hwalk _ (Set.mem_singleton _), if_pos ⟨rfl, rfl⟩, hround, hpresent]

/-- `mmap_syscall` maps what it was asked to, in every process and for every range, exactly for
the flags without a bit in the address field of an entry. -/
theorem cannotRedirect_iff (flags : Word) : CannotRedirect flags ↔ NoAddressBits flags := by
  constructor
  · intro h
    obtain ⟨s₁, s₂, owner, -, hT, hstored, hrun, hmmap, hwalk⟩ := second_mmap 1 flags (by decide)
    obtain ⟨regs, hrdi, hrsi, hrdx⟩ : ∃ regs : Regs, regs.rdi = 1 ∧ regs.rsi = flags ∧
        (regs.rdx.setWidth 32 : BitVec 32) = 1 :=
      ⟨{ Regs.zero with rdi := 1, rsi := flags, rdx := 1 }, rfl, rfl, rfl⟩
    have hcall := mmapSyscall_eq_some.mpr ⟨_, (by rw [hrdi, hrsi, hrdx]; exact hmmap), rfl⟩
    have hasked := h _ _ _ _ _ _ regs _ _ _ poolSource_lawful (Set.mem_singleton _) hT hstored rfl
      hrsi (by rw [hrdi]; decide) (by rw [hrdx]; decide) (by rw [hrdi, hrdx]; decide)
      ⟨1, by rw [hrdx]; exact hrun⟩ hcall
    -- the page of address 1 is page 0
    have hzero := hasked.translated 0 (by rw [hrdx]; decide)
    have hfirst : windowPage 1 + BitVec.ofNat 64 (0x1000 * 0) = windowPage 1 := BitVec.add_zero _
    have hpage : ((1 : Word) &&& 0xFFFFFFFFFFFFF000#64) + BitVec.ofNat 64 (0x1000 * 0) = 0#64 := by
      decide
    have hleft : (1 : Word) &&& 0x000000fffffff000#64 = 0#64 := by decide
    rw [hfirst, hrdi, hpage] at hzero
    have hframe := Option.some.inj (hwalk.symm.trans hzero)
    rwa [hleft, BitVec.zero_or] at hframe
  · exact cannotRedirect_of_noAddressBits

/-- `mmap(0x1000, 0x2000, 1)`, the second call of a process, maps frame 0x3000. -/
theorem flags_redirect :
    ∃ s₁ s₂, mmap poolSource (some sampleProc) 0x1000 0 1 sampleMachine =
        some (windowPage 0, s₁) ∧
      mmap poolSource (some sampleProc) 0x1000 0x2000 1 s₁ = some (windowPage 1, s₂) ∧
      pageWalk s₂.mem sampleProc.pml4 (windowPage 1) = some 0x3000 ∧
      ¬ MapsAsAsked PagePool.taken sampleProc 0x1000 (windowPage 1) 1 s₁ s₂ := by
  obtain ⟨s₁, s₂, -, hfirst, -, -, -, hmmap, hwalk⟩ := second_mmap 0x1000 0x2000 (by decide)
  have hframe : pageWalk s₂.mem sampleProc.pml4 (windowPage 1) = some 0x3000 := hwalk
  refine ⟨s₁, s₂, hfirst, hmmap, hframe, fun hasked => ?_⟩
  have htranslated := hasked.translated 0 (by decide)
  rw [show windowPage 1 + BitVec.ofNat 64 (0x1000 * 0) = windowPage 1 from BitVec.add_zero _,
    hframe] at htranslated
  exact absurd (Option.some.inj htranslated) (by decide)

end ChronOS.Mm
