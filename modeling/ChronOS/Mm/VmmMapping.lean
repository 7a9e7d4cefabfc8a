/-
  Mm/VmmMapping.lean --- what `mmap` hands out, and how `munmap` takes it back.

  The search of `mmap` slides over the bitmap until it meets as many clear bits
  in a row as pages are requested.  Indices past the bitmap read as clear, so a
  full window does not stop it, and a negative request never does.  Inside the
  window `mmap` is first fit, its loop maps exactly the run it has found, and
  `munmap` of that run restores every bit and every translation.
-/
import ChronOS.Mm.VmmAgreement

set_option autoImplicit false

namespace ChronOS.Mm

open ChronOS.Foundation ChronOS.Ds ChronOS.Utils

/-! ## The search -/

/-- The pages `k .. k + n - 1` of the window are clear in the bitmap. -/
def WindowRun (m : Mem) (b : Bitmap) (k n : Nat) : Prop :=
  k + n ≤ VMM_SIZE_PAGES ∧ ∀ j < n, bitAt m b.bitmap (k + j) = false

/-- The search ends at the first index from which on `pages` indices read as clear. -/
theorem findPages_eq_some {m : Mem} {b : Bitmap} {pages idx : BitVec 32}
    (hpages : 0 ≤ pages.toInt) :
    findPages m b pages = some idx ↔
      (∀ k < pages.toInt.toNat, bitmapGet m b (idx + BitVec.ofNat 32 k) = 0) ∧
      ∀ i < idx, ∃ k < pages.toInt.toNat, bitmapGet m b (i + BitVec.ofNat 32 k) ≠ 0 := by
  unfold findPages
  rw [searchIndex_eq_some, clearCount_beq_iff m b hpages]
  refine and_congr_right fun _ => forall_congr' fun i => imp_congr_right fun _ => ?_
  rw [← Bool.not_eq_true, clearCount_beq_iff m b hpages]
  simp only [not_forall, exists_prop, ne_eq]

theorem toNat_windowIndex {idx : BitVec 32} {n : Nat} (hroom : idx.toNat + n ≤ VMM_SIZE_PAGES)
    {i : Nat} (hi : i < n) : (idx + BitVec.ofNat 32 i).toNat = idx.toNat + i :=
  toNat_add_ofNat idx (by unfold VMM_SIZE_PAGES at hroom; omega)

theorem inIndices_iff {idx : BitVec 32} {n : Nat} (hroom : idx.toNat + n ≤ VMM_SIZE_PAGES)
    {i : Nat} : InIndices idx n i ↔ idx.toNat ≤ i ∧ i < idx.toNat + n := by
  constructor
  · rintro ⟨k, hk, heq⟩
    rw [toNat_windowIndex hroom hk] at heq
    omega
  · rintro ⟨hle, hlt⟩
    refine ⟨i - idx.toNat, by omega, ?_⟩
    rw [toNat_windowIndex hroom (by omega)]
    omega

theorem bitmapGet_eq_zero_iff {m : Mem} {b : Bitmap} (hlimit : b.limit = VMM_SIZE_PAGES)
    {idx : BitVec 32} (hidx : idx.toNat < VMM_SIZE_PAGES) :
    bitmapGet m b idx = 0 ↔ bitAt m b.bitmap idx.toNat = false := by
  rw [← not_iff_not, ← ne_eq, bitmapGet_ne_zero_iff, Bool.not_eq_false]
  exact and_iff_right (by omega)

/-- With a free run in the window the search is first fit. -/
theorem findPages_first_fit {m : Mem} {b : Bitmap} (hlimit : b.limit = VMM_SIZE_PAGES)
    {pages : BitVec 32} (hpages : 1 ≤ pages.toInt)
    (hfit : ∃ i, WindowRun m b i pages.toInt.toNat) :
    ∃ idx : BitVec 32, findPages m b pages = some idx ∧
      WindowRun m b idx.toNat pages.toInt.toNat ∧
      ∀ i < idx.toNat, ¬ WindowRun m b i pages.toInt.toNat := by
  obtain ⟨i, hroom, hclear⟩ := hfit
  obtain ⟨idx, hfind, hle⟩ := findPages_exists (by omega) le_rfl hroom hclear
  obtain ⟨hrun, hbefore⟩ := (findPages_eq_some (by omega)).mp hfind
  refine ⟨idx, hfind, ⟨hle, fun j hj => ?_⟩, fun i hi hwindow => ?_⟩
  · have hzero := hrun j hj
    have hidx := toNat_windowIndex hle hj
    rwa [bitmapGet_eq_zero_iff hlimit (by omega), hidx] at hzero
  · obtain ⟨hiroom, hiclear⟩ := hwindow
    have hlt := idx.isLt
    have hnat : (BitVec.ofNat 32 i).toNat = i := Nat.mod_eq_of_lt (by omega)
    obtain ⟨k, hk, hset⟩ := hbefore (BitVec.ofNat 32 i) (by rw [BitVec.lt_def, hnat]; exact hi)
    apply hset
    have hik := @toNat_windowIndex (BitVec.ofNat 32 i) _ (by omega) k hk
    rw [bitmapGet_eq_zero_iff hlimit (by omega), hik, hnat]
    exact hiclear k hk

/-! ## Termination -/

/-- The search of `mmap` ends whenever `mmap_syscall` reaches it. -/
def SearchEnds (proc : Option AddressSpace) (regs : Regs) (m : Mem) : Prop :=
  ∀ p, proc = some p → regs.rdi ≠ 0 → (regs.rdx.setWidth 32 : BitVec 32) ≠ 0 →
    ∃ idx, findPages m p.bitmap (regs.rdx.setWidth 32) = some idx

/-- Past the window every index reads as clear, so the search ends there at the latest. -/
theorem findPages_bound {m : Mem} {b : Bitmap} (hlimit : b.limit = VMM_SIZE_PAGES)
    {pages : BitVec 32} (hpages : 0 ≤ pages.toInt) :
    ∃ idx, findPages m b pages = some idx ∧ idx.toNat ≤ VMM_SIZE_PAGES + 1 := by
  obtain ⟨hnat, hlt⟩ := toNat_toInt_of_nonneg hpages
  have hclear : ∀ k < pages.toInt.toNat,
      bitmapGet m b (BitVec.ofNat 32 (VMM_SIZE_PAGES + 1) + BitVec.ofNat 32 k) = 0 := by
    intro k hk
    by_contra hset
    have hle := ((bitmapGet_ne_zero_iff m b _).mp hset).1
    rw [hlimit, BitVec.toNat_add, BitVec.toNat_ofNat, BitVec.toNat_ofNat] at hle
    unfold VMM_SIZE_PAGES at hle
    omega
  obtain ⟨idx, hfind, hle⟩ := findPages_le hpages hclear
  exact ⟨idx, hfind, BitVec.le_def.mp hle⟩

theorem findPages_ends {m : Mem} {b : Bitmap} (hlimit : b.limit = VMM_SIZE_PAGES)
    {pages : BitVec 32} (hpages : 0 ≤ pages.toInt) : ∃ idx, findPages m b pages = some idx := by
  obtain ⟨idx, hfind, -⟩ := @findPages_bound m b hlimit pages hpages
  exact ⟨idx, hfind⟩

/-- The search ends exactly when it is not reached or the request is not negative: there is no
process, `phys` is null, or `rdx` as an `int` is zero or positive. -/
theorem mmap_search_ends_iff (proc : Option AddressSpace) (regs : Regs) (m : Mem)
    (hsize : ∀ p, proc = some p →
      p.bitmap.size = BitVec.ofNat 64 (VMM_SIZE_PAGES / 8)) :
    SearchEnds proc regs m ↔
      proc = none ∨ regs.rdi = 0 ∨ 0 ≤ (regs.rdx.setWidth 32 : BitVec 32).toInt := by
  constructor
  · intro h
    cases proc with
    | none => exact Or.inl rfl
    | some p =>
      by_contra hnot
      push Not at hnot
      obtain ⟨-, hphys, hneg⟩ := hnot
      have hne : (regs.rdx.setWidth 32 : BitVec 32) ≠ 0 := by
        intro hzero
        rw [hzero] at hneg
        cases hneg
      obtain ⟨idx, hfind⟩ := h p rfl hphys hne
      rw [findPages_eq_none hneg] at hfind
      cases hfind
  · intro h p hp hphys _
    rcases h with rfl | hzero | hpos
    · cases hp
    · exact absurd hzero hphys
    · exact findPages_ends (limit_of_size (hsize p hp)) hpos

/-- `mmap(0x1000, 0, -1)`. -/
def negativeMmap : Regs := { Regs.zero with rdi := 0x1000, rdx := 0xFFFFFFFF }

/-- A request for -1 pages never returns. -/
theorem negativeMmap_never_returns :
    mmapSyscall poolSource (some sampleProc) negativeMmap sampleMachine = none ∧
    ¬ SearchEnds (some sampleProc) negativeMmap sampleMachine.mem := by
  have hfind : findPages sampleMachine.mem sampleProc.bitmap (negativeMmap.rdx.setWidth 32) =
      none := findPages_eq_none (by decide)
  refine ⟨?_, fun h => ?_⟩
  · have hreach : ¬ (negativeMmap.rdi = 0 ∨ (negativeMmap.rdx.setWidth 32 : BitVec 32) = 0) := by
      decide
    simp only [mmapSyscall, mmap, if_neg hreach, hfind, Option.bind_eq_bind, Option.bind_none]
  · obtain ⟨idx, hsome⟩ := h sampleProc rfl (by decide) (by decide)
    rw [hfind] at hsome
    cases hsome

theorem sampleMmap_search_ends : SearchEnds (some sampleProc) sampleMmap sampleMachine.mem :=
  (mmap_search_ends_iff (some sampleProc) sampleMmap sampleMachine.mem
    (by rintro p ⟨⟩; rfl)).mpr (Or.inr (Or.inr (by decide)))

/-! ## The loops on a run of the window -/

/-- Addresses of one page translate alike. -/
theorem pageWalk_of_pageNumber {m : Mem} {dir v w : Word} (h : pageNumber v = pageNumber w) :
    pageWalk m dir v = pageWalk m dir w := by
  rw [pageWalk_eq_walk, pageWalk_eq_walk, (path_eq_iff v w).mpr h]

theorem pageAddress_window {idx : BitVec 32} (h : idx.toNat < VMM_SIZE_PAGES) :
    pageAddress VMM_ADDR_START idx = windowPage idx.toNat :=
  pageAddress_eq _ (by unfold VMM_SIZE_PAGES at h; omega)

theorem pageAddress_windowPage {k n : Nat} (hroom : k + n ≤ VMM_SIZE_PAGES) {i : Nat}
    (hi : i < n) : pageAddress (windowPage k) (BitVec.ofNat 32 i) = windowPage (k + i) := by
  unfold VMM_SIZE_PAGES at hroom
  have hnat : (BitVec.ofNat 32 i).toNat = i := Nat.mod_eq_of_lt (by omega)
  rw [pageAddress_eq _ (by omega), hnat, windowPage, windowPage, BitVec.add_assoc,
    ← BitVec.ofNat_add, ← Nat.mul_add]

/-- The page of `v` is one of the `n` window pages from `k` on. -/
def InRun (k n : Nat) (v : Word) : Prop := ∃ i < n, pageNumber v = pageNumber (windowPage (k + i))

/-- Setting the last bit of a run after the ones before it. -/
theorem ite_run_succ (k n i : Nat) (value other : Bool) :
    (if i = k + n then value else if k ≤ i ∧ i < k + n then value else other) =
      if k ≤ i ∧ i < k + (n + 1) then value else other := by
  by_cases hin : k ≤ i ∧ i < k + (n + 1)
  · rw [if_pos hin]
    by_cases hlast : i = k + n
    · rw [if_pos hlast]
    · rw [if_neg hlast, if_pos (by omega)]
  · rw [if_neg hin, if_neg (by omega), if_neg (by omega)]

theorem inPages_windowPage {k n : Nat} (hroom : k + n ≤ VMM_SIZE_PAGES) (v : Word) :
    InPages (windowPage k) n v ↔ InRun k n v := by
  refine exists_congr fun i => and_congr_right fun hi => ?_
  rw [pageAddress_windowPage hroom hi]

section Loops

variable {σ : Type} {src : PageSource σ} {taken : σ → Set Word} {dirs : Set Word}
  {proc : AddressSpace}

/-- The mapping loop of `mmap` sets the bits of the run, maps its pages in order, and changes no
other bit of the window and no other translation. -/
theorem mapPages_spec (hlaw : src.Lawful taken) (hproc : proc.pml4 ∈ dirs)
    (hlimit : proc.bitmap.limit = VMM_SIZE_PAGES) {physAddr flags : Word} {idx : BitVec 32}
    (hpresent : Present flags) (hflags : NoAddressBits flags) {s : Machine σ} {owner : Owner}
    (hT : Tables dirs s.mem (taken s.pmm) owner)
    (hstored : Stored proc.bitmap (taken s.pmm) owner) :
    ∀ (n : Nat) {s' : Machine σ}, idx.toNat + n ≤ VMM_SIZE_PAGES →
      mapPages src proc (windowPage idx.toNat) physAddr flags idx n s = some s' →
      (∃ owner', Tables dirs s'.mem (taken s'.pmm) owner' ∧
        Stored proc.bitmap (taken s'.pmm) owner') ∧
      (∀ i < VMM_SIZE_PAGES, bitAt s'.mem proc.bitmap.bitmap i =
        if idx.toNat ≤ i ∧ i < idx.toNat + n then true else bitAt s.mem proc.bitmap.bitmap i) ∧
      (∀ i < n, pageWalk s'.mem proc.pml4 (windowPage (idx.toNat + i)) =
        some (pageAddress physAddr (BitVec.ofNat 32 i) &&& 0x000000fffffff000#64)) ∧
      ∀ v, ¬ InRun idx.toNat n v → pageWalk s'.mem proc.pml4 v = pageWalk s.mem proc.pml4 v := by
  intro n
  induction n with
  | zero =>
    intro s' _ h
    cases h
    refine ⟨⟨owner, hT, hstored⟩, fun i _ => ?_, fun i hi => absurd hi (by omega), fun _ _ => rfl⟩
    rw [if_neg (by omega)]
  | succ n ih =>
    intro s' hroom h
    simp only [mapPages, Option.bind_eq_bind, Option.bind_eq_some_iff] at h
    obtain ⟨s₁, hloop, hlast⟩ := h
    obtain ⟨⟨owner₁, hT₁, hstored₁⟩, hbits₁, hmapped₁, hother₁⟩ := ih (by omega) hloop
    have hidx := toNat_windowIndex hroom (Nat.lt_succ_self n)
    obtain ⟨htables, hbits, hwalk⟩ := mapPage_spec hlaw hproc hlimit hT₁ hstored₁ hpresent hflags
      (by omega) hlast
    rw [pageAddress_windowPage hroom (Nat.lt_succ_self n)] at hwalk
    refine ⟨htables, fun i hi => ?_, fun i hi => ?_, fun v hv => ?_⟩
    · rw [hbits i hi, hbits₁ i hi, hidx, ite_run_succ]
    · rw [hwalk]
      by_cases hlast : i = n
      · rw [hlast, if_pos rfl]
      · rw [if_neg ((windowPage_injective (by omega) (by omega)).not.mpr (by omega))]
        exact hmapped₁ i (by omega)
    · rw [hwalk, if_neg fun heq => hv ⟨n, Nat.lt_succ_self n, heq⟩]
      apply hother₁ v
      rintro ⟨i, hi, heq⟩
      exact hv ⟨i, by omega, heq⟩

/-- Three pages for each iteration are enough for the mapping loop. -/
theorem mapPages_progress {virtaddr physAddr flags : Word} {idx : BitVec 32} :
    ∀ (n rest : Nat) {s : Machine σ}, src.Supplies (3 * n + rest) s.pmm →
      ∃ s', mapPages src proc virtaddr physAddr flags idx n s = some s' ∧
        src.Supplies rest s'.pmm := by
  intro n
  induction n with
  | zero =>
    intro rest s h
    exact ⟨s, rfl, by simpa using h⟩
  | succ n ih =>
    intro rest s h
    have hsum : 3 * (n + 1) + rest = 3 * n + (rest + 3) := by omega
    obtain ⟨s₁, hloop, hrest⟩ := ih (rest + 3) (hsum ▸ h)
    obtain ⟨s', hlast, hrest'⟩ := @pagingMap_progress _ src rest
      { s₁ with mem := (bitmapSet s₁.mem proc.bitmap (idx + BitVec.ofNat 32 n) 1).2 } hrest
      proc.pml4 (pageAddress virtaddr (BitVec.ofNat 32 n))
      (pageAddress physAddr (BitVec.ofNat 32 n)) flags
    refine ⟨s', ?_, hrest'⟩
    simp only [mapPages, hloop, Option.bind_eq_bind, Option.bind_some]
    exact hlast

/-! ## What `mmap` hands out -/

theorem mmap_eq_some {phys flags : Word} {pages : BitVec 32} (hphys : phys ≠ 0)
    (hpages : pages ≠ 0) {s s' : Machine σ} {addr : Word} :
    mmap src (some proc) phys flags pages s = some (addr, s') ↔
      ∃ idx, findPages s.mem proc.bitmap pages = some idx ∧
        addr = pageAddress VMM_ADDR_START idx ∧
        mapPages src proc addr (phys &&& 0xFFFFFFFFFFFFF000#64) (flags ||| PAGE_PRESENT) idx
          pages.toInt.toNat s = some s' := by
  simp only [mmap, hphys, hpages, or_self, if_false, Option.bind_eq_bind, Option.bind_eq_some_iff,
    Option.pure_def, Option.some.injEq, Prod.mk.injEq]
  constructor
  · rintro ⟨idx, hfind, s₁, hloop, rfl, rfl⟩
    exact ⟨idx, hfind, rfl, hloop⟩
  · rintro ⟨idx, hfind, rfl, hloop⟩
    exact ⟨idx, hfind, s', hloop, rfl, rfl⟩

theorem pageAddress_window_ne_zero (idx : BitVec 32) : pageAddress VMM_ADDR_START idx ≠ 0 := by
  intro hzero
  have hnat : (pageAddress VMM_ADDR_START idx).toNat = 0 := by
    rw [hzero]
    rfl
  rw [pageAddress, BitVec.toNat_add, toNat_pageOffset] at hnat
  simp only [VMM_ADDR_START, BitVec.toNat_ofNat] at hnat
  split at hnat <;> omega

theorem ne_zero_of_pos {pages : BitVec 32} (h : 1 ≤ pages.toInt) : pages ≠ 0 := by
  rintro rfl
  cases h

/-- `mmap` hands out unused addresses of the window.  A non-null result is the address of a run
that was clear and is set afterwards; without such a run the result is null and nothing in
memory changes, neither the bitmap nor the page table. -/
structure HandsOutUnused (src : PageSource σ) (proc : AddressSpace) (phys flags : Word)
    (pages : BitVec 32) (s : Machine σ) : Prop where
  unused : ∀ addr s', mmap src (some proc) phys flags pages s = some (addr, s') → addr ≠ 0 →
    ∃ k, addr = windowPage k ∧ WindowRun s.mem proc.bitmap k pages.toInt.toNat ∧
      ∀ j < pages.toInt.toNat, bitAt s'.mem proc.bitmap.bitmap (k + j) = true
  full : (¬ ∃ k, WindowRun s.mem proc.bitmap k pages.toInt.toNat) →
    ∃ s', mmap src (some proc) phys flags pages s = some (0, s') ∧ s'.mem = s.mem

/-- The tables of the process are well formed, all its bitmap lies apart from them, and the
allocator hands out fresh pages. -/
def TablesWellFormed (src : PageSource σ) (proc : AddressSpace) (s : Machine σ) : Prop :=
  ∃ (taken : σ → Set Word) (dirs : Set Word) (owner : Owner), src.Lawful taken ∧
    proc.pml4 ∈ dirs ∧ Tables dirs s.mem (taken s.pmm) owner ∧
    Stored proc.bitmap (taken s.pmm) owner

/-- A call that its first check refuses hands out nothing. -/
theorem handsOutUnused_of_null (flags : Word) (pages : BitVec 32) (s : Machine σ) :
    HandsOutUnused src proc 0 flags pages s := by
  have hnull : mmap src (some proc) 0 flags pages s = some (0, s) := by simp [mmap]
  refine ⟨fun addr s' hsome haddr => ?_, fun _ => ⟨s, hnull, rfl⟩⟩
  rw [hnull] at hsome
  exact absurd (Prod.mk.inj (Option.some.inj hsome)).1.symm haddr

/-- `mmap` hands out unused addresses only if `phys` is null or the window has a free run of the
requested length.  It does so if `phys` is null, or if there is such a run, the tables are well
formed and the flags leave the address field of an entry alone. -/
theorem mmap_hands_out_unused_iff
    (hsize : proc.bitmap.size = BitVec.ofNat 64 (VMM_SIZE_PAGES / 8)) (s : Machine σ)
    (phys flags : Word) (pages : BitVec 32) (hpages : 1 ≤ pages.toInt) :
    (HandsOutUnused src proc phys flags pages s →
      phys = 0 ∨ ∃ k, WindowRun s.mem proc.bitmap k pages.toInt.toNat) ∧
    ((phys = 0 ∨ (∃ k, WindowRun s.mem proc.bitmap k pages.toInt.toNat) ∧
        NoAddressBits flags ∧ TablesWellFormed src proc s) →
      HandsOutUnused src proc phys flags pages s) := by
  have hlimit := limit_of_size hsize
  have hne := ne_zero_of_pos hpages
  constructor
  · intro h
    by_contra hnot
    push Not at hnot
    obtain ⟨hphys, hnone⟩ := hnot
    obtain ⟨s', hnull, -⟩ := h.full (by push Not; exact hnone)
    obtain ⟨idx, -, haddr, -⟩ := (mmap_eq_some hphys hne).mp hnull
    exact pageAddress_window_ne_zero idx haddr.symm
  · intro hcond
    by_cases hphys : phys = 0
    · rw [hphys]
      exact handsOutUnused_of_null flags pages s
    obtain ⟨hfit, hflags, taken, dirs, owner, hlaw, hproc, hT, hstored⟩ :=
      hcond.resolve_left hphys
    refine ⟨fun addr s' hsome _ => ?_, fun hnone => absurd hfit hnone⟩
    obtain ⟨idx, hfind, hrun, -⟩ := findPages_first_fit hlimit hpages hfit
    obtain ⟨idx', hfind', rfl, hloop⟩ := (mmap_eq_some hphys hne).mp hsome
    obtain rfl : idx = idx' := Option.some.inj (hfind.symm.trans hfind')
    have hroom := hrun.1
    rw [pageAddress_window (by omega)] at hloop ⊢
    obtain ⟨-, hbits, -, -⟩ := mapPages_spec hlaw hproc hlimit (present_or (by decide))
      (noAddressBits_or_present hflags) hT hstored _ hroom hloop
    refine ⟨idx.toNat, rfl, hrun, fun j hj => ?_⟩
    rw [hbits _ (by omega), if_pos (by omega)]

/-- The window of a zeroed machine is free. -/
theorem sampleMachine_window : WindowRun sampleMachine.mem sampleProc.bitmap 0 1 :=
  ⟨by decide, fun j hj => sampleMachine_clear.1 _ (by unfold VMM_SIZE_PAGES; omega)⟩

theorem sampleMachine_hands_out_unused :
    (1 : Int) ≤ (1 : BitVec 32).toInt ∧
      HandsOutUnused poolSource sampleProc 0x1000 0 1 sampleMachine := by
  obtain ⟨owner, hT, hstored⟩ := sampleMachine_tables
  have hformed : TablesWellFormed poolSource sampleProc sampleMachine :=
    ⟨_, {0x1000}, owner, poolSource_lawful, Set.mem_singleton _, hT, hstored⟩
  exact ⟨by decide, (mmap_hands_out_unused_iff rfl sampleMachine 0x1000 0 1 (by decide)).2
    (Or.inr ⟨⟨0, sampleMachine_window⟩, by decide, hformed⟩)⟩

/-- The sample process with every bit of its window set. -/
def fullMachine : Machine PagePool :=
  { sampleMachine with mem := fun a => if (a - 0x200000#64).toNat < 0x10000 then 0xff else 0 }

theorem fullMachine_bitAt {i : Nat} (hi : i ≤ VMM_SIZE_PAGES) :
    bitAt fullMachine.mem sampleProc.bitmap.bitmap i = decide (i < VMM_SIZE_PAGES) := by
  unfold VMM_SIZE_PAGES at *
  have hall : ∀ k < 8, (0xff#8).getMsbD k = true := by decide
  have hoff : ((0x200000 : Word) + BitVec.ofNat 64 (i / 8) - 0x200000#64).toNat = i / 8 := by
    exact toNat_offset 0x200000#64 (by omega)
  simp only [bitAt, fullMachine, sampleProc, hoff]
  by_cases hlt : i < 0x80000
  · rw [if_pos (by omega), decide_eq_true hlt]
    exact hall _ (Nat.mod_lt _ (by decide))
  · rw [if_neg (by omega), decide_eq_false hlt, getMsbD_byte]
    exact BitVec.getLsbD_zero

theorem fullMachine_tables : TablesWellFormed poolSource sampleProc fullMachine := by
  obtain ⟨owner, hT, hstored⟩ := sampleMachine_tables
  refine ⟨_, {0x1000}, owner, poolSource_lawful, Set.mem_singleton _,
    (hT.congr fun t ht x hx => if_neg fun hin => ?_).1, hstored⟩
  have hout := hstored.not_inPage hT hin ht
  exact hout ((congrArg (InPage t) (add_offset 0x200000#64 x)).mpr hx)

/-- The search on the full window stops at the first index past it. -/
theorem fullMachine_findPages :
    findPages fullMachine.mem sampleProc.bitmap 1 = some 0x80000 := by
  have hone : (1 : BitVec 32).toInt.toNat = 1 := rfl
  have hlast : (0x80000#32).toNat = VMM_SIZE_PAGES := rfl
  rw [findPages_eq_some (by decide), hone]
  refine ⟨fun k hk => ?_, fun i hi => ⟨0, by decide, ?_⟩⟩
  · obtain rfl : k = 0 := by omega
    by_contra hset
    have hbit := ((bitmapGet_ne_zero_iff _ _ _).mp hset).2
    rw [BitVec.ofNat_eq_ofNat, BitVec.add_zero, hlast, fullMachine_bitAt le_rfl] at hbit
    cases hbit
  · have hi' : i.toNat < VMM_SIZE_PAGES := BitVec.lt_def.mp hi
    rw [BitVec.add_zero, bitmapGet_ne_zero_iff, fullMachine_bitAt hi'.le, decide_eq_true hi']
    exact ⟨hi'.le, rfl⟩

/-- With a full window `mmap` returns an address 2 GiB below it. -/
theorem fullMachine_maps_below_window :
    TablesWellFormed poolSource sampleProc fullMachine ∧
    (¬ ∃ k, WindowRun fullMachine.mem sampleProc.bitmap k 1) ∧
    (∃ s', mmap poolSource (some sampleProc) 0x1000 0 1 fullMachine =
      some (0xFFFFFFFE80000000, s')) ∧
    ¬ HandsOutUnused poolSource sampleProc 0x1000 0 1 fullMachine := by
  have hnone : ¬ ∃ k, WindowRun fullMachine.mem sampleProc.bitmap k 1 := by
    rintro ⟨k, hroom, hclear⟩
    have hbit := hclear 0 (by decide)
    rw [Nat.add_zero, fullMachine_bitAt (by omega), decide_eq_false_iff_not] at hbit
    omega
  have haddr : pageAddress VMM_ADDR_START 0x80000 = 0xFFFFFFFE80000000 := by decide
  obtain ⟨s', hloop, -⟩ := @mapPages_progress _ poolSource sampleProc 0xFFFFFFFE80000000
    (0x1000 &&& 0xFFFFFFFFFFFFF000#64) (0 ||| PAGE_PRESENT) 0x80000 1 0 fullMachine
    (poolSource_supplies 3 _ (by decide))
  have hmmap : mmap poolSource (some sampleProc) 0x1000 0 1 fullMachine =
      some (0xFFFFFFFE80000000, s') :=
    (mmap_eq_some (by decide) (by decide)).mpr ⟨_, fullMachine_findPages, haddr.symm, hloop⟩
  refine ⟨fullMachine_tables, hnone, ⟨s', hmmap⟩, fun h => ?_⟩
  obtain ⟨s'', hnull, -⟩ := h.full hnone
  rw [hmmap] at hnull
  exact absurd (Prod.mk.inj (Option.some.inj hnull)).1 (by decide)

/-! ## `munmap` after `mmap` -/

/-- The frame of page `i` of the range that begins at `phys`, rounded down. -/
theorem frame_of_page {phys : Word} {n : Nat} (hroom : phys.toNat + 0x1000 * n < 2 ^ 40)
    (hn : n ≤ VMM_SIZE_PAGES) {i : Nat} (hi : i < n) :
    pageAddress (phys &&& 0xFFFFFFFFFFFFF000#64) (BitVec.ofNat 32 i) &&& 0x000000fffffff000#64 =
      (phys &&& 0xFFFFFFFFFFFFF000#64) + BitVec.ofNat 64 (0x1000 * i) := by
  unfold VMM_SIZE_PAGES at hn
  have hnat : (BitVec.ofNat 32 i).toNat = i := Nat.mod_eq_of_lt (by omega)
  have hround := toNat_roundDown phys
  have hsum : ((phys &&& 0xFFFFFFFFFFFFF000#64) + BitVec.ofNat 64 (0x1000 * i)).toNat =
      phys.toNat / 0x1000 * 0x1000 + 0x1000 * i := by
    rw [BitVec.toNat_add, hround, BitVec.toNat_ofNat]
    omega
  rw [pageAddress_eq _ (by omega), hnat]
  apply FrameAddress.mask
  refine ⟨?_, by omega⟩
  unfold PageAligned
  omega

theorem pageIndex_windowPage {idx : BitVec 32} (h : idx.toNat < VMM_SIZE_PAGES) :
    pageIndex VMM_ADDR_START (windowPage idx.toNat) = idx := by
  rw [← pageAddress_window h]
  exact pageIndex_pageAddress _ (by unfold VMM_SIZE_PAGES at h; omega)

theorem windowPage_ne_zero {k : Nat} (h : k < VMM_SIZE_PAGES) : windowPage k ≠ 0 := by
  intro hzero
  have hnat := toNat_windowPage h
  rw [hzero, show (0 : Word).toNat = 0 from rfl] at hnat
  omega

/-- `munmap` of a window page runs its loop from the index of that page on. -/
theorem munmap_windowPage {pages idx : BitVec 32} (hpages : pages ≠ 0)
    (hidx : idx.toNat < VMM_SIZE_PAGES) {s : Machine σ} :
    munmap (some proc) (windowPage idx.toNat) pages s =
      (0, { s with
        mem := unmapPages proc (windowPage idx.toNat) idx pages.toInt.toNat s.mem }) := by
  simp only [munmap, windowPage_ne_zero hidx, hpages, or_self, if_false,
    pageIndex_windowPage hidx]

/-- A clear bit of a bitmap that agrees with the tables is an absent page. -/
theorem Agrees.walk_eq_none {m : Mem} (h : Agrees proc m) {i : Nat} (hi : i < VMM_SIZE_PAGES)
    (hclear : bitAt m proc.bitmap.bitmap i = false) :
    pageWalk m proc.pml4 (windowPage i) = none := by
  have hiff := h i hi
  rw [hclear] at hiff
  simpa using hiff

/-- `munmap` undoes `mmap`.  The process has well-formed tables that agree with its bitmap, and
the window a free run of the requested length.  Then `mmap` returns the first such run, mapped
in order to the pages from `phys` (rounded down) on, with every other translation as before; and
`munmap` of that run restores every bit of the bitmap and the translation of every address. -/
theorem munmap_undoes_mmap (hlaw : src.Lawful taken) (hproc : proc.pml4 ∈ dirs)
    (hsize : proc.bitmap.size = BitVec.ofNat 64 (VMM_SIZE_PAGES / 8)) (s : Machine σ)
    (owner : Owner) (hT : Tables dirs s.mem (taken s.pmm) owner)
    (hstored : Stored proc.bitmap (taken s.pmm) owner) (hagrees : Agrees proc s.mem)
    (phys flags : Word) (pages : BitVec 32) (hphys : phys ≠ 0)
    (hroom : phys.toNat + 0x1000 * pages.toInt.toNat < 2 ^ 40) (hflags : AttributeFlags flags)
    (hpages : 1 ≤ pages.toInt) (hfit : ∃ i, WindowRun s.mem proc.bitmap i pages.toInt.toNat)
    (hsupply : src.Supplies (3 * pages.toInt.toNat) s.pmm) :
    ∃ k s', mmap src (some proc) phys flags pages s = some (windowPage k, s') ∧
      WindowRun s.mem proc.bitmap k pages.toInt.toNat ∧
      (∀ i < k, ¬ WindowRun s.mem proc.bitmap i pages.toInt.toNat) ∧
      (∀ i < pages.toInt.toNat, pageWalk s'.mem proc.pml4 (windowPage (k + i)) =
        some ((phys &&& 0xFFFFFFFFFFFFF000#64) + BitVec.ofNat 64 (0x1000 * i))) ∧
      (∀ v, (∀ i < pages.toInt.toNat, pageNumber v ≠ pageNumber (windowPage (k + i))) →
        pageWalk s'.mem proc.pml4 v = pageWalk s.mem proc.pml4 v) ∧
      ∃ s'', munmap (some proc) (windowPage k) pages s' = (0, s'') ∧
        (∀ i < VMM_SIZE_PAGES,
          bitAt s''.mem proc.bitmap.bitmap i = bitAt s.mem proc.bitmap.bitmap i) ∧
        ∀ v, pageWalk s''.mem proc.pml4 v = pageWalk s.mem proc.pml4 v := by
  have hlimit := limit_of_size hsize
  have hne := ne_zero_of_pos hpages
  obtain ⟨idx, hfind, hrun, hleast⟩ := findPages_first_fit hlimit hpages hfit
  obtain ⟨hwindow, hclear⟩ := hrun
  have hidx : idx.toNat < VMM_SIZE_PAGES := by omega
  -- the mapping loop returns, and maps exactly the run
  obtain ⟨s', hloop, -⟩ := @mapPages_progress _ src proc (windowPage idx.toNat)
    (phys &&& 0xFFFFFFFFFFFFF000#64) (flags ||| PAGE_PRESENT) idx pages.toInt.toNat 0 s hsupply
  obtain ⟨⟨owner', hT', hstored'⟩, hbits, hmapped, hother⟩ := mapPages_spec hlaw hproc hlimit
    (present_or (by decide)) (noAddressBits_or_present hflags.noAddressBits) hT hstored _ hwindow
    hloop
  have hmmap : mmap src (some proc) phys flags pages s = some (windowPage idx.toNat, s') :=
    (mmap_eq_some hphys hne).mpr ⟨idx, hfind, (pageAddress_window hidx).symm, hloop⟩
  -- the unmapping loop runs over the same indices
  have hbehind : ¬ InIndices idx pages.toInt.toNat VMM_SIZE_PAGES := by
    rw [inIndices_iff hwindow]
    omega
  obtain ⟨-, hbits', hwalk'⟩ :=
    unmapPages_spec hproc hlimit hT' hstored' (windowPage idx.toNat) hbehind
  refine ⟨idx.toNat, s', hmmap, ⟨hwindow, hclear⟩, hleast, fun i hi => ?_, fun v hv => ?_, _,
    munmap_windowPage hne hidx, fun i hi => ?_, fun v => ?_⟩
  · rw [hmapped i hi, frame_of_page hroom (by omega) hi]
  · apply hother v
    rintro ⟨i, hi, heq⟩
    exact hv i hi heq
  · rw [Bool.eq_iff_iff, hbits' i hi, hbits i hi, inIndices_iff hwindow]
    by_cases hin : idx.toNat ≤ i ∧ i < idx.toNat + pages.toInt.toNat
    · have hwas := hclear (i - idx.toNat) (by omega)
      rw [Nat.add_sub_cancel' hin.1] at hwas
      rw [hwas]
      exact iff_of_false (fun h => h.2 hin) Bool.false_ne_true
    · rw [if_neg hin, and_iff_left hin]
  · by_cases hin : InRun idx.toNat pages.toInt.toNat v
    · rw [(hwalk' v).1 ((inPages_windowPage hwindow v).mpr hin)]
      obtain ⟨i, hi, heq⟩ := hin
      rw [pageWalk_of_pageNumber heq]
      exact (hagrees.walk_eq_none (by omega) (hclear i hi)).symm
    · rw [(hwalk' v).2 (mt (inPages_windowPage hwindow v).mp hin), hother v hin]

/-- `mmap(0x1234, PAGE_READWRITE, 1)` and its `munmap` on the sample process. -/
theorem sampleMachine_munmap_undoes_mmap :
    ∃ k s' s'', mmap poolSource (some sampleProc) 0x1234 PAGE_READWRITE 1 sampleMachine =
        some (windowPage k, s') ∧
      pageWalk s'.mem 0x1000 (windowPage (k + 0)) = some (0x1000 + BitVec.ofNat 64 (0x1000 * 0)) ∧
      munmap (some sampleProc) (windowPage k) 1 s' = (0, s'') ∧
      ∀ v, pageWalk s''.mem 0x1000 v = pageWalk sampleMachine.mem 0x1000 v := by
  obtain ⟨owner, hT, hstored⟩ := sampleMachine_tables
  have hagrees : Agrees sampleProc sampleMachine.mem := by
    intro i hi
    simp [sampleMachine_clear.1 i hi, sampleMachine_clear.2 i hi]
  obtain ⟨k, s', hmmap, -, -, hmapped, -, s'', hmunmap, -, hwalk⟩ :=
    munmap_undoes_mmap poolSource_lawful (Set.mem_singleton _) rfl sampleMachine owner hT hstored
      hagrees 0x1234 PAGE_READWRITE 1 (by decide) (by decide) (by decide) (by decide)
      ⟨0, sampleMachine_window⟩ (poolSource_supplies 3 _ (by decide))
  exact ⟨k, s', s'', hmmap, hmapped 0 (by decide), hmunmap, hwalk⟩

end Loops

end ChronOS.Mm
