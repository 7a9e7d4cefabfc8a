/-
  Process/CreationFrame.lean --- what creating a process leaves alone.

  `create_page_table`, `__paging_map` on the new table, `load_elf` and the calls of
  `pmm_getpage` between them only write into pages that were not in use before.
  `Kept` says so for a stretch of a constructor before there is a table, `Built`
  for the rest of it, together with the tables of the new process.

  For `load_elf` that needs a file whose image fits in the pages requested for it:
  the loader places a section wherever its address says.
-/
import ChronOS.Loader.ElfImage
import ChronOS.Mm.IdentityMap
import ChronOS.Process.Process

set_option autoImplicit false

namespace ChronOS.Proc

open ChronOS.Foundation ChronOS.Ds ChronOS.Utils ChronOS.Mm ChronOS.Loader

variable {σ : Type} {taken : σ → Set Word} {old held : Set Word} {m₀ : Mem}

/-- The pages `held` are in use, and those of them that are `old` have the bytes they have in
`m₀`. -/
structure Kept (taken : σ → Set Word) (old held : Set Word) (m₀ : Mem) (s : Machine σ) :
    Prop where
  sub : old ⊆ held
  inUse : held ⊆ taken s.pmm
  bytes : ∀ p ∈ old, PageAligned p → ∀ x, InPage p x → s.mem x = m₀ x

/-- Besides, the tables of `tbl` are well formed, and none of them is a page of `held`. -/
structure Built (taken : σ → Set Word) (old held : Set Word) (m₀ : Mem) (tbl : Word)
    (owner : Owner) (s : Machine σ) : Prop extends Kept taken old held m₀ s where
  tables : Tables {tbl} s.mem (taken s.pmm) owner
  clear : ∀ t ∈ held, owner t = none

/-! ## Pages and tables -/

section Pages

variable {src : PageSource σ} {s s' : Machine σ} {tbl page : Word} {owner owner' : Owner} {pmm : σ}
  {mem : Mem}

theorem Kept.getpage (hlaw : src.Lawful taken) (h : Kept taken old held m₀ s)
    (hget : src.getpage s.pmm s.mem = some (page, pmm, mem)) :
    Kept taken old held m₀ ⟨mem, pmm⟩ ∧ page ∉ held := by
  refine ⟨⟨h.sub, ?_, ?_⟩, fun hold => hlaw.fresh _ _ _ _ _ hget (h.inUse hold)⟩
  · rw [hlaw.taken_next _ _ _ _ _ hget]
    exact h.inUse.trans (Set.subset_insert _ _)
  · intro p hp haligned x hx
    have hsame := hlaw.untouched _ _ _ _ _ hget p (h.inUse (h.sub hp)) haligned x hx
    exact hsame.trans (h.bytes p hp haligned x hx)

/-- Clearing a page that is not an old one. -/
theorem Kept.memset (h : Kept taken old held m₀ s) (haligned : PageAligned page)
    (hnew : page ∉ old) :
    Kept taken old held m₀ { s with mem := memset s.mem page 0 0x1000 } := by
  refine ⟨h.sub, h.inUse, fun p hp hpaligned x hx => ?_⟩
  have hnot : ¬ InPage page x := fun hin => hnew (InPage.unique hpaligned haligned hx hin ▸ hp)
  exact (memset_page_of_not_inPage hnot 0).trans (h.bytes p hp hpaligned x hx)

theorem Built.getpage (hlaw : src.Lawful taken) (h : Built taken old held m₀ tbl owner s)
    (hget : src.getpage s.pmm s.mem = some (page, pmm, mem)) :
    Built taken old held m₀ tbl owner ⟨mem, pmm⟩ ∧ page ∉ held ∧ owner page = none := by
  obtain ⟨hkept, hnew⟩ := h.toKept.getpage hlaw hget
  have htables := (h.tables.congr fun t ht =>
    hlaw.untouched _ _ _ _ _ hget t (h.tables.inUse t ht) (h.tables.aligned t ht)).1
  have hsub : taken s.pmm ⊆ taken pmm := by
    rw [hlaw.taken_next _ _ _ _ _ hget]
    exact Set.subset_insert _ _
  exact ⟨⟨hkept, htables.mono hsub, h.clear⟩, hnew,
    h.tables.owner_eq_none (hlaw.fresh _ _ _ _ _ hget)⟩

theorem Built.memset (h : Built taken old held m₀ tbl owner s) (haligned : PageAligned page)
    (hnew : page ∉ old) (hnone : owner page = none) :
    Built taken old held m₀ tbl owner { s with mem := memset s.mem page 0 0x1000 } := by
  refine ⟨h.toKept.memset haligned hnew, (h.tables.congr fun t ht x hx => ?_).1, h.clear⟩
  have hnot : ¬ InPage page x := by
    intro hin
    rw [InPage.unique (h.tables.aligned t ht) haligned hx hin] at ht
    exact ht hnone
  exact memset_page_of_not_inPage hnot 0

theorem Built.grows (h : Built taken old held m₀ tbl owner s)
    (hgrows : Grows taken {tbl} s s' owner owner') : Built taken old held m₀ tbl owner' s' := by
  refine ⟨⟨h.sub, h.inUse.trans hgrows.taken_mono, fun p hp haligned x hx => ?_⟩, hgrows.tables,
    fun t ht => hgrows.owner_new t (h.inUse ht) (h.clear t ht)⟩
  rw [hgrows.outside p (h.inUse (h.sub hp)) haligned (h.clear p (h.sub hp)) x hx]
  exact h.bytes p hp haligned x hx

theorem createPageTable_built (hlaw : src.Lawful taken) (h : Kept taken old held m₀ s)
    {kernStart kernEnd memSize : Word}
    (hcreate : createPageTable src kernStart kernEnd memSize s = some (tbl, s')) :
    ∃ owner, Built taken old held m₀ tbl owner s' := by
  simp only [createPageTable, Option.bind_eq_bind, Option.bind_eq_some_iff] at hcreate
  obtain ⟨⟨page, pmm, mem⟩, hget, s₁, hloop, s₂, hloop', heq⟩ := hcreate
  cases heq
  obtain ⟨hkept, hnew⟩ := h.getpage hlaw hget
  have haligned := (hlaw.frame _ _ _ _ _ hget).1
  have hkept' := hkept.memset haligned fun hold => hnew (h.sub hold)
  have hused : ({page} : Set Word) ⊆ taken pmm := by
    rw [hlaw.taken_next _ _ _ _ _ hget]
    exact Set.singleton_subset_iff.mpr (Set.mem_insert _ _)
  have hzero : ∀ d ∈ ({page} : Set Word), ∀ x, InPage d x →
      Foundation.memset mem page 0 0x1000 x = 0 := by
    intro d hd x hx
    rw [Set.mem_singleton_iff.mp hd] at hx
    exact memset_page_of_inPage hx 0
  have hT := Tables.of_zero (fun d hd => by rwa [Set.mem_singleton_iff.mp hd]) hused hzero
  obtain ⟨owner, hbuilt⟩ :
      ∃ owner, Built taken old held m₀ page owner ⟨Foundation.memset mem page 0 0x1000, pmm⟩ := by
    refine ⟨_, hkept', hT, fun t ht => if_neg fun hd => ?_⟩
    rw [Set.mem_singleton_iff.mp hd] at ht
    exact hnew ht
  obtain ⟨owner₁, hgrows, -⟩ := identityMap_spec hlaw (Set.mem_singleton page) normal_flags.1
    normal_flags.2 hbuilt.tables hloop
  obtain ⟨owner₂, hgrows', -⟩ := identityMap_spec hlaw (Set.mem_singleton page) normal_flags.1
    normal_flags.2 hgrows.tables hloop'
  exact ⟨owner₂, (hbuilt.grows hgrows).grows hgrows'⟩

end Pages

/-! ## `load_elf` -/

section Load

variable {src : FrameSource σ} {s s' : Machine σ} {tbl data program : Word} {len size : Nat}
  {owner : Owner}

/-- The `len` bytes from `data` on lie in pages of `used`. -/
def FileIn (used : Set Word) (data : Word) (len : Nat) : Prop :=
  ∀ k < len, ∃ p ∈ used, PageAligned p ∧ InPage p (data + BitVec.ofNat 64 k)

/-- Bytes of pages that are kept do not change. -/
theorem Kept.sameFile (h : Kept taken old held m₀ s) (hfile : FileIn old data len) :
    SameFile m₀ s.mem data len := by
  intro k hk
  obtain ⟨p, hp, haligned, hin⟩ := hfile k hk
  exact h.bytes p hp haligned _ hin

theorem elfCheck_congr {m m' : Mem} (h : SameFile m m' data len) (hlen : 4 ≤ len) :
    elfCheck m' data = elfCheck m data := by
  have h₀ := h 0 (by omega)
  rw [BitVec.add_zero] at h₀
  have h₁ : m' (data + 1) = m (data + 1) := h 1 (by omega)
  have h₂ : m' (data + 2) = m (data + 2) := h 2 (by omega)
  have h₃ : m' (data + 3) = m (data + 3) := h 3 (by omega)
  unfold elfCheck
  rw [h₀, h₁, h₂, h₃]

theorem shentsize_congr {m m' : Mem} (h : SameFile m m' data len) (hlen : 64 ≤ len) :
    eShentsize m' data = eShentsize m data :=
  h.read (by omega : 58 + 2 ≤ len)

/-- The pages requested for a file depend on the file only. -/
theorem progSizePages_congr {m m' : Mem} (h : SameFile m m' data len)
    (hwf : WellFormed m data len) : progSizePages m' data = progSizePages m data := by
  have hsize : progSize m' data = progSize m data := by
    unfold progSize
    rw [shentsize_congr h hwf.header, h.shnum hwf.header, h.shoff hwf.header, hwf.shentsize]
    refine List.foldl_ext _ _ _ fun size i hi => ?_
    have hi := List.mem_range.mp hi
    have haddr : data + (eShoff m data + BitVec.ofNat 64 i * BitVec.setWidth 64 (64 : BitVec 16)) =
        data + eShoff m data + BitVec.ofNat 64 (64 * i) := by
      rw [Nat.mul_comm, BitVec.ofNat_mul, BitVec.add_assoc]
      rfl
    rw [haddr, h.sectionAt hwf.toHeadersInside (by simpa using hi)]
    rfl
  unfold progSizePages
  rw [hsize]

/-- The image lies in new pages that are not tables. -/
def ImageIn (old used : Set Word) (owner : Owner) (program : Word) (size : Nat) : Prop :=
  ∀ i < size, ∃ p ∈ used, p ∉ old ∧ PageAligned p ∧ owner p = none ∧
    InPage p (program + BitVec.ofNat 64 i)

theorem ImageIn.apart (h : ImageIn old (taken s.pmm) owner program size) :
    Apart program size (taken s.pmm) owner := by
  intro i hi
  obtain ⟨p, hp, -, haligned, hnone, hin⟩ := h i hi
  exact ⟨p, hp, haligned, hnone, hin⟩

/-- The invariant of the loop of `load_elf`. -/
def Confined (taken : σ → Set Word) (old held : Set Word) (m₀ : Mem) (tbl program : Word)
    (size : Nat) (s : Machine σ) : Prop :=
  ∃ owner, Built taken old held m₀ tbl owner s ∧ ImageIn old (taken s.pmm) owner program size

/-- One iteration of the loop: the copy stays in the image, so it touches no old page. -/
theorem Confined.section (hlaw : src.toPageSource.Lawful taken) {sec : Shdr}
    (hfits : sec.Fits size) (h : Confined taken old held m₀ tbl program size s)
    (hstep : loadSection src data tbl program sec s = some s') :
    Confined taken old held m₀ tbl program size s' := by
  obtain ⟨owner, hbuilt, himage⟩ := h
  obtain ⟨m₁, owner₁, hgrows, hT, -, -, hout⟩ := loadSection_spec hlaw (Set.mem_singleton tbl)
    hbuilt.tables himage.apart hfits hstep
  have hbuilt₁ := hbuilt.grows hgrows
  refine ⟨owner₁, ⟨⟨hbuilt₁.sub, hbuilt₁.inUse, fun p hp haligned x hx => ?_⟩, hT,
    hbuilt₁.clear⟩, fun i hi => ?_⟩
  · refine (hout x fun i hi heq => ?_).trans (hbuilt₁.bytes p hp haligned x hx)
    obtain ⟨q, -, hnew, hqaligned, -, hqin⟩ := himage i hi
    rw [InPage.unique hqaligned haligned hqin (heq ▸ hx)] at hnew
    exact hnew hp
  · obtain ⟨p, hp, hnew, haligned, hnone, hin⟩ := himage i hi
    exact ⟨p, hgrows.taken_mono hp, hnew, haligned, hgrows.owner_new p hp hnone, hin⟩

/-- `pmm_getpages` returns the pages of the image. -/
theorem Built.getpages (hlaw : src.Lawful taken) (h : Built taken old held m₀ tbl owner s)
    {n : BitVec 32} {pmm : σ} {mem : Mem}
    (hget : src.getpages n s.pmm s.mem = some (program, pmm, mem)) :
    Confined taken old held m₀ tbl program (0x1000 * n.toInt.toNat) ⟨mem, pmm⟩ := by
  have hsub := hlaw.taken_mono hget
  have htables := (h.tables.congr fun t ht =>
    hlaw.untouched _ _ _ _ _ _ hget t (h.tables.inUse t ht) (h.tables.aligned t ht)).1
  refine ⟨owner, ⟨⟨h.sub, h.inUse.trans hsub, fun p hp haligned x hx => ?_⟩, htables.mono hsub,
    h.clear⟩, fun i hi => ?_⟩
  · have hsame := hlaw.untouched _ _ _ _ _ _ hget p (h.inUse (h.sub hp)) haligned x hx
    exact hsame.trans (h.bytes p hp haligned x hx)
  · obtain ⟨p, hp, haligned, hnew, hin⟩ := hlaw.image_page hget hi
    exact ⟨p, hp, fun hold => hnew (h.inUse (h.sub hold)), haligned, h.tables.owner_eq_none hnew,
      hin⟩

/-- A file in the pages `used` that `load_elf` either refuses or loads into the pages it
requests. -/
def Loadable (m : Mem) (used : Set Word) (data : Word) : Prop :=
  ∃ len, 64 ≤ len ∧ FileIn used data len ∧
    (elfCheck m data ≠ 0 ∨ WellFormed m data len ∧ SectionsFit m data)

theorem loadElf_built (hlaw : src.Lawful taken) (h : Built taken old held m₀ tbl owner s)
    (hloadable : Loadable m₀ old data) {prog : Option ElfPrg}
    (hload : loadElf src data tbl s = some (prog, s')) :
    ∃ owner', Built taken old held m₀ tbl owner' s' := by
  obtain ⟨len, hlen, hfile, hcases⟩ := hloadable
  have hsame := h.sameFile hfile
  have hcheck := elfCheck_congr hsame (by omega)
  rcases hcases with hbad | ⟨hwf, hfit⟩
  · simp only [loadElf, hcheck, if_pos hbad, Option.some.injEq, Prod.mk.injEq] at hload
    obtain ⟨-, rfl⟩ := hload
    exact ⟨owner, h⟩
  · simp only [loadElf, hcheck, hwf.magic, ne_eq, not_true_eq_false, if_false,
      Option.bind_eq_bind, Option.bind_eq_some_iff, progSizePages_congr hsame hwf] at hload
    obtain ⟨⟨program, pmm, mem⟩, hget, s₁, hloop, heq⟩ := hload
    cases heq
    have hstart := h.getpages hlaw hget
    obtain ⟨owner₁, hbuilt₁, himage⟩ := hstart
    have hshoff : eShoff mem data = eShoff m₀ data :=
      (hbuilt₁.sameFile hfile).shoff hwf.header
    have hshnum := (eShnum m₀ data).isLt
    obtain ⟨owner', hbuilt, -⟩ := loadSections_rule
      (I := fun _ => Confined taken old held m₀ tbl program
        (0x1000 * (progSizePages m₀ data).toInt.toNat)) hwf.toHeadersInside
      (fun _ _ h => h.elim fun _ h => h.1.sameFile hfile)
      (fun _ _ _ hi h => h.section hlaw.page (hfit _ (sectionAt_mem hi))) maxSections 0
      (Nat.zero_le _) (by unfold maxSections; omega) ⟨owner₁, hbuilt₁, himage⟩ (hshoff ▸ hloop)
    exact ⟨owner', hbuilt⟩

end Load

/-! ## The constructors -/

section Constructors

variable {src : FrameSource σ} {layout : Layout} {k k' k'' : Kernel σ} {p tbl : Word}
  {owner : Owner}

/-- No process structure gets another bitmap pointer or page table. -/
def SameDirs (k k' : Kernel σ) : Prop :=
  ∀ q, (k'.procs q).bitmap = (k.procs q).bitmap ∧ (k'.procs q).pml4 = (k.procs q).pml4

theorem SameDirs.trans (h : SameDirs k k') (h' : SameDirs k' k'') : SameDirs k k'' :=
  fun q => ⟨(h' q).1.trans (h q).1, (h' q).2.trans (h q).2⟩

theorem SameDirs.modify (h : SameDirs k k') (r : Word) {f : Process → Process}
    (hf : ∀ proc, (f proc).bitmap = proc.bitmap ∧ (f proc).pml4 = proc.pml4) :
    SameDirs k (k'.modify r f) := by
  intro q
  by_cases hq : q = r
  · subst hq
    simp only [Kernel.modify, Function.update_self]
    exact ⟨(hf _).1.trans (h q).1, (hf _).2.trans (h q).2⟩
  · simp only [Kernel.modify, Function.update_of_ne hq]
    exact h q

theorem newPid_sameDirs (p : Word) (k : Kernel σ) : SameDirs k (newPid p k) :=
  SameDirs.modify (fun _ => ⟨rfl, rfl⟩) p fun _ => ⟨rfl, rfl⟩

theorem clearFxsave_sameDirs (p : Word) (k : Kernel σ) : SameDirs k (clearFxsave p k) :=
  SameDirs.modify (fun _ => ⟨rfl, rfl⟩) p fun _ => ⟨rfl, rfl⟩

theorem linkProc_sameDirs (p : Word) (k : Kernel σ) : SameDirs k (linkProc p k) := by
  simp only [linkProc]
  apply SameDirs.modify
  · apply SameDirs.modify
    · exact SameDirs.modify (fun _ => ⟨rfl, rfl⟩) p fun _ => ⟨rfl, rfl⟩
    · exact fun _ => ⟨rfl, rfl⟩
  · exact fun _ => ⟨rfl, rfl⟩

theorem kernel_getpage_eq_some {page : Word} (h : k.getpage src = some (page, k')) :
    ∃ pmm mem, src.getpage k.machine.pmm k.machine.mem = some (page, pmm, mem) ∧
      k' = { k with machine := { mem, pmm } } := by
  simp only [Kernel.getpage, Option.map_eq_some_iff] at h
  obtain ⟨⟨page, pmm, mem⟩, hget, heq⟩ := h
  cases heq
  exact ⟨pmm, mem, hget, rfl⟩

theorem newStack_kept (hlaw : src.Lawful taken) (h : Kept taken old held m₀ k.machine)
    (hstack : newStack src p k = some k') :
    Kept taken old held m₀ k'.machine ∧ k'.bitmaps = k.bitmaps ∧ SameDirs k k' := by
  simp only [newStack, Option.bind_eq_bind, Option.bind_eq_some_iff] at hstack
  obtain ⟨⟨stack, k₁⟩, hpage, heq⟩ := hstack
  obtain ⟨pmm, mem, hget, rfl⟩ := kernel_getpage_eq_some hpage
  cases heq
  exact ⟨(h.getpage hlaw.page hget).1, rfl,
    SameDirs.modify (fun _ => ⟨rfl, rfl⟩) p fun _ => ⟨rfl, rfl⟩⟩

theorem newPageTable_built (hlaw : src.Lawful taken) (h : Kept taken old held m₀ k.machine)
    (htable : newPageTable src layout p k = some k') :
    (∃ owner, Built taken old held m₀ (k'.procs p).pml4 owner k'.machine) ∧
      k'.bitmaps = k.bitmaps ∧ (∀ q, (k'.procs q).bitmap = (k.procs q).bitmap) ∧
      ∀ q, q ≠ p → (k'.procs q).pml4 = (k.procs q).pml4 := by
  simp only [newPageTable, Option.bind_eq_bind, Option.bind_eq_some_iff] at htable
  obtain ⟨⟨tbl, machine⟩, hcreate, heq⟩ := htable
  cases heq
  refine ⟨?_, rfl, fun q => ?_, fun q hq => ?_⟩
  · simp only [Kernel.modify, Function.update_self]
    exact createPageTable_built hlaw.page h hcreate
  · by_cases hq : q = p
    · subst hq
      simp only [Kernel.modify, Function.update_self]
    · simp only [Kernel.modify, Function.update_of_ne hq]
  · simp only [Kernel.modify, Function.update_of_ne hq]

theorem newBitmap_built (hlaw : src.Lawful taken) (h : Built taken old held m₀ tbl owner k.machine)
    (hbitmap : newBitmap src p k = some k') :
    Built taken old held m₀ tbl owner k'.machine ∧ SameDirs k k' ∧
      ∃ page, page ∉ held ∧ page ∈ taken k'.machine.pmm ∧ PageAligned page ∧ owner page = none ∧
        k'.bitmaps = Function.update k.bitmaps (k.procs p).bitmap
          ⟨page, BitVec.ofNat 64 (VMM_SIZE_PAGES / 8)⟩ := by
  simp only [newBitmap, Option.bind_eq_bind, Option.bind_eq_some_iff] at hbitmap
  obtain ⟨⟨page, k₁⟩, hpage, heq⟩ := hbitmap
  obtain ⟨pmm, mem, hget, rfl⟩ := kernel_getpage_eq_some hpage
  cases heq
  obtain ⟨hbuilt, hnew, hnone⟩ := h.getpage hlaw.page hget
  have haligned := (hlaw.page.frame _ _ _ _ _ hget).1
  refine ⟨hbuilt.memset haligned (fun hold => hnew (h.sub hold)) hnone, fun q => ⟨rfl, rfl⟩, page,
    hnew, ?_, haligned, hnone, rfl⟩
  show page ∈ taken pmm
  rw [hlaw.page.taken_next _ _ _ _ _ hget]
  exact Set.mem_insert _ _

/-- The process at `p` was created, with the page `page` for its bitmap and the tables that
`owner` describes: both are made of pages that were not in use, the pages that were keep their
bytes, and one `bitmap_t` was written, at the address the structure already contained. -/
structure Creates (taken : σ → Set Word) (k k' : Kernel σ) (p page : Word) (owner : Owner) :
    Prop where
  fresh : p ∉ taken k.machine.pmm
  aligned : PageAligned p
  pageFresh : page ∉ insert p (taken k.machine.pmm)
  pageInUse : page ∈ taken k'.machine.pmm
  pageAligned : PageAligned page
  pageNone : owner page = none
  bitmaps : k'.bitmaps = Function.update k.bitmaps (k.procs p).bitmap
    ⟨page, BitVec.ofNat 64 (VMM_SIZE_PAGES / 8)⟩
  pointers : ∀ q, (k'.procs q).bitmap = (k.procs q).bitmap
  dirs : ∀ q, q ≠ p → (k'.procs q).pml4 = (k.procs q).pml4
  built : Built taken (taken k.machine.pmm) (insert p (taken k.machine.pmm)) k.machine.mem
    (k'.procs p).pml4 owner k'.machine

/-- A structure at `p` was taken from the allocator, with a stack and a table; no bitmap was
written yet. -/
structure NewProc (taken : σ → Set Word) (k k' : Kernel σ) (p : Word) : Prop where
  fresh : p ∉ taken k.machine.pmm
  aligned : PageAligned p
  bitmaps : k'.bitmaps = k.bitmaps
  pointers : ∀ q, (k'.procs q).bitmap = (k.procs q).bitmap
  dirs : ∀ q, q ≠ p → (k'.procs q).pml4 = (k.procs q).pml4

/-- The stretch both constructors begin with: the new structure, its stack and its table. -/
theorem newProc_built (hlaw : src.Lawful taken) {k₁ k₂ k₃ : Kernel σ} {f : Process → Process}
    (hpage : k.getpage src = some (p, k₁)) (hstack : newStack src p (k₁.modify p f) = some k₂)
    (htable : newPageTable src layout p k₂ = some k₃)
    (hf : ∀ proc, (f proc).bitmap = proc.bitmap ∧ (f proc).pml4 = proc.pml4) :
    NewProc taken k k₃ p ∧
      ∃ owner, Built taken (taken k.machine.pmm) (insert p (taken k.machine.pmm)) k.machine.mem
        (k₃.procs p).pml4 owner k₃.machine := by
  obtain ⟨pmm, mem, hget, rfl⟩ := kernel_getpage_eq_some hpage
  have hkept : Kept taken (taken k.machine.pmm) (insert p (taken k.machine.pmm)) k.machine.mem
      ⟨mem, pmm⟩ := by
    refine ⟨Set.subset_insert _ _, (hlaw.page.taken_next _ _ _ _ _ hget).superset, ?_⟩
    exact fun q hq haligned x hx => hlaw.page.untouched _ _ _ _ _ hget q hq haligned x hx
  obtain ⟨hkept₂, hbitmaps₂, hdirs₂⟩ := newStack_kept hlaw hkept hstack
  obtain ⟨howner, hbitmaps₃, hpointers, hdirs₃⟩ := newPageTable_built hlaw hkept₂ htable
  have hdirs := (SameDirs.modify (fun _ => ⟨rfl, rfl⟩ : SameDirs k _) p hf).trans hdirs₂
  exact ⟨⟨hlaw.page.fresh _ _ _ _ _ hget, (hlaw.page.frame _ _ _ _ _ hget).1,
    hbitmaps₃.trans hbitmaps₂, fun q => (hpointers q).trans (hdirs q).1,
    fun q hq => (hdirs₃ q hq).trans (hdirs q).2⟩, howner⟩

/-- The stretch they end with: the bitmap, and updates that leave pointers and memory alone. -/
theorem NewProc.creates (hlaw : src.Lawful taken) {k₃ k₄ k₅ : Kernel σ}
    (h : NewProc taken k k₃ p) (hdirs : SameDirs k₃ k₄) (hbitmaps : k₄.bitmaps = k₃.bitmaps)
    (hbuilt : Built taken (taken k.machine.pmm) (insert p (taken k.machine.pmm)) k.machine.mem
      (k₃.procs p).pml4 owner k₄.machine)
    (hbitmap : newBitmap src p k₄ = some k₅) (hdirs' : SameDirs k₅ k')
    (hbitmaps' : k'.bitmaps = k₅.bitmaps) (hmachine : k'.machine = k₅.machine) :
    ∃ page, Creates taken k k' p page owner := by
  obtain ⟨hbuilt₅, hdirs₅, page, hnew, hinUse, hpaligned, hnone, hwritten⟩ :=
    newBitmap_built hlaw hbuilt hbitmap
  have hrest := (hdirs.trans hdirs₅).trans hdirs'
  rw [← hmachine] at hbuilt₅ hinUse
  refine ⟨page, h.fresh, h.aligned, hnew, hinUse, hpaligned, hnone, ?_,
    fun q => (hrest q).1.trans (h.pointers q), fun q hq => (hrest q).2.trans (h.dirs q hq), ?_⟩
  · rw [hbitmaps', hwritten, hbitmaps, h.bitmaps, (hdirs p).1, h.pointers]
  · rw [(hrest p).2]
    exact hbuilt₅

theorem makeProc_creates (hlaw : src.Lawful taken) {entry : Word}
    (h : makeProc src layout entry k = some k') :
    ∃ p k₁ page owner, k.getpage src = some (p, k₁) ∧ Creates taken k k' p page owner := by
  simp only [makeProc, Option.bind_eq_bind, Option.bind_eq_some_iff] at h
  obtain ⟨⟨p, k₁⟩, hpage, k₂, hstack, k₃, htable, k₄, hbitmap, heq⟩ := h
  cases heq
  obtain ⟨hproc, owner, hbuilt⟩ := newProc_built hlaw hpage hstack htable fun _ => ⟨rfl, rfl⟩
  have hlink := (clearFxsave_sameDirs p k₄).trans (linkProc_sameDirs p _)
  obtain ⟨page, hcreates⟩ :=
    hproc.creates hlaw (newPid_sameDirs p k₃) rfl hbuilt hbitmap hlink rfl rfl
  exact ⟨p, k₁, page, owner, hpage, hcreates⟩

theorem makeProcFromElf_creates (hlaw : src.Lawful taken) {elfData : Word}
    (hloadable : Loadable k.machine.mem (taken k.machine.pmm) elfData)
    (h : makeProcFromElf src layout elfData k = some k') :
    ∃ p k₁ page owner, k.getpage src = some (p, k₁) ∧ Creates taken k k' p page owner := by
  simp only [makeProcFromElf, Option.bind_eq_bind, Option.bind_eq_some_iff] at h
  obtain ⟨⟨p, k₁⟩, hpage, k₂, hstack, k₃, htable, m₄, hmap, ⟨prog, m₅⟩, helf, k₄, hbitmap, heq⟩ := h
  cases heq
  obtain ⟨hproc, owner₃, hbuilt₃⟩ := newProc_built hlaw hpage hstack htable fun _ => ⟨rfl, rfl⟩
  obtain ⟨owner₄, hgrows, -⟩ := pagingMap_spec hlaw.page hbuilt₃.tables (Set.mem_singleton _)
    normal_flags.1 normal_flags.2 hmap
  obtain ⟨owner, hbuilt⟩ := loadElf_built hlaw (hbuilt₃.grows hgrows) hloadable helf
  set k₅ := { k₃ with machine := m₅ }.modify p fun proc =>
    { proc with elfProgram := prog, regs := { proc.regs with rip := programEntry m₅.mem prog } }
  have hprog : SameDirs k₃ k₅ := SameDirs.modify (fun _ => ⟨rfl, rfl⟩) p fun _ => ⟨rfl, rfl⟩
  have hpid := hprog.trans ((newPid_sameDirs p k₅).trans (clearFxsave_sameDirs p _))
  obtain ⟨page, hcreates⟩ :=
    hproc.creates hlaw hpid rfl hbuilt hbitmap (linkProc_sameDirs p k₄) rfl rfl
  exact ⟨p, k₁, page, owner, hpage, hcreates⟩

end Constructors

end ChronOS.Proc
