/-
  Process/BitmapStorage.lean --- the bytes behind the bitmap of a process.

  The constructors get one page for the bitmap and clear it, but write the size
  of the whole window: 0x10000 bytes.  `bitmap_get` and `bitmap_set` check an
  index against that size.  The first part follows which bytes a single call
  comes to; since the search of `mmap` starts at index 0 and looks at every index
  up to the run it ends at, that run decides.  The second part puts calls in
  sequence after a constructor.
-/
import ChronOS.Mm.VmmMapping
import ChronOS.Process.BitmapOwnership

set_option autoImplicit false

namespace ChronOS.Proc

open ChronOS.Foundation ChronOS.Ds ChronOS.Utils ChronOS.Mm ChronOS.Loader

/-- `byteIndex` of `bitmap_get` and `bitmap_set`, if the index passes their check. -/
def accessedByte (b : Bitmap) (idx : BitVec 32) : Option Nat :=
  if idx.setWidth 64 > b.size * 8#64 then none else some (idx / 8#32).toNat

/-! ## One call -/

section Call

variable {σ : Type}

/-- The search of `mmap` comes to the index `idx`, having passed all before it. -/
def SearchComesTo (m : Mem) (b : Bitmap) (pages idx : BitVec 32) : Prop :=
  ∀ i < idx, clearCount m b i pages.toInt.toNat ≠ pages

/-- `bitmap_get(proc->bitmap, j)` in the search of `mmap`. -/
def SearchReads (m : Mem) (b : Bitmap) (pages j : BitVec 32) : Prop :=
  ∃ idx, SearchComesTo m b pages idx ∧ ∃ i < pages.toInt.toNat, j = idx + BitVec.ofNat 32 i

/-- `bitmap_set(proc->bitmap, j, 1)` in the mapping loop of `mmap`, which comes to iteration `i`
if those before it return. -/
def LoopSets (src : PageSource σ) (proc : AddressSpace) (phys flags : Word) (pages : BitVec 32)
    (s : Machine σ) (j : BitVec 32) : Prop :=
  ∃ idx, findPages s.mem proc.bitmap pages = some idx ∧ ∃ i < pages.toInt.toNat,
    (mapPages src proc (pageAddress VMM_ADDR_START idx) (phys &&& 0xFFFFFFFFFFFFF000#64)
      (flags ||| PAGE_PRESENT) idx i s).isSome ∧ j = idx + BitVec.ofNat 32 i

/-- During the call `bitmap_get` or `bitmap_set` is called with `proc->bitmap` and `j`. -/
def Reaches (src : PageSource σ) (proc : AddressSpace) (s : Machine σ) (j : BitVec 32) :
    VmmCall → Prop
  | .mmap regs =>
      let pages : BitVec 32 := regs.rdx.setWidth 32
      ¬ (regs.rdi = 0 ∨ pages = 0) ∧
        (SearchReads s.mem proc.bitmap pages j ∨ LoopSets src proc regs.rdi regs.rsi pages s j)
  | .munmap regs =>
      let pages : BitVec 32 := regs.rsi.setWidth 32
      ¬ (regs.rdi = 0 ∨ pages = 0) ∧
        ∃ i < pages.toInt.toNat, j = pageIndex VMM_ADDR_START regs.rdi + BitVec.ofNat 32 i

/-- Every byte the call accesses is one of those allocated and cleared. -/
def BytesFit (src : PageSource σ) (proc : AddressSpace) (s : Machine σ) (call : VmmCall) : Prop :=
  ∀ j, Reaches src proc s j call → ∀ byte ∈ accessedByte proc.bitmap j, byte < BITMAP_PAGE_BYTES

/-- The condition on a call.  `mmap`: it does nothing (or searches forever without looking at a
bit), or there is a free run of the requested length among the bits of the page.  `munmap`: it
does nothing, or each index has its bit in the page or is refused. -/
def HasRoom (proc : AddressSpace) (m : Mem) : VmmCall → Prop
  | .mmap regs =>
      let pages := (regs.rdx.setWidth 32 : BitVec 32).toInt
      regs.rdi = 0 ∨ pages ≤ 0 ∨ ∃ i, i + pages.toNat ≤ BITMAP_PAGE_BITS ∧
        ∀ k < pages.toNat, bitAt m proc.bitmap.bitmap (i + k) = false
  | .munmap regs =>
      let pages := (regs.rsi.setWidth 32 : BitVec 32).toInt
      regs.rdi = 0 ∨ ∀ i < pages.toNat,
        InFirstPage (pageIndex VMM_ADDR_START regs.rdi + BitVec.ofNat 32 i)

/-- An index whose byte is in the page, or that is refused. -/
theorem accessedByte_lt_iff {b : Bitmap} (hlimit : b.limit = VMM_SIZE_PAGES) (j : BitVec 32) :
    (∀ byte ∈ accessedByte b j, byte < BITMAP_PAGE_BYTES) ↔ InFirstPage j := by
  have hdiv : (j / 8#32).toNat = j.toNat / 8 := BitVec.toNat_udiv
  have haccept := accepts_iff b j
  unfold accessedByte InFirstPage BITMAP_PAGE_BITS BITMAP_PAGE_BYTES
  by_cases hrefused : j.setWidth 64 > b.size * 8#64
  · rw [if_pos hrefused]
    have hout : ¬ j.toNat ≤ b.limit := fun hle => haccept.mpr hle hrefused
    exact iff_of_true (by simp) (Or.inr (by omega))
  · rw [if_neg hrefused]
    have hin := haccept.mp hrefused
    simp only [Option.mem_def, Option.some.injEq, forall_eq', hdiv]
    omega

/-- The search comes to the index it ends at and to those before it. -/
theorem searchComesTo_iff {m : Mem} {b : Bitmap} {pages idx i : BitVec 32}
    (hfind : findPages m b pages = some idx) : SearchComesTo m b pages i ↔ i ≤ idx := by
  obtain ⟨hstop, hbefore⟩ := searchIndex_eq_some.mp hfind
  constructor
  · intro hcomes
    by_contra hgt
    exact hcomes idx (BitVec.not_le.mp hgt) (beq_iff_eq.mp hstop)
  · intro hle j hj
    rw [BitVec.le_def] at hle
    rw [BitVec.lt_def] at hj
    exact beq_eq_false_iff_ne.mp (hbefore j (BitVec.lt_def.mpr (by omega)))

/-- All the indices of the search are those below the end of the run it finds. -/
theorem searchReads_iff {m : Mem} {b : Bitmap} {pages idx : BitVec 32} (hpages : 1 ≤ pages.toInt)
    (hfind : findPages m b pages = some idx) (hroom : idx.toNat + pages.toInt.toNat < 2 ^ 32)
    (j : BitVec 32) : SearchReads m b pages j ↔ j.toNat < idx.toNat + pages.toInt.toNat := by
  constructor
  · rintro ⟨i, hcomes, k, hk, rfl⟩
    have hle := BitVec.le_def.mp ((searchComesTo_iff hfind).mp hcomes)
    rw [toNat_add_ofNat _ (by omega)]
    omega
  · intro hlt
    by_cases hle : j ≤ idx
    · exact ⟨j, (searchComesTo_iff hfind).mpr hle, 0, by omega, by simp⟩
    · have hgt := BitVec.lt_def.mp (BitVec.not_le.mp hle)
      refine ⟨idx, (searchComesTo_iff hfind).mpr (BitVec.le_refl _), j.toNat - idx.toNat, by omega,
        BitVec.eq_of_toNat_eq ?_⟩
      rw [toNat_add_ofNat _ (by omega)]
      omega

variable {src : PageSource σ} {proc : AddressSpace}

/-- The accesses of `mmap` when it reaches its search: the indices below the end of the run found,
of which the mapping loop sets the last ones. -/
theorem mmap_reaches_iff {s : Machine σ} {regs : Regs} {idx : BitVec 32}
    (hrdi : regs.rdi ≠ 0) (hpages : 1 ≤ (regs.rdx.setWidth 32 : BitVec 32).toInt)
    (hfind : findPages s.mem proc.bitmap (regs.rdx.setWidth 32) = some idx)
    (hroom : idx.toNat + (regs.rdx.setWidth 32 : BitVec 32).toInt.toNat < 2 ^ 32) (j : BitVec 32) :
    Reaches src proc s j (.mmap regs) ↔
      j.toNat < idx.toNat + (regs.rdx.setWidth 32 : BitVec 32).toInt.toNat := by
  simp only [Reaches, hrdi, ne_zero_of_pos hpages, or_self, not_false_eq_true, true_and]
  rw [searchReads_iff hpages hfind hroom, or_iff_left_of_imp]
  rintro ⟨idx', hfind', i, hi, -, rfl⟩
  obtain rfl : idx = idx' := Option.some.inj (hfind.symm.trans hfind')
  rw [toNat_add_ofNat _ (by omega)]
  omega

theorem mmap_bytesFit_iff (hlimit : proc.bitmap.limit = VMM_SIZE_PAGES) (s : Machine σ)
    (regs : Regs) : BytesFit src proc s (.mmap regs) ↔ HasRoom proc s.mem (.mmap regs) := by
  by_cases hnothing : regs.rdi = 0 ∨ (regs.rdx.setWidth 32 : BitVec 32).toInt ≤ 0
  · -- nothing is accessed: the search is not reached, or its inner loop runs for no index
    refine iff_of_true (fun j hreach => ?_) (hnothing.elim Or.inl fun hle => Or.inr (Or.inl hle))
    obtain ⟨hcall, haccess⟩ := hreach
    have hle := hnothing.resolve_left fun hzero => hcall (Or.inl hzero)
    rcases haccess with ⟨-, -, i, hi, -⟩ | ⟨-, -, i, hi, -⟩ <;> omega
  · push Not at hnothing
    obtain ⟨hrdi, hpos⟩ := hnothing
    obtain ⟨idx, hfind, hidx⟩ := @findPages_bound s.mem proc.bitmap hlimit (regs.rdx.setWidth 32)
      (by omega)
    obtain ⟨hnat, hlt⟩ := @toNat_toInt_of_nonneg (regs.rdx.setWidth 32) (by omega)
    have hroom : idx.toNat + (regs.rdx.setWidth 32 : BitVec 32).toInt.toNat < 2 ^ 32 := by
      unfold VMM_SIZE_PAGES at hidx
      omega
    have hreach := @mmap_reaches_iff σ src proc s regs idx hrdi (by omega) hfind hroom
    simp only [BytesFit, HasRoom, hreach, accessedByte_lt_iff hlimit, hrdi, false_or]
    generalize (regs.rdx.setWidth 32 : BitVec 32) = pages at *
    constructor
    · intro hfit
      -- bit 0x8000 is not in the page and is not refused, so the search stays below it
      have hend : idx.toNat + pages.toInt.toNat ≤ BITMAP_PAGE_BITS := by
        by_contra hover
        have hfirst : (BitVec.ofNat 32 BITMAP_PAGE_BITS).toNat = BITMAP_PAGE_BITS := rfl
        have hbit := hfit (BitVec.ofNat 32 BITMAP_PAGE_BITS) (by omega)
        unfold InFirstPage at hbit
        unfold BITMAP_PAGE_BITS BITMAP_PAGE_BYTES VMM_SIZE_PAGES at *
        omega
      refine Or.inr ⟨idx.toNat, hend, fun k hk => ?_⟩
      have hzero := ((findPages_eq_some (by omega)).mp hfind).1 k hk
      have hsum : (idx + BitVec.ofNat 32 k).toNat = idx.toNat + k := toNat_add_ofNat _ (by omega)
      have hlast : (idx + BitVec.ofNat 32 k).toNat < VMM_SIZE_PAGES := by
        unfold BITMAP_PAGE_BITS BITMAP_PAGE_BYTES VMM_SIZE_PAGES at *
        omega
      rw [bitmapGet_eq_zero_iff hlimit hlast, hsum] at hzero
      exact hzero
    · rintro (hle | ⟨i, hi, hclear⟩) j hj
      · omega
      · obtain ⟨idx', hfind', hend⟩ := findPages_exists (by omega) (by decide) hi hclear
        obtain rfl : idx = idx' := Option.some.inj (hfind.symm.trans hfind')
        exact Or.inl (by omega)

theorem munmap_bytesFit_iff (hlimit : proc.bitmap.limit = VMM_SIZE_PAGES) (s : Machine σ)
    (regs : Regs) : BytesFit src proc s (.munmap regs) ↔ HasRoom proc s.mem (.munmap regs) := by
  simp only [BytesFit, HasRoom, Reaches, accessedByte_lt_iff hlimit]
  by_cases hrdi : regs.rdi = 0
  · exact iff_of_true (fun _ hreach => absurd (Or.inl hrdi) hreach.1) (Or.inl hrdi)
  · simp only [hrdi, false_or]
    constructor
    · intro hfit i hi
      refine hfit _ ⟨fun hzero => ?_, i, hi, rfl⟩
      rw [hzero] at hi
      cases hi
    · rintro hroom j ⟨-, i, hi, rfl⟩
      exact hroom i hi

/-- A call accesses bytes of the page only exactly when it has room there. -/
theorem bytesFit_iff (hlimit : proc.bitmap.limit = VMM_SIZE_PAGES) (s : Machine σ)
    (call : VmmCall) : BytesFit src proc s call ↔ HasRoom proc s.mem call := by
  cases call with
  | mmap regs => exact mmap_bytesFit_iff hlimit s regs
  | munmap regs => exact munmap_bytesFit_iff hlimit s regs

end Call

/-! ## Calls after a constructor -/

section Sequence

variable {σ : Type}

/-- `P` holds of every call of the sequence in the state it is made in; a call that does not
return is the last one. -/
def EveryCall (src : PageSource σ) (proc : AddressSpace) (P : Machine σ → VmmCall → Prop) :
    List VmmCall → Machine σ → Prop
  | [], _ => True
  | call :: calls, s =>
      P s call ∧ ∀ s', call.exec src proc s = some s' → EveryCall src proc P calls s'

theorem everyCall_congr {src : PageSource σ} {proc : AddressSpace}
    {P Q : Machine σ → VmmCall → Prop} (h : ∀ s call, P s call ↔ Q s call) :
    ∀ (calls : List VmmCall) (s : Machine σ),
      EveryCall src proc P calls s ↔ EveryCall src proc Q calls s := by
  intro calls
  induction calls with
  | nil => exact fun _ => Iff.rfl
  | cons call calls ih =>
    intro s
    refine and_congr (h s call) (forall_congr' fun s' => imp_congr_right fun _ => ?_)
    exact ih s'

/-- The action is one of the two constructors. -/
def Action.IsConstructor : Action → Prop
  | .makeProc _ | .makeProcFromElf _ => True
  | .vmm _ _ => False

/-- The bitmap of the process at `p`: `page`, as `pmm_getpage` returned it, cleared, and with the
size of the window. -/
structure NewBitmap (src : FrameSource σ) (k : Kernel σ) (p page : Word) : Prop where
  obtained : ∃ k₁ k₂ : Kernel σ, k₁.getpage src = some (page, k₂)
  written : bitmapOf k p = ⟨page, BitVec.ofNat 64 (VMM_SIZE_PAGES / 8)⟩
  cleared : ∀ i < BITMAP_PAGE_BYTES, k.machine.mem (page + BitVec.ofNat 64 i) = 0

variable {src : FrameSource σ} {layout : Layout} {k k' : Kernel σ} {p : Word}

theorem newBitmap_new (h : newBitmap src p k = some k') : ∃ page, NewBitmap src k' p page := by
  simp only [newBitmap, Option.bind_eq_bind, Option.bind_eq_some_iff] at h
  obtain ⟨⟨page, k₁⟩, hpage, heq⟩ := h
  cases heq
  refine ⟨page, ⟨k, k₁, hpage⟩, Function.update_self .., fun i hi => ?_⟩
  unfold BITMAP_PAGE_BYTES at hi
  have hin : InPage page (page + BitVec.ofNat 64 i) := by
    unfold InPage
    rw [toNat_offset _ (by omega)]
    exact hi
  exact memset_page_of_inPage hin 0

/-- What follows the bitmap in both constructors keeps it. -/
theorem NewBitmap.congr {page : Word} (h : NewBitmap src k p page) (hdirs : SameDirs k k')
    (hbitmaps : k'.bitmaps = k.bitmaps) (hmachine : k'.machine = k.machine) :
    NewBitmap src k' p page := by
  refine ⟨h.obtained, ?_, hmachine ▸ h.cleared⟩
  rw [bitmapOf, (hdirs p).1, hbitmaps]
  exact h.written

theorem construct_newBitmap {a : Action} (ha : a.IsConstructor)
    (h : a.exec src layout k = some (p, k')) : ∃ page, NewBitmap src k' p page := by
  cases a with
  | makeProc entry =>
    simp only [Action.exec, makeProc, Option.bind_eq_bind, Option.bind_eq_some_iff] at h
    obtain ⟨⟨q, k₁⟩, hpage, k₂, ⟨⟨q', k₃⟩, hpage', k₄, -, k₅, -, k₆, hbitmap, hlink⟩, heq⟩ := h
    cases heq
    obtain ⟨rfl, rfl⟩ := Prod.mk.inj (Option.some.inj (hpage.symm.trans hpage'))
    cases hlink
    obtain ⟨page, hnew⟩ := newBitmap_new hbitmap
    have hdirs := (clearFxsave_sameDirs q k₆).trans (linkProc_sameDirs q _)
    exact ⟨page, hnew.congr hdirs rfl rfl⟩
  | makeProcFromElf elfData =>
    simp only [Action.exec, makeProcFromElf, Option.bind_eq_bind, Option.bind_eq_some_iff] at h
    obtain ⟨⟨q, k₁⟩, hpage, k₂, ⟨⟨q', k₃⟩, hpage', k₄, -, k₅, -, m₆, -, ⟨prog, m₇⟩, -, k₈, hbitmap,
      hlink⟩, heq⟩ := h
    cases heq
    obtain ⟨rfl, rfl⟩ := Prod.mk.inj (Option.some.inj (hpage.symm.trans hpage'))
    cases hlink
    obtain ⟨page, hnew⟩ := newBitmap_new hbitmap
    exact ⟨page, hnew.congr (linkProc_sameDirs q k₈) rfl rfl⟩
  | vmm q call => exact absurd ha (by simp [Action.IsConstructor])

/-- A process fresh from a constructor has one cleared page behind its bitmap.  Over any sequence
of `mmap` and `munmap` calls, all the bytes that are accessed lie in that page exactly when every
call has room there in the state it is made in. -/
theorem bitmap_accesses_fit_iff {a : Action} (ha : a.IsConstructor)
    (h : a.exec src layout k = some (p, k')) (calls : List VmmCall) :
    (∃ page, NewBitmap src k' p page) ∧
      (EveryCall src.toPageSource (addressSpace k' p)
          (BytesFit src.toPageSource (addressSpace k' p)) calls k'.machine ↔
        EveryCall src.toPageSource (addressSpace k' p)
          (fun s call => HasRoom (addressSpace k' p) s.mem call) calls k'.machine) := by
  obtain ⟨page, hnew⟩ := construct_newBitmap ha h
  have hlimit : (addressSpace k' p).bitmap.limit = VMM_SIZE_PAGES := by
    refine limit_of_size ?_
    rw [addressSpace, hnew.written]
  exact ⟨⟨page, hnew⟩, everyCall_congr (fun s call => bytesFit_iff hlimit s call) calls _⟩

end Sequence

/-- All bits of a cleared page are clear. -/
theorem NewBitmap.bitAt_eq_false {σ : Type} {src : FrameSource σ} {k : Kernel σ} {p page : Word}
    (h : NewBitmap src k p page) {i : Nat} (hi : i < BITMAP_PAGE_BITS) :
    bitAt k.machine.mem (bitmapOf k p).bitmap i = false := by
  unfold BITMAP_PAGE_BITS BITMAP_PAGE_BYTES at hi
  have hbyte := h.cleared (i / 8) (by unfold BITMAP_PAGE_BYTES; omega)
  rw [h.written, bitAt, hbyte]
  exact BitVec.getMsbD_zero

/-- A kernel whose free pages point, where the field `bitmap` is, into their own unused part. -/
def tidyKernel : Kernel PagePool := staleKernel fun p => p + 0x800

theorem isConstructor_makeProc (entry : Word) : (Action.makeProc entry).IsConstructor := trivial

theorem tidyKernel_exec : (Action.makeProc bootLayout.idle).exec poolFrames bootLayout tidyKernel =
    some (0x100000, oneMore tidyKernel) :=
  exec_oneMore (by decide +kernel) (by decide +kernel)

/-- `mmap(0x1000, 0, pages)`. -/
def mmapOf (pages : Word) : VmmCall := .mmap { Regs.zero with rdi := 0x1000, rdx := pages }

/-- The first call of a new process has room for as many pages as the page has bits. -/
theorem largest_mmap_fits :
    EveryCall poolSource (addressSpace (oneMore tidyKernel) 0x100000)
      (BytesFit poolSource (addressSpace (oneMore tidyKernel) 0x100000)) [mmapOf 0x8000]
      (oneMore tidyKernel).machine := by
  obtain ⟨⟨page, hnew⟩, hiff⟩ := bitmap_accesses_fit_iff (isConstructor_makeProc _) tidyKernel_exec
    [mmapOf 0x8000]
  have hcount : (BitVec.setWidth 32 (0x8000 : Word)).toInt.toNat = BITMAP_PAGE_BITS := by decide
  refine hiff.mpr ⟨Or.inr (Or.inr ⟨0, ?_, fun k hk => hnew.bitAt_eq_false ?_⟩), fun _ _ => trivial⟩
  · exact (Nat.zero_add _).le.trans hcount.le
  · rw [Nat.zero_add]
    exact hk.trans_eq hcount

/-- For one page more the search looks at the byte behind the page. -/
theorem larger_mmap_reads_behind_page :
    Reaches poolSource (addressSpace (oneMore tidyKernel) 0x100000) (oneMore tidyKernel).machine
      0x8000 (mmapOf 0x8001) ∧
    accessedByte (bitmapOf (oneMore tidyKernel) 0x100000) 0x8000 = some BITMAP_PAGE_BYTES ∧
    ¬ BytesFit poolSource (addressSpace (oneMore tidyKernel) 0x100000) (oneMore tidyKernel).machine
      (mmapOf 0x8001) := by
  have hreach : Reaches poolSource (addressSpace (oneMore tidyKernel) 0x100000)
      (oneMore tidyKernel).machine 0x8000 (mmapOf 0x8001) := by
    refine ⟨by decide, Or.inl ⟨0, fun i hi => ?_, 0x8000, by decide, by decide⟩⟩
    exact absurd hi BitVec.not_lt_zero
  have hbyte : accessedByte (bitmapOf (oneMore tidyKernel) 0x100000) 0x8000 =
      some BITMAP_PAGE_BYTES := by
    obtain ⟨page, hnew⟩ := construct_newBitmap (isConstructor_makeProc _) tidyKernel_exec
    rw [hnew.written, accessedByte, if_neg (by dsimp only; decide)]
    decide
  exact ⟨hreach, hbyte, fun hfit => absurd (hfit _ hreach _ hbyte) (by decide)⟩

end ChronOS.Proc
