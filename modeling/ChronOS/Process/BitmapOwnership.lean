/-
  Process/BitmapOwnership.lean --- whose bitmap is whose.

  `make_proc` and `make_proc_from_elf` write `new_proc->bitmap->bitmap` and
  `new_proc->bitmap->size`, but nothing ever assigns `new_proc->bitmap`: the
  `bitmap_t` of a process lies wherever the page of its `process_t` happens to
  point.  Runs consist of the two constructors and of `mmap` and `munmap` for the
  processes created so far, and record the pages taken for each process.

  The storage of a bitmap is a single page, so the bits with an index below
  `BITMAP_PAGE_BITS` are the ones it has room for.
-/
import ChronOS.Mm.VmmAgreement
import ChronOS.Process.CreationFrame
import ChronOS.Process.SchedulerRing

set_option autoImplicit false

namespace ChronOS.Proc

open ChronOS.Foundation ChronOS.Ds ChronOS.Utils ChronOS.Mm ChronOS.Loader

/-- The bytes `pmm_getpage` returns and `memset` clears for a bitmap, and their bits. -/
def BITMAP_PAGE_BYTES : Nat := 0x1000

def BITMAP_PAGE_BITS : Nat := 8 * BITMAP_PAGE_BYTES

/-! ## One process at work -/

section Work

variable {σ : Type} {src : PageSource σ} {taken : σ → Set Word} {proc : AddressSpace}

/-- What `mmap` and `munmap` do with memory: apart from the tables of the process and the page
`store` of its bitmap, pages in use keep their bytes. -/
structure Works (taken : σ → Set Word) (tbl store : Word) (s s' : Machine σ)
    (owner owner' : Owner) : Prop where
  tables : Tables {tbl} s'.mem (taken s'.pmm) owner'
  taken_mono : taken s.pmm ⊆ taken s'.pmm
  owner_new : ∀ t ∈ taken s.pmm, owner t = none → owner' t = none
  outside : ∀ p ∈ taken s.pmm, PageAligned p → owner p = none → p ≠ store →
    ∀ x, InPage p x → s'.mem x = s.mem x

theorem Works.refl {tbl store : Word} {s : Machine σ} {owner : Owner}
    (hT : Tables {tbl} s.mem (taken s.pmm) owner) : Works taken tbl store s s owner owner where
  tables := hT
  taken_mono := subset_rfl
  owner_new := fun _ _ h => h
  outside := fun _ _ _ _ _ _ _ => rfl

theorem Works.trans {tbl store : Word} {s₁ s₂ s₃ : Machine σ} {o₁ o₂ o₃ : Owner}
    (h : Works taken tbl store s₁ s₂ o₁ o₂) (h' : Works taken tbl store s₂ s₃ o₂ o₃) :
    Works taken tbl store s₁ s₃ o₁ o₃ where
  tables := h'.tables
  taken_mono := h.taken_mono.trans h'.taken_mono
  owner_new := fun t ht ho => h'.owner_new t (h.taken_mono ht) (h.owner_new t ht ho)
  outside := by
    intro p hp haligned ho hne x hx
    rw [h'.outside p (h.taken_mono hp) haligned (h.owner_new p hp ho) hne x hx,
      h.outside p hp haligned ho hne x hx]

theorem Works.of_grows {tbl store : Word} {s s' : Machine σ} {owner owner' : Owner}
    (h : Grows taken {tbl} s s' owner owner') : Works taken tbl store s s' owner owner' where
  tables := h.tables
  taken_mono := h.taken_mono
  owner_new := h.owner_new
  outside := fun p hp haligned ho _ => h.outside p hp haligned ho

/-- An index whose bit is in the first page of the bitmap, or that `bitmap_set` refuses. -/
def InFirstPage (j : BitVec 32) : Prop := j.toNat < BITMAP_PAGE_BITS ∨ VMM_SIZE_PAGES < j.toNat

/-- A bitmap as the constructors leave it, at a page that is in use and no table. -/
structure OnePage (b : Bitmap) (used : Set Word) (owner : Owner) : Prop where
  limit : b.limit = VMM_SIZE_PAGES
  inUse : b.bitmap ∈ used
  aligned : PageAligned b.bitmap
  free : owner b.bitmap = none

theorem OnePage.works {b : Bitmap} {tbl : Word} {s s' : Machine σ} {owner owner' : Owner}
    (h : OnePage b (taken s.pmm) owner) (hw : Works taken tbl b.bitmap s s' owner owner') :
    OnePage b (taken s'.pmm) owner' :=
  ⟨h.limit, hw.taken_mono h.inUse, h.aligned, hw.owner_new _ h.inUse h.free⟩

/-- The byte of bit `i` lies in the page. -/
theorem inPage_bit (base : Word) {i : Nat} (hi : i < BITMAP_PAGE_BITS) :
    InPage base (base + BitVec.ofNat 64 (i / 8)) := by
  unfold BITMAP_PAGE_BITS BITMAP_PAGE_BYTES at hi
  have hnat : (BitVec.ofNat 64 (i / 8)).toNat = i / 8 := Nat.mod_eq_of_lt (by omega)
  unfold InPage
  bv_omega

theorem bitmapSet_works {b : Bitmap} {tbl : Word} {s : Machine σ} {owner : Owner}
    (hT : Tables {tbl} s.mem (taken s.pmm) owner) (hb : OnePage b (taken s.pmm) owner)
    {j : BitVec 32} (hj : InFirstPage j) (value : Byte) :
    Works taken tbl b.bitmap s { s with mem := (bitmapSet s.mem b j value).2 } owner owner := by
  have hlimit := hb.limit
  have hbytes : ∀ x, ¬ InPage b.bitmap x → (bitmapSet s.mem b j value).2 x = s.mem x := by
    intro x hx
    rcases hj with hin | hout
    · have hle : j.toNat ≤ b.limit := by
        unfold BITMAP_PAGE_BITS BITMAP_PAGE_BYTES at hin
        unfold VMM_SIZE_PAGES at hlimit
        omega
      rw [bitmapSet_accepted _ _ _ _ hle, byteAddress_eq]
      apply Mem.set_of_ne
      intro heq
      exact hx (heq ▸ inPage_bit b.bitmap hin)
    · rw [bitmapSet_rejected _ _ _ _ (by omega)]
  refine ⟨(hT.congr fun t ht x hx => hbytes x fun hin => ?_).1, subset_rfl, fun _ _ h => h,
    fun p _ haligned _ hne x hx => hbytes x fun hin => ?_⟩
  · rw [InPage.unique (hT.aligned t ht) hb.aligned hx hin] at ht
    exact ht hb.free
  · exact hne (InPage.unique haligned hb.aligned hx hin)

theorem mapPage_works (hlaw : src.Lawful taken) {s s' : Machine σ} {owner : Owner}
    (hT : Tables {proc.pml4} s.mem (taken s.pmm) owner)
    (hb : OnePage proc.bitmap (taken s.pmm) owner) {virtaddr physAddr flags : Word}
    {idx i : BitVec 32} (hpresent : Present flags) (hflags : NoAddressBits flags)
    (hj : InFirstPage (idx + i)) (h : mapPage src proc virtaddr physAddr flags idx i s = some s') :
    ∃ owner', Works taken proc.pml4 proc.bitmap.bitmap s s' owner owner' := by
  have hset := bitmapSet_works hT hb hj 1
  obtain ⟨owner', hgrows, -⟩ :=
    pagingMap_spec hlaw hset.tables (Set.mem_singleton _) hpresent hflags h
  exact ⟨owner', hset.trans (Works.of_grows hgrows)⟩

theorem mapPages_works (hlaw : src.Lawful taken) {virtaddr physAddr flags : Word}
    {idx : BitVec 32} (hpresent : Present flags) (hflags : NoAddressBits flags) {s : Machine σ}
    {owner : Owner} (hT : Tables {proc.pml4} s.mem (taken s.pmm) owner)
    (hb : OnePage proc.bitmap (taken s.pmm) owner) :
    ∀ (n : Nat) {s' : Machine σ}, (∀ k < n, InFirstPage (idx + BitVec.ofNat 32 k)) →
      mapPages src proc virtaddr physAddr flags idx n s = some s' →
      ∃ owner', Works taken proc.pml4 proc.bitmap.bitmap s s' owner owner' := by
  intro n
  induction n with
  | zero =>
    intro s' _ h
    cases h
    exact ⟨owner, Works.refl hT⟩
  | succ n ih =>
    intro s' hidx h
    simp only [mapPages, Option.bind_eq_bind, Option.bind_eq_some_iff] at h
    obtain ⟨s₁, hloop, hlast⟩ := h
    obtain ⟨owner₁, hw⟩ := ih (fun k hk => hidx k (by omega)) hloop
    obtain ⟨owner', hw'⟩ := mapPage_works hlaw hw.tables (hb.works hw) hpresent hflags
      (hidx n (by omega)) hlast
    exact ⟨owner', hw.trans hw'⟩

theorem unmapPage_works {s : Machine σ} {owner : Owner}
    (hT : Tables {proc.pml4} s.mem (taken s.pmm) owner)
    (hb : OnePage proc.bitmap (taken s.pmm) owner) {addr : Word} {idx i : BitVec 32}
    (hj : InFirstPage (idx + i)) :
    Works taken proc.pml4 proc.bitmap.bitmap s { s with mem := unmapPage proc addr idx i s.mem }
      owner owner := by
  have hset := bitmapSet_works hT hb hj 0
  obtain ⟨hT', houtside, -⟩ :=
    pagingUnmap_spec hset.tables (Set.mem_singleton _) (pageAddress addr i)
  refine hset.trans ⟨hT', subset_rfl, fun _ _ h => h, fun p _ haligned hnone _ x hx => ?_⟩
  exact houtside p haligned hnone x hx

theorem unmapPages_works {s : Machine σ} {owner : Owner}
    (hT : Tables {proc.pml4} s.mem (taken s.pmm) owner)
    (hb : OnePage proc.bitmap (taken s.pmm) owner) {addr : Word} {idx : BitVec 32} :
    ∀ n : Nat, (∀ k < n, InFirstPage (idx + BitVec.ofNat 32 k)) →
      Works taken proc.pml4 proc.bitmap.bitmap s
        { s with mem := unmapPages proc addr idx n s.mem } owner owner := by
  intro n
  induction n with
  | zero =>
    intro _
    exact Works.refl hT
  | succ n ih =>
    intro hidx
    have hw := ih fun k hk => hidx k (by omega)
    exact hw.trans (unmapPage_works hw.tables (hb.works hw) (hidx n (by omega)))

/-- Arguments that keep a call within the process it is made for.  `mmap`: the call does nothing
(or never returns), or the flags have no address bits and the first page of the bitmap has a free
range of the requested length.  `munmap`: the call does nothing, or every index it computes has
its bit in the first page or is refused. -/
def StaysInside (proc : AddressSpace) (m : Mem) : VmmCall → Prop
  | .mmap regs =>
      let pages := (regs.rdx.setWidth 32 : BitVec 32).toInt
      regs.rdi = 0 ∨ pages ≤ 0 ∨
        NoAddressBits regs.rsi ∧ ∃ i, i + pages.toNat ≤ BITMAP_PAGE_BITS ∧
          ∀ k < pages.toNat, bitAt m proc.bitmap.bitmap (i + k) = false
  | .munmap regs =>
      let pages := (regs.rsi.setWidth 32 : BitVec 32).toInt
      regs.rdi = 0 ∨ ∀ k < pages.toNat,
        InFirstPage (pageIndex VMM_ADDR_START regs.rdi + BitVec.ofNat 32 k)

theorem mmap_works (hlaw : src.Lawful taken) {s s' : Machine σ} {owner : Owner}
    (hT : Tables {proc.pml4} s.mem (taken s.pmm) owner)
    (hb : OnePage proc.bitmap (taken s.pmm) owner) {regs : Regs}
    (hinside : StaysInside proc s.mem (.mmap regs))
    (h : (VmmCall.mmap regs).exec src proc s = some s') :
    ∃ owner', Works taken proc.pml4 proc.bitmap.bitmap s s' owner owner' := by
  by_cases hnoop : regs.rdi = 0 ∨ (regs.rdx.setWidth 32 : BitVec 32) = 0
  · simp only [VmmCall.exec, mmapSyscall, Mm.mmap, if_pos hnoop, Option.bind_eq_bind,
      Option.bind_some, Option.pure_def, Option.map_some, Option.some.injEq] at h
    exact ⟨owner, h ▸ Works.refl hT⟩
  · rw [VmmCall.exec_mmap hnoop, Option.bind_eq_some_iff] at h
    obtain ⟨idx, hfind, hloop⟩ := h
    simp only [StaysInside] at hinside
    generalize (regs.rdx.setWidth 32 : BitVec 32) = pages at *
    have hpos : 0 ≤ pages.toInt := by
      by_contra hneg
      rw [findPages_eq_none (by omega)] at hfind
      cases hfind
    rcases hinside with hzero | hle | ⟨hflags, i, hi, hclear⟩
    · exact absurd (Or.inl hzero) hnoop
    · have hzero : pages.toInt = 0 := le_antisymm hle hpos
      exact absurd (Or.inr (BitVec.eq_of_toInt_eq hzero)) hnoop
    · obtain ⟨j, hj, hroom⟩ := findPages_exists hpos (by decide) hi hclear
      obtain rfl : idx = j := Option.some.inj (hfind.symm.trans hj)
      refine mapPages_works hlaw (present_or (by decide)) (noAddressBits_or_present hflags) hT hb _
        (fun k hk => Or.inl ?_) hloop
      unfold BITMAP_PAGE_BITS BITMAP_PAGE_BYTES at *
      simp only [BitVec.toNat_add, BitVec.toNat_ofNat]
      omega

theorem munmap_works {s s' : Machine σ} {owner : Owner}
    (hT : Tables {proc.pml4} s.mem (taken s.pmm) owner)
    (hb : OnePage proc.bitmap (taken s.pmm) owner) {regs : Regs}
    (hinside : StaysInside proc s.mem (.munmap regs))
    (h : (VmmCall.munmap regs).exec src proc s = some s') :
    Works taken proc.pml4 proc.bitmap.bitmap s s' owner owner := by
  simp only [VmmCall.exec, munmapSyscall, Mm.munmap, Option.some.injEq] at h
  simp only [StaysInside] at hinside
  by_cases hnoop : regs.rdi = 0 ∨ (regs.rsi.setWidth 32 : BitVec 32) = 0
  · rw [if_pos hnoop] at h
    exact h ▸ Works.refl hT
  · rw [if_neg hnoop] at h
    subst h
    refine unmapPages_works hT hb _ ?_
    exact hinside.resolve_left fun hzero => hnoop (Or.inl hzero)

end Work

/-! ## Runs -/

section Runs

variable {σ : Type}

/-- `*proc->bitmap`. -/
def bitmapOf (k : Kernel σ) (p : Word) : Bitmap := k.bitmaps (k.procs p).bitmap

/-- What `mmap` and `munmap` see of the process at `p`. -/
def addressSpace (k : Kernel σ) (p : Word) : AddressSpace := ⟨(k.procs p).pml4, bitmapOf k p⟩

/-- A constructor, or one of the two system calls for the process at `p`. -/
inductive Action where
  | makeProc (entry : Word)
  | makeProcFromElf (elfData : Word)
  | vmm (p : Word) (call : VmmCall)

/-- The process an action creates or is made for, and the state after it.  The constructors put
the new process into the first page they get. -/
def Action.exec (src : FrameSource σ) (layout : Layout) (k : Kernel σ) :
    Action → Option (Word × Kernel σ)
  | .makeProc entry => do
      let (p, _) ← k.getpage src
      let k' ← Proc.makeProc src layout entry k
      return (p, k')
  | .makeProcFromElf elfData => do
      let (p, _) ← k.getpage src
      let k' ← Proc.makeProcFromElf src layout elfData k
      return (p, k')
  | .vmm p call => do
      let machine ← call.exec src.toPageSource (addressSpace k p) k.machine
      return (p, { k with machine })

/-- A created process and the pages taken by its creation. -/
structure Entry where
  proc : Word
  pages : Set Word

/-- The history after an action. -/
def Action.record (taken : σ → Set Word) (k k' : Kernel σ) (p : Word) (hist : List Entry) :
    Action → List Entry
  | .makeProc _ | .makeProcFromElf _ =>
      ⟨p, taken k'.machine.pmm \ taken k.machine.pmm⟩ :: hist
  | .vmm _ _ => hist

/-- System calls are made for processes that exist. -/
def Action.Enabled (hist : List Entry) : Action → Prop
  | .makeProc _ | .makeProcFromElf _ => True
  | .vmm p _ => ∃ e ∈ hist, e.proc = p

/-- A run from any state, in which every action is one that `ok` accepts. -/
inductive BitmapRun (src : FrameSource σ) (layout : Layout) (taken : σ → Set Word)
    (ok : Kernel σ → Action → Prop) : Kernel σ → List Entry → Prop
  | start (k : Kernel σ) : BitmapRun src layout taken ok k []
  | step {k k' : Kernel σ} {hist : List Entry} {p : Word} (a : Action) :
      BitmapRun src layout taken ok k hist → a.Enabled hist → ok k a →
      a.exec src layout k = some (p, k') →
      BitmapRun src layout taken ok k' (a.record taken k k' p hist)

/-- Every `bitmap_t` lies in memory that was allocated for its process, and those of different
processes have different addresses. -/
def OwnBitmaps (k : Kernel σ) (hist : List Entry) : Prop :=
  (∀ e ∈ hist, ∃ page ∈ e.pages, ∀ i < 16,
    InPage page ((k.procs e.proc).bitmap + BitVec.ofNat 64 i)) ∧
  ∀ e ∈ hist, ∀ e' ∈ hist, e.proc ≠ e'.proc →
    (k.procs e.proc).bitmap ≠ (k.procs e'.proc).bitmap

/-- The bitmaps of the processes other than `p` have the same place, storage, size and bits. -/
def OthersUntouched (k k' : Kernel σ) (p : Word) (hist : List Entry) : Prop :=
  ∀ e ∈ hist, e.proc ≠ p → (k'.procs e.proc).bitmap = (k.procs e.proc).bitmap ∧
    bitmapOf k' e.proc = bitmapOf k e.proc ∧
    ∀ i < BITMAP_PAGE_BITS, bitAt k'.machine.mem (bitmapOf k e.proc).bitmap i =
      bitAt k.machine.mem (bitmapOf k e.proc).bitmap i

/-- `sizeof(process_t)`. -/
def PROCESS_SIZE : Nat := 1232

/-- The sixteen bytes at `ptr` lie in the page at `p`, behind the `process_t` there. -/
def BehindProcess (p ptr : Word) : Prop :=
  PROCESS_SIZE ≤ (ptr - p).toNat ∧ (ptr - p).toNat + 16 ≤ 0x1000

/-- Actions that leave other bitmaps alone: the page a constructor gets for the `process_t` has,
in the place of the field `bitmap`, a pointer into its own unused part; a file to be loaded fits
in the pages requested for it; and the arguments of a system call stay inside. -/
def Admits (src : FrameSource σ) (taken : σ → Set Word) (k : Kernel σ) : Action → Prop
  | .makeProc _ => ∀ p k₁, k.getpage src = some (p, k₁) → BehindProcess p (k.procs p).bitmap
  | .makeProcFromElf elfData =>
      (∀ p k₁, k.getpage src = some (p, k₁) → BehindProcess p (k.procs p).bitmap) ∧
        Loadable k.machine.mem (taken k.machine.pmm) elfData
  | .vmm p call => StaysInside (addressSpace k p) k.machine.mem call

variable {src : FrameSource σ} {layout : Layout} {taken : σ → Set Word} {k k' : Kernel σ}
  {hist : List Entry} {owner : Word → Owner} {p : Word}

/-- The invariant: the pages of different processes are different, each has its `bitmap_t` and the
storage of its bitmap among them, and nobody's tables are at another's tables or at the storage
of a bitmap. -/
structure Separate (taken : σ → Set Word) (k : Kernel σ) (hist : List Entry)
    (owner : Word → Owner) : Prop where
  inUse : ∀ e ∈ hist, e.pages ⊆ taken k.machine.pmm
  disjoint : ∀ e ∈ hist, ∀ e' ∈ hist, e.proc ≠ e'.proc → Disjoint e.pages e'.pages
  self : ∀ e ∈ hist, e.proc ∈ e.pages ∧ PageAligned e.proc
  pointer : ∀ e ∈ hist, BehindProcess e.proc (k.procs e.proc).bitmap
  storage : ∀ e ∈ hist, (bitmapOf k e.proc).bitmap ∈ e.pages
  tables : ∀ e ∈ hist,
    Tables {(k.procs e.proc).pml4} k.machine.mem (taken k.machine.pmm) (owner e.proc)
  bitmap : ∀ e ∈ hist, ∀ e' ∈ hist,
    OnePage (bitmapOf k e.proc) (taken k.machine.pmm) (owner e'.proc)
  apart : ∀ e ∈ hist, ∀ e' ∈ hist, e.proc ≠ e'.proc → ∀ t, owner e.proc t ≠ none →
    owner e'.proc t = none

theorem BehindProcess.inPage {ptr : Word} (h : BehindProcess p ptr) {i : Nat} (hi : i < 16) :
    InPage p (ptr + BitVec.ofNat 64 i) := by
  obtain ⟨-, hend⟩ := h
  have hnat : (BitVec.ofNat 64 i).toNat = i := Nat.mod_eq_of_lt (by omega)
  unfold InPage
  bv_omega

theorem BehindProcess.ne {q ptr ptr' : Word} (h : BehindProcess p ptr) (h' : BehindProcess q ptr')
    (hp : PageAligned p) (hq : PageAligned q) (hne : p ≠ q) : ptr ≠ ptr' := by
  intro heq
  subst heq
  exact hne (InPage.unique hp hq (h.inPage (by decide : 0 < 16)) (h'.inPage (by decide : 0 < 16)))

theorem Separate.ownBitmaps (h : Separate taken k hist owner) : OwnBitmaps k hist := by
  refine ⟨fun e he => ⟨e.proc, (h.self e he).1, fun i hi => (h.pointer e he).inPage hi⟩, ?_⟩
  intro e he e' he' hne
  exact (h.pointer e he).ne (h.pointer e' he') (h.self e he).2 (h.self e' he').2 hne

/-- The bits in the first page depend on that page only. -/
theorem bitAt_congr_page {m m' : Mem} {base : Word} (h : ∀ x, InPage base x → m' x = m x) {i : Nat}
    (hi : i < BITMAP_PAGE_BITS) : bitAt m' base i = bitAt m base i := by
  unfold bitAt
  rw [h _ (inPage_bit base hi)]

/-! ### Creating a process -/

/-- A new process is none of those in the history. -/
theorem Separate.ne_new (h : Separate taken k hist owner) (hfresh : p ∉ taken k.machine.pmm)
    {e : Entry} (he : e ∈ hist) : e.proc ≠ p :=
  fun heq => hfresh (heq ▸ h.inUse e he (h.self e he).1)

/-- The constructors write one `bitmap_t`, that of the new process. -/
theorem Creates.bitmapOf_eq {page : Word} {o : Owner} (hc : Creates taken k k' p page o)
    (h : Separate taken k hist owner) (hbehind : BehindProcess p (k.procs p).bitmap)
    {e : Entry} (he : e ∈ hist) : bitmapOf k' e.proc = bitmapOf k e.proc := by
  have hne := (h.pointer e he).ne hbehind (h.self e he).2 hc.aligned (h.ne_new hc.fresh he)
  rw [bitmapOf, hc.pointers, hc.bitmaps, Function.update_of_ne hne]
  rfl

theorem Creates.untouched {page : Word} {o : Owner} (hc : Creates taken k k' p page o)
    (h : Separate taken k hist owner) (hbehind : BehindProcess p (k.procs p).bitmap) :
    OthersUntouched k k' p hist := by
  intro e he _
  refine ⟨hc.pointers _, hc.bitmapOf_eq h hbehind he, fun i hi => bitAt_congr_page ?_ hi⟩
  have hb := h.bitmap e he e he
  exact hc.built.bytes _ hb.inUse hb.aligned

/-- The new process joins the history with pages of its own. -/
theorem Separate.create {page : Word} {o : Owner} (h : Separate taken k hist owner)
    (hc : Creates taken k k' p page o) (hbehind : BehindProcess p (k.procs p).bitmap) :
    Separate taken k' (⟨p, taken k'.machine.pmm \ taken k.machine.pmm⟩ :: hist)
      (Function.update owner p o) := by
  have hsub : taken k.machine.pmm ⊆ taken k'.machine.pmm := hc.built.sub.trans hc.built.inUse
  have hself : Function.update owner p o p = o := Function.update_self ..
  have hothers : ∀ e ∈ hist, Function.update owner p o e.proc = owner e.proc :=
    fun e he => Function.update_of_ne (h.ne_new hc.fresh he) ..
  have hpage : bitmapOf k' p = ⟨page, BitVec.ofNat 64 (VMM_SIZE_PAGES / 8)⟩ := by
    rw [bitmapOf, hc.pointers, hc.bitmaps, Function.update_self]
  have hbitmap : ∀ e ∈ hist, bitmapOf k' e.proc = bitmapOf k e.proc :=
    fun e he => hc.bitmapOf_eq h hbehind he
  have hpageNew : page ∉ taken k.machine.pmm :=
    fun hin => hc.pageFresh (Set.mem_insert_of_mem _ hin)
  -- the tables of the others are pages that were in use, those of the new process are not
  have htables : ∀ e ∈ hist, ∀ t, owner e.proc t ≠ none → t ∈ taken k.machine.pmm :=
    fun e he t ht => (h.tables e he).inUse t ht
  have hclear : ∀ t ∈ taken k.machine.pmm, o t = none :=
    fun t ht => hc.built.clear t (Set.mem_insert_of_mem _ ht)
  constructor
  case inUse =>
    intro e he
    rcases List.mem_cons.mp he with rfl | he
    · exact Set.sdiff_subset
    · exact (h.inUse e he).trans hsub
  case disjoint =>
    intro e he e' he' hne
    rcases List.mem_cons.mp he with rfl | he <;> rcases List.mem_cons.mp he' with rfl | he'
    · exact absurd rfl hne
    · exact Set.disjoint_left.mpr fun x hx hx' => hx.2 (h.inUse e' he' hx')
    · exact Set.disjoint_left.mpr fun x hx hx' => hx'.2 (h.inUse e he hx)
    · exact h.disjoint e he e' he' hne
  case self =>
    intro e he
    rcases List.mem_cons.mp he with rfl | he
    · exact ⟨⟨hc.built.inUse (Set.mem_insert _ _), hc.fresh⟩, hc.aligned⟩
    · exact h.self e he
  case pointer =>
    intro e he
    rw [hc.pointers]
    rcases List.mem_cons.mp he with rfl | he
    · exact hbehind
    · exact h.pointer e he
  case storage =>
    intro e he
    rcases List.mem_cons.mp he with rfl | he
    · rw [hpage]
      exact ⟨hc.pageInUse, hpageNew⟩
    · rw [hbitmap e he]
      exact h.storage e he
  case tables =>
    intro e he
    rcases List.mem_cons.mp he with rfl | he
    · rw [hself]
      exact hc.built.tables
    · rw [hothers e he, hc.dirs _ (h.ne_new hc.fresh he)]
      have hT := ((h.tables e he).congr fun t ht =>
        hc.built.bytes t (htables e he t ht) ((h.tables e he).aligned t ht)).1
      exact hT.mono hsub
  case bitmap =>
    intro e he e' he'
    rcases List.mem_cons.mp he with rfl | he
    · rw [hpage]
      refine ⟨limit_of_size rfl, hc.pageInUse, hc.pageAligned, ?_⟩
      rcases List.mem_cons.mp he' with rfl | he'
      · rw [hself]
        exact hc.pageNone
      · rw [hothers e' he']
        exact (h.tables e' he').owner_eq_none hpageNew
    · rw [hbitmap e he]
      have hb := h.bitmap e he e he
      refine ⟨hb.limit, hsub hb.inUse, hb.aligned, ?_⟩
      rcases List.mem_cons.mp he' with rfl | he'
      · rw [hself]
        exact hclear _ hb.inUse
      · rw [hothers e' he']
        exact (h.bitmap e he e' he').free
  case apart =>
    intro e he e' he' hne t ht
    rcases List.mem_cons.mp he with rfl | he <;> rcases List.mem_cons.mp he' with rfl | he'
    · exact absurd rfl hne
    · rw [hself] at ht
      rw [hothers e' he']
      by_contra howned
      exact ht (hclear t (htables e' he' t howned))
    · rw [hothers e he] at ht
      rw [hself]
      exact hclear t (htables e he t ht)
    · rw [hothers e he] at ht
      rw [hothers e' he']
      exact h.apart e he e' he' hne t ht

/-- A constructor, from what it does and the page it gets. -/
theorem Separate.construct (h : Separate taken k hist owner) {k₁ : Kernel σ}
    (hpage : k.getpage src = some (p, k₁))
    (hcreates : ∃ q k₂ page o, k.getpage src = some (q, k₂) ∧ Creates taken k k' q page o)
    (hbehind : ∀ q k₂, k.getpage src = some (q, k₂) → BehindProcess q (k.procs q).bitmap) :
    (∃ owner', Separate taken k' (⟨p, taken k'.machine.pmm \ taken k.machine.pmm⟩ :: hist) owner') ∧
      OthersUntouched k k' p hist := by
  obtain ⟨q, k₂, page, o, hpage', hc⟩ := hcreates
  obtain ⟨rfl, rfl⟩ := Prod.mk.inj (Option.some.inj (hpage.symm.trans hpage'))
  exact ⟨⟨_, h.create hc (hbehind _ _ hpage)⟩, hc.untouched h (hbehind _ _ hpage)⟩

/-! ### A system call -/

/-- The pages of other processes that matter keep their bytes when one process is at work. -/
theorem Separate.works_untouched {s' : Machine σ} {o : Owner} {e : Entry} (he : e ∈ hist)
    (h : Separate taken k hist owner)
    (hw : Works taken (k.procs e.proc).pml4 (bitmapOf k e.proc).bitmap k.machine s'
      (owner e.proc) o) {e' : Entry} (he' : e' ∈ hist) (hne : e'.proc ≠ e.proc) :
    (∀ x, InPage (bitmapOf k e'.proc).bitmap x → s'.mem x = k.machine.mem x) ∧
      ∀ t, owner e'.proc t ≠ none → ∀ x, InPage t x → s'.mem x = k.machine.mem x := by
  have hT := h.tables e' he'
  have hb := h.bitmap e' he' e he
  refine ⟨hw.outside _ hb.inUse hb.aligned hb.free ?_, fun t ht =>
    hw.outside t (hT.inUse t ht) (hT.aligned t ht) (h.apart e' he' e he hne t ht) ?_⟩
  · intro heq
    have hin := h.storage e' he'
    rw [heq] at hin
    exact Set.disjoint_left.mp (h.disjoint e' he' e he hne) hin (h.storage e he)
  · intro heq
    rw [heq] at ht
    exact ht (h.bitmap e he e' he').free

theorem Separate.work {s' : Machine σ} {o : Owner} {e : Entry} (he : e ∈ hist)
    (h : Separate taken k hist owner)
    (hw : Works taken (k.procs e.proc).pml4 (bitmapOf k e.proc).bitmap k.machine s'
      (owner e.proc) o) :
    Separate taken { k with machine := s' } hist (Function.update owner e.proc o) := by
  -- an entry for the same process has its tables changed, any other has them kept
  have htables : ∀ e' ∈ hist, e'.proc ≠ e.proc →
      Tables {(k.procs e'.proc).pml4} s'.mem (taken s'.pmm) (owner e'.proc) := by
    intro e' he' hne
    have hT := ((h.tables e' he').congr (h.works_untouched he hw he' hne).2).1
    exact hT.mono hw.taken_mono
  constructor
  case inUse => exact fun e' he' => (h.inUse e' he').trans hw.taken_mono
  case disjoint => exact h.disjoint
  case self => exact h.self
  case pointer => exact h.pointer
  case storage => exact h.storage
  case tables =>
    intro e' he'
    by_cases hne : e'.proc = e.proc
    · rw [hne, Function.update_self]
      exact hw.tables
    · rw [Function.update_of_ne hne]
      exact htables e' he' hne
  case bitmap =>
    intro e₁ he₁ e₂ he₂
    have hb := h.bitmap e₁ he₁ e₂ he₂
    refine ⟨hb.limit, hw.taken_mono hb.inUse, hb.aligned, ?_⟩
    by_cases hne : e₂.proc = e.proc
    · rw [hne, Function.update_self]
      rw [hne] at hb
      exact hw.owner_new _ hb.inUse hb.free
    · rw [Function.update_of_ne hne]
      exact hb.free
  case apart =>
    intro e₁ he₁ e₂ he₂ hne t ht
    by_cases h₁ : e₁.proc = e.proc
    · have h₂ : e₂.proc ≠ e.proc := fun heq => hne (h₁.trans heq.symm)
      rw [h₁, Function.update_self] at ht
      rw [Function.update_of_ne h₂]
      by_contra howned
      have hnone := h.apart e₂ he₂ e he h₂ t howned
      exact ht (hw.owner_new t ((h.tables e₂ he₂).inUse t howned) hnone)
    · rw [Function.update_of_ne h₁] at ht
      have hT := h.tables e₁ he₁
      by_cases h₂ : e₂.proc = e.proc
      · rw [h₂, Function.update_self]
        exact hw.owner_new t (hT.inUse t ht) (h.apart e₁ he₁ e he h₁ t ht)
      · rw [Function.update_of_ne h₂]
        exact h.apart e₁ he₁ e₂ he₂ hne t ht

/-- A system call that stays inside works with the tables and the page of its process. -/
theorem Separate.vmm_works (hlaw : src.Lawful taken) (h : Separate taken k hist owner) {e : Entry}
    (he : e ∈ hist) {call : VmmCall} {s' : Machine σ}
    (hinside : StaysInside (addressSpace k e.proc) k.machine.mem call)
    (hexec : call.exec src.toPageSource (addressSpace k e.proc) k.machine = some s') :
    ∃ o, Works taken (k.procs e.proc).pml4 (bitmapOf k e.proc).bitmap k.machine s'
      (owner e.proc) o := by
  have hT : Tables {(addressSpace k e.proc).pml4} k.machine.mem (taken k.machine.pmm)
      (owner e.proc) := h.tables e he
  have hb : OnePage (addressSpace k e.proc).bitmap (taken k.machine.pmm) (owner e.proc) :=
    h.bitmap e he e he
  cases call with
  | mmap regs => exact mmap_works hlaw.page hT hb hinside hexec
  | munmap regs => exact ⟨_, munmap_works hT hb hinside hexec⟩

/-! ### Whole runs -/

/-- One admitted action: the invariant, and the other bitmaps. -/
theorem Separate.step (hlaw : src.Lawful taken) (h : Separate taken k hist owner) {a : Action}
    (henabled : a.Enabled hist) (hok : Admits src taken k a)
    (hexec : a.exec src layout k = some (p, k')) :
    (∃ owner', Separate taken k' (a.record taken k k' p hist) owner') ∧
      OthersUntouched k k' p hist := by
  cases a with
  | makeProc entry =>
    simp only [Action.exec, Option.bind_eq_bind, Option.bind_eq_some_iff] at hexec
    obtain ⟨⟨q, k₁⟩, hpage, k₂, hmake, heq⟩ := hexec
    cases heq
    exact h.construct hpage (makeProc_creates hlaw hmake) hok
  | makeProcFromElf elfData =>
    simp only [Action.exec, Option.bind_eq_bind, Option.bind_eq_some_iff] at hexec
    obtain ⟨⟨q, k₁⟩, hpage, k₂, hmake, heq⟩ := hexec
    cases heq
    exact h.construct hpage (makeProcFromElf_creates hlaw hok.2 hmake) hok.1
  | vmm q call =>
    simp only [Action.exec, Option.bind_eq_bind, Option.bind_eq_some_iff] at hexec
    obtain ⟨s', hcall, heq⟩ := hexec
    cases heq
    obtain ⟨e, he, rfl⟩ := henabled
    obtain ⟨o, hw⟩ := h.vmm_works hlaw he hok hcall
    refine ⟨⟨_, h.work he hw⟩, fun e' he' hne => ⟨rfl, rfl, fun i hi => ?_⟩⟩
    exact bitAt_congr_page (h.works_untouched he hw he' hne).1 hi

theorem BitmapRun.separate (hlaw : src.Lawful taken)
    (hrun : BitmapRun src layout taken (Admits src taken) k hist) :
    ∃ owner, Separate taken k hist owner := by
  induction hrun with
  | start k =>
    refine ⟨fun _ _ => none, ?_⟩
    constructor <;> intro e he <;> exact absurd he List.not_mem_nil
  | step a _ henabled hok hexec ih =>
    obtain ⟨owner, h⟩ := ih
    exact (h.step hlaw henabled hok hexec).1

/-- In every run of admitted actions, every process has its own `bitmap_t` in its own memory, and
the next admitted action changes neither the place, nor the size, nor a bit of the bitmap of any
process it is not made for. -/
theorem every_process_owns_its_bitmap (hlaw : src.Lawful taken)
    (hrun : BitmapRun src layout taken (Admits src taken) k hist) :
    OwnBitmaps k hist ∧
      ∀ a p k', a.Enabled hist → Admits src taken k a → a.exec src layout k = some (p, k') →
        OthersUntouched k k' p hist := by
  obtain ⟨owner, h⟩ := hrun.separate hlaw
  exact ⟨h.ownBitmaps, fun a p k' henabled hok hexec => (h.step hlaw henabled hok hexec).2⟩

end Runs

/-! ## Two processes -/

/-- Pages for two processes with a stack, a table and a bitmap each. -/
def twoProcPool : PagePool where
  pages := [0x100000, 0x101000, 0x102000, 0x103000, 0x104000, 0x105000, 0x106000, 0x107000]
  nodup := by decide
  frame := by simp [FrameAddress, PageAligned]

/-- A kernel with a queue, in which the page at `p` has the word `stale p` in the place of the
field `bitmap`. -/
def staleKernel (stale : Word → Word) : Kernel PagePool :=
  { bootKernel with
    machine := { mem := fun _ => 0, pmm := twoProcPool }
    procs := fun p => { bootKernel.procs p with bitmap := stale p }
    procQueue := 0x200000
    curProc := 0x200000 }

/-- The state after one more `make_proc(idle, 1)`. -/
def oneMore (k : Kernel PagePool) : Kernel PagePool :=
  (makeProc poolFrames bootLayout bootLayout.idle k).getD k

theorem exec_oneMore {k : Kernel PagePool} {p : Word}
    (hpage : (k.getpage poolFrames).map Prod.fst = some p)
    (hsome : (makeProc poolFrames bootLayout bootLayout.idle k).isSome = true) :
    (Action.makeProc bootLayout.idle).exec poolFrames bootLayout k = some (p, oneMore k) := by
  obtain ⟨⟨q, k₁⟩, hget, rfl⟩ := Option.map_eq_some_iff.mp hpage
  obtain ⟨k', hmake⟩ := Option.isSome_iff_exists.mp hsome
  simp only [Action.exec, oneMore, hget, hmake, Option.bind_eq_bind, Option.bind_some,
    Option.getD_some, Option.pure_def]

theorem admits_oneMore {k : Kernel PagePool} {p : Word}
    (hpage : (k.getpage poolFrames).map Prod.fst = some p)
    (hbehind : BehindProcess p (k.procs p).bitmap) :
    Admits poolFrames PagePool.taken k (.makeProc bootLayout.idle) := by
  intro q k₁ hget
  rw [hget] at hpage
  cases hpage
  exact hbehind

/-- The history after the first and the second `make_proc`. -/
def firstHist (k : Kernel PagePool) : List Entry :=
  (Action.makeProc bootLayout.idle).record PagePool.taken k (oneMore k) 0x100000 []

def secondHist (k : Kernel PagePool) : List Entry :=
  (Action.makeProc bootLayout.idle).record PagePool.taken (oneMore k) (oneMore (oneMore k)) 0x104000
    (firstHist k)

theorem twoProcs_run {ok : Kernel PagePool → Action → Prop} {k : Kernel PagePool}
    (hpage : (k.getpage poolFrames).map Prod.fst = some 0x100000)
    (hpage' : ((oneMore k).getpage poolFrames).map Prod.fst = some 0x104000)
    (hsome : (makeProc poolFrames bootLayout bootLayout.idle k).isSome = true)
    (hsome' : (makeProc poolFrames bootLayout bootLayout.idle (oneMore k)).isSome = true)
    (hok : ok k (.makeProc bootLayout.idle)) (hok' : ok (oneMore k) (.makeProc bootLayout.idle)) :
    BitmapRun poolFrames bootLayout PagePool.taken ok (oneMore k) (firstHist k) ∧
      BitmapRun poolFrames bootLayout PagePool.taken ok (oneMore (oneMore k)) (secondHist k) := by
  have hfirst : BitmapRun poolFrames bootLayout PagePool.taken ok (oneMore k) (firstHist k) :=
    .step _ (.start k) trivial hok (exec_oneMore hpage hsome)
  exact ⟨hfirst, .step _ hfirst trivial hok' (exec_oneMore hpage' hsome')⟩

/-- With zeroed memory both processes have their `bitmap_t` at address 0, and creating the second
replaces the storage of the first one's bitmap. -/
theorem zeroed_pages_share_bitmap :
    BitmapRun poolFrames bootLayout PagePool.taken (fun _ _ => True)
      (oneMore (oneMore (staleKernel fun _ => 0))) (secondHist (staleKernel fun _ => 0)) ∧
    ¬ OwnBitmaps (oneMore (oneMore (staleKernel fun _ => 0)))
      (secondHist (staleKernel fun _ => 0)) ∧
    ¬ OthersUntouched (oneMore (staleKernel fun _ => 0))
      (oneMore (oneMore (staleKernel fun _ => 0))) 0x104000
      (firstHist (staleKernel fun _ => 0)) := by
  refine ⟨(twoProcs_run (by decide +kernel) (by decide +kernel) (by decide +kernel)
    (by decide +kernel) trivial trivial).2, fun hown => ?_, fun hsame => ?_⟩
  · refine hown.2 _ (.tail _ (.head _)) _ (.head _) (by decide) ?_
    decide +kernel
  · have hstorage := (hsame _ (.head _) (by decide)).2.1
    revert hstorage
    decide +kernel

/-- With pages that point into their own unused part, the second process gets a bitmap of its own
and leaves the first one's alone. -/
theorem tidy_pages_own_bitmaps :
    OwnBitmaps (oneMore (oneMore (staleKernel fun p => p + 0x800)))
      (secondHist (staleKernel fun p => p + 0x800)) ∧
    OthersUntouched (oneMore (staleKernel fun p => p + 0x800))
      (oneMore (oneMore (staleKernel fun p => p + 0x800))) 0x104000
      (firstHist (staleKernel fun p => p + 0x800)) := by
  have hpage : ((staleKernel fun p => p + 0x800).getpage poolFrames).map Prod.fst =
      some 0x100000 := by decide +kernel
  have hpage' : ((oneMore (staleKernel fun p => p + 0x800)).getpage poolFrames).map Prod.fst =
      some 0x104000 := by decide +kernel
  have hsome' : (makeProc poolFrames bootLayout bootLayout.idle
      (oneMore (staleKernel fun p => p + 0x800))).isSome = true := by decide +kernel
  have hok := admits_oneMore hpage ⟨by decide +kernel, by decide +kernel⟩
  have hok' := admits_oneMore hpage' ⟨by decide +kernel, by decide +kernel⟩
  obtain ⟨hfirst, hsecond⟩ := twoProcs_run hpage hpage' (by decide +kernel) hsome' hok hok'
  refine ⟨(every_process_owns_its_bitmap poolFrames_lawful hsecond).1, ?_⟩
  exact (every_process_owns_its_bitmap poolFrames_lawful hfirst).2 (.makeProc bootLayout.idle) _ _
    trivial hok' (exec_oneMore hpage' hsome')

end ChronOS.Proc
