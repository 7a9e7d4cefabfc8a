/-
  Mm/PagingRefinement.lean --- the page tables refine a partial map.

  The abstract object is a partial map from directories and page numbers to
  frames.  A run is any interleaving of `__paging_map` and `__paging_unmap` on
  any number of directories; it is matched step by step by updates of the
  abstract map, so that after the run the four-level walk of any directory at any
  address finds exactly what the last operation naming that page left there.
-/
import ChronOS.Mm.PagingTables

set_option autoImplicit false
set_option maxRecDepth 8000

namespace ChronOS.Mm

open ChronOS.Foundation

/-! ## Runs -/

/-- One call of the paging code. -/
inductive PagingOp where
  /-- `__paging_map(dir, virtual, physical, flags)` -/
  | map (dir virtual physical flags : Word)
  /-- `__paging_unmap(dir, virtual)` -/
  | unmap (dir virtual : Word)
  deriving DecidableEq, Repr

namespace PagingOp

/-- The calls the kernel makes: a known directory, a frame address, and flags
made of `PAGE_PRESENT` and attribute bits. -/
def WellFormed (dirs : Set Word) : PagingOp → Prop
  | .map dir _ physical flags =>
      dir ∈ dirs ∧ FrameAddress physical ∧ Present flags ∧ AttributeFlags flags
  | .unmap dir _ => dir ∈ dirs

/-- The operation is about the page `n` of the directory `d`. -/
def Names (d : Word) (n : BitVec 36) : PagingOp → Bool
  | .map dir virtual _ _ => d = dir ∧ n = pageNumber virtual
  | .unmap dir virtual => d = dir ∧ n = pageNumber virtual

/-- What the operation leaves at the page it names. -/
def frame : PagingOp → Option Word
  | .map _ _ physical _ => some physical
  | .unmap _ _ => none

variable {σ : Type}

def exec (src : PageSource σ) (s : Machine σ) : PagingOp → Option (Machine σ)
  | .map dir virtual physical flags => pagingMap src dir virtual physical flags s
  | .unmap dir virtual => some { s with mem := pagingUnmap dir virtual s.mem }

end PagingOp

/-- Execute the operations in order. -/
def runPaging {σ : Type} (src : PageSource σ) (s : Machine σ) (ops : List PagingOp) :
    Option (Machine σ) :=
  ops.foldlM (PagingOp.exec src) s

/-- The frame set by the last operation naming page `n` of directory `d`, if that
operation was a map. -/
def lastMapped (ops : List PagingOp) (d : Word) (n : BitVec 36) : Option Word :=
  (ops.reverse.find? (PagingOp.Names d n)).bind PagingOp.frame

theorem lastMapped_append_singleton (ops : List PagingOp) (op : PagingOp) (d : Word)
    (n : BitVec 36) :
    lastMapped (ops ++ [op]) d n =
      if op.Names d n then op.frame else lastMapped ops d n := by
  unfold lastMapped
  rw [List.reverse_append, List.reverse_singleton, List.singleton_append, List.find?_cons]
  cases op.Names d n <;> rfl

/-! ## One step -/

section Runs

variable {σ : Type} {src : PageSource σ} {taken : σ → Set Word} {dirs : Set Word}

/-- Each operation sets the page it names and no other page of any directory. -/
theorem PagingOp.exec_spec (hlaw : src.Lawful taken) {s s' : Machine σ} {owner : Owner}
    (hT : Tables dirs s.mem (taken s.pmm) owner) {op : PagingOp} (hop : op.WellFormed dirs)
    (h : op.exec src s = some s') :
    (∃ owner', Tables dirs s'.mem (taken s'.pmm) owner') ∧
      ∀ d ∈ dirs, ∀ x, pageWalk s'.mem d x =
        if op.Names d (pageNumber x) then op.frame else pageWalk s.mem d x := by
  cases op with
  | map dir virtual physical flags =>
      obtain ⟨hdir, hframe, hpresent, hflags⟩ := hop
      obtain ⟨owner', hgrows, hwalk⟩ :=
        pagingMap_spec hlaw hT hdir hpresent hflags.noAddressBits h
      refine ⟨⟨owner', hgrows.tables⟩, fun d hd x => ?_⟩
      rw [hwalk d hd x, hframe.mask]
      simp only [PagingOp.Names, PagingOp.frame, decide_eq_true_eq]
  | unmap dir virtual =>
      cases h
      obtain ⟨hT', _, hwalk⟩ := pagingUnmap_spec hT hop virtual
      refine ⟨⟨owner, hT'⟩, fun d hd x => ?_⟩
      rw [hwalk d hd x]
      simp only [PagingOp.Names, PagingOp.frame, decide_eq_true_eq]

/-! ## Whole runs -/

theorem runPaging_progress :
    ∀ (ops : List PagingOp) (s : Machine σ), src.Supplies (3 * ops.length) s.pmm →
      ∃ s', runPaging src s ops = some s' := by
  intro ops
  induction ops with
  | nil => intro s _; exact ⟨s, rfl⟩
  | cons op ops ih =>
      intro s h
      have hlen : 3 * (op :: ops).length = 3 * ops.length + 3 := by
        simp only [List.length_cons]
        omega
      rw [hlen] at h
      cases op with
      | map dir virtual physical flags =>
          obtain ⟨s₁, h₁, hs₁⟩ := pagingMap_progress h dir virtual physical flags
          obtain ⟨s', hs'⟩ := ih s₁ hs₁
          exact ⟨s', by simpa [runPaging, PagingOp.exec, h₁] using hs'⟩
      | unmap dir virtual =>
          obtain ⟨s', hs'⟩ :=
            ih { s with mem := pagingUnmap dir virtual s.mem } h.mono
          exact ⟨s', by simpa [runPaging, PagingOp.exec] using hs'⟩

/-- The run lemma: tables that represent the operations done so far still
represent them all after any further operations. -/
theorem runPaging_represents (hlaw : src.Lawful taken) :
    ∀ (ops done : List PagingOp) (s s' : Machine σ),
      (∀ op ∈ ops, op.WellFormed dirs) →
      (∃ owner, Tables dirs s.mem (taken s.pmm) owner) →
      (∀ d ∈ dirs, ∀ x, pageWalk s.mem d x = lastMapped done d (pageNumber x)) →
      runPaging src s ops = some s' →
      (∃ owner, Tables dirs s'.mem (taken s'.pmm) owner) ∧
        ∀ d ∈ dirs, ∀ x, pageWalk s'.mem d x = lastMapped (done ++ ops) d (pageNumber x) := by
  intro ops
  induction ops with
  | nil =>
      intro done s s' _ hT hrep hrun
      cases hrun
      exact ⟨hT, by simpa using hrep⟩
  | cons op ops ih =>
      intro done s s' hops hT hrep hrun
      obtain ⟨owner, hT⟩ := hT
      simp only [runPaging, List.foldlM_cons, Option.bind_eq_bind,
        Option.bind_eq_some_iff] at hrun
      obtain ⟨s₁, h₁, hrest⟩ := hrun
      have hop := hops op List.mem_cons_self
      obtain ⟨hT₁, hwalk⟩ := PagingOp.exec_spec hlaw hT hop h₁
      have hrep₁ : ∀ d ∈ dirs, ∀ x,
          pageWalk s₁.mem d x = lastMapped (done ++ [op]) d (pageNumber x) := by
        intro d hd x
        rw [hwalk d hd x, hrep d hd x, lastMapped_append_singleton]
      have := ih (done ++ [op]) s₁ s'
        (fun other hmem => hops other (List.mem_cons_of_mem op hmem)) hT₁ hrep₁ hrest
      simpa using this

/-- Page tables refine a partial map.  The directories `dirs` start zeroed; the
allocator yields fresh frames distinct from the directories.  A run then returns
whenever the allocator supplies three pages for each operation, and after any run
the walk of every directory at every address finds the frame of the last
operation that named its page.  One more operation changes no other page of any
directory. -/
theorem paging_refines_partial_map (hlaw : src.Lawful taken) (s : Machine σ)
    (haligned : ∀ d ∈ dirs, PageAligned d) (hdistinct : dirs ⊆ taken s.pmm)
    (hzero : ∀ d ∈ dirs, ∀ x, InPage d x → s.mem x = 0)
    (ops : List PagingOp) (hops : ∀ op ∈ ops, op.WellFormed dirs) :
    (src.Supplies (3 * ops.length) s.pmm → ∃ s', runPaging src s ops = some s') ∧
      ∀ s', runPaging src s ops = some s' →
        (∀ d ∈ dirs, ∀ x, pageWalk s'.mem d x = lastMapped ops d (pageNumber x)) ∧
        ∀ (op : PagingOp) (s'' : Machine σ), op.WellFormed dirs → op.exec src s' = some s'' →
          ∀ d ∈ dirs, ∀ x, op.Names d (pageNumber x) = false →
            pageWalk s''.mem d x = pageWalk s'.mem d x := by
  refine ⟨runPaging_progress ops s, ?_⟩
  intro s' hrun
  have hT := Tables.of_zero haligned hdistinct hzero
  have hempty : ∀ d ∈ dirs, ∀ x, pageWalk s.mem d x = lastMapped [] d (pageNumber x) := by
    intro d hd x
    exact pageWalk_of_zero (hzero d hd) x
  obtain ⟨⟨owner, hT'⟩, hrep⟩ :=
    runPaging_represents hlaw ops [] s s' hops ⟨_, hT⟩ hempty hrun
  refine ⟨by simpa using hrep, ?_⟩
  intro op s'' hop hexec d hd x hother
  obtain ⟨_, hwalk⟩ := PagingOp.exec_spec hlaw hT' hop hexec
  rw [hwalk d hd x, hother]
  rfl

end Runs

/-- Two zeroed directories and a pool of twelve pages: a page is mapped in both,
remapped in one and unmapped in the other. -/
theorem paging_refines_partial_map_pool :
    let dirs : Set Word := {0x1000#64, 0x2000#64}
    let ops : List PagingOp :=
      [.map 0x1000#64 0xFFFFFFFF80000000#64 0x200000#64 PAGE_NORMAL,
        .map 0x2000#64 0xFFFFFFFF80000000#64 0x300000#64 PAGE_NORMAL,
        .map 0x1000#64 0xFFFFFFFF80000000#64 0x400000#64 PAGE_NORMAL,
        .unmap 0x2000#64 0xFFFFFFFF80000000#64]
    let pool : PagePool :=
      ⟨[0x100000#64, 0x101000#64, 0x102000#64, 0x103000#64, 0x104000#64, 0x105000#64,
        0x106000#64, 0x107000#64, 0x108000#64, 0x109000#64, 0x10a000#64, 0x10b000#64],
        by decide, by simp [FrameAddress, PageAligned]⟩
    (∀ op ∈ ops, op.WellFormed dirs) ∧
    ∃ s', runPaging poolSource { mem := fun _ => 0, pmm := pool } ops = some s' ∧
      pageWalk s'.mem 0x1000#64 0xFFFFFFFF80000123#64 = some 0x400000#64 ∧
      pageWalk s'.mem 0x2000#64 0xFFFFFFFF80000123#64 = none := by
  intro dirs ops pool
  have hops : ∀ op ∈ ops, op.WellFormed dirs := by
    simp [ops, dirs, PagingOp.WellFormed]
    decide
  obtain ⟨hreturns, hrefines⟩ := @paging_refines_partial_map _ _ _ dirs poolSource_lawful
    { mem := fun _ => 0, pmm := pool }
    (by simp [dirs, PageAligned]) (by simp [dirs, pool, PagePool.taken, Set.insert_subset_iff])
    (fun _ _ _ _ => rfl) ops hops
  obtain ⟨s', hrun⟩ := hreturns (poolSource_supplies _ _ (by decide))
  obtain ⟨hwalk, _⟩ := hrefines s' hrun
  refine ⟨hops, s', hrun, ?_, ?_⟩
  · rw [hwalk _ (by simp [dirs])]
    decide
  · rw [hwalk _ (by simp [dirs])]
    decide

end ChronOS.Mm
