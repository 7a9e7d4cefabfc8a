/-
  Acpi/LaiMap.lean --- `laihost_map` and `laihost_unmap` of `kernel/src/lai_wrapper.c`.

  Both take a number of bytes and use it as a number of pages.  They run over `count`
  pages from that of `addr` on, while the product `i * 0x1000` does not overflow an
  `int`; after that they go on 2 GiB below `addr`.

  What a call should do is about the pages of the bytes `[addr, addr + count)`.  A
  page is what the page tables distinguish, a page number; `visited` are the pages
  the loops run over.
-/
import ChronOS.Acpi.AcpiInit
import ChronOS.Foundation.Loop

set_option autoImplicit false

namespace ChronOS.Acpi

open ChronOS.Foundation ChronOS.Mm

/-! ## The code -/

/-- `(uint64_t)(addr + (i * 0x1000)) & 0xFFFFFFFFFFFFF000`. -/
def laiPage (addr : Word) (i : BitVec 32) : Word :=
  pageOf (addr + (i * 0x1000#32).signExtend 64)

/-- `laihost_map`. -/
def laihostMap {σ : Type} (src : PageSource σ) (pml4 addr count : Word) (s : Machine σ) :
    Option (Machine σ) :=
  intLoop count (fun i => pagingMap src pml4 (laiPage addr i) (laiPage addr i) PAGE_NORMAL)
    (2 ^ 32) 0 s

/-- `laihost_unmap`. -/
def laihostUnmap (pml4 addr count : Word) (m : Mem) : Option Mem :=
  intLoop count (fun i m => some (pagingUnmap pml4 (laiPage addr i) m)) (2 ^ 32) 0 m

/-- The pages both loops run over. -/
def visited (addr count : Word) : List Word :=
  (List.range (iterations count)).map fun i => laiPage addr (BitVec.ofNat 32 i)

/-! ## What the calls are for -/

section Spec

variable (pml4 addr count : Word)

/-- The page of `x` has a byte of `[addr, addr + count)`. -/
def Intersects (x : Word) : Prop :=
  ∃ k < count.toNat, pageNumber x = pageNumber (addr + BitVec.ofNat 64 k)

/-- No translation outside the range has changed. -/
def FrameOf (m m' : Mem) : Prop :=
  ∀ x, ¬ Intersects addr count x → pageWalk m' pml4 x = pageWalk m pml4 x

/-- The bytes of the range are mapped to themselves, and nothing else has changed. -/
structure MapsRange (m m' : Mem) : Prop where
  mapped : ∀ k < count.toNat, IdentityMapped m' pml4 (pageOf (addr + BitVec.ofNat 64 k))
  frame : FrameOf pml4 addr count m m'

/-- The pages of the range are not mapped, and nothing else has changed. -/
structure UnmapsRange (m m' : Mem) : Prop where
  unmapped : ∀ x, Intersects addr count x → pageWalk m' pml4 x = none
  frame : FrameOf pml4 addr count m m'

/-- A page of the range that the loop runs over has an address that an entry can hold, and one
that it does not run over is mapped to itself already; and so is a page that the loop runs over
outside the range. -/
structure MapCondition (m : Mem) : Prop where
  held : ∀ k < count.toNat, Names (visited addr count) (pageOf (addr + BitVec.ofNat 64 k)) →
    (pageOf (addr + BitVec.ofNat 64 k)).toNat < 2 ^ 40
  missed : ∀ k < count.toNat, ¬ Names (visited addr count) (pageOf (addr + BitVec.ofNat 64 k)) →
    IdentityMapped m pml4 (pageOf (addr + BitVec.ofNat 64 k))
  outside : ∀ x, Names (visited addr count) x → ¬ Intersects addr count x →
    pageWalk m pml4 x = some (x &&& 0x000000fffffff000#64)

/-- The pages that belong to one of the range and the pages that are run over, but not to both,
are not mapped. -/
structure UnmapCondition (m : Mem) : Prop where
  missed : ∀ x, Intersects addr count x → ¬ Names (visited addr count) x → pageWalk m pml4 x = none
  outside : ∀ x, Names (visited addr count) x → ¬ Intersects addr count x → pageWalk m pml4 x = none

end Spec

/-! ## What the loops do -/

section Loops

variable {σ : Type} {src : PageSource σ} {taken : σ → Set Word} {dirs : Set Word}
  {pml4 addr count : Word}

theorem laihostMap_eq (s : Machine σ) :
    laihostMap src pml4 addr count s =
      (visited addr count).foldlM (fun s v => pagingMap src pml4 v v PAGE_NORMAL s) s := by
  rw [laihostMap, intLoop_eq_foldlM, visited, List.foldlM_map, List.foldlM_map]

theorem laihostUnmap_eq (m : Mem) :
    laihostUnmap pml4 addr count m =
      some ((visited addr count).foldl (fun m v => pagingUnmap pml4 v m) m) := by
  rw [laihostUnmap, intLoop_eq_foldlM, visited, List.foldlM_map, List.foldl_map,
    ← Option.pure_def, ← List.foldlM_pure]

theorem mapAll_spec (hlaw : src.Lawful taken) (hdir : pml4 ∈ dirs) :
    ∀ {pages : List Word} {s s' : Machine σ} {owner : Owner},
      Tables dirs s.mem (taken s.pmm) owner →
      pages.foldlM (fun s v => pagingMap src pml4 v v PAGE_NORMAL s) s = some s' →
      ∃ owner', Grows taken dirs s s' owner owner' ∧ WalksAfter pml4 pages s.mem s'.mem := by
  intro pages
  induction pages with
  | nil =>
    intro s s' owner hT h
    cases h
    refine ⟨owner, Grows.refl hT, fun x => ⟨fun hnames => ?_, fun _ => rfl⟩⟩
    obtain ⟨v, hv, -⟩ := hnames
    exact absurd hv List.not_mem_nil
  | cons v pages ih =>
    intro s s' owner hT h
    rw [List.foldlM_cons, Option.bind_eq_bind, Option.bind_eq_some_iff] at h
    obtain ⟨s₁, hmap, hrest⟩ := h
    obtain ⟨owner₁, hgrows, hwalk⟩ := pagingMap_self hlaw hdir hT hmap
    obtain ⟨owner', hgrows', hwalks⟩ := ih hgrows.tables hrest
    exact ⟨owner', hgrows.trans hgrows', hwalks.cons hwalk⟩

theorem unmapAll_spec (hdir : pml4 ∈ dirs) {used : Set Word} {owner : Owner} :
    ∀ {pages : List Word} {m : Mem}, Tables dirs m used owner → ∀ x,
      (Names pages x → pageWalk (pages.foldl (fun m v => pagingUnmap pml4 v m) m) pml4 x = none) ∧
      (¬ Names pages x → pageWalk (pages.foldl (fun m v => pagingUnmap pml4 v m) m) pml4 x =
        pageWalk m pml4 x) := by
  intro pages
  induction pages with
  | nil =>
    intro m hT x
    refine ⟨fun hnames => ?_, fun _ => rfl⟩
    obtain ⟨v, hv, -⟩ := hnames
    exact absurd hv List.not_mem_nil
  | cons v pages ih =>
    intro m hT x
    obtain ⟨hT', -, hwalk⟩ := pagingUnmap_spec hT hdir v
    have hfirst := hwalk pml4 hdir x
    simp only [true_and] at hfirst
    obtain ⟨hin, hout⟩ := ih hT' x
    rw [List.foldl_cons, names_cons]
    by_cases hlater : Names pages x
    · exact ⟨fun _ => hin hlater, fun hnot => absurd (Or.inr hlater) hnot⟩
    · rw [hout hlater, hfirst]
      exact ⟨fun hnames => if_pos (hnames.resolve_right hlater),
        fun hnot => if_neg fun hpage => hnot (Or.inl hpage)⟩

/-- With three pages for every page that is run over, `laihost_map` returns. -/
theorem laihostMap_progress {s : Machine σ} (hpages : src.Supplies (3 * iterations count) s.pmm) :
    ∃ s', laihostMap src pml4 addr count s = some s' := by
  have hall : ∀ (pages : List Word) (s : Machine σ), src.Supplies (3 * pages.length) s.pmm →
      ∃ s', pages.foldlM (fun s v => pagingMap src pml4 v v PAGE_NORMAL s) s = some s' := by
    intro pages
    induction pages with
    | nil => exact fun s _ => ⟨s, rfl⟩
    | cons v pages ih =>
      intro s hpages
      have hsplit : 3 * (v :: pages).length = 3 * pages.length + 3 := by
        rw [List.length_cons]
        omega
      rw [hsplit] at hpages
      obtain ⟨s₁, hmap, hrest⟩ := pagingMap_progress hpages pml4 v v PAGE_NORMAL
      obtain ⟨s', hs'⟩ := ih s₁ hrest
      exact ⟨s', by rw [List.foldlM_cons, hmap]; exact hs'⟩
  rw [laihostMap_eq]
  exact hall _ s (by rwa [visited, List.length_map, List.length_range])

/-! ## Exactly the range -/

theorem pageNumber_pageOf (x : Word) : pageNumber (pageOf x) = pageNumber x := by
  have hx := x.isLt
  rw [pageNumber, pageNumber, BitVec.toNat_eq, BitVec.toNat_setWidth, BitVec.toNat_setWidth,
    BitVec.toNat_ushiftRight, BitVec.toNat_ushiftRight, Nat.shiftRight_eq_div_pow,
    Nat.shiftRight_eq_div_pow, pageOf, toNat_roundDown]
  omega

theorem intersects_pageOf {k : Nat} (hk : k < count.toNat) :
    Intersects addr count (pageOf (addr + BitVec.ofNat 64 k)) :=
  ⟨k, hk, pageNumber_pageOf _⟩

theorem mapsRange_iff {m m' : Mem} (hwalks : WalksAfter pml4 (visited addr count) m m') :
    MapsRange pml4 addr count m m' ↔ MapCondition pml4 addr count m := by
  have hidentity := fun k : Nat =>
    hwalks.identityMapped_iff (pageAligned_pageOf (addr + BitVec.ofNat 64 k))
  constructor
  · rintro ⟨hmapped, hframe⟩
    refine ⟨fun k hk => ((hidentity k).mp (hmapped k hk)).1,
      fun k hk => ((hidentity k).mp (hmapped k hk)).2, fun x hnames hout => ?_⟩
    rw [← hframe x hout]
    exact (hwalks x).1 hnames
  · rintro ⟨hheld, hmissed, houtside⟩
    refine ⟨fun k hk => (hidentity k).mpr ⟨hheld k hk, hmissed k hk⟩, fun x hout => ?_⟩
    by_cases hnames : Names (visited addr count) x
    · rw [(hwalks x).1 hnames, houtside x hnames hout]
    · exact (hwalks x).2 hnames

end Loops

/-- When it returns, `laihost_map` has acted on exactly the pages of the range if and only if the
pages that it runs over and the pages of the range differ by pages that are mapped to themselves
anyway, and the former can be held in an entry; `laihost_unmap`, which always returns, if and only
if they differ by pages that are not mapped. -/
theorem laihost_acts_on_range_iff {σ : Type} {src : PageSource σ} {taken : σ → Set Word}
    {dirs : Set Word} {pml4 : Word} (hlaw : src.Lawful taken) (hdir : pml4 ∈ dirs)
    {s : Machine σ} {owner : Owner} (hT : Tables dirs s.mem (taken s.pmm) owner)
    (addr count : Word) :
    (∀ s', laihostMap src pml4 addr count s = some s' →
      (MapsRange pml4 addr count s.mem s'.mem ↔ MapCondition pml4 addr count s.mem)) ∧
      ∃ m', laihostUnmap pml4 addr count s.mem = some m' ∧
        (UnmapsRange pml4 addr count s.mem m' ↔ UnmapCondition pml4 addr count s.mem) := by
  refine ⟨fun s' hmap => ?_, _, laihostUnmap_eq s.mem, ?_⟩
  · rw [laihostMap_eq] at hmap
    obtain ⟨-, -, hwalks⟩ := mapAll_spec hlaw hdir hT hmap
    exact mapsRange_iff hwalks
  have hunmap := @unmapAll_spec dirs pml4 hdir _ owner (visited addr count) s.mem hT
  constructor
  · rintro ⟨hunmapped, hframe⟩
    refine ⟨fun x hin hmissed => ?_, fun x hnames hout => ?_⟩
    · rw [← (hunmap x).2 hmissed]
      exact hunmapped x hin
    · rw [← hframe x hout]
      exact (hunmap x).1 hnames
  · rintro ⟨hmissed, houtside⟩
    refine ⟨fun x hin => ?_, fun x hout => ?_⟩
    · by_cases hnames : Names (visited addr count) x
      · exact (hunmap x).1 hnames
      · rw [(hunmap x).2 hnames, hmissed x hin hnames]
    · by_cases hnames : Names (visited addr count) x
      · rw [(hunmap x).1 hnames, houtside x hnames hout]
      · exact (hunmap x).2 hnames

/-! ## One byte and two -/

/-- No page is mapped, and the pool has pages for the tables. -/
def emptyMachine : Machine PagePool := ⟨fun _ => 0, firmwarePool⟩

theorem emptyMachine_tables :
    ∃ owner, Tables {0x1000} emptyMachine.mem firmwarePool.taken owner := by
  classical
  exact ⟨_, Tables.of_zero (by simp [PageAligned]) (by simp [PagePool.taken, firmwarePool])
    fun _ _ _ _ => rfl⟩

theorem emptyMachine_unmapped (x : Word) : pageWalk emptyMachine.mem 0x1000 x = none :=
  pageWalk_of_zero (fun _ _ => rfl) x

theorem visited_one (addr : Word) : visited addr 1 = [pageOf addr] := by
  simp [visited, iterations, laiPage]

/-- A call for one byte runs over the page of that byte. -/
theorem laihost_one_byte :
    ∃ s', laihostMap poolSource 0x1000 0x5010 1 emptyMachine = some s' ∧
      MapsRange 0x1000 0x5010 1 emptyMachine.mem s'.mem ∧
      ∃ m', laihostUnmap 0x1000 0x5010 1 emptyMachine.mem = some m' ∧
        UnmapsRange 0x1000 0x5010 1 emptyMachine.mem m' := by
  obtain ⟨owner, hT⟩ := emptyMachine_tables
  have hpages : poolSource.Supplies (3 * iterations 1) emptyMachine.pmm :=
    poolSource_supplies _ firmwarePool (by decide)
  obtain ⟨s', hmap⟩ := @laihostMap_progress _ _ 0x1000 0x5010 _ emptyMachine hpages
  obtain ⟨hmaps, m', hunmap, hunmaps⟩ := laihost_acts_on_range_iff poolSource_lawful
    (Set.mem_singleton _) hT 0x5010 1
  have hbyte : ∀ k < (1 : Word).toNat, k = 0 := fun k hk => Nat.lt_one_iff.mp hk
  have hnames : ∀ x, Names (visited 0x5010 1) x ↔ Intersects 0x5010 1 x := by
    intro x
    rw [visited_one, names_cons, pageNumber_pageOf]
    constructor
    · rintro (hpage | ⟨v, hv, -⟩)
      · exact ⟨0, by decide, by simpa using hpage⟩
      · exact absurd hv List.not_mem_nil
    · rintro ⟨k, hk, hpage⟩
      obtain rfl := hbyte k hk
      exact Or.inl (by simpa using hpage)
  refine ⟨s', hmap,
    (hmaps s' hmap).mpr ⟨fun k hk _ => ?_, fun k hk hmissed => ?_, fun x hin hout => ?_⟩,
    m', hunmap, hunmaps.mpr ⟨fun x _ _ => ?_, fun x _ _ => ?_⟩⟩
  · obtain rfl := hbyte k hk
    decide
  · exact absurd ((hnames _).mpr (intersects_pageOf hk)) hmissed
  · exact absurd ((hnames x).mp hin) hout
  · exact emptyMachine_unmapped x
  · exact emptyMachine_unmapped x

/-- A call for the two bytes at 0x5000 maps the page at 0x6000 too, and the call that should undo
it on a machine where that page was in use takes it away. -/
theorem laihost_two_bytes :
    ∃ s', laihostMap poolSource 0x1000 0x5000 2 emptyMachine = some s' ∧
      ¬ Intersects 0x5000 2 0x6000 ∧ pageWalk emptyMachine.mem 0x1000 0x6000 = none ∧
      pageWalk s'.mem 0x1000 0x6000 = some 0x6000 ∧
      ∃ m', laihostUnmap 0x1000 0x5000 2 s'.mem = some m' ∧ pageWalk m' 0x1000 0x6000 = none := by
  obtain ⟨owner, hT⟩ := emptyMachine_tables
  have hpages : poolSource.Supplies (3 * iterations 2) emptyMachine.pmm :=
    poolSource_supplies _ firmwarePool (by decide)
  obtain ⟨s', hmap⟩ := @laihostMap_progress _ _ 0x1000 0x5000 _ emptyMachine hpages
  have hvisited : visited 0x5000 2 = [0x5000, 0x6000] := by decide
  have hnames : Names (visited 0x5000 2) 0x6000 := by
    rw [hvisited]
    exact ⟨0x6000, by decide, rfl⟩
  have hall := hmap
  rw [laihostMap_eq] at hall
  obtain ⟨owner', hgrows, hwalks⟩ := mapAll_spec poolSource_lawful (Set.mem_singleton _) hT hall
  refine ⟨s', hmap, ?_, emptyMachine_unmapped _, (hwalks _).1 hnames, _, laihostUnmap_eq _, ?_⟩
  · rintro ⟨k, hk, hpage⟩
    have htwo : k < 2 := hk
    interval_cases k <;> cases hpage
  · exact (unmapAll_spec (Set.mem_singleton _) hgrows.tables _).1 hnames

end ChronOS.Acpi
