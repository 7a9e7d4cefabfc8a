/-
  Acpi/AcpiInit.lean --- the pages that `acpi_init` maps, and those that the lookups read.

  The mapping loop takes its pointers from `rsdt->table_ptr` also when the root table is
  the XSDT; `rsdt` is then the null pointer, and the pages it maps have nothing to do
  with the tables.  Of the root table itself only the page of its address is mapped.

  Memory is read at physical addresses, as everywhere in the paging code, and the model
  returns the arguments of `paging_map` with the state.
-/
import ChronOS.Acpi.Acpi
import ChronOS.Mm.IdentityMap

set_option autoImplicit false

namespace ChronOS.Acpi

open ChronOS.Foundation ChronOS.Mm

/-- `p & 0xFFFFFFFFFFFFF000`. -/
def pageOf (p : Word) : Word := p &&& 0xFFFFFFFFFFFFF000#64

/-- `rsdp->revision`. -/
def rsdpRevision (m : Mem) (rsdp : Word) : Byte := m (rsdp + 15)

/-- `rsdp->rsdt_addr`. -/
def rsdpRsdtAddr (m : Mem) (rsdp : Word) : BitVec 32 := m.read 4 (rsdp + 16)

/-- `rsdp->xsdt_addr`. -/
def rsdpXsdtAddr (m : Mem) (rsdp : Word) : Word := m.read64 (rsdp + 24)

/-- `rsdt` and `xsdt` as `acpi_init` sets them; both are NULL when it begins. -/
def designated (m : Mem) (rsdp : Word) : Roots :=
  if 0 < rsdpRevision m rsdp then ⟨NULL, rsdpXsdtAddr m rsdp⟩
  else ⟨(rsdpRsdtAddr m rsdp).setWidth 64, NULL⟩

/-- What `acpi_init` leaves after its mapping loop, with the addresses given to `paging_map`. -/
structure Initialised (σ : Type) where
  roots : Roots
  machine : Machine σ
  mapped : List Word

section Init

variable {σ : Type} (src : PageSource σ) (pml4 : Word)

/-- The mapping loop from index `i` on, with `left` iterations to go. -/
def mapTables (rsdt : Word) : (left i : Nat) → Machine σ → Option (Machine σ × List Word)
  | 0, _, s => some (s, [])
  | left + 1, i, s => do
    let page := pageOf (rsdtPtr s.mem rsdt i)
    let s ← pagingMap src pml4 page page PAGE_NORMAL s
    let (s, mapped) ← mapTables rsdt left (i + 1) s
    return (s, page :: mapped)

/-- `acpi_init` up to the end of the mapping loop. -/
def acpiInit (rsdp : Word) (s : Machine σ) : Option (Initialised σ) := do
  let roots := designated s.mem rsdp
  let root := if 0 < rsdpRevision s.mem rsdp then roots.xsdt else roots.rsdt
  let s ← pagingMap src pml4 root root PAGE_NORMAL s
  let (s, mapped) ← mapTables src pml4 roots.rsdt (roots.entries s.mem).toInt.toNat 0 s
  return ⟨roots, s, root :: mapped⟩

end Init

/-! ## What the lookups need -/

/-- The root table. -/
def Roots.root (g : Roots) : Word := if g.xsdt ≠ NULL then g.xsdt else g.rsdt

/-- The pages of the table headers that the lookups may dereference, and those of the entries of
the root table. -/
def Roots.neededPages (g : Roots) (m : Mem) : List Word :=
  (List.range (g.count m)).map (fun i => pageOf (g.tablePtr m i)) ++
    (List.range (g.entrySize * g.count m)).map fun k =>
      pageOf (g.root + SDT_HDR_SIZE + BitVec.ofNat 64 k)

/-- The addresses that `acpi_init` maps, if its page tables leave the arrays alone that it reads:
that of the root table, and the pages in the array behind `rsdt`. -/
def namedPages (m : Mem) (rsdp : Word) : List Word :=
  (designated m rsdp).root :: (List.range ((designated m rsdp).count m)).map fun i =>
    pageOf (rsdtPtr m (designated m rsdp).rsdt i)

/-- The page is mapped to itself. -/
def IdentityMapped (m : Mem) (pml4 page : Word) : Prop := pageWalk m pml4 page = some page

/-- One of the addresses is in the page, as far as the page tables distinguish pages. -/
def Names (mapped : List Word) (page : Word) : Prop :=
  ∃ v ∈ mapped, pageNumber page = pageNumber v

theorem names_cons (v page : Word) (mapped : List Word) :
    Names (v :: mapped) page ↔ pageNumber page = pageNumber v ∨ Names mapped page := by
  simp [Names]

theorem pageAligned_pageOf (p : Word) : PageAligned (pageOf p) := by
  unfold PageAligned pageOf
  rw [toNat_roundDown]
  omega

theorem pageAligned_of_needed {g : Roots} {m : Mem} {page : Word} (h : page ∈ g.neededPages m) :
    PageAligned page := by
  rcases List.mem_append.mp h with h | h
  · obtain ⟨i, -, rfl⟩ := List.mem_map.mp h
    exact pageAligned_pageOf _
  · obtain ⟨k, -, rfl⟩ := List.mem_map.mp h
    exact pageAligned_pageOf _

/-! ## What is mapped -/

/-- The first page that `acpi_init` maps is that of the root table. -/
theorem designated_root (m : Mem) (rsdp : Word) :
    (if 0 < rsdpRevision m rsdp then (designated m rsdp).xsdt else (designated m rsdp).rsdt) =
      (designated m rsdp).root := by
  unfold designated Roots.root
  split_ifs with hrev hnull hnull
  · rfl
  · exact not_not.mp hnull
  · exact absurd rfl hnull
  · rfl

section Spec

variable {σ : Type} {src : PageSource σ} {taken : σ → Set Word} {dirs : Set Word} {pml4 : Word}
  {s : Machine σ} {rsdp : Word}

theorem acpiInit_eq_some {r : Initialised σ} (h : acpiInit src pml4 rsdp s = some r) :
    ∃ s₁ rest, pagingMap src pml4 (designated s.mem rsdp).root (designated s.mem rsdp).root
        PAGE_NORMAL s = some s₁ ∧
      mapTables src pml4 (designated s.mem rsdp).rsdt ((designated s.mem rsdp).count s₁.mem) 0 s₁ =
        some (r.machine, rest) ∧
      r.roots = designated s.mem rsdp ∧ r.mapped = (designated s.mem rsdp).root :: rest := by
  simp only [acpiInit, designated_root, Roots.toNat_entries, Option.bind_eq_bind,
    Option.bind_eq_some_iff, Prod.exists] at h
  obtain ⟨s₁, hmap, s₂, rest, hrest, heq⟩ := h
  cases heq
  exact ⟨s₁, rest, hmap, hrest, rfl, rfl⟩

/-- What mapping addresses to themselves does to the walks. -/
def WalksAfter (pml4 : Word) (mapped : List Word) (m m' : Mem) : Prop :=
  ∀ x, (Names mapped x → pageWalk m' pml4 x = some (x &&& 0x000000fffffff000#64)) ∧
    (¬ Names mapped x → pageWalk m' pml4 x = pageWalk m pml4 x)

/-- One more mapping before the others. -/
theorem WalksAfter.cons {v : Word} {mapped : List Word} {m m₁ m' : Mem}
    (hfirst : ∀ x, pageWalk m₁ pml4 x =
      if pageNumber x = pageNumber v then some (v &&& 0x000000fffffff000#64)
      else pageWalk m pml4 x)
    (h : WalksAfter pml4 mapped m₁ m') : WalksAfter pml4 (v :: mapped) m m' := by
  intro x
  obtain ⟨hin, hout⟩ := h x
  rw [names_cons]
  by_cases hlater : Names mapped x
  · exact ⟨fun _ => hin hlater, fun hnot => absurd (Or.inr hlater) hnot⟩
  · rw [hout hlater, hfirst x]
    constructor
    · intro hnames
      have hpage := hnames.resolve_right hlater
      rw [if_pos hpage, frame_of_pageNumber hpage]
    · exact fun hnot => if_neg fun hpage => hnot (Or.inl hpage)

theorem pagingMap_self (hlaw : src.Lawful taken) (hdir : pml4 ∈ dirs) {s s' : Machine σ}
    {owner : Owner} (hT : Tables dirs s.mem (taken s.pmm) owner) {v : Word}
    (h : pagingMap src pml4 v v PAGE_NORMAL s = some s') :
    ∃ owner', Grows taken dirs s s' owner owner' ∧ ∀ x, pageWalk s'.mem pml4 x =
      if pageNumber x = pageNumber v then some (v &&& 0x000000fffffff000#64)
      else pageWalk s.mem pml4 x := by
  obtain ⟨owner', hgrows, hwalk⟩ :=
    pagingMap_spec hlaw hT hdir normal_flags.1 normal_flags.2 h
  refine ⟨owner', hgrows, fun x => ?_⟩
  rw [hwalk pml4 hdir x]
  simp only [true_and]

theorem mapTables_spec (hlaw : src.Lawful taken) (hdir : pml4 ∈ dirs) {rsdt : Word} :
    ∀ {left i : Nat} {s s' : Machine σ} {owner : Owner} {mapped : List Word},
      Tables dirs s.mem (taken s.pmm) owner →
      mapTables src pml4 rsdt left i s = some (s', mapped) →
      ∃ owner', Grows taken dirs s s' owner owner' ∧ WalksAfter pml4 mapped s.mem s'.mem := by
  intro left
  induction left with
  | zero =>
    intro i s s' owner mapped hT h
    cases h
    refine ⟨owner, Grows.refl hT, fun x => ⟨fun hnames => ?_, fun _ => rfl⟩⟩
    obtain ⟨v, hv, -⟩ := hnames
    exact absurd hv List.not_mem_nil
  | succ left ih =>
    intro i s s' owner mapped hT h
    simp only [mapTables, Option.bind_eq_bind, Option.bind_eq_some_iff, Prod.exists] at h
    obtain ⟨s₁, hmap, s₂, rest, hrest, heq⟩ := h
    cases heq
    obtain ⟨owner₁, hgrows, hwalk⟩ := pagingMap_self hlaw hdir hT hmap
    obtain ⟨owner', hgrows', hwalks⟩ := ih hgrows.tables hrest
    exact ⟨owner', hgrows.trans hgrows', hwalks.cons hwalk⟩

theorem acpiInit_spec (hlaw : src.Lawful taken) (hdir : pml4 ∈ dirs) {owner : Owner}
    (hT : Tables dirs s.mem (taken s.pmm) owner) {r : Initialised σ}
    (h : acpiInit src pml4 rsdp s = some r) :
    ∃ owner', Grows taken dirs s r.machine owner owner' ∧
      WalksAfter pml4 r.mapped s.mem r.machine.mem := by
  obtain ⟨s₁, rest, hmap, hrest, -, hmapped⟩ := acpiInit_eq_some h
  rw [hmapped]
  obtain ⟨owner₁, hgrows, hwalk⟩ := pagingMap_self hlaw hdir hT hmap
  obtain ⟨owner', hgrows', hwalks⟩ := mapTables_spec hlaw hdir hgrows.tables hrest
  exact ⟨owner', hgrows.trans hgrows', hwalks.cons hwalk⟩

/-- After `acpi_init` a page is mapped to itself exactly if the loop named it and an entry can hold
its address, or if the loop did not name it and it was mapped to itself before. -/
theorem WalksAfter.identityMapped_iff {mapped : List Word} {m m' : Mem}
    (h : WalksAfter pml4 mapped m m') {page : Word} (haligned : PageAligned page) :
    IdentityMapped m' pml4 page ↔
      (Names mapped page → page.toNat < 2 ^ 40) ∧
        (¬ Names mapped page → IdentityMapped m pml4 page) := by
  obtain ⟨hin, hout⟩ := h page
  unfold IdentityMapped
  by_cases hnames : Names mapped page
  · rw [hin hnames, Option.some.injEq, frame_eq_iff haligned]
    exact ⟨fun hlt => ⟨fun _ => hlt, fun hnot => absurd hnames hnot⟩, fun hboth => hboth.1 hnames⟩
  · rw [hout hnames]
    exact ⟨fun hm => ⟨fun hn => absurd hn hnames, fun _ => hm⟩, fun hboth => hboth.2 hnames⟩

end Spec

/-! ## A root table apart from the page tables -/

/-- The `n` bytes from `base` on are the same in both memories. -/
def SameAt (m m' : Mem) (base : Word) (n : Nat) : Prop :=
  ∀ k < n, m' (base + BitVec.ofNat 64 k) = m (base + BitVec.ofNat 64 k)

section Same

variable {m m' : Mem} {base : Word} {n : Nat}

theorem SameAt.read (h : SameAt m m' base n) {o len : Nat} (ho : o + len ≤ n) :
    m'.read len (base + BitVec.ofNat 64 o) = m.read len (base + BitVec.ofNat 64 o) := by
  refine Mem.read_congr fun k hk => ?_
  rw [add_assoc, ← BitVec.ofNat_add]
  exact h (o + k) (by omega)

theorem SameAt.hdrLen (h : SameAt m m' base n) (hn : 8 ≤ n) :
    Acpi.hdrLen m' base = Acpi.hdrLen m base :=
  @SameAt.read m m' base n h 4 4 hn

/-- An entry of `len` bytes behind the header. -/
theorem SameAt.entry (h : SameAt m m' base n) {len o : Nat} (hn : 36 + (o + len) ≤ n) :
    m'.read len (base + SDT_HDR_SIZE + BitVec.ofNat 64 o) =
      m.read len (base + SDT_HDR_SIZE + BitVec.ofNat 64 o) := by
  have haddr : base + SDT_HDR_SIZE + BitVec.ofNat 64 o = base + BitVec.ofNat 64 (36 + o) := by
    rw [BitVec.ofNat_add, ← add_assoc]
    rfl
  rw [haddr, h.read (by omega)]

theorem SameAt.rsdtPtr (h : SameAt m m' base n) {i : Nat} (hn : 36 + 4 * (i + 1) ≤ n) :
    Acpi.rsdtPtr m' base i = Acpi.rsdtPtr m base i := by
  rw [Acpi.rsdtPtr, Acpi.rsdtPtr, h.entry (by omega)]

theorem SameAt.xsdtPtr (h : SameAt m m' base n) {i : Nat} (hn : 36 + 8 * (i + 1) ≤ n) :
    Acpi.xsdtPtr m' base i = Acpi.xsdtPtr m base i :=
  h.entry (by omega)

end Same

/-- The size of the header and the entries of the root table. -/
def Roots.bytes (g : Roots) (m : Mem) : Nat := 36 + g.entrySize * g.count m

theorem Roots.count_congr {g : Roots} {m m' : Mem} (h : SameAt m m' g.root (g.bytes m)) :
    g.count m' = g.count m := by
  have hlen := h.hdrLen (show 8 ≤ g.bytes m by unfold Roots.bytes; omega)
  unfold Roots.root at hlen
  unfold Roots.count Roots.length
  split_ifs at hlen ⊢ <;> rw [hlen]

theorem Roots.tablePtr_congr {g : Roots} {m m' : Mem} (h : SameAt m m' g.root (g.bytes m)) {i : Nat}
    (hi : i < g.count m) : g.tablePtr m' i = g.tablePtr m i := by
  unfold Roots.tablePtr
  unfold Roots.root Roots.bytes Roots.entrySize at h
  split_ifs at h ⊢
  · exact h.xsdtPtr (by omega)
  · exact h.rsdtPtr (by omega)

/-- What the lookups need depends on the header and the entries of the root table only. -/
theorem Roots.neededPages_congr {g : Roots} {m m' : Mem}
    (h : SameAt m m' g.root (g.bytes m)) : g.neededPages m' = g.neededPages m := by
  unfold Roots.neededPages
  rw [Roots.count_congr h]
  congr 1
  refine List.map_congr_left fun i hi => ?_
  rw [Roots.tablePtr_congr h (List.mem_range.mp hi)]

section Runs

variable {σ : Type} {src : PageSource σ} {taken : σ → Set Word} {dirs : Set Word} {pml4 : Word}
  {s : Machine σ} {owner : Owner} {rsdp : Word}

theorem mapTables_progress {rsdt : Word} {rest : Nat} :
    ∀ {left i : Nat} {s : Machine σ}, src.Supplies (3 * left + rest) s.pmm →
      ∃ s' mapped, mapTables src pml4 rsdt left i s = some (s', mapped) ∧
        src.Supplies rest s'.pmm := by
  intro left
  induction left with
  | zero =>
    intro i s hpages
    rw [Nat.mul_zero, Nat.zero_add] at hpages
    exact ⟨s, [], rfl, hpages⟩
  | succ left ih =>
    intro i s hpages
    have hsplit : 3 * (left + 1) + rest = 3 * left + rest + 3 := by omega
    rw [hsplit] at hpages
    obtain ⟨s₁, hmap, hpages₁⟩ := pagingMap_progress hpages pml4
      (pageOf (rsdtPtr s.mem rsdt i)) (pageOf (rsdtPtr s.mem rsdt i)) PAGE_NORMAL
    obtain ⟨s', mapped, hrest, hpages'⟩ := @ih (i + 1) s₁ hpages₁
    refine ⟨s', pageOf (rsdtPtr s.mem rsdt i) :: mapped, ?_, hpages'⟩
    simp only [mapTables, hmap, hrest, Option.bind_eq_bind, Option.bind_some]
    rfl

/-- With pages for all the tables that may be needed, `acpi_init` comes to the end of the loop. -/
theorem acpiInit_progress (hlaw : src.Lawful taken) (hdir : pml4 ∈ dirs)
    (hT : Tables dirs s.mem (taken s.pmm) owner)
    (hapart : Apart (designated s.mem rsdp).root ((designated s.mem rsdp).bytes s.mem)
      (taken s.pmm) owner)
    (hpages : src.Supplies (3 * (designated s.mem rsdp).count s.mem + 3) s.pmm) :
    ∃ r, acpiInit src pml4 rsdp s = some r := by
  obtain ⟨s₁, hmap, hpages₁⟩ := pagingMap_progress hpages pml4 (designated s.mem rsdp).root
    (designated s.mem rsdp).root PAGE_NORMAL
  obtain ⟨owner₁, hgrows, -⟩ := pagingMap_self hlaw hdir hT hmap
  have hcount := Roots.count_congr (hgrows.apart hapart).2
  rw [← hcount] at hpages₁
  obtain ⟨s', rest, hrest, -⟩ :=
    @mapTables_progress σ src pml4 (designated s.mem rsdp).rsdt 0 _ 0 s₁ hpages₁
  refine ⟨⟨designated s.mem rsdp, s', (designated s.mem rsdp).root :: rest⟩, ?_⟩
  simp only [acpiInit, designated_root, Roots.toNat_entries, hmap, hrest, Option.bind_eq_bind,
    Option.bind_some]
  rfl

/-- Where the array that it reads is apart from the page tables, the loop maps the pages of the
pointers that were there when it began. -/
theorem mapTables_mapped (hlaw : src.Lawful taken) (hdir : pml4 ∈ dirs) {rsdt : Word} {n : Nat} :
    ∀ {left i : Nat} {s s' : Machine σ} {owner : Owner} {mapped : List Word},
      Tables dirs s.mem (taken s.pmm) owner → Apart rsdt n (taken s.pmm) owner →
      36 + 4 * (i + left) ≤ n → mapTables src pml4 rsdt left i s = some (s', mapped) →
      mapped = (List.range' i left).map fun j => pageOf (rsdtPtr s.mem rsdt j) := by
  intro left
  induction left with
  | zero =>
    intro i s s' owner mapped _ _ _ h
    exact (Prod.mk.inj (Option.some.inj h)).2.symm
  | succ left ih =>
    intro i s s' owner mapped hT hapart hn h
    simp only [mapTables, Option.bind_eq_bind, Option.bind_eq_some_iff, Prod.exists] at h
    obtain ⟨s₁, hmap, s₂, rest, hrest, heq⟩ := h
    cases heq
    obtain ⟨owner₁, hgrows, -⟩ := pagingMap_self hlaw hdir hT hmap
    obtain ⟨hapart₁, hsame⟩ := hgrows.apart hapart
    rw [ih hgrows.tables hapart₁ (by omega) hrest, List.range'_succ, List.map_cons]
    congr 1
    refine List.map_congr_left fun j hj => ?_
    rw [List.mem_range'_1] at hj
    rw [SameAt.rsdtPtr hsame (by omega)]

/-- The root table and the array that the loop reads lie in pages that are in use and are not
page tables.  With an XSDT the array is the memory behind the null pointer. -/
structure TablesApart (g : Roots) (m : Mem) (used : Set Word) (owner : Owner) : Prop where
  root : Apart g.root (g.bytes m) used owner
  array : Apart g.rsdt (36 + 4 * g.count m) used owner

/-- With an RSDT the array is that of the root table. -/
theorem TablesApart.of_rsdt {g : Roots} {m : Mem} {used : Set Word} (hnull : g.xsdt = NULL)
    (h : Apart g.root (g.bytes m) used owner) : TablesApart g m used owner := by
  refine ⟨h, ?_⟩
  have hroot : g.root = g.rsdt := if_neg (not_not.mpr hnull)
  have hsize : g.bytes m = 36 + 4 * g.count m := by
    rw [Roots.bytes, Roots.entrySize, if_neg (not_not.mpr hnull)]
  rwa [hroot, hsize] at h

section Apart

variable (hlaw : src.Lawful taken) (hdir : pml4 ∈ dirs) (hT : Tables dirs s.mem (taken s.pmm) owner)
  {r : Initialised σ} (h : acpiInit src pml4 rsdp s = some r)
include hlaw hdir hT h

theorem acpiInit_mapped
    (hapart : TablesApart (designated s.mem rsdp) s.mem (taken s.pmm) owner) :
    r.mapped = namedPages s.mem rsdp := by
  obtain ⟨s₁, rest, hmap, hrest, -, hmapped⟩ := acpiInit_eq_some h
  obtain ⟨owner₁, hgrows, -⟩ := pagingMap_self hlaw hdir hT hmap
  obtain ⟨harray, hsame⟩ := hgrows.apart hapart.array
  rw [Roots.count_congr (hgrows.apart hapart.root).2] at hrest
  rw [hmapped, mapTables_mapped hlaw hdir hgrows.tables harray (by omega) hrest, namedPages,
    List.range_eq_range']
  congr 1
  refine List.map_congr_left fun i hi => ?_
  rw [List.mem_range'_1] at hi
  rw [SameAt.rsdtPtr hsame (by omega)]

/-- With an RSDT the header of every table is mapped: the pointers have 32 bits, and the loop reads
the array that the lookups read. -/
theorem rsdt_headers_mapped (hrevision : rsdpRevision s.mem rsdp = 0)
    (hapart : Apart (designated s.mem rsdp).root ((designated s.mem rsdp).bytes s.mem)
      (taken s.pmm) owner)
    {i : Nat} (hi : i < (designated s.mem rsdp).count s.mem) :
    IdentityMapped r.machine.mem pml4 (pageOf ((designated s.mem rsdp).tablePtr s.mem i)) := by
  obtain ⟨owner', -, hwalks⟩ := acpiInit_spec hlaw hdir hT h
  have hnull : (designated s.mem rsdp).xsdt = NULL := by
    rw [designated, hrevision, if_neg (by decide)]
  have hptr : (designated s.mem rsdp).tablePtr s.mem i =
      rsdtPtr s.mem (designated s.mem rsdp).rsdt i := if_neg (not_not.mpr hnull)
  rw [acpiInit_mapped hlaw hdir hT h (.of_rsdt hnull hapart)] at hwalks
  rw [hptr]
  refine (hwalks.identityMapped_iff (pageAligned_pageOf _)).mpr
    ⟨fun _ => ?_, fun hnot => absurd ?_ hnot⟩
  · have hlt : (rsdtPtr s.mem (designated s.mem rsdp).rsdt i).toNat < 2 ^ 32 := by
      rw [rsdtPtr, BitVec.toNat_setWidth]
      have := (s.mem.read 4
        ((designated s.mem rsdp).rsdt + SDT_HDR_SIZE + BitVec.ofNat 64 (4 * i))).isLt
      omega
    rw [pageOf, toNat_roundDown]
    omega
  · exact ⟨_, List.mem_cons_of_mem _ (List.mem_map_of_mem (List.mem_range.mpr hi)), rfl⟩

/-- Everything that the lookups need is mapped to itself exactly if each page of it is named by the
mapping loop and below the 40 bits of an entry, or is not named and was mapped to itself before. -/
theorem needed_pages_mapped_iff
    (hapart : TablesApart (designated s.mem rsdp) s.mem (taken s.pmm) owner) :
    (∀ page ∈ r.roots.neededPages r.machine.mem, IdentityMapped r.machine.mem pml4 page) ↔
      ∀ page ∈ (designated s.mem rsdp).neededPages s.mem,
        (Names (namedPages s.mem rsdp) page → page.toNat < 2 ^ 40) ∧
          (¬ Names (namedPages s.mem rsdp) page → IdentityMapped s.mem pml4 page) := by
  obtain ⟨owner', hgrows, hwalks⟩ := acpiInit_spec hlaw hdir hT h
  obtain ⟨-, -, -, -, hroots, -⟩ := acpiInit_eq_some h
  rw [acpiInit_mapped hlaw hdir hT h hapart] at hwalks
  rw [hroots, Roots.neededPages_congr (hgrows.apart hapart.root).2]
  exact forall₂_congr fun page hpage =>
    hwalks.identityMapped_iff (pageAligned_of_needed hpage)

end Apart

end Runs

/-! ## Two machines -/

/-- An RSDP at 0x4000 whose two root pointers are 0x5000, and there a root table of `len` bytes
whose first entry is `entry * 0x100`. -/
def firmwareMem (revision len entry : Byte) : Mem := fun x =>
  if x = 0x400f then revision
  else if x = 0x4011 ∨ x = 0x4019 then 0x50
  else if x = 0x5004 then len
  else if x = 0x5025 then entry
  else 0

def firmwarePool : PagePool :=
  ⟨[0x200000, 0x201000, 0x202000, 0x203000, 0x204000, 0x205000], by decide,
    by simp [FrameAddress, PageAligned]⟩

/-- The directory page at 0x1000 is zero, and no other page outside the pool is a table. -/
theorem firmwareMem_tables (revision len entry : Byte) :
    (∀ x, InPage 0x1000 x → firmwareMem revision len entry x = 0) ∧
    ∃ owner, Tables {0x1000} (firmwareMem revision len entry) firmwarePool.taken owner ∧
      ∀ p : Word, PageAligned p → p ≠ 0x1000 → p ∉ firmwarePool.pages → ∀ n ≤ 0x1000,
        Apart p n firmwarePool.taken owner := by
  classical
  have hzero : ∀ x, InPage 0x1000 x → firmwareMem revision len entry x = 0 := by
    intro x hx
    have hne : ∀ a : Word, ¬ InPage 0x1000 a → x ≠ a := by
      rintro a ha rfl
      exact ha hx
    rw [firmwareMem, if_neg (hne _ (by decide)),
      if_neg (not_or.mpr ⟨hne _ (by decide), hne _ (by decide)⟩), if_neg (hne _ (by decide)),
      if_neg (hne _ (by decide))]
  refine ⟨hzero, _, Tables.of_zero (by simp [PageAligned])
    (by simp [PagePool.taken, firmwarePool]) ?_, ?_⟩
  · intro d hd
    rw [Set.mem_singleton_iff.mp hd]
    exact hzero
  · intro p haligned hne hfree n hn k hk
    refine ⟨p, hfree, haligned, if_neg (by simpa using hne), ?_⟩
    unfold InPage
    rw [toNat_offset p (by omega)]
    omega

/-- Revision 0: one table, in the page of the RSDT. -/
def rsdtFirmware : Machine PagePool := ⟨firmwareMem 0 40 0x51, firmwarePool⟩

/-- Revision 2: one table, at 0x9000. -/
def xsdtFirmware : Machine PagePool := ⟨firmwareMem 2 44 0x90, firmwarePool⟩

/-- With one entry in its root table, `acpi_init` comes to the end of the loop on such a machine. -/
theorem firmware_returns {revision len entry : Byte} {owner : Owner} {g : Roots}
    (hT : Tables {0x1000} (firmwareMem revision len entry) firmwarePool.taken owner)
    (hg : g = designated (firmwareMem revision len entry) 0x4000)
    (hapart : Apart g.root (g.bytes (firmwareMem revision len entry)) firmwarePool.taken owner)
    (hcount : g.count (firmwareMem revision len entry) = 1) :
    ∃ r, acpiInit poolSource 0x1000 0x4000 ⟨firmwareMem revision len entry, firmwarePool⟩ =
      some r := by
  subst hg
  refine acpiInit_progress (s := ⟨firmwareMem revision len entry, firmwarePool⟩) poolSource_lawful
    (Set.mem_singleton _) hT hapart ?_
  rw [hcount]
  exact poolSource_supplies _ firmwarePool (by decide)

theorem rsdtFirmware_mapped :
    ∃ r, acpiInit poolSource 0x1000 0x4000 rsdtFirmware = some r ∧
      ∀ page ∈ r.roots.neededPages r.machine.mem, IdentityMapped r.machine.mem 0x1000 page := by
  obtain ⟨-, owner, hT, hpages⟩ := firmwareMem_tables 0 40 0x51
  have hg : designated rsdtFirmware.mem 0x4000 = ⟨0x5000, NULL⟩ := by decide +kernel
  have hapart : Apart (Roots.root ⟨0x5000, NULL⟩) (Roots.bytes ⟨0x5000, NULL⟩ rsdtFirmware.mem)
      firmwarePool.taken owner := by
    rw [show Roots.bytes ⟨0x5000, NULL⟩ rsdtFirmware.mem = 40 by decide +kernel]
    exact hpages 0x5000 (by decide) (by decide) (by decide) _ (by decide)
  obtain ⟨r, h⟩ := firmware_returns hT hg.symm hapart (by decide +kernel)
  have hneeded : Roots.neededPages ⟨0x5000, NULL⟩ rsdtFirmware.mem = List.replicate 5 0x5000 := by
    decide +kernel
  refine ⟨r, h, (needed_pages_mapped_iff poolSource_lawful (Set.mem_singleton _) hT h ?_).mpr ?_⟩
  · exact hg ▸ .of_rsdt rfl hapart
  · change ∀ page ∈ (designated rsdtFirmware.mem 0x4000).neededPages rsdtFirmware.mem, _
    rw [hg, hneeded]
    intro page hpage
    obtain rfl := List.eq_of_mem_replicate hpage
    refine ⟨fun _ => by decide, fun hnot => absurd ((names_cons ..).mpr (Or.inl ?_)) hnot⟩
    change pageNumber 0x5000 = pageNumber (designated rsdtFirmware.mem 0x4000).root
    rw [hg]
    decide

/-- The loop maps the page of the pointer at 36, and the header at 0x9000 stays unmapped. -/
theorem xsdtFirmware_unmapped :
    ∃ r, acpiInit poolSource 0x1000 0x4000 xsdtFirmware = some r ∧
      0x9000 ∈ r.roots.neededPages r.machine.mem ∧
      ¬ IdentityMapped r.machine.mem 0x1000 0x9000 := by
  obtain ⟨hzero, owner, hT, hpages⟩ := firmwareMem_tables 2 44 0x90
  have hg : designated xsdtFirmware.mem 0x4000 = ⟨NULL, 0x5000⟩ := by decide +kernel
  have hapart : Apart (Roots.root ⟨NULL, 0x5000⟩) (Roots.bytes ⟨NULL, 0x5000⟩ xsdtFirmware.mem)
      firmwarePool.taken owner := by
    rw [show Roots.bytes ⟨NULL, 0x5000⟩ xsdtFirmware.mem = 44 by decide +kernel]
    exact hpages 0x5000 (by decide) (by decide) (by decide) _ (by decide)
  have hlow : Apart NULL (36 + 4 * Roots.count ⟨NULL, 0x5000⟩ xsdtFirmware.mem)
      firmwarePool.taken owner := by
    rw [show Roots.count ⟨NULL, 0x5000⟩ xsdtFirmware.mem = 1 by decide +kernel]
    exact hpages 0 (by decide) (by decide) (by decide) _ (by decide)
  obtain ⟨r, h⟩ := firmware_returns hT hg.symm hapart (by decide +kernel)
  obtain ⟨owner', hgrows, hwalks⟩ := acpiInit_spec poolSource_lawful (Set.mem_singleton _) hT h
  obtain ⟨-, -, -, -, hroots, -⟩ := acpiInit_eq_some h
  change r.roots = designated xsdtFirmware.mem 0x4000 at hroots
  refine ⟨r, h, ?_, fun hid => ?_⟩
  · rw [hroots, hg, Roots.neededPages_congr (hgrows.apart hapart).2]
    decide +kernel
  · have hnamed : namedPages xsdtFirmware.mem 0x4000 = [0x5000, 0] := by decide +kernel
    have hmapped : r.mapped = [0x5000, 0] :=
      (acpiInit_mapped poolSource_lawful (Set.mem_singleton _) hT h (hg ▸ ⟨hapart, hlow⟩)).trans
        hnamed
    have hnames : ¬ Names [0x5000, 0] 0x9000 := by
      rintro ⟨v, hv, hnumber⟩
      simp only [List.mem_cons, List.not_mem_nil, or_false] at hv
      rcases hv with rfl | rfl <;> cases hnumber
    rw [hmapped] at hwalks
    have hwalk := ((hwalks.identityMapped_iff (by decide)).mp hid).2 hnames
    exact absurd (hwalk.symm.trans (pageWalk_of_zero hzero 0x9000)) (Option.some_ne_none _)

end ChronOS.Acpi
