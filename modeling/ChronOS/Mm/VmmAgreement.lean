/-
  Mm/VmmAgreement.lean --- the bitmap and the page tables of a process agree.

  Every iteration of `mmap` sets one bit and maps one page, every iteration of
  `munmap` clears one bit and unmaps one page.  They keep the two structures in
  step as long as bit and page belong to the same index; `Safe` says for which
  arguments that is so.  The argument is carried out for one iteration and lifted
  to the loops and to runs of system calls.
-/
import ChronOS.Mm.Vmm

set_option autoImplicit false

namespace ChronOS.Mm

open ChronOS.Foundation ChronOS.Ds ChronOS.Utils

/-- The `i`-th page of the window. -/
def windowPage (i : Nat) : Word := VMM_ADDR_START + BitVec.ofNat 64 (0x1000 * i)

/-- Bit `i` of the bitmap is set exactly when page `i` of the window is present. -/
def Agrees (proc : AddressSpace) (m : Mem) : Prop :=
  ∀ i < VMM_SIZE_PAGES,
    bitAt m proc.bitmap.bitmap i = true ↔ (pageWalk m proc.pml4 (windowPage i)).isSome = true

/-- The bytes of the bitmap lie in pages that are in use and are not tables.  These are the 64 KiB
of the declared size; the constructors allocate the first 4 KiB of them only. -/
def Stored (b : Bitmap) (used : Set Word) (owner : Owner) : Prop :=
  Apart b.bitmap (VMM_SIZE_PAGES / 8) used owner

/-- The size the constructors write is the size of the window. -/
theorem limit_of_size {b : Bitmap} (hsize : b.size = BitVec.ofNat 64 (VMM_SIZE_PAGES / 8)) :
    b.limit = VMM_SIZE_PAGES := by
  rw [Bitmap.limit, hsize]
  rfl

/-! ## Addresses of the window -/

theorem toNat_pageNumber (v : Word) : (pageNumber v).toNat = v.toNat / 2 ^ 12 % 2 ^ 36 := by
  simp only [pageNumber, BitVec.toNat_setWidth, BitVec.toNat_ushiftRight,
    Nat.shiftRight_eq_div_pow]

theorem toNat_windowPage {i : Nat} (hi : i < VMM_SIZE_PAGES) :
    (windowPage i).toNat = 0xFFFFFFFF00000000 + 0x1000 * i := by
  unfold VMM_SIZE_PAGES at hi
  simp only [windowPage, VMM_ADDR_START, BitVec.toNat_add, BitVec.toNat_ofNat]
  omega

theorem windowPage_injective {i j : Nat} (hi : i < VMM_SIZE_PAGES) (hj : j < VMM_SIZE_PAGES) :
    pageNumber (windowPage i) = pageNumber (windowPage j) ↔ i = j := by
  rw [BitVec.toNat_eq, toNat_pageNumber, toNat_pageNumber, toNat_windowPage hi,
    toNat_windowPage hj]
  unfold VMM_SIZE_PAGES at hi hj
  omega

/-- Index `j` of the bitmap and the address `v` name the same page of the window. -/
def Matches (j : BitVec 32) (v : Word) : Prop :=
  j.toNat < VMM_SIZE_PAGES ∧ pageNumber v = pageNumber (windowPage j.toNat)

/-- The index `i` is one of the `n` from `idx` on. -/
def InIndices (idx : BitVec 32) (n i : Nat) : Prop := ∃ k < n, (idx + BitVec.ofNat 32 k).toNat = i

/-- The page of `v` is one of the `n` pages from `addr` on. -/
def InPages (addr : Word) (n : Nat) (v : Word) : Prop :=
  ∃ i < n, pageNumber v = pageNumber (pageAddress addr (BitVec.ofNat 32 i))

/-- The bytes that `bitmap_set` stores to for the `n` indices from `idx` on lie in no table. -/
def BitsApart (b : Bitmap) (owner : Owner) (idx : BitVec 32) (n : Nat) : Prop :=
  ∀ k < n, (idx + BitVec.ofNat 32 k).toNat ≤ b.limit →
    ∀ t, owner t ≠ none → ¬ InPage t (byteAddress b (idx + BitVec.ofNat 32 k))

/-! ## One iteration -/

section Steps

variable {σ : Type} {src : PageSource σ} {taken : σ → Set Word} {dirs : Set Word}
  {proc : AddressSpace}

/-- The invariant of a process: well-formed tables, a bitmap outside of them, and
agreement of the two. -/
structure Consistent (taken : σ → Set Word) (dirs : Set Word) (proc : AddressSpace)
    (s : Machine σ) : Prop where
  tables : ∃ owner, Tables dirs s.mem (taken s.pmm) owner ∧
    Stored proc.bitmap (taken s.pmm) owner
  agrees : Agrees proc s.mem

theorem bitAt_congr {m m' : Mem} {base : Word}
    (h : ∀ k < VMM_SIZE_PAGES / 8, m' (base + BitVec.ofNat 64 k) = m (base + BitVec.ofNat 64 k))
    {i : Nat} (hi : i < VMM_SIZE_PAGES) : bitAt m' base i = bitAt m base i := by
  unfold VMM_SIZE_PAGES at *
  unfold bitAt
  rw [h (i / 8) (by omega)]

/-- The byte of a bit of the bitmap lies in no table. -/
theorem Stored.not_inPage_bit {m : Mem} {used : Set Word} {owner : Owner}
    (h : Stored proc.bitmap used owner) (hT : Tables dirs m used owner) {j : BitVec 32}
    (hj : j.toNat < VMM_SIZE_PAGES) :
    ∀ t, owner t ≠ none → ¬ InPage t (byteAddress proc.bitmap j) := by
  intro t ht
  rw [byteAddress_eq]
  exact h.not_inPage hT (by unfold VMM_SIZE_PAGES at *; omega) ht

/-- `bitmap_set` accepts one index more. -/
theorem Stored.bitsApart {m : Mem} {used : Set Word} {owner : Owner}
    (h : Stored proc.bitmap used owner) (hT : Tables dirs m used owner)
    (hlimit : proc.bitmap.limit = VMM_SIZE_PAGES) {idx : BitVec 32} {n : Nat}
    (hbehind : ¬ InIndices idx n VMM_SIZE_PAGES) : BitsApart proc.bitmap owner idx n := by
  intro k hk haccept
  have hne : (idx + BitVec.ofNat 32 k).toNat ≠ VMM_SIZE_PAGES := fun heq => hbehind ⟨k, hk, heq⟩
  exact h.not_inPage_bit hT (by omega)

/-- A store to the bitmap that hits no table keeps the tables. -/
theorem bitmapSet_tables {used : Set Word} {owner : Owner} {m : Mem}
    (hT : Tables dirs m used owner) {j : BitVec 32}
    (hj : j.toNat ≤ proc.bitmap.limit →
      ∀ t, owner t ≠ none → ¬ InPage t (byteAddress proc.bitmap j)) (value : Byte) :
    Tables dirs (bitmapSet m proc.bitmap j value).2 used owner ∧
      ∀ r ∈ dirs, ∀ v, pageWalk (bitmapSet m proc.bitmap j value).2 r v = pageWalk m r v := by
  by_cases haccept : j.toNat ≤ proc.bitmap.limit
  · refine hT.congr fun t ht x hx => ?_
    rw [bitmapSet_accepted m proc.bitmap j value haccept]
    apply Mem.set_of_ne
    rintro rfl
    exact hj haccept t ht hx
  · rw [bitmapSet_rejected m proc.bitmap j value (by omega)]
    exact ⟨hT, fun _ _ _ => rfl⟩

theorem mapPage_spec (hlaw : src.Lawful taken) (hproc : proc.pml4 ∈ dirs)
    (hlimit : proc.bitmap.limit = VMM_SIZE_PAGES) {s s' : Machine σ} {owner : Owner}
    (hT : Tables dirs s.mem (taken s.pmm) owner) (hstored : Stored proc.bitmap (taken s.pmm) owner)
    {virtaddr physAddr flags : Word} {idx i : BitVec 32} (hpresent : Present flags)
    (hflags : NoAddressBits flags) (hj : (idx + i).toNat < VMM_SIZE_PAGES)
    (h : mapPage src proc virtaddr physAddr flags idx i s = some s') :
    (∃ owner', Tables dirs s'.mem (taken s'.pmm) owner' ∧
      Stored proc.bitmap (taken s'.pmm) owner') ∧
    (∀ n < VMM_SIZE_PAGES, bitAt s'.mem proc.bitmap.bitmap n =
      if n = (idx + i).toNat then true else bitAt s.mem proc.bitmap.bitmap n) ∧
    ∀ x, pageWalk s'.mem proc.pml4 x =
      if pageNumber x = pageNumber (pageAddress virtaddr i) then
        some (pageAddress physAddr i &&& 0x000000fffffff000#64)
      else pageWalk s.mem proc.pml4 x := by
  obtain ⟨hT₁, hwalk₁⟩ := bitmapSet_tables hT (fun _ => hstored.not_inPage_bit hT hj) 1
  obtain ⟨owner', hgrows, hwalk⟩ := pagingMap_spec hlaw hT₁ hproc hpresent hflags h
  obtain ⟨hstored', hbytes⟩ := hgrows.apart hstored
  refine ⟨⟨owner', hgrows.tables, hstored'⟩, fun n hn => ?_, fun x => ?_⟩
  · rw [bitAt_congr hbytes hn, bitAt_bitmapSet _ _ _ _ (by omega) n
      (by unfold VMM_SIZE_PAGES at hn; omega)]
    rfl
  · rw [hwalk _ hproc, hwalk₁ _ hproc]
    simp only [true_and]

/-- One iteration of `munmap` clears one bit, unless the index is rejected. -/
theorem unmapPage_bits (hproc : proc.pml4 ∈ dirs) (hlimit : proc.bitmap.limit = VMM_SIZE_PAGES)
    {m : Mem} {used : Set Word} {owner : Owner} (hT : Tables dirs m used owner)
    (hstored : Stored proc.bitmap used owner) {addr : Word} {idx i : BitVec 32}
    (hapart : (idx + i).toNat ≤ proc.bitmap.limit →
      ∀ t, owner t ≠ none → ¬ InPage t (byteAddress proc.bitmap (idx + i)))
    {n : Nat} (hn : n < VMM_SIZE_PAGES) :
    bitAt (unmapPage proc addr idx i m) proc.bitmap.bitmap n =
      if n = (idx + i).toNat then false else bitAt m proc.bitmap.bitmap n := by
  obtain ⟨hT₁, -⟩ := bitmapSet_tables hT hapart 0
  obtain ⟨-, houtside, -⟩ := pagingUnmap_spec hT₁ hproc (pageAddress addr i)
  have hbytes : bitAt (unmapPage proc addr idx i m) proc.bitmap.bitmap n =
      bitAt (bitmapSet m proc.bitmap (idx + i) 0).2 proc.bitmap.bitmap n := by
    refine bitAt_congr (fun k hk => ?_) hn
    obtain ⟨p, -, haligned, hnone, hin⟩ := hstored k hk
    exact houtside p haligned hnone _ hin
  rw [hbytes]
  by_cases haccept : (idx + i).toNat ≤ proc.bitmap.limit
  · rw [bitAt_bitmapSet _ _ _ _ haccept n (by unfold VMM_SIZE_PAGES at hn; omega)]
    rfl
  · rw [bitmapSet_rejected _ _ _ _ (by omega), if_neg (by omega)]

/-- Setting the bit of a window page and mapping that page. -/
theorem Consistent.mapPage (hlaw : src.Lawful taken) (hproc : proc.pml4 ∈ dirs)
    (hlimit : proc.bitmap.limit = VMM_SIZE_PAGES) {s s' : Machine σ}
    (hc : Consistent taken dirs proc s) {virtaddr physAddr flags : Word} {idx i : BitVec 32}
    (hpresent : Present flags) (hflags : NoAddressBits flags)
    (hmatch : Matches (idx + i) (pageAddress virtaddr i))
    (h : mapPage src proc virtaddr physAddr flags idx i s = some s') :
    Consistent taken dirs proc s' := by
  obtain ⟨owner, hT, hstored⟩ := hc.tables
  obtain ⟨hj, hpage⟩ := hmatch
  obtain ⟨htables, hbits, hwalk⟩ :=
    mapPage_spec hlaw hproc hlimit hT hstored hpresent hflags hj h
  refine ⟨htables, fun n hn => ?_⟩
  have hhit := windowPage_injective hn hj
  rw [← hpage] at hhit
  rw [hbits n hn, hwalk]
  by_cases hnj : n = (idx + i).toNat
  · rw [if_pos hnj, if_pos (hhit.mpr hnj)]
    simp
  · rw [if_neg hnj, if_neg fun h => hnj (hhit.mp h)]
    exact hc.agrees n hn

/-! ## The loops -/

theorem Consistent.mapPages (hlaw : src.Lawful taken) (hproc : proc.pml4 ∈ dirs)
    (hlimit : proc.bitmap.limit = VMM_SIZE_PAGES) {virtaddr physAddr flags : Word}
    {idx : BitVec 32} (hpresent : Present flags) (hflags : NoAddressBits flags) :
    ∀ (n : Nat) {s s' : Machine σ}, Consistent taken dirs proc s →
      (∀ k < n, Matches (idx + BitVec.ofNat 32 k) (pageAddress virtaddr (BitVec.ofNat 32 k))) →
      mapPages src proc virtaddr physAddr flags idx n s = some s' →
      Consistent taken dirs proc s' := by
  intro n
  induction n with
  | zero =>
    intro s s' hc _ h
    cases h
    exact hc
  | succ n ih =>
    intro s s' hc hmatch h
    simp only [Mm.mapPages, Option.bind_eq_bind, Option.bind_eq_some_iff] at h
    obtain ⟨s₁, hloop, hlast⟩ := h
    have hc₁ := ih hc (fun k hk => hmatch k (by omega)) hloop
    exact hc₁.mapPage hlaw hproc hlimit hpresent hflags (hmatch n (by omega)) hlast

/-- The loop of `munmap` removes the translations of the pages from `addr` on, wherever they are,
and no other translation. -/
theorem unmapPages_walk (hproc : proc.pml4 ∈ dirs) {used : Set Word} {owner : Owner} {m : Mem}
    (hT : Tables dirs m used owner) (addr : Word) {idx : BitVec 32} :
    ∀ n : Nat, BitsApart proc.bitmap owner idx n →
      Tables dirs (unmapPages proc addr idx n m) used owner ∧
      ∀ v, (InPages addr n v → pageWalk (unmapPages proc addr idx n m) proc.pml4 v = none) ∧
        (¬ InPages addr n v →
          pageWalk (unmapPages proc addr idx n m) proc.pml4 v = pageWalk m proc.pml4 v) := by
  intro n
  induction n with
  | zero =>
    intro _
    refine ⟨hT, fun v => ⟨?_, fun _ => rfl⟩⟩
    rintro ⟨i, hi, -⟩
    omega
  | succ n ih =>
    intro hbits
    obtain ⟨hT₁, hwalk₁⟩ := ih fun k hk => hbits k (by omega)
    obtain ⟨hT₂, hwalk₂⟩ := bitmapSet_tables hT₁ (hbits n (Nat.lt_succ_self n)) 0
    obtain ⟨hT₃, -, hwalk₃⟩ := pagingUnmap_spec hT₂ hproc (pageAddress addr (BitVec.ofNat 32 n))
    refine ⟨hT₃, fun v => ⟨?_, fun hv => ?_⟩⟩
    · rintro ⟨i, hi, heq⟩
      rw [unmapPages, unmapPage, hwalk₃ _ hproc, hwalk₂ _ hproc]
      by_cases hlast : pageNumber v = pageNumber (pageAddress addr (BitVec.ofNat 32 n))
      · rw [if_pos ⟨rfl, hlast⟩]
      · rw [if_neg fun h => hlast h.2]
        have hne : i ≠ n := fun h => hlast (h ▸ heq)
        exact (hwalk₁ v).1 ⟨i, by omega, heq⟩
    · rw [unmapPages, unmapPage, hwalk₃ _ hproc, hwalk₂ _ hproc,
        if_neg fun h => hv ⟨n, Nat.lt_succ_self n, h.2⟩]
      apply (hwalk₁ v).2
      rintro ⟨i, hi, heq⟩
      exact hv ⟨i, by omega, heq⟩

/-- The loop of `munmap` clears the bits of its indices and removes the translations of its pages,
and nothing else, unless one of the indices is the one behind the bitmap. -/
theorem unmapPages_spec (hproc : proc.pml4 ∈ dirs) (hlimit : proc.bitmap.limit = VMM_SIZE_PAGES)
    {m : Mem} {used : Set Word} {owner : Owner} (hT : Tables dirs m used owner)
    (hstored : Stored proc.bitmap used owner) (addr : Word) {idx : BitVec 32} {n : Nat}
    (hbehind : ¬ InIndices idx n VMM_SIZE_PAGES) :
    Tables dirs (unmapPages proc addr idx n m) used owner ∧
      (∀ i < VMM_SIZE_PAGES, bitAt (unmapPages proc addr idx n m) proc.bitmap.bitmap i = true ↔
        bitAt m proc.bitmap.bitmap i = true ∧ ¬ InIndices idx n i) ∧
      ∀ v, (InPages addr n v → pageWalk (unmapPages proc addr idx n m) proc.pml4 v = none) ∧
        (¬ InPages addr n v →
          pageWalk (unmapPages proc addr idx n m) proc.pml4 v = pageWalk m proc.pml4 v) := by
  obtain ⟨hT', hwalk⟩ := unmapPages_walk hproc hT addr n (hstored.bitsApart hT hlimit hbehind)
  refine ⟨hT', fun i hi => ?_, hwalk⟩
  clear hT' hwalk
  induction n with
  | zero =>
    refine (and_iff_left ?_).symm
    rintro ⟨k, hk, -⟩
    omega
  | succ n ih =>
    have hbefore : ¬ InIndices idx n VMM_SIZE_PAGES := fun ⟨k, hk, heq⟩ =>
      hbehind ⟨k, by omega, heq⟩
    have hapart := hstored.bitsApart hT hlimit hbehind n (Nat.lt_succ_self n)
    obtain ⟨hT₁, -⟩ := unmapPages_walk hproc hT addr n (hstored.bitsApart hT hlimit hbefore)
    rw [unmapPages, unmapPage_bits hproc hlimit hT₁ hstored hapart hi]
    split_ifs with hlast
    · exact iff_of_false not_false fun h => h.2 ⟨n, Nat.lt_succ_self n, hlast.symm⟩
    · rw [ih hbefore]
      refine and_congr_right fun _ => not_congr ⟨?_, ?_⟩
      · exact fun ⟨k, hk, heq⟩ => ⟨k, by omega, heq⟩
      · rintro ⟨k, hk, heq⟩
        have hne : k ≠ n := fun h => hlast (h ▸ heq.symm)
        exact ⟨k, by omega, heq⟩

theorem inIndices_one {idx : BitVec 32} {i : Nat} : InIndices idx 1 i ↔ idx.toNat = i := by
  simp only [InIndices, Nat.lt_one_iff, exists_eq_left, BitVec.add_zero]

theorem inPages_one {addr v : Word} :
    InPages addr 1 v ↔ pageNumber v = pageNumber (pageAddress addr 0) := by
  simp [InPages]

/-- On bitmap and tables that agree, `munmap` keeps the agreement exactly when of the pages in use
it clears and removes the same. -/
theorem Consistent.unmapPages_iff (hproc : proc.pml4 ∈ dirs)
    (hlimit : proc.bitmap.limit = VMM_SIZE_PAGES) {addr : Word} {idx : BitVec 32} {s : Machine σ}
    (hc : Consistent taken dirs proc s) {n : Nat} (hbehind : ¬ InIndices idx n VMM_SIZE_PAGES) :
    Consistent taken dirs proc { s with mem := unmapPages proc addr idx n s.mem } ↔
      ∀ i < VMM_SIZE_PAGES, bitAt s.mem proc.bitmap.bitmap i = true →
        (InIndices idx n i ↔ InPages addr n (windowPage i)) := by
  obtain ⟨owner, hT, hstored⟩ := hc.tables
  obtain ⟨hT', hbits, hwalk⟩ := unmapPages_spec hproc hlimit hT hstored addr hbehind
  have hpage : ∀ i < VMM_SIZE_PAGES,
      (pageWalk (unmapPages proc addr idx n s.mem) proc.pml4 (windowPage i)).isSome = true ↔
        bitAt s.mem proc.bitmap.bitmap i = true ∧ ¬ InPages addr n (windowPage i) := by
    intro i hi
    rw [hc.agrees i hi]
    by_cases hin : InPages addr n (windowPage i)
    · rw [(hwalk _).1 hin]
      exact iff_of_false Bool.false_ne_true fun h => h.2 hin
    · rw [(hwalk _).2 hin]
      exact (and_iff_left hin).symm
  constructor
  · intro hc' i hi hset
    have h := hc'.agrees i hi
    rw [hbits i hi, hpage i hi, and_iff_right hset, and_iff_right hset] at h
    exact not_iff_not.mp h
  · intro h
    refine ⟨⟨owner, hT', hstored⟩, fun i hi => ?_⟩
    rw [hbits i hi, hpage i hi]
    exact and_congr_right fun hset => not_congr (h i hi hset)

end Steps

/-! ## Arguments -/

/-- An index range inside the window maps the pages of that range. -/
theorem matches_of_index {idx : BitVec 32} {n k : Nat} (hn : idx.toNat + n ≤ VMM_SIZE_PAGES)
    (hk : k < n) :
    Matches (idx + BitVec.ofNat 32 k)
      (pageAddress (pageAddress VMM_ADDR_START idx) (BitVec.ofNat 32 k)) := by
  unfold VMM_SIZE_PAGES at hn
  have hknat : (BitVec.ofNat 32 k).toNat = k := Nat.mod_eq_of_lt (by omega)
  have hsum := @toNat_add_ofNat idx k (by omega)
  refine ⟨by unfold VMM_SIZE_PAGES; omega, ?_⟩
  rw [pageAddress_eq _ (by omega), pageAddress_eq _ (by omega), hknat, hsum]
  congr 1
  unfold windowPage
  rw [Nat.mul_add, BitVec.ofNat_add, BitVec.add_assoc]

/-! ## Searching for pages -/

/-- The counter of the inner loop counts all `n` bits when they are all clear. -/
theorem clearCount_eq {m : Mem} {b : Bitmap} {idx : BitVec 32} :
    ∀ {n : Nat}, (∀ k < n, bitmapGet m b (idx + BitVec.ofNat 32 k) = 0) →
      clearCount m b idx n = BitVec.ofNat 32 n := by
  intro n
  induction n with
  | zero => intro _; rfl
  | succ n ih =>
    intro hclear
    simp only [clearCount]
    rw [if_pos (hclear n (by omega)), ih fun k hk => hclear k (by omega), BitVec.ofNat_add]
    rfl

/-- A negative page count keeps the search running forever. -/
theorem findPages_eq_none {m : Mem} {b : Bitmap} {pages : BitVec 32} (hneg : pages.toInt < 0) :
    findPages m b pages = none := by
  unfold findPages
  rw [searchIndex_eq_none]
  intro idx
  have hzero : pages.toInt.toNat = 0 := by omega
  rw [hzero, beq_eq_false_iff_ne]
  intro heq
  rw [← show (0 : BitVec 32) = pages from heq] at hneg
  cases hneg

theorem clearCount_le (m : Mem) (b : Bitmap) (idx : BitVec 32) (n : Nat) :
    (clearCount m b idx n).toNat ≤ n := by
  have hone : (1 : BitVec 32).toNat = 1 := rfl
  induction n with
  | zero => exact Nat.le_refl 0
  | succ n ih =>
    simp only [clearCount]
    split
    · rw [BitVec.toNat_add, hone]
      omega
    · omega

/-- The inner loop counts `n` clear bits only when all of them are clear. -/
theorem clearCount_eq_iff (m : Mem) (b : Bitmap) (idx : BitVec 32) {n : Nat} (hn : n < 2 ^ 32) :
    (clearCount m b idx n).toNat = n ↔ ∀ k < n, bitmapGet m b (idx + BitVec.ofNat 32 k) = 0 := by
  constructor
  · induction n with
    | zero => intro _ k hk; omega
    | succ n ih =>
      intro h k hk
      have hle := clearCount_le m b idx n
      simp only [clearCount] at h
      by_cases hlast : bitmapGet m b (idx + BitVec.ofNat 32 n) = 0
      · have hone : (1 : BitVec 32).toNat = 1 := rfl
        rw [if_pos hlast, BitVec.toNat_add, hone] at h
        rcases Nat.lt_succ_iff_lt_or_eq.mp hk with hk | rfl
        · exact ih (by omega) (by omega) k hk
        · exact hlast
      · rw [if_neg hlast] at h
        omega
  · intro h
    rw [clearCount_eq h, BitVec.toNat_ofNat, Nat.mod_eq_of_lt hn]

theorem toNat_toInt_of_nonneg {pages : BitVec 32} (h : 0 ≤ pages.toInt) :
    pages.toInt.toNat = pages.toNat ∧ pages.toNat < 2 ^ 31 := by
  have hcond := BitVec.toInt_eq_toNat_cond pages
  have hlt := pages.isLt
  split at hcond <;> omega

/-- The test of the outer loop: all indices from `idx` on that are requested read as clear. -/
theorem clearCount_beq_iff (m : Mem) (b : Bitmap) {pages : BitVec 32} (hpages : 0 ≤ pages.toInt)
    (idx : BitVec 32) :
    (clearCount m b idx pages.toInt.toNat == pages) = true ↔
      ∀ k < pages.toInt.toNat, bitmapGet m b (idx + BitVec.ofNat 32 k) = 0 := by
  obtain ⟨hnat, hlt⟩ := toNat_toInt_of_nonneg hpages
  rw [beq_iff_eq, BitVec.toNat_eq, ← clearCount_eq_iff m b idx (by omega), hnat]

/-- The search ends at or before every index from which on the requested ones read as clear. -/
theorem findPages_le {m : Mem} {b : Bitmap} {pages idx : BitVec 32} (hpages : 0 ≤ pages.toInt)
    (hclear : ∀ k < pages.toInt.toNat, bitmapGet m b (idx + BitVec.ofNat 32 k) = 0) :
    ∃ j, findPages m b pages = some j ∧ j ≤ idx :=
  @searchIndex_exists _ (fun idx => clearCount m b idx pages.toInt.toNat == pages) idx
    ((clearCount_beq_iff m b hpages idx).mpr hclear)

/-- With a free range among the first `bound` bits the search ends at a range among them. -/
theorem findPages_exists {m : Mem} {b : Bitmap} {pages : BitVec 32} (hpos : 0 ≤ pages.toInt)
    {i bound : Nat} (hbound : bound ≤ VMM_SIZE_PAGES) (hi : i + pages.toInt.toNat ≤ bound)
    (hclear : ∀ k < pages.toInt.toNat, bitAt m b.bitmap (i + k) = false) :
    ∃ j, findPages m b pages = some j ∧ j.toNat + pages.toInt.toNat ≤ bound := by
  unfold VMM_SIZE_PAGES at hbound
  have hinat : (BitVec.ofNat 32 i).toNat = i := Nat.mod_eq_of_lt (by omega)
  have hread : ∀ k < pages.toInt.toNat,
      bitmapGet m b (BitVec.ofNat 32 i + BitVec.ofNat 32 k) = 0 := by
    intro k hk
    by_contra hne
    have hbit := ((bitmapGet_ne_zero_iff _ _ _).mp hne).2
    rw [toNat_add_ofNat _ (by omega), hinat, hclear k hk] at hbit
    cases hbit
  obtain ⟨j, hj, hle⟩ := findPages_le hpos hread
  refine ⟨j, hj, ?_⟩
  rw [BitVec.le_def, hinat] at hle
  omega

/-! ## System calls -/

/-- One of the two system calls, with the registers it is made with. -/
inductive VmmCall where
  | mmap (regs : Regs)
  | munmap (regs : Regs)

namespace VmmCall

def exec {σ : Type} (src : PageSource σ) (proc : AddressSpace) (s : Machine σ) :
    VmmCall → Option (Machine σ)
  | .mmap regs => (mmapSyscall src (some proc) regs s).map Prod.snd
  | .munmap regs => some (munmapSyscall (some proc) regs s).2

/-- Arguments that keep bitmap and tables in step.  `mmap`: the call does nothing (or never
returns), or the flags have no address bits and the window has a free range of the requested
length.  `munmap`: the call does nothing, or the indices it computes do not include the one behind
the bitmap, and of the pages in use it clears and removes the same. -/
def Safe (proc : AddressSpace) (m : Mem) : VmmCall → Prop
  | .mmap regs =>
      let pages := (regs.rdx.setWidth 32 : BitVec 32).toInt
      regs.rdi = 0 ∨ pages ≤ 0 ∨
        NoAddressBits regs.rsi ∧ ∃ i, i + pages.toNat ≤ VMM_SIZE_PAGES ∧
          ∀ k < pages.toNat, bitAt m proc.bitmap.bitmap (i + k) = false
  | .munmap regs =>
      let pages := (regs.rsi.setWidth 32 : BitVec 32).toInt
      let idx := pageIndex VMM_ADDR_START regs.rdi
      regs.rdi = 0 ∨ pages ≤ 0 ∨
        ¬ InIndices idx pages.toNat VMM_SIZE_PAGES ∧
          ∀ i < VMM_SIZE_PAGES, bitAt m proc.bitmap.bitmap i = true →
            (InIndices idx pages.toNat i ↔ InPages regs.rdi pages.toNat (windowPage i))

end VmmCall

section Runs

variable {σ : Type} {src : PageSource σ} {taken : σ → Set Word} {dirs : Set Word}
  {proc : AddressSpace}

theorem VmmCall.exec_mmap {s : Machine σ} {regs : Regs}
    (h : ¬ (regs.rdi = 0 ∨ (regs.rdx.setWidth 32 : BitVec 32) = 0)) :
    (VmmCall.mmap regs).exec src proc s =
      (findPages s.mem proc.bitmap (regs.rdx.setWidth 32)).bind fun idx =>
        mapPages src proc (pageAddress VMM_ADDR_START idx) (regs.rdi &&& 0xFFFFFFFFFFFFF000#64)
          (regs.rsi ||| PAGE_PRESENT) idx (regs.rdx.setWidth 32 : BitVec 32).toInt.toNat s := by
  simp only [VmmCall.exec, mmapSyscall, Mm.mmap, if_neg h, Option.bind_eq_bind, Option.pure_def]
  cases findPages s.mem proc.bitmap (regs.rdx.setWidth 32) with
  | none => rfl
  | some idx =>
    simp only [Option.bind_some]
    cases mapPages src proc (pageAddress VMM_ADDR_START idx) (regs.rdi &&& 0xFFFFFFFFFFFFF000#64)
      (regs.rsi ||| PAGE_PRESENT) idx (regs.rdx.setWidth 32 : BitVec 32).toInt.toNat s <;> rfl

theorem mapPages_one (virtaddr physAddr flags : Word) (idx : BitVec 32) (s : Machine σ) :
    mapPages src proc virtaddr physAddr flags idx 1 s =
      mapPage src proc virtaddr physAddr flags idx 0#32 s := rfl

theorem noAddressBits_or_present {flags : Word} (h : NoAddressBits flags) :
    NoAddressBits (flags ||| PAGE_PRESENT) := by
  unfold NoAddressBits at *
  rw [BitVec.and_or_distrib_right, h]
  rfl

theorem Consistent.mmap (hlaw : src.Lawful taken) (hproc : proc.pml4 ∈ dirs)
    (hlimit : proc.bitmap.limit = VMM_SIZE_PAGES) {s s' : Machine σ}
    (hc : Consistent taken dirs proc s) {regs : Regs}
    (hsafe : (VmmCall.mmap regs).Safe proc s.mem)
    (h : (VmmCall.mmap regs).exec src proc s = some s') : Consistent taken dirs proc s' := by
  by_cases hnoop : regs.rdi = 0 ∨ (regs.rdx.setWidth 32 : BitVec 32) = 0
  · simp only [VmmCall.exec, mmapSyscall, Mm.mmap, if_pos hnoop, Option.bind_eq_bind,
      Option.bind_some, Option.pure_def, Option.map_some, Option.some.injEq] at h
    exact h ▸ hc
  · rw [VmmCall.exec_mmap hnoop, Option.bind_eq_some_iff] at h
    obtain ⟨idx, hfind, hloop⟩ := h
    simp only [VmmCall.Safe] at hsafe
    generalize (regs.rdx.setWidth 32 : BitVec 32) = pages at *
    rcases hsafe with hzero | hneg | ⟨hflags, i, hi, hclear⟩
    · exact absurd (Or.inl hzero) hnoop
    · rcases Int.lt_or_eq_of_le hneg with hneg | heq
      · rw [findPages_eq_none hneg] at hfind
        cases hfind
      · exact absurd (Or.inr (BitVec.eq_of_toInt_eq heq)) hnoop
    · rcases lt_or_ge pages.toInt 0 with hneg | hpos
      · rw [findPages_eq_none hneg] at hfind
        cases hfind
      · obtain ⟨j, hj, hroom⟩ := findPages_exists hpos le_rfl hi hclear
        obtain rfl : idx = j := Option.some.inj (hfind.symm.trans hj)
        exact hc.mapPages hlaw hproc hlimit (present_or (by decide))
          (noAddressBits_or_present hflags) _ (fun k hk => matches_of_index hroom hk) hloop

theorem Consistent.munmap (hproc : proc.pml4 ∈ dirs)
    (hlimit : proc.bitmap.limit = VMM_SIZE_PAGES) {s s' : Machine σ}
    (hc : Consistent taken dirs proc s) {regs : Regs}
    (hsafe : (VmmCall.munmap regs).Safe proc s.mem)
    (h : (VmmCall.munmap regs).exec src proc s = some s') : Consistent taken dirs proc s' := by
  simp only [VmmCall.exec, munmapSyscall, Mm.munmap, Option.some.injEq] at h
  simp only [VmmCall.Safe] at hsafe
  generalize hpages : (regs.rsi.setWidth 32 : BitVec 32) = pages at h hsafe
  by_cases hnoop : regs.rdi = 0 ∨ pages = 0
  · rw [if_pos hnoop] at h
    exact h ▸ hc
  · rw [if_neg hnoop] at h
    subst h
    rcases hsafe with hzero | hneg | ⟨hbehind, hsame⟩
    · exact absurd (Or.inl hzero) hnoop
    · rw [Int.toNat_of_nonpos hneg]
      exact hc
    · exact (hc.unmapPages_iff hproc hlimit hbehind).mpr hsame

/-- One system call with safe arguments that returns. -/
def VmmStep (src : PageSource σ) (proc : AddressSpace) (s s' : Machine σ) : Prop :=
  ∃ call : VmmCall, call.Safe proc s.mem ∧ call.exec src proc s = some s'

theorem VmmStep.consistent (hlaw : src.Lawful taken) (hproc : proc.pml4 ∈ dirs)
    (hlimit : proc.bitmap.limit = VMM_SIZE_PAGES) {s s' : Machine σ}
    (hstep : VmmStep src proc s s') (hc : Consistent taken dirs proc s) :
    Consistent taken dirs proc s' := by
  obtain ⟨call, hsafe, hexec⟩ := hstep
  cases call with
  | mmap regs => exact hc.mmap hlaw hproc hlimit hsafe hexec
  | munmap regs => exact hc.munmap hproc hlimit hsafe hexec

/-- A process starts with a clear bitmap outside its tables and an unmapped window.  After
every run of `mmap_syscall` and `munmap_syscall` whose arguments are safe at each call, bit
`i` is set exactly when page `i` of the window is present. -/
theorem vmm_bitmap_agrees (hlaw : src.Lawful taken) (hproc : proc.pml4 ∈ dirs)
    (hsize : proc.bitmap.size = BitVec.ofNat 64 (VMM_SIZE_PAGES / 8)) (s s' : Machine σ)
    (owner : Owner) (hT : Tables dirs s.mem (taken s.pmm) owner)
    (hstored : Stored proc.bitmap (taken s.pmm) owner)
    (hclear : ∀ i < VMM_SIZE_PAGES, bitAt s.mem proc.bitmap.bitmap i = false)
    (hunmapped : ∀ i < VMM_SIZE_PAGES, pageWalk s.mem proc.pml4 (windowPage i) = none)
    (hrun : Relation.ReflTransGen (VmmStep src proc) s s') : Agrees proc s'.mem := by
  have hlimit := limit_of_size hsize
  have hinit : Consistent taken dirs proc s := by
    refine ⟨⟨owner, hT, hstored⟩, fun i hi => ?_⟩
    simp [hclear i hi, hunmapped i hi]
  have hfinal : Consistent taken dirs proc s' := by
    induction hrun with
    | refl => exact hinit
    | tail _ hstep ih => exact hstep.consistent hlaw hproc hlimit ih
  exact hfinal.agrees

end Runs

/-! ## A process on a zeroed machine -/

/-- A directory at 0x1000 and a bitmap of `VMM_SIZE_PAGES` bits at 0x200000. -/
def sampleProc : AddressSpace := ⟨0x1000, ⟨0x200000, 0x10000⟩⟩

/-- Zeroed memory, and three pages to build tables from. -/
def sampleMachine : Machine PagePool where
  mem := fun _ => 0
  pmm := ⟨[0x100000, 0x101000, 0x102000], by decide, by simp [FrameAddress, PageAligned]⟩

/-- `mmap(0x1000, 0, 1)`. -/
def sampleMmap : Regs := { Regs.zero with rdi := 0x1000, rdx := 1 }

theorem sampleMachine_tables :
    ∃ owner, Tables {0x1000} sampleMachine.mem sampleMachine.pmm.taken owner ∧
      Stored sampleProc.bitmap sampleMachine.pmm.taken owner := by
  classical
  refine ⟨_, Tables.of_zero (by simp [PageAligned]) ?_ (fun _ _ _ _ => rfl), ?_⟩
  · intro d hd
    obtain rfl := Set.mem_singleton_iff.mp hd
    simp [PagePool.taken, sampleMachine]
  · intro k hk
    unfold VMM_SIZE_PAGES at hk
    have hpage : (0x200000#64 + BitVec.ofNat 64 (k / 0x1000 * 0x1000)).toNat =
        0x200000 + k / 0x1000 * 0x1000 := by
      simp only [BitVec.toNat_add, BitVec.toNat_ofNat]
      omega
    have hne : ∀ q : Word, q.toNat < 0x200000 →
        0x200000#64 + BitVec.ofNat 64 (k / 0x1000 * 0x1000) ≠ q := by
      intro q hq heq
      rw [← heq, hpage] at hq
      omega
    refine ⟨0x200000#64 + BitVec.ofNat 64 (k / 0x1000 * 0x1000), ?_, ?_, ?_, ?_⟩
    · have h := And.intro (hne 0x100000 (by decide))
        (And.intro (hne 0x101000 (by decide)) (hne 0x102000 (by decide)))
      simpa [PagePool.taken, sampleMachine] using h
    · unfold PageAligned
      omega
    · exact if_neg (hne 0x1000 (by decide))
    · unfold InPage
      have hk' : (BitVec.ofNat 64 k).toNat = k := Nat.mod_eq_of_lt (by omega)
      simp only [sampleProc]
      bv_omega

/-- The first `mmap` maps page 0 of the window. -/
theorem sampleMmap_exec :
    ∃ s owner, (VmmCall.mmap sampleMmap).exec poolSource sampleProc sampleMachine = some s ∧
      Tables {0x1000} s.mem s.pmm.taken owner ∧ Stored sampleProc.bitmap s.pmm.taken owner ∧
      pageWalk s.mem 0x1000 (windowPage 0) = some 0x1000 := by
  obtain ⟨owner, hT, hstored⟩ := sampleMachine_tables
  have hfind : findPages sampleMachine.mem sampleProc.bitmap 1 = some 0 := by decide +kernel
  have hpool : poolSource.Supplies (0 + 3) sampleMachine.pmm :=
    poolSource_supplies 3 _ (by decide)
  obtain ⟨s, hmap⟩ : ∃ s, mapPage poolSource sampleProc (pageAddress VMM_ADDR_START 0) 0x1000
      PAGE_PRESENT 0 0#32 sampleMachine = some s := by
    obtain ⟨s, hmap, -⟩ := @pagingMap_progress _ poolSource 0
      { sampleMachine with mem := (bitmapSet sampleMachine.mem sampleProc.bitmap (0 + 0#32) 1).2 }
      hpool 0x1000 (pageAddress (pageAddress VMM_ADDR_START 0) 0#32) (pageAddress 0x1000 0#32)
      PAGE_PRESENT
    exact ⟨s, hmap⟩
  obtain ⟨⟨owner', hT', hstored'⟩, -, hwalk⟩ := mapPage_spec poolSource_lawful
    (Set.mem_singleton _) rfl hT hstored (by decide) (by decide) (by decide) hmap
  refine ⟨s, owner', ?_, hT', hstored', ?_⟩
  · have hphys : sampleMmap.rdi &&& 0xFFFFFFFFFFFFF000#64 = 0x1000 := by decide
    have hflags : sampleMmap.rsi ||| PAGE_PRESENT = PAGE_PRESENT := by decide
    have hpages : (sampleMmap.rdx.setWidth 32 : BitVec 32) = 1 := by decide
    have hcount : (1 : BitVec 32).toInt.toNat = 1 := by decide
    rw [VmmCall.exec_mmap (by decide), hphys, hflags, hpages, hfind, hcount, Option.bind_some,
      mapPages_one]
    exact hmap
  · have hpage : pageWalk s.mem 0x1000 (windowPage 0) = _ := hwalk (windowPage 0)
    rw [hpage, if_pos (by decide)]
    decide

theorem sampleMachine_clear :
    (∀ i < VMM_SIZE_PAGES, bitAt sampleMachine.mem sampleProc.bitmap.bitmap i = false) ∧
    ∀ i < VMM_SIZE_PAGES, pageWalk sampleMachine.mem sampleProc.pml4 (windowPage i) = none := by
  refine ⟨fun i _ => ?_, fun i _ => pageWalk_of_zero (fun _ _ => rfl) _⟩
  simp [bitAt, sampleMachine]

/-- `munmap(0x00000FFF00000000, 1)`: the index is computed as 0, the address is not in the
window. -/
def aliasMunmap : Regs := { Regs.zero with rdi := 0x00000FFF00000000, rsi := 1 }

/-- After `mmap(0x1000, 0, 1)` the call `munmap(0x00000FFF00000000, 1)` clears bit 0 and
leaves page 0 of the window mapped. -/
theorem aliasMunmap_disagrees :
    (∀ i < VMM_SIZE_PAGES, bitAt sampleMachine.mem sampleProc.bitmap.bitmap i = false) ∧
    (∀ i < VMM_SIZE_PAGES, pageWalk sampleMachine.mem sampleProc.pml4 (windowPage i) = none) ∧
    ∃ s₁ s₂, (VmmCall.mmap sampleMmap).exec poolSource sampleProc sampleMachine = some s₁ ∧
      (VmmCall.munmap aliasMunmap).exec poolSource sampleProc s₁ = some s₂ ∧
      bitAt s₂.mem sampleProc.bitmap.bitmap 0 = false ∧
      pageWalk s₂.mem sampleProc.pml4 (windowPage 0) = some 0x1000 ∧
      ¬ Agrees sampleProc s₂.mem := by
  obtain ⟨s₁, owner, hmmap, hT, hstored, hwalk⟩ := sampleMmap_exec
  obtain ⟨-, hbits, hwalk'⟩ := @unmapPages_spec _ sampleProc (Set.mem_singleton _) rfl _ _ _ hT
    hstored 0x00000FFF00000000 0 1 (by rw [inIndices_one]; decide)
  have hbit := Bool.eq_false_iff.mpr fun h =>
    ((hbits 0 (by decide)).mp h).2 (inIndices_one.mpr rfl)
  have hpage := ((hwalk' (windowPage 0)).2 (by rw [inPages_one]; decide)).trans hwalk
  refine ⟨sampleMachine_clear.1, sampleMachine_clear.2, s₁,
    { s₁ with mem := unmapPages sampleProc 0x00000FFF00000000 0 1 s₁.mem }, hmmap, rfl, hbit, hpage,
    fun hagrees => ?_⟩
  have h := (hagrees 0 (by decide)).mpr (by rw [hpage]; rfl)
  rw [hbit] at h
  cases h

/-- `munmap(0xFFFFFFFF00000000, 1)`. -/
def sampleMunmap : Regs := { Regs.zero with rdi := VMM_ADDR_START, rsi := 1 }

/-- Mapping and unmapping page 0 of the window keeps bitmap and tables in step. -/
theorem sampleProc_agrees :
    ∃ s₁ s₂, (VmmCall.mmap sampleMmap).exec poolSource sampleProc sampleMachine = some s₁ ∧
      (VmmCall.munmap sampleMunmap).exec poolSource sampleProc s₁ = some s₂ ∧
      Agrees sampleProc s₁.mem ∧ Agrees sampleProc s₂.mem := by
  obtain ⟨owner, hT, hstored⟩ := sampleMachine_tables
  obtain ⟨hclear, hunmapped⟩ := sampleMachine_clear
  obtain ⟨s₁, -, hmmap, -⟩ := sampleMmap_exec
  have hfirst : VmmStep poolSource sampleProc sampleMachine s₁ := by
    refine ⟨.mmap sampleMmap, Or.inr (Or.inr ⟨by decide, 0, by decide, fun k hk => ?_⟩), hmmap⟩
    have hlt : k < VMM_SIZE_PAGES := Nat.lt_trans hk (by decide)
    rw [Nat.zero_add]
    exact hclear k hlt
  have hsecond : VmmStep poolSource sampleProc s₁
      (munmapSyscall (some sampleProc) sampleMunmap s₁).2 := by
    refine ⟨.munmap sampleMunmap,
      Or.inr (Or.inr ⟨inIndices_one.not.mpr (by decide), fun i hi _ => ?_⟩), rfl⟩
    exact inIndices_one.trans (eq_comm.trans
      ((windowPage_injective hi (j := 0) (by decide)).symm.trans inPages_one.symm))
  refine ⟨s₁, _, hmmap, rfl, ?_, ?_⟩
  · exact vmm_bitmap_agrees poolSource_lawful (Set.mem_singleton _) rfl sampleMachine s₁ owner hT
      hstored hclear hunmapped (.single hfirst)
  · exact vmm_bitmap_agrees poolSource_lawful (Set.mem_singleton _) rfl sampleMachine _ owner hT
      hstored hclear hunmapped (.tail (.single hfirst) hsecond)

end ChronOS.Mm
