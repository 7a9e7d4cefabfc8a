/-
  Loader/ElfImage.lean --- when `load_elf` builds the image the file describes.

  As long as every section fits in the pages of the image, the loop keeps the page
  of every address linear: a page is either unmapped or mapped to its own place in
  the image, so that only the pages that were never mapped can go wrong.  `Intact`
  and `Loading` are invariants of the loop, and `loadSections_rule` is its rule.  In
  the end the image is right exactly when every page a section reaches into is the
  first page of some section.
-/
import ChronOS.Loader.Elf

set_option autoImplicit false

namespace ChronOS.Loader

open ChronOS.Foundation ChronOS.Mm

/-! ## Reading the file -/

/-- The file at `data` is unchanged. -/
def SameFile (m m' : Mem) (data : Word) (len : Nat) : Prop :=
  ∀ k < len, m' (data + BitVec.ofNat 64 k) = m (data + BitVec.ofNat 64 k)

theorem SameFile.read {m m' : Mem} {data : Word} {len : Nat} (h : SameFile m m' data len)
    {c n : Nat} (hc : c + n ≤ len) :
    m'.read n (data + BitVec.ofNat 64 c) = m.read n (data + BitVec.ofNat 64 c) := by
  apply Mem.read_congr
  intro k hk
  rw [BitVec.add_assoc, ← BitVec.ofNat_add]
  exact h (c + k) (by omega)

theorem SameFile.shnum {m m' : Mem} {data : Word} {len : Nat} (h : SameFile m m' data len)
    (hlen : 64 ≤ len) : eShnum m' data = eShnum m data :=
  h.read (by omega : 60 + 2 ≤ len)

theorem SameFile.shoff {m m' : Mem} {data : Word} {len : Nat} (h : SameFile m m' data len)
    (hlen : 64 ≤ len) : eShoff m' data = eShoff m data :=
  h.read (by omega : 40 + 8 ≤ len)

/-- The header read in iteration `i` is the one the file had there at the start. -/
theorem SameFile.sectionAt {m m' : Mem} {data : Word} {len : Nat} (h : SameFile m m' data len)
    (hinside : HeadersInside m data len) {i : Nat} (hi : i < (eShnum m data).toNat) :
    readShdr m' (data + eShoff m data + BitVec.ofNat 64 (64 * i)) = sectionAt m data i := by
  have htable := hinside.table
  have hread : ∀ c n : Nat, c + n ≤ 64 →
      m'.read n (data + eShoff m data + BitVec.ofNat 64 (64 * i) + BitVec.ofNat 64 c) =
        m.read n (data + eShoff m data + BitVec.ofNat 64 (64 * i) + BitVec.ofNat 64 c) := by
    intro c n hcn
    have haddr : data + eShoff m data + BitVec.ofNat 64 (64 * i) + BitVec.ofNat 64 c =
        data + BitVec.ofNat 64 ((eShoff m data).toNat + 64 * i + c) := by
      rw [BitVec.ofNat_add, BitVec.ofNat_add, BitVec.ofNat_toNat, BitVec.setWidth_eq]
      simp only [BitVec.add_assoc]
    rw [haddr]
    exact h.read (by omega)
  unfold Loader.sectionAt readShdr Mem.read64
  simp only [Shdr.mk.injEq]
  exact ⟨hread 4 4 (by decide), hread 16 8 (by decide), hread 24 8 (by decide),
    hread 32 8 (by decide)⟩

/-! ## Addresses -/

/-- The page part of an address depends on its page only. -/
theorem and_frame_congr {x y : Word} (h : x.toNat / 2 ^ 12 = y.toNat / 2 ^ 12) :
    x &&& 0x000000fffffff000#64 = y &&& 0x000000fffffff000#64 := by
  have hbits : ∀ i < 12, (0x000000fffffff000#64).getLsbD i = false := by decide
  apply BitVec.eq_of_getLsbD_eq
  intro i hi
  rw [BitVec.getLsbD_and, BitVec.getLsbD_and]
  rcases Nat.lt_or_ge i 12 with hlow | hhigh
  · simp [hbits i hlow]
  · have hbit : ∀ z : Word, z.getLsbD i = (z.toNat / 2 ^ 12).testBit (i - 12) := by
      intro z
      rw [BitVec.getLsbD, Nat.testBit_div_two_pow]
      congr 1
      omega
    rw [hbit x, hbit y, h]

/-- An address below 2^40 is its page part plus its offset in the page. -/
theorem frame_add_offset {x a : Word} (hx : x.toNat < 2 ^ 40)
    (ha : a.toNat % 2 ^ 12 = x.toNat % 2 ^ 12) :
    (x &&& 0x000000fffffff000#64) + (a &&& 0xfff#64) = x := by
  have hoff : (a &&& 0xfff#64).toNat = a.toNat % 2 ^ 12 := by
    rw [BitVec.toNat_and]
    exact Nat.and_two_pow_sub_one_eq_mod a.toNat 12
  have hnat : (BitVec.ofNat 64 (x.toNat / 2 ^ 12 * 2 ^ 12)).toNat = x.toNat / 2 ^ 12 * 2 ^ 12 :=
    Nat.mod_eq_of_lt (by omega)
  have hframe : FrameAddress (BitVec.ofNat 64 (x.toNat / 2 ^ 12 * 2 ^ 12)) := by
    unfold FrameAddress PageAligned
    rw [hnat]
    omega
  have hpage : x &&& 0x000000fffffff000#64 = BitVec.ofNat 64 (x.toNat / 2 ^ 12 * 2 ^ 12) := by
    rw [← hframe.mask]
    apply and_frame_congr
    rw [hnat]
    omega
  apply BitVec.eq_of_toNat_eq
  rw [hpage, BitVec.toNat_add, hnat, hoff, ha]
  omega

theorem toNat_entry : ELF_VIRT_ENTRY.toNat = 0xFFFFFFFF80000000 := rfl

theorem imageAddress_page {program v w : Word} (hprogram : PageAligned program)
    (hv : ELF_VIRT_ENTRY.toNat ≤ v.toNat) (hw : ELF_VIRT_ENTRY.toNat ≤ w.toNat)
    (h : pageNumber v = pageNumber w) :
    imageAddress program v &&& 0x000000fffffff000#64 =
      imageAddress program w &&& 0x000000fffffff000#64 := by
  have hvlt := v.isLt
  have hwlt := w.isLt
  have hpage := congrArg BitVec.toNat h
  simp only [pageNumber, BitVec.toNat_setWidth, BitVec.toNat_ushiftRight,
    Nat.shiftRight_eq_div_pow] at hpage
  apply and_frame_congr
  unfold PageAligned at hprogram
  rw [imageAddress, imageAddress, BitVec.toNat_add, BitVec.toNat_add,
    BitVec.toNat_sub_of_le (BitVec.le_def.mpr hv), BitVec.toNat_sub_of_le (BitVec.le_def.mpr hw)]
  rw [toNat_entry] at *
  omega

theorem imageAddress_add (program v w : Word) :
    imageAddress program (v + w) = imageAddress program v + w := by
  unfold imageAddress
  bv_omega

/-- Places in the image are below 2^40 and have the page offset of their address. -/
theorem toNat_imageAddress {program v : Word} (hprogram : PageAligned program) {n : Nat}
    (hframes : ∀ i < n, FrameAddress (program + BitVec.ofNat 64 (0x1000 * i)))
    (hv : (v - ELF_VIRT_ENTRY).toNat < 0x1000 * n) :
    (imageAddress program v).toNat < 2 ^ 40 ∧
      v.toNat % 2 ^ 12 = (imageAddress program v).toNat % 2 ^ 12 := by
  have hmod : v.toNat % 2 ^ 12 = (v - ELF_VIRT_ENTRY).toNat % 2 ^ 12 := by
    rw [BitVec.toNat_sub, toNat_entry]
    omega
  rw [imageAddress, BitVec.toNat_add, hmod]
  generalize (v - ELF_VIRT_ENTRY).toNat = off at hv ⊢
  obtain ⟨haligned, hlow⟩ := hframes (off / 0x1000) (by omega)
  unfold PageAligned at haligned hprogram
  simp only [BitVec.toNat_add, BitVec.toNat_ofNat] at haligned hlow
  omega

/-! ## One section -/

section Section

variable {m : Mem} {data program : Word} {sec : Shdr} {len size : Nat}

/-- The bytes of a section that fits are bytes of the image. -/
theorem Shdr.Fits.inside (h : sec.Fits size) (hload : sec.shAddr ≠ 0) {k : Nat}
    (hk : k < sec.shSize.toNat) :
    (sec.shAddr + BitVec.ofNat 64 k - ELF_VIRT_ENTRY).toNat < size := by
  rcases h with hzero | hempty | hend
  · exact absurd hzero hload
  · rw [hempty] at hk
    exact absurd hk (Nat.not_lt_zero k)
  · bv_omega

theorem imageAddress_eq (program v : Word) :
    imageAddress program v = program + BitVec.ofNat 64 (v - ELF_VIRT_ENTRY).toNat := by
  rw [BitVec.ofNat_toNat, BitVec.setWidth_eq, imageAddress]

/-- Copying a section changes bytes of its range only. -/
theorem copySection_of_ge {x : Word}
    (h : sec.shSize.toNat ≤ (x - imageAddress program sec.shAddr).toNat) :
    copySection data program sec m x = m x := by
  have hlt := sec.shSize.isLt
  unfold copySection
  by_cases hbits : sec.shType = SHT_NOBITS
  · simp only [if_pos hbits]
    rw [memset_apply _ _ _ _ _ (by omega), if_neg (by omega)]
  · simp only [if_neg hbits]
    exact memcpy_of_ge _ _ _ _ (by omega) h

/-- A byte that copying a section changes is a byte of the image, if the section fits. -/
theorem copySection_outside (h : sec.Fits size) (hload : sec.shAddr ≠ 0) {x : Word}
    (hx : ∀ i < size, x ≠ program + BitVec.ofNat 64 i) :
    copySection data program sec m x = m x := by
  refine copySection_of_ge (Nat.le_of_not_lt fun hlt => ?_)
  refine hx _ (h.inside hload hlt) ?_
  rw [← imageAddress_eq, imageAddress_add, add_offset]

/-- Copying a section fills its place in the image with the bytes the file prescribes. -/
theorem copySection_inside (h : sec.Fits size) (hload : sec.shAddr ≠ 0)
    (hcontents : sec.shType ≠ SHT_NOBITS → sec.shOffset.toNat + sec.shSize.toNat ≤ len)
    (hsep : ∀ i < size, ∀ k < len, program + BitVec.ofNat 64 i ≠ data + BitVec.ofNat 64 k)
    {k : Nat} (hk : k < sec.shSize.toNat) :
    copySection data program sec m (imageAddress program (sec.shAddr + BitVec.ofNat 64 k)) =
      sectionByte m data sec k := by
  have hlt := sec.shSize.isLt
  have hoff := toNat_offset (imageAddress program sec.shAddr) (n := k) (by omega)
  rw [imageAddress_add]
  unfold copySection sectionByte
  by_cases hbits : sec.shType = SHT_NOBITS
  · simp only [if_pos hbits]
    rw [memset_apply _ _ _ _ _ (by omega), if_pos (by omega)]
  · simp only [if_neg hbits]
    have hcont := hcontents hbits
    -- the file has no byte in the place of the section
    have hdisj : ∀ i < sec.shSize.toNat, sec.shSize.toNat ≤
        (data + sec.shOffset + BitVec.ofNat 64 i - imageAddress program sec.shAddr).toNat := by
      intro i hi
      by_contra hin
      refine hsep _ (h.inside hload (Nat.lt_of_not_le hin)) (sec.shOffset.toNat + i)
        (by omega) ?_
      rw [← imageAddress_eq, imageAddress_add, add_offset, BitVec.ofNat_add, BitVec.ofNat_toNat,
        BitVec.setWidth_eq, BitVec.add_assoc]
    rw [memcpy_apply _ _ _ _ (by omega) hdisj _ (Nat.le_refl _) _ (by omega),
      add_sub_cancel_left]

theorem sectionByte_congr {m' : Mem} (h : SameFile m m' data len)
    (hcontents : sec.shType ≠ SHT_NOBITS → sec.shOffset.toNat + sec.shSize.toNat ≤ len)
    {k : Nat} (hk : k < sec.shSize.toNat) :
    sectionByte m' data sec k = sectionByte m data sec k := by
  unfold sectionByte
  by_cases hbits : sec.shType = SHT_NOBITS
  · rw [if_pos hbits, if_pos hbits]
  · have hcont := hcontents hbits
    have hbyte := h (sec.shOffset.toNat + k) (by omega)
    rw [BitVec.ofNat_add, BitVec.ofNat_toNat, BitVec.setWidth_eq, ← BitVec.add_assoc] at hbyte
    rw [if_neg hbits, if_neg hbits, hbyte]

end Section

/-! ## The loop -/

section Loop

variable {σ : Type} {src : FrameSource σ} {taken : σ → Set Word} {dirs : Set Word}
  {m₀ : Mem} {data table program : Word} {len size : Nat} {s s' : Machine σ}

/-- One iteration for a section that fits: its page is mapped, then bytes of the image change. -/
theorem loadSection_spec (hlaw : src.toPageSource.Lawful taken) (htable : table ∈ dirs)
    {owner : Owner} (hT : Tables dirs s.mem (taken s.pmm) owner)
    (himage : Apart program size (taken s.pmm) owner) {sec : Shdr} (hfits : sec.Fits size)
    (hstep : loadSection src data table program sec s = some s') :
    ∃ m₁ owner', Grows taken dirs s ⟨m₁, s'.pmm⟩ owner owner' ∧
      Tables dirs s'.mem (taken s'.pmm) owner' ∧
      (∀ v, pageWalk s'.mem table v =
        if sec.shAddr ≠ 0 ∧ pageNumber v = pageNumber sec.shAddr then
          some (imageAddress program sec.shAddr &&& 0x000000fffffff000#64)
        else pageWalk s.mem table v) ∧
      s'.mem = (if sec.shAddr ≠ 0 then copySection data program sec m₁ else m₁) ∧
      ∀ x, (∀ i < size, x ≠ program + BitVec.ofNat 64 i) → s'.mem x = m₁ x := by
  unfold loadSection at hstep
  by_cases hload : sec.shAddr ≠ 0
  · rw [if_pos hload] at hstep
    simp only [Option.bind_eq_bind, Option.bind_eq_some_iff, Option.pure_def,
      Option.some.injEq] at hstep
    obtain ⟨s₁, hmap, rfl⟩ := hstep
    obtain ⟨owner', hgrows, hwalk⟩ := pagingMap_spec hlaw hT htable (by decide) (by decide) hmap
    obtain ⟨himage', -⟩ := hgrows.apart himage
    have hcopy : ∀ x, (∀ i < size, x ≠ program + BitVec.ofNat 64 i) →
        copySection data program sec s₁.mem x = s₁.mem x :=
      fun x hx => copySection_outside hfits hload hx
    -- the copy stays in the image, so it touches no table
    have htables : ∀ t, owner' t ≠ none → ∀ x, InPage t x →
        copySection data program sec s₁.mem x = s₁.mem x := fun t ht x hx =>
      hcopy x fun i hi heq => himage'.not_inPage hgrows.tables hi ht (heq ▸ hx)
    obtain ⟨hT', hwalk'⟩ := hgrows.tables.congr htables
    refine ⟨s₁.mem, owner', hgrows, hT', fun v => ?_, (if_pos hload).symm, hcopy⟩
    rw [hwalk' table htable v, hwalk table htable v]
    simp only [true_and, hload, ne_eq, not_false_eq_true]
  · rw [if_neg hload] at hstep
    cases hstep
    exact ⟨s.mem, owner, Grows.refl hT, hT, fun v => (if_neg fun h => hload h.1).symm,
      (if_neg hload).symm, fun _ _ => rfl⟩

/-- The tables are well formed, the file and the `size` bytes of the image lie outside of them
and apart, and the file is unchanged. -/
structure Intact (taken : σ → Set Word) (dirs : Set Word) (m₀ : Mem) (data program : Word)
    (len size : Nat) (s : Machine σ) : Prop where
  apart : ∀ i < size, ∀ k < len, program + BitVec.ofNat 64 i ≠ data + BitVec.ofNat 64 k
  tables : ∃ owner, Tables dirs s.mem (taken s.pmm) owner ∧
    Apart data len (taken s.pmm) owner ∧ Apart program size (taken s.pmm) owner
  file : SameFile m₀ s.mem data len

/-- One iteration for a section that fits. -/
theorem Intact.section (hlaw : src.toPageSource.Lawful taken) (htable : table ∈ dirs) {sec : Shdr}
    (hfits : sec.Fits size) (h : Intact taken dirs m₀ data program len size s)
    (hstep : loadSection src data table program sec s = some s') :
    Intact taken dirs m₀ data program len size s' := by
  obtain ⟨owner, hT, hfile, himage⟩ := h.tables
  obtain ⟨m₁, owner', hgrows, hT', -, -, hout⟩ :=
    loadSection_spec hlaw htable hT himage hfits hstep
  obtain ⟨hfile', hsame⟩ := hgrows.apart hfile
  refine ⟨h.apart, ⟨owner', hT', hfile', (hgrows.apart himage).1⟩, fun k hk => ?_⟩
  rw [hout _ fun i hi heq => h.apart i hi k hk heq.symm]
  exact (hsame k hk).trans (h.file k hk)

theorem loadSection_progress {n : Nat} {s : Machine σ}
    (h : src.toPageSource.Supplies (n + 3) s.pmm) (data table program : Word) (sec : Shdr) :
    ∃ s', loadSection src data table program sec s = some s' ∧
      src.toPageSource.Supplies n s'.pmm := by
  unfold loadSection
  split
  · obtain ⟨s₁, hmap, hnext⟩ := pagingMap_progress h table sec.shAddr
      (imageAddress program sec.shAddr) PAGE_NORMAL
    refine ⟨{ s₁ with mem := copySection data program sec s₁.mem }, ?_, hnext⟩
    rw [hmap]
    rfl
  · exact ⟨s, rfl, h.mono⟩

/-- An iteration of the loop, as long as the file is what it was. -/
theorem loadSections_succ (hinside : HeadersInside m₀ data len)
    (hsame : SameFile m₀ s.mem data len) (fuel i : Nat) :
    loadSections src data table program (data + eShoff m₀ data) (fuel + 1) i s =
      if i < (eShnum m₀ data).toNat then
        (loadSection src data table program (sectionAt m₀ data i) s).bind
          (loadSections src data table program (data + eShoff m₀ data) fuel (i + 1))
      else some s := by
  rw [loadSections, hsame.shnum hinside.header]
  refine if_ctx_congr Iff.rfl (fun hi => ?_) fun _ => rfl
  rw [hsame.sectionAt hinside hi, Option.bind_eq_bind]

section Rule

variable {I : Nat → Machine σ → Prop} (hinside : HeadersInside m₀ data len)
  (hfile : ∀ i s, I i s → SameFile m₀ s.mem data len)
  (hstep : ∀ i s s', i < (eShnum m₀ data).toNat → I i s →
    loadSection src data table program (sectionAt m₀ data i) s = some s' → I (i + 1) s')

include hinside hfile hstep

/-- The rule of the loop: what keeps the file and survives an iteration holds in the end. -/
theorem loadSections_rule :
    ∀ (fuel i : Nat) {s s' : Machine σ}, i ≤ (eShnum m₀ data).toNat →
      (eShnum m₀ data).toNat ≤ i + fuel → I i s →
      loadSections src data table program (data + eShoff m₀ data) fuel i s = some s' →
      I (eShnum m₀ data).toNat s' := by
  intro fuel
  induction fuel with
  | zero =>
    intro i s s' hle hfuel h hrun
    cases hrun
    exact Nat.le_antisymm hle hfuel ▸ h
  | succ fuel ih =>
    intro i s s' hle hfuel h hrun
    rw [loadSections_succ hinside (hfile i s h)] at hrun
    split_ifs at hrun with hi
    · obtain ⟨s₁, hload, hrest⟩ := Option.bind_eq_some_iff.mp hrun
      exact ih (i + 1) hi (by omega) (hstep i s s₁ hi h hload) hrest
    · cases hrun
      exact Nat.le_antisymm hle (Nat.le_of_not_lt hi) ▸ h

/-- The loop returns while the allocator has three pages left for each section. -/
theorem loadSections_progress :
    ∀ (fuel i : Nat) {s : Machine σ}, I i s →
      src.toPageSource.Supplies (3 * ((eShnum m₀ data).toNat - i)) s.pmm →
      ∃ s', loadSections src data table program (data + eShoff m₀ data) fuel i s = some s' := by
  intro fuel
  induction fuel with
  | zero => exact fun i s _ _ => ⟨s, rfl⟩
  | succ fuel ih =>
    intro i s h hsupply
    rw [loadSections_succ hinside (hfile i s h)]
    split_ifs with hi
    · rw [show 3 * ((eShnum m₀ data).toNat - i) =
        3 * ((eShnum m₀ data).toNat - (i + 1)) + 3 by omega] at hsupply
      obtain ⟨s₁, hload, hnext⟩ :=
        loadSection_progress hsupply data table program (sectionAt m₀ data i)
      obtain ⟨s', hrest⟩ := ih (i + 1) (hstep i s s₁ hi h hload) hnext
      exact ⟨s', by rw [hload]; exact hrest⟩
    · exact ⟨s, rfl⟩

end Rule

/-- After the sections `done`: the mapped pages above the entry are the first pages of loaded
sections, each mapped to its place, and the loaded sections have their bytes. -/
structure Loading (taken : σ → Set Word) (dirs : Set Word) (m₀ : Mem) (data table program : Word)
    (len size : Nat) (done : List Shdr) (s : Machine σ) : Prop extends
    Intact taken dirs m₀ data program len size s where
  aligned : PageAligned program
  walk : ∀ v : Word, ELF_VIRT_ENTRY.toNat ≤ v.toNat → pageWalk s.mem table v =
    if ∃ sec ∈ done, sec.shAddr ≠ 0 ∧ pageNumber v = pageNumber sec.shAddr then
      some (imageAddress program v &&& 0x000000fffffff000#64)
    else none
  bytes : ∀ sec ∈ done, sec.shAddr ≠ 0 → ∀ k < sec.shSize.toNat,
    s.mem (imageAddress program (sec.shAddr + BitVec.ofNat 64 k)) = sectionByte m₀ data sec k

theorem take_succ_sections {i : Nat} (hi : i < (eShnum m₀ data).toNat) :
    (sections m₀ data).take (i + 1) = (sections m₀ data).take i ++ [sectionAt m₀ data i] := by
  rw [List.take_add_one]
  simp [sections, hi]

theorem sectionAt_mem {i : Nat} (hi : i < (eShnum m₀ data).toNat) :
    sectionAt m₀ data i ∈ sections m₀ data :=
  List.mem_map.mpr ⟨i, List.mem_range.mpr hi, rfl⟩

theorem Loading.iterate (hlaw : src.toPageSource.Lawful taken) (htable : table ∈ dirs)
    (hwf : WellFormed m₀ data len) (hfit : ∀ sec ∈ sections m₀ data, sec.Fits size) {i : Nat}
    (hi : i < (eShnum m₀ data).toNat)
    (h : Loading taken dirs m₀ data table program len size ((sections m₀ data).take i) s)
    (hstep : loadSection src data table program (sectionAt m₀ data i) s = some s') :
    Loading taken dirs m₀ data table program len size ((sections m₀ data).take (i + 1)) s' := by
  have hmem := sectionAt_mem hi
  have hpair := hwf.disjoint.sublist (List.take_sublist (i + 1) (sections m₀ data))
  rw [take_succ_sections hi] at hpair ⊢
  set sec := sectionAt m₀ data i
  obtain ⟨owner, hT, -, himage⟩ := h.tables
  obtain ⟨m₁, owner', hgrows, -, hwalk, hcopy, hout⟩ :=
    loadSection_spec hlaw htable hT himage (hfit _ hmem) hstep
  have hintact := h.toIntact.section hlaw htable (hfit _ hmem) hstep
  refine ⟨hintact, h.aligned, fun v hv => ?_, fun x hx hxload k hk => ?_⟩
  · rw [hwalk v, h.walk v hv]
    by_cases hpage : sec.shAddr ≠ 0 ∧ pageNumber v = pageNumber sec.shAddr
    · rw [if_pos hpage, if_pos ⟨sec, by simp, hpage⟩,
        imageAddress_page h.aligned hv (hwf.above _ hmem hpage.1).1 hpage.2]
    · rw [if_neg hpage]
      simp only [List.mem_append, List.mem_singleton, or_and_right, exists_or, exists_eq_left,
        hpage, or_false]
  · rcases List.mem_append.mp hx with hx | hx
    · -- a section loaded before: the copy is elsewhere in the image
      have hxmem := List.mem_of_mem_take hx
      have hin := (hfit x hxmem).inside hxload hk
      have hxbound := (hwf.above x hxmem hxload).2
      rw [← h.bytes x hx hxload k hk, imageAddress_eq, ← (hgrows.apart himage).2 _ hin,
        ← imageAddress_eq, hcopy]
      split_ifs with hload
      · refine copySection_of_ge ?_
        have hbound := (hwf.above _ hmem hload).2
        have hapart := (List.pairwise_append.mp hpair).2.2 x hx sec List.mem_cons_self hxload hload
        unfold imageAddress
        bv_omega
      · rfl
    · obtain rfl := List.mem_singleton.mp hx
      have hsame : SameFile m₀ m₁ data len := fun j hj =>
        (hout _ fun i hi heq => h.apart i hi j hj heq.symm).symm.trans (hintact.file j hj)
      rw [hcopy, if_pos hxload, copySection_inside (hfit _ hmem) hxload
        (hwf.contents _ hmem) h.apart hk]
      exact sectionByte_congr hsame (hwf.contents _ hmem) hk

end Loop

/-! ## `load_elf` -/

/-- What the loader relies on when it calls `pmm_getpage` and `pmm_getpages`: the pages are
frame addresses that were never handed out before, and the calls do not write into pages in
use. -/
structure FrameSource.Lawful {σ : Type} (src : FrameSource σ) (taken : σ → Set Word) : Prop where
  page : src.toPageSource.Lawful taken
  aligned : ∀ n a m p a' m', src.getpages n a m = some (p, a', m') → PageAligned p
  frames : ∀ n a m p a' m', src.getpages n a m = some (p, a', m') → ∀ i < n.toInt.toNat,
    FrameAddress (p + BitVec.ofNat 64 (0x1000 * i))
  fresh : ∀ n a m p a' m', src.getpages n a m = some (p, a', m') → ∀ i < n.toInt.toNat,
    p + BitVec.ofNat 64 (0x1000 * i) ∉ taken a
  next : ∀ n a m p a' m', src.getpages n a m = some (p, a', m') →
    taken a' = taken a ∪ { q | ∃ i < n.toInt.toNat, q = p + BitVec.ofNat 64 (0x1000 * i) }
  untouched : ∀ n a m p a' m', src.getpages n a m = some (p, a', m') →
    ∀ q ∈ taken a, PageAligned q → ∀ x, InPage q x → m' x = m x

section Load

variable {σ : Type} {src : FrameSource σ} {taken : σ → Set Word} {dirs : Set Word}

/-- A file with the right magic number is loaded into the pages `pmm_getpages` returns. -/
theorem loadElf_eq_some {data table : Word} {s s' : Machine σ} {prog : ElfPrg}
    (hmagic : elfCheck s.mem data = 0) :
    loadElf src data table s = some (some prog, s') ↔
      prog.entry = eEntry s.mem data ∧ ∃ pmm mem,
        src.getpages (progSizePages s.mem data) s.pmm s.mem = some (prog.program, pmm, mem) ∧
        loadSections src data table prog.program (data + eShoff mem data) maxSections 0
          ⟨mem, pmm⟩ = some s' := by
  unfold loadElf
  rw [if_neg (fun h => h hmagic), Option.bind_eq_bind, Option.bind_eq_some_iff]
  constructor
  · intro ⟨⟨program, pmm, mem⟩, hget, hload⟩
    rw [Option.bind_eq_bind, Option.bind_eq_some_iff] at hload
    obtain ⟨s₁, hloop, heq⟩ := hload
    obtain ⟨hprog, rfl⟩ := Prod.mk.inj (Option.some.inj heq)
    cases hprog
    exact ⟨rfl, pmm, mem, hget, hloop⟩
  · intro ⟨hentry, pmm, mem, hget, hloop⟩
    refine ⟨(prog.program, pmm, mem), hget, ?_⟩
    rw [Option.bind_eq_bind, Option.bind_eq_some_iff]
    refine ⟨s', hloop, ?_⟩
    rw [← hentry]
    rfl

/-- The page of byte `i` of the image is a new one. -/
theorem FrameSource.Lawful.image_page (hlaw : src.Lawful taken) {n : BitVec 32} {a a' : σ}
    {m m' : Mem} {program : Word} (hget : src.getpages n a m = some (program, a', m')) {i : Nat}
    (hi : i < 0x1000 * n.toInt.toNat) :
    ∃ p ∈ taken a', PageAligned p ∧ p ∉ taken a ∧ InPage p (program + BitVec.ofNat 64 i) := by
  have hn := @BitVec.toInt_lt 32 n
  have hlt : i / 0x1000 < n.toInt.toNat := by omega
  refine ⟨program + BitVec.ofNat 64 (0x1000 * (i / 0x1000)), ?_,
    (hlaw.frames _ _ _ _ _ _ hget _ hlt).1, hlaw.fresh _ _ _ _ _ _ hget _ hlt, ?_⟩
  · rw [hlaw.next _ _ _ _ _ _ hget]
    exact Or.inr ⟨_, hlt, rfl⟩
  · unfold InPage
    have hi' : (BitVec.ofNat 64 i).toNat = i := Nat.mod_eq_of_lt (by omega)
    bv_omega

theorem FrameSource.Lawful.taken_mono (hlaw : src.Lawful taken) {n : BitVec 32} {a a' : σ}
    {m m' : Mem} {program : Word} (hget : src.getpages n a m = some (program, a', m')) :
    taken a ⊆ taken a' := by
  rw [hlaw.next _ _ _ _ _ _ hget]
  exact Set.subset_union_left

/-- After `pmm_getpages` the walks are as they were, and the file and the new image are in
place. -/
theorem FrameSource.Lawful.intact (hlaw : src.Lawful taken) {s : Machine σ} {owner : Owner}
    (hT : Tables dirs s.mem (taken s.pmm) owner) {data : Word} {len : Nat}
    (hfile : Apart data len (taken s.pmm) owner) {n : BitVec 32} {program : Word} {pmm : σ}
    {mem : Mem} (hget : src.getpages n s.pmm s.mem = some (program, pmm, mem)) :
    Intact taken dirs s.mem data program len (0x1000 * n.toInt.toNat) ⟨mem, pmm⟩ ∧
      ∀ r ∈ dirs, ∀ v, pageWalk mem r v = pageWalk s.mem r v := by
  have hsub := hlaw.taken_mono hget
  have hsame : ∀ t, owner t ≠ none → ∀ x, InPage t x → mem x = s.mem x := fun t ht x hx =>
    hlaw.untouched _ _ _ _ _ _ hget t (hT.inUse t ht) (hT.aligned t ht) x hx
  obtain ⟨hT', hwalk⟩ := hT.congr hsame
  refine ⟨⟨fun i hi k hk heq => ?_, ⟨owner, hT'.mono hsub, fun k hk => ?_, fun i hi => ?_⟩,
    fun k hk => ?_⟩, hwalk⟩
  · obtain ⟨p, -, haligned, hnew, hin⟩ := hlaw.image_page hget hi
    obtain ⟨q, hq, hqaligned, -, hqin⟩ := hfile k hk
    rw [heq] at hin
    rw [InPage.unique haligned hqaligned hin hqin] at hnew
    exact hnew hq
  · obtain ⟨p, hp, haligned, hnone, hin⟩ := hfile k hk
    exact ⟨p, hsub hp, haligned, hnone, hin⟩
  · obtain ⟨p, hp, haligned, hnew, hin⟩ := hlaw.image_page hget hi
    exact ⟨p, hp, haligned, hT.owner_eq_none hnew, hin⟩
  · obtain ⟨p, hp, haligned, -, hin⟩ := hfile k hk
    exact hlaw.untouched _ _ _ _ _ _ hget p hp haligned _ hin

section File

variable {s : Machine σ} {owner : Owner} {data table : Word} {len : Nat}
  (hlaw : src.Lawful taken) (hT : Tables dirs s.mem (taken s.pmm) owner) (htable : table ∈ dirs)
  (hfile : Apart data len (taken s.pmm) owner)
  (hunmapped : ∀ v : Word, ELF_VIRT_ENTRY.toNat ≤ v.toNat → pageWalk s.mem table v = none)
  (hwf : WellFormed s.mem data len) (hfit : SectionsFit s.mem data)

include hlaw hT htable hfile hunmapped

/-- The state in which the loop starts. -/
theorem Loading.start {n : BitVec 32} {program : Word} {pmm : σ} {mem : Mem}
    (hget : src.getpages n s.pmm s.mem = some (program, pmm, mem)) :
    Loading taken dirs s.mem data table program len (0x1000 * n.toInt.toNat) [] ⟨mem, pmm⟩ := by
  obtain ⟨hintact, hwalk⟩ := hlaw.intact hT hfile hget
  refine ⟨hintact, hlaw.aligned _ _ _ _ _ _ hget, fun v hv => ?_, by simp⟩
  exact (hwalk table htable v).trans ((hunmapped v hv).trans (by simp))

include hwf hfit

/-- `load_elf` returns while the allocator supplies the pages it asks for. -/
theorem loadElf_returns {program : Word} {pmm : σ} {mem : Mem}
    (hget : src.getpages (progSizePages s.mem data) s.pmm s.mem = some (program, pmm, mem))
    (hsupply : src.toPageSource.Supplies (3 * (eShnum s.mem data).toNat) pmm) :
    ∃ s', loadElf src data table s = some (some ⟨eEntry s.mem data, program⟩, s') := by
  have hstart := Loading.start hlaw hT htable hfile hunmapped hget
  obtain ⟨s', hloop⟩ := loadSections_progress (I := fun i => Loading taken dirs s.mem data table
    program len _ ((sections s.mem data).take i)) hwf.toHeadersInside (fun _ _ h => h.file)
    (fun _ _ _ hi h => h.iterate hlaw.page htable hwf hfit hi) maxSections 0 hstart
    (by simpa using hsupply)
  rw [← hstart.file.shoff hwf.header] at hloop
  exact ⟨s', (loadElf_eq_some hwf.magic).mpr ⟨rfl, pmm, mem, hget, hloop⟩⟩

/-- When it returns, the loop invariant holds for all sections. -/
theorem loadElf_loading {prog : ElfPrg} {s' : Machine σ}
    (hload : loadElf src data table s = some (some prog, s')) :
    (∀ i < (progSizePages s.mem data).toInt.toNat,
      FrameAddress (prog.program + BitVec.ofNat 64 (0x1000 * i))) ∧
    Loading taken dirs s.mem data table prog.program len
      (0x1000 * (progSizePages s.mem data).toInt.toNat) (sections s.mem data) s' := by
  have hshnum := (eShnum s.mem data).isLt
  obtain ⟨-, pmm, mem, hget, hloop⟩ := (loadElf_eq_some hwf.magic).mp hload
  have hstart := Loading.start hlaw hT htable hfile hunmapped hget
  rw [hstart.file.shoff hwf.header] at hloop
  have hfinal := loadSections_rule (I := fun i => Loading taken dirs s.mem data table
    prog.program len _ ((sections s.mem data).take i)) hwf.toHeadersInside (fun _ _ h => h.file)
    (fun _ _ _ hi h => h.iterate hlaw.page htable hwf hfit hi) maxSections 0 (Nat.zero_le _)
    (by unfold maxSections; omega) hstart hloop
  rw [List.take_of_length_le (by simp [sections])] at hfinal
  exact ⟨hlaw.frames _ _ _ _ _ _ hget, hfinal⟩

end File

/-- After the loop, the image is right exactly when every page reached is mapped. -/
theorem Loading.image_iff {m : Mem} {data table program : Word} {len n : Nat} {s : Machine σ}
    (h : Loading taken dirs m data table program len (0x1000 * n) (sections m data) s)
    (hframes : ∀ i < n, FrameAddress (program + BitVec.ofNat 64 (0x1000 * i)))
    (hwf : WellFormed m data len) (hfit : ∀ sec ∈ sections m data, sec.Fits (0x1000 * n)) :
    ImageCorrect m s.mem data table ↔ PagesCovered m data := by
  have habove : ∀ sec ∈ sections m data, sec.shAddr ≠ 0 → ∀ k < sec.shSize.toNat,
      ELF_VIRT_ENTRY.toNat ≤ (sec.shAddr + BitVec.ofNat 64 k).toNat := by
    intro sec hsec hload k hk
    obtain ⟨hlow, hbound⟩ := hwf.above sec hsec hload
    simp only [BitVec.toNat_add, BitVec.toNat_ofNat]
    omega
  constructor
  · intro hcorrect sec hsec hload k hk
    obtain ⟨frame, hframe, -⟩ := hcorrect sec hsec hload k hk
    rw [h.walk _ (habove sec hsec hload k hk)] at hframe
    by_contra hnone
    rw [if_neg hnone] at hframe
    cases hframe
  · intro hcovered sec hsec hload k hk
    refine ⟨_, (h.walk _ (habove sec hsec hload k hk)).trans
      (if_pos (hcovered sec hsec hload k hk)), ?_⟩
    obtain ⟨hlt, hmod⟩ := toNat_imageAddress h.aligned hframes
      ((hfit sec hsec).inside hload hk)
    rw [frame_add_offset hlt hmod, h.bytes sec hsec hload k hk]

end Load

/-! ## Two small files -/

theorem poolFrames_getpages {n : BitVec 32} {pool pool' : PagePool} {m m' : Mem} {p : Word}
    (h : poolFrames.getpages n pool m = some (p, pool', m')) :
    p ∈ pool.pages ∧ m' = m ∧ pool'.pages = pool.pages.drop n.toInt.toNat ∧
      pool.pages.take n.toInt.toNat =
        (List.range n.toInt.toNat).map fun i => p + BitVec.ofNat 64 (0x1000 * i) := by
  simp only [poolFrames] at h
  cases hhead : pool.pages.head? with
  | none => simp [hhead] at h
  | some q =>
    simp only [hhead, Option.ite_none_right_eq_some, Option.some.injEq, Prod.mk.injEq] at h
    obtain ⟨htake, rfl, rfl, rfl⟩ := h
    exact ⟨List.mem_of_mem_head? hhead, rfl, rfl, htake⟩

theorem poolFrames_lawful : poolFrames.Lawful PagePool.taken := by
  have hmem : ∀ n pool m p pool' m', poolFrames.getpages n pool m = some (p, pool', m') →
      ∀ i < n.toInt.toNat, p + BitVec.ofNat 64 (0x1000 * i) ∈ pool.pages.take n.toInt.toNat := by
    intro n pool m p pool' m' h i hi
    rw [(poolFrames_getpages h).2.2.2]
    exact List.mem_map.mpr ⟨i, List.mem_range.mpr hi, rfl⟩
  refine ⟨poolSource_lawful, ?_, ?_, ?_, ?_, ?_⟩
  · intro n pool m p pool' m' h
    exact (pool.frame p (poolFrames_getpages h).1).1
  · intro n pool m p pool' m' h i hi
    exact pool.frame _ (List.mem_of_mem_take (hmem n pool m p pool' m' h i hi))
  · intro n pool m p pool' m' h i hi hnot
    exact hnot (List.mem_of_mem_take (hmem n pool m p pool' m' h i hi))
  · intro n pool m p pool' m' h
    obtain ⟨-, -, hdrop, htake⟩ := poolFrames_getpages h
    have hnodup := pool.nodup
    have hsplit := List.take_append_drop n.toInt.toNat pool.pages
    ext q
    have hq : q ∈ pool.pages.take n.toInt.toNat ↔
        ∃ i < n.toInt.toNat, q = p + BitVec.ofNat 64 (0x1000 * i) := by
      rw [htake]
      simp [eq_comm]
    rw [← hsplit, List.nodup_append] at hnodup
    have hall : q ∈ pool.pages ↔ q ∈ pool.pages.take n.toInt.toNat ∨ q ∈ pool'.pages := by
      rw [hdrop, ← List.mem_append, hsplit]
    have hdisj : q ∈ pool.pages.take n.toInt.toNat → q ∉ pool'.pages := by
      intro hin hin'
      rw [hdrop] at hin'
      exact hnodup.2.2 q hin q hin' rfl
    simp only [PagePool.taken, Set.mem_ofPred_eq, Set.mem_union, hall, ← hq]
    tauto
  · intro n pool m p pool' m' h q _ _ x _
    rw [(poolFrames_getpages h).2.1]

/-- A file with one section at `ELF_VIRT_ENTRY`, at 0x300000 in a memory of zeros: the
section's type and size, and its contents at file offset 0x80. -/
def fileMem (shType shSize : Word) (contents : List Byte) : Mem :=
  let bytes : List Byte := [0x7f, 0x45, 0x4c, 0x46]
  let header : Mem := fun a => bytes.getD (a - 0x300000).toNat 0
  let header := (header.write64 0x300018 ELF_VIRT_ENTRY).write64 0x300028 0x40
  let header := header.write64 0x300038 0x0000000100400000
  let table := (header.write64 0x300040 (shType <<< 32)).write64 0x300050 ELF_VIRT_ENTRY
  let table := (table.write64 0x300058 0x80).write64 0x300060 shSize
  fun a => if (a - 0x300080).toNat < contents.length then contents.getD (a - 0x300080).toNat 0
    else table a

/-- Pages for the image (two) and for the tables (three). -/
def filePool : PagePool where
  pages := [0x200000, 0x201000, 0x100000, 0x101000, 0x102000]
  nodup := by decide
  frame := by simp [FrameAddress, PageAligned]

/-- One section of two bytes. -/
def smallFile : Machine PagePool := ⟨fileMem 1 2 [0xaa, 0xbb], filePool⟩

/-- One `SHT_NOBITS` section of a page and a byte. -/
def bssFile : Machine PagePool := ⟨fileMem 8 0x1001 [], filePool⟩

/-- The directory page at 0x1000 is zero, and the first page of the file is in use and not a
table. -/
theorem fileMem_tables (shType shSize : Word) (contents : List Byte) (h : contents.length ≤ 2)
    {len : Nat} (hlen : len ≤ 0x1000) :
    (∀ x, InPage 0x1000 x → fileMem shType shSize contents x = 0) ∧
    ∃ owner, Tables {0x1000} (fileMem shType shSize contents) filePool.taken owner ∧
      Apart 0x300000 len filePool.taken owner := by
  classical
  have hzero : ∀ x, InPage 0x1000 x → fileMem shType shSize contents x = 0 := by
    intro x hx
    unfold InPage at hx
    have hfar : ∀ a : Word, 0x300000 ≤ a.toNat → a.toNat < 0x300100 → 8 ≤ (x - a).toNat := by
      intro a hlow hhigh
      bv_omega
    have hcontents := hfar 0x300080 (by decide) (by decide)
    simp only [fileMem]
    rw [if_neg (by omega), Mem.write64_of_ge (hfar _ (by decide) (by decide)),
      Mem.write64_of_ge (hfar _ (by decide) (by decide)),
      Mem.write64_of_ge (hfar _ (by decide) (by decide)),
      Mem.write64_of_ge (hfar _ (by decide) (by decide)),
      Mem.write64_of_ge (hfar _ (by decide) (by decide)),
      Mem.write64_of_ge (hfar _ (by decide) (by decide)),
      Mem.write64_of_ge (hfar _ (by decide) (by decide))]
    have hmagic := hfar 0x300000 (by decide) (by decide)
    exact List.getD_eq_default _ _ (by show 4 ≤ (x - 0x300000).toNat; omega)
  refine ⟨hzero, _, Tables.of_zero (by simp [PageAligned])
    (by simp [PagePool.taken, filePool]) ?_, ?_⟩
  · intro d hd
    rw [Set.mem_singleton_iff.mp hd]
    exact hzero
  · intro k hk
    refine ⟨0x300000, by simp [PagePool.taken, filePool], by decide, if_neg (by simp), ?_⟩
    unfold InPage
    bv_omega

/-- For a file with one section there is only that section to check. -/
theorem wellFormed_of_single {m : Mem} {data : Word} {len : Nat} {sec : Shdr}
    (hsections : sections m data = [sec]) (hmagic : elfCheck m data = 0)
    (hentsize : eShentsize m data = 64) (hheader : 64 ≤ len)
    (htable : (eShoff m data).toNat + 64 * (eShnum m data).toNat ≤ len) (hbounded : len < 2 ^ 64)
    (hcontents : sec.shType ≠ SHT_NOBITS → sec.shOffset.toNat + sec.shSize.toNat ≤ len)
    (habove : ELF_VIRT_ENTRY.toNat ≤ sec.shAddr.toNat ∧
      sec.shAddr.toNat + sec.shSize.toNat ≤ 2 ^ 64)
    (hfits : (sec.shAddr - ELF_VIRT_ENTRY).toNat + sec.shSize.toNat ≤
      0x1000 * (progSizePages m data).toInt.toNat) :
    WellFormed m data len ∧ SectionsFit m data := by
  have honly : ∀ sec' ∈ sections m data, sec' = sec := by
    rw [hsections]
    exact fun sec' hmem => List.mem_singleton.mp hmem
  refine ⟨⟨⟨hheader, htable⟩, hmagic, hentsize, hbounded, ?_, ?_, ?_⟩, ?_⟩
  · intro sec' hmem
    rw [honly sec' hmem]
    exact hcontents
  · intro sec' hmem _
    rw [honly sec' hmem]
    exact habove
  · rw [hsections]
    exact List.pairwise_singleton _ _
  · intro sec' hmem
    rw [honly sec' hmem]
    exact Or.inr (Or.inr hfits)

theorem smallFile_wellFormed :
    sections smallFile.mem 0x300000 = [⟨1, ELF_VIRT_ENTRY, 0x80, 2⟩] ∧
    WellFormed smallFile.mem 0x300000 0x82 ∧ SectionsFit smallFile.mem 0x300000 := by
  have hsections : sections smallFile.mem 0x300000 = [⟨1, ELF_VIRT_ENTRY, 0x80, 2⟩] := by
    decide +kernel
  have hheader : elfCheck smallFile.mem 0x300000 = 0 ∧ eShentsize smallFile.mem 0x300000 = 64 := by
    decide +kernel
  exact ⟨hsections, wellFormed_of_single hsections hheader.1 hheader.2 (by decide)
    (by decide +kernel) (by decide) (by decide) (by decide) (by decide +kernel)⟩

theorem bssFile_wellFormed :
    sections bssFile.mem 0x300000 = [⟨8, ELF_VIRT_ENTRY, 0x80, 0x1001⟩] ∧
    WellFormed bssFile.mem 0x300000 0x80 ∧ SectionsFit bssFile.mem 0x300000 := by
  have hsections : sections bssFile.mem 0x300000 = [⟨8, ELF_VIRT_ENTRY, 0x80, 0x1001⟩] := by
    decide +kernel
  have hheader : elfCheck bssFile.mem 0x300000 = 0 ∧ eShentsize bssFile.mem 0x300000 = 64 := by
    decide +kernel
  exact ⟨hsections, wellFormed_of_single hsections hheader.1 hheader.2 (by decide)
    (by decide +kernel) (by decide) (by decide) (by decide) (by decide +kernel)⟩

/-- The last byte of a section of 0x1001 bytes is in a page that is never mapped. -/
theorem bssFile_not_loaded :
    WellFormed bssFile.mem 0x300000 0x80 ∧
    sections bssFile.mem 0x300000 = [⟨8, ELF_VIRT_ENTRY, 0x80, 0x1001⟩] ∧
    ∃ s', loadElf poolFrames 0x300000 0x1000 bssFile =
        some (some ⟨ELF_VIRT_ENTRY, 0x200000⟩, s') ∧
      pageWalk s'.mem 0x1000 (ELF_VIRT_ENTRY + 0x1000) = none ∧
      ¬ ImageCorrect bssFile.mem s'.mem 0x300000 0x1000 := by
  obtain ⟨hsections, hwf, hfits⟩ := bssFile_wellFormed
  obtain ⟨hzero, owner, hT, hfile⟩ := fileMem_tables 8 0x1001 [] (by decide)
    (by decide : 0x80 ≤ _)
  have hunmapped : ∀ v : Word, ELF_VIRT_ENTRY.toNat ≤ v.toNat →
      pageWalk bssFile.mem 0x1000 v = none := fun v _ => pageWalk_of_zero hzero v
  have hpages : progSizePages bssFile.mem 0x300000 = 2 := by decide +kernel
  have hshnum : eShnum bssFile.mem 0x300000 = 1 := by decide +kernel
  have hentry : eEntry bssFile.mem 0x300000 = ELF_VIRT_ENTRY := by decide +kernel
  obtain ⟨s', hload⟩ := @loadElf_returns _ poolFrames _ _ bssFile owner 0x300000 0x1000 0x80
    poolFrames_lawful hT (Set.mem_singleton _) hfile hunmapped hwf hfits 0x200000
    ⟨[0x100000, 0x101000, 0x102000], by decide, by simp [FrameAddress, PageAligned]⟩ bssFile.mem
    (by rw [hpages]; rfl) (by rw [hshnum]; exact poolSource_supplies _ _ (by decide))
  rw [hentry] at hload
  obtain ⟨-, hfinal⟩ := loadElf_loading poolFrames_lawful hT (Set.mem_singleton _) hfile
    hunmapped hwf hfits hload
  have hwalk : pageWalk s'.mem 0x1000 (ELF_VIRT_ENTRY + 0x1000) = none := by
    rw [hfinal.walk _ (by decide), hsections]
    exact if_neg (by decide)
  refine ⟨hwf, hsections, s', hload, hwalk, fun hcorrect => ?_⟩
  unfold ImageCorrect at hcorrect
  rw [hsections] at hcorrect
  obtain ⟨frame, hframe, -⟩ := hcorrect _ List.mem_cons_self (by decide) 0x1000 (by decide)
  rw [show pageWalk s'.mem 0x1000 (ELF_VIRT_ENTRY + BitVec.ofNat 64 0x1000) = none from hwalk]
    at hframe
  cases hframe

end ChronOS.Loader
