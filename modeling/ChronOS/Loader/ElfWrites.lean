/-
  Loader/ElfWrites.lean --- where `load_elf` copies to.

  The pages requested for an image are counted from the sizes of the sections;
  the place of a section in it is given by its address.  Nothing relates the two.
  `loadSections` reads the headers again in every iteration, so what is copied
  for a section may depend on where the sections before it went: as long as those
  stayed in the pages of the image, the file is as it was, and the next place is
  the one the file gave at the start.
-/
import ChronOS.Loader.ElfImage

set_option autoImplicit false

namespace ChronOS.Loader

open ChronOS.Foundation ChronOS.Mm

/-! ## The ranges written -/

section Writes

variable {σ : Type} (src : FrameSource σ)

/-- The range one section is copied to, or that is cleared for it: first byte and length. -/
def sectionWrite (program : Word) (shdr : Shdr) : List (Word × Nat) :=
  if shdr.shAddr ≠ 0 then [(imageAddress program shdr.shAddr, shdr.shSize.toNat)] else []

/-- The ranges written by `loadSections`, up to the first iteration that does not return. -/
def sectionWrites (ehdr pageTable program shdrBase : Word) :
    (fuel i : Nat) → Machine σ → List (Word × Nat)
  | 0, _, _ => []
  | fuel + 1, i, s =>
      if i < (eShnum s.mem ehdr).toNat then
        let shdr := readShdr s.mem (shdrBase + BitVec.ofNat 64 (64 * i))
        match loadSection src ehdr pageTable program shdr s with
        | none => []
        | some s => sectionWrite program shdr ++
            sectionWrites ehdr pageTable program shdrBase fuel (i + 1) s
      else []

/-- What `load_elf` gets from `pmm_getpages`, and the ranges it writes then. -/
def loadElfWrites (data pageTable : Word) (s : Machine σ) : Option (Word × List (Word × Nat)) :=
  if elfCheck s.mem data ≠ 0 then none else do
    let (program, pmm, mem) ← src.getpages (progSizePages s.mem data) s.pmm s.mem
    return (program, sectionWrites src data pageTable program (data + eShoff mem data) maxSections 0
      { mem, pmm })

/-- Every byte written for a section lies in one of the pages requested for the image. -/
def WritesOwnPages (data pageTable : Word) (s : Machine σ) : Prop :=
  ∀ program writes, loadElfWrites src data pageTable s = some (program, writes) →
    ∀ w ∈ writes, ∀ k < w.2, ∃ i < (progSizePages s.mem data).toInt.toNat,
      InPage (program + BitVec.ofNat 64 (0x1000 * i)) (w.1 + BitVec.ofNat 64 k)

end Writes

/-! ## One section -/

theorem inPages_iff {program x : Word} {n : Nat} (hn : n < 2 ^ 31) :
    (∃ i < n, InPage (program + BitVec.ofNat 64 (0x1000 * i)) x) ↔
      (x - program).toNat < 0x1000 * n := by
  have hpage : ∀ i < n, (BitVec.ofNat 64 (0x1000 * i)).toNat = 0x1000 * i :=
    fun i hi => Nat.mod_eq_of_lt (by omega)
  constructor
  · rintro ⟨i, hi, hin⟩
    have hnat := hpage i hi
    unfold InPage at hin
    bv_omega
  · intro hlt
    have hi : (x - program).toNat / 0x1000 < n := by omega
    refine ⟨_, hi, ?_⟩
    have hnat := hpage _ hi
    unfold InPage
    bv_omega

/-- The range of a section lies in the first `size` bytes of the image exactly when it fits. -/
theorem sectionWrite_iff {program : Word} {sec : Shdr} {size : Nat} (hsize : size < 2 ^ 64) :
    (∀ w ∈ sectionWrite program sec, ∀ k < w.2,
      (w.1 + BitVec.ofNat 64 k - program).toNat < size) ↔ sec.Fits size := by
  have hlt := sec.shSize.isLt
  have hofflt := (sec.shAddr - ELF_VIRT_ENTRY).isLt
  have hbyte : ∀ k : Nat, (imageAddress program sec.shAddr + BitVec.ofNat 64 k - program).toNat =
      ((sec.shAddr - ELF_VIRT_ENTRY).toNat + k) % 2 ^ 64 := by
    intro k
    have hcomm : imageAddress program sec.shAddr + BitVec.ofNat 64 k - program =
        (sec.shAddr - ELF_VIRT_ENTRY) + BitVec.ofNat 64 k := by
      rw [imageAddress, BitVec.add_assoc, add_sub_cancel_left]
    rw [hcomm, BitVec.toNat_add, BitVec.toNat_ofNat]
    omega
  unfold sectionWrite Shdr.Fits
  by_cases hload : sec.shAddr = 0
  · rw [if_neg (not_not.mpr hload)]
    exact iff_of_true (by simp) (Or.inl hload)
  · rw [if_pos hload, or_iff_right hload]
    simp only [List.mem_singleton, forall_eq, hbyte]
    constructor
    · intro hin
      by_cases hempty : sec.shSize.toNat = 0
      · exact Or.inl (BitVec.eq_of_toNat_eq hempty)
      · refine Or.inr ?_
        by_contra hover
        -- the first byte lies in the image, and so does the one at its end: a contradiction
        have hfirst := hin 0 (by omega)
        have hend := hin (size - (sec.shAddr - ELF_VIRT_ENTRY).toNat) (by omega)
        omega
    · rintro (hempty | hfits) k hk
      · rw [hempty] at hk
        exact absurd hk (Nat.not_lt_zero k)
      · omega

/-! ## The loop -/

section Loop

variable {σ : Type} {src : FrameSource σ} {taken : σ → Set Word} {dirs : Set Word}
  {m₀ : Mem} {data table program : Word} {len size : Nat} {s s₁ : Machine σ}

/-- The ranges from an iteration that returns on, as long as the file is what it was. -/
theorem sectionWrites_succ (hinside : HeadersInside m₀ data len)
    (hsame : SameFile m₀ s.mem data len) {i : Nat} (hi : i < (eShnum m₀ data).toNat)
    (hstep : loadSection src data table program (sectionAt m₀ data i) s = some s₁) (fuel : Nat) :
    sectionWrites src data table program (data + eShoff m₀ data) (fuel + 1) i s =
      sectionWrite program (sectionAt m₀ data i) ++
        sectionWrites src data table program (data + eShoff m₀ data) fuel (i + 1) s₁ := by
  simp only [sectionWrites, hsame.shnum hinside.header, if_pos hi, hsame.sectionAt hinside hi,
    hstep]

/-- Sections that fit are written into the image. -/
theorem Intact.writes (hlaw : src.toPageSource.Lawful taken) (htable : table ∈ dirs)
    (hsize : size < 2 ^ 64) (hinside : HeadersInside m₀ data len)
    (hfits : ∀ sec ∈ sections m₀ data, sec.Fits size) :
    ∀ (fuel i : Nat) {s : Machine σ}, Intact taken dirs m₀ data program len size s →
      ∀ w ∈ sectionWrites src data table program (data + eShoff m₀ data) fuel i s, ∀ k < w.2,
        (w.1 + BitVec.ofNat 64 k - program).toNat < size := by
  intro fuel
  induction fuel with
  | zero =>
    intro i s _ w hw
    exact absurd hw List.not_mem_nil
  | succ fuel ih =>
    intro i s h w hw
    by_cases hi : i < (eShnum m₀ data).toNat
    · have hsec := hfits _ (sectionAt_mem hi)
      cases hstep : loadSection src data table program (sectionAt m₀ data i) s with
      | none =>
        simp only [sectionWrites, h.file.shnum hinside.header, if_pos hi,
          h.file.sectionAt hinside hi, hstep] at hw
        exact absurd hw List.not_mem_nil
      | some s₁ =>
        rw [sectionWrites_succ hinside h.file hi hstep] at hw
        rcases List.mem_append.mp hw with hw | hw
        · exact (sectionWrite_iff hsize).mpr hsec w hw
        · exact ih (i + 1) (h.section hlaw htable hsec hstep) w hw
    · simp only [sectionWrites, h.file.shnum hinside.header, if_neg hi] at hw
      exact absurd hw List.not_mem_nil

/-- When the loop returns and all it has written lies in the image, all sections fit. -/
theorem Intact.fits (hlaw : src.toPageSource.Lawful taken) (htable : table ∈ dirs)
    (hsize : size < 2 ^ 64) (hinside : HeadersInside m₀ data len) :
    ∀ (fuel i : Nat) {s s' : Machine σ}, (eShnum m₀ data).toNat ≤ i + fuel →
      Intact taken dirs m₀ data program len size s →
      (∀ w ∈ sectionWrites src data table program (data + eShoff m₀ data) fuel i s, ∀ k < w.2,
        (w.1 + BitVec.ofNat 64 k - program).toNat < size) →
      loadSections src data table program (data + eShoff m₀ data) fuel i s = some s' →
      ∀ j, i ≤ j → j < (eShnum m₀ data).toNat → (sectionAt m₀ data j).Fits size := by
  intro fuel
  induction fuel with
  | zero =>
    intro i s s' hfuel _ _ _ j hij hj
    omega
  | succ fuel ih =>
    intro i s s' hfuel h hown hrun j hij hj
    have hi : i < (eShnum m₀ data).toNat := by omega
    rw [loadSections_succ hinside h.file, if_pos hi] at hrun
    obtain ⟨s₁, hstep, hrest⟩ := Option.bind_eq_some_iff.mp hrun
    rw [sectionWrites_succ hinside h.file hi hstep] at hown
    have hsec := (sectionWrite_iff hsize).mp fun w hw => hown w (List.mem_append_left _ hw)
    rcases Nat.eq_or_lt_of_le hij with rfl | hlt
    · exact hsec
    · exact ih (i + 1) (by omega) (h.section hlaw htable hsec hstep)
        (fun w hw => hown w (List.mem_append_right _ hw)) hrest j hlt hj

end Loop

/-! ## `load_elf` -/

section Load

variable {σ : Type} {src : FrameSource σ} {taken : σ → Set Word} {dirs : Set Word}
  {s : Machine σ} {owner : Owner} {data table : Word} {len : Nat}

/-- The pages requested, as a number of bytes. -/
theorem imageSize_lt (n : BitVec 32) :
    n.toInt.toNat < 2 ^ 31 ∧ 0x1000 * n.toInt.toNat < 2 ^ 64 := by
  have hn := @BitVec.toInt_lt 32 n
  omega

/-- With the pages at `program`, the property is about the ranges of the loop. -/
theorem writesOwnPages_iff (hmagic : elfCheck s.mem data = 0) {program : Word} {pmm : σ}
    {mem : Mem}
    (hget : src.getpages (progSizePages s.mem data) s.pmm s.mem = some (program, pmm, mem)) :
    WritesOwnPages src data table s ↔
      ∀ w ∈ sectionWrites src data table program (data + eShoff mem data) maxSections 0 ⟨mem, pmm⟩,
        ∀ k < w.2, (w.1 + BitVec.ofNat 64 k - program).toNat <
          0x1000 * (progSizePages s.mem data).toInt.toNat := by
  have hn := (imageSize_lt (progSizePages s.mem data)).1
  have hwrites : loadElfWrites src data table s = some (program,
      sectionWrites src data table program (data + eShoff mem data) maxSections 0 ⟨mem, pmm⟩) := by
    rw [loadElfWrites, if_neg (not_not.mpr hmagic), hget]
    rfl
  simp only [WritesOwnPages, hwrites, Option.some.injEq, Prod.mk.injEq, and_imp, inPages_iff hn]
  constructor
  · intro h
    exact h _ _ rfl rfl
  · rintro h _ _ rfl rfl
    exact h

section Runs

variable (hlaw : src.Lawful taken) (hT : Tables dirs s.mem (taken s.pmm) owner)
  (htable : table ∈ dirs) (hfile : Apart data len (taken s.pmm) owner)
  (hmagic : elfCheck s.mem data = 0) (hinside : HeadersInside s.mem data len)

include hlaw hT htable hfile hmagic hinside

theorem writesOwnPages_of_fit (hfit : SectionsFit s.mem data) :
    WritesOwnPages src data table s := by
  cases hget : src.getpages (progSizePages s.mem data) s.pmm s.mem with
  | none =>
    intro program writes hwrites
    rw [loadElfWrites, if_neg (not_not.mpr hmagic), hget] at hwrites
    cases hwrites
  | some result =>
    obtain ⟨program, pmm, mem⟩ := result
    obtain ⟨hintact, -⟩ := hlaw.intact hT hfile hget
    rw [writesOwnPages_iff hmagic hget, hintact.file.shoff hinside.header]
    exact hintact.writes hlaw.page htable (imageSize_lt _).2 hinside hfit maxSections 0

/-- A run in which all ranges lie in the image, of a loop that returns. -/
theorem sectionsFit_of_returns {prog : ElfPrg} {s' : Machine σ}
    (hload : loadElf src data table s = some (some prog, s'))
    (hown : WritesOwnPages src data table s) : SectionsFit s.mem data := by
  obtain ⟨-, pmm, mem, hget, hloop⟩ := (loadElf_eq_some hmagic).mp hload
  obtain ⟨hintact, -⟩ := hlaw.intact hT hfile hget
  have hshnum := (eShnum s.mem data).isLt
  rw [writesOwnPages_iff hmagic hget, hintact.file.shoff hinside.header] at hown
  rw [hintact.file.shoff hinside.header] at hloop
  intro sec hsec
  obtain ⟨j, hj, rfl⟩ := List.mem_map.mp hsec
  exact hintact.fits hlaw.page htable (imageSize_lt _).2 hinside maxSections 0
    (by unfold maxSections; omega) hown hloop j (Nat.zero_le j) (List.mem_range.mp hj)

end Runs

/-- `load_elf` writes into the pages requested for the image only, if every section fits there:
counted from `ELF_VIRT_ENTRY`, modulo 2^64, it ends before they do.  When it returns, that is also
necessary. -/
theorem load_elf_writes_own_pages_iff (hlaw : src.Lawful taken)
    (hT : Tables dirs s.mem (taken s.pmm) owner) (htable : table ∈ dirs)
    (hfile : Apart data len (taken s.pmm) owner) (hmagic : elfCheck s.mem data = 0)
    (hinside : HeadersInside s.mem data len) :
    (SectionsFit s.mem data → WritesOwnPages src data table s) ∧
    ∀ prog s', loadElf src data table s = some (some prog, s') →
      (WritesOwnPages src data table s ↔ SectionsFit s.mem data) := by
  have hfit : SectionsFit s.mem data → WritesOwnPages src data table s :=
    writesOwnPages_of_fit hlaw hT htable hfile hmagic hinside
  refine ⟨hfit, fun prog s' hload => ⟨fun hown => ?_, hfit⟩⟩
  exact sectionsFit_of_returns hlaw hT htable hfile hmagic hinside hload hown

/-- `load_elf` on a well-formed file, into a table that maps nothing at or above
`ELF_VIRT_ENTRY`.  When the sections fit in the pages requested for them, it returns while the
allocator supplies the pages it asks for.  When it returns, the table shows the image the file
describes and only pages of the image were written exactly when the sections fit and every page
one of them reaches into is the first page of some section; as long as they fit, the image alone
depends on those pages only. -/
theorem load_elf_image_iff (hlaw : src.Lawful taken) (s : Machine σ) (owner : Owner)
    (hT : Tables dirs s.mem (taken s.pmm) owner) (data table : Word) (len : Nat)
    (htable : table ∈ dirs) (hfile : Apart data len (taken s.pmm) owner)
    (hunmapped : ∀ v : Word, ELF_VIRT_ENTRY.toNat ≤ v.toNat → pageWalk s.mem table v = none)
    (hwf : WellFormed s.mem data len) :
    (SectionsFit s.mem data → ∀ program pmm mem,
      src.getpages (progSizePages s.mem data) s.pmm s.mem = some (program, pmm, mem) →
      src.toPageSource.Supplies (3 * (eShnum s.mem data).toNat) pmm →
      ∃ s', loadElf src data table s = some (some ⟨eEntry s.mem data, program⟩, s')) ∧
    ∀ prog s', loadElf src data table s = some (some prog, s') →
      (SectionsFit s.mem data →
        (ImageCorrect s.mem s'.mem data table ↔ PagesCovered s.mem data)) ∧
      (ImageCorrect s.mem s'.mem data table ∧ WritesOwnPages src data table s ↔
        SectionsFit s.mem data ∧ PagesCovered s.mem data) := by
  refine ⟨fun hfit program pmm mem hget hsupply => ?_, fun prog s' hload => ?_⟩
  · exact loadElf_returns hlaw hT htable hfile hunmapped hwf hfit hget hsupply
  · have himage : SectionsFit s.mem data →
        (ImageCorrect s.mem s'.mem data table ↔ PagesCovered s.mem data) := by
      intro hfit
      obtain ⟨hframes, hfinal⟩ := loadElf_loading hlaw hT htable hfile hunmapped hwf hfit hload
      exact hfinal.image_iff hframes hwf hfit
    refine ⟨himage, fun ⟨hcorrect, hown⟩ => ?_, fun ⟨hfit, hcovered⟩ => ?_⟩
    · have hfit := sectionsFit_of_returns hlaw hT htable hfile hwf.magic hwf.toHeadersInside hload
        hown
      exact ⟨hfit, (himage hfit).mp hcorrect⟩
    · exact ⟨(himage hfit).mpr hcovered,
        writesOwnPages_of_fit hlaw hT htable hfile hwf.magic hwf.toHeadersInside hfit⟩

end Load

/-! ## Two files -/

/-- The only section of the small file lies in the one page requested for it. -/
theorem smallFile_writes_own_page :
    WritesOwnPages poolFrames 0x300000 0x1000 smallFile := by
  obtain ⟨-, owner, hT, hfile⟩ := fileMem_tables 1 2 [0xaa, 0xbb] (by decide)
    (by decide : 0x82 ≤ _)
  obtain ⟨-, hwf, hfit⟩ := smallFile_wellFormed
  exact (load_elf_writes_own_pages_iff poolFrames_lawful hT (Set.mem_singleton _) hfile hwf.magic
    hwf.toHeadersInside).1 hfit

/-- A file whose only section lies in one page is loaded as it should. -/
theorem smallFile_loaded :
    PagesCovered smallFile.mem 0x300000 ∧
    ∃ s', loadElf poolFrames 0x300000 0x1000 smallFile =
        some (some ⟨ELF_VIRT_ENTRY, 0x200000⟩, s') ∧
      ImageCorrect smallFile.mem s'.mem 0x300000 0x1000 := by
  obtain ⟨hsections, hwf, hfit⟩ := smallFile_wellFormed
  obtain ⟨hzero, owner, hT, hfile⟩ := fileMem_tables 1 2 [0xaa, 0xbb] (by decide)
    (by decide : 0x82 ≤ _)
  obtain ⟨hreturns, himage⟩ := load_elf_image_iff poolFrames_lawful smallFile owner hT 0x300000
    0x1000 0x82 (Set.mem_singleton _) hfile (fun v _ => pageWalk_of_zero hzero v) hwf
  have hcovered : PagesCovered smallFile.mem 0x300000 := by
    unfold PagesCovered
    rw [hsections]
    decide
  have hpages : progSizePages smallFile.mem 0x300000 = 1 := by decide +kernel
  have hshnum : eShnum smallFile.mem 0x300000 = 1 := by decide +kernel
  obtain ⟨s', hload⟩ := hreturns hfit 0x200000 ⟨[0x201000, 0x100000, 0x101000, 0x102000], by decide,
    by simp [FrameAddress, PageAligned]⟩ smallFile.mem (by rw [hpages]; rfl)
    (by rw [hshnum]; exact poolSource_supplies _ _ (by decide))
  have hentry : eEntry smallFile.mem 0x300000 = ELF_VIRT_ENTRY := by decide +kernel
  rw [hentry] at hload
  exact ⟨hcovered, s', hload, ((himage _ s' hload).1 hfit).mpr hcovered⟩

/-- A file at 0x300000, given by its 64-bit words, in a memory of zeros. -/
def wordsMem (words : List Word) : Mem := fun a =>
  (words.getD ((a - 0x300000).toNat / 8) 0 >>> (8 * ((a - 0x300000).toNat % 8))).setWidth 8

/-- Two sections of two bytes each, as `link.ld` places them: the second one starts a page. -/
def gapFile : Machine PagePool where
  mem := wordsMem [0x464c457f, 0, 0, ELF_VIRT_ENTRY, 0, 0x40, 0, 0x0000000200400000,
    0x0000000100000000, 0, ELF_VIRT_ENTRY, 0xc0, 2, 0, 0, 0,
    0x0000000100000000, 0, ELF_VIRT_ENTRY + 0x1000, 0xc2, 2, 0, 0, 0,
    0xddccbbaa]
  pmm := ⟨[0x200000, 0x201000, 0x202000, 0x203000, 0x204000, 0x205000, 0x206000], by decide,
    by simp [FrameAddress, PageAligned]⟩

theorem gapFile_sections : elfCheck gapFile.mem 0x300000 = 0 ∧
    sections gapFile.mem 0x300000 =
      [⟨1, ELF_VIRT_ENTRY, 0xc0, 2⟩, ⟨1, ELF_VIRT_ENTRY + 0x1000, 0xc2, 2⟩] ∧
    progSizePages gapFile.mem 0x300000 = 1 := by
  decide +kernel

theorem gapFile_headers : HeadersInside gapFile.mem 0x300000 0xc4 :=
  ⟨by decide, by decide +kernel⟩

theorem gapFile_tables : ∃ owner, Tables {0x1000} gapFile.mem gapFile.pmm.taken owner ∧
    Apart 0x300000 0xc4 gapFile.pmm.taken owner := by
  classical
  refine ⟨_, Tables.of_zero (by simp [PageAligned]) (by simp [PagePool.taken, gapFile]) ?_, ?_⟩
  · intro d hd x hx
    rw [Set.mem_singleton_iff.mp hd] at hx
    have hfar : 25 ≤ (x - 0x300000).toNat / 8 := by
      unfold InPage at hx
      bv_omega
    simp only [gapFile, wordsMem]
    rw [List.getD_eq_default _ _ hfar]
    simp
  · intro k hk
    have hused : (0x300000 : Word) ∉ gapFile.pmm.pages := by decide
    refine ⟨0x300000, hused, by decide, if_neg (by simp), ?_⟩
    unfold InPage
    rw [toNat_offset _ (by omega)]
    omega

/-- One page is requested for four bytes, and the second section goes to the page behind it. -/
theorem gapFile_writes_outside :
    elfCheck gapFile.mem 0x300000 = 0 ∧
    (∀ sec ∈ sections gapFile.mem 0x300000, sec.shOffset.toNat + sec.shSize.toNat ≤ 0xc4) ∧
    ¬ WritesOwnPages poolFrames 0x300000 0x1000 gapFile := by
  obtain ⟨hmagic, hsections, hpages⟩ := gapFile_sections
  obtain ⟨owner, hT, hfile⟩ := gapFile_tables
  refine ⟨hmagic, by rw [hsections]; decide, fun hown => ?_⟩
  obtain ⟨pool, hlength, hget⟩ : ∃ pool : PagePool, 6 ≤ pool.pages.length ∧
      poolFrames.getpages (progSizePages gapFile.mem 0x300000) gapFile.pmm gapFile.mem =
        some (0x200000, pool, gapFile.mem) := by
    refine ⟨⟨[0x201000, 0x202000, 0x203000, 0x204000, 0x205000, 0x206000], by decide,
      by simp [FrameAddress, PageAligned]⟩, by decide, ?_⟩
    rw [hpages]
    rfl
  obtain ⟨hintact, -⟩ := poolFrames_lawful.intact hT hfile hget
  have hranges := (writesOwnPages_iff hmagic hget).mp hown
  have hsecond : sectionAt gapFile.mem 0x300000 1 = ⟨1, ELF_VIRT_ENTRY + 0x1000, 0xc2, 2⟩ := by
    decide +kernel
  have hshnum : eShnum gapFile.mem 0x300000 = 2 := by decide +kernel
  -- the first iteration returns and keeps the file, and so does the second
  have hsupply : poolFrames.toPageSource.Supplies (3 + 3) pool := poolSource_supplies 6 pool hlength
  obtain ⟨s₁, hfirst, hleft⟩ := loadSection_progress (s := ⟨gapFile.mem, pool⟩) hsupply 0x300000
    0x1000 0x200000 (sectionAt gapFile.mem 0x300000 0)
  have hintact₁ := hintact.section poolFrames_lawful.page (Set.mem_singleton 0x1000) ?_ hfirst
  · obtain ⟨s₂, hstep, -⟩ := loadSection_progress (n := 0) hleft 0x300000 0x1000 0x200000
      (sectionAt gapFile.mem 0x300000 1)
    obtain ⟨fuel, hfuel⟩ : ∃ fuel, maxSections = fuel + 1 + 1 := ⟨65534, rfl⟩
    rw [hfuel, sectionWrites_succ gapFile_headers hintact.file (by rw [hshnum]; decide) hfirst,
      sectionWrites_succ gapFile_headers hintact₁.file (by rw [hshnum]; decide) hstep, hsecond,
      hpages] at hranges
    have hmem : ((0x201000 : Word), 2) ∈
        sectionWrite 0x200000 ⟨1, ELF_VIRT_ENTRY + 0x1000, 0xc2, 2⟩ := by decide
    exact absurd (hranges _ (List.mem_append_right _ (List.mem_append_left _ hmem)) 0 (by decide))
      (by decide)
  · rw [hpages]
    exact Or.inr (Or.inr (by decide +kernel))

end ChronOS.Loader
