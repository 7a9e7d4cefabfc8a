/-
  Mm/PmmSegments.lean --- the segment `pmm_init` chooses, and the bitmap in it.

  The scan compares the full size of each conventional descriptor with the size
  recorded for the last one it took over, and that record is 0x4000 bytes short
  because the bitmap has been subtracted from it.  Two things follow.  A segment
  up to four pages smaller than the largest one replaces it when it comes later,
  and a segment of one to three pages, once taken, records a size close to 2^64
  that nothing exceeds any more.

  The bitmap of the whole memory map is kept in the first 0x4000 bytes of the
  segment, whatever its size.
-/
import ChronOS.Mm.PmmPages

set_option autoImplicit false

namespace ChronOS.Mm

open ChronOS.Foundation ChronOS.Ds

/-! ## Sizes in pages -/

/-- The conventional descriptors of a map, in order. -/
def conventional (mmap : List Descriptor) : List Descriptor :=
  mmap.filter fun d => d.type = efiConventionalMemory

theorem mem_conventional {mmap : List Descriptor} {d : Descriptor} :
    d ∈ conventional mmap ↔ d ∈ mmap ∧ d.type = efiConventionalMemory := by
  simp [conventional]

/-- The scan does not see the other descriptors. -/
theorem foldl_conventional (mmap : List Descriptor) (acc : Scan) :
    (conventional mmap).foldl Scan.step acc = mmap.foldl Scan.step acc := by
  rw [conventional, List.foldl_filter]
  congr 1
  funext acc d
  by_cases htype : d.type = efiConventionalMemory
  · simp [htype]
  · simp [htype, Scan.step]

/-- The size the scan records for a descriptor of `n` pages, in pages. -/
def recordedPages (n : Nat) : Nat := (n + (2 ^ 52 - 4)) % 2 ^ 52

theorem recordedPages_of_le {n : Nat} (h : 4 ≤ n) (hn : n < 2 ^ 52) :
    recordedPages n = n - 4 := by
  unfold recordedPages
  omega

/-- A descriptor of one to three pages is recorded as almost 2^52 pages. -/
theorem le_recordedPages_of_lt {n : Nat} (hpos : 0 < n) (hn : n < 4) :
    2 ^ 52 - 3 ≤ recordedPages n := by
  unfold recordedPages
  omega

theorem recordedPages_lt (n : Nat) : recordedPages n < 2 ^ 52 := Nat.mod_lt _ (by decide)

/-- The scan has recorded `pages` pages. -/
def Scan.Records (acc : Scan) (pages : Nat) : Prop :=
  acc.largestFreeMemSegSize = BitVec.ofNat 64 (0x1000 * pages) ∧ pages < 2 ^ 52

theorem Scan.Records.unique {acc : Scan} {p q : Nat} (hp : acc.Records p) (hq : acc.Records q) :
    p = q := by
  have h := congrArg BitVec.toNat (hp.1.symm.trans hq.1)
  have hp' := hp.2
  have hq' := hq.2
  simp only [BitVec.toNat_ofNat] at h
  omega

theorem Scan.Records.lt_iff {acc : Scan} {pages : Nat} (h : acc.Records pages) {d : Descriptor}
    (hd : d.numPages.toNat < 2 ^ 52) :
    acc.largestFreeMemSegSize < d.numPages * 0x1000#64 ↔ pages < d.numPages.toNat := by
  have hp := h.2
  rw [h.1, BitVec.lt_def, BitVec.toNat_mul]
  simp only [BitVec.toNat_ofNat]
  omega

theorem Scan.taking_records (d : Descriptor) :
    (Scan.taking d).Records (recordedPages d.numPages.toNat) := by
  refine ⟨BitVec.eq_of_toNat_eq ?_, recordedPages_lt _⟩
  have hlt := recordedPages_lt d.numPages.toNat
  simp only [Scan.taking, BitVec.toNat_sub, BitVec.toNat_mul, BitVec.toNat_ofNat]
  unfold recordedPages at *
  omega

section Steps

variable {acc : Scan} {pages : Nat} {d : Descriptor}

theorem Scan.Records.step_taken (h : acc.Records pages)
    (htype : d.type = efiConventionalMemory) (hd : d.numPages.toNat < 2 ^ 52)
    (hlt : pages < d.numPages.toNat) : acc.step d = Scan.taking d :=
  Scan.step_taken htype ((h.lt_iff hd).mpr hlt)

theorem Scan.Records.foldl_kept (h : acc.Records pages) {rest : List Descriptor}
    (hrest : ∀ e ∈ rest, e.numPages.toNat ≤ pages) : rest.foldl Scan.step acc = acc := by
  apply Scan.foldl_kept
  intro e he _
  have hle := hrest e he
  have hp := h.2
  exact BitVec.not_lt.mp fun hlt => absurd ((h.lt_iff (by omega)).mp hlt) (by omega)

theorem Scan.Records.step_kept (h : acc.Records pages) (hle : d.numPages.toNat ≤ pages) :
    acc.step d = acc :=
  @Scan.Records.foldl_kept acc pages h [d] (by simpa using hle)

/-- The record stays a number of pages through a scan. -/
theorem Scan.Records.foldl (h : acc.Records pages) (rest : List Descriptor) :
    ∃ pages', (rest.foldl Scan.step acc).Records pages' := by
  rcases Scan.foldl_last_taken acc rest with hnone | ⟨_, d, _, rfl, -, -, hfold, -⟩
  · rw [Scan.foldl_kept hnone]
    exact ⟨pages, h⟩
  · rw [hfold]
    exact ⟨_, Scan.taking_records d⟩

/-- The comparison of the scan the other way, in pages. -/
theorem Scan.Records.ge_of_kept (h : acc.Records pages) (hd : d.numPages.toNat < 2 ^ 52)
    (hle : d.numPages * 0x1000#64 ≤ acc.largestFreeMemSegSize) : d.numPages.toNat ≤ pages := by
  by_contra hgt
  exact BitVec.not_lt.mpr hle ((h.lt_iff hd).mpr (by omega))

/-- Once a descriptor has been read, at least its size less the bitmap is recorded, as long as
the following ones do not exceed that. -/
theorem Scan.Records.le_of_shadow (h : acc.Records pages)
    {before after : List Descriptor} (htype : d.type = efiConventionalMemory)
    (hd : d.numPages.toNat < 2 ^ 52) (hbig : 4 ≤ d.numPages.toNat)
    (hafter : ∀ e ∈ after, e.numPages.toNat + 4 ≤ d.numPages.toNat) {pages' : Nat}
    (h' : ((before ++ d :: after).foldl Scan.step acc).Records pages') :
    d.numPages.toNat ≤ pages' + 4 := by
  obtain ⟨p, hp⟩ := h.foldl before
  rw [List.foldl_append, List.foldl_cons] at h'
  by_cases hlt : p < d.numPages.toNat
  · have hrec := Scan.taking_records d
    rw [recordedPages_of_le hbig hd] at hrec
    rw [hp.step_taken htype hd hlt,
      hrec.foldl_kept fun e he => by have := hafter e he; omega] at h'
    have := h'.unique hrec
    omega
  · rw [hp.step_kept (by omega), hp.foldl_kept fun e he => by have := hafter e he; omega] at h'
    have := h'.unique hp
    omega

end Steps

/-! ## The largest segment -/

/-- The descriptor `e` is not taken over, because an earlier one is at least four pages larger
than `e` and than everything between the two. -/
def Shadowed (earlier : List Descriptor) (e : Descriptor) : Prop :=
  ∃ before f between, earlier = before ++ f :: between ∧
    ∀ k ∈ between ++ [e], k.numPages.toNat + 4 ≤ f.numPages.toNat

/-- The conventional descriptors have a largest one, `d`, that the scan ends with: those after
`d` are at least four pages smaller, and those of one to three pages before `d` are shadowed. -/
def Unrivalled (mmap : List Descriptor) : Prop :=
  ∃ before d after, conventional mmap = before ++ d :: after ∧
    (∀ e ∈ before, e.numPages.toNat ≤ d.numPages.toNat) ∧
    (∀ e ∈ after, e.numPages.toNat + 4 ≤ d.numPages.toNat) ∧
    ∀ earlier e later, before = earlier ++ e :: later → 0 < e.numPages.toNat →
      e.numPages.toNat < 4 → Shadowed earlier e

/-- `start_of_mem - 0x4000` is the address of a conventional descriptor of maximal size. -/
def SelectsLargest (kernStart kernEnd : Word) (mmap : List Descriptor) (s : Pmm) : Prop :=
  ∃ d ∈ mmap, d.type = efiConventionalMemory ∧
    (∀ e ∈ mmap, e.type = efiConventionalMemory → e.numPages.toNat ≤ d.numPages.toNat) ∧
    (pmmInit kernStart kernEnd mmap s).startOfMem - 0x4000#64 = d.physAddr

/-- As long as every small descriptor is shadowed, the scan holds none or one of at least four
pages. -/
theorem recorded_of_shadowed {acc : Scan} (hacc : acc.Records 0) :
    ∀ before : List Descriptor,
      (∀ e ∈ before, e.type = efiConventionalMemory ∧ e.numPages.toNat < 2 ^ 52) →
      (∀ earlier e later, before = earlier ++ e :: later → 0 < e.numPages.toNat →
        e.numPages.toNat < 4 → Shadowed earlier e) →
      ∃ pages, (before.foldl Scan.step acc).Records pages ∧
        (pages = 0 ∨ ∃ f ∈ before, f.numPages.toNat = pages + 4) := by
  intro before
  induction before using List.reverseRecOn with
  | nil => intro _ _; exact ⟨0, hacc, Or.inl rfl⟩
  | append_singleton before e ih =>
    intro hconv hsmall
    obtain ⟨htype, he⟩ := hconv e (by simp)
    obtain ⟨pages, hrec, hheld⟩ := ih (fun x hx => hconv x (by simp [hx]))
      fun earlier x later heq => hsmall earlier x (later ++ [e]) (by simp [heq])
    rw [List.foldl_append, List.foldl_cons, List.foldl_nil]
    by_cases hlt : pages < e.numPages.toNat
    · have hbig : 4 ≤ e.numPages.toNat := by
        by_contra hlt4
        obtain ⟨b, f, c, heq, hf⟩ := hsmall before e [] rfl (by omega) (by omega)
        have hfe := hf e (by simp)
        obtain ⟨hftype, hflt⟩ := hconv f (by simp [heq])
        have hle := hacc.le_of_shadow hftype hflt (by omega)
          (fun k hk => hf k (by simp [hk])) (heq ▸ hrec)
        omega
      have hnew := Scan.taking_records e
      rw [recordedPages_of_le hbig he] at hnew
      rw [hrec.step_taken htype he hlt]
      exact ⟨_, hnew, Or.inr ⟨e, by simp, by omega⟩⟩
    · rw [hrec.step_kept (by omega)]
      refine ⟨pages, hrec, hheld.imp_right ?_⟩
      rintro ⟨f, hf, hfp⟩
      exact ⟨f, by simp [hf], hfp⟩

theorem scan_start_records (s : Pmm) :
    (⟨0, 0, s.pmmBitmap.bitmap, none⟩ : Scan).Records 0 := ⟨rfl, by decide⟩

theorem SelectsLargest.of_unrivalled {kernStart kernEnd : Word} {mmap : List Descriptor} {s : Pmm}
    (hpages : ∀ d ∈ mmap, d.numPages.toNat < 2 ^ 52)
    (hbig : ∃ d ∈ mmap, d.type = efiConventionalMemory ∧ 4 < d.numPages.toNat)
    (h : Unrivalled mmap) : SelectsLargest kernStart kernEnd mmap s := by
  obtain ⟨before, d, after, hsplit, hbefore, hafter, hsmall⟩ := h
  have hconv : ∀ e ∈ before ++ d :: after,
      e.type = efiConventionalMemory ∧ e.numPages.toNat < 2 ^ 52 := by
    intro e he
    obtain ⟨hmem, htype⟩ := mem_conventional.mp (hsplit ▸ he)
    exact ⟨htype, hpages e hmem⟩
  have hmax : ∀ e ∈ mmap, e.type = efiConventionalMemory →
      e.numPages.toNat ≤ d.numPages.toNat := by
    intro e he htype
    have hmem : e ∈ before ++ d :: after := hsplit ▸ mem_conventional.mpr ⟨he, htype⟩
    simp only [List.mem_append, List.mem_cons] at hmem
    rcases hmem with hmem | rfl | hmem
    · exact hbefore e hmem
    · exact le_rfl
    · have := hafter e hmem
      omega
  obtain ⟨htype, hd⟩ := hconv d (by simp)
  obtain ⟨f, hf, hftype, hf4⟩ := hbig
  have hd4 : 4 < d.numPages.toNat := Nat.lt_of_lt_of_le hf4 (hmax f hf hftype)
  obtain ⟨pages, hrec, hheld⟩ := recorded_of_shadowed (scan_start_records s) before
    (fun e he => hconv e (by simp [he])) hsmall
  have hlt : pages < d.numPages.toNat := by
    rcases hheld with rfl | ⟨e, he, hep⟩
    · omega
    · have := hbefore e he
      omega
  have hnew := Scan.taking_records d
  rw [recordedPages_of_le hd4.le hd] at hnew
  have hscan : scanSegments mmap s = Scan.taking d := by
    rw [scanSegments, ← foldl_conventional, hsplit, List.foldl_append, List.foldl_cons,
      hrec.step_taken htype hd hlt]
    exact hnew.foldl_kept fun e he => by have := hafter e he; omega
  refine ⟨d, (mem_conventional.mp (hsplit ▸ by simp)).1, htype, hmax, ?_⟩
  rw [pmmInit_startOfMem, hscan]
  exact BitVec.add_sub_cancel _ _

/-- A small descriptor that is read without ending the scan for good is shadowed. -/
theorem shadowed_of_released {acc : Scan} (hacc : acc.Records 0) {earlier : List Descriptor}
    {e : Descriptor} (hconv : ∀ x ∈ earlier ++ [e],
      x.type = efiConventionalMemory ∧ x.numPages.toNat < 2 ^ 52 - 2)
    (hpos : 0 < e.numPages.toNat) (hsmall : e.numPages.toNat < 4)
    (hfree : ∀ pages, ((earlier ++ [e]).foldl Scan.step acc).Records pages →
      pages < 2 ^ 52 - 3) : Shadowed earlier e := by
  obtain ⟨hetype, he⟩ := hconv e (by simp)
  obtain ⟨pages, hrec⟩ := hacc.foldl earlier
  rw [List.foldl_append, List.foldl_cons, List.foldl_nil] at hfree
  have hle : e.numPages.toNat ≤ pages := by
    by_contra hlt
    rw [hrec.step_taken hetype (by omega) (by omega)] at hfree
    have := hfree _ (Scan.taking_records e)
    have := le_recordedPages_of_lt hpos hsmall
    omega
  rw [hrec.step_kept hle] at hfree
  have hpages := hfree pages hrec
  rcases Scan.foldl_last_taken acc earlier with
    hnone | ⟨before, f, between, rfl, hftype, hflt, hfold, hbetween⟩
  · rw [Scan.foldl_kept hnone] at hrec
    have := hrec.unique hacc
    omega
  · rw [hfold] at hrec
    have hf := (hconv f (by simp)).2
    obtain ⟨p, hp⟩ := hacc.foldl before
    have hfpos := (hp.lt_iff (by omega)).mp hflt
    have heq := hrec.unique (Scan.taking_records f)
    have hf4 : 4 ≤ f.numPages.toNat := by
      by_contra hlt
      have := le_recordedPages_of_lt (by omega) (Nat.lt_of_not_le hlt)
      omega
    rw [recordedPages_of_le hf4 (by omega)] at heq
    refine ⟨before, f, between, rfl, fun k hk => ?_⟩
    rcases List.mem_append.mp hk with hk | hk
    · obtain ⟨hktype, hklt⟩ := hconv k (by simp [hk])
      have := hrec.ge_of_kept (by omega) (hbetween k hk hktype)
      omega
    · rw [List.mem_singleton.mp hk]
      omega

/-- No two conventional descriptors of the map start at the same address. -/
def DistinctStarts (mmap : List Descriptor) : Prop :=
  ∀ d ∈ conventional mmap, ∀ e ∈ conventional mmap, d.physAddr = e.physAddr → d = e

theorem Unrivalled.of_selectsLargest {kernStart kernEnd : Word} {mmap : List Descriptor} {s : Pmm}
    (hpages : ∀ d ∈ conventional mmap, d.numPages.toNat < 2 ^ 52 - 2)
    (hdistinct : DistinctStarts mmap)
    (hbig : ∃ d ∈ mmap, d.type = efiConventionalMemory ∧ 4 < d.numPages.toNat)
    (h : SelectsLargest kernStart kernEnd mmap s) : Unrivalled mmap := by
  obtain ⟨m, hm, hmtype, hmax, hstart⟩ := h
  obtain ⟨b, hb, hbtype, hb4⟩ := hbig
  have hacc := scan_start_records s
  rcases Scan.foldl_last_taken ⟨0, 0, s.pmmBitmap.bitmap, none⟩ (conventional mmap) with
    hnone | ⟨before, d, after, hsplit, htype, hlt, hfold, hafter⟩
  · have hmem := mem_conventional.mpr ⟨hb, hbtype⟩
    have hlt := hpages b hmem
    have := hacc.ge_of_kept (by omega) (hnone b hmem hbtype)
    omega
  have hconv : ∀ e ∈ before ++ d :: after,
      e.type = efiConventionalMemory ∧ e.numPages.toNat < 2 ^ 52 - 2 :=
    fun e he => ⟨(mem_conventional.mp (hsplit ▸ he)).2, hpages e (hsplit ▸ he)⟩
  -- the descriptor the scan ends with is the largest one, because no other starts where it does
  obtain rfl : d = m := by
    apply hdistinct d (hsplit ▸ by simp) m (mem_conventional.mpr ⟨hm, hmtype⟩)
    rw [← hstart, pmmInit_startOfMem, scanSegments, ← foldl_conventional, hfold]
    exact (BitVec.add_sub_cancel _ _).symm
  have hd4 : 4 < d.numPages.toNat := Nat.lt_of_lt_of_le hb4 (hmax b hb hbtype)
  obtain ⟨pages, hrec⟩ := hacc.foldl before
  have hd := (hconv d (by simp)).2
  have hlt' := (hrec.lt_iff (by omega)).mp hlt
  have hnew := Scan.taking_records d
  rw [recordedPages_of_le hd4.le (by omega)] at hnew
  refine ⟨before, d, after, hsplit, fun e he => ?_, fun e he => ?_, ?_⟩
  · obtain ⟨hmem, hetype⟩ := mem_conventional.mp (hsplit ▸ List.mem_append_left _ he)
    exact hmax e hmem hetype
  · obtain ⟨hetype, helt⟩ := hconv e (by simp [he])
    have := hnew.ge_of_kept (by omega) (hafter e he hetype)
    omega
  · intro earlier e later heq hpos hsmall
    refine shadowed_of_released hacc (fun x hx => hconv x ?_) hpos hsmall fun p hp => ?_
    · rw [heq]
      simp only [List.mem_append, List.mem_singleton] at hx
      rcases hx with hx | rfl
      · simp [hx]
      · simp
    · -- a record of 2^52 - 3 pages or more would have kept the scan from taking `d`
      by_contra hstuck
      have hsame : before = (earlier ++ [e]) ++ later := by simp [heq]
      rw [hsame, List.foldl_append, hp.foldl_kept fun x hx => ?_] at hrec
      · have := hrec.unique hp
        omega
      · have := (hconv x (by rw [heq]; simp [hx])).2
        omega

/-- `pmm_init` selects the largest conventional segment of every unrivalled map, and only of
those among the maps whose segments start at different addresses and have fewer than 2^52 - 2
pages. -/
theorem selects_largest_iff_unrivalled (kernStart kernEnd : Word) (mmap : List Descriptor)
    (s : Pmm) (hpages : ∀ d ∈ mmap, d.numPages.toNat < 2 ^ 52)
    (hbig : ∃ d ∈ mmap, d.type = efiConventionalMemory ∧ 4 < d.numPages.toNat) :
    (Unrivalled mmap → SelectsLargest kernStart kernEnd mmap s) ∧
    ((∀ d ∈ conventional mmap, d.numPages.toNat < 2 ^ 52 - 2) → DistinctStarts mmap →
      SelectsLargest kernStart kernEnd mmap s → Unrivalled mmap) :=
  ⟨.of_unrivalled hpages hbig, fun hlt hdistinct => .of_selectsLargest hlt hdistinct hbig⟩

/-- Ten conventional pages at 1 MiB and eight at 2 MiB: the scan ends with the eight. -/
theorem near_equal_segments_select_smaller :
    (pmmInit 0x100000 0x140000 [⟨7, 0x100000, 10⟩, ⟨7, 0x200000, 8⟩] bootPmm).startOfMem =
      0x204000 ∧
    ¬ SelectsLargest 0x100000 0x140000 [⟨7, 0x100000, 10⟩, ⟨7, 0x200000, 8⟩] bootPmm := by
  have hstart : (pmmInit 0x100000 0x140000 [⟨7, 0x100000, 10⟩, ⟨7, 0x200000, 8⟩]
      bootPmm).startOfMem = 0x204000 := by
    rw [pmmInit_startOfMem]
    decide
  refine ⟨hstart, ?_⟩
  rintro ⟨d, hd, htype, hmax, haddr⟩
  rw [hstart] at haddr
  have hlarge := hmax ⟨7, 0x100000, 10⟩ (by simp) rfl
  simp only [List.mem_cons, List.not_mem_nil, or_false] at hd
  rcases hd with rfl | rfl
  · cases haddr
  · exact absurd hlarge (by decide)

/-- Segments of 20, 2 and 30 pages: the first one keeps the scan from taking the second. -/
theorem shadowed_small_segment_selects_largest :
    Unrivalled [⟨7, 0x100000, 20⟩, ⟨7, 0x200000, 2⟩, ⟨7, 0x300000, 30⟩] ∧
    SelectsLargest 0x100000 0x140000
      [⟨7, 0x100000, 20⟩, ⟨7, 0x200000, 2⟩, ⟨7, 0x300000, 30⟩] bootPmm := by
  have h : Unrivalled [⟨7, 0x100000, 20⟩, ⟨7, 0x200000, 2⟩, ⟨7, 0x300000, 30⟩] := by
    refine ⟨[⟨7, 0x100000, 20⟩, ⟨7, 0x200000, 2⟩], ⟨7, 0x300000, 30⟩, [], by decide, by decide,
      by simp, fun earlier e later heq _ hsmall => ?_⟩
    match earlier, heq with
    | [], heq =>
      rw [← (List.cons.inj heq).1] at hsmall
      exact absurd hsmall (by decide)
    | [f], heq =>
      obtain ⟨rfl, hrest⟩ := List.cons.inj heq
      obtain ⟨rfl, -⟩ := List.cons.inj hrest
      exact ⟨[], ⟨7, 0x100000, 20⟩, [], rfl, by decide⟩
    | _ :: _ :: _, heq => simp at heq
  exact ⟨h, (selects_largest_iff_unrivalled 0x100000 0x140000 _ bootPmm (by decide)
    ⟨⟨7, 0x300000, 30⟩, by decide, by decide, by decide⟩).1 h⟩

/-! ## The bitmap in the segment -/

/-- The bitmap lies at the start of the chosen segment and the pages after the reservation. -/
theorem clearedPmm_of_chosen {mmap : List Descriptor} {s : Pmm} {d : Descriptor}
    (h : chosenDescriptor mmap s = some d) :
    (clearedPmm mmap s).pmmBitmap.bitmap = d.physAddr ∧
      (clearedPmm mmap s).startOfMem = d.physAddr + 0x4000#64 := by
  obtain ⟨-, -, -, hscan⟩ := chosenDescriptor_eq_some h
  simp only [clearedPmm, hscan, Scan.taking, and_self]

/-- Locking the kernel does not move the bitmap. -/
theorem pmmInit_pmmBitmap (kernStart kernEnd : Word) (mmap : List Descriptor) (s : Pmm) :
    (pmmInit kernStart kernEnd mmap s).pmmBitmap = (clearedPmm mmap s).pmmBitmap := by
  rw [pmmInit_eq]
  split
  · exact markFrom_pmmBitmap _ _ _
  · rfl

/-- The bitmap lies in the reservation at the start of the chosen segment: the byte of every
index that the accessors accept does, all these bits are clear before the kernel is locked, and
a write into a page that `pmm_getpage` returns changes none of them. -/
structure BitmapConfined (kernStart kernEnd : Word) (mmap : List Descriptor) (s : Pmm) :
    Prop where
  reserved : ∃ d, chosenDescriptor mmap s = some d ∧
    ∀ idx : BitVec 32, idx.toNat ≤ (pmmInit kernStart kernEnd mmap s).limit →
      (byteAddress (pmmInit kernStart kernEnd mmap s).pmmBitmap idx - d.physAddr).toNat < 0x4000
  cleared : ∀ idx : BitVec 32, idx.toNat ≤ (clearedPmm mmap s).limit →
    (clearedPmm mmap s).taken idx.toNat = false
  apart : ∀ t a t', t.pmmBitmap = (pmmInit kernStart kernEnd mmap s).pmmBitmap →
    t.startOfMem = (pmmInit kernStart kernEnd mmap s).startOfMem → pmmGetpage t = some (a, t') →
    ∀ m, (∀ x, ¬ InPage a x → m x = t'.mem x) →
      ∀ idx, bitmapGet m t.pmmBitmap idx = bitmapGet t'.mem t.pmmBitmap idx

theorem clearedPmm_limit (mmap : List Descriptor) (s : Pmm) :
    (clearedPmm mmap s).limit = 8 * ((getMemSize mmap s.memorySizeBytes).toNat / 0x8000 + 1) :=
  limit_of_memorySize rfl

theorem pmmInit_limit (kernStart kernEnd : Word) (mmap : List Descriptor) (s : Pmm) :
    (pmmInit kernStart kernEnd mmap s).limit =
      8 * ((getMemSize mmap s.memorySizeBytes).toNat / 0x8000 + 1) := by
  rw [Pmm.limit, pmmInit_pmmBitmap]
  exact clearedPmm_limit mmap s

theorem pmmInit_byteAddress {mmap : List Descriptor} {s : Pmm} {d : Descriptor}
    (h : chosenDescriptor mmap s = some d) (kernStart kernEnd : Word) (idx : BitVec 32) :
    (byteAddress (pmmInit kernStart kernEnd mmap s).pmmBitmap idx - d.physAddr).toNat =
      idx.toNat / 8 := by
  have hlt := idx.isLt
  rw [byteAddress_eq, pmmInit_pmmBitmap, (clearedPmm_of_chosen h).1, toNat_offset _ (by omega)]

/-- `bitmap_get` depends on the byte of the index only. -/
theorem bitmapGet_congr {m m' : Mem} {b : Bitmap} {idx : BitVec 32}
    (h : idx.toNat ≤ b.limit → m' (byteAddress b idx) = m (byteAddress b idx)) :
    bitmapGet m' b idx = bitmapGet m b idx := by
  unfold bitmapGet
  by_cases hacc : idx.toNat ≤ b.limit
  · rw [h hacc]
  · rw [if_pos (by_contra fun hn => hacc ((accepts_iff b idx).mp hn)),
      if_pos (by_contra fun hn => hacc ((accepts_iff b idx).mp hn))]

/-- The pages of a small bitmap lie past its reservation. -/
theorem getpage_apart {t t' : Pmm} {a : Word} (hlimit : t.limit < 0x20000)
    (hstart : t.startOfMem = t.pmmBitmap.bitmap + 0x4000#64)
    (hget : pmmGetpage t = some (a, t')) {idx : BitVec 32} (hidx : idx.toNat ≤ t.limit) :
    ¬ InPage a (byteAddress t.pmmBitmap idx) := by
  obtain ⟨k, hfirst, rfl, -⟩ := pmmGetpage_eq_some.mp hget
  have hle := firstClear_le (by omega) hfirst
  rw [InPage, byteAddress_eq, pageAddress_eq _ (by omega), hstart]
  generalize t.pmmBitmap.bitmap = base
  have hk : (BitVec.ofNat 64 (0x1000 * k.toNat)).toNat = 0x1000 * k.toNat :=
    Nat.mod_eq_of_lt (by omega)
  have hi : (BitVec.ofNat 64 (idx.toNat / 8)).toNat = idx.toNat / 8 :=
    Nat.mod_eq_of_lt (by omega)
  bv_omega

/-- The bitmap is confined to its reservation exactly when the map has a conventional segment
and less than 0x1FFF8000 bytes in total: then its last accepted byte is below offset 0x4000. -/
theorem bitmap_confined_iff (kernStart kernEnd : Word) (mmap : List Descriptor) (s : Pmm) :
    BitmapConfined kernStart kernEnd mmap s ↔
      (∃ d ∈ mmap, d.type = efiConventionalMemory ∧ d.numPages * 0x1000#64 ≠ 0#64) ∧
        (getMemSize mmap s.memorySizeBytes).toNat < 0x1FFF8000 := by
  have hlimit := pmmInit_limit kernStart kernEnd mmap s
  constructor
  · intro h
    obtain ⟨d, hchosen, hbytes⟩ := h.reserved
    obtain ⟨hd, htype, hsize, -⟩ := chosenDescriptor_eq_some hchosen
    refine ⟨⟨d, hd, htype, hsize⟩, ?_⟩
    by_contra hbig
    -- index 2^17 is accepted, and its byte is the first one after the reservation
    have hnat : (0x20000#32).toNat = 0x20000 := rfl
    have hbyte := hbytes 0x20000#32 (by omega)
    rw [pmmInit_byteAddress hchosen, hnat] at hbyte
    exact absurd hbyte (by decide)
  · intro ⟨hsegment, hsmall⟩
    obtain ⟨d, hchosen⟩ := chosenDescriptor_exists s hsegment
    obtain ⟨hbitmap, hstart'⟩ := clearedPmm_of_chosen hchosen
    refine ⟨⟨d, hchosen, fun idx hidx => ?_⟩, fun idx hidx => ?_, ?_⟩
    · rw [pmmInit_byteAddress hchosen]
      omega
    · rw [clearedPmm_limit] at hidx
      exact clearedPmm_taken mmap s (by omega)
    · intro t a t' hb hstart hget m hm idx
      have htlimit : t.limit = (pmmInit kernStart kernEnd mmap s).limit := by
        rw [Pmm.limit, Pmm.limit, hb]
      have htstart : t.startOfMem = t.pmmBitmap.bitmap + 0x4000#64 := by
        rw [hstart, hb, pmmInit_startOfMem, pmmInit_pmmBitmap, hbitmap]
        exact hstart'
      apply bitmapGet_congr
      intro hidx
      exact hm _ (getpage_apart (by omega) htstart hget hidx)

/-- 512 MiB of conventional memory at 1 MiB. -/
def halfGibMap : List Descriptor := [⟨7, 0x100000, 0x20000⟩]

/-- The bitmap of `halfGibMap` takes 0x4001 bytes: the byte of the accepted index 2^17 is the
first byte of the first page that `pmm_getpage` returns. -/
theorem halfGibMap_bitmap_overlaps_page :
    (∃ s', pmmGetpage (pmmInit 0x80000 0xC0000 halfGibMap bootPmm) = some (0x104000, s')) ∧
    (0x20000#32).toNat ≤ (pmmInit 0x80000 0xC0000 halfGibMap bootPmm).limit ∧
    byteAddress (pmmInit 0x80000 0xC0000 halfGibMap bootPmm).pmmBitmap 0x20000 = 0x104000 ∧
    ¬ BitmapConfined 0x80000 0xC0000 halfGibMap bootPmm := by
  have hkern : ¬ (scanSegments halfGibMap bootPmm).largestFreeMemSeg < 0x80000 := by decide
  have hbyte : byteAddress (clearedPmm halfGibMap bootPmm).pmmBitmap 0x20000 = 0x104000 := by
    decide
  have hidx : (0x20000#32).toNat ≤ (clearedPmm halfGibMap bootPmm).limit := by
    have hmem : (getMemSize halfGibMap bootPmm.memorySizeBytes).toNat = 0x20000000 := rfl
    have hlimit := clearedPmm_limit halfGibMap bootPmm
    have hnat : (0x20000#32).toNat = 0x20000 := rfl
    omega
  have hfirst : firstClear (clearedPmm halfGibMap bootPmm) = some 0 :=
    (firstClear_eq_some _ _).mpr ⟨fun _ => clearedPmm_taken _ _ (by decide), by simp⟩
  rw [pmmInit_eq_cleared hkern]
  refine ⟨⟨_, pmmGetpage_eq_some.mpr ⟨0, hfirst, by decide, rfl⟩⟩, hidx, hbyte, fun h => ?_⟩
  obtain ⟨d, hchosen, hreserved⟩ := h.reserved
  obtain rfl : ⟨7, 0x100000, 0x20000⟩ = d := Option.some.inj hchosen
  rw [pmmInit_eq_cleared hkern] at hreserved
  have hoff := hreserved 0x20000 hidx
  rw [hbyte] at hoff
  exact absurd hoff (by decide)

theorem smallMap_bitmap_confined : BitmapConfined 0x100000 0x140000 smallMap.entries bootPmm :=
  (bitmap_confined_iff 0x100000 0x140000 smallMap.entries bootPmm).mpr
    ⟨⟨⟨7, 0x200000, 5⟩, by decide, by decide, by decide⟩, by decide⟩

end ChronOS.Mm
