/-
  Mm/PmmSource.lean --- page tables built from the pages of `pmm_getpage`.

  The paging results hold over any lawful source of pages.  `pmm_getpage` is not one by
  itself: it looks for a clear bit in the memory that the paging code writes.  What makes it
  one along a run is that the bits of the first 0x20000 indices lie in the 0x4000 bytes in
  front of the pages.  `recordSource` is the allocator that reads its bits from a record of
  its own, which is lawful, and `pmmSource` follows it as long as the record and the memory
  hold the same bits.  Tables are pages in use, so no step of the paging code changes them.
-/
import ChronOS.Mm.PagingRefinement
import ChronOS.Mm.PmmContiguity

set_option autoImplicit false

namespace ChronOS.Mm

open ChronOS.Foundation ChronOS.Ds

/-! ## Runs over two sources -/

section Follows

variable {σ τ : Type} {src : PageSource σ} {src' : PageSource τ} {taken : σ → Set Word}
  {R : Mem → σ → τ → Prop} {dirs : Set Word}

theorem exists_inPage (x : Word) : ∃ p, PageAligned p ∧ InPage p x := by
  refine ⟨x &&& 0xFFFFFFFFFFFFF000#64, ?_, ?_⟩
  · rw [PageAligned, toNat_roundDown]
    exact Nat.mul_mod_left _ _
  · have hdown := toNat_roundDown x
    rw [InPage, BitVec.toNat_sub]
    omega

theorem PagingOp.exec_follows (hlaw : src.Lawful taken) (hfol : src'.Follows src taken R)
    {s s' : Machine σ} {owner : Owner} (hT : Tables dirs s.mem (taken s.pmm) owner)
    {op : PagingOp} (hop : op.WellFormed dirs) (h : op.exec src s = some s') {b : τ}
    (hR : R s.mem s.pmm b) :
    ∃ b', op.exec src' ⟨s.mem, b⟩ = some ⟨s'.mem, b'⟩ ∧ R s'.mem s'.pmm b' := by
  cases op with
  | map dir virtual physical flags =>
      obtain ⟨hdir, -, hpresent, hflags⟩ := hop
      exact pagingMap_follows hlaw hfol hT hdir hpresent hflags.noAddressBits h hR
  | unmap dir virtual =>
      cases h
      refine ⟨b, rfl, hfol.keeps hR fun x hx => ?_⟩
      obtain ⟨p, haligned, hin⟩ := exists_inPage x
      refine (pagingUnmap_spec hT hop virtual).2.1 p haligned ?_ x hin
      by_contra howned
      exact hx p (hT.inUse p howned) haligned hin

/-- A run over the one source is a run over the other, with the same memory after it. -/
theorem runPaging_follows (hlaw : src.Lawful taken) (hfol : src'.Follows src taken R) :
    ∀ (ops : List PagingOp) (s s' : Machine σ) (b : τ), (∀ op ∈ ops, op.WellFormed dirs) →
      (∃ owner, Tables dirs s.mem (taken s.pmm) owner) → R s.mem s.pmm b →
      runPaging src s ops = some s' →
      ∃ b', runPaging src' ⟨s.mem, b⟩ ops = some ⟨s'.mem, b'⟩ ∧ R s'.mem s'.pmm b' := by
  intro ops
  induction ops with
  | nil =>
      intro s s' b _ _ hR hrun
      cases hrun
      exact ⟨b, rfl, hR⟩
  | cons op ops ih =>
      intro s s' b hops hT hR hrun
      obtain ⟨owner, hT⟩ := hT
      simp only [runPaging, List.foldlM_cons, Option.bind_eq_bind,
        Option.bind_eq_some_iff] at hrun ⊢
      obtain ⟨s₁, h₁, hrest⟩ := hrun
      have hop := hops op List.mem_cons_self
      obtain ⟨b₁, h₁', hR₁⟩ := PagingOp.exec_follows hlaw hfol hT hop h₁ hR
      obtain ⟨b', hrest', hR'⟩ := ih s₁ s' b₁
        (fun other hmem => hops other (List.mem_cons_of_mem op hmem))
        (PagingOp.exec_spec hlaw hT hop h₁).1 hR₁ hrest
      exact ⟨b', ⟨_, h₁', hrest'⟩, hR'⟩

end Follows

/-! ## The allocator with a record of its bits -/

/-- The number of indices whose bits lie in the 0x4000 bytes that `pmm_init` sets aside. -/
def Pmm.recorded (s : Pmm) : Nat := min s.limit 0x20000

/-- The pages follow the bytes set aside for the bitmap, and are frames. -/
structure Pmm.Regular (s : Pmm) : Prop where
  start : s.startOfMem = s.pmmBitmap.bitmap + 0x4000#64
  aligned : PageAligned s.startOfMem
  top : s.startOfMem.toNat + 0x1000 * s.recorded ≤ 2 ^ 40

/-- The pages the allocator will not hand out, apart from those that hold its bits. -/
def Pmm.inUse (s : Pmm) : Set Word :=
  { q | (∀ k < s.recorded, q = s.page k → s.taken k = true) ∧
    ∀ i < 0x4000, ¬ InPage q (s.pmmBitmap.bitmap + BitVec.ofNat 64 i) }

/-- The number of pages left. -/
def Pmm.pagesLeft (s : Pmm) : Nat := Nat.count (fun i => s.taken i = false) s.recorded

/-- `pmm_getpage` that looks for a clear bit in the allocator's own memory. -/
def recordSource : PageSource { s : Pmm // s.Regular } where
  getpage s m := do
    let k ← firstClear s.1
    if k.toNat < s.1.recorded then
      some (s.1.page k.toNat, ⟨s.1.mark k 1, s.2.start, s.2.aligned, s.2.top⟩,
        (bitmapSet m s.1.pmmBitmap k 1).2)
    else none

theorem recordSource_getpage {s s' : { s : Pmm // s.Regular }} {m m' : Mem} {p : Word} :
    recordSource.getpage s m = some (p, s', m') ↔
      ∃ k, firstClear s.1 = some k ∧ k.toNat < s.1.recorded ∧ p = s.1.page k.toNat ∧
        s'.1 = s.1.mark k 1 ∧ m' = (bitmapSet m s.1.pmmBitmap k 1).2 := by
  simp only [recordSource, Option.bind_eq_bind, Option.bind_eq_some_iff,
    Option.ite_none_right_eq_some, Option.some.injEq, Prod.mk.injEq, Subtype.ext_iff]
  grind

section Record

variable {s : Pmm}

/-- The bits lie in none of the pages. -/
theorem Pmm.Regular.page_apart (h : s.Regular) {i j : Nat} (hi : i < 0x4000) (hj : j < 2 ^ 19) :
    ¬ InPage (s.page j) (s.pmmBitmap.bitmap + BitVec.ofNat 64 i) := by
  have hfar := @bitmap_byte_far s.pmmBitmap.bitmap (8 * i) j 0x20000 0x1000 (by omega) (by omega)
    hj (by decide)
  rw [← h.start, Nat.mul_div_cancel_left _ (by decide)] at hfar
  exact Nat.not_lt.mpr hfar

theorem Pmm.Regular.page_frame (h : s.Regular) {k : Nat} (hk : k < s.recorded) :
    FrameAddress (s.page k) := by
  have htop := h.top
  have haligned := h.aligned
  have hnat : (s.page k).toNat = s.startOfMem.toNat + 0x1000 * k := by
    rw [Pmm.page, BitVec.toNat_add, BitVec.toNat_ofNat]
    omega
  unfold FrameAddress PageAligned at *
  omega

/-- Taking the page `k` adds it to the pages in use. -/
theorem Pmm.Regular.inUse_mark (h : s.Regular) {k : BitVec 32} (hk : k.toNat < s.recorded) :
    (s.mark k 1).inUse = insert (s.page k.toNat) s.inUse := by
  obtain ⟨hlimit, hmost⟩ := lt_min_iff.mp hk
  have hbits : ∀ j < s.recorded, (s.mark k 1).taken j = true ↔ j = k.toNat ∨ s.taken j = true := by
    intro j hj
    rw [taken_mark s 1 hlimit.le (by have := (lt_min_iff.mp hj).2; omega)]
    by_cases heq : j = k.toNat <;> simp [heq]
  ext q
  simp only [Set.mem_insert_iff]
  constructor
  · intro ⟨hq, hapart⟩
    by_cases heq : q = s.page k.toNat
    · exact Or.inl heq
    · refine Or.inr ⟨fun j hj hjq => ?_, hapart⟩
      exact ((hbits j hj).mp (hq j hj hjq)).resolve_left fun hjk => heq (hjk ▸ hjq)
  · rintro (rfl | ⟨hq, hapart⟩)
    · refine ⟨fun j hj hjq => (hbits j hj).mpr (Or.inl ?_), fun i hi => ?_⟩
      · have hj' := (lt_min_iff.mp hj).2
        exact (page_injective s (by omega) (by omega) hjq).symm
      · exact h.page_apart hi (by omega)
    · exact ⟨fun j hj hjq => (hbits j hj).mpr (Or.inr (hq j hj hjq)), hapart⟩

theorem Pmm.pagesLeft_mark {k : BitVec 32} (hk : k.toNat < s.recorded)
    (hclear : s.taken k.toNat = false) : (s.mark k 1).pagesLeft + 1 = s.pagesLeft := by
  have hlimit := (lt_min_iff.mp hk).1
  have hfilter : (Finset.range s.recorded).filter (fun i => (s.mark k 1).taken i = false) =
      ((Finset.range s.recorded).filter fun i => s.taken i = false).erase k.toNat := by
    ext j
    simp only [Finset.mem_filter, Finset.mem_range, Finset.mem_erase, lt_min_iff, Pmm.recorded]
    by_cases hj : j < 0x20000
    · rw [taken_mark s 1 hlimit.le (by omega)]
      split_ifs with heq <;> simp [heq]
    · simp [hj]
  have hmem : k.toNat ∈ (Finset.range s.recorded).filter fun i => s.taken i = false := by
    simp [hk, hclear]
  rw [Pmm.pagesLeft, Pmm.pagesLeft, Nat.count_eq_card_filter_range, Nat.count_eq_card_filter_range]
  exact hfilter ▸ Finset.card_erase_add_one hmem

end Record

/-- The allocator with its record is what the paging code relies on. -/
theorem recordSource_lawful : recordSource.Lawful fun s => s.1.inUse := by
  constructor
  · intro s m p s' m' h
    obtain ⟨k, -, hk, rfl, -⟩ := recordSource_getpage.mp h
    exact s.2.page_frame hk
  · intro s m p s' m' h hmem
    obtain ⟨k, hfirst, hk, rfl, -⟩ := recordSource_getpage.mp h
    have hclear := ((firstClear_eq_some s.1 k).mp hfirst).1 (lt_min_iff.mp hk).1.le
    rw [hmem.1 k.toNat hk rfl] at hclear
    cases hclear
  · intro s m p s' m' h
    obtain ⟨k, -, hk, rfl, hs', -⟩ := recordSource_getpage.mp h
    rw [hs']
    exact s.2.inUse_mark hk
  · intro s m p s' m' h q hq _ x hx
    obtain ⟨k, -, hk, -, -, rfl⟩ := recordSource_getpage.mp h
    obtain ⟨hlimit, hmost⟩ := lt_min_iff.mp hk
    rw [bitmapSet_accepted _ _ _ _ hlimit.le]
    refine Mem.set_of_ne fun heq => ?_
    rw [heq, byteAddress_eq] at hx
    exact hq.2 (k.toNat / 8) (by omega) hx

/-- It supplies as many pages as are left. -/
theorem recordSource_supplies :
    ∀ (n : Nat) (s : { s : Pmm // s.Regular }), n ≤ s.1.pagesLeft → recordSource.Supplies n s := by
  intro n
  induction n with
  | zero => intro s _; trivial
  | succ n ih =>
      intro s hn m
      -- some bit is clear, so the search ends at or before it
      have hexists : ∃ i < s.1.recorded, s.1.taken i = false := by
        by_contra hnone
        have hzero : s.1.pagesLeft = 0 :=
          Nat.count_iff_forall_not.mpr fun i hi hbit => hnone ⟨i, hi, hbit⟩
        omega
      obtain ⟨i, hi, hbit⟩ := hexists
      obtain ⟨-, hmost⟩ := lt_min_iff.mp hi
      obtain ⟨k, hfirst, hki⟩ := firstClear_exists s.1 i (by omega) fun _ => hbit
      have hk := hki.trans_lt hi
      have hclear := ((firstClear_eq_some s.1 k).mp hfirst).1 (lt_min_iff.mp hk).1.le
      have hleft := Pmm.pagesLeft_mark hk hclear
      have hn' : n ≤ (s.1.mark k 1).pagesLeft := by omega
      exact ⟨_, ⟨s.1.mark k 1, s.2.start, s.2.aligned, s.2.top⟩, _,
        recordSource_getpage.mpr ⟨k, hfirst, hk, rfl, rfl, rfl⟩, ih _ hn'⟩

/-! ## The allocator of the kernel -/

/-- The memory holds the bits of the record, and `b` is the allocator with some older copy of
the memory. -/
def SameBits (m : Mem) (s : { s : Pmm // s.Regular }) (b : Pmm) : Prop :=
  (∃ old, b = { s.1 with mem := old }) ∧
    ∀ i < 0x4000, m (s.1.pmmBitmap.bitmap + BitVec.ofNat 64 i) =
      s.1.mem (s.1.pmmBitmap.bitmap + BitVec.ofNat 64 i)

/-- `pmm_getpage` on the kernel's memory follows the allocator with a record. -/
theorem pmmSource_follows :
    pmmSource.Follows recordSource (fun s => s.1.inUse) SameBits where
  getpage := by
    rintro m ⟨s, hreg⟩ b p ⟨s', hreg'⟩ m' ⟨⟨old, rfl⟩, hbits⟩ h
    obtain ⟨k, hfirst, hk, rfl, hs', rfl⟩ := recordSource_getpage.mp h
    obtain rfl : s' = s.mark k 1 := hs'
    obtain ⟨hlimit, hmost⟩ := lt_min_iff.mp hk
    have hsame : ∀ i < 0x20000, ({ s with mem := m } : Pmm).taken i = s.taken i := fun i hi =>
      congrArg (·.getMsbD (i % 8)) (hbits (i / 8) (by omega))
    obtain ⟨hclear, hlow⟩ := (firstClear_eq_some s k).mp hfirst
    have hfirst' : firstClear { s with mem := m } = some k := by
      refine (firstClear_eq_some _ k).mpr ⟨fun h => ?_, fun i hi => ⟨(hlow i hi).1, ?_⟩⟩
      · rw [hsame _ (by omega)]
        exact hclear h
      · rw [hsame _ (by omega)]
        exact (hlow i hi).2
    refine ⟨_, pmmSource_getpage (pmmGetpage_eq_some.mpr
      ⟨k, hfirst', pageAddress_eq _ (by omega), rfl⟩), ⟨_, rfl⟩, fun i hi => ?_⟩
    -- the same byte is stored on both sides
    have haccept : k.toNat ≤ s.pmmBitmap.limit := hlimit.le
    have hbyte := hbits (k.toNat / 8) (by omega)
    simp only [Pmm.mark, bitmapSet_accepted _ _ _ _ haccept, byteAddress_eq, Mem.set]
    rw [hbyte, hbits i hi]
  keeps := by
    rintro m m' ⟨s, hreg⟩ b ⟨hb, hbits⟩ hkeep
    refine ⟨hb, fun i hi => (hkeep _ fun q hq _ hin => ?_).trans (hbits i hi)⟩
    exact hq.2 i hi hin

/-- Page tables over the allocator of the kernel refine a partial map.  The directories are
zeroed pages in use.  As long as three pages are left for each operation, the run returns and
the walk of every directory finds the frame of the last operation that named its page. -/
theorem pmm_paging_refines (s : Pmm) (hreg : s.Regular) {dirs : Set Word}
    (haligned : ∀ d ∈ dirs, PageAligned d) (hdirs : dirs ⊆ s.inUse)
    (hzero : ∀ d ∈ dirs, ∀ x, InPage d x → s.mem x = 0) (ops : List PagingOp)
    (hops : ∀ op ∈ ops, op.WellFormed dirs) (hroom : 3 * ops.length ≤ s.pagesLeft) :
    ∃ s', runPaging pmmSource ⟨s.mem, s⟩ ops = some s' ∧
      ∀ d ∈ dirs, ∀ x, pageWalk s'.mem d x = lastMapped ops d (pageNumber x) := by
  let start : Machine { s : Pmm // s.Regular } := ⟨s.mem, s, hreg⟩
  have hT := Tables.of_zero (m := start.mem) haligned hdirs hzero
  obtain ⟨s', hrun⟩ := runPaging_progress ops start (recordSource_supplies _ _ hroom)
  obtain ⟨-, hrep⟩ := runPaging_represents recordSource_lawful ops [] start s' hops ⟨_, hT⟩
    (fun d hd x => pageWalk_of_zero (hzero d hd) x) hrun
  obtain ⟨b, hrun', -⟩ := runPaging_follows recordSource_lawful pmmSource_follows ops start s' s
    hops ⟨_, hT⟩ ⟨⟨s.mem, rfl⟩, fun _ _ => rfl⟩ hrun
  exact ⟨_, hrun', by simpa using hrep⟩

/-- The state after `pmm_init`, when the chosen segment is page aligned and the pages that the
0x4000 bytes have bits for are frames. -/
theorem pmmInit_regular {kernStart kernEnd : Word} {mmap : List Descriptor} {s : Pmm}
    {d : Descriptor} (hchosen : chosenDescriptor mmap s = some d)
    (haligned : PageAligned d.physAddr) (htop : d.physAddr.toNat + 0x20004000 ≤ 2 ^ 40) :
    (pmmInit kernStart kernEnd mmap s).Regular := by
  have hbitmap : (pmmInit kernStart kernEnd mmap s).pmmBitmap = (clearedPmm mmap s).pmmBitmap := by
    rw [pmmInit_eq]
    split
    · exact markFrom_pmmBitmap _ _ _
    · rfl
  have hscan := (chosenDescriptor_eq_some hchosen).2.2.2
  have hstart := (pmmInit_startOfMem kernStart kernEnd mmap s).trans
    (congrArg Scan.largestFreeMemSeg hscan)
  have hmost : (pmmInit kernStart kernEnd mmap s).recorded ≤ 0x20000 := Nat.min_le_right _ _
  have hnat : (d.physAddr + 0x4000#64).toNat = d.physAddr.toNat + 0x4000 := by
    rw [BitVec.toNat_add, BitVec.toNat_ofNat]
    omega
  refine ⟨?_, ?_, ?_⟩
  · rw [hstart, hbitmap]
    simp [clearedPmm, hscan, Scan.taking]
  · rw [hstart]
    unfold PageAligned at *
    simp only [Scan.taking]
    omega
  · rw [hstart]
    simp only [Scan.taking]
    omega

end ChronOS.Mm
