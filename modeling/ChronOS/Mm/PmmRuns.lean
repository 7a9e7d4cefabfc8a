/-
  Mm/PmmRuns.lean --- what the page allocator guarantees over whole runs.

  Three results about sequences of allocator calls:

  * while some index below `8 * size` is clear, allocation and release keep the
    set bits equal to the initially locked indices plus the outstanding pages;
  * once all of them are set, the search runs past the end of the bitmap, where
    `bitmap_get` answers 0 and `bitmap_set` does nothing;
  * pages handed out after `pmm_init` lie in the chosen segment exactly while the
    first clear index does, because the bitmap is sized by the whole memory map.
-/
import ChronOS.Mm.Pmm

set_option autoImplicit false

namespace ChronOS.Mm

open ChronOS.Foundation ChronOS.Ds

/-! ## Allocation while memory remains -/

/-- Some index below `8 * size` is clear. -/
def Pmm.HasFree (s : Pmm) : Prop := ∃ i < s.limit, s.taken i = false

/-- `PmmRun s₀ s out`: from `s₀` the calls made so far lead to `s`, and `out` are the pages
returned and not yet freed.  `pmm_getpage` is called only while an index is clear, and
`pmm_freepage` only on outstanding pages. -/
inductive PmmRun (s₀ : Pmm) : Pmm → List Word → Prop
  | start : PmmRun s₀ s₀ []
  | getpage {s s' : Pmm} {out : List Word} {a : Word} :
      PmmRun s₀ s out → s.HasFree → pmmGetpage s = some (a, s') → PmmRun s₀ s' (a :: out)
  | freepage {s : Pmm} {out : List Word} {a : Word} :
      PmmRun s₀ s out → a ∈ out → PmmRun s₀ (pmmFreepage a s) (out.erase a)

/-- The address of page `k` when the products do not overflow. -/
def Pmm.page (s : Pmm) (k : Nat) : Word := s.startOfMem + BitVec.ofNat 64 (0x1000 * k)

/-- The run invariant: `s` has the geometry of `s₀`, and its set bits are those of `s₀`
together with the outstanding pages, each of which was clear in `s₀`. -/
structure Accounts (s₀ s : Pmm) (out : List Word) : Prop where
  geometry : s.startOfMem = s₀.startOfMem ∧ s.limit = s₀.limit
  taken : ∀ i < s₀.limit, s.taken i = true ↔ s₀.taken i = true ∨ s₀.page i ∈ out
  fresh : ∀ a ∈ out, ∃ i < s₀.limit, s₀.page i = a ∧ s₀.taken i = false
  nodup : out.Nodup

theorem page_injective (s : Pmm) {i j : Nat} (hi : i < 2 ^ 19) (hj : j < 2 ^ 19)
    (h : s.page i = s.page j) : i = j := by
  have := congrArg BitVec.toNat ((BitVec.add_right_inj _).mp h)
  simp only [BitVec.toNat_ofNat] at this
  omega

/-- With a clear index below the limit `pmm_getpage` returns the page of the least clear
index and sets that bit only. -/
theorem pmmGetpage_least {s : Pmm} (hsize : s.limit ≤ 2 ^ 19) (hfree : s.HasFree) :
    ∃ k < s.limit, s.taken k = false ∧ (∀ i < k, s.taken i = true) ∧
      ∃ s', pmmGetpage s = some (s.page k, s') ∧ s'.startOfMem = s.startOfMem ∧
        s'.limit = s.limit ∧
        ∀ j < 2 ^ 64, s'.taken j = if j = k then true else s.taken j := by
  obtain ⟨i, hi, hclear⟩ := hfree
  obtain ⟨k, hk, hle⟩ := firstClear_exists s i (by omega) fun _ => hclear
  obtain ⟨hkclear, hlow⟩ := (firstClear_eq_some s k).mp hk
  have hklt : k.toNat < s.limit := by omega
  refine ⟨k.toNat, hklt, hkclear hklt.le, fun j hj => (hlow j hj).2, s.mark k 1, ?_, rfl, rfl, ?_⟩
  · exact pmmGetpage_eq_some.mpr ⟨k, hk, pageAddress_eq s.startOfMem (by omega), rfl⟩
  · intro j hj
    rw [taken_mark s 1 hklt.le (by omega)]
    rfl

theorem Accounts.start (s₀ : Pmm) : Accounts s₀ s₀ [] :=
  ⟨⟨rfl, rfl⟩, fun i _ => by simp, by simp, List.nodup_nil⟩

theorem Accounts.getpage {s₀ s s' : Pmm} {out : List Word} {a : Word}
    (hsize : s₀.limit ≤ 2 ^ 19) (h : Accounts s₀ s out) (hfree : s.HasFree)
    (hget : pmmGetpage s = some (a, s')) : Accounts s₀ s' (a :: out) := by
  obtain ⟨hstart, hlimit⟩ := h.geometry
  obtain ⟨k, hk, hclear, -, s'', hget', hstart', hlimit', hbits⟩ :=
    pmmGetpage_least (by omega) hfree
  rw [hget] at hget'
  obtain ⟨rfl, rfl⟩ := Prod.mk.inj (Option.some.inj hget')
  have hpage : s.page k = s₀.page k := by rw [Pmm.page, Pmm.page, hstart]
  have hnot : ¬ (s₀.taken k = true ∨ s₀.page k ∈ out) := by
    rw [← h.taken k (by omega), hclear]
    decide
  refine ⟨⟨hstart'.trans hstart, hlimit'.trans hlimit⟩, fun i hi => ?_, fun b hb => ?_, ?_⟩
  · rw [hbits i (by omega), List.mem_cons, hpage]
    by_cases hik : i = k
    · simp [hik]
    · have hne : s₀.page i ≠ s₀.page k := fun he =>
        hik (page_injective s₀ (by omega) (by omega) he)
      simp [hik, hne, h.taken i hi]
  · rcases List.mem_cons.mp hb with rfl | hb
    · exact ⟨k, by omega, hpage.symm, by simpa using fun ht => hnot (Or.inl ht)⟩
    · exact h.fresh b hb
  · exact List.nodup_cons.mpr ⟨fun hmem => hnot (Or.inr (hpage ▸ hmem)), h.nodup⟩

theorem Accounts.freepage {s₀ s : Pmm} {out : List Word} {a : Word}
    (hsize : s₀.limit ≤ 2 ^ 19) (h : Accounts s₀ s out) (ha : a ∈ out) :
    Accounts s₀ (pmmFreepage a s) (out.erase a) := by
  obtain ⟨hstart, hlimit⟩ := h.geometry
  obtain ⟨k, hk, rfl, hclear⟩ := h.fresh a ha
  have hnat : (BitVec.ofNat 32 k).toNat = k := Nat.mod_eq_of_lt (by omega)
  have hidx : pageIndex s.startOfMem (s₀.page k) = BitVec.ofNat 32 k := by
    rw [Pmm.page, ← hstart, ← hnat, ← pageAddress_eq s.startOfMem (by omega),
      pageIndex_pageAddress _ (by omega), hnat]
  refine ⟨⟨hstart, hlimit⟩, fun i hi => ?_, fun b hb => ?_, h.nodup.erase _⟩
  · rw [pmmFreepage, hidx, taken_mark s 0 (by omega) (by omega), hnat, h.nodup.mem_erase_iff]
    by_cases hik : i = k
    · simp [hik, hclear]
    · have hne : s₀.page i ≠ s₀.page k := fun he =>
        hik (page_injective s₀ (by omega) (by omega) he)
      simp [hik, hne, h.taken i hi]
  · exact h.fresh b (List.mem_of_mem_erase hb)

/-- Every run of allocation and release keeps the accounts. -/
theorem PmmRun.accounts {s₀ s : Pmm} {out : List Word} (hsize : s₀.limit ≤ 2 ^ 19)
    (hrun : PmmRun s₀ s out) : Accounts s₀ s out := by
  induction hrun with
  | start => exact .start s₀
  | getpage _ hfree hget ih => exact ih.getpage hsize hfree hget
  | freepage _ ha ih => exact ih.freepage hsize ha

/-- While memory remains no page is handed out twice: at every point of a run the set bits
are the initially locked ones and those of the outstanding pages, and the next
`pmm_getpage` returns the page of the least clear index and changes only that bit. -/
theorem pmm_allocates_each_page_once (s₀ s : Pmm) (out : List Word)
    (hsize : s₀.limit ≤ 2 ^ 19) (hrun : PmmRun s₀ s out) :
    (∀ i < s₀.limit, s.taken i = true ↔ s₀.taken i = true ∨ s₀.page i ∈ out) ∧
    out.Nodup ∧
    (s.HasFree → ∃ k < s₀.limit, s.taken k = false ∧ (∀ i < k, s.taken i = true) ∧
      ∃ s', pmmGetpage s = some (s₀.page k, s') ∧
        ∀ j < 2 ^ 64, s'.taken j = if j = k then true else s.taken j) := by
  have hacc := hrun.accounts hsize
  obtain ⟨hstart, hlimit⟩ := hacc.geometry
  refine ⟨hacc.taken, hacc.nodup, fun hfree => ?_⟩
  obtain ⟨k, hk, hclear, hlow, s', hget, -, -, hbits⟩ :=
    pmmGetpage_least (hlimit ▸ hsize) hfree
  have hpage : s.page k = s₀.page k := by rw [Pmm.page, Pmm.page, hstart]
  exact ⟨k, hlimit ▸ hk, hclear, hlow, s', hpage ▸ hget, hbits⟩

/-- One byte of bitmap at 0x100000, index 1 of it locked, in a memory of zeros. -/
def lockedPmm : Pmm where
  mem := fun a => if a = 0x100000 then 0b01000000 else 0
  pmmBitmap := ⟨0x100000, 1⟩
  startOfMem := 0x104000
  memorySizeBytes := 0x8000

theorem lockedPmm_allocates_each_page_once :
    ∃ s, PmmRun lockedPmm s [0x106000] ∧
      (∀ i < 8, s.taken i = true ↔ lockedPmm.taken i = true ∨ lockedPmm.page i ∈ [0x106000]) ∧
      ∃ s', pmmGetpage s = some (0x104000, s') := by
  have hfirst : pmmGetpage lockedPmm = some (0x104000, lockedPmm.mark 0 1) :=
    pmmGetpage_eq_some.mpr ⟨0, by decide +kernel, by decide, rfl⟩
  have hsecond : pmmGetpage (lockedPmm.mark 0 1) =
      some (0x106000, (lockedPmm.mark 0 1).mark 2 1) :=
    pmmGetpage_eq_some.mpr ⟨2, by decide +kernel, by decide, rfl⟩
  have hrun : PmmRun lockedPmm (pmmFreepage 0x104000 ((lockedPmm.mark 0 1).mark 2 1)) [0x106000] :=
    .freepage (.getpage (.getpage .start ⟨0, by decide, by decide⟩ hfirst)
      ⟨2, by decide, by decide⟩ hsecond) (by decide)
  obtain ⟨hbits, -, hnext⟩ := pmm_allocates_each_page_once lockedPmm _ _ (by decide) hrun
  obtain ⟨k, -, hclear, hlow, s', hget, -⟩ := hnext ⟨0, by decide, by decide⟩
  have hk : k = 0 := by
    by_contra hne
    exact absurd (hlow 0 (by omega)) (by decide)
  subst hk
  exact ⟨_, hrun, hbits, s', hget⟩

/-! ## Exhaustion -/

/-- The pages returned by `n` consecutive calls of `pmm_getpage`, oldest first. -/
def getpageCalls : Nat → Pmm → Option (List Word × Pmm)
  | 0, s => some ([], s)
  | n + 1, s => do
      let (a, s) ← pmmGetpage s
      let (pages, s) ← getpageCalls n s
      return (a :: pages, s)

/-- All indices below `8 * size` are set. -/
def Pmm.Exhausted (s : Pmm) : Prop := ∀ i < s.limit, s.taken i = true

/-- The address lies in the range of pages the bitmap has bits for. -/
def Pmm.Covers (s : Pmm) (a : Word) : Prop := (a - s.startOfMem).toNat < 0x1000 * s.limit

/-- However many further calls are made, none of them returns a page in `held`, a page
returned by one of the others, or a page outside the bitmap's range. -/
def RefusesReuse (s : Pmm) (held : List Word) : Prop :=
  ∀ n pages s', getpageCalls n s = some (pages, s') →
    pages.Nodup ∧ ∀ a ∈ pages, a ∉ held ∧ s.Covers a

/-- With every accepted index set the search stops at the first rejected one, which
`bitmap_set` then does not record. -/
theorem pmmGetpage_past_end {s : Pmm} (hall : ∀ i ≤ s.limit, s.taken i = true)
    (hlimit : s.limit + 1 < 2 ^ 32) :
    pmmGetpage s = some (pageAddress s.startOfMem (BitVec.ofNat 32 (s.limit + 1)), s) := by
  have hnat : (BitVec.ofNat 32 (s.limit + 1)).toNat = s.limit + 1 := Nat.mod_eq_of_lt hlimit
  refine pmmGetpage_eq_some.mpr ⟨_, (firstClear_eq_some s _).mpr ⟨?_, ?_⟩, rfl, ?_⟩
  · intro hle
    omega
  · intro i hi
    exact ⟨by omega, hall i (by omega)⟩
  · exact mark_rejected s 1 (by omega)

/-- The index `8 * size` is accepted although it is past the bitmap; after one more call
its bit is set as well. -/
theorem pmmGetpage_exhausted {s : Pmm} (hfull : s.Exhausted) (hlimit : s.limit + 1 < 2 ^ 32) :
    ∃ a s', pmmGetpage s = some (a, s') ∧ s'.limit = s.limit ∧
      ∀ i ≤ s.limit, s'.taken i = true := by
  by_cases hlast : s.taken s.limit = true
  · have hall : ∀ i ≤ s.limit, s.taken i = true := by
      intro i hi
      rcases Nat.lt_or_eq_of_le hi with hlt | heq
      · exact hfull i hlt
      · rw [heq]
        exact hlast
    exact ⟨_, s, pmmGetpage_past_end hall hlimit, rfl, hall⟩
  · have hnat : (BitVec.ofNat 32 s.limit).toNat = s.limit := Nat.mod_eq_of_lt (by omega)
    refine ⟨_, s.mark (BitVec.ofNat 32 s.limit) 1, pmmGetpage_eq_some.mpr
      ⟨_, (firstClear_eq_some s _).mpr ⟨?_, ?_⟩, rfl, rfl⟩, rfl, ?_⟩
    · intro _
      rw [hnat]
      simpa using hlast
    · intro i hi
      exact ⟨by omega, hfull i (by omega)⟩
    · intro i hi
      rw [taken_mark s 1 (by omega) (by omega), hnat]
      split
      · rfl
      · exact hfull i (by omega)

/-- A bitmap of 2^32 bits or more makes the search run forever instead. -/
theorem pmmGetpage_eq_none {s : Pmm} (hfull : s.Exhausted) (hlimit : 2 ^ 32 ≤ s.limit) :
    pmmGetpage s = none := by
  rw [Option.eq_none_iff_forall_ne_some]
  intro ⟨a, s'⟩ hget
  obtain ⟨k, hk, -, -⟩ := pmmGetpage_eq_some.mp hget
  have hlt := k.isLt
  have hclear := ((firstClear_eq_some s k).mp hk).1 (by omega)
  rw [hfull k.toNat (by omega)] at hclear
  cases hclear

/-- On an exhausted bitmap `pmm_getpage` refuses reuse only by never returning, which takes
a bitmap of at least 2^32 bits; on every smaller one three calls repeat a page. -/
theorem exhausted_refusesReuse_iff (s : Pmm) (hfull : s.Exhausted) (held : List Word) :
    RefusesReuse s held ↔ 2 ^ 32 ≤ s.limit := by
  constructor
  · intro hsafe
    by_contra hsmall
    have hmod : s.limit % 8 = 0 := by
      rw [Pmm.limit, Bitmap.limit, BitVec.toNat_mul]
      simp only [BitVec.toNat_ofNat]
      omega
    obtain ⟨a, s', hget, hlimit, hall⟩ := pmmGetpage_exhausted hfull (by omega)
    have hnext := pmmGetpage_past_end (hlimit ▸ hall) (by omega)
    have hcalls : getpageCalls 3 s =
        some ([a, pageAddress s'.startOfMem (BitVec.ofNat 32 (s'.limit + 1)),
          pageAddress s'.startOfMem (BitVec.ofNat 32 (s'.limit + 1))], s') := by
      simp [getpageCalls, hget, hnext]
    have hnodup := (hsafe 3 _ _ hcalls).1
    simp at hnodup
  · intro hlarge n pages s' hcalls
    cases n with
    | zero =>
      cases hcalls
      simp
    | succ n => simp [getpageCalls, pmmGetpage_eq_none hfull hlarge] at hcalls

/-- One byte of bitmap at 0x100000, all of it set, in front of pages from 0x104000 on. -/
def fullPmm : Pmm where
  mem := fun a => if a = 0x100000 then 0xff else 0
  pmmBitmap := ⟨0x100000, 1⟩
  startOfMem := 0x104000
  memorySizeBytes := 0x8000

theorem fullPmm_exhausted : fullPmm.Exhausted := by
  unfold Pmm.Exhausted
  decide

/-- The eight pages of `fullPmm` are taken; the next three calls return the page after
them and then twice the page after that one. -/
theorem fullPmm_reuses :
    fullPmm.Exhausted ∧
    (getpageCalls 3 fullPmm).map Prod.fst = some [0x10c000, 0x10d000, 0x10d000] ∧
    ¬ fullPmm.Covers 0x10c000 ∧ ¬ fullPmm.Covers 0x10d000 ∧ ¬ RefusesReuse fullPmm [] := by
  have hcalls : (getpageCalls 3 fullPmm).map Prod.fst =
      some [0x10c000, 0x10d000, 0x10d000] := by
    decide +kernel
  refine ⟨fullPmm_exhausted, hcalls, by unfold Pmm.Covers; decide, by unfold Pmm.Covers; decide,
    fun hsafe => ?_⟩
  obtain ⟨⟨pages, s'⟩, hrun, hpages⟩ := Option.map_eq_some_iff.mp hcalls
  have hnodup := (hsafe 3 pages s' hrun).1
  rw [show pages = [0x10c000, 0x10d000, 0x10d000] from hpages] at hnodup
  exact absurd hnodup (by decide)

/-- A bitmap of 2^32 bits in a memory of all ones. -/
def hugePmm : Pmm where
  mem := fun _ => 0xff
  pmmBitmap := ⟨0x100000, 0x20000000⟩
  startOfMem := 0x104000
  memorySizeBytes := 0x100000000000

theorem hugePmm_refusesReuse : hugePmm.Exhausted ∧ RefusesReuse hugePmm [0x104000] := by
  have hfull : hugePmm.Exhausted := by
    intro i _
    have hall : ∀ k < 8, (0xff#8).getMsbD k = true := by decide
    exact hall (i % 8) (Nat.mod_lt _ (by decide))
  exact ⟨hfull, (exhausted_refusesReuse_iff hugePmm hfull [0x104000]).mpr (by decide)⟩

/-! ## Pages and segments -/

/-- The end of a descriptor's range. -/
def Descriptor.stop (d : Descriptor) : Nat := d.physAddr.toNat + 0x1000 * d.numPages.toNat

/-- A UEFI memory map: its descriptors lie in the physical address space and do not
overlap. -/
structure MemoryMap where
  entries : List Descriptor
  bounded : ∀ d ∈ entries, d.stop ≤ 2 ^ 52
  disjoint : ∀ d ∈ entries, ∀ e ∈ entries, e ≠ d →
    d.stop ≤ e.physAddr.toNat ∨ e.stop ≤ d.physAddr.toNat

/-- The page at `a` lies wholly in the segment, past the 0x4000 bytes kept for the bitmap. -/
def Descriptor.Offers (d : Descriptor) (a : Word) : Prop :=
  d.physAddr.toNat + 0x4000 ≤ a.toNat ∧ a.toNat + 0x1000 ≤ d.stop

/-- Some byte of the page at `a` lies in the descriptor's range. -/
def Descriptor.Meets (d : Descriptor) (a : Word) : Prop :=
  d.physAddr.toNat < a.toNat + 0x1000 ∧ a.toNat < d.stop

/-- A call of the allocator's interface. -/
inductive PmmCall where
  | getpage
  | getpages (pages : BitVec 32)
  | freepage (pageaddr : Word)

namespace PmmCall

/-- The number of pages the call returns. -/
def count : PmmCall → Nat
  | .getpage => 1
  | .getpages pages => pages.toInt.toNat
  | .freepage _ => 0

/-- The pages the call returns and the state after it. -/
def exec : PmmCall → Pmm → Option (List Word × Pmm)
  | .getpage, s => do
      let (a, s) ← pmmGetpage s
      return ([a], s)
  | .getpages pages, s => do
      let (a, s) ← pmmGetpages pages s
      return ((List.range pages.toInt.toNat).map fun j => a + BitVec.ofNat 64 (0x1000 * j), s)
  | .freepage pageaddr, s => some ([], pmmFreepage pageaddr s)

/-- The first clear index, as the `int` product sees it, leaves room for the requested
pages in the segment. -/
def Fits (d : Descriptor) (c : PmmCall) (s : Pmm) : Prop :=
  c.count = 0 ∨ ∀ k, firstClear s = some k →
    k.toNat % 2 ^ 20 < 2 ^ 19 ∧ k.toNat % 2 ^ 20 + c.count + 4 ≤ d.numPages.toNat

end PmmCall

/-- The pages returned by a sequence of calls and the state after it. -/
def runPmm : List PmmCall → Pmm → Option (List Word × Pmm)
  | [], s => some ([], s)
  | c :: calls, s => do
      let (pages, s) ← c.exec s
      let (pages', s) ← runPmm calls s
      return (pages ++ pages', s)

theorem runPmm_getpage {s s₁ s' : Pmm} {a : Word} {pages : List Word} {calls : List PmmCall}
    (hget : pmmGetpage s = some (a, s₁)) (hrun : runPmm calls s₁ = some (pages, s')) :
    runPmm (.getpage :: calls) s = some (a :: pages, s') := by
  simp [runPmm, PmmCall.exec, hget, hrun]

/-- Every call of the sequence fits in the state it is made in. -/
def CallsFit (d : Descriptor) : List PmmCall → Pmm → Prop
  | [], _ => True
  | c :: calls, s =>
      c.Fits d s ∧ ∀ pages s', c.exec s = some (pages, s') → CallsFit d calls s'

/-- The pages from index `k` on lie in the segment exactly when the index does not overflow
and the last of them ends before the segment does. -/
theorem offers_pages_iff {d : Descriptor} (hbound : d.stop ≤ 2 ^ 52) (k : BitVec 32) {n : Nat}
    (hpos : 0 < n) (hn : n < 2 ^ 31) :
    (∀ j < n, d.Offers (pageAddress (d.physAddr + 0x4000#64) k + BitVec.ofNat 64 (0x1000 * j))) ↔
      k.toNat % 2 ^ 20 < 2 ^ 19 ∧ k.toNat % 2 ^ 20 + n + 4 ≤ d.numPages.toNat := by
  have hoff := toNat_pageOffset k
  have haddr : ∀ j < n, (pageAddress (d.physAddr + 0x4000#64) k +
      BitVec.ofNat 64 (0x1000 * j)).toNat =
      (d.physAddr.toNat + 0x4000 + ((0x1000#32 * k).signExtend 64).toNat + 0x1000 * j) % 2 ^ 64 := by
    intro j _
    simp only [pageAddress, BitVec.toNat_add, BitVec.toNat_ofNat]
    omega
  unfold Descriptor.stop at hbound
  unfold Descriptor.Offers Descriptor.stop
  by_cases hsmall : k.toNat % 2 ^ 20 < 2 ^ 19
  · rw [if_pos hsmall] at hoff
    constructor
    · intro hall
      have hlast := hall (n - 1) (by omega)
      rw [haddr (n - 1) (by omega), hoff] at hlast
      omega
    · intro ⟨_, hroom⟩ j hj
      rw [haddr j hj, hoff]
      omega
  · -- A negative offset leaves the segment downwards, or wraps past every physical address.
    rw [if_neg hsmall] at hoff
    constructor
    · intro hall
      have hfirst := hall 0 hpos
      rw [haddr 0 hpos, hoff] at hfirst
      omega
    · intro ⟨h, _⟩
      exact absurd h hsmall

/-- One call: its pages lie in the segment exactly when it fits. -/
theorem PmmCall.exec_offers_iff {d : Descriptor} (hbound : d.stop ≤ 2 ^ 52) (c : PmmCall)
    {s s' : Pmm} {pages : List Word} (hstart : s.startOfMem = d.physAddr + 0x4000#64)
    (hexec : c.exec s = some (pages, s')) :
    s'.startOfMem = d.physAddr + 0x4000#64 ∧ ((∀ a ∈ pages, d.Offers a) ↔ c.Fits d s) := by
  cases c with
  | getpage =>
    simp only [exec, Option.bind_eq_bind, Option.bind_eq_some_iff, Option.pure_def,
      Option.some.injEq, Prod.mk.injEq, Prod.exists, pmmGetpage_eq_some] at hexec
    obtain ⟨a, s₁, ⟨k, hk, rfl, rfl⟩, rfl, rfl⟩ := hexec
    refine ⟨hstart, ?_⟩
    have := offers_pages_iff hbound k Nat.one_pos (by decide)
    simpa [Fits, count, hk, hstart] using this
  | getpages pages' =>
    simp only [exec, Option.bind_eq_bind, Option.bind_eq_some_iff, Option.pure_def,
      Option.some.injEq, Prod.mk.injEq, Prod.exists, pmmGetpages_eq_some] at hexec
    obtain ⟨a, s₁, ⟨k, hk, rfl, rfl⟩, rfl, rfl⟩ := hexec
    refine ⟨by simpa using hstart, ?_⟩
    by_cases hzero : pages'.toInt.toNat = 0
    · simp [Fits, count, hzero]
    · have hlt : pages'.toInt.toNat < 2 ^ 31 := by
        have := @BitVec.toInt_lt 32 pages'
        omega
      have := offers_pages_iff hbound k (Nat.pos_of_ne_zero hzero) hlt
      simpa [Fits, count, hk, hstart, hzero] using this
  | freepage pageaddr =>
    cases hexec
    exact ⟨hstart, by simp [Fits, count]⟩

/-- Whole runs: every page lies in the segment exactly when every call fits. -/
theorem runPmm_offers_iff {d : Descriptor} (hbound : d.stop ≤ 2 ^ 52) :
    ∀ (calls : List PmmCall) {s s' : Pmm} {pages : List Word},
      s.startOfMem = d.physAddr + 0x4000#64 → runPmm calls s = some (pages, s') →
      ((∀ a ∈ pages, d.Offers a) ↔ CallsFit d calls s) := by
  intro calls
  induction calls with
  | nil =>
    intro s s' pages _ hrun
    cases hrun
    simp [CallsFit]
  | cons c calls ih =>
    intro s s' pages hstart hrun
    simp only [runPmm, Option.bind_eq_bind, Option.bind_eq_some_iff, Option.pure_def,
      Option.some.injEq, Prod.mk.injEq, Prod.exists] at hrun
    obtain ⟨pages₁, s₁, hexec, pages₂, s₂, hrest, rfl, rfl⟩ := hrun
    obtain ⟨hstart₁, hfits⟩ := c.exec_offers_iff hbound hstart hexec
    simp only [CallsFit, List.forall_mem_append, hfits, ih hstart₁ hrest, hexec,
      Option.some.injEq, Prod.mk.injEq, and_imp]
    constructor
    · rintro ⟨hc, hcalls⟩
      exact ⟨hc, fun _ _ _ heq => heq ▸ hcalls⟩
    · rintro ⟨hc, hcalls⟩
      exact ⟨hc, hcalls _ _ rfl rfl⟩

/-! ## After `pmm_init` -/

/-- The descriptor whose segment `pmm_init` settles on. -/
def chosenDescriptor (mmap : List Descriptor) (s : Pmm) : Option Descriptor :=
  (scanSegments mmap s).desc

/-- What the scan holds right after it has taken over the descriptor `d`. -/
def Scan.taking (d : Descriptor) : Scan where
  largestFreeMemSeg := d.physAddr + 0x4000#64
  largestFreeMemSegSize := d.numPages * 0x1000#64 - 0x4000#64
  bitmap := d.physAddr
  desc := some d

/-- The scan takes over a descriptor that is conventional and larger than the size recorded. -/
theorem Scan.step_taken {acc : Scan} {d : Descriptor} (htype : d.type = efiConventionalMemory)
    (hsize : acc.largestFreeMemSegSize < d.numPages * 0x1000#64) :
    acc.step d = Scan.taking d := by
  unfold Scan.step Scan.taking
  rw [if_pos htype, if_pos hsize]
  simp only [BitVec.add_sub_cancel]

theorem Scan.step_kept {acc : Scan} {d : Descriptor}
    (h : d.type = efiConventionalMemory →
      d.numPages * 0x1000#64 ≤ acc.largestFreeMemSegSize) : acc.step d = acc := by
  unfold Scan.step
  by_cases htype : d.type = efiConventionalMemory
  · rw [if_pos htype, if_neg (BitVec.not_lt.mpr (h htype))]
  · rw [if_neg htype]

theorem Scan.foldl_kept {acc : Scan} :
    ∀ {rest : List Descriptor}, (∀ e ∈ rest, e.type = efiConventionalMemory →
      e.numPages * 0x1000#64 ≤ acc.largestFreeMemSegSize) → rest.foldl Scan.step acc = acc := by
  intro rest
  induction rest with
  | nil => intro _; rfl
  | cons e rest ih =>
    intro h
    rw [List.foldl_cons, Scan.step_kept (h e List.mem_cons_self)]
    exact ih fun x hx => h x (List.mem_cons_of_mem _ hx)

/-- A scan ends with the last descriptor it has taken over, or has taken over none. -/
theorem Scan.foldl_last_taken (acc : Scan) (rest : List Descriptor) :
    (∀ e ∈ rest, e.type = efiConventionalMemory →
      e.numPages * 0x1000#64 ≤ acc.largestFreeMemSegSize) ∨
    ∃ before d after, rest = before ++ d :: after ∧ d.type = efiConventionalMemory ∧
      (before.foldl Scan.step acc).largestFreeMemSegSize < d.numPages * 0x1000#64 ∧
      rest.foldl Scan.step acc = Scan.taking d ∧
      ∀ e ∈ after, e.type = efiConventionalMemory →
        e.numPages * 0x1000#64 ≤ (Scan.taking d).largestFreeMemSegSize := by
  induction rest using List.reverseRecOn with
  | nil => exact Or.inl (by simp)
  | append_singleton rest e ih =>
    rw [List.foldl_append, List.foldl_cons, List.foldl_nil]
    by_cases htake : e.type = efiConventionalMemory ∧
        (rest.foldl Scan.step acc).largestFreeMemSegSize < e.numPages * 0x1000#64
    · exact Or.inr ⟨rest, e, [], rfl, htake.1, htake.2, Scan.step_taken htake.1 htake.2, by simp⟩
    · have hkeep : e.type = efiConventionalMemory →
          e.numPages * 0x1000#64 ≤ (rest.foldl Scan.step acc).largestFreeMemSegSize :=
        fun htype => BitVec.not_lt.mp fun hlt => htake ⟨htype, hlt⟩
      rw [Scan.step_kept hkeep]
      rcases ih with hnone | ⟨before, d, after, rfl, htype, hlt, hfold, hafter⟩
      · rw [Scan.foldl_kept hnone] at hkeep
        exact Or.inl fun x hx => (List.mem_append.mp hx).elim (hnone x)
          fun hx => List.mem_singleton.mp hx ▸ hkeep
      · rw [hfold] at hkeep
        refine Or.inr ⟨before, d, after ++ [e], by simp, htype, hlt, hfold, fun x hx => ?_⟩
        exact (List.mem_append.mp hx).elim (hafter x) fun hx => List.mem_singleton.mp hx ▸ hkeep

theorem chosenDescriptor_eq_some {mmap : List Descriptor} {s : Pmm} {d : Descriptor}
    (h : chosenDescriptor mmap s = some d) :
    d ∈ mmap ∧ d.type = efiConventionalMemory ∧ d.numPages * 0x1000#64 ≠ 0#64 ∧
      scanSegments mmap s = Scan.taking d := by
  unfold chosenDescriptor scanSegments at h
  rcases Scan.foldl_last_taken ⟨0, 0, s.pmmBitmap.bitmap, none⟩ mmap with
    hnone | ⟨before, e, after, rfl, htype, hlt, hfold, -⟩
  · rw [Scan.foldl_kept hnone] at h
    cases h
  · rw [hfold] at h
    obtain rfl : e = d := Option.some.inj h
    refine ⟨by simp, htype, fun hzero => ?_, hfold⟩
    rw [hzero] at hlt
    exact BitVec.not_lt_zero hlt

/-- A map with a conventional descriptor that is not empty has a chosen descriptor. -/
theorem chosenDescriptor_exists {mmap : List Descriptor} (s : Pmm)
    (h : ∃ e ∈ mmap, e.type = efiConventionalMemory ∧ e.numPages * 0x1000#64 ≠ 0#64) :
    ∃ d, chosenDescriptor mmap s = some d := by
  obtain ⟨e, he, htype, hsize⟩ := h
  rcases Scan.foldl_last_taken ⟨0, 0, s.pmmBitmap.bitmap, none⟩ mmap with
    hnone | ⟨_, d, _, -, -, -, hfold, -⟩
  · exact absurd (BitVec.le_zero_iff.mp (hnone e he htype)) hsize
  · exact ⟨d, congrArg Scan.desc hfold⟩

/-- A map with a conventional descriptor of more than four pages has a chosen descriptor. -/
theorem MemoryMap.chosenDescriptor_exists (map : MemoryMap) (s : Pmm)
    (hbig : ∃ d ∈ map.entries, d.type = efiConventionalMemory ∧ 4 < d.numPages.toNat) :
    ∃ d, chosenDescriptor map.entries s = some d := by
  obtain ⟨d, hd, htype, hpages⟩ := hbig
  have hbound := map.bounded d hd
  unfold Descriptor.stop at hbound
  refine Mm.chosenDescriptor_exists s ⟨d, hd, htype, fun hzero => ?_⟩
  have hnat := congrArg BitVec.toNat hzero
  simp only [BitVec.toNat_mul, BitVec.toNat_ofNat, Nat.reducePow, Nat.reduceMod] at hnat
  omega

/-- The state of `pmm_init` when the bitmap is in place and nothing is locked yet. -/
def clearedPmm (mmap : List Descriptor) (s : Pmm) : Pmm where
  mem := memset s.mem (scanSegments mmap s).bitmap 0 0x4000
  pmmBitmap :=
    { bitmap := (scanSegments mmap s).bitmap
      size := getMemSize mmap s.memorySizeBytes / 4096#64 / 8#64 + 1#64 }
  startOfMem := (scanSegments mmap s).largestFreeMemSeg
  memorySizeBytes := getMemSize mmap s.memorySizeBytes

theorem pmmInit_eq (kernStart kernEnd : Word) (mmap : List Descriptor) (s : Pmm) :
    pmmInit kernStart kernEnd mmap s =
      if (clearedPmm mmap s).startOfMem < kernStart then
        pmmLockpages kernStart (((kernEnd - kernStart) / 0x1000#64 + 1#64).setWidth 32)
          (clearedPmm mmap s)
      else clearedPmm mmap s := rfl

/-- Nothing is locked when the kernel lies below the segment. -/
theorem pmmInit_eq_cleared {kernStart kernEnd : Word} {mmap : List Descriptor} {s : Pmm}
    (hkern : ¬ (scanSegments mmap s).largestFreeMemSeg < kernStart) :
    pmmInit kernStart kernEnd mmap s = clearedPmm mmap s := if_neg hkern

theorem clearedPmm_taken (mmap : List Descriptor) (s : Pmm) {i : Nat} (hi : i < 0x20000) :
    (clearedPmm mmap s).taken i = false := by
  have hbyte : memset s.mem (scanSegments mmap s).bitmap 0 0x4000
      ((scanSegments mmap s).bitmap + BitVec.ofNat 64 (i / 8)) = 0 := by
    rw [memset_apply _ _ _ _ _ (by decide)]
    refine if_pos ?_
    rw [toNat_offset _ (by omega)]
    omega
  simp only [clearedPmm, Pmm.taken, bitAt, hbyte]
  rw [getMsbD_byte]
  exact BitVec.getLsbD_zero

theorem pmmInit_startOfMem (kernStart kernEnd : Word) (mmap : List Descriptor) (s : Pmm) :
    (pmmInit kernStart kernEnd mmap s).startOfMem = (scanSegments mmap s).largestFreeMemSeg := by
  rw [pmmInit_eq]
  split
  · exact markFrom_startOfMem _ _ _
  · rfl

/-- A page of the chosen segment meets no other descriptor of the map. -/
theorem MemoryMap.not_meets (map : MemoryMap) {d e : Descriptor} {a : Word}
    (hd : d ∈ map.entries) (he : e ∈ map.entries) (hne : e ≠ d) (ha : d.Offers a) :
    ¬ e.Meets a := by
  intro hmeets
  obtain ⟨hlow, hhigh⟩ := ha
  obtain ⟨hlow', hhigh'⟩ := hmeets
  have hsep := map.disjoint d hd e he hne
  omega

/-- Pages handed out after `pmm_init` are pages of the chosen segment, and of no other
descriptor, exactly as long as every call fits: the first clear index, taken modulo 2^20,
is below 2^19 and leaves room for the requested pages in the segment. -/
theorem returned_pages_in_segment_iff (map : MemoryMap) (kernStart kernEnd : Word) (s : Pmm)
    (hbig : ∃ d ∈ map.entries, d.type = efiConventionalMemory ∧ 4 < d.numPages.toNat) :
    ∃ d ∈ map.entries, chosenDescriptor map.entries s = some d ∧
      d.type = efiConventionalMemory ∧
      ∀ calls pages s', runPmm calls (pmmInit kernStart kernEnd map.entries s) = some (pages, s') →
        ((∀ a ∈ pages, d.Offers a ∧ ∀ e ∈ map.entries, e ≠ d → ¬ e.Meets a) ↔
          CallsFit d calls (pmmInit kernStart kernEnd map.entries s)) := by
  obtain ⟨d, hchosen⟩ := map.chosenDescriptor_exists s hbig
  obtain ⟨hd, htype, -, hscan⟩ := chosenDescriptor_eq_some hchosen
  refine ⟨d, hd, hchosen, htype, fun calls pages s' hrun => ?_⟩
  have hstart := (pmmInit_startOfMem kernStart kernEnd map.entries s).trans
    (congrArg Scan.largestFreeMemSeg hscan)
  rw [← runPmm_offers_iff (map.bounded d hd) calls hstart hrun]
  constructor
  · intro hpages a ha
    exact (hpages a ha).1
  · intro hpages a ha
    exact ⟨hpages a ha, fun e he hne => map.not_meets hd he hne (hpages a ha)⟩

theorem pmmInit_taken {kernStart kernEnd : Word} {mmap : List Descriptor} {s : Pmm}
    (hkern : ¬ (scanSegments mmap s).largestFreeMemSeg < kernStart) {i : Nat}
    (hi : i < 0x20000) : (pmmInit kernStart kernEnd mmap s).taken i = false := by
  rw [pmmInit_eq_cleared hkern]
  exact clearedPmm_taken mmap s hi

/-- The kernel image, five conventional pages, and sixteen reserved ones after them. -/
def smallMap : MemoryMap where
  entries := [⟨2, 0x100000, 0x40⟩, ⟨7, 0x200000, 5⟩, ⟨0, 0x205000, 16⟩]
  bounded := by unfold Descriptor.stop; decide
  disjoint := by unfold Descriptor.stop; decide

/-- The globals before `pmm_init`. -/
def bootPmm : Pmm := ⟨fun _ => 0, ⟨0, 0⟩, 0, 0⟩

/-- The allocator on `smallMap`, with the kernel below the segment. -/
def smallPmm : Pmm := pmmInit 0x100000 0x140000 smallMap.entries bootPmm

/-- The first two pages handed out on `smallMap`. -/
theorem smallMap_getpage :
    firstClear smallPmm = some 0#32 ∧
    pmmGetpage smallPmm = some (0x204000#64, smallPmm.mark 0#32 1#8) ∧
    pmmGetpage (smallPmm.mark 0#32 1#8) =
      some (0x205000#64, (smallPmm.mark 0#32 1#8).mark 1#32 1#8) := by
  have hkern : ¬ (scanSegments smallMap.entries bootPmm).largestFreeMemSeg < 0x100000 := by decide
  have hstart : smallPmm.startOfMem = 0x204000 :=
    pmmInit_startOfMem 0x100000 0x140000 smallMap.entries bootPmm
  have hclear : ∀ i < 0x20000, smallPmm.taken i = false :=
    fun i hi => pmmInit_taken hkern hi
  have hmark : ∀ i < 0x20000, (smallPmm.mark 0#32 1#8).taken i =
      if i = 0 then true else false := by
    intro i hi
    have hle : (0#32).toNat ≤ smallPmm.limit := Nat.zero_le _
    rw [taken_mark smallPmm 1#8 hle (by omega), hclear i hi]
    rfl
  have hfirst := (firstClear_eq_some smallPmm 0#32).mpr
    ⟨fun _ => hclear 0 (by decide), by simp⟩
  refine ⟨hfirst, pmmGetpage_eq_some.mpr ⟨0#32, hfirst, by rw [hstart]; decide, rfl⟩,
    pmmGetpage_eq_some.mpr ⟨1#32, (firstClear_eq_some _ _).mpr ⟨?_, ?_⟩,
      by rw [mark_startOfMem, hstart]; decide, rfl⟩⟩
  · intro _
    exact (hmark 1 (by decide)).trans rfl
  · intro i hi
    have hzero : i = 0 := Nat.lt_one_iff.mp hi
    subst hzero
    exact ⟨Nat.zero_le _, (hmark 0 (by decide)).trans rfl⟩

/-- On `smallMap` the second page handed out is the first page of the reserved
descriptor. -/
theorem smallMap_hands_out_reserved :
    chosenDescriptor smallMap.entries bootPmm = some ⟨7, 0x200000, 5⟩ ∧
    (∃ s', runPmm [.getpage, .getpage] smallPmm = some ([0x204000, 0x205000], s')) ∧
    ¬ (⟨7, 0x200000, 5⟩ : Descriptor).Offers 0x205000 ∧
    (⟨0, 0x205000, 16⟩ : Descriptor).Meets 0x205000 := by
  obtain ⟨-, hfirst, hsecond⟩ := smallMap_getpage
  exact ⟨rfl, ⟨_, runPmm_getpage hfirst (runPmm_getpage hsecond rfl)⟩,
    by unfold Descriptor.Offers; decide, by unfold Descriptor.Meets; decide⟩

/-- The first page handed out on `smallMap` is one of its conventional pages. -/
theorem smallMap_first_page_in_segment :
    ∃ d ∈ smallMap.entries, chosenDescriptor smallMap.entries bootPmm = some d ∧
      (∃ s', runPmm [.getpage] smallPmm = some ([0x204000], s')) ∧
      d.Offers 0x204000 ∧ ∀ e ∈ smallMap.entries, e ≠ d → ¬ e.Meets 0x204000 := by
  obtain ⟨d, hd, hchosen, -, hruns⟩ := returned_pages_in_segment_iff smallMap 0x100000 0x140000
    bootPmm ⟨⟨7, 0x200000, 5⟩, by decide, by decide, by decide⟩
  obtain ⟨hclear, hfirst, -⟩ := smallMap_getpage
  have hrun : runPmm [.getpage] smallPmm = some ([0x204000], smallPmm.mark 0#32 1#8) :=
    runPmm_getpage hfirst rfl
  have hd5 : d = ⟨7, 0x200000, 5⟩ := (Option.some.inj hchosen).symm
  have hfit : CallsFit d [.getpage] smallPmm := by
    refine ⟨Or.inr fun k hk => ?_, fun _ _ _ => trivial⟩
    rw [hclear] at hk
    rw [← Option.some.inj hk, hd5]
    decide
  exact ⟨d, hd, hchosen, ⟨_, hrun⟩, (hruns _ _ _ hrun).mpr hfit 0x204000 (by simp)⟩

end ChronOS.Mm
