/-
  Mm/PmmContiguity.lean --- blocks that are taken page by page.

  `heap_init` takes the heap's region with 512 calls of `pmm_getpage`, and
  `dev_e1000_init_rx` takes each receive buffer with three; both then use the
  pages as one block and check nothing.  That they are one block follows from an
  invariant of every earlier allocation: as long as nothing is freed, the set
  bits of the bitmap are those below some index.

  The invariant starts with an empty bitmap.  `pmm_init` clears 0x4000 bytes, which
  is the whole bitmap up to 2^17 pages of memory; for a larger one the rest holds
  whatever was in memory, and `contiguous_blocks_iff` says that this is the only
  way to lose it.
-/
import ChronOS.Drivers.E1000
import ChronOS.Mm.PmmSegments
import ChronOS.Shmall.Heap

set_option autoImplicit false

namespace ChronOS.Mm

open ChronOS.Foundation ChronOS.Ds ChronOS.Drivers ChronOS.Shmall

/-! ## Runs without a release -/

/-- The states reached by `pmm_getpage` and `pmm_getpages`, each called while an index is
clear. -/
inductive AllocRun (s₀ : Pmm) : Pmm → Prop
  | start : AllocRun s₀ s₀
  | getpage {s s' : Pmm} {a : Word} :
      AllocRun s₀ s → s.HasFree → pmmGetpage s = some (a, s') → AllocRun s₀ s'
  | getpages {s s' : Pmm} {a : Word} {pages : BitVec 32} :
      AllocRun s₀ s → s.HasFree → 1 ≤ pages.toInt → pmmGetpages pages s = some (a, s') →
      AllocRun s₀ s'

/-- The set bits of the bitmap are those below `k`. -/
structure Pmm.TakenBelow (s : Pmm) (k : Nat) : Prop where
  le : k ≤ s.limit
  iff : ∀ i < s.limit, s.taken i = true ↔ i < k

variable {s s' : Pmm} {k : Nat}

theorem Pmm.TakenBelow.hasFree_iff (h : s.TakenBelow k) : s.HasFree ↔ k < s.limit := by
  constructor
  · rintro ⟨i, hi, hclear⟩
    have hnot : ¬ i < k := fun hlt => by
      rw [(h.iff i hi).mpr hlt] at hclear
      cases hclear
    omega
  · intro hlt
    refine ⟨k, hlt, ?_⟩
    rw [← Bool.not_eq_true, h.iff k hlt]
    exact Nat.lt_irrefl k

theorem Pmm.TakenBelow.eq_zero (h : s.TakenBelow k) (hfirst : s.taken 0 = false) : k = 0 := by
  by_contra hne
  have htaken := (h.iff 0 (by have := h.le; omega)).mpr (by omega)
  rw [hfirst] at htaken
  cases htaken

/-- The search stops at the first clear index. -/
theorem Pmm.TakenBelow.firstClear (h : s.TakenBelow k) (hk : k < s.limit)
    (hsize : s.limit ≤ 2 ^ 19) : firstClear s = some (BitVec.ofNat 32 k) := by
  have hnat : (BitVec.ofNat 32 k).toNat = k := Nat.mod_eq_of_lt (by omega)
  rw [firstClear_eq_some, hnat]
  refine ⟨fun _ => ?_, fun i hi => ⟨by omega, (h.iff i (by omega)).mpr hi⟩⟩
  rw [← Bool.not_eq_true, h.iff k hk]
  exact Nat.lt_irrefl k

/-- Marking a block that starts at the first clear index; what lies past the end of the
bitmap leaves no trace below it. -/
theorem Pmm.TakenBelow.taken_markFrom (h : s.TakenBelow k) (hk : k < s.limit)
    (hsize : s.limit ≤ 2 ^ 19) {n : Nat} (hn : n < 2 ^ 31) {i : Nat} (hi : i < s.limit) :
    (s.markFrom (BitVec.ofNat 32 k) n).taken i = true ↔ i < k + n := by
  induction n with
  | zero => exact h.iff i hi
  | succ n ih =>
    have hold := ih (by omega)
    have hlimit : (s.markFrom (BitVec.ofNat 32 k) n).limit = s.limit :=
      congrArg Bitmap.limit (markFrom_pmmBitmap _ _ _)
    have hnat : (BitVec.ofNat 32 k + BitVec.ofNat 32 n).toNat = k + n := by
      rw [toNat_add_ofNat _ (by simp only [BitVec.toNat_ofNat]; omega), BitVec.toNat_ofNat,
        Nat.mod_eq_of_lt (by omega)]
    rw [Pmm.markFrom]
    by_cases hin : k + n ≤ s.limit
    · rw [taken_mark _ 1 (by omega) (by omega), hnat]
      split_ifs with heq
      · exact iff_of_true (by decide) (by omega)
      · rw [hold]
        omega
    · rw [mark_rejected _ 1 (by omega), hold]
      omega

theorem Pmm.TakenBelow.markFrom (h : s.TakenBelow k) (hk : k < s.limit) (hsize : s.limit ≤ 2 ^ 19)
    {n : Nat} (hn : n < 2 ^ 31) :
    (s.markFrom (BitVec.ofNat 32 k) n).TakenBelow (min (k + n) s.limit) := by
  have hlimit : (s.markFrom (BitVec.ofNat 32 k) n).limit = s.limit :=
    congrArg Bitmap.limit (markFrom_pmmBitmap _ _ _)
  refine ⟨hlimit ▸ Nat.min_le_right _ _, fun i hi => ?_⟩
  rw [hlimit] at hi
  rw [h.taken_markFrom hk hsize hn hi, Nat.lt_min, and_iff_left hi]

/-- `pmm_getpage` extends the set bits by one. -/
theorem Pmm.TakenBelow.getpage (h : s.TakenBelow k) (hk : k < s.limit) (hsize : s.limit ≤ 2 ^ 19) :
    ∃ s', pmmGetpage s = some (s.page k, s') ∧ s'.TakenBelow (k + 1) ∧
      s'.pmmBitmap = s.pmmBitmap ∧ s'.startOfMem = s.startOfMem := by
  have hnat : (BitVec.ofNat 32 k).toNat = k := Nat.mod_eq_of_lt (by omega)
  have hmark : s.markFrom (BitVec.ofNat 32 k) 1 = s.mark (BitVec.ofNat 32 k) 1 :=
    congrArg (s.mark · 1) (BitVec.add_zero _)
  have hbelow := h.markFrom hk hsize (n := 1) (by decide)
  rw [hmark, Nat.min_eq_left hk] at hbelow
  refine ⟨_, pmmGetpage_eq_some.mpr ⟨_, h.firstClear hk hsize, ?_, rfl⟩, hbelow, rfl, rfl⟩
  rw [pageAddress_eq _ (by omega), hnat, Pmm.page]

/-- Every run keeps the bits below some index set and no other. -/
theorem AllocRun.takenBelow {s₀ : Pmm} (h₀ : s₀.TakenBelow 0) (hsize : s₀.limit ≤ 2 ^ 19)
    (hrun : AllocRun s₀ s) :
    (∃ k, s.TakenBelow k) ∧ s.pmmBitmap = s₀.pmmBitmap ∧ s.startOfMem = s₀.startOfMem := by
  induction hrun with
  | start => exact ⟨⟨0, h₀⟩, rfl, rfl⟩
  | getpage _ hfree hget ih =>
    obtain ⟨⟨k, hk⟩, hbitmap, hstart⟩ := ih
    obtain ⟨s₁, hget₁, hbelow, hbitmap₁, hstart₁⟩ :=
      hk.getpage (hk.hasFree_iff.mp hfree) (by rw [Pmm.limit, hbitmap]; exact hsize)
    obtain ⟨-, rfl⟩ := Prod.mk.inj (Option.some.inj (hget.symm.trans hget₁))
    exact ⟨⟨_, hbelow⟩, hbitmap₁.trans hbitmap, hstart₁.trans hstart⟩
  | @getpages s s' a pages _ hfree _ hget ih =>
    obtain ⟨⟨k, hk⟩, hbitmap, hstart⟩ := ih
    have hlt := hk.hasFree_iff.mp hfree
    have hsize' : s.limit ≤ 2 ^ 19 := by rw [Pmm.limit, hbitmap]; exact hsize
    obtain ⟨k', hfirst, -, rfl⟩ := pmmGetpages_eq_some.mp hget
    obtain rfl := Option.some.inj ((hk.firstClear hlt hsize').symm.trans hfirst)
    have hcount : pages.toInt.toNat < 2 ^ 31 := by
      have := BitVec.toInt_lt (x := pages)
      omega
    refine ⟨⟨_, hk.markFrom hlt hsize' hcount⟩, ?_, ?_⟩
    · rw [markFrom_pmmBitmap, hbitmap]
    · rw [markFrom_startOfMem, hstart]

/-! ## Consecutive calls -/

/-- The number of clear bits. -/
def Pmm.clearBits (s : Pmm) : Nat := Nat.count (fun i => s.taken i = false) s.limit

theorem Pmm.TakenBelow.clearBits (h : s.TakenBelow k) : k + s.clearBits = s.limit := by
  obtain ⟨n, hn⟩ := Nat.exists_eq_add_of_le h.le
  have hlow : Nat.count (fun i => s.taken i = false) k = 0 := by
    refine Nat.count_iff_forall_not.mpr fun i hi => ?_
    rw [(h.iff i (by omega)).mpr hi]
    decide
  have hhigh : Nat.count (fun i => s.taken (k + i) = false) n = n := by
    refine Nat.count_iff_forall.mpr fun i hi => ?_
    rw [← Bool.not_eq_true, h.iff (k + i) (by omega)]
    omega
  rw [Pmm.clearBits, hn, Nat.count_add, hlow, hhigh, Nat.zero_add]

theorem page_add (s : Pmm) (k i : Nat) :
    s.page (k + i) = s.page k + BitVec.ofNat 64 (0x1000 * i) := by
  rw [Pmm.page, Pmm.page, Nat.mul_add, BitVec.ofNat_add, BitVec.add_assoc]

theorem page_congr (hstart : s'.startOfMem = s.startOfMem) (k : Nat) : s'.page k = s.page k := by
  rw [Pmm.page, Pmm.page, hstart]

theorem getpageCalls_add {m n : Nat} {s s₁ s₂ : Pmm} {ps qs : List Word}
    (h₁ : getpageCalls m s = some (ps, s₁)) (h₂ : getpageCalls n s₁ = some (qs, s₂)) :
    getpageCalls (m + n) s = some (ps ++ qs, s₂) := by
  induction m generalizing s ps with
  | zero =>
    cases h₁
    rwa [Nat.zero_add, List.nil_append]
  | succ m ih =>
    simp only [getpageCalls, Option.bind_eq_bind, Option.bind_eq_some_iff, Prod.exists,
      Option.pure_def, Option.some.injEq, Prod.mk.injEq] at h₁
    obtain ⟨a, t, hget, rest, _, hrest, rfl, rfl⟩ := h₁
    rw [Nat.succ_add]
    simp [getpageCalls, hget, ih hrest]

/-- While enough bits are clear, calls of `pmm_getpage` return pages in a row. -/
theorem Pmm.TakenBelow.getpageCalls (h : s.TakenBelow k) (hsize : s.limit ≤ 2 ^ 19) {n : Nat}
    (hn : k + n ≤ s.limit) :
    ∃ s', getpageCalls n s = some (consecutive n (s.page k), s') ∧ s'.TakenBelow (k + n) ∧
      s'.pmmBitmap = s.pmmBitmap ∧ s'.startOfMem = s.startOfMem := by
  induction n with
  | zero => exact ⟨s, rfl, h, rfl, rfl⟩
  | succ n ih =>
    obtain ⟨s₁, hcalls, hbelow, hbitmap, hstart⟩ := ih (by omega)
    have hlimit : s₁.limit = s.limit := congrArg Bitmap.limit hbitmap
    obtain ⟨s₂, hget, hbelow₂, hbitmap₂, hstart₂⟩ := hbelow.getpage (by omega) (by omega)
    have hpage : s₁.page (k + n) = s.page k + BitVec.ofNat 64 (0x1000 * n) := by
      rw [page_congr hstart, page_add]
    have hlast : Mm.getpageCalls 1 s₁ = some ([s.page k + BitVec.ofNat 64 (0x1000 * n)], s₂) := by
      simp [Mm.getpageCalls, hget, hpage]
    refine ⟨s₂, ?_, hbelow₂, hbitmap₂.trans hbitmap, hstart₂.trans hstart⟩
    rw [getpageCalls_add hcalls hlast, consecutive_concat]

/-! ## The region of the heap -/

/-- The physical allocator as a source of pages; it works on the memory it is called with. -/
def pmmSource : PageSource Pmm where
  getpage p m := (pmmGetpage { p with mem := m }).map fun r => (r.1, r.2, r.2.mem)

theorem pmmSource_getpage {m : Mem} {a : Word} (h : pmmGetpage { s with mem := m } = some (a, s')) :
    pmmSource.getpage s m = some (a, s', s'.mem) := by
  simp only [pmmSource, h, Option.map_some]

theorem takePages_pmmSource (n : Nat) (s : Pmm) :
    takePages pmmSource n ⟨s.mem, s⟩ =
      (getpageCalls n s).map fun r => (r.1, ⟨r.2.mem, r.2⟩) := by
  induction n generalizing s with
  | zero => rfl
  | succ n ih =>
    cases hget : pmmGetpage s with
    | none => simp [takePages, getpageCalls, pmmSource, hget]
    | some r =>
      have hrest := ih r.2
      cases hcalls : getpageCalls n r.2 <;>
        simp_all [takePages, getpageCalls, pmmSource]

/-- Clearing memory away from the bytes of the set bits keeps the bitmap: whatever bits it
meets are clear. -/
theorem Pmm.TakenBelow.memset (h : s.TakenBelow k) {base : Word} {n : Nat} (hn : n ≤ 2 ^ 64)
    (hfar : ∀ i < k, n ≤ (s.pmmBitmap.bitmap + BitVec.ofNat 64 (i / 8) - base).toNat) :
    ({ s with mem := Foundation.memset s.mem base 0 n } : Pmm).TakenBelow k := by
  refine ⟨h.le, fun i hi => ?_⟩
  rw [← h.iff i hi]
  simp only [Pmm.taken, bitAt, memset_apply _ _ _ _ _ hn]
  split_ifs with hin
  · have hnot : ¬ i < k := fun hlt => by
      have := hfar i hlt
      omega
    have hclear : ¬ s.taken i = true := fun ht => hnot ((h.iff i hi).mp ht)
    refine iff_of_false ?_ hclear
    rw [getMsbD_byte]
    simp
  · exact Iff.rfl

/-- The pages handed out lie past the bytes of the bits that are set for them. -/
theorem bitmap_byte_far {bitmap : Word} {i j k n : Nat} (hi : i < k) (hk : k ≤ 0x20000 + 0x8000 * j)
    (hj : j < 2 ^ 19) (hn : n ≤ 0x200000) :
    n ≤ (bitmap + BitVec.ofNat 64 (i / 8) -
      (bitmap + 0x4000#64 + BitVec.ofNat 64 (0x1000 * j))).toNat := by
  have hi' : i / 8 < 0x4000 + 0x1000 * j := by omega
  bv_omega

/-- The state after the allocator's page `j` has been cleared from its start on. -/
theorem Pmm.TakenBelow.memset_page (h : s.TakenBelow k)
    (hstart : s.startOfMem = s.pmmBitmap.bitmap + 0x4000#64) {j n : Nat}
    (hk : k ≤ 0x20000 + 0x8000 * j) (hj : j < 2 ^ 19) (hn : n ≤ 0x200000) :
    ({ s with mem := Foundation.memset s.mem (s.page j) 0 n } : Pmm).TakenBelow k := by
  refine h.memset (by omega) fun i hi => ?_
  rw [Pmm.page, hstart]
  exact bitmap_byte_far hi hk hj hn

/-- The region of the heap is 0x200 pages in a row. -/
theorem Pmm.TakenBelow.heapInitPages (h : s.TakenBelow k) (hsize : s.limit ≤ 2 ^ 19)
    (hroom : k + 0x202 ≤ s.limit) (hstart : s.startOfMem = s.pmmBitmap.bitmap + 0x4000#64) :
    ∃ g s', heapInitPages pmmSource ⟨s.mem, s⟩ = some (g, s') ∧
      g.pages = consecutive 0x200 g.region := by
  have hlimit : ∀ t : Pmm, t.pmmBitmap = s.pmmBitmap → t.limit = s.limit :=
    fun t ht => congrArg Bitmap.limit ht
  -- the page of the heap structure, of which 88 bytes are cleared
  obtain ⟨s₁, hget₁, hbelow₁, hbitmap₁, hstart₁⟩ := h.getpage (by omega) hsize
  have hcleared₁ := hbelow₁.memset_page (j := k) (n := 88)
    (by rw [hstart₁, hbitmap₁, hstart]) (by omega) (by omega) (by decide)
  rw [page_congr hstart₁] at hcleared₁
  -- the pages of the region, cleared as one block
  obtain ⟨s₂, hget₂, hbelow₂, hbitmap₂, hstart₂⟩ :=
    hcleared₁.getpage (show k + 1 < s₁.limit by rw [hlimit _ hbitmap₁]; omega)
      (show s₁.limit ≤ _ by rw [hlimit _ hbitmap₁]; exact hsize)
  have hbitmap₂' : s₂.pmmBitmap = s.pmmBitmap := hbitmap₂.trans hbitmap₁
  have hstart₂' : s₂.startOfMem = s.startOfMem := hstart₂.trans hstart₁
  obtain ⟨s₃, hcalls, hbelow₃, hbitmap₃, hstart₃⟩ :=
    hbelow₂.getpageCalls (by rw [hlimit _ hbitmap₂']; exact hsize) (n := 0x1ff)
      (by rw [hlimit _ hbitmap₂']; omega)
  have hcleared₃ := hbelow₃.memset_page (j := k + 1) (n := HEAP_INIT_SIZE)
    (by rw [hstart₃, hbitmap₃, hstart₂', hbitmap₂', hstart]) (by omega) (by omega) (by decide)
  have hbitmap₃' : s₃.pmmBitmap = s.pmmBitmap := hbitmap₃.trans hbitmap₂'
  rw [page_congr (hstart₃.trans hstart₂)] at hcleared₃
  -- the page of the list heads
  obtain ⟨s₄, hget₄, -⟩ :=
    hcleared₃.getpage (show k + 1 + 1 + 0x1ff < s₃.limit by rw [hlimit _ hbitmap₃']; omega)
      (show s₃.limit ≤ _ by rw [hlimit _ hbitmap₃']; exact hsize)
  have hnext : s₂.page (k + 1 + 1) = s₁.page (k + 1) + 0x1000#64 := by
    rw [page_congr hstart₂]
    exact page_add s₁ (k + 1) 1
  have hrest : takePages pmmSource 0x1ff ⟨s₂.mem, s₂⟩ =
      some (consecutive 0x1ff (s₁.page (k + 1) + 0x1000#64), ⟨s₃.mem, s₃⟩) := by
    rw [takePages_pmmSource, hcalls, hnext, Option.map_some]
  have hfirst : pmmSource.getpage s s.mem = some (s.page k, s₁, s₁.mem) := pmmSource_getpage hget₁
  have hsecond : pmmSource.getpage s₁ (Foundation.memset s₁.mem (s.page k) 0 88) =
      some (s₁.page (k + 1), s₂, s₂.mem) := pmmSource_getpage hget₂
  have hlast : pmmSource.getpage s₃ (Foundation.memset s₃.mem (s₁.page (k + 1)) 0 HEAP_INIT_SIZE) =
      some (s₃.page (k + 1 + 1 + 0x1ff), s₄, s₄.mem) := pmmSource_getpage hget₄
  have hinit : (Shmall.heapInitPages pmmSource ⟨s.mem, s⟩).map Prod.fst =
      some ⟨s.page k, s₁.page (k + 1), consecutive 0x200 (s₁.page (k + 1)),
        s₃.page (k + 1 + 1 + 0x1ff)⟩ := by
    simp only [Shmall.heapInitPages, Option.bind_eq_bind, hfirst, hsecond, hrest, hlast,
      Option.bind_some, ← consecutive_succ, Nat.reduceAdd, Option.pure_def, Option.map_some]
  obtain ⟨⟨g, s'⟩, hsome, rfl⟩ := Option.map_eq_some_iff.mp hinit
  exact ⟨_, s', hsome, by dsimp only⟩

/-! ## The receive buffers -/

theorem initRxDesc_pmmSource {a b c : Word} (h : getpageCalls 3 s = some ([a, b, c], s'))
    (descs : Word) (i : Nat) (d : E1000) :
    ∃ d', initRxDesc pmmSource descs i d ⟨s.mem, s⟩ = some (d', ⟨s'.mem, s'⟩) ∧
      d'.rxDescs = Function.update d.rxDescs i (descs + BitVec.ofNat 64 (i * 16)) ∧
      ∃ x : RxDesc, x.addr = a ∧
        d'.descAt = Function.update d.descAt (descs + BitVec.ofNat 64 (i * 16)) x := by
  simp only [getpageCalls, Option.bind_eq_bind, Option.bind_eq_some_iff, Prod.exists,
    Option.pure_def, Option.some.injEq, Prod.mk.injEq, List.cons.injEq] at h
  obtain ⟨addr, s₁, h₁, _, _, ⟨_, s₂, h₂, _, _, ⟨_, s₃, h₃, _, _, ⟨rfl, rfl⟩, rfl, rfl⟩, rfl, rfl⟩,
    ⟨rfl, rfl, rfl, -⟩, rfl⟩ := h
  let p := descs + BitVec.ofNat 64 (i * 16)
  let d₁ : E1000 := { d with
    rxDescs := Function.update d.rxDescs i p
    descAt := Function.update d.descAt p { d.descAt p with addr := addr } }
  refine ⟨d₁.setDesc p { d₁.descAt p with status := 0 }, ?_, rfl, { d₁.descAt p with status := 0 },
    ?_, Function.update_idem _ _ _⟩
  · simp only [initRxDesc, pmmSource, Option.bind_eq_bind, h₁, h₂, h₃, Option.map_some,
      Option.bind_some]
    rfl
  · show (Function.update d.descAt p { d.descAt p with addr := addr } p).addr = addr
    rw [Function.update_self]

/-- After `n` iterations each of the first `n` descriptors has three pages in a row. -/
theorem Pmm.TakenBelow.initRxDescs (h : s.TakenBelow k) (hsize : s.limit ≤ 2 ^ 19) {n : Nat}
    (hroom : k + 3 * n ≤ s.limit) (descs : Word) (d : E1000) :
    ∃ d' s', initRxDescs pmmSource descs n d ⟨s.mem, s⟩ = some (d', ⟨s'.mem, s'⟩) ∧
      Mm.getpageCalls (3 * n) s =
        some ((List.range n).flatMap fun i => consecutive 3 (s.page (k + 3 * i)), s') ∧
      s'.TakenBelow (k + 3 * n) ∧ s'.pmmBitmap = s.pmmBitmap ∧ s'.startOfMem = s.startOfMem ∧
      ∀ i < n, d'.rxDescs i = descs + BitVec.ofNat 64 (i * 16) ∧
        (d'.desc i).addr = s.page (k + 3 * i) := by
  induction n with
  | zero => exact ⟨d, s, rfl, rfl, h, rfl, rfl, fun i hi => absurd hi (Nat.not_lt_zero i)⟩
  | succ n ih =>
    obtain ⟨d₁, s₁, hinit, hcalls, hbelow, hbitmap, hstart, hfirst⟩ := ih (by omega)
    have hlimit : s₁.limit = s.limit := congrArg Bitmap.limit hbitmap
    obtain ⟨s₂, hthree, hbelow₂, hbitmap₂, hstart₂⟩ :=
      hbelow.getpageCalls (by omega) (n := 3) (by omega)
    rw [page_congr hstart] at hthree
    obtain ⟨d₂, hlast, hptrs, x, hx, hdesc⟩ := initRxDesc_pmmSource hthree descs n d₁
    refine ⟨d₂, s₂, ?_, ?_, hbelow₂, hbitmap₂.trans hbitmap, hstart₂.trans hstart, fun i hi => ?_⟩
    · simp only [Drivers.initRxDescs, hinit, Option.bind_eq_bind, Option.bind_some]
      exact hlast
    · rw [Nat.mul_succ, getpageCalls_add hcalls hthree, List.range_succ, List.flatMap_append,
        List.flatMap_singleton]
    · have hptr : d₂.rxDescs i = descs + BitVec.ofNat 64 (i * 16) := by
        rw [hptrs, Function.update_apply]
        split_ifs with heq
        · rw [heq]
        · exact (hfirst i (by omega)).1
      refine ⟨hptr, ?_⟩
      rw [E1000.desc, hptr, hdesc]
      rcases Nat.lt_or_eq_of_le (Nat.le_of_lt_succ hi) with hlt | rfl
      · have hne : descs + BitVec.ofNat 64 (i * 16) ≠ descs + BitVec.ofNat 64 (n * 16) := by
          intro heq
          have := congrArg BitVec.toNat ((BitVec.add_right_inj _).mp heq)
          simp only [BitVec.toNat_ofNat] at this
          omega
        rw [Function.update_of_ne hne, ← (hfirst i hlt).1]
        exact (hfirst i hlt).2
      · rw [Function.update_self]
        exact hx.trans (BitVec.add_zero _)

theorem initRxRegs_desc (ptr : Word) (d : E1000) (i : Nat) :
    (initRxRegs ptr d).desc i = d.desc i := by
  obtain ⟨io, regs, ptrs, desc, cur⟩ := d
  cases io <;> rfl

theorem Pmm.TakenBelow.devE1000InitRx (h : s.TakenBelow k) (hsize : s.limit ≤ 2 ^ 19)
    (hroom : k + (1 + 3 * E1000_NUM_RX_DESC) ≤ s.limit) (d : E1000) :
    ∃ ring d' s', Mm.getpageCalls (1 + 3 * E1000_NUM_RX_DESC) s =
        some (ring :: (List.range E1000_NUM_RX_DESC).flatMap fun i =>
          consecutive 3 (d'.desc i).addr, s') ∧
      devE1000InitRx pmmSource d ⟨s.mem, s⟩ = some (d', ⟨s'.mem, s'⟩) := by
  obtain ⟨s₁, hget, hbelow, hbitmap, hstart⟩ := h.getpage (by omega) hsize
  have hlimit : s₁.limit = s.limit := congrArg Bitmap.limit hbitmap
  obtain ⟨d₂, s₂, hinit, hcalls, -, -, -, haddr⟩ :=
    hbelow.initRxDescs (by omega) (n := E1000_NUM_RX_DESC) (by omega) (s.page k) d
  have hone : Mm.getpageCalls 1 s = some ([s.page k], s₁) := by
    simp [Mm.getpageCalls, hget]
  refine ⟨s.page k, initRxRegs (s.page k) d₂, s₂, ?_, ?_⟩
  · rw [getpageCalls_add hone hcalls, List.singleton_append]
    refine congrArg (fun l => some (s.page k :: l, s₂)) ?_
    refine List.flatMap_congr fun i hi => ?_
    rw [initRxRegs_desc, (haddr i (List.mem_range.mp hi)).2]
  · simp only [Drivers.devE1000InitRx, Option.bind_eq_bind, pmmSource_getpage hget,
      Option.bind_some, hinit]
    rfl

/-! ## The blocks after `pmm_init` -/

/-- What the callers rely on: the set bits are the first ones, and while there are enough clear
bits the region of the heap and each receive buffer are pages in a row. -/
structure BlocksContiguous (s : Pmm) : Prop where
  initial : ∃ k, s.TakenBelow k
  heap : 0x202 ≤ s.clearBits → ∃ g s', heapInitPages pmmSource ⟨s.mem, s⟩ = some (g, s') ∧
    g.pages = consecutive 0x200 g.region ∧
    ∀ x, (∃ p ∈ g.pages, InPage p x) ↔ (x - g.region).toNat < HEAP_INIT_SIZE
  rx : 1 + 3 * E1000_NUM_RX_DESC ≤ s.clearBits → ∀ d, ∃ ring d' s',
    getpageCalls (1 + 3 * E1000_NUM_RX_DESC) s =
      some (ring :: (List.range E1000_NUM_RX_DESC).flatMap fun i =>
        consecutive 3 (d'.desc i).addr, s') ∧
    devE1000InitRx pmmSource d ⟨s.mem, s⟩ = some (d', ⟨s'.mem, s'⟩) ∧
    ∀ i < E1000_NUM_RX_DESC, ∀ x, (x - (d'.desc i).addr).toNat < 8192 →
      ∃ p ∈ consecutive 3 (d'.desc i).addr, InPage p x

theorem Pmm.TakenBelow.blocksContiguous (h : s.TakenBelow k) (hsize : s.limit ≤ 2 ^ 19)
    (hstart : s.startOfMem = s.pmmBitmap.bitmap + 0x4000#64) : BlocksContiguous s := by
  have hclear := h.clearBits
  refine ⟨⟨k, h⟩, fun hroom => ?_, fun hroom d => ?_⟩
  · obtain ⟨g, s', hinit, hpages⟩ := h.heapInitPages hsize (by omega) hstart
    refine ⟨g, s', hinit, hpages, fun x => ?_⟩
    rw [hpages, exists_inPage_consecutive_iff (by decide)]
    rfl
  · obtain ⟨ring, d', s', hcalls, hinit⟩ := h.devE1000InitRx hsize (by omega) d
    refine ⟨ring, d', s', hcalls, hinit, fun i _ x hx => ?_⟩
    rw [exists_inPage_consecutive_iff (by decide)]
    omega

/-- The bits past the 0x4000 bytes that `pmm_init` clears are as they were. -/
theorem clearedPmm_taken_of_ge (mmap : List Descriptor) (s : Pmm) {i : Nat} (hi : 0x20000 ≤ i)
    (hi' : i / 8 < 2 ^ 64) :
    (clearedPmm mmap s).taken i = bitAt s.mem (scanSegments mmap s).bitmap i := by
  simp only [clearedPmm, Pmm.taken, bitAt, memset_apply _ _ _ _ 0x4000 (by decide)]
  rw [toNat_offset _ hi', if_neg (by omega)]

/-- With the kernel below the segment there is a segment, and the bitmap lies right before the
pages. -/
theorem clearedPmm_startOfMem {kernStart : Word} {mmap : List Descriptor} {s : Pmm}
    (hpos : 0 < kernStart) (hkern : ¬ (scanSegments mmap s).largestFreeMemSeg < kernStart) :
    (clearedPmm mmap s).startOfMem = (clearedPmm mmap s).pmmBitmap.bitmap + 0x4000#64 := by
  rcases Scan.foldl_last_taken ⟨0, 0, s.pmmBitmap.bitmap, none⟩ mmap with
    hnone | ⟨_, d, _, -, -, -, hfold, -⟩
  · have hzero : (scanSegments mmap s).largestFreeMemSeg = 0 := by
      rw [scanSegments, Scan.foldl_kept hnone]
    exact absurd (hzero ▸ hpos) hkern
  · have hchosen : chosenDescriptor mmap s = some d := congrArg Scan.desc hfold
    obtain ⟨hbitmap, hstart⟩ := clearedPmm_of_chosen hchosen
    rw [hbitmap, hstart]

/-- On a map for which `pmm_init` locks no kernel pages, and with at most 2^19 bits, the blocks
are contiguous in every run without a release exactly when the part of the bitmap that
`pmm_init` does not clear was clear before. -/
theorem contiguous_blocks_iff (kernStart kernEnd : Word) (mmap : List Descriptor) (s : Pmm)
    (hpos : 0 < kernStart) (hkern : ¬ (scanSegments mmap s).largestFreeMemSeg < kernStart)
    (hsize : (pmmInit kernStart kernEnd mmap s).limit ≤ 2 ^ 19) :
    (∀ s', AllocRun (pmmInit kernStart kernEnd mmap s) s' → BlocksContiguous s') ↔
      ∀ i, 0x20000 ≤ i → i < 8 * ((getMemSize mmap s.memorySizeBytes).toNat / 0x8000 + 1) →
        bitAt s.mem (scanSegments mmap s).bitmap i = false := by
  have hlimit := pmmInit_limit kernStart kernEnd mmap s
  rw [← hlimit]
  rw [pmmInit_eq_cleared hkern] at hsize ⊢
  constructor
  · intro hall i hi hlt
    obtain ⟨k, hk⟩ := (hall _ .start).initial
    have hzero := hk.eq_zero (clearedPmm_taken mmap s (by decide))
    rw [← clearedPmm_taken_of_ge mmap s hi (by omega), ← Bool.not_eq_true, hk.iff i hlt, hzero]
    exact Nat.not_lt_zero i
  · intro hstale s' hrun
    have hempty : (clearedPmm mmap s).TakenBelow 0 := by
      refine ⟨Nat.zero_le _, fun i hi => iff_of_false ?_ (Nat.not_lt_zero i)⟩
      rw [Bool.not_eq_true]
      by_cases hlow : i < 0x20000
      · exact clearedPmm_taken mmap s hlow
      · rw [clearedPmm_taken_of_ge mmap s (by omega) (by omega)]
        exact hstale i (by omega) hi
    obtain ⟨⟨k, hk⟩, hbitmap, hstart⟩ := hrun.takenBelow hempty hsize
    refine hk.blocksContiguous (by rw [Pmm.limit, hbitmap]; exact hsize) ?_
    rw [hstart, hbitmap, clearedPmm_startOfMem hpos hkern]

/-- Sixteen megabytes of conventional memory above the kernel. -/
def mediumMap : List Descriptor := [⟨2, 0x100000, 0x100⟩, ⟨7, 0x200000, 0x1000⟩]

/-- All blocks are contiguous on `mediumMap`, and there is room for the heap. -/
theorem mediumMap_contiguous :
    0x202 ≤ (pmmInit 0x100000 0x140000 mediumMap bootPmm).clearBits ∧
    ∀ s', AllocRun (pmmInit 0x100000 0x140000 mediumMap bootPmm) s' → BlocksContiguous s' := by
  have hlimit := pmmInit_limit 0x100000 0x140000 mediumMap bootPmm
  have hnat : 8 * ((getMemSize mediumMap bootPmm.memorySizeBytes).toNat / 0x8000 + 1) = 0x1108 := by
    decide
  have hblocks := (contiguous_blocks_iff 0x100000 0x140000 mediumMap bootPmm (by decide)
    (by decide) (by omega)).mpr fun i hi hlt => by omega
  obtain ⟨k, hk⟩ := (hblocks _ .start).initial
  have hclear := hk.clearBits
  have hzero := hk.eq_zero (pmmInit_taken (by decide) (by decide))
  exact ⟨by omega, hblocks⟩

/-- One gigabyte of conventional memory above the kernel. -/
def largeMap : List Descriptor := [⟨2, 0x100000, 0x100⟩, ⟨7, 0x200000, 0x40000⟩]

/-- The globals before `pmm_init`, in a memory of all ones. -/
def dirtyPmm : Pmm := ⟨fun _ => 0xff, ⟨0, 0⟩, 0, 0⟩

/-- After `pmm_init` alone bit 0 is clear and bit 0x20000 is set. -/
theorem largeMap_not_contiguous :
    (pmmInit 0x100000 0x140000 largeMap dirtyPmm).limit = 0x40108 ∧
    (pmmInit 0x100000 0x140000 largeMap dirtyPmm).taken 0 = false ∧
    (pmmInit 0x100000 0x140000 largeMap dirtyPmm).taken 0x20000 = true ∧
    ¬ BlocksContiguous (pmmInit 0x100000 0x140000 largeMap dirtyPmm) := by
  have hlimit : (pmmInit 0x100000 0x140000 largeMap dirtyPmm).limit = 0x40108 := by
    rw [pmmInit_limit]
    decide
  have hfirst : (pmmInit 0x100000 0x140000 largeMap dirtyPmm).taken 0 = false :=
    pmmInit_taken (by decide) (by decide)
  have hstale : (pmmInit 0x100000 0x140000 largeMap dirtyPmm).taken 0x20000 = true := by
    rw [pmmInit_eq_cleared (by decide), clearedPmm_taken_of_ge _ _ (by decide) (by decide)]
    decide
  refine ⟨hlimit, hfirst, hstale, fun h => ?_⟩
  obtain ⟨k, hk⟩ := h.initial
  have hzero := hk.eq_zero hfirst
  have hlow := (hk.iff 0x20000 (by omega)).mp hstale
  omega

end ChronOS.Mm
