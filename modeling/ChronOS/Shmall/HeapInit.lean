/-
  Shmall/HeapInit.lean --- the heap that `heap_init` leaves.

  `heap_init` clears the heap structure, the region and the first eight bytes of the
  page it takes for the list heads.  The heads of the bins 1 to 8 lie at 64, 128, ...,
  512 in that page and keep what memory held.  `heapInit_wellFormed_iff` says that
  the heap is well formed exactly when those eight words were zero.

  A word that is not zero in the bins 1 to 7 is a list of its own beside the
  region.  In bin 8 it is a pointer that `add_node` follows, and whatever it finds
  there, it links the region to it (`Shmall/AddNode.lean`).
-/
import ChronOS.Mm.PagingTables
import ChronOS.Shmall.AddNode

set_option autoImplicit false

namespace ChronOS.Shmall

open ChronOS.Foundation ChronOS.Mm

/-! ## The region as a node -/

/-- The region after the first three statements of `init_heap`. -/
def regionNode (m : Mem) (region : Word) : Mem :=
  createFoot (setSize (setHole m region 1) region regionSize) region

/-- The last two statements of `init_heap`. -/
def setBounds (m : Mem) (heap start : Word) : Mem :=
  (m.write64 heap start).write64 (heap + 8) (start + BitVec.ofNat 64 HEAP_INIT_SIZE)

theorem initHeap_eq (heap region : Word) (m : Mem) :
    initHeap heap region m =
      (addNode (regionNode m region) (binFor (regionNode m region) heap region) region).map
        fun m => setBounds m heap region := by
  rw [Option.map_eq_bind]
  rfl

theorem node_congr {m m' : Mem} {node : Word}
    (h : ∀ k < 24, m' (node + BitVec.ofNat 64 k) = m (node + BitVec.ofNat 64 k)) :
    nodeHole m' node = nodeHole m node ∧ nodeSize m' node = nodeSize m node ∧
      nodeNext m' node = nodeNext m node ∧ nodePrev m' node = nodePrev m node := by
  have hat : ∀ (base n : Nat), base + n ≤ 24 →
      m'.read n (node + BitVec.ofNat 64 base) = m.read n (node + BitVec.ofNat 64 base) := by
    intro base n hn
    refine Mem.read_congr fun k hk => ?_
    rw [BitVec.add_assoc, ← BitVec.ofNat_add]
    exact h _ (by omega)
  have hzero := hat 0 4 (by decide)
  rw [show node + BitVec.ofNat 64 0 = node from BitVec.add_zero node] at hzero
  exact ⟨hzero, hat 4 4 (by decide), hat 8 8 (by decide), hat 16 8 (by decide)⟩

theorem getFoot_regionNode (m : Mem) (region : Word) :
    getFoot (setSize (setHole m region 1) region regionSize) region = region + 0x1ffff8 := by
  have hsize : nodeSize (setSize (setHole m region 1) region regionSize) region = regionSize :=
    Mem.read_write_self (n := 4) _ (by decide) _ _
  rw [getFoot, hsize, BitVec.add_assoc]
  rfl

/-- The fields and the footer of the region. -/
theorem unlinked_regionNode (m : Mem) (region : Word) :
    nodeHole (unlinked (regionNode m region) region) region = 1 ∧
      nodeSize (unlinked (regionNode m region) region) region = regionSize ∧
      nodeNext (unlinked (regionNode m region) region) region = 0 ∧
      nodePrev (unlinked (regionNode m region) region) region = 0 ∧
      (unlinked (regionNode m region) region).read64 (region + 0x1ffff8) = region := by
  unfold unlinked regionNode createFoot
  rw [getFoot_regionNode]
  unfold setPrev setNext setSize setHole nodeHole nodeSize nodeNext nodePrev Mem.write64 Mem.read64
  refine ⟨?_, ?_, ?_, ?_, ?_⟩
  · rw [Mem.read_write_of_disjoint (by intro j hj; bv_omega),
      Mem.read_write_of_disjoint (by intro j hj; bv_omega),
      Mem.read_write_of_disjoint (by intro j hj; bv_omega),
      Mem.read_write_of_disjoint (by intro j hj; bv_omega),
      Mem.read_write_self (n := 4) _ (by decide)]
  · rw [Mem.read_write_of_disjoint (by intro j hj; bv_omega),
      Mem.read_write_of_disjoint (by intro j hj; bv_omega),
      Mem.read_write_of_disjoint (by intro j hj; bv_omega),
      Mem.read_write_self (n := 4) _ (by decide)]
  · rw [Mem.read_write_of_disjoint (by intro j hj; bv_omega),
      Mem.read_write_self (n := 8) _ (by decide)]
  · rw [Mem.read_write_self (n := 8) _ (by decide)]
  · rw [Mem.read_write_of_disjoint (by intro j hj; bv_omega),
      Mem.read_write_of_disjoint (by intro j hj; bv_omega),
      Mem.read_write_self (n := 8) _ (by decide)]

theorem nodeSize_regionNode (m : Mem) (region : Word) :
    nodeSize (regionNode m region) region = regionSize := by
  unfold regionNode createFoot
  rw [getFoot_regionNode]
  unfold setSize nodeSize Mem.write64
  rw [Mem.read_write_of_disjoint (by intro j hj; bv_omega),
    Mem.read_write_self (n := 4) _ (by decide)]

theorem regionNode_of_ge (m : Mem) {region x : Word} (h : HEAP_INIT_SIZE ≤ (x - region).toNat) :
    regionNode m region x = m x := by
  unfold HEAP_INIT_SIZE at h
  unfold regionNode createFoot
  rw [getFoot_regionNode]
  unfold setSize setHole Mem.write64
  rw [Mem.write_of_ge (by bv_omega), Mem.write_of_ge (by bv_omega), Mem.write_of_ge (by bv_omega)]

theorem unlinked_of_ge (m : Mem) {node x : Word} (h : HEAP_INIT_SIZE ≤ (x - node).toNat) :
    unlinked m node x = m x := by
  unfold HEAP_INIT_SIZE at h
  unfold unlinked setPrev setNext
  rw [Mem.write64_of_ge (by bv_omega), Mem.write64_of_ge (by bv_omega)]

/-! ## Where the pages lie -/

/-- The page of the heap structure, the region and the page of the list heads do not meet. -/
structure HeapPages.Apart (g : HeapPages) : Prop where
  aligned : PageAligned g.region
  ne_zero : g.region ≠ 0
  heap_bins : ∀ x, InPage g.heap x → ¬ InPage g.bins x
  heap_region : ∀ x, InPage g.heap x → HEAP_INIT_SIZE ≤ (x - g.region).toNat
  bins_region : ∀ x, InPage g.bins x → HEAP_INIT_SIZE ≤ (x - g.region).toNat

/-- The memory that `heap_init` hands to `init_heap`. -/
structure Prepared (g : HeapPages) (m : Mem) : Prop where
  apart : g.Apart
  slots : ∀ i < BIN_COUNT, m.read64 (binSlot g.heap i) = g.bins + BitVec.ofNat 64 (64 * i)
  first : m.read64 g.bins = 0

theorem inPage_slot (heap : Word) {i k : Nat} (hi : i < BIN_COUNT) (hk : k < 8) :
    InPage heap (binSlot heap i + BitVec.ofNat 64 k) := by
  unfold BIN_COUNT at hi
  unfold InPage binSlot
  bv_omega

theorem inPage_head (bins : Word) {i k : Nat} (hi : i < BIN_COUNT) (hk : k < 8) :
    InPage bins (bins + BitVec.ofNat 64 (64 * i) + BitVec.ofNat 64 k) := by
  unfold BIN_COUNT at hi
  unfold InPage
  bv_omega

variable {g : HeapPages} {m : Mem}

/-- The first `n` bytes of the region lie in neither page. -/
theorem HeapPages.Apart.region_byte (h : g.Apart) {k : Nat} (hk : k < HEAP_INIT_SIZE) :
    ¬ InPage g.heap (g.region + BitVec.ofNat 64 k) ∧
      ¬ InPage g.bins (g.region + BitVec.ofNat 64 k) := by
  have hoff : (g.region + BitVec.ofNat 64 k - g.region).toNat = k :=
    toNat_offset _ (hk.trans (by decide))
  refine ⟨fun hin => ?_, fun hin => ?_⟩
  · have := h.heap_region _ hin
    omega
  · have := h.bins_region _ hin
    omega

theorem HeapPages.Apart.setBounds_region (h : g.Apart) (m : Mem) {k : Nat}
    (hk : k < HEAP_INIT_SIZE) :
    setBounds m g.heap g.region (g.region + BitVec.ofNat 64 k) =
      m (g.region + BitVec.ofNat 64 k) := by
  have hnot := (h.region_byte hk).1
  unfold InPage at hnot
  unfold setBounds
  rw [Mem.write64_of_ge (by bv_omega), Mem.write64_of_ge (by bv_omega)]

theorem HeapPages.Apart.write64_head_region (h : g.Apart) (m : Mem) (v : Word) {k : Nat}
    (hk : k < HEAP_INIT_SIZE) :
    m.write64 (g.bins + 512) v (g.region + BitVec.ofNat 64 k) =
      m (g.region + BitVec.ofNat 64 k) := by
  have hnot := (h.region_byte hk).2
  unfold InPage at hnot
  exact Mem.write64_of_ge (by bv_omega)

theorem read64_unlinked_regionNode (m : Mem) {region a : Word}
    (h : ∀ k < 8, HEAP_INIT_SIZE ≤ (a + BitVec.ofNat 64 k - region).toNat) :
    (unlinked (regionNode m region) region).read64 a = m.read64 a :=
  Mem.read64_congr fun k hk => by rw [unlinked_of_ge _ (h k hk), regionNode_of_ge _ (h k hk)]

theorem Prepared.binFor (h : Prepared g m) :
    binFor (regionNode m g.region) g.heap g.region = g.bins + 512 := by
  have hindex : getBinIndex (regionSize.setWidth 64) = 8 := by decide
  rw [Shmall.binFor, nodeSize_regionNode, hindex, binAt]
  refine (Mem.read64_congr fun k hk => ?_).trans (h.slots 8 (by decide))
  exact regionNode_of_ge _ (h.apart.heap_region _ (inPage_slot g.heap (by decide) hk))

/-! ## Well-formed heaps -/

/-- The doubly linked list from `p` on, whose first node points back to `prev`. -/
def FreeList (m : Mem) : Word → Word → List Word → Prop
  | _, p, [] => p = 0
  | prev, p, node :: rest =>
    p = node ∧ node ≠ 0 ∧ nodePrev m node = prev ∧ FreeList m node (nodeNext m node) rest

/-- The heap that `heap_init` is to leave: nine list heads in their page, and one free node in
all the lists, the hole that covers the region and has its footer at the region's end. -/
structure WellFormed (g : HeapPages) (m : Mem) : Prop where
  distinct : ∀ i < BIN_COUNT, ∀ j < BIN_COUNT,
    m.read64 (binSlot g.heap i) = m.read64 (binSlot g.heap j) → i = j
  inPage : ∀ i < BIN_COUNT, (m.read64 (binSlot g.heap i) - g.bins).toNat + 8 ≤ 0x1000
  free : ∃ lists : Nat → List Word,
    (∀ i < BIN_COUNT, FreeList m 0 (m.read64 (m.read64 (binSlot g.heap i))) (lists i)) ∧
    (List.range BIN_COUNT).flatMap lists = [g.region]
  hole : nodeHole m g.region = 1
  size : nodeSize m g.region = BitVec.ofNat 32 (HEAP_INIT_SIZE - 24 - 8)
  foot : getFoot m g.region + 8 = g.region + BitVec.ofNat 64 HEAP_INIT_SIZE ∧
    m.read64 (getFoot m g.region) = g.region

/-- Lists with one element in all: one of them has it, and the others are empty. -/
theorem flatMap_range_eq_singleton {n : Nat} {lists : Nat → List Word} {a : Word}
    (h : (List.range n).flatMap lists = [a]) :
    ∃ i < n, lists i = [a] ∧ ∀ j < n, j ≠ i → lists j = [] := by
  induction n with
  | zero => simp at h
  | succ n ih =>
    rw [List.range_succ, List.flatMap_append, List.flatMap_singleton,
      List.append_eq_singleton_iff] at h
    rcases h with ⟨hbefore, hlast⟩ | ⟨hbefore, hlast⟩
    · refine ⟨n, Nat.lt_succ_self n, hlast, fun j hj hne => ?_⟩
      exact List.flatMap_eq_nil_iff.mp hbefore j (List.mem_range.mpr (by omega))
    · obtain ⟨i, hi, hone, hrest⟩ := ih hbefore
      refine ⟨i, by omega, hone, fun j hj hne => ?_⟩
      by_cases hjn : j < n
      · exact hrest j hjn hne
      · rwa [show j = n by omega]

/-- The region is the only node of one bin, and the other bins are empty. -/
theorem WellFormed.bins (h : WellFormed g m) :
    (nodeNext m g.region = 0 ∧ nodePrev m g.region = 0) ∧
      ∃ i < BIN_COUNT, ∀ j < BIN_COUNT, j ≠ i →
        m.read64 (m.read64 (binSlot g.heap j)) = 0 := by
  obtain ⟨lists, hlists, hall⟩ := h.free
  obtain ⟨i, hi, hone, hrest⟩ := flatMap_range_eq_singleton hall
  have hlist := hlists i hi
  rw [hone] at hlist
  obtain ⟨-, -, hprev, hnext⟩ := hlist
  refine ⟨⟨hnext, hprev⟩, i, hi, fun j hj hne => ?_⟩
  have hempty := hlists j hj
  rwa [hrest j hj hne] at hempty

/-! ## Bin 8 empty -/

/-- The memory after `init_heap` when bin 8 was empty. -/
def filled (g : HeapPages) (m : Mem) : Mem :=
  setBounds ((unlinked (regionNode m g.region) g.region).write64 (g.bins + 512) g.region)
    g.heap g.region

/-- The list heads are words of the bins' page. -/
theorem HeapPages.Apart.head_region (h : g.Apart) {i : Nat} (hi : i < BIN_COUNT) :
    ∀ k < 8, HEAP_INIT_SIZE ≤
      (g.bins + BitVec.ofNat 64 (64 * i) + BitVec.ofNat 64 k - g.region).toNat :=
  fun _ hk => h.bins_region _ (inPage_head g.bins hi hk)

theorem Prepared.initHeap_empty (h : Prepared g m) (hempty : m.read64 (g.bins + 512) = 0) :
    initHeap g.heap g.region m = some (filled g m) := by
  have hhead : (unlinked (regionNode m g.region) g.region).read64 (g.bins + 512) = 0 :=
    (read64_unlinked_regionNode m (h.apart.head_region (i := 8) (by decide))).trans hempty
  rw [initHeap_eq, h.binFor, addNode_empty hhead]
  rfl

theorem Prepared.filled_slot (h : Prepared g m) {i : Nat} (hi : i < BIN_COUNT) :
    (filled g m).read64 (binSlot g.heap i) = g.bins + BitVec.ofNat 64 (64 * i) := by
  rw [← h.slots i hi]
  refine Mem.read64_congr fun k hk => ?_
  have hin := inPage_slot g.heap hi hk
  have hregion := h.apart.heap_region _ hin
  have hbins := h.apart.heap_bins _ hin
  unfold BIN_COUNT at hi
  unfold filled setBounds
  rw [Mem.write64_of_ge (by unfold binSlot; bv_omega),
    Mem.write64_of_ge (by unfold binSlot; bv_omega),
    Mem.write64_of_ge (by unfold InPage at hbins; bv_omega), unlinked_of_ge _ hregion,
    regionNode_of_ge _ hregion]

/-- The heads of the bins below 8 are kept, and the region is the head of bin 8. -/
theorem Prepared.filled_head (h : Prepared g m) {i : Nat} (hi : i < BIN_COUNT) :
    (filled g m).read64 (g.bins + BitVec.ofNat 64 (64 * i)) =
      if i = 8 then g.region else m.read64 (g.bins + BitVec.ofNat 64 (64 * i)) := by
  have hheap : ∀ k < 8, ¬ InPage g.heap (g.bins + BitVec.ofNat 64 (64 * i) + BitVec.ofNat 64 k) :=
    fun k hk hin => h.apart.heap_bins _ hin (inPage_head g.bins hi hk)
  unfold InPage at hheap
  have hbounds : (filled g m).read64 (g.bins + BitVec.ofNat 64 (64 * i)) =
      ((unlinked (regionNode m g.region) g.region).write64 (g.bins + 512) g.region).read64
        (g.bins + BitVec.ofNat 64 (64 * i)) := by
    refine Mem.read64_congr fun k hk => ?_
    have := hheap k hk
    unfold filled setBounds
    rw [Mem.write64_of_ge (by bv_omega), Mem.write64_of_ge (by bv_omega)]
  rw [hbounds]
  split_ifs with heq
  · subst heq
    exact Mem.read64_write64_self _ _ _
  · have hsep := h.apart.head_region hi
    unfold BIN_COUNT at hi
    rw [Mem.read64_write64_of_disjoint (by bv_omega) (by bv_omega),
      read64_unlinked_regionNode m hsep]

/-- The region is a hole with its footer. -/
theorem Prepared.filled_region (h : Prepared g m) :
    nodeHole (filled g m) g.region = 1 ∧ nodeSize (filled g m) g.region = regionSize ∧
      nodeNext (filled g m) g.region = 0 ∧ nodePrev (filled g m) g.region = 0 ∧
      (filled g m).read64 (g.region + 0x1ffff8) = g.region := by
  have hbyte : ∀ k < HEAP_INIT_SIZE, filled g m (g.region + BitVec.ofNat 64 k) =
      unlinked (regionNode m g.region) g.region (g.region + BitVec.ofNat 64 k) := by
    intro k hk
    rw [filled, h.apart.setBounds_region _ hk, h.apart.write64_head_region _ _ hk]
  obtain ⟨hhole, hsize, hnext, hprev⟩ :=
    @node_congr (unlinked (regionNode m g.region) g.region) (filled g m) g.region
      fun k hk => hbyte k (hk.trans (by decide))
  obtain ⟨hhole', hsize', hnext', hprev', hfoot'⟩ := unlinked_regionNode m g.region
  refine ⟨hhole.trans hhole', hsize.trans hsize', hnext.trans hnext', hprev.trans hprev', ?_⟩
  refine (Mem.read64_congr fun k hk => ?_).trans hfoot'
  have hadd : g.region + 0x1ffff8 + BitVec.ofNat 64 k =
      g.region + BitVec.ofNat 64 (0x1ffff8 + k) := by
    rw [BitVec.ofNat_add, ← BitVec.add_assoc]
    rfl
  rw [hadd]
  exact hbyte _ (by unfold HEAP_INIT_SIZE; omega)

/-- With empty lists the heap is well formed. -/
theorem Prepared.filled_wellFormed (h : Prepared g m)
    (hempty : ∀ i, 1 ≤ i → i < BIN_COUNT → m.read64 (g.bins + BitVec.ofNat 64 (64 * i)) = 0) :
    WellFormed g (filled g m) := by
  obtain ⟨hhole, hsize, hnext, hprev, hfoot⟩ := h.filled_region
  have hat : getFoot (filled g m) g.region = g.region + 0x1ffff8 := by
    rw [getFoot, hsize, BitVec.add_assoc]
    rfl
  refine ⟨fun i hi j hj heq => ?_, fun i hi => ?_,
    ⟨fun i => if i = 8 then [g.region] else [], fun i hi => ?_, rfl⟩, hhole, hsize, ?_, ?_⟩
  · rw [h.filled_slot hi, h.filled_slot hj] at heq
    unfold BIN_COUNT at hi hj
    bv_omega
  · rw [h.filled_slot hi]
    unfold BIN_COUNT at hi
    bv_omega
  · rw [h.filled_slot hi, h.filled_head hi]
    dsimp only
    split_ifs with h8
    · exact ⟨rfl, h.apart.ne_zero, hprev, hnext⟩
    · rcases Nat.eq_zero_or_pos i with rfl | hpos
      · exact (congrArg m.read64 (BitVec.add_zero g.bins)).trans h.first
      · exact hempty i hpos hi
  · rw [hat, BitVec.add_assoc]
    rfl
  · rw [hat, hfoot]

/-! ## Bin 8 not empty -/

/-- Whatever the word in bin 8 points to, the heap is not well formed. -/
theorem Prepared.not_wellFormed (h : Prepared g m) (hstale : m.read64 (g.bins + 512) ≠ 0)
    {m' : Mem} (hinit : initHeap g.heap g.region m = some m') : ¬ WellFormed g m' := by
  intro hwf
  rw [initHeap_eq, h.binFor, Option.map_eq_some_iff] at hinit
  obtain ⟨m₁, hadd, rfl⟩ := hinit
  have hhead := read64_unlinked_regionNode m (h.apart.head_region (i := 8) (by decide))
  change Mem.read64 _ (g.bins + 512) = m.read64 (g.bins + 512) at hhead
  obtain ⟨hhole, hsize, hnext, -, -⟩ := unlinked_regionNode m g.region
  -- the region is the same node before and after the bounds are stored
  obtain ⟨-, hsize₁, hnext₁, hprev₁⟩ := @node_congr m₁ (setBounds m₁ g.heap g.region) g.region
    fun k hk => h.apart.setBounds_region m₁ (hk.trans (by decide))
  obtain ⟨⟨hnull, hnull'⟩, -⟩ := hwf.bins
  have hwfsize := hwf.size
  rw [hnext₁] at hnull
  rw [hprev₁] at hnull'
  rw [hsize₁] at hwfsize
  rcases addNode_eq_some hadd with ⟨hempty, -⟩ | ⟨-, previous, current, hplace, hcases⟩
  · exact hstale (hhead.symm.trans hempty)
  rw [hhead] at hplace
  obtain ⟨hlarger, hfrom⟩ := findPlace_eq_some hplace
  rcases hcases with ⟨hend, rfl⟩ | ⟨hcurrent, hprevious, rfl⟩ | ⟨hcurrent, -, m₂, hm₂, rfl⟩
  · -- at the end of the list the region points back to the last node
    rw [nodePrev, setPrev, Mem.read64_write64_self] at hnull'
    rcases hfrom with ⟨-, hfirst⟩ | ⟨hprevious, -⟩
    · exact hstale (hfirst.symm.trans hend)
    · exact hprevious hnull'
  · rcases hfrom with ⟨hzero, -⟩ | ⟨-, hlink⟩
    · exact hprevious hzero
    · refine middle_insertion h.apart.aligned hhole hsize hnext hprevious hcurrent ?_ hlink hnull
        hnull'
      rintro rfl
      exact absurd (hlarger hcurrent) (BitVec.lt_irrefl _)
  · -- storing into the bin changes neither the head that is read again nor the region
    have hsame : m₂.read64 (g.bins + 512) = m.read64 (g.bins + 512) := by
      rw [hm₂, ← hhead]
      refine Mem.read64_congr fun k hk => Mem.write64_of_ge ?_
      have := h.apart.head_region (i := 8) (by decide) k hk
      unfold HEAP_INIT_SIZE at this
      bv_omega
    obtain ⟨-, hsize₂, hnext₂, -⟩ := @node_congr (setPrev m₂ (m₂.read64 (g.bins + 512)) g.region)
      ((setPrev m₂ (m₂.read64 (g.bins + 512)) g.region).write64 (g.bins + 512) g.region) g.region
      fun k hk => h.apart.write64_head_region _ _ (hk.trans (by decide))
    rw [hnext₂, hsame, hm₂, hhead] at hnull
    rw [hsize₂, hsame, hm₂, hhead] at hwfsize
    exact head_insertion h.apart.aligned h.apart.ne_zero hstale hnull hwfsize

/-- `init_heap` leaves a well-formed heap exactly when all lists were empty. -/
theorem Prepared.initHeap_wellFormed_iff (h : Prepared g m) :
    (∃ m', initHeap g.heap g.region m = some m' ∧ WellFormed g m') ↔
      ∀ i, 1 ≤ i → i < BIN_COUNT → m.read64 (g.bins + BitVec.ofNat 64 (64 * i)) = 0 := by
  constructor
  · rintro ⟨m', hinit, hwf⟩
    have hlast : m.read64 (g.bins + 512) = 0 := by
      by_contra hstale
      exact h.not_wellFormed hstale hinit hwf
    obtain rfl := Option.some.inj ((h.initHeap_empty hlast).symm.trans hinit)
    obtain ⟨-, i, hi, hrest⟩ := hwf.bins
    have hi8 : i = 8 := by
      by_contra hne
      have hregion := hrest 8 (by decide) (Ne.symm hne)
      rw [h.filled_slot (by decide), h.filled_head (by decide), if_pos rfl] at hregion
      exact h.apart.ne_zero hregion
    intro j hpos hj
    by_cases hj8 : j = 8
    · rw [hj8]
      exact hlast
    · have hzero := hrest j hj (hi8 ▸ hj8)
      rwa [h.filled_slot hj, h.filled_head hj, if_neg hj8] at hzero
  · intro hempty
    exact ⟨_, h.initHeap_empty (hempty 8 (by decide) (by decide)), h.filled_wellFormed hempty⟩

/-! ## The pages of `heap_init` -/

section Pages

variable {σ : Type} {src : PageSource σ} {taken : σ → Set Word} {frames : Set Word}

/-- The pages that `pmm_getpage` returns one after the other are new. -/
theorem takePages_fresh (hlaw : src.Lawful taken) {n : Nat} {s s' : Machine σ} {ps : List Word}
    (h : takePages src n s = some (ps, s')) :
    (∀ p ∈ ps, FrameAddress p ∧ p ∉ taken s.pmm ∧ p ∈ taken s'.pmm) ∧
      taken s.pmm ⊆ taken s'.pmm := by
  induction n generalizing s ps with
  | zero =>
    cases h
    exact ⟨by simp, Set.Subset.rfl⟩
  | succ n ih =>
    simp only [takePages, Option.bind_eq_bind, Option.bind_eq_some_iff, Prod.exists,
      Option.pure_def, Option.some.injEq, Prod.mk.injEq] at h
    obtain ⟨p, pmm, mem, hget, rest, _, hrest, rfl, rfl⟩ := h
    obtain ⟨hfresh, hsub⟩ := ih hrest
    have hnext : taken pmm = insert p (taken s.pmm) := hlaw.taken_next _ _ _ _ _ hget
    have hold : taken s.pmm ⊆ taken pmm := hnext ▸ Set.subset_insert p _
    refine ⟨List.forall_mem_cons.mpr ⟨⟨hlaw.frame _ _ _ _ _ hget, hlaw.fresh _ _ _ _ _ hget,
      hsub (hnext ▸ Set.mem_insert p _)⟩, fun q hq => ?_⟩, hold.trans hsub⟩
    obtain ⟨hframe, hnew, hin⟩ := hfresh q hq
    exact ⟨hframe, fun hq => hnew (hold hq), hin⟩

theorem takePages_keeps (hquiet : src.Quiet frames) {n : Nat} {s s' : Machine σ} {ps : List Word}
    (h : takePages src n s = some (ps, s')) {q x : Word} (hq : q ∈ frames) (hx : InPage q x) :
    s'.mem x = s.mem x := by
  induction n generalizing s ps with
  | zero =>
    cases h
    rfl
  | succ n ih =>
    simp only [takePages, Option.bind_eq_bind, Option.bind_eq_some_iff, Prod.exists,
      Option.pure_def, Option.some.injEq, Prod.mk.injEq] at h
    obtain ⟨p, pmm, mem, hget, rest, _, hrest, rfl, rfl⟩ := h
    exact (ih hrest).trans (hquiet.keeps _ _ _ _ _ hget q hq x hx)

/-- The page fetches of `heap_init` and the memory they leave. -/
theorem heapInitPages_eq_some {s s' : Machine σ} {g : HeapPages}
    (h : heapInitPages src s = some (g, s')) :
    ∃ pmm₁ mem₁ pmm₂ mem₂ rest s₃ mem₄,
      src.getpage s.pmm s.mem = some (g.heap, pmm₁, mem₁) ∧
      src.getpage pmm₁ (memset mem₁ g.heap 0 88) = some (g.region, pmm₂, mem₂) ∧
      takePages src 0x1ff ⟨mem₂, pmm₂⟩ = some (rest, s₃) ∧ g.pages = g.region :: rest ∧
      src.getpage s₃.pmm (memset s₃.mem g.region 0 HEAP_INIT_SIZE) = some (g.bins, s'.pmm, mem₄) ∧
      s'.mem = setBins g.heap (memset (mem₄.write64 (binSlot g.heap 0) g.bins) g.bins 0 8)
        (BIN_COUNT - 1) := by
  simp only [heapInitPages, Option.bind_eq_bind, Option.bind_eq_some_iff, Prod.exists,
    Option.pure_def, Option.some.injEq, Prod.mk.injEq, Mem.read64_write64_self] at h
  obtain ⟨heap, pmm₁, mem₁, h₁, region, pmm₂, mem₂, h₂, rest, s₃, h₃, bins, pmm₄, mem₄, h₄, rfl,
    rfl⟩ := h
  exact ⟨pmm₁, mem₁, pmm₂, mem₂, rest, s₃, mem₄, h₁, h₂, h₃, rfl, h₄, rfl⟩

/-- The pages do not meet when those of the region are in a row. -/
theorem heapInitPages_apart (hlaw : src.Lawful taken) {s s' : Machine σ} {g : HeapPages}
    (hzero : 0 ∈ taken s.pmm) (h : heapInitPages src s = some (g, s'))
    (hrow : g.pages = consecutive 0x200 g.region) : g.Apart := by
  obtain ⟨pmm₁, mem₁, pmm₂, mem₂, rest, s₃, mem₄, h₁, h₂, h₃, hpages, h₄, -⟩ :=
    heapInitPages_eq_some h
  have hnext₁ := hlaw.taken_next _ _ _ _ _ h₁
  have hnext₂ := hlaw.taken_next _ _ _ _ _ h₂
  obtain ⟨hrest, hsub⟩ := takePages_fresh hlaw h₃
  have hheap := hlaw.frame _ _ _ _ _ h₁
  have hbins := hlaw.frame _ _ _ _ _ h₄
  have hnew := hlaw.fresh _ _ _ _ _ h₄
  have hheap₁ : g.heap ∈ taken pmm₁ := hnext₁ ▸ Set.mem_insert _ _
  have hheap₂ : g.heap ∈ taken pmm₂ := hnext₂ ▸ Set.mem_insert_of_mem _ hheap₁
  have hregion₂ : g.region ∈ taken pmm₂ := hnext₂ ▸ Set.mem_insert _ _
  -- every page of the region is aligned, and neither of the other two
  have hall : ∀ p ∈ g.pages, PageAligned p ∧ p ≠ g.heap ∧ p ≠ g.bins := by
    rw [hpages]
    refine List.forall_mem_cons.mpr ⟨⟨(hlaw.frame _ _ _ _ _ h₂).1, ?_, ?_⟩, fun p hp => ?_⟩
    · exact fun heq => hlaw.fresh _ _ _ _ _ h₂ (heq ▸ hheap₁)
    · exact fun heq => hnew (heq ▸ hsub hregion₂)
    · obtain ⟨hframe, hout, hin⟩ := hrest p hp
      exact ⟨hframe.1, fun heq => hout (heq ▸ hheap₂), fun heq => hnew (heq ▸ hin)⟩
  have hmeets : ∀ x, (x - g.region).toNat < HEAP_INIT_SIZE → ∃ p ∈ g.pages, InPage p x := by
    intro x hx
    rw [hrow]
    exact (exists_inPage_consecutive_iff (by decide) _ _).mpr hx
  refine ⟨(hlaw.frame _ _ _ _ _ h₂).1, fun heq => ?_, fun x hx hx' => ?_, fun x hx => ?_,
    fun x hx => ?_⟩
  · refine hlaw.fresh _ _ _ _ _ h₂ ?_
    rw [heq, hnext₁]
    exact Set.mem_insert_of_mem _ hzero
  · exact hnew (InPage.unique hheap.1 hbins.1 hx hx' ▸ hsub hheap₂)
  · by_contra hlt
    obtain ⟨p, hp, hin⟩ := hmeets x (Nat.not_le.mp hlt)
    exact (hall p hp).2.1 (InPage.unique (hall p hp).1 hheap.1 hin hx)
  · by_contra hlt
    obtain ⟨p, hp, hin⟩ := hmeets x (Nat.not_le.mp hlt)
    exact (hall p hp).2.2 (InPage.unique (hall p hp).1 hbins.1 hin hx)

/-- Storing the bin pointers writes into the page of the heap structure only. -/
theorem setBins_of_not_inPage (heap : Word) (m : Mem) {n : Nat} (hn : n < BIN_COUNT) {x : Word}
    (hx : ¬ InPage heap x) : setBins heap m n x = m x := by
  induction n with
  | zero => rfl
  | succ n ih =>
    unfold BIN_COUNT at hn ih
    rw [setBins, Mem.write64_of_ge (by unfold binSlot; unfold InPage at hx; bv_omega),
      ih (by omega)]

theorem setBins_slot (heap : Word) (m : Mem) {n i : Nat} (hn : n < BIN_COUNT) (hi : i ≤ n) :
    (setBins heap m n).read64 (binSlot heap i) =
      m.read64 (binSlot heap 0) + BitVec.ofNat 64 (64 * i) := by
  unfold BIN_COUNT at hn
  induction n generalizing i with
  | zero =>
    obtain rfl := Nat.le_zero.mp hi
    exact (BitVec.add_zero _).symm
  | succ n ih =>
    rw [setBins]
    rcases Nat.lt_or_eq_of_le hi with hlt | rfl
    · rw [Mem.read64_write64_of_disjoint (by unfold binSlot; bv_omega)
        (by unfold binSlot; bv_omega), ih (by omega) (by omega)]
    · rw [Mem.read64_write64_self, ih (by omega) (Nat.zero_le n)]
      exact congrArg (· + _) (BitVec.add_zero _)

theorem heapInit_eq {s s' : Machine σ} {g : HeapPages}
    (h : heapInitPages src s = some (g, s')) :
    heapInit src s = (initHeap g.heap g.region s'.mem).map fun m => (g, ⟨m, s'.pmm⟩) := by
  rw [heapInit, h, Option.map_eq_bind]
  rfl

/-- `heap_init` prepares the heap structure and the head of bin 0. -/
theorem heapInitPages_prepared {s s' : Machine σ} {g : HeapPages}
    (h : heapInitPages src s = some (g, s')) (hapart : g.Apart) : Prepared g s'.mem := by
  obtain ⟨_, _, _, _, _, _, mem₄, -, -, -, -, -, hmem⟩ := heapInitPages_eq_some h
  refine ⟨hapart, fun i hi => ?_, ?_⟩
  · rw [hmem, setBins_slot g.heap _ (by decide) (by unfold BIN_COUNT at hi ⊢; omega)]
    refine congrArg (· + _) ?_
    refine (Mem.read64_congr fun k hk => ?_).trans (Mem.read64_write64_self mem₄ _ g.bins)
    have hbins := hapart.heap_bins _ (inPage_slot g.heap (i := 0) (by decide) hk)
    rw [memset_apply _ _ _ _ _ (by decide), if_neg (by unfold InPage at hbins; omega)]
  · refine Mem.read64_eq_zero fun k hk => ?_
    have hin : InPage g.bins (g.bins + BitVec.ofNat 64 k) := by
      unfold InPage
      rw [toNat_offset _ (by omega)]
      omega
    rw [hmem, setBins_of_not_inPage _ _ (by decide) fun hx => hapart.heap_bins _ hx hin,
      memset_apply _ _ _ _ _ (by decide), toNat_offset _ (by omega), if_pos hk]

theorem heapInitPages_head (hquiet : src.Quiet frames) {s s' : Machine σ} {g : HeapPages}
    (h : heapInitPages src s = some (g, s')) (hapart : g.Apart) {i : Nat} (hpos : 1 ≤ i)
    (hi : i < BIN_COUNT) :
    s'.mem.read64 (g.bins + BitVec.ofNat 64 (64 * i)) =
      s.mem.read64 (g.bins + BitVec.ofNat 64 (64 * i)) := by
  obtain ⟨pmm₁, mem₁, pmm₂, mem₂, rest, s₃, mem₄, h₁, h₂, h₃, -, h₄, hmem⟩ :=
    heapInitPages_eq_some h
  have hframe : g.bins ∈ frames := hquiet.returns _ _ _ _ _ h₄
  refine Mem.read64_congr fun k hk => ?_
  have hin := inPage_head g.bins hi hk
  have hregion := hapart.bins_region _ hin
  have hheap := fun hx => hapart.heap_bins _ hx hin
  have hpast : ¬ (g.bins + BitVec.ofNat 64 (64 * i) + BitVec.ofNat 64 k - g.bins).toNat < 8 := by
    unfold BIN_COUNT at hi
    bv_omega
  obtain ⟨x, hx⟩ : ∃ x, g.bins + BitVec.ofNat 64 (64 * i) + BitVec.ofNat 64 k = x := ⟨_, rfl⟩
  rw [hx] at hin hregion hheap hpast ⊢
  have hfar : ¬ InPage g.heap x := hheap
  unfold InPage at hfar
  calc s'.mem x = mem₄ x := by
        rw [hmem, setBins_of_not_inPage _ _ (by decide) hheap, memset_apply _ _ _ _ _ (by decide),
          if_neg hpast, Mem.write64_of_ge (by unfold binSlot; bv_omega)]
    _ = s₃.mem x := by
        rw [hquiet.keeps _ _ _ _ _ h₄ _ hframe _ hin, memset_apply _ _ _ _ _ (by decide),
          if_neg (by omega)]
    _ = mem₂ x := takePages_keeps hquiet h₃ hframe hin
    _ = mem₁ x := by
        rw [hquiet.keeps _ _ _ _ _ h₂ _ hframe _ hin, memset_apply _ _ _ _ _ (by decide),
          if_neg (by omega)]
    _ = s.mem x := hquiet.keeps _ _ _ _ _ h₁ _ hframe _ hin

end Pages

theorem poolSource_next {pool : PagePool} {p : Word} {rest : List Word}
    (h : pool.pages = p :: rest) :
    ∃ pool', pool'.pages = rest ∧ ∀ m, poolSource.getpage pool m = some (p, pool', m) := by
  obtain ⟨pages, hnodup, hframe⟩ := pool
  subst h
  exact ⟨_, rfl, fun m => rfl⟩

theorem takePages_poolSource {ps qs : List Word} {pool : PagePool} (h : pool.pages = ps ++ qs)
    (m : Mem) : ∃ pool', takePages poolSource ps.length ⟨m, pool⟩ = some (ps, ⟨m, pool'⟩) ∧
      pool'.pages = qs := by
  induction ps generalizing pool with
  | nil => exact ⟨pool, rfl, h⟩
  | cons p ps ih =>
    obtain ⟨pool₁, hpages, hget⟩ := poolSource_next h
    obtain ⟨pool₂, htake, hrest⟩ := ih hpages
    refine ⟨pool₂, ?_, hrest⟩
    simp only [List.length_cons, takePages, hget, Option.bind_eq_bind, Option.bind_some, htake]
    rfl

/-- The memory that `heap_init` makes of `m` when `pmm_getpage` itself writes nothing. -/
def preparedMem (g : HeapPages) (m : Mem) : Mem :=
  setBins g.heap (memset ((memset (memset m g.heap 0 88) g.region 0 HEAP_INIT_SIZE).write64
    (binSlot g.heap 0) g.bins) g.bins 0 8) (BIN_COUNT - 1)

theorem heapInitPages_poolSource {pool : PagePool} {heap region bins : Word} {ps : List Word}
    (h : pool.pages = heap :: region :: (ps ++ [bins])) (hlen : ps.length = 0x1ff) (m : Mem) :
    ∃ pool', heapInitPages poolSource ⟨m, pool⟩ = some (⟨heap, region, region :: ps, bins⟩,
      ⟨preparedMem ⟨heap, region, region :: ps, bins⟩ m, pool'⟩) := by
  obtain ⟨pool₁, hpages₁, hget₁⟩ := poolSource_next h
  obtain ⟨pool₂, hpages₂, hget₂⟩ := poolSource_next hpages₁
  obtain ⟨pool₃, htake, hpages₃⟩ := takePages_poolSource hpages₂ (memset m heap 0 88)
  obtain ⟨pool₄, -, hget₄⟩ := poolSource_next hpages₃
  rw [hlen] at htake
  simp only [heapInitPages, hget₁, hget₂, hget₄, htake, Option.bind_eq_bind, Option.bind_some,
    Mem.read64_write64_self]
  exact ⟨pool₄, rfl⟩

/-- 0x202 pages from 1 MiB on. -/
def heapPool : PagePool where
  pages := consecutive 0x202 0x100000
  nodup := consecutive_nodup (by decide) _
  frame := by
    intro p hp
    obtain ⟨i, hi, rfl⟩ := List.mem_map.mp hp
    rw [List.mem_range] at hi
    unfold FrameAddress PageAligned
    constructor <;> bv_omega

theorem heapPool_pages : heapPool.pages = consecutive 0x202 0x100000 := by simp only [heapPool]

/-- What `heap_init` makes of them. -/
def heapPoolPages : HeapPages :=
  ⟨0x100000, 0x101000, consecutive 0x200 0x101000, 0x301000⟩

theorem heapPoolPages_pages : heapPoolPages.pages = consecutive 0x200 heapPoolPages.region := by
  simp only [heapPoolPages]

theorem heapInitPages_heapPool (m : Mem) :
    ∃ pool', heapInitPages poolSource ⟨m, heapPool⟩ =
      some (heapPoolPages, ⟨preparedMem heapPoolPages m, pool'⟩) := by
  have hregion : (0x100000 : Word) + 0x1000#64 = 0x101000 := by decide
  have hsecond : (0x101000 : Word) + 0x1000#64 = 0x102000 := by decide
  have hbins : (0x102000 : Word) + BitVec.ofNat 64 (0x1000 * 0x1ff) = 0x301000 := by decide
  have hpages : heapPool.pages =
      0x100000 :: 0x101000 :: (consecutive 0x1ff 0x102000 ++ [0x301000]) := by
    rw [heapPool_pages, show 0x202 = 0x1ff + 1 + 1 + 1 from rfl, consecutive_succ, hregion,
      consecutive_succ, hsecond, consecutive_concat, hbins]
  obtain ⟨pool', hinit⟩ := heapInitPages_poolSource hpages (by rw [consecutive, List.length_map,
    List.length_range]) m
  refine ⟨pool', hinit.trans ?_⟩
  rw [heapPoolPages, ← hsecond, ← consecutive_succ]

theorem zero_taken_heapPool : 0 ∈ heapPool.taken := by
  show (0 : Word) ∉ heapPool.pages
  rw [heapPool_pages, consecutive, List.mem_map]
  rintro ⟨i, hi, heq⟩
  rw [List.mem_range] at hi
  bv_omega

theorem heapPoolPages_apart : heapPoolPages.Apart := by
  obtain ⟨pool', hpages⟩ := heapInitPages_heapPool fun _ => 0
  exact heapInitPages_apart (s := ⟨fun _ => 0, heapPool⟩) poolSource_lawful zero_taken_heapPool
    hpages heapPoolPages_pages

theorem preparedMem_prepared (m : Mem) : Prepared heapPoolPages (preparedMem heapPoolPages m) := by
  obtain ⟨pool', hpages⟩ := heapInitPages_heapPool m
  exact heapInitPages_prepared hpages heapPoolPages_apart

theorem preparedMem_head (m : Mem) {i : Nat} (hpos : 1 ≤ i) (hi : i < BIN_COUNT) :
    (preparedMem heapPoolPages m).read64 (heapPoolPages.bins + BitVec.ofNat 64 (64 * i)) =
      m.read64 (heapPoolPages.bins + BitVec.ofNat 64 (64 * i)) := by
  obtain ⟨pool', hpages⟩ := heapInitPages_heapPool m
  exact heapInitPages_head poolSource_quiet hpages heapPoolPages_apart hpos hi

/-- With an empty bin 8 `heap_init` returns on the stock, whatever the other words are. -/
theorem heapInit_heapPool {m : Mem} (hlast : m.read64 (heapPoolPages.bins + 512) = 0) :
    ∃ pool', heapInit poolSource ⟨m, heapPool⟩ =
      some (heapPoolPages, ⟨filled heapPoolPages (preparedMem heapPoolPages m), pool'⟩) := by
  obtain ⟨pool', hpages⟩ := heapInitPages_heapPool m
  have hempty := (preparedMem_head m (i := 8) (by decide) (by decide)).trans hlast
  refine ⟨pool', ?_⟩
  rw [heapInit_eq hpages, (preparedMem_prepared m).initHeap_empty hempty, Option.map_some]

/-! ## The heap after `heap_init` -/

/-- `heap_init` leaves a well-formed heap exactly when the words it uses as the heads of the
bins 1 to 8 were zero. -/
theorem heapInit_wellFormed_iff {σ : Type} {src : PageSource σ} {taken : σ → Set Word}
    {frames : Set Word} (hlaw : src.Lawful taken) (hquiet : src.Quiet frames)
    (s s₁ : Machine σ) (g : HeapPages) (hzero : 0 ∈ taken s.pmm)
    (hpages : heapInitPages src s = some (g, s₁)) (hrow : g.pages = consecutive 0x200 g.region) :
    (∃ s', heapInit src s = some (g, s') ∧ WellFormed g s'.mem) ↔
      ∀ i, 1 ≤ i → i < BIN_COUNT → s.mem.read64 (g.bins + BitVec.ofNat 64 (64 * i)) = 0 := by
  have hapart := heapInitPages_apart hlaw hzero hpages hrow
  have hprepared := heapInitPages_prepared hpages hapart
  have hwords : (∀ i, 1 ≤ i → i < BIN_COUNT →
      s.mem.read64 (g.bins + BitVec.ofNat 64 (64 * i)) = 0) ↔ ∀ i, 1 ≤ i → i < BIN_COUNT →
      s₁.mem.read64 (g.bins + BitVec.ofNat 64 (64 * i)) = 0 := by
    refine forall_congr' fun i => forall_congr' fun hpos => forall_congr' fun hi => ?_
    rw [heapInitPages_head hquiet hpages hapart hpos hi]
  rw [hwords, ← hprepared.initHeap_wellFormed_iff, heapInit_eq hpages]
  simp only [Option.map_eq_some_iff, Prod.mk.injEq, true_and]
  constructor
  · rintro ⟨s', ⟨m, hm, rfl⟩, hwf⟩
    exact ⟨m, hm, hwf⟩
  · rintro ⟨m, hm, hwf⟩
    exact ⟨_, ⟨m, hm, rfl⟩, hwf⟩

/-- In a memory of zeros the heap is well formed. -/
theorem zeroed_heap_wellFormed :
    ∃ s', heapInit poolSource ⟨fun _ => 0, heapPool⟩ = some (heapPoolPages, s') ∧
      WellFormed heapPoolPages s'.mem := by
  obtain ⟨pool', hpages⟩ := heapInitPages_heapPool fun _ => 0
  exact (heapInit_wellFormed_iff poolSource_lawful poolSource_quiet ⟨fun _ => 0, heapPool⟩ _
    heapPoolPages zero_taken_heapPool hpages heapPoolPages_pages).mpr
    fun i _ _ => Mem.read64_eq_zero fun _ _ => rfl

/-- A memory of zeros but for one byte, in the head of bin 1. -/
def staleMem : Mem := fun x => if x = 0x301040 then 1 else 0

/-- With that byte the list of bin 1 starts at the address 1. -/
theorem stale_heap_not_wellFormed :
    ∃ s', heapInit poolSource ⟨staleMem, heapPool⟩ = some (heapPoolPages, s') ∧
      s'.mem.read64 0x301040 = 1 ∧ ¬ WellFormed heapPoolPages s'.mem := by
  have hprepared := preparedMem_prepared staleMem
  obtain ⟨pool', hinit⟩ := heapInit_heapPool (m := staleMem) (by decide +kernel)
  have hone : (filled heapPoolPages (preparedMem heapPoolPages staleMem)).read64
      (heapPoolPages.bins + BitVec.ofNat 64 (64 * 1)) = 1 := by
    rw [hprepared.filled_head (by decide), if_neg (by decide),
      preparedMem_head staleMem (by decide) (by decide)]
    decide +kernel
  refine ⟨_, hinit, hone, fun hwf => ?_⟩
  obtain ⟨-, i, -, hrest⟩ := hwf.bins
  -- bin 1 and bin 8 both have a node
  have hi1 : i = 1 := by
    by_contra hne
    have hzero := hrest 1 (by decide) (Ne.symm hne)
    rw [hprepared.filled_slot (by decide), hone] at hzero
    cases hzero
  have hzero := hrest 8 (by decide) (by omega)
  rw [hprepared.filled_slot (by decide), hprepared.filled_head (by decide), if_pos rfl] at hzero
  exact heapPoolPages_apart.ne_zero hzero

end ChronOS.Shmall
