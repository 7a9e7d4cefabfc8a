/-
  Shmall/Tiles.lean --- the region of the heap as tiles, and the bins as lists of tiles.

  A node, its payload and its footer are a tile of the region: 24 bytes of header,
  `size` bytes and an 8-byte footer with the address of the node.  The header holds
  the hole flag and the size in its first eight bytes (with the footer these are
  the tags of the tile), and the links of the free list in the other sixteen.  For
  a block in use those sixteen bytes are the first of the user's: `kmalloc` answers
  the address behind the first eight.

  `Tagged` reads a tile off the memory and `Listed` the nine bins.  Stores are
  followed by the numbers of the bytes they change, counted from the region.
-/
import ChronOS.Foundation.Frames
import ChronOS.Foundation.Tiling
import ChronOS.Shmall.FreeLists
import ChronOS.Shmall.HeapInit

set_option autoImplicit false

namespace ChronOS.Shmall

open ChronOS.Foundation ChronOS.Mm

/-! ## Addresses -/

/-- The pages do not meet, and the region does not go around the end of memory. -/
structure HeapPages.Placed (g : HeapPages) : Prop extends g.Apart where
  bins_aligned : PageAligned g.bins
  fits : g.region.toNat + HEAP_INIT_SIZE ≤ 2 ^ 64

/-- The list head of a bin. -/
def listHead (g : HeapPages) (i : Nat) : Word := g.bins + BitVec.ofNat 64 (64 * i)

/-- The byte number `k` of the region. -/
def regionAt (g : HeapPages) (k : Nat) : Word := g.region + BitVec.ofNat 64 k

/-- The node of a tile. -/
def nodeAt (g : HeapPages) (t : Tile) : Word := regionAt g t.off

/-- The footer of a tile. -/
def footAt (g : HeapPages) (t : Tile) : Word := regionAt g (t.off + 24 + t.size)

/-- The bytes of the list heads. -/
def headBytes (g : HeapPages) : Set Nat :=
  {k | ∃ i < BIN_COUNT, ∃ j < 8, k = (listHead g i + BitVec.ofNat 64 j - g.region).toNat}

/-- The links in the headers of tiles. -/
def linkBytes (ts : Set Tile) : Set Nat := {k | ∃ t ∈ ts, t.off + 8 ≤ k ∧ k < t.off + 24}

/-- Tiles in the region whose headers do not overlap. -/
structure Spaced (ts : Set Tile) : Prop where
  inside : ∀ t ∈ ts, t.stop 32 ≤ HEAP_INIT_SIZE
  apart : ts.Pairwise fun s t => s.off + 24 ≤ t.off ∨ t.off + 24 ≤ s.off

theorem Spaced.mono {ts ts' : Set Tile} (h : Spaced ts') (hsub : ts ⊆ ts') : Spaced ts :=
  ⟨fun t ht => h.inside t (hsub ht), h.apart.mono hsub⟩

variable {g : HeapPages} {m m' : Mem} {t s : Tile} {ts : Set Tile} {i k : Nat}

/-- A tile has room for its header and its footer. -/
theorem Spaced.header (h : Spaced ts) (ht : t ∈ ts) : t.off + 32 ≤ HEAP_INIT_SIZE := by
  have := h.inside t ht
  unfold Tile.stop at this
  omega

theorem regionAt_add (g : HeapPages) (k j : Nat) :
    regionAt g k + BitVec.ofNat 64 j = regionAt g (k + j) := by
  rw [regionAt, regionAt, BitVec.add_assoc, BitVec.ofNat_add]

theorem regionAt_sub (g : HeapPages) (hk : k < 2 ^ 64) : (regionAt g k - g.region).toNat = k :=
  toNat_offset g.region hk

theorem regionAt_ne_zero (hg : g.Placed) (hk : k < HEAP_INIT_SIZE) : regionAt g k ≠ 0 := by
  have hfits := hg.fits
  have hne := hg.ne_zero
  unfold HEAP_INIT_SIZE at hfits hk
  unfold regionAt
  bv_omega

/-- A list head is no byte of the region. -/
theorem HeapPages.Placed.listHead_far (hg : g.Placed) (hi : i < BIN_COUNT) :
    HEAP_INIT_SIZE ≤ (listHead g i - g.region).toNat ∧
      (listHead g i - g.region).toNat + 8 ≤ 2 ^ 64 := by
  have hfirst := hg.head_region hi 0 (by decide)
  have hlast := hg.head_region hi 7 (by decide)
  unfold listHead HEAP_INIT_SIZE at *
  bv_omega

theorem offHeader_listHead (hg : g.Placed) (hi : i < BIN_COUNT) (ht : t.off + 32 ≤ HEAP_INIT_SIZE) :
    OffHeader (listHead g i) (nodeAt g t) := by
  obtain ⟨hfar, hend⟩ := hg.listHead_far hi
  unfold HEAP_INIT_SIZE at *
  unfold OffHeader nodeAt regionAt
  bv_omega

theorem Spaced.nodes (hg : g.Placed) (h : Spaced ts) (hi : i < BIN_COUNT) :
    Nodes (listHead g i) (nodeAt g '' ts) := by
  refine ⟨?_, ?_, ?_⟩
  · rintro _ ⟨t, ht, rfl⟩
    have := h.header ht
    exact regionAt_ne_zero hg (by omega)
  · rintro _ ⟨s, hs, rfl⟩ _ ⟨t, ht, rfl⟩ hne
    have hapart := h.apart hs ht fun heq => hne (congrArg (nodeAt g) heq)
    have hsin := h.header hs
    have htin := h.header ht
    unfold HEAP_INIT_SIZE at *
    unfold HeadersApart nodeAt regionAt
    bv_omega
  · rintro _ ⟨t, ht, rfl⟩
    exact offHeader_listHead hg hi (h.header ht)

/-- Different tiles have different nodes. -/
theorem Spaced.nodeAt_injOn (h : Spaced ts) : Set.InjOn (nodeAt g) ts := by
  intro s hs t ht heq
  by_contra hne
  have hapart := h.apart hs ht hne
  have hsin := h.header hs
  have htin := h.header ht
  unfold HEAP_INIT_SIZE at *
  unfold nodeAt regionAt at heq
  bv_omega

/-- What a list operation changes, by number. -/
theorem LinksOnly.changesIn (h : LinksOnly (nodeAt g '' ts) (listHead g i) m m')
    (hts : Spaced ts) (hi : i < BIN_COUNT) :
    ChangesIn g.region (linkBytes ts ∪ headBytes g) m m' := by
  intro y hy
  have hlinks : (y - g.region).toNat ∉ linkBytes ts := fun hk => hy (Or.inl hk)
  have hheads : (y - g.region).toNat ∉ headBytes g := fun hk => hy (Or.inr hk)
  refine h y ?_ (Nat.not_lt.mp fun hlt => hheads ⟨i, hi, _, hlt, ?_⟩)
  · rintro _ ⟨t, ht, rfl⟩
    by_contra hin
    refine hlinks ⟨t, ht, ?_⟩
    have hinside := hts.header ht
    unfold HEAP_INIT_SIZE at hinside
    unfold nodeAt regionAt at hin
    bv_omega
  · rw [add_offset]

/-! ## The tags of a tile -/

/-- Size and footer of a tile are in memory. -/
structure Sized (g : HeapPages) (m : Mem) (t : Tile) : Prop where
  size : nodeSize m (nodeAt g t) = BitVec.ofNat 32 t.size
  foot : m.read64 (footAt g t) = nodeAt g t

/-- So is the hole flag. -/
structure Tagged (g : HeapPages) (m : Mem) (t : Tile) : Prop extends Sized g m t where
  hole : nodeHole m (nodeAt g t) = if t.hole then 1 else 0

/-- The bytes of the tags. -/
def tagBytes (t : Tile) : Set Nat :=
  Set.Ico t.off (t.off + 8) ∪ Set.Ico (t.off + 24 + t.size) (t.stop 32)

section Tags

variable {A : Set Nat} {m₁ : Mem}

theorem nodeAt_add_four (g : HeapPages) (t : Tile) : nodeAt g t + 4 = regionAt g (t.off + 4) :=
  regionAt_add g t.off 4

theorem nodeHole_of_changesIn (hc : ChangesIn g.region A m m') (hin : t.off + 32 ≤ HEAP_INIT_SIZE)
    (hA : ∀ k ∈ Set.Ico t.off (t.off + 8), k ∉ A) :
    nodeHole m' (nodeAt g t) = nodeHole m (nodeAt g t) := by
  unfold HEAP_INIT_SIZE at hin
  exact hc.read (by omega) fun k hk => hA k ⟨hk.1, by have := hk.2; omega⟩

theorem nodeSize_of_changesIn (hc : ChangesIn g.region A m m') (hin : t.off + 32 ≤ HEAP_INIT_SIZE)
    (hA : ∀ k ∈ Set.Ico t.off (t.off + 8), k ∉ A) :
    nodeSize m' (nodeAt g t) = nodeSize m (nodeAt g t) := by
  unfold HEAP_INIT_SIZE at hin
  unfold nodeSize
  rw [nodeAt_add_four]
  exact hc.read (by omega) fun k hk => hA k ⟨by have := hk.1; omega, by have := hk.2; omega⟩

theorem foot_of_changesIn (hc : ChangesIn g.region A m m') (hin : t.stop 32 ≤ HEAP_INIT_SIZE)
    (hA : ∀ k ∈ Set.Ico (t.off + 24 + t.size) (t.stop 32), k ∉ A) :
    m'.read64 (footAt g t) = m.read64 (footAt g t) := by
  unfold HEAP_INIT_SIZE Tile.stop at *
  exact hc.read (by omega) fun k hk => hA k ⟨hk.1, by have := hk.2; omega⟩

theorem Sized.of_changesIn (h : Sized g m t) (hc : ChangesIn g.region A m m')
    (hin : t.stop 32 ≤ HEAP_INIT_SIZE) (hA : ∀ k ∈ tagBytes t, k ∉ A) : Sized g m' t := by
  have hin' : t.off + 32 ≤ HEAP_INIT_SIZE := by
    unfold Tile.stop at hin
    omega
  exact ⟨(nodeSize_of_changesIn hc hin' fun k hk => hA k (Or.inl hk)).trans h.size,
    (foot_of_changesIn hc hin fun k hk => hA k (Or.inr hk)).trans h.foot⟩

theorem Tagged.of_changesIn (h : Tagged g m t) (hc : ChangesIn g.region A m m')
    (hin : t.stop 32 ≤ HEAP_INIT_SIZE) (hA : ∀ k ∈ tagBytes t, k ∉ A) : Tagged g m' t := by
  have hin' : t.off + 32 ≤ HEAP_INIT_SIZE := by
    unfold Tile.stop at hin
    omega
  exact ⟨h.toSized.of_changesIn hc hin hA,
    (nodeHole_of_changesIn hc hin' fun k hk => hA k (Or.inl hk)).trans h.hole⟩

theorem nodeNext_of_changesIn (hc : ChangesIn g.region A m m') (hin : t.off + 32 ≤ HEAP_INIT_SIZE)
    (hA : ∀ k ∈ Set.Ico (t.off + 8) (t.off + 24), k ∉ A) :
    nodeNext m' (nodeAt g t) = nodeNext m (nodeAt g t) := by
  unfold HEAP_INIT_SIZE at hin
  unfold nodeNext
  rw [show nodeAt g t + 8 = regionAt g (t.off + 8) from regionAt_add g t.off 8]
  exact hc.read (n := 8) (by omega) fun k hk => hA k ⟨hk.1, by have := hk.2; omega⟩

theorem nodePrev_of_changesIn (hc : ChangesIn g.region A m m') (hin : t.off + 32 ≤ HEAP_INIT_SIZE)
    (hA : ∀ k ∈ Set.Ico (t.off + 8) (t.off + 24), k ∉ A) :
    nodePrev m' (nodeAt g t) = nodePrev m (nodeAt g t) := by
  unfold HEAP_INIT_SIZE at hin
  unfold nodePrev
  rw [show nodeAt g t + 16 = regionAt g (t.off + 16) from regionAt_add g t.off 16]
  exact hc.read (n := 8) (by omega)
    fun k hk => hA k ⟨by have := hk.1; omega, by have := hk.2; omega⟩

/-! Stores into a header or a footer. -/

section Stores

variable (hc : ChangesIn g.region A m m₁) (hin : t.off + 32 ≤ HEAP_INIT_SIZE)
  (hA : Set.Ico t.off (t.off + 8) ⊆ A)
include hc hin hA

theorem changesIn_setHole {v : BitVec 32} :
    ChangesIn g.region A m (setHole m₁ (nodeAt g t) v) := by
  unfold HEAP_INIT_SIZE at hin
  exact hc.write (n := 4) (by omega) fun k hk => hA ⟨hk.1, by have := hk.2; omega⟩

theorem changesIn_setSize {v : BitVec 32} :
    ChangesIn g.region A m (setSize m₁ (nodeAt g t) v) := by
  unfold HEAP_INIT_SIZE at hin
  unfold setSize
  rw [nodeAt_add_four]
  exact hc.write (n := 4) (by omega)
    fun k hk => hA ⟨by have := hk.1; omega, by have := hk.2; omega⟩

end Stores

section Links

variable (hc : ChangesIn g.region A m m₁) (hin : t.off + 32 ≤ HEAP_INIT_SIZE)
  (hA : Set.Ico (t.off + 8) (t.off + 24) ⊆ A)
include hc hin hA

theorem changesIn_setNext {v : Word} : ChangesIn g.region A m (setNext m₁ (nodeAt g t) v) := by
  unfold HEAP_INIT_SIZE at hin
  unfold setNext
  rw [show nodeAt g t + 8 = regionAt g (t.off + 8) from regionAt_add g t.off 8]
  exact hc.write64 (by omega) fun k hk => hA ⟨hk.1, by have := hk.2; omega⟩

theorem changesIn_setPrev {v : Word} : ChangesIn g.region A m (setPrev m₁ (nodeAt g t) v) := by
  unfold HEAP_INIT_SIZE at hin
  unfold setPrev
  rw [show nodeAt g t + 16 = regionAt g (t.off + 16) from regionAt_add g t.off 16]
  exact hc.write64 (by omega) fun k hk => hA ⟨by have := hk.1; omega, by have := hk.2; omega⟩

end Links

theorem changesIn_foot (hc : ChangesIn g.region A m m₁) (hin : t.stop 32 ≤ HEAP_INIT_SIZE)
    (hA : Set.Ico (t.off + 24 + t.size) (t.stop 32) ⊆ A) {v : Word} :
    ChangesIn g.region A m (m₁.write64 (footAt g t) v) := by
  unfold HEAP_INIT_SIZE Tile.stop at *
  exact hc.write64 (by omega) fun k hk => hA ⟨hk.1, by have := hk.2; omega⟩

theorem nodeHole_setHole (m : Mem) (node : Word) (v : BitVec 32) :
    nodeHole (setHole m node v) node = v :=
  Mem.read_write_self (n := 4) _ (by decide) _ _

theorem nodeSize_setSize (m : Mem) (node : Word) (v : BitVec 32) :
    nodeSize (setSize m node v) node = v :=
  Mem.read_write_self (n := 4) _ (by decide) _ _

/-- The two words of a tag do not meet. -/
theorem nodeSize_setHole (m : Mem) (node : Word) (v : BitVec 32) :
    nodeSize (setHole m node v) node = nodeSize m node :=
  Mem.read_write_of_disjoint (n := 4) (k := 4) fun j hj => by bv_omega

theorem getFoot_eq (hsize : nodeSize m (nodeAt g t) = BitVec.ofNat 32 t.size)
    (hin : t.stop 32 ≤ HEAP_INIT_SIZE) : getFoot m (nodeAt g t) = footAt g t := by
  unfold HEAP_INIT_SIZE Tile.stop at hin
  rw [getFoot, hsize]
  unfold footAt nodeAt regionAt
  bv_omega

end Tags

/-! ## Heap structure and bins -/

/-- The words of the heap structure. -/
structure Pages (g : HeapPages) (m : Mem) : Prop where
  start : m.read64 g.heap = g.region
  stop : m.read64 (g.heap + 8) = regionAt g HEAP_INIT_SIZE
  slots : ∀ i < BIN_COUNT, m.read64 (binSlot g.heap i) = listHead g i

/-- Stores into the region and the list heads. -/
theorem Pages.of_changesIn {A : Set Nat} (h : Pages g m) (hg : g.Placed)
    (hc : ChangesIn g.region A m m') (hA : A ⊆ Set.Iio HEAP_INIT_SIZE ∪ headBytes g) :
    Pages g m' := by
  have hword : ∀ a, (∀ j < 8, InPage g.heap (a + BitVec.ofNat 64 j)) →
      m'.read64 a = m.read64 a := by
    intro a ha
    refine hc.read_of_notMem (n := 8) fun j hj hin => ?_
    have hheap := ha j hj
    rcases hA hin with hlt | ⟨i, hi, k, hk, heq⟩
    · exact absurd (hg.heap_region _ hheap) (Nat.not_le.mpr hlt)
    · have haddr : a + BitVec.ofNat 64 j = listHead g i + BitVec.ofNat 64 k :=
        sub_left_injective (BitVec.eq_of_toNat_eq heq)
      exact hg.heap_bins _ hheap (haddr ▸ inPage_head g.bins hi hk)
  refine ⟨(hword _ fun j hj => ?_).trans h.start, (hword _ fun j hj => ?_).trans h.stop,
    fun i hi => (hword _ fun j hj => inPage_slot g.heap hi hj).trans (h.slots i hi)⟩
  · unfold InPage
    bv_omega
  · unfold InPage
    bv_omega

end ChronOS.Shmall
