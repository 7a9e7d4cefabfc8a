/-
  Shmall/Allocator.lean --- `heap_alloc` and `heap_free` on tiles.

  `Represents` says that the memory holds a division of the region into tiles, with
  the holes in the bins.  `heap_alloc` keeps it and takes a best fit, and `heap_free`
  keeps it and joins the block to the holes next to it (`Foundation/Tiling.lean`
  says what both mean without the memory).

  Two things are as the code has them.  When the last tile of the region has fewer
  than 4096 bytes of payload, `heap_alloc` answers NULL, but only after the block is
  out of its bin: the tile stays in use and nobody has it.  And the block at the
  start of the region is freed without being joined to anything.
-/
import ChronOS.Shmall.Bins

set_option autoImplicit false

namespace ChronOS.Shmall

open ChronOS.Foundation

/-- The memory holds these tiles, and the bins the holes among them. -/
structure Represents (g : HeapPages) (m : Mem) (ts : List Tile) (lists : Nat → List Tile) :
    Prop where
  pages : Pages g m
  tiled : Tiling 32 0 ts HEAP_INIT_SIZE
  tags : ∀ t ∈ ts, Tagged g m t
  listed : Listed g m {t | t ∈ ts} lists

/-! ## The bytes of tiles -/

/-- The bytes of a tile. -/
def tileBytes (t : Tile) : Set Nat := Set.Ico t.off (t.stop 32)

/-- The bytes of the holes. -/
def freeBytes (ts : Set Tile) : Set Nat := {k | ∃ t ∈ holes ts, k ∈ tileBytes t}

section Bytes

variable {g : HeapPages} {ts : List Tile} {s t c : Tile} {k : Nat}

theorem spaced_of_tiling (h : Tiling 32 0 ts HEAP_INIT_SIZE) : Spaced {t | t ∈ ts} := by
  refine ⟨fun t ht => (h.bounds ht).2, fun s hs t ht hne => ?_⟩
  have := h.apart hs ht hne
  unfold Tile.stop at this
  omega

theorem le_of_mem_headBytes (hg : g.Placed) (hk : k ∈ headBytes g) : HEAP_INIT_SIZE ≤ k := by
  obtain ⟨i, hi, j, hj, rfl⟩ := hk
  exact hg.head_region hi j hj

/-- Links and list heads lie apart from the tags of every tile. -/
theorem tagBytes_links (hg : g.Placed) (h : Tiling 32 0 ts HEAP_INIT_SIZE) (hc : c ∈ ts)
    (hk : k ∈ tagBytes c) : k ∉ linkBytes {t | t ∈ ts} ∪ headBytes g := by
  have hin := (h.bounds hc).2
  unfold tagBytes Tile.stop at hk
  unfold Tile.stop at hin
  simp only [Set.mem_union, Set.mem_Ico] at hk
  rintro (⟨s, hs, hlo, hhi⟩ | hhead)
  · by_cases hsc : s = c
    · rw [hsc] at hlo hhi
      omega
    · have := h.apart hs hc hsc
      unfold Tile.stop at this
      omega
  · have := le_of_mem_headBytes hg hhead
    omega

theorem tagBytes_subset (t : Tile) : tagBytes t ⊆ tileBytes t := by
  rintro k (⟨hlo, hhi⟩ | ⟨hlo, hhi⟩)
  · exact ⟨hlo, by unfold Tile.stop; omega⟩
  · exact ⟨by omega, hhi⟩

theorem linkBytes_mono {S T : Set Tile} (hsub : S ⊆ T) : linkBytes S ⊆ linkBytes T :=
  fun _ ⟨t, ht, hk⟩ => ⟨t, hsub ht, hk⟩

theorem holes_subset (ts : Set Tile) : holes ts ⊆ ts := fun _ ht => ht.1

/-- Tags of one tile are no bytes of another. -/
theorem tagBytes_other (h : Tiling 32 0 ts HEAP_INIT_SIZE) (hc : c ∈ ts) (ht : t ∈ ts)
    (hne : c ≠ t) (hk : k ∈ tagBytes c) : k ∉ tileBytes t := by
  have := h.apart hc ht hne
  unfold tagBytes at hk
  unfold tileBytes
  unfold Tile.stop at *
  simp only [Set.mem_union, Set.mem_Ico] at hk ⊢
  omega

/-- The bytes of the holes and the list heads are not of the heap structure. -/
theorem freeBytes_inner (g : HeapPages) (h : Tiling 32 0 ts HEAP_INIT_SIZE) :
    freeBytes {t | t ∈ ts} ∪ headBytes g ⊆ Set.Iio HEAP_INIT_SIZE ∪ headBytes g :=
  Set.union_subset_union_left _ fun _ ⟨_, ht, hk⟩ => lt_of_lt_of_le hk.2 (h.bounds ht.1).2

theorem linkBytes_subset (ts : Set Tile) : linkBytes (holes ts) ⊆ freeBytes ts := by
  rintro k ⟨t, ht, hlo, hhi⟩
  refine ⟨t, ht, ?_, ?_⟩
  · omega
  · unfold Tile.stop
    omega

end Bytes

/-! ## `heap_alloc` -/

section Stamps

variable {g : HeapPages}

theorem createFoot_spec {m : Mem} {s : Tile}
    (hsize : nodeSize m (nodeAt g s) = BitVec.ofNat 32 s.size) (hin : s.stop 32 ≤ HEAP_INIT_SIZE) :
    Sized g (createFoot m (nodeAt g s)) s ∧
      nodeHole (createFoot m (nodeAt g s)) (nodeAt g s) = nodeHole m (nodeAt g s) ∧
      ChangesIn g.region (Set.Ico (s.off + 24 + s.size) (s.stop 32)) m
        (createFoot m (nodeAt g s)) := by
  have hheader : s.off + 32 ≤ HEAP_INIT_SIZE := by
    unfold Tile.stop at hin
    omega
  rw [createFoot, getFoot_eq hsize hin]
  have hc : ChangesIn g.region (Set.Ico (s.off + 24 + s.size) (s.stop 32)) m
      (m.write64 (footAt g s) (nodeAt g s)) := changesIn_foot ChangesIn.refl hin Set.Subset.rfl
  have hoff : ∀ k ∈ Set.Ico s.off (s.off + 8), k ∉ Set.Ico (s.off + 24 + s.size) (s.stop 32) := by
    intro k hk hk'
    have := hk.2
    have := hk'.1
    omega
  exact ⟨⟨(nodeSize_of_changesIn hc hheader hoff).trans hsize, Mem.read64_write64_self _ _ _⟩,
    nodeHole_of_changesIn hc hheader hoff, hc⟩

theorem tagged_stamp {s : Tile} (m : Mem) (hhole : s.hole = true)
    (hin : s.stop 32 ≤ HEAP_INIT_SIZE) :
    ∃ m', createFoot (setHole (setSize m (nodeAt g s) (BitVec.ofNat 32 s.size)) (nodeAt g s) 1)
        (nodeAt g s) = m' ∧ Tagged g m' s ∧ ChangesIn g.region (tagBytes s) m m' := by
  have hheader : s.off + 32 ≤ HEAP_INIT_SIZE := by
    unfold Tile.stop at hin
    omega
  obtain ⟨hsized, hkept, hfoot⟩ := createFoot_spec (g := g) (s := s)
    (m := setHole (setSize m (nodeAt g s) (BitVec.ofNat 32 s.size)) (nodeAt g s) 1)
    (by rw [nodeSize_setHole, nodeSize_setSize]) hin
  refine ⟨_, rfl, ⟨hsized, ?_⟩, ?_⟩
  · rw [hkept, nodeHole_setHole, hhole]
    rfl
  · exact (changesIn_setHole (changesIn_setSize ChangesIn.refl hheader Set.subset_union_left)
      hheader Set.subset_union_left).trans (hfoot.mono Set.subset_union_right)

/-- Setting the hole flag completes the tags. -/
theorem Sized.setHole {m : Mem} {s : Tile} (h : Sized g m s) (hin : s.stop 32 ≤ HEAP_INIT_SIZE)
    (b : Bool) :
    Tagged g (Shmall.setHole m (nodeAt g s) (if b then 1 else 0)) { s with hole := b } ∧
      ChangesIn g.region (Set.Ico s.off (s.off + 8)) m
        (Shmall.setHole m (nodeAt g s) (if b then 1 else 0)) := by
  have hheader : s.off + 32 ≤ HEAP_INIT_SIZE := by
    unfold Tile.stop at hin
    omega
  have hc : ChangesIn g.region (Set.Ico s.off (s.off + 8)) m
      (Shmall.setHole m (nodeAt g s) (if b then 1 else 0)) :=
    changesIn_setHole ChangesIn.refl hheader Set.Subset.rfl
  refine ⟨⟨⟨(nodeSize_setHole ..).trans h.size, ?_⟩, nodeHole_setHole ..⟩, hc⟩
  refine (foot_of_changesIn hc hin fun k hk hk' => ?_).trans h.foot
  have := hk.1
  have := hk'.2
  omega

end Stamps

/-- The rest of a hole that `heap_alloc` cuts off. -/
def splitTile (t : Tile) (n : Nat) : Tile := ⟨t.off + n + 32, t.size - n - 32, true⟩

section Split

variable {g : HeapPages} {m : Mem} {ts : List Tile} {lists : Nat → List Tile} {t : Tile} {n : Nat}
  (htiled : Tiling 32 0 ts HEAP_INIT_SIZE) (ht : t ∈ holes {t | t ∈ ts}) (hcut : n + 36 < t.size)

include hcut in
theorem splitTile_stop : (splitTile t n).stop 32 = t.stop 32 := by
  change t.off + n + 32 + (t.size - n - 32) + 32 = t.off + t.size + 32
  omega

include htiled ht hcut

theorem splitTile_notMem : splitTile t n ∉ {t | t ∈ ts} := by
  intro hmem
  have hne : splitTile t n ≠ t := fun heq => by
    have := congrArg Tile.off heq
    change t.off + n + 32 = t.off at this
    omega
  have := htiled.apart hmem ht.1 hne
  rw [splitTile_stop hcut] at this
  change t.off + t.size + 32 ≤ t.off ∨ t.off + t.size + 32 ≤ t.off + n + 32 at this
  omega

theorem spaced_insert_splitTile : Spaced (insert (splitTile t n) (holes {t | t ∈ ts})) := by
  have hold : ∀ c ∈ holes {t | t ∈ ts},
      (splitTile t n).off + 24 ≤ c.off ∨ c.off + 24 ≤ (splitTile t n).off := by
    intro c hc
    change t.off + n + 32 + 24 ≤ c.off ∨ c.off + 24 ≤ t.off + n + 32
    by_cases hct : c = t
    · subst hct
      omega
    · have := htiled.apart hc.1 ht.1 hct
      unfold Tile.stop at this
      omega
  refine ⟨?_, ?_⟩
  · rintro c (rfl | hc)
    · rw [splitTile_stop hcut]
      exact (htiled.bounds ht.1).2
    · exact (htiled.bounds hc.1).2
  · rintro c (rfl | hc) d (rfl | hd) hne
    · exact absurd rfl hne
    · exact hold d hd
    · exact (hold c hc).symm
    · exact (spaced_of_tiling htiled).apart hc.1 hd.1 hne

/-- The links of the holes and of the new one lie outside the hole that is cut or are the first
bytes behind one of the two tags in it. -/
theorem links_splitTile (hg : g.Placed) {k : Nat}
    (hk : k ∈ linkBytes (insert (splitTile t n) (holes {t | t ∈ ts})) ∪ headBytes g) :
    (k < t.off ∨ t.off + t.size + 32 ≤ k) ∨ (t.off + 8 ≤ k ∧ k < t.off + 24) ∨
      (t.off + n + 40 ≤ k ∧ k < t.off + n + 56) := by
  rcases hk with ⟨c, rfl | hc, hlo, hhi⟩ | hk
  · change t.off + n + 32 + 8 ≤ k at hlo
    change k < t.off + n + 32 + 24 at hhi
    omega
  · by_cases hct : c = t
    · subst hct
      omega
    · have := htiled.apart hc.1 ht.1 hct
      unfold Tile.stop at this
      omega
  · have := le_of_mem_headBytes hg hk
    have := (htiled.bounds ht.1).2
    unfold Tile.stop at this
    omega

/-- The words that `heap_alloc` computes are those of the new tile. -/
theorem splitNode_words {size : Word} (hn : size.toNat = n)
    (hsize : nodeSize m (nodeAt g t) = BitVec.ofNat 32 t.size) :
    (nodeSize m (nodeAt g t)).setWidth 64 - size > (overhead + MIN_ALLOC_SZ).setWidth 64 ∧
      nodeAt g t + 24 + 8 + size = nodeAt g (splitTile t n) ∧
      ((nodeSize m (nodeAt g t)).setWidth 64 - size - 24 - 8).setWidth 32 =
        BitVec.ofNat 32 (splitTile t n).size := by
  have hin := (htiled.bounds ht.1).2
  unfold HEAP_INIT_SIZE Tile.stop at hin
  rw [hsize]
  unfold overhead MIN_ALLOC_SZ nodeAt regionAt splitTile
  refine ⟨?_, ?_, ?_⟩ <;> bv_omega

end Split

section Alloc

variable {g : HeapPages} {m : Mem} {ts : List Tile} {lists : Nat → List Tile} {t : Tile} {n : Word}

/-- A hole with enough room is cut in two. -/
theorem splitNode_cut (hg : g.Placed) (h : Represents g m ts lists)
    (ht : t ∈ holes {t | t ∈ ts}) (hcut : n.toNat + 36 < t.size) :
    ∃ m' lists', splitNode m g.heap (nodeAt g t) n = some m' ∧
      Listed g m' (insert (splitTile t n.toNat) {t | t ∈ ts}) lists' ∧
      Sized g m' ⟨t.off, n.toNat, false⟩ ∧ Tagged g m' (splitTile t n.toNat) ∧
      ChangesIn g.region (linkBytes (holes {t | t ∈ ts}) ∪ headBytes g ∪ tileBytes t) m m' := by
  obtain ⟨hcond, haddr, hvalue⟩ := splitNode_words h.tiled ht hcut rfl (h.tags t ht.1).size
  have hlinks := fun k => links_splitTile (g := g) (k := k) h.tiled ht hcut hg
  have hspaced := spaced_insert_splitTile h.tiled ht hcut
  have hnew := splitTile_notMem h.tiled ht hcut
  have hsstop := splitTile_stop hcut
  have hsoff : (splitTile t n.toNat).off = t.off + n.toNat + 32 := rfl
  have hshole : (splitTile t n.toNat).hole = true := rfl
  have htin := (h.tiled.bounds ht.1).2
  have htstop : t.stop 32 = t.off + t.size + 32 := rfl
  generalize splitTile t n.toNat = s at *
  have hstop : s.stop 32 = s.off + s.size + 32 := rfl
  have hsub : linkBytes (holes {t | t ∈ ts}) ∪ headBytes g ⊆
      linkBytes (insert s (holes {t | t ∈ ts})) ∪ headBytes g :=
    Set.union_subset_union_left _ fun k ⟨c, hc, hk⟩ => ⟨c, Or.inr hc, hk⟩
  -- the tags of the new hole are written
  obtain ⟨m₃, hm₃, htag₃, hc₃⟩ := tagged_stamp (g := g) m hshole (hsstop ▸ htin)
  have htags : ∀ k ∈ tagBytes s, s.off ≤ k ∧ k < s.off + 8 ∨
      s.off + 24 + s.size ≤ k ∧ k < t.stop 32 := fun k hk => hsstop ▸ hk
  have hpages₃ : Pages g m₃ := h.pages.of_changesIn hg hc₃ fun k hk => by
    have := htags k hk
    exact Or.inl (show k < HEAP_INIT_SIZE by omega)
  have hholes := (spaced_of_tiling h.tiled).mono (fun c (hc : c ∈ holes {t | t ∈ ts}) => hc.1)
  have hlisted₃ : Listed g m₃ {t | t ∈ ts} lists := by
    refine h.listed.of_changesIn hholes hc₃ fun k hk hk' => ?_
    have := hlinks k (hsub hk)
    have := htags k hk'
    omega
  have hsizes : ∀ c ∈ insert s (holes {t | t ∈ ts}),
      nodeSize m₃ (nodeAt g c) = BitVec.ofNat 32 c.size := by
    rintro c (rfl | hc)
    · exact htag₃.size
    · rw [← (h.tags c hc.1).size]
      refine nodeSize_of_changesIn hc₃ (hholes.header hc) fun k hk hk' => ?_
      have := htags k hk'
      obtain ⟨hlo, hhi⟩ := hk
      by_cases hct : c = t
      · subst hct
        omega
      · have := h.tiled.apart hc.1 ht.1 hct
        have : c.stop 32 = c.off + c.size + 32 := rfl
        omega
  obtain ⟨m₄, lists', hadd, hlisted₄, hc₄⟩ := hlisted₃.addNode hg hspaced hnew hshole hsizes
  -- then those of the tile that is taken
  obtain ⟨hsized, -, hfoot⟩ := createFoot_spec (g := g) (s := ⟨t.off, n.toNat, false⟩)
    (m := setSize m₄ (nodeAt g t) (n.setWidth 32))
    (by
      rw [show nodeAt g ⟨t.off, n.toNat, false⟩ = nodeAt g t from rfl, nodeSize_setSize]
      bv_omega)
    (by
      change t.off + n.toNat + 32 ≤ _
      omega)
  have hc₆ : ChangesIn g.region (Set.Ico t.off (t.off + 8) ∪
      Set.Ico (t.off + n.toNat + 24) (t.off + n.toNat + 32)) m₄
      (createFoot (setSize m₄ (nodeAt g t) (n.setWidth 32)) (nodeAt g t)) := by
    refine (changesIn_setSize ChangesIn.refl (hholes.header ht) Set.subset_union_left).trans
      (hfoot.mono fun k hk => Or.inr ?_)
    obtain ⟨hlo, hhi⟩ := hk
    change t.off + 24 + n.toNat ≤ k at hlo
    change k < t.off + n.toNat + 32 at hhi
    exact ⟨by omega, hhi⟩
  have htaken : ∀ k ∈ Set.Ico t.off (t.off + 8) ∪
      Set.Ico (t.off + n.toNat + 24) (t.off + n.toNat + 32),
      t.off ≤ k ∧ k < t.off + 8 ∨ t.off + n.toNat + 24 ≤ k ∧ k < t.off + n.toNat + 32 :=
    fun k hk => hk
  refine ⟨_, lists', ?_, ?_, hsized, ?_, ?_⟩
  · rw [splitNode, if_pos hcond]
    dsimp only
    rw [haddr, hvalue, hm₃, hpages₃.binFor (hsstop ▸ htin) htag₃.size, hadd]
    rfl
  · refine hlisted₄.of_changesIn (holes_insert hshole ▸ hspaced) hc₆ fun k hk hk' => ?_
    have := hlinks k (holes_insert hshole ▸ hk)
    have := htaken k hk'
    omega
  · refine (htag₃.of_changesIn hc₄ (hsstop ▸ htin) fun k hk hk' => ?_).of_changesIn hc₆
      (hsstop ▸ htin) fun k hk hk' => ?_
    · have := htags k hk
      have := hlinks k hk'
      omega
    · have := htags k hk
      have := htaken k hk'
      omega
  · refine ((hc₃.mono fun k hk => ?_).trans (hc₄.mono fun k hk => ?_)).trans
      (hc₆.mono fun k hk => ?_)
    · have := htags k hk
      exact Or.inr ⟨by omega, by omega⟩
    · rcases hk with ⟨c, rfl | hc, hlo, hhi⟩ | hk
      · exact Or.inr ⟨by omega, by omega⟩
      · exact Or.inl (Or.inl ⟨c, hc, hlo, hhi⟩)
      · exact Or.inl (Or.inr hk)
    · have := htaken k hk
      exact Or.inr ⟨by omega, by omega⟩

/-- `heap_alloc` cuts a hole as `Tile.taken` and `Tile.rest` say; the hole is still in its bin. -/
theorem splitNode_spec (hg : g.Placed) (h : Represents g m ts lists)
    (ht : t ∈ holes {t | t ∈ ts}) (hn : n.toNat ≤ t.size) :
    ∃ m' lists', splitNode m g.heap (nodeAt g t) n = some m' ∧
      Listed g m' ({c | c ∈ t.rest 32 4 n.toNat} ∪ {t | t ∈ ts}) lists' ∧
      Sized g m' (t.taken 32 4 n.toNat) ∧ (∀ c ∈ t.rest 32 4 n.toNat, Tagged g m' c) ∧
      ChangesIn g.region (linkBytes (holes {t | t ∈ ts}) ∪ headBytes g ∪ tileBytes t) m m' := by
  by_cases hcut : n.toNat + 32 + 4 < t.size
  · obtain ⟨m', lists', hsplit, hlisted, hsized, htag, hc⟩ := splitNode_cut hg h ht hcut
    have hrest : t.rest 32 4 n.toNat = [splitTile t n.toNat] := if_pos hcut
    have htaken : t.taken 32 4 n.toNat = ⟨t.off, n.toNat, false⟩ := by
      rw [Tile.taken, if_pos hcut]
    refine ⟨m', lists', hsplit, ?_, htaken ▸ hsized, ?_, hc⟩
    · rw [hrest]
      simpa only [List.mem_singleton, Set.ofPred_eq_eq_singleton, Set.singleton_union] using hlisted
    · rw [hrest]
      exact fun c hc => List.mem_singleton.mp hc ▸ htag
  · have hin := (h.tiled.bounds ht.1).2
    have hsmall : ¬ (nodeSize m (nodeAt g t)).setWidth 64 - n >
        (overhead + MIN_ALLOC_SZ).setWidth 64 := by
      rw [(h.tags t ht.1).size]
      unfold overhead MIN_ALLOC_SZ
      unfold HEAP_INIT_SIZE Tile.stop at hin
      bv_omega
    have hrest : t.rest 32 4 n.toNat = [] := if_neg hcut
    have htaken : t.taken 32 4 n.toNat = ⟨t.off, t.size, false⟩ := by
      rw [Tile.taken, if_neg hcut]
    refine ⟨m, lists, if_neg hsmall, ?_, ?_, ?_, ChangesIn.refl⟩
    · rw [hrest]
      simpa only [List.not_mem_nil, Set.ofPred_false, Set.empty_union] using h.listed
    · rw [htaken]
      exact ⟨(h.tags t ht.1).size, (h.tags t ht.1).foot⟩
    · rw [hrest]
      exact fun c hc => absurd hc List.not_mem_nil

theorem spaced_rest (htiled : Tiling 32 0 ts HEAP_INIT_SIZE) (ht : t ∈ holes {t | t ∈ ts})
    (n : Nat) :
    Spaced (holes ({c | c ∈ t.rest 32 4 n} ∪ {t | t ∈ ts})) := by
  by_cases hcut : n + 32 + 4 < t.size
  · have hrest : t.rest 32 4 n = [splitTile t n] := if_pos hcut
    refine (spaced_insert_splitTile htiled ht hcut).mono ?_
    rintro c ⟨hc | hc, hhole⟩
    · rw [hrest] at hc
      exact Or.inl (List.mem_singleton.mp hc)
    · exact Or.inr ⟨hc, hhole⟩
  · have hrest : t.rest 32 4 n = [] := if_neg hcut
    refine (spaced_of_tiling htiled).mono ?_
    rintro c ⟨hc | hc, -⟩
    · rw [hrest] at hc
      exact absurd hc List.not_mem_nil
    · exact hc

/-- What happens in one tile, in links of holes and in the list heads leaves the tags of the
other tiles alone. -/
theorem tagged_other {m' : Mem} {c : Tile} (hg : g.Placed) (htiled : Tiling 32 0 ts HEAP_INIT_SIZE)
    (hc : c ∈ ts) (ht : t ∈ ts) (hne : c ≠ t) (htag : Tagged g m c)
    (hchange : ChangesIn g.region (linkBytes (holes {t | t ∈ ts}) ∪ headBytes g ∪ tileBytes t)
      m m') : Tagged g m' c := by
  refine htag.of_changesIn hchange (htiled.bounds hc).2 fun k hk hk' => ?_
  rcases hk' with hk' | hk'
  · exact tagBytes_links hg htiled hc hk
      (Set.union_subset_union_left _ (linkBytes_mono (holes_subset _)) hk')
  · exact tagBytes_other htiled hc ht hne hk hk'

/-- The part of `heap_alloc` that makes a hole a block in use. -/
theorem heapAlloc_take {pre post : List Tile} (hg : g.Placed)
    (h : Represents g m (pre ++ t :: post) lists) (hhole : t.hole = true) (hn : n.toNat ≤ t.size) :
    ∃ m₁ m' lists', splitNode m g.heap (nodeAt g t) n = some m₁ ∧
      removeNode (setHole m₁ (nodeAt g t) 0)
        (binAt (setHole m₁ (nodeAt g t) 0) g.heap (BitVec.ofNat 32 (binOf t.size)))
        (nodeAt g t) = some m' ∧
      Represents g m' (pre ++ t.taken 32 4 n.toNat :: (t.rest 32 4 n.toNat ++ post)) lists' ∧
      ChangesIn g.region (freeBytes {c | c ∈ pre ++ t :: post} ∪ headBytes g) m m' := by
  have htiled' := h.tiled.replace (Tile.taken_tiling 32 4 n.toNat t)
  have htmem : t ∈ pre ++ t :: post := by simp
  have ht : t ∈ holes {c | c ∈ pre ++ t :: post} := ⟨htmem, hhole⟩
  have htin := (h.tiled.bounds htmem).2
  have hspaced := spaced_rest h.tiled ht n.toNat
  obtain ⟨m₁, lists₁, hsplit, hlisted₁, hsized₁, hrest₁, hc₁⟩ := splitNode_spec hg h ht hn
  obtain ⟨S, hS⟩ : ∃ S, S = {c | c ∈ t.rest 32 4 n.toNat} ∪ {c | c ∈ pre ++ t :: post} := ⟨_, rfl⟩
  rw [← hS] at hspaced hlisted₁
  have htS : t ∈ holes S := hS ▸ ⟨Or.inr htmem, hhole⟩
  -- the links are those of the new tiles
  have hlinks : linkBytes (holes S) ∪ headBytes g ⊆ linkBytes
      {c | c ∈ pre ++ (t.taken 32 4 n.toNat :: t.rest 32 4 n.toNat ++ post)} ∪ headBytes g := by
    refine Set.union_subset_union_left _ ?_
    rintro k ⟨c, hc, hk⟩
    by_cases hct : c = t
    · exact ⟨t.taken 32 4 n.toNat, by simp, hct ▸ hk⟩
    · refine ⟨c, ?_, hk⟩
      have hmem := hS ▸ hc.1
      simp only [Set.mem_union, Set.mem_ofPred_eq, List.mem_append, List.mem_cons] at hmem ⊢
      tauto
  have htaken : t.taken 32 4 n.toNat ∈
      pre ++ (t.taken 32 4 n.toNat :: t.rest 32 4 n.toNat ++ post) := by simp
  have hin₁ := (htiled'.bounds htaken).2
  obtain ⟨htag₂, hc₂⟩ := hsized₁.setHole hin₁ false
  have hlisted₂ : Listed g (setHole m₁ (nodeAt g t) 0) S lists₁ := by
    refine hlisted₁.of_changesIn hspaced hc₂ fun k hk hk' => ?_
    exact tagBytes_links hg htiled' htaken (Or.inl hk') (hlinks hk)
  obtain ⟨m₃, lists₃, hremove, hlisted₃, hc₃⟩ := hlisted₂.removeNode hg hspaced htS
  -- everything has happened in the hole, in links of holes and in the list heads
  have hrest : linkBytes (holes S) ∪ headBytes g ⊆
      linkBytes (holes {c | c ∈ pre ++ t :: post}) ∪ headBytes g ∪ tileBytes t := by
    rintro k (⟨c, ⟨hc, hchole⟩, hlo, hhi⟩ | hk)
    · rcases hS ▸ hc with hc | hc
      · have hbounds := (Tile.taken_tiling 32 4 n.toNat t).bounds (List.mem_cons_of_mem _ hc)
        have : c.stop 32 = c.off + c.size + 32 := rfl
        exact Or.inr ⟨by omega, by omega⟩
      · exact Or.inl (Or.inl ⟨c, ⟨hc, hchole⟩, hlo, hhi⟩)
    · exact Or.inl (Or.inr hk)
  have hfree : linkBytes (holes {c | c ∈ pre ++ t :: post}) ∪ headBytes g ∪ tileBytes t ⊆
      freeBytes {c | c ∈ pre ++ t :: post} ∪ headBytes g :=
    Set.union_subset (Set.union_subset_union_left _ (linkBytes_subset _))
      fun k hk => Or.inl ⟨t, ht, hk⟩
  have hc₁₂ := hc₁.trans (hc₂.mono fun k hk => Or.inr (tagBytes_subset t (Or.inl hk)))
  have hall := hc₁₂.trans (hc₃.mono hrest)
  have hpages₂ : Pages g (setHole m₁ (nodeAt g t) 0) :=
    h.pages.of_changesIn hg hc₁₂ (hfree.trans (freeBytes_inner g h.tiled))
  have hpages₃ : Pages g m₃ :=
    h.pages.of_changesIn hg hall (hfree.trans (freeBytes_inner g h.tiled))
  have hothers : (∀ c ∈ pre, c ≠ t) ∧ ∀ c ∈ t.rest 32 4 n.toNat ++ post, c ≠ t := by
    obtain ⟨hpre, hpost⟩ := htiled'.around
    refine ⟨fun c hc heq => ?_, fun c hc heq => ?_⟩
    · have := hpre c hc
      rw [heq] at this
      change t.off + t.size + 32 ≤ t.off at this
      omega
    · have := hpost c hc
      rw [heq] at this
      change t.off + _ + 32 ≤ t.off at this
      omega
  refine ⟨m₁, m₃, lists₃, hsplit, ?_, ⟨hpages₃, htiled', fun c hc => ?_, hlisted₃.congr ?_⟩,
    hall.mono hfree⟩
  · rw [hpages₂.binAt_binOf]
    exact hremove
  · rw [List.mem_append, List.mem_cons, List.mem_append] at hc
    rcases hc with hc | rfl | hc | hc
    · have hmem : c ∈ pre ++ t :: post := List.mem_append_left _ hc
      exact tagged_other hg h.tiled hmem htmem (hothers.1 c hc) (h.tags c hmem) hall
    · exact htag₂.of_changesIn hc₃ hin₁
        fun k hk hk' => tagBytes_links hg htiled' htaken hk (hlinks hk')
    · have hmem : c ∈ pre ++ (t.taken 32 4 n.toNat :: t.rest 32 4 n.toNat ++ post) := by simp [hc]
      have hin := (htiled'.bounds hmem).2
      have hne : c ≠ t.taken 32 4 n.toNat := fun heq =>
        absurd (Tile.hole_of_mem_rest hc) (heq ▸ Bool.false_ne_true)
      refine ((hrest₁ c hc).of_changesIn hc₂ hin fun k hk hk' => ?_).of_changesIn hc₃ hin
        fun k hk hk' => tagBytes_links hg htiled' hmem hk (hlinks hk')
      exact tagBytes_other htiled' hmem htaken hne hk (tagBytes_subset _ (Or.inl hk'))
    · have hmem : c ∈ pre ++ t :: post := List.mem_append_right _ (List.mem_cons_of_mem _ hc)
      exact tagged_other hg h.tiled hmem htmem (hothers.2 c (List.mem_append_right _ hc))
        (h.tags c hmem) hall
  · ext c
    have hpre := hothers.1 c
    have hpost := hothers.2 c
    have hused : c.hole = true → c ≠ t.taken 32 4 n.toNat := fun hhole heq =>
      absurd hhole (heq ▸ Bool.false_ne_true)
    rw [hS]
    simp only [holes, Set.mem_ofPred_eq, Set.mem_sdiff, Set.mem_union, Set.mem_singleton_iff,
      List.mem_append, List.mem_cons] at hpost ⊢
    tauto

/-- Stores into a block in use, behind the first eight bytes of its node and before its footer. -/
theorem Represents.of_payload {m' : Mem} (hg : g.Placed) (h : Represents g m ts lists)
    (ht : t ∈ ts) (hused : t.hole = false)
    (hc : ChangesIn g.region (Set.Ico (t.off + 8) (t.off + 24 + t.size)) m m') :
    Represents g m' ts lists := by
  have hin := (h.tiled.bounds ht).2
  have hstop : t.stop 32 = t.off + t.size + 32 := rfl
  refine ⟨h.pages.of_changesIn hg hc fun k hk => ?_, h.tiled, fun c hc' => ?_, ?_⟩
  · have := hk.2
    exact Or.inl (show k < HEAP_INIT_SIZE by omega)
  · refine (h.tags c hc').of_changesIn hc (h.tiled.bounds hc').2 fun k hk hk' => ?_
    obtain ⟨hlo, hhi⟩ := hk'
    by_cases hct : c = t
    · subst hct
      rcases hk with ⟨-, hk⟩ | ⟨hk, -⟩ <;> omega
    · exact tagBytes_other h.tiled hc' ht hct hk ⟨by omega, by omega⟩
  · refine h.listed.of_changesIn ((spaced_of_tiling h.tiled).mono (holes_subset _)) hc
      fun k hk hk' => ?_
    obtain ⟨hlo, hhi⟩ := hk'
    rcases hk with ⟨c, ⟨hc', hhole⟩, hlo', hhi'⟩ | hk
    · have hne : c ≠ t := fun heq => absurd hhole (heq ▸ hused ▸ Bool.false_ne_true)
      have := h.tiled.apart hc' ht hne
      unfold Tile.stop at this
      omega
    · have := le_of_mem_headBytes hg hk
      omega

theorem Represents.getWilderness {front : List Tile} {w : Tile}
    (h : Represents g m (front ++ [w]) lists) : Shmall.getWilderness m g.heap = nodeAt g w := by
  obtain ⟨k, -, rfl, hend⟩ := Tiling.append_iff.mp h.tiled
  have hstop : w.off + w.size + 32 = HEAP_INIT_SIZE := hend
  have hfoot : regionAt g HEAP_INIT_SIZE - 8 = footAt g w := by
    unfold footAt regionAt
    rw [← hstop]
    bv_omega
  rw [Shmall.getWilderness, h.pages.stop, hfoot]
  exact (h.tags w (by simp)).foot

/-- The payload of the last tile. -/
def wilderness (ts : List Tile) : Nat := (ts.getLast?.map Tile.size).getD 0

theorem Represents.wilderness (h : Represents g m ts lists) :
    nodeSize m (Shmall.getWilderness m g.heap) < MIN_WILDERNESS ↔
      Shmall.wilderness ts < 0x1000 := by
  rcases List.eq_nil_or_concat' ts with rfl | ⟨front, w, rfl⟩
  · exact absurd (show 0 = HEAP_INIT_SIZE from h.tiled) (by decide)
  · have hin := (h.tiled.bounds (t := w) (by simp)).2
    unfold Tile.stop HEAP_INIT_SIZE at hin
    rw [h.getWilderness, (h.tags w (by simp)).size, Shmall.wilderness, List.getLast?_concat]
    change _ ↔ w.size < 0x1000
    rw [BitVec.lt_def, BitVec.toNat_ofNat, Nat.mod_eq_of_lt (by omega)]
    rfl

/-- `heap_alloc` answers NULL and changes nothing when no hole is large enough.  Otherwise it
takes a smallest one, and answers NULL if that leaves too small a tile at the end. -/
theorem heapAlloc_spec (hg : g.Placed) (h : Represents g m ts lists) (n : Word) :
    (heapAlloc g.heap n m = some (0, m) ∧ ∀ c ∈ ts, c.hole = true → c.size < n.toNat) ∨
      ∃ off ts' m' lists', BestFit 32 4 n.toNat ts off ts' ∧
        heapAlloc g.heap n m =
          some (if wilderness ts' < 0x1000 then 0 else regionAt g (off + 8), m') ∧
        Represents g m' ts' lists' ∧
        ChangesIn g.region (freeBytes {t | t ∈ ts} ∪ headBytes g) m m' := by
  have hspaced := (spaced_of_tiling h.tiled).mono (holes_subset _)
  rcases h.listed.findFit hg h.pages hspaced (fun s hs => (h.tags s hs.1).size) n with
    ⟨hnone, hsmall⟩ | ⟨t, ht, hfound, hle, hleast⟩
  · refine Or.inl ⟨?_, fun c hc hhole => hsmall c ⟨hc, hhole⟩⟩
    rw [heapAlloc, hnone]
    rfl
  right
  have hin := (h.tiled.bounds ht.1).2
  have hne : nodeAt g t ≠ 0 := regionAt_ne_zero hg (by unfold Tile.stop at hin; omega)
  obtain ⟨pre, post, rfl⟩ := List.append_of_mem ht.1
  obtain ⟨m₁, m₃, lists', hsplit, hremove, h₃, hc₃⟩ := heapAlloc_take hg h ht.2 hle
  have htaken : t.taken 32 4 n.toNat ∈
      pre ++ t.taken 32 4 n.toNat :: (t.rest 32 4 n.toNat ++ post) := by simp
  -- clearing the links of the block
  have hclear : ∀ A, Set.Ico (t.off + 8) (t.off + 24) ⊆ A →
      ChangesIn g.region A m₃ (setNext (setPrev m₃ (nodeAt g t) 0) (nodeAt g t) 0) :=
    fun A hA => changesIn_setNext (changesIn_setPrev ChangesIn.refl (hspaced.header ht) hA)
      (hspaced.header ht) hA
  refine ⟨t.off, _, if wilderness (pre ++ t.taken 32 4 n.toNat :: (t.rest 32 4 n.toNat ++ post)) <
      0x1000 then m₃ else setNext (setPrev m₃ (nodeAt g t) 0) (nodeAt g t) 0, lists',
    .take pre t post ht.2 hle (fun c hc hhole hn => hleast c ⟨hc, hhole⟩ hn), ?_, ?_, ?_⟩
  · rw [heapAlloc, hfound]
    dsimp only [Option.bind_eq_bind, Option.bind_some]
    rw [if_neg hne, hsplit]
    dsimp only [Option.bind_some]
    rw [hremove]
    dsimp only [Option.bind_some]
    by_cases hw : wilderness (pre ++ t.taken 32 4 n.toNat :: (t.rest 32 4 n.toNat ++ post)) < 0x1000
    · rw [if_pos (h₃.wilderness.mpr hw), if_pos hw, if_pos hw]
      rfl
    · rw [if_neg fun hlt => hw (h₃.wilderness.mp hlt), if_neg hw, if_neg hw, ← regionAt_add]
      rfl
  · split_ifs with hw
    · exact h₃
    · refine h₃.of_payload hg htaken rfl (hclear _ fun k hk => ⟨hk.1, ?_⟩)
      have := hk.2
      change k < t.off + 24 + _
      omega
  · split_ifs with hw
    · exact hc₃
    · refine hc₃.trans (hclear _ fun k hk => Or.inl ⟨t, ht, ?_, ?_⟩)
      · have := hk.1
        omega
      · have := hk.2
        unfold Tile.stop
        omega

end Alloc

end ChronOS.Shmall
