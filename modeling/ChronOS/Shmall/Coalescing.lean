/-
  Shmall/Coalescing.lean --- `heap_free` on tiles.

  On its way from block to hole a tile belongs neither to the user nor to the bins.
  `Gap` is the state of the heap in between: everything around one tile is in order,
  and the tile itself may hold anything.  Joining it to a neighbour takes the
  neighbour out of its bin and makes the gap larger; in the end the gap is given
  the tags of a hole and goes into a bin.

  The code finds the neighbour behind by the size of the block and the one before by
  the footer in front of it.  Behind the last tile it reads the hole flag of a node
  that is not there: the four bytes behind the region.  It is left to the caller of
  these lemmas that they are zero then.
-/
import ChronOS.Shmall.Allocator

set_option autoImplicit false

namespace ChronOS.Shmall

open ChronOS.Foundation ChronOS.Mm

/-- All tiles but `t` are in order, and the bins hold the holes among them. -/
structure Gap (g : HeapPages) (m : Mem) (pre : List Tile) (t : Tile) (post : List Tile)
    (lists : Nat → List Tile) : Prop where
  pages : Pages g m
  tiled : Tiling 32 0 (pre ++ t :: post) HEAP_INIT_SIZE
  tags : ∀ c ∈ pre ++ post, Tagged g m c
  listed : Listed g m {c | c ∈ pre ++ post} lists

/-- The bytes that may change until the gap is a hole. -/
def gapBytes (g : HeapPages) (pre : List Tile) (t : Tile) (post : List Tile) : Set Nat :=
  freeBytes {c | c ∈ pre ++ post} ∪ tileBytes t ∪ headBytes g

section Gap

variable {g : HeapPages} {m m' : Mem} {pre post : List Tile} {p t c : Tile}
  {lists : Nat → List Tile}

theorem Represents.gap (h : Represents g m (pre ++ t :: post) lists) (hused : t.hole = false) :
    Gap g m pre t post lists := by
  have hsub : ∀ c ∈ pre ++ post, c ∈ pre ++ t :: post := fun c hc => by
    rcases List.mem_append.mp hc with hc | hc <;> simp [hc]
  refine ⟨h.pages, h.tiled, fun c hc => h.tags c (hsub c hc), h.listed.congr ?_⟩
  ext c
  constructor
  · exact fun hc => ⟨hsub c hc.1, hc.2⟩
  · rintro ⟨hc, hhole⟩
    have hne : c ≠ t := fun heq => absurd hhole (heq ▸ hused ▸ Bool.false_ne_true)
    refine ⟨?_, hhole⟩
    rcases List.mem_append.mp hc with hc | hc
    · exact List.mem_append_left _ hc
    · exact List.mem_append_right _ ((List.mem_cons.mp hc).resolve_left hne)

section Around

variable (hg : g.Placed) (h : Gap g m pre t post lists)
include h

theorem Gap.mem_tiles (hc : c ∈ pre ++ post) : c ∈ pre ++ t :: post ∧ c ≠ t := by
  have hnew := (List.nodup_cons.mp (List.nodup_middle.mp (h.tiled.nodup (by decide)))).1
  refine ⟨?_, fun heq => hnew (heq ▸ hc)⟩
  rcases List.mem_append.mp hc with hc | hc <;> simp [hc]

theorem Gap.spaced : Spaced {c | c ∈ pre ++ post} :=
  (spaced_of_tiling h.tiled).mono fun _ hc => (h.mem_tiles hc).1

include hg

/-- Links of the other tiles and list heads are no bytes of the gap. -/
theorem Gap.links_outside {k : Nat}
    (hk : k ∈ linkBytes (holes {c | c ∈ pre ++ post}) ∪ headBytes g) : k ∉ tileBytes t := by
  rintro ⟨hlo, hhi⟩
  have hin := (h.tiled.bounds (t := t) (by simp)).2
  rcases hk with ⟨c, ⟨hc, -⟩, hlo', hhi'⟩ | hk
  · obtain ⟨hmem, hne⟩ := h.mem_tiles hc
    have := h.tiled.apart hmem (t := t) (by simp) hne
    unfold Tile.stop at *
    omega
  · have := le_of_mem_headBytes hg hk
    omega

theorem Gap.of_changesIn (hc : ChangesIn g.region (tileBytes t) m m') :
    Gap g m' pre t post lists := by
  have ht : t ∈ pre ++ t :: post := by simp
  refine ⟨h.pages.of_changesIn hg hc fun k hk => ?_, h.tiled, fun c hmem => ?_, ?_⟩
  · exact Or.inl (lt_of_lt_of_le hk.2 (h.tiled.bounds ht).2)
  · obtain ⟨hmem', hne⟩ := h.mem_tiles hmem
    exact (h.tags c hmem).of_changesIn hc (h.tiled.bounds hmem').2
      fun k hk => tagBytes_other h.tiled hmem' ht hne hk
  · exact h.listed.of_changesIn (h.spaced.mono (holes_subset _)) hc
      fun k hk => h.links_outside hg hk

theorem Gap.removeNode (hmem : c ∈ pre ++ post) (hhole : c.hole = true) :
    ∃ m' lists', Shmall.removeNode m (binFor m g.heap (nodeAt g c)) (nodeAt g c) = some m' ∧
      Pages g m' ∧ (∀ d ∈ pre ++ post, Tagged g m' d) ∧
      Listed g m' ({d | d ∈ pre ++ post} \ {c}) lists' ∧
      ChangesIn g.region (linkBytes (holes {d | d ∈ pre ++ post}) ∪ headBytes g) m m' := by
  obtain ⟨hmem', -⟩ := h.mem_tiles hmem
  obtain ⟨m', lists', hremove, hlisted, hc⟩ :=
    h.listed.removeNode hg (h.spaced.mono (holes_subset _)) ⟨hmem, hhole⟩
  have hsub : linkBytes (holes {d | d ∈ pre ++ post}) ∪ headBytes g ⊆
      linkBytes {d | d ∈ pre ++ t :: post} ∪ headBytes g :=
    Set.union_subset_union_left _ (linkBytes_mono fun d hd => (h.mem_tiles hd.1).1)
  refine ⟨m', lists', ?_, ?_, fun d hd => ?_, hlisted, hc⟩
  · rw [h.pages.binFor (h.tiled.bounds hmem').2 (h.tags c hmem).size]
    exact hremove
  · refine h.pages.of_changesIn hg hc (Set.union_subset_union_left _ ?_)
    rintro k ⟨d, hd, -, hhi⟩
    have := h.spaced.header hd.1
    exact show k < HEAP_INIT_SIZE by omega
  · obtain ⟨hd', -⟩ := h.mem_tiles hd
    exact (h.tags d hd).of_changesIn hc (h.tiled.bounds hd').2
      fun k hk hk' => tagBytes_links hg h.tiled hd' hk (hsub hk')

/-- The gap together with a hole `c`, once that is out of its bin. -/
theorem Gap.grow {q : Tile} {pre' post' : List Tile} (hhole : c.hole = true)
    (htiled : Tiling 32 0 (pre' ++ q :: post') HEAP_INIT_SIZE)
    (hmem : ∀ d, d ∈ pre ++ post ↔ d = c ∨ d ∈ pre' ++ post') (hnew : c ∉ pre' ++ post') :
    ∃ m' lists', Shmall.removeNode m (binFor m g.heap (nodeAt g c)) (nodeAt g c) = some m' ∧
      Gap g m' pre' q post' lists' ∧ Tagged g m' c ∧
      ChangesIn g.region (linkBytes (holes {d | d ∈ pre ++ post}) ∪ headBytes g) m m' := by
  have hc := (hmem c).mpr (Or.inl rfl)
  obtain ⟨m', lists', hremove, hpages, htags, hlisted, hchange⟩ := h.removeNode hg hc hhole
  refine ⟨m', lists', hremove, ⟨hpages, htiled, fun d hd => htags d ((hmem d).mpr (Or.inr hd)),
    hlisted.congr ?_⟩, htags c hc, hchange⟩
  ext d
  constructor
  · exact fun hd => ⟨⟨(hmem d).mpr (Or.inr hd.1), fun heq => hnew (heq ▸ hd.1)⟩, hd.2⟩
  · exact fun hd => ⟨((hmem d).mp hd.1.1).resolve_left hd.1.2, hd.2⟩

end Around

theorem Tagged.nodeHole_ne_zero (h : Tagged g m t) (hhole : t.hole = true) :
    nodeHole m (nodeAt g t) ≠ 0 := by
  rw [h.hole, hhole]
  decide

/-- The size of the gap is kept when links of other tiles change. -/
theorem Gap.nodeSize_eq (hg : g.Placed) (h : Gap g m pre t post lists) (hsized : Sized g m t)
    (hc : ChangesIn g.region (linkBytes (holes {d | d ∈ pre ++ post}) ∪ headBytes g) m m') :
    nodeSize m' (nodeAt g t) = BitVec.ofNat 32 t.size := by
  have hspaced := spaced_of_tiling h.tiled
  refine (nodeSize_of_changesIn hc (hspaced.header (t := t) (by simp)) fun k hk hk' => ?_).trans
    hsized.size
  exact h.links_outside hg hk' (tagBytes_subset t (Or.inl hk))

/-- `heap_free` joins the block to the hole before it. -/
theorem mergePrev_hole (hg : g.Placed) (h : Gap g m (pre ++ [p]) t post lists)
    (hsized : Sized g m t) (hp : p.hole = true) :
    ∃ m' lists', mergePrev m g.heap (nodeAt g p) (nodeAt g t) = some (nodeAt g p, m') ∧
      Gap g m' pre ⟨p.off, p.size + 32 + t.size, t.hole⟩ post lists' ∧
      Sized g m' ⟨p.off, p.size + 32 + t.size, t.hole⟩ ∧
      ChangesIn g.region (gapBytes g (pre ++ [p]) t post) m m' := by
  have htiled := h.tiled
  rw [List.append_assoc, List.singleton_append] at htiled
  have hnodup := htiled.nodup (by decide)
  obtain ⟨m₁, lists₁, hremove, h₁, htag₁, hc₁⟩ := h.grow hg hp (htiled.join t.hole)
    (fun d => by simp only [List.mem_append, List.mem_singleton]; tauto)
    (fun hmem => (List.nodup_cons.mp (List.nodup_middle.mp hnodup)).1
      ((List.Sublist.append_left (List.sublist_cons_self t post) pre).subset hmem))
  have htoff : t.off = p.off + p.size + 32 := by
    obtain ⟨k, -, rfl, hoff, -⟩ := Tiling.append_iff.mp htiled
    exact hoff
  have htin := (htiled.bounds (t := t) (by simp)).2
  have hpin := (htiled.bounds (t := p) (by simp)).2
  have htsize := h.nodeSize_eq hg hsized hc₁
  obtain ⟨q, hq⟩ : ∃ q : Tile, q = ⟨p.off, p.size + 32 + t.size, t.hole⟩ := ⟨_, rfl⟩
  rw [← hq] at h₁ ⊢
  have hnode : nodeAt g q = nodeAt g p := by rw [hq]; rfl
  have hqstop : q.off = p.off ∧ q.stop 32 = t.stop 32 ∧
      q.off + 24 + q.size = t.off + 24 + t.size := by
    rw [hq]
    unfold Tile.stop
    dsimp only
    omega
  have hvalue : nodeSize m₁ (nodeAt g p) + (overhead + nodeSize m₁ (nodeAt g t)) =
      BitVec.ofNat 32 q.size := by
    rw [htag₁.size, htsize, hq, BitVec.ofNat_add, BitVec.ofNat_add, BitVec.add_assoc]
    rfl
  -- the size of the hole, and the footer of the block
  have hheader : q.off + 32 ≤ HEAP_INIT_SIZE := by
    unfold Tile.stop at htin
    omega
  have hc₂ : ChangesIn g.region (Set.Ico q.off (q.off + 8)) m₁
      (setSize m₁ (nodeAt g q) (BitVec.ofNat 32 q.size)) :=
    changesIn_setSize ChangesIn.refl hheader Set.Subset.rfl
  have hfoot : getFoot (setSize m₁ (nodeAt g q) (BitVec.ofNat 32 q.size)) (nodeAt g t) =
      getFoot (setSize m₁ (nodeAt g q) (BitVec.ofNat 32 q.size)) (nodeAt g q) := by
    rw [getFoot_eq (nodeSize_setSize ..) (hqstop.2.1 ▸ htin), footAt, hqstop.2.2]
    refine getFoot_eq ((nodeSize_of_changesIn hc₂ ?_ fun k hk hk' => ?_).trans htsize) htin
    · unfold Tile.stop at htin
      omega
    · have := hk.1
      have := hk'.2
      omega
  obtain ⟨hsized₃, -, hc₃⟩ := createFoot_spec (g := g) (s := q) (nodeSize_setSize m₁ _ _)
    (hqstop.2.1 ▸ htin)
  have hall : ChangesIn g.region (tileBytes q) m₁
      (createFoot (setSize m₁ (nodeAt g q) (BitVec.ofNat 32 q.size)) (nodeAt g q)) :=
    (hc₂.mono (Set.subset_union_left.trans (tagBytes_subset q))).trans
      (hc₃.mono (Set.subset_union_right.trans (tagBytes_subset q)))
  refine ⟨_, lists₁, ?_, h₁.of_changesIn hg hall, hsized₃, ?_⟩
  · rw [mergePrev, if_pos ((h.tags p (by simp)).nodeHole_ne_zero hp), hremove]
    dsimp only [Option.bind_eq_bind, Option.bind_some]
    rw [hvalue, ← hnode, hfoot]
    rfl
  · refine (hc₁.mono ?_).trans (hall.mono fun k hk => Or.inl ?_)
    · exact Set.union_subset_union_left _ ((linkBytes_subset _).trans Set.subset_union_left)
    · obtain ⟨hlo, hhi⟩ := hk
      by_cases hkt : t.off ≤ k
      · exact Or.inr ⟨hkt, hqstop.2.1 ▸ hhi⟩
      · refine Or.inl ⟨p, ⟨by simp, hp⟩, hqstop.1 ▸ hlo, ?_⟩
        unfold Tile.stop
        omega

/-- `heap_free` joins the hole behind it to the block. -/
theorem mergeNext_hole (hg : g.Placed) (h : Gap g m pre t (c :: post) lists)
    (hsized : Sized g m t) (hchole : c.hole = true) :
    ∃ m' lists', mergeNext m g.heap (nodeAt g t) (nodeAt g c) = some m' ∧
      Gap g m' pre ⟨t.off, t.size + 32 + c.size, t.hole⟩ post lists' ∧
      Sized g m' ⟨t.off, t.size + 32 + c.size, t.hole⟩ ∧
      ChangesIn g.region (gapBytes g pre t (c :: post)) m m' := by
  have hnodup := h.tiled.nodup (by decide)
  obtain ⟨m₁, lists₁, hremove, h₁, htag₁, hc₁⟩ := h.grow hg hchole (h.tiled.join t.hole)
    (fun d => by simp only [List.mem_append, List.mem_cons]; tauto)
    (fun hmem => by
      rw [← List.singleton_append, ← List.append_assoc] at hnodup
      refine (List.nodup_cons.mp (List.nodup_middle.mp hnodup)).1 ?_
      rcases List.mem_append.mp hmem with hmem | hmem <;> simp [hmem])
  have hcoff : c.off = t.off + t.size + 32 := by
    obtain ⟨k, -, rfl, hoff, -⟩ := Tiling.append_iff.mp h.tiled
    exact hoff
  have hcin := (h.tiled.bounds (t := c) (by simp)).2
  have htsize := h.nodeSize_eq hg hsized hc₁
  obtain ⟨q, hq⟩ : ∃ q : Tile, q = ⟨t.off, t.size + 32 + c.size, t.hole⟩ := ⟨_, rfl⟩
  rw [← hq] at h₁ ⊢
  have hnode : nodeAt g q = nodeAt g t := by rw [hq]; rfl
  have hqstop : q.off = t.off ∧ q.stop 32 = c.stop 32 ∧
      q.off + 24 + q.size = c.off + 24 + c.size := by
    rw [hq]
    unfold Tile.stop
    dsimp only
    omega
  have hvalue : nodeSize m₁ (nodeAt g t) + (overhead + nodeSize m₁ (nodeAt g c)) =
      BitVec.ofNat 32 q.size := by
    rw [htag₁.size, htsize, hq, BitVec.ofNat_add, BitVec.ofNat_add, BitVec.add_assoc]
    rfl
  -- the size of the block, the tags of the hole, and the footer again
  have hqin : q.stop 32 ≤ HEAP_INIT_SIZE := hqstop.2.1 ▸ hcin
  have hheader : q.off + 32 ≤ HEAP_INIT_SIZE := by
    unfold Tile.stop at hqin
    omega
  have hcheader : c.off + 32 ≤ HEAP_INIT_SIZE := by
    unfold Tile.stop at hcin
    omega
  have hc₂ : ChangesIn g.region (Set.Ico q.off (q.off + 8)) m₁
      (setSize m₁ (nodeAt g q) (BitVec.ofNat 32 q.size)) :=
    changesIn_setSize ChangesIn.refl hheader Set.Subset.rfl
  have hfoot : getFoot (setSize m₁ (nodeAt g q) (BitVec.ofNat 32 q.size)) (nodeAt g c) =
      footAt g c := by
    refine getFoot_eq
      ((nodeSize_of_changesIn hc₂ hcheader fun k hk hk' => ?_).trans htag₁.size) hcin
    have := hk.1
    have := hk'.2
    omega
  obtain ⟨m₅, hm₅⟩ : ∃ m₅, m₅ = setHole (setSize ((setSize m₁ (nodeAt g q)
      (BitVec.ofNat 32 q.size)).write64 (footAt g c) 0) (nodeAt g c) 0) (nodeAt g c) 0 := ⟨_, rfl⟩
  have hc₅ : ChangesIn g.region (tagBytes c) (setSize m₁ (nodeAt g q) (BitVec.ofNat 32 q.size))
      m₅ := by
    rw [hm₅]
    exact changesIn_setHole (changesIn_setSize (changesIn_foot ChangesIn.refl hcin
      Set.subset_union_right) hcheader Set.subset_union_left) hcheader Set.subset_union_left
  have hsize₅ : nodeSize m₅ (nodeAt g q) = BitVec.ofNat 32 q.size := by
    refine (nodeSize_of_changesIn hc₅ hheader fun k hk hk' => ?_).trans (nodeSize_setSize ..)
    have := hk.2
    have := (tagBytes_subset c hk').1
    omega
  obtain ⟨hsized₆, -, hc₆⟩ := createFoot_spec hsize₅ hqin
  have htile : tileBytes c ⊆ tileBytes q := by
    rintro k ⟨hlo, hhi⟩
    exact ⟨by omega, hqstop.2.1.symm ▸ hhi⟩
  have hall : ChangesIn g.region (tileBytes q) m₁ (createFoot m₅ (nodeAt g q)) :=
    ((hc₂.mono (Set.subset_union_left.trans (tagBytes_subset q))).trans
      (hc₅.mono ((tagBytes_subset c).trans htile))).trans
        (hc₆.mono (Set.subset_union_right.trans (tagBytes_subset q)))
  refine ⟨_, lists₁, ?_, h₁.of_changesIn hg hall, hsized₆, ?_⟩
  · rw [mergeNext, if_pos ((h.tags c (by simp)).nodeHole_ne_zero hchole), hremove]
    dsimp only [Option.bind_eq_bind, Option.bind_some]
    rw [hvalue, ← hnode, hfoot, ← hm₅]
    rfl
  · refine (hc₁.mono ?_).trans (hall.mono fun k hk => Or.inl ?_)
    · exact Set.union_subset_union_left _ ((linkBytes_subset _).trans Set.subset_union_left)
    · obtain ⟨hlo, hhi⟩ := hk
      by_cases hkc : c.off ≤ k
      · exact Or.inl ⟨c, ⟨by simp, hchole⟩, hkc, hqstop.2.1 ▸ hhi⟩
      · refine Or.inr ⟨hqstop.1 ▸ hlo, ?_⟩
        unfold Tile.stop
        omega

theorem addNode_gap (hg : g.Placed) (h : Gap g m pre t post lists) (hsized : Sized g m t) :
    ∃ m' lists', addNode (setHole m (nodeAt g t) 1)
        (binFor (setHole m (nodeAt g t) 1) g.heap (nodeAt g t)) (nodeAt g t) = some m' ∧
      Represents g m' (pre ++ { t with hole := true } :: post) lists' ∧
      ChangesIn g.region (gapBytes g pre t post) m m' := by
  have htin := (h.tiled.bounds (t := t) (by simp)).2
  obtain ⟨htag, hc₁⟩ := hsized.setHole htin true
  have hc₁ := hc₁.mono (Set.subset_union_left.trans (tagBytes_subset t))
  obtain ⟨m₁, hm₁⟩ : ∃ m₁, m₁ = setHole m (nodeAt g t) 1 := ⟨_, rfl⟩
  rw [if_pos rfl, ← hm₁] at htag hc₁
  obtain ⟨s, hs⟩ : ∃ s : Tile, s = { t with hole := true } := ⟨_, rfl⟩
  rw [← hs] at htag ⊢
  have hnode : nodeAt g s = nodeAt g t := by rw [hs]; rfl
  have hbytes : tileBytes s = tileBytes t := by rw [hs]; rfl
  have h₁ : Gap g m₁ pre s post lists := by
    obtain ⟨hpages, -, htags, hlisted⟩ := h.of_changesIn hg hc₁
    exact ⟨hpages, hs ▸ h.tiled.setHole true, htags, hlisted⟩
  have hmem : s ∈ pre ++ s :: post := by simp
  have hsin := (h₁.tiled.bounds hmem).2
  have hsub : insert s {c | c ∈ pre ++ post} ⊆ {c | c ∈ pre ++ s :: post} :=
    Set.insert_subset hmem fun c hc => (h₁.mem_tiles hc).1
  have hholes : insert s (holes {c | c ∈ pre ++ post}) ⊆ {c | c ∈ pre ++ s :: post} :=
    (Set.insert_subset_insert (holes_subset _)).trans hsub
  obtain ⟨m₂, lists₂, hadd, hlisted₂, hc₂⟩ := h₁.listed.addNode hg
    ((spaced_of_tiling h₁.tiled).mono hholes) (fun hc => (h₁.mem_tiles hc).2 rfl)
    (by rw [hs]) (by
      rintro c (rfl | hc)
      · exact htag.size
      · exact (h₁.tags c hc.1).size)
  have hlinks := Set.union_subset_union_left (headBytes g) (linkBytes_mono hholes)
  refine ⟨m₂, lists₂, ?_, ⟨?_, h₁.tiled, fun c hc => ?_, hlisted₂.congr ?_⟩, ?_⟩
  · rw [← hm₁, ← hnode, h₁.pages.binFor hsin htag.size]
    exact hadd
  · refine h₁.pages.of_changesIn hg hc₂ (Set.union_subset_union_left _ ?_)
    rintro k ⟨c, hc, -, hhi⟩
    have := (spaced_of_tiling h₁.tiled).header (hholes hc)
    exact show k < HEAP_INIT_SIZE by omega
  · have htag₁ : Tagged g m₁ c := by
      by_cases hcs : c = s
      · exact hcs ▸ htag
      · refine h₁.tags c ?_
        rcases List.mem_append.mp hc with hc | hc
        · exact List.mem_append_left _ hc
        · exact List.mem_append_right _ ((List.mem_cons.mp hc).resolve_left hcs)
    exact htag₁.of_changesIn hc₂ (h₁.tiled.bounds hc).2
      fun k hk hk' => tagBytes_links hg h₁.tiled hc hk (hlinks hk')
  · congr 1
    ext c
    simp only [Set.mem_insert_iff, Set.mem_ofPred_eq, List.mem_append, List.mem_cons]
    tauto
  · refine (hc₁.mono fun k hk => Or.inl (Or.inr hk)).trans (hc₂.mono ?_)
    rintro k (⟨c, rfl | hc, hlo, hhi⟩ | hk)
    · refine Or.inl (Or.inr (hbytes ▸ ⟨by omega, ?_⟩))
      unfold Tile.stop
      omega
    · exact Or.inl (Or.inl (linkBytes_subset _ ⟨c, hc, hlo, hhi⟩))
    · exact Or.inr hk

end Gap

/-! ## The whole of `heap_free` -/

/-- The four bytes that `heap_free` takes for a hole flag behind the last tile are zero.  If the
list heads begin there, they are the low half of the head of bin 0, and the bin has to be empty. -/
def EndClear (g : HeapPages) (m : Mem) : Prop :=
  if g.bins = regionAt g HEAP_INIT_SIZE then m.read64 g.bins = 0
  else nodeHole m (regionAt g HEAP_INIT_SIZE) = 0

/-- The tiles after `heap_free`: the first one is not joined to its neighbour. -/
def released (pre : List Tile) (t : Tile) (post : List Tile) : List Tile :=
  if pre = [] then { t with hole := true } :: post else coalesce 32 pre t post

section Free

variable {g : HeapPages} {m m' : Mem} {pre post pre' post' : List Tile} {p t t' c : Tile}
  {lists lists' : Nat → List Tile}

theorem nodeHole_eq_zero {a : Word} (h : m.read64 a = 0) : nodeHole m a = 0 := by
  refine BitVec.eq_of_getLsbD_eq fun i hi => ?_
  have hword := congrArg (BitVec.getLsbD · i) h
  rw [Mem.read64, Mem.getLsbD_read m 8 a i (by omega), ← Mem.getLsbD_read m 4 a i hi] at hword
  exact hword.trans (by simp)

/-- Joining to the hole before changes nothing behind the region that `heap_free` reads there. -/
theorem EndClear.nodeHole (hclear : EndClear g m) (hg : g.Placed) (h : Gap g m pre t post lists)
    (h' : Gap g m' pre' t' post' lists') (hsub : ∀ c ∈ pre' ++ post', c ∈ pre ++ post)
    (hc : ChangesIn g.region (gapBytes g pre t post) m m') :
    Shmall.nodeHole m' (regionAt g HEAP_INIT_SIZE) = 0 := by
  unfold EndClear at hclear
  split_ifs at hclear with hbins
  · have hhead : listHead g 0 = g.bins := BitVec.add_zero g.bins
    have hempty : lists 0 = [] := by
      have hlinked := h.listed.linked 0 (by decide)
      rw [hhead] at hlinked
      exact List.map_eq_nil_iff.mp (hlinked.eq_nil_of_head hclear)
    have hempty' : lists' 0 = [] := by
      refine List.eq_nil_iff_forall_not_mem.mpr fun c hc => ?_
      obtain ⟨⟨hmem, hhole⟩, hbin⟩ := (h'.listed.mem_iff 0 (by decide) c).mp hc
      have := (h.listed.mem_iff 0 (by decide) c).mpr ⟨⟨hsub c hmem, hhole⟩, hbin⟩
      rw [hempty] at this
      exact absurd this List.not_mem_nil
    have hlinked := h'.listed.linked 0 (by decide)
    rw [hhead, hempty'] at hlinked
    rw [← hbins]
    exact nodeHole_eq_zero (DList.nil_iff.mp hlinked)
  · refine (hc.read_of_notMem (n := 4) fun j hj hk => ?_).trans hclear
    have hidx : (regionAt g HEAP_INIT_SIZE + BitVec.ofNat 64 j - g.region).toNat =
        HEAP_INIT_SIZE + j := by
      rw [regionAt_add, regionAt_sub g (by unfold HEAP_INIT_SIZE; omega)]
    rw [hidx] at hk
    rcases hk with (⟨c, hc, hk⟩ | hk) | ⟨i, hi, k, hk, heq⟩
    · have := hk.2
      have := h.spaced.inside c hc.1
      omega
    · have := hk.2
      have := (h.tiled.bounds (t := t) (by simp)).2
      omega
    · refine hbins ?_
      have haligned := hg.aligned
      have hbaligned := hg.bins_aligned
      unfold PageAligned at haligned hbaligned
      unfold BIN_COUNT at hi
      unfold listHead HEAP_INIT_SIZE at heq
      unfold regionAt HEAP_INIT_SIZE
      bv_omega

theorem mergePrev_spec (hg : g.Placed) (h : Gap g m (pre ++ [p]) t post lists)
    (hsized : Sized g m t) {q : Tile} (hq : joinPrev 32 (pre ++ [p]) t = (pre', q)) :
    ∃ m' lists', mergePrev m g.heap (nodeAt g p) (nodeAt g t) = some (nodeAt g q, m') ∧
      Gap g m' pre' q post lists' ∧ Sized g m' q ∧ (∀ c ∈ pre', c ∈ pre ++ [p]) ∧
      q.stop 32 = t.stop 32 ∧ ChangesIn g.region (gapBytes g (pre ++ [p]) t post) m m' ∧
      gapBytes g pre' q post ⊆ gapBytes g (pre ++ [p]) t post := by
  have htiled := h.tiled
  rw [List.append_assoc, List.singleton_append] at htiled
  have htoff : t.off = p.off + p.size + 32 := by
    obtain ⟨k, -, rfl, hoff, -⟩ := Tiling.append_iff.mp htiled
    exact hoff
  rw [joinPrev_concat] at hq
  split_ifs at hq with hp
  · cases hq
    obtain ⟨m', lists', hmerge, hgap, hsized', hc⟩ := mergePrev_hole hg h hsized hp
    refine ⟨m', lists', hmerge, hgap, hsized', fun c hc => List.mem_append_left _ hc, ?_, hc, ?_⟩
    · unfold Tile.stop
      dsimp only
      omega
    · rintro k ((⟨c, ⟨hc, hhole⟩, hk⟩ | ⟨hlo, hhi⟩) | hk)
      · refine Or.inl (Or.inl ⟨c, ⟨?_, hhole⟩, hk⟩)
        rcases List.mem_append.mp hc with hc | hc <;> simp [hc]
      · change p.off ≤ k at hlo
        change k < p.off + (p.size + 32 + t.size) + 32 at hhi
        by_cases hk : k < t.off
        · exact Or.inl (Or.inl ⟨p, ⟨by simp, hp⟩, hlo, by unfold Tile.stop; omega⟩)
        · exact Or.inl (Or.inr ⟨by omega, by unfold Tile.stop; omega⟩)
      · exact Or.inr hk
  · cases hq
    have hzero : Shmall.nodeHole m (nodeAt g p) = 0 := by
      rw [(h.tags p (by simp)).hole, if_neg hp]
    refine ⟨m, lists, ?_, h, hsized, fun c hc => hc, rfl, ChangesIn.refl, Set.Subset.rfl⟩
    rw [mergePrev, if_neg (not_not.mpr hzero)]

theorem mergeNext_spec (hg : g.Placed) (h : Gap g m pre t post lists) (hsized : Sized g m t)
    (hend : post = [] → Shmall.nodeHole m (regionAt g HEAP_INIT_SIZE) = 0) {q : Tile}
    (hq : joinNext 32 t post = (q, post')) :
    ∃ m' lists', mergeNext m g.heap (nodeAt g t) (regionAt g (t.stop 32)) = some m' ∧
      Gap g m' pre q post' lists' ∧ Sized g m' q ∧ nodeAt g q = nodeAt g t ∧
      ChangesIn g.region (gapBytes g pre t post) m m' ∧
      gapBytes g pre q post' ⊆ gapBytes g pre t post := by
  cases post with
  | nil =>
    cases hq
    have hstop : t.stop 32 = HEAP_INIT_SIZE := by
      obtain ⟨k, -, rfl, hstop⟩ := Tiling.append_iff.mp h.tiled
      exact hstop
    refine ⟨m, lists, ?_, h, hsized, rfl, ChangesIn.refl, Set.Subset.rfl⟩
    rw [mergeNext, hstop, if_neg (not_not.mpr (hend rfl))]
  | cons c post =>
    have hcoff : c.off = t.off + t.size + 32 := by
      obtain ⟨k, -, rfl, hoff, -⟩ := Tiling.append_iff.mp h.tiled
      exact hoff
    have hnode : regionAt g (t.stop 32) = nodeAt g c := congrArg (regionAt g) hcoff.symm
    rw [hnode]
    rw [joinNext] at hq
    split_ifs at hq with hhole
    · cases hq
      obtain ⟨m', lists', hmerge, hgap, hsized', hc⟩ := mergeNext_hole hg h hsized hhole
      refine ⟨m', lists', hmerge, hgap, hsized', rfl, hc, ?_⟩
      rintro k ((⟨d, ⟨hd, hdhole⟩, hk⟩ | ⟨hlo, hhi⟩) | hk)
      · refine Or.inl (Or.inl ⟨d, ⟨?_, hdhole⟩, hk⟩)
        rcases List.mem_append.mp hd with hd | hd <;> simp [hd]
      · change t.off ≤ k at hlo
        change k < t.off + (t.size + 32 + c.size) + 32 at hhi
        by_cases hk : k < c.off
        · exact Or.inl (Or.inr ⟨hlo, by unfold Tile.stop; omega⟩)
        · exact Or.inl (Or.inl ⟨c, ⟨by simp, hhole⟩, by omega, by unfold Tile.stop; omega⟩)
      · exact Or.inr hk
    · cases hq
      have hzero : Shmall.nodeHole m (nodeAt g c) = 0 := by
        rw [(h.tags c (by simp)).hole, if_neg hhole]
      refine ⟨m, lists, ?_, h, hsized, rfl, ChangesIn.refl, Set.Subset.rfl⟩
      rw [mergeNext, if_neg (not_not.mpr hzero)]

/-- `heap_free` makes the block a hole and joins it to the holes next to it, unless it is the
first block of the region. -/
theorem heapFree_spec (hg : g.Placed) (h : Represents g m (pre ++ t :: post) lists)
    (hused : t.hole = false) (hend : pre ≠ [] → post = [] → EndClear g m) :
    ∃ m' lists', heapFree g.heap (regionAt g (t.off + 8)) m = some m' ∧
      Represents g m' (released pre t post) lists' ∧
      ChangesIn g.region (gapBytes g pre t post) m m' := by
  have htag := h.tags t (by simp)
  have htin := (h.tiled.bounds (t := t) (by simp)).2
  have hgap := h.gap hused
  have hhead : regionAt g (t.off + 8) - 8 = nodeAt g t := by
    rw [← regionAt_add]
    exact BitVec.add_sub_cancel ..
  rw [heapFree, hhead, h.pages.start]
  dsimp only
  rcases List.eq_nil_or_concat' pre with rfl | ⟨pre, p, rfl⟩
  · have hoff : t.off = 0 := h.tiled.1
    have hstart : nodeAt g t = g.region := by
      rw [nodeAt, hoff]
      exact BitVec.add_zero _
    obtain ⟨m', lists', hadd, hrep, hc⟩ := addNode_gap hg hgap htag.toSized
    exact ⟨m', lists', (if_pos hstart).trans hadd, hrep, hc⟩
  have htiled := h.tiled
  rw [List.append_assoc, List.singleton_append] at htiled
  have htoff : t.off = p.off + p.size + 32 := by
    obtain ⟨k, -, rfl, hoff, -⟩ := Tiling.append_iff.mp htiled
    exact hoff
  have hstart : nodeAt g t ≠ g.region := by
    unfold Tile.stop HEAP_INIT_SIZE at htin
    unfold nodeAt regionAt
    bv_omega
  have hprev : m.read64 (nodeAt g t - 8) = nodeAt g p := by
    have hfoot : nodeAt g t - 8 = footAt g p := by
      rw [nodeAt, htoff, show p.off + p.size + 32 = p.off + 24 + p.size + 8 by omega,
        ← regionAt_add]
      exact BitVec.add_sub_cancel ..
    rw [hfoot]
    exact (h.tags p (by simp)).foot
  have hnext : getFoot m (nodeAt g t) + 8 = regionAt g (t.stop 32) := by
    rw [getFoot_eq htag.size htin, footAt]
    refine (regionAt_add g _ 8).trans (congrArg (regionAt g) ?_)
    unfold Tile.stop
    omega
  obtain ⟨⟨pre', q⟩, hq⟩ : ∃ r, joinPrev 32 (pre ++ [p]) t = r := ⟨_, rfl⟩
  obtain ⟨⟨q', post'⟩, hq'⟩ : ∃ r, joinNext 32 q post = r := ⟨_, rfl⟩
  obtain ⟨m₁, lists₁, hmerge₁, hgap₁, hsized₁, hsub₁, hstop₁, hc₁, hbytes₁⟩ :=
    mergePrev_spec hg hgap htag.toSized hq
  have hend₁ : post = [] → Shmall.nodeHole m₁ (regionAt g HEAP_INIT_SIZE) = 0 := fun hnil =>
    (hend (by simp) hnil).nodeHole hg hgap hgap₁ (fun c hc => by
      rcases List.mem_append.mp hc with hc | hc
      · exact List.mem_append_left _ (hsub₁ c hc)
      · exact List.mem_append_right _ hc) hc₁
  obtain ⟨m₂, lists₂, hmerge₂, hgap₂, hsized₂, hnode₂, hc₂, hbytes₂⟩ :=
    mergeNext_spec hg hgap₁ hsized₁ hend₁ hq'
  obtain ⟨m₃, lists₃, hadd, hrep, hc₃⟩ := addNode_gap hg hgap₂ hsized₂
  have hreleased : released (pre ++ [p]) t post = pre' ++ { q' with hole := true } :: post' := by
    rw [released, if_neg (by simp), coalesce, hq]
    dsimp only
    rw [hq']
  refine ⟨m₃, lists₃, ?_, hreleased ▸ hrep,
    (hc₁.trans (hc₂.mono hbytes₁)).trans (hc₃.mono (hbytes₂.trans hbytes₁))⟩
  rw [if_neg hstart, hprev, hnext, hmerge₁]
  dsimp only [Option.bind_eq_bind, Option.bind_some]
  rw [← hstop₁, hmerge₂]
  dsimp only [Option.bind_some]
  rw [← hnode₂]
  exact hadd

end Free

end ChronOS.Shmall
