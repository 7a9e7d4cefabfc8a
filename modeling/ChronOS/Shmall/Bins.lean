/-
  Shmall/Bins.lean --- the nine bins of the heap as lists of holes.

  A hole is in the bin for its size, and the bins are sorted.  `get_bin_index` is
  monotone, so the first hole that `heap_alloc` comes to is one of the smallest
  that are large enough, whatever bins it has to look at.  `add_node` and
  `remove_node` act on one bin and keep the others.
-/
import ChronOS.Shmall.Tiles

set_option autoImplicit false

namespace ChronOS.Shmall

open ChronOS.Foundation

/-! ## `get_bin_index` -/

/-- The bin for a size. -/
def binOf (n : Nat) : Nat := min 8 (Nat.log 2 (max 4 n) - 2)

theorem shiftCount_eq {n : Nat} {sz : Word} (hsz : sz.toNat < 2 ^ n) (index : BitVec 32) :
    shiftCount n sz index = index + BitVec.ofNat 32 (Nat.log 2 sz.toNat) := by
  induction n generalizing sz index with
  | zero =>
    have hzero : sz.toNat = 0 := by omega
    rw [shiftCount, hzero, Nat.log_zero_right]
    exact (BitVec.add_zero index).symm
  | succ n ih =>
    have hhalf : (sz >>> 1).toNat = sz.toNat / 2 := by
      rw [BitVec.toNat_ushiftRight, Nat.shiftRight_eq_div_pow, pow_one]
    rw [shiftCount]
    split_ifs with hmore
    · have htwo : 2 ≤ sz.toNat := by
        by_contra hlt
        exact hmore (BitVec.eq_of_toNat_eq (by rw [hhalf]; change _ = 0; omega))
      rw [ih (by rw [hhalf]; omega), hhalf, Nat.log_of_one_lt_of_le (by decide) htwo,
        BitVec.ofNat_add, BitVec.add_assoc, BitVec.add_comm 1]
      rfl
    · have hlt : sz.toNat < 2 := by
        have := congrArg BitVec.toNat (not_not.mp hmore)
        rw [hhalf] at this
        change _ = 0 at this
        omega
      rw [Nat.log_of_lt hlt]
      exact (BitVec.add_zero index).symm

theorem getBinIndex_eq (sz : Word) : getBinIndex sz = BitVec.ofNat 32 (binOf sz.toNat) := by
  have hmax : (if sz < 4 then 4 else sz).toNat = max 4 sz.toNat := by
    split_ifs with hlt
    · have : sz.toNat < 4 := hlt
      change 4 = _
      omega
    · have : ¬ sz.toNat < 4 := hlt
      omega
  have hlow : 2 ≤ Nat.log 2 (max 4 sz.toNat) :=
    Nat.le_log_of_pow_le (by decide) (by omega)
  have hhigh : Nat.log 2 (max 4 sz.toNat) < 64 :=
    Nat.log_lt_of_lt_pow (by omega) (by have := sz.isLt; omega)
  rw [getBinIndex, shiftCount_eq (by rw [hmax]; have := sz.isLt; omega), hmax]
  unfold binOf BIN_MAX_IDX
  generalize Nat.log 2 (max 4 sz.toNat) = l at hlow hhigh
  split_ifs with hbig
  · rw [Nat.min_eq_left (by bv_omega)]
    rfl
  · rw [Nat.min_eq_right (by bv_omega)]
    bv_omega

theorem binOf_lt (n : Nat) : binOf n < BIN_COUNT := by
  unfold binOf BIN_COUNT
  omega

theorem toNat_binOf (n : Nat) : (BitVec.ofNat 32 (binOf n)).toNat = binOf n := by
  have := binOf_lt n
  unfold BIN_COUNT at this
  rw [BitVec.toNat_ofNat, Nat.mod_eq_of_lt (by omega)]

theorem binOf_mono {n n' : Nat} (h : n ≤ n') : binOf n ≤ binOf n' :=
  min_le_min_left 8 (Nat.sub_le_sub_right (Nat.log_mono_right (max_le_max_left 4 h)) 2)

/-! ## The nine lists -/

/-- The holes among the tiles. -/
def holes (ts : Set Tile) : Set Tile := {t ∈ ts | t.hole = true}

/-- The bins hold the holes among the tiles, each in the list for its size and sorted there. -/
structure Listed (g : HeapPages) (m : Mem) (ts : Set Tile) (lists : Nat → List Tile) : Prop where
  linked : ∀ i < BIN_COUNT, BinList m (listHead g i) ((lists i).map (nodeAt g))
  mem_iff : ∀ i < BIN_COUNT, ∀ t, t ∈ lists i ↔ t ∈ holes ts ∧ binOf t.size = i
  sorted : ∀ i < BIN_COUNT, (lists i).Pairwise fun s t => s.size ≤ t.size

section Listed

variable {g : HeapPages} {m m' : Mem} {ts ts' : Set Tile} {lists : Nat → List Tile} {t : Tile}
  {i : Nat} {l : List Tile}

theorem Listed.congr (h : Listed g m ts lists) (hts : holes ts' = holes ts) :
    Listed g m ts' lists :=
  ⟨h.linked, fun i hi t => hts ▸ h.mem_iff i hi t, h.sorted⟩

theorem Listed.mem_holes (h : Listed g m ts lists) (hi : i < BIN_COUNT) (ht : t ∈ lists i) :
    t ∈ holes ts :=
  ((h.mem_iff i hi t).mp ht).1

/-- Stores that change no link and no list head. -/
theorem Listed.of_changesIn {A : Set Nat} (h : Listed g m ts lists)
    (hsp : Spaced (holes ts)) (hc : ChangesIn g.region A m m')
    (hA : ∀ k ∈ linkBytes (holes ts) ∪ headBytes g, k ∉ A) : Listed g m' ts lists := by
  refine ⟨fun i hi => ?_, h.mem_iff, h.sorted⟩
  have hhead : m'.read64 (listHead g i) = m.read64 (listHead g i) :=
    hc.read_of_notMem (n := 8) fun j hj => hA _ (Or.inr ⟨i, hi, j, hj, rfl⟩)
  have hlinks : ∀ t ∈ lists i, ∀ k ∈ Set.Ico (t.off + 8) (t.off + 24), k ∉ A :=
    fun t ht k hk => hA k (Or.inl ⟨t, h.mem_holes hi ht, hk.1, hk.2⟩)
  unfold BinList
  rw [hhead]
  refine (h.linked i hi).congr (fun x hx => ?_) fun x hx => ?_
  · obtain ⟨t, ht, rfl⟩ := List.mem_map.mp hx
    exact nodeNext_of_changesIn hc (hsp.header (h.mem_holes hi ht)) (hlinks t ht)
  · obtain ⟨t, ht, rfl⟩ := List.mem_map.mp (List.mem_of_mem_tail hx)
    exact nodePrev_of_changesIn hc (hsp.header (h.mem_holes hi ht)) (hlinks t ht)

/-- An operation on the bin `i` that writes links of the tiles `T` keeps the other bins. -/
theorem Listed.update (h : Listed g m ts lists) (hg : g.Placed) {T : Set Tile}
    (hsp : Spaced (T ∪ holes ts)) (hi : i < BIN_COUNT)
    (hT : ∀ s ∈ T, s ∈ holes ts → binOf s.size = i)
    (hc : LinksOnly (nodeAt g '' T) (listHead g i) m m')
    (hlinked : BinList m' (listHead g i) (l.map (nodeAt g)))
    (hmem : ∀ s, s ∈ l ↔ s ∈ holes ts' ∧ binOf s.size = i)
    (hsorted : l.Pairwise fun s t => s.size ≤ t.size)
    (hothers : ∀ s, binOf s.size ≠ i → (s ∈ holes ts ↔ s ∈ holes ts')) :
    Listed g m' ts' (Function.update lists i l) := by
  have hnodes := hsp.nodes hg hi
  refine ⟨fun j hj => ?_, fun j hj => ?_, fun j hj => ?_⟩ <;> by_cases hji : j = i
  · rwa [hji, Function.update_self]
  · rw [Function.update_of_ne hji]
    refine (h.linked j hj).frame hc (fun x hx => ?_) (fun x hx y hy => ?_) ?_ fun x hx => ?_
    · obtain ⟨s, hs, rfl⟩ := List.mem_map.mp hx
      exact hnodes.head _ ⟨s, Or.inr (h.mem_holes hj hs), rfl⟩
    · obtain ⟨s, hs, rfl⟩ := List.mem_map.mp hx
      obtain ⟨t, ht, rfl⟩ := hy
      obtain ⟨hs, hbin⟩ := (h.mem_iff j hj s).mp hs
      have hne : t ≠ s := by
        rintro rfl
        exact hji (hbin.symm.trans (hT t ht hs))
      exact hnodes.apart ⟨t, Or.inl ht, rfl⟩ ⟨s, Or.inr hs, rfl⟩
        fun heq => hne (hsp.nodeAt_injOn (Or.inl ht) (Or.inr hs) heq)
    · unfold BIN_COUNT at hi hj
      unfold listHead
      bv_omega
    · obtain ⟨t, ht, rfl⟩ := hx
      exact offHeader_listHead hg hj (hsp.header (Or.inl ht))
  · rwa [hji, Function.update_self]
  · intro s
    rw [Function.update_of_ne hji, h.mem_iff j hj]
    exact and_congr_left fun hbin => hothers s (hbin ▸ hji)
  · rwa [hji, Function.update_self]
  · rw [Function.update_of_ne hji]
    exact h.sorted j hj

/-! ## `add_node` and `remove_node` -/

/-- The place of a tile in a sorted list. -/
def insertTile (t : Tile) (l : List Tile) : List Tile :=
  l.takeWhile (fun s => s.size ≤ t.size) ++ t :: l.dropWhile (fun s => s.size ≤ t.size)

theorem mem_insertTile {s : Tile} : s ∈ insertTile t l ↔ s = t ∨ s ∈ l := by
  conv_rhs => rw [← @List.takeWhile_append_dropWhile _ (fun s => decide (s.size ≤ t.size)) l]
  rw [insertTile, List.mem_append, List.mem_cons, List.mem_append]
  tauto

theorem pairwise_insertTile (h : l.Pairwise fun s t => s.size ≤ t.size) :
    (insertTile t l).Pairwise fun s t => s.size ≤ t.size := by
  induction l with
  | nil => exact List.pairwise_singleton _ t
  | cons c l ih =>
    obtain ⟨hc, hl⟩ := List.pairwise_cons.mp h
    unfold insertTile at ih ⊢
    by_cases hle : c.size ≤ t.size
    · rw [List.takeWhile_cons_of_pos (by simpa using hle),
        List.dropWhile_cons_of_pos (by simpa using hle), List.cons_append]
      refine List.pairwise_cons.mpr ⟨fun s hs => ?_, ih hl⟩
      rcases mem_insertTile.mp hs with rfl | hs
      · exact hle
      · exact hc s hs
    · rw [List.takeWhile_cons_of_neg (by simpa using hle),
        List.dropWhile_cons_of_neg (by simpa using hle)]
      refine List.pairwise_cons.mpr ⟨fun s hs => ?_, h⟩
      rcases List.mem_cons.mp hs with rfl | hs
      · omega
      · have := hc s hs
        omega

/-- `add_node` compares the sizes in memory. -/
theorem insertBySize_map (hl : ∀ s ∈ l, nodeSize m (nodeAt g s) ≤ nodeSize m (nodeAt g t) ↔
      s.size ≤ t.size) :
    insertBySize (nodeSize m) (nodeAt g t) (l.map (nodeAt g)) =
      (insertTile t l).map (nodeAt g) := by
  induction l with
  | nil => rfl
  | cons c l ih =>
    have hrest := ih fun s hs => hl s (List.mem_cons_of_mem c hs)
    have hc := hl c List.mem_cons_self
    unfold insertBySize insertTile at hrest ⊢
    by_cases hle : c.size ≤ t.size
    · rw [List.map_cons, List.takeWhile_cons_of_pos (by simpa using hc.mpr hle),
        List.dropWhile_cons_of_pos (by simpa using hc.mpr hle),
        List.takeWhile_cons_of_pos (by simpa using hle),
        List.dropWhile_cons_of_pos (by simpa using hle), List.cons_append, hrest]
      rfl
    · have hgt : ¬ nodeSize m (nodeAt g c) ≤ nodeSize m (nodeAt g t) := fun hle' => hle (hc.mp hle')
      rw [List.map_cons, List.takeWhile_cons_of_neg (by simpa using hgt),
        List.dropWhile_cons_of_neg (by simpa using hgt),
        List.takeWhile_cons_of_neg (by simpa using hle),
        List.dropWhile_cons_of_neg (by simpa using hle)]
      rfl

theorem ofNat_size_le {s t : Tile} (hs : s.stop 32 ≤ HEAP_INIT_SIZE)
    (ht : t.stop 32 ≤ HEAP_INIT_SIZE) :
    BitVec.ofNat 32 s.size ≤ BitVec.ofNat 32 t.size ↔ s.size ≤ t.size := by
  unfold Tile.stop HEAP_INIT_SIZE at hs ht
  rw [BitVec.le_def, BitVec.toNat_ofNat, BitVec.toNat_ofNat, Nat.mod_eq_of_lt (by omega),
    Nat.mod_eq_of_lt (by omega)]

theorem holes_insert (hhole : t.hole = true) : holes (insert t ts) = insert t (holes ts) := by
  ext s
  constructor
  · rintro ⟨rfl | hs, hs'⟩
    · exact Or.inl rfl
    · exact Or.inr ⟨hs, hs'⟩
  · rintro (rfl | hs)
    · exact ⟨Or.inl rfl, hhole⟩
    · exact ⟨Or.inr hs.1, hs.2⟩

theorem Listed.addNode (h : Listed g m ts lists) (hg : g.Placed)
    (hsp : Spaced (insert t (holes ts))) (hnew : t ∉ ts) (hhole : t.hole = true)
    (hsize : ∀ s ∈ insert t (holes ts), nodeSize m (nodeAt g s) = BitVec.ofNat 32 s.size) :
    ∃ m' lists', Shmall.addNode m (listHead g (binOf t.size)) (nodeAt g t) = some m' ∧
      Listed g m' (insert t ts) lists' ∧
      ChangesIn g.region (linkBytes (insert t (holes ts)) ∪ headBytes g) m m' := by
  have hi := binOf_lt t.size
  obtain ⟨T, hT⟩ : ∃ T : Set Tile, T = insert t {s | s ∈ lists (binOf t.size)} := ⟨_, rfl⟩
  have htT : t ∈ T := hT ▸ Set.mem_insert t _
  have hlT : ∀ s ∈ lists (binOf t.size), s ∈ T := fun s hs => hT ▸ Set.mem_insert_of_mem t hs
  have hsub : T ⊆ insert t (holes ts) := by
    rw [hT]
    exact Set.insert_subset_insert fun s hs => h.mem_holes hi hs
  have hspT := hsp.mono hsub
  have hfresh : nodeAt g t ∉ (lists (binOf t.size)).map (nodeAt g) := by
    rintro hmem
    obtain ⟨s, hs, heq⟩ := List.mem_map.mp hmem
    obtain rfl := hspT.nodeAt_injOn (hlT s hs) htT heq
    exact hnew (h.mem_holes hi hs).1
  obtain ⟨m', hadd, hlist, hlinks⟩ := addNode_spec (hspT.nodes hg hi) ⟨t, htT, rfl⟩
    (h.linked _ hi) (fun x hx => by
      obtain ⟨s, hs, rfl⟩ := List.mem_map.mp hx
      exact ⟨s, hlT s hs, rfl⟩) hfresh
  rw [insertBySize_map fun s hs => by
    rw [hsize s (hsub (hlT s hs)), hsize t (hsub htT)]
    exact ofNat_size_le (hspT.inside s (hlT s hs)) (hspT.inside t htT)] at hlist
  refine ⟨m', _, hadd, h.update hg (hsp.mono (Set.union_subset hsub (Set.subset_insert _ _))) hi
    (fun s hs hmem => ?_) hlinks hlist (fun s => ?_) (pairwise_insertTile (h.sorted _ hi))
    fun s hne => ?_, (hlinks.changesIn hspT hi).mono (Set.union_subset_union_left _ ?_)⟩
  · rw [hT] at hs
    rcases hs with rfl | hs
    · exact absurd hmem.1 hnew
    · exact ((h.mem_iff _ hi s).mp hs).2
  · rw [mem_insertTile, h.mem_iff _ hi, holes_insert hhole, Set.mem_insert_iff]
    constructor
    · rintro (rfl | ⟨hs, hbin⟩)
      · exact ⟨Or.inl rfl, rfl⟩
      · exact ⟨Or.inr hs, hbin⟩
    · rintro ⟨rfl | hs, hbin⟩
      · exact Or.inl rfl
      · exact Or.inr ⟨hs, hbin⟩
  · rw [holes_insert hhole]
    have hst : s ≠ t := fun heq => hne (heq ▸ rfl)
    exact ⟨Set.mem_insert_of_mem t, fun hs => hs.resolve_left hst⟩
  · rintro k ⟨s, hs, hk⟩
    exact ⟨s, hsub hs, hk⟩

theorem Listed.removeNode (h : Listed g m ts lists) (hg : g.Placed) (hsp : Spaced (holes ts))
    (ht : t ∈ holes ts) :
    ∃ m' lists', Shmall.removeNode m (listHead g (binOf t.size)) (nodeAt g t) = some m' ∧
      Listed g m' (ts \ {t}) lists' ∧
      ChangesIn g.region (linkBytes (holes ts) ∪ headBytes g) m m' := by
  have hi := binOf_lt t.size
  have hmem : t ∈ lists (binOf t.size) := (h.mem_iff _ hi t).mpr ⟨ht, rfl⟩
  obtain ⟨pre, post, hsplit⟩ := List.append_of_mem hmem
  have hlist := h.linked _ hi
  rw [hsplit, List.map_append, List.map_cons] at hlist
  have hnodup : (lists (binOf t.size)).Nodup := (h.linked _ hi).nodup.of_map _
  rw [hsplit] at hnodup
  obtain ⟨T, hT⟩ : ∃ T : Set Tile, T = {s | s ∈ lists (binOf t.size)} := ⟨_, rfl⟩
  have hsub : T ⊆ holes ts := by
    rw [hT]
    exact fun s hs => h.mem_holes hi hs
  obtain ⟨m', hremove, hrest, hlinks⟩ :=
    removeNode_spec ((hsp.mono hsub).nodes hg hi) hlist fun x hx => by
      rw [← List.map_cons, ← List.map_append, ← hsplit] at hx
      obtain ⟨s, hs, rfl⟩ := List.mem_map.mp hx
      rw [hT]
      exact ⟨s, hs, rfl⟩
  rw [← List.map_append] at hrest
  have hsorted := h.sorted _ hi
  rw [hsplit] at hsorted
  refine ⟨m', _, hremove, h.update hg (hsp.mono (Set.union_subset hsub Set.Subset.rfl)) hi
    (fun s hs hmem => ?_) hlinks hrest (fun s => ?_)
    (hsorted.sublist (List.Sublist.append_left (List.sublist_cons_self t post) pre))
    fun s hne => ?_, (hlinks.changesIn (hsp.mono hsub) hi).mono
      (Set.union_subset_union_left _ ?_)⟩
  · rw [hT] at hs
    exact ((h.mem_iff _ hi s).mp hs).2
  · have hother : ∀ s ∈ pre ++ post, s ≠ t := (DList.seam hnodup).1
    have hmem : s ∈ pre ++ t :: post ↔ s ∈ holes ts ∧ binOf s.size = binOf t.size :=
      hsplit ▸ h.mem_iff _ hi s
    constructor
    · intro hs
      obtain ⟨hin, hbin⟩ := hmem.mp (by
        rcases List.mem_append.mp hs with hs | hs <;> simp [hs])
      exact ⟨⟨⟨hin.1, hother s hs⟩, hin.2⟩, hbin⟩
    · rintro ⟨⟨⟨hin, hne⟩, hs⟩, hbin⟩
      have := hmem.mpr ⟨⟨hin, hs⟩, hbin⟩
      simp only [List.mem_append, List.mem_cons] at this ⊢
      exact this.imp_right fun hs => hs.resolve_left hne
  · have hst : s ≠ t := fun heq => hne (heq ▸ rfl)
    exact ⟨fun hs => ⟨⟨hs.1, hst⟩, hs.2⟩, fun hs => ⟨hs.1.1, hs.2⟩⟩
  · rintro k ⟨s, hs, hk⟩
    exact ⟨s, hsub hs, hk⟩

/-! ## The search of `heap_alloc` -/

/-- The slots of the heap structure lead to the list heads. -/
theorem Pages.binAt (hp : Pages g m) {index : BitVec 32} (hi : index.toNat < BIN_COUNT) :
    Shmall.binAt m g.heap index = listHead g index.toNat :=
  hp.slots _ hi

theorem Pages.binAt_binOf (hp : Pages g m) (n : Nat) :
    Shmall.binAt m g.heap (BitVec.ofNat 32 (binOf n)) = listHead g (binOf n) := by
  rw [hp.binAt (by rw [toNat_binOf]; exact binOf_lt n), toNat_binOf]

theorem Pages.binFor (hp : Pages g m) (hin : t.stop 32 ≤ HEAP_INIT_SIZE)
    (hsize : nodeSize m (nodeAt g t) = BitVec.ofNat 32 t.size) :
    Shmall.binFor m g.heap (nodeAt g t) = listHead g (binOf t.size) := by
  have hwide : ((BitVec.ofNat 32 t.size).setWidth 64).toNat = t.size := by
    unfold Tile.stop HEAP_INIT_SIZE at hin
    rw [BitVec.toNat_setWidth, BitVec.toNat_ofNat]
    omega
  rw [Shmall.binFor, hsize, getBinIndex_eq, hwide, hp.binAt_binOf]

/-- `get_best_fit` returns a smallest of the holes in its bin that are large enough. -/
theorem Listed.getBestFit (h : Listed g m ts lists) (hsp : Spaced (holes ts))
    (hsize : ∀ s ∈ holes ts, nodeSize m (nodeAt g s) = BitVec.ofNat 32 s.size) (n : Word)
    (hi : i < BIN_COUNT) :
    (Shmall.getBestFit m (listHead g i) n = some 0 ∧ ∀ s ∈ lists i, s.size < n.toNat) ∨
      ∃ t ∈ lists i, Shmall.getBestFit m (listHead g i) n = some (nodeAt g t) ∧
        n.toNat ≤ t.size ∧ ∀ s ∈ lists i, n.toNat ≤ s.size → t.size ≤ s.size := by
  have hwide : ∀ s ∈ lists i, ((nodeSize m (nodeAt g s)).setWidth 64).toNat = s.size := by
    intro s hs
    have hin := hsp.inside s (h.mem_holes hi hs)
    unfold Tile.stop HEAP_INIT_SIZE at hin
    rw [hsize s (h.mem_holes hi hs), BitVec.toNat_setWidth, BitVec.toNat_ofNat]
    omega
  obtain ⟨pre, post, hsplit, hpre, hpost⟩ : ∃ pre post, lists i = pre ++ post ∧
      (∀ s ∈ pre, s.size < n.toNat) ∧ ∀ s ∈ post.head?, n.toNat ≤ s.size := by
    refine ⟨_, _, (List.takeWhile_append_dropWhile (p := fun s => decide (s.size < n.toNat))).symm,
      fun s hs => ?_, fun s hs => ?_⟩
    · exact of_decide_eq_true
        (@List.mem_takeWhile_imp _ (fun s => decide (s.size < n.toNat)) _ s hs)
    · have hlarge := List.head?_dropWhile_not (fun s : Tile => s.size < n.toNat) (lists i)
      rw [hs] at hlarge
      exact Nat.not_lt.mp (of_decide_eq_false hlarge)
  have hlinked := h.linked i hi
  rw [hsplit, List.map_append] at hlinked
  have hfound := getBestFit_eq hlinked n (fun x hx => by
    obtain ⟨s, hs, rfl⟩ := List.mem_map.mp hx
    rw [BitVec.lt_def, hwide s (hsplit ▸ List.mem_append_left _ hs)]
    exact hpre s hs) (fun x hx => by
    rw [List.head?_map] at hx
    obtain ⟨s, hs, rfl⟩ := Option.map_eq_some_iff.mp hx
    rw [BitVec.le_def, hwide s (hsplit ▸ List.mem_append_right _ (List.mem_of_mem_head? hs))]
    exact hpost s hs)
  rcases post with - | ⟨t, post⟩
  · left
    refine ⟨hfound, fun s hs => hpre s ?_⟩
    rwa [hsplit, List.append_nil] at hs
  · right
    have hsorted := h.sorted i hi
    rw [hsplit] at hsorted ⊢
    refine ⟨t, by simp, hfound, hpost t rfl, fun s hs hle => ?_⟩
    rcases List.mem_append.mp hs with hs | hs
    · have := hpre s hs
      omega
    · rcases List.mem_cons.mp hs with rfl | hs
      · exact Nat.le_refl _
      · exact (List.pairwise_cons.mp (List.pairwise_append.mp hsorted).2.1).1 s hs

/-- A node that fits ends the search. -/
theorem findFit_found {heap n found : Word} {index : BitVec 32} {fuel : Nat}
    (hfit : getBestFit m (binAt m heap index) n = some found) (hne : found ≠ 0) :
    findFit m heap n (fuel + 1) index = some (found, index) := by
  rw [findFit, hfit]
  dsimp only [Option.bind_eq_bind, Option.bind_some]
  rw [if_pos hne]
  rfl

/-- Without one, the search goes on to the next bin. -/
theorem findFit_next {heap n : Word} {index : BitVec 32} {fuel : Nat}
    (hfit : getBestFit m (binAt m heap index) n = some 0)
    (hmore : index + 1 < BitVec.ofNat 32 BIN_COUNT) :
    findFit m heap n (fuel + 1) index = findFit m heap n fuel (index + 1) := by
  rw [findFit, hfit]
  dsimp only [Option.bind_eq_bind, Option.bind_some]
  rw [if_neg (not_not.mpr rfl), if_neg (BitVec.not_le.mpr hmore)]

section FindFit

variable (h : Listed g m ts lists) (hg : g.Placed) (hp : Pages g m) (hsp : Spaced (holes ts))
  (hsize : ∀ s ∈ holes ts, nodeSize m (nodeAt g s) = BitVec.ofNat 32 s.size) (n : Word)
include h hg hp hsp hsize

/-- The search through the bins from `i` on, when there are `more` of them behind it. -/
theorem Listed.findFit_from {more fuel : Nat} (hmore : i + more = 8) (hfuel : more < fuel) :
    (Shmall.findFit m g.heap n fuel (BitVec.ofNat 32 i) = some (0, BIN_MAX_IDX) ∧
        ∀ s ∈ holes ts, i ≤ binOf s.size → s.size < n.toNat) ∨
      ∃ t ∈ holes ts, Shmall.findFit m g.heap n fuel (BitVec.ofNat 32 i) =
          some (nodeAt g t, BitVec.ofNat 32 (binOf t.size)) ∧ n.toNat ≤ t.size ∧
        ∀ s ∈ holes ts, i ≤ binOf s.size → n.toNat ≤ s.size → t.size ≤ s.size := by
  induction more generalizing i fuel with
  | zero =>
    obtain rfl : i = 8 := by omega
    obtain ⟨fuel, rfl⟩ : ∃ k, fuel = k + 1 := ⟨fuel - 1, by omega⟩
    have hbin : Shmall.binAt m g.heap (BitVec.ofNat 32 8) = listHead g 8 := hp.binAt (by decide)
    have hlast : ∀ s ∈ holes ts, 8 ≤ binOf s.size → s ∈ lists 8 := by
      intro s hs hle
      have := binOf_lt s.size
      unfold BIN_COUNT at this
      exact (h.mem_iff 8 (by decide) s).mpr ⟨hs, by omega⟩
    rcases h.getBestFit hsp hsize n (i := 8) (by decide) with
      ⟨hfit, hsmall⟩ | ⟨t, ht, hfit, hle, hleast⟩
    · refine Or.inl ⟨?_, fun s hs hin => hsmall s (hlast s hs hin)⟩
      rw [Shmall.findFit, hbin, hfit]
      rfl
    · obtain ⟨hhole, hbin'⟩ := (h.mem_iff 8 (by decide) t).mp ht
      have hne : nodeAt g t ≠ 0 := regionAt_ne_zero hg (by have := hsp.header hhole; omega)
      refine Or.inr ⟨t, hhole, ?_, hle, fun s hs hin hfits => hleast s (hlast s hs hin) hfits⟩
      rw [hbin']
      exact findFit_found (hbin.symm ▸ hfit) hne
  | succ more ih =>
    obtain ⟨fuel, rfl⟩ : ∃ k, fuel = k + 1 := ⟨fuel - 1, by omega⟩
    have hi : i < BIN_COUNT := by
      unfold BIN_COUNT
      omega
    have hindex : (BitVec.ofNat 32 i).toNat = i := by
      rw [BitVec.toNat_ofNat, Nat.mod_eq_of_lt (by omega)]
    have hbin : Shmall.binAt m g.heap (BitVec.ofNat 32 i) = listHead g i := by
      rw [hp.binAt (by rwa [hindex]), hindex]
    rcases h.getBestFit hsp hsize n hi with ⟨hfit, hsmall⟩ | ⟨t, ht, hfit, hle, hleast⟩
    · have hhere : ∀ s ∈ holes ts, i = binOf s.size → s.size < n.toNat :=
        fun s hs hbin => hsmall s ((h.mem_iff i hi s).mpr ⟨hs, hbin.symm⟩)
      have hnext : BitVec.ofNat 32 i + 1 = BitVec.ofNat 32 (i + 1) := (BitVec.ofNat_add _ _).symm
      rw [findFit_next (hbin.symm ▸ hfit) (by rw [hnext]; unfold BIN_COUNT; bv_omega), hnext]
      rcases ih (i := i + 1) (by omega) (Nat.lt_of_succ_lt_succ hfuel) with
        ⟨hnone, hsmall'⟩ | ⟨t, ht, hfound, hle, hleast⟩
      · refine Or.inl ⟨hnone, fun s hs hin => ?_⟩
        exact (Nat.lt_or_eq_of_le hin).elim (hsmall' s hs) (hhere s hs)
      · refine Or.inr ⟨t, ht, hfound, hle, fun s hs hin hfits => ?_⟩
        rcases Nat.lt_or_eq_of_le hin with hlt | heq
        · exact hleast s hs hlt hfits
        · exact absurd (hhere s hs heq) (Nat.not_lt.mpr hfits)
    · obtain ⟨hhole, hbin'⟩ := (h.mem_iff i hi t).mp ht
      have hne : nodeAt g t ≠ 0 := regionAt_ne_zero hg (by have := hsp.header hhole; omega)
      refine Or.inr ⟨t, hhole, ?_, hle, fun s hs hin hfits => ?_⟩
      · rw [hbin']
        exact findFit_found (hbin.symm ▸ hfit) hne
      · rcases Nat.lt_or_eq_of_le hin with hlt | heq
        · -- a hole in a later bin is larger than all in this one
          refine Nat.le_of_not_le fun hle' => ?_
          have := binOf_mono hle'
          omega
        · exact hleast s ((h.mem_iff i hi s).mpr ⟨hs, heq.symm⟩) hfits

/-- The search of `heap_alloc` finds a smallest hole that is large enough, unless there is none. -/
theorem Listed.findFit :
    (Shmall.findFit m g.heap n BIN_COUNT (getBinIndex n) = some (0, BIN_MAX_IDX) ∧
        ∀ s ∈ holes ts, s.size < n.toNat) ∨
      ∃ t ∈ holes ts, Shmall.findFit m g.heap n BIN_COUNT (getBinIndex n) =
          some (nodeAt g t, BitVec.ofNat 32 (binOf t.size)) ∧ n.toNat ≤ t.size ∧
        ∀ s ∈ holes ts, n.toNat ≤ s.size → t.size ≤ s.size := by
  have hlt := binOf_lt n.toNat
  unfold BIN_COUNT at hlt
  rw [getBinIndex_eq]
  -- what is in the bins before is too small
  rcases h.findFit_from hg hp hsp hsize n (Nat.add_sub_cancel' (Nat.le_of_lt_succ hlt))
      (show 8 - binOf n.toNat < BIN_COUNT by unfold BIN_COUNT; omega) with
    ⟨hnone, hsmall⟩ | ⟨t, ht, hfound, hle, hleast⟩
  · refine Or.inl ⟨hnone, fun s hs => Nat.lt_of_not_le fun hle => ?_⟩
    exact absurd (hsmall s hs (binOf_mono hle)) (Nat.not_lt.mpr hle)
  · exact Or.inr ⟨t, ht, hfound, hle, fun s hs hfits => hleast s hs (binOf_mono hfits) hfits⟩

end FindFit

end Listed

end ChronOS.Shmall
