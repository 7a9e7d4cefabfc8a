/-
  Shmall/AddNode.lean --- what `add_node` does to the node it inserts.

  `addNode_eq_some` is the inversion of `add_node`: an empty list, or the end, the
  middle or the head of one.  The list may be anything, since the bins of a new heap
  hold what memory held: the two nodes that the new one is put between need not be
  nodes, and the stores to their links may hit the new node itself.

  The two `_insertion` lemmas say that even so the region of a new heap cannot look
  like the only node of its list afterwards: one of its links is not NULL, or its
  size is no longer the one it was given.  They go through the bytes of the region by
  the distance of the stores from it.
-/
import ChronOS.Shmall.Heap

set_option autoImplicit false

namespace ChronOS.Shmall

open ChronOS.Foundation ChronOS.Mm

/-! ## Linking the region to a node that is not there -/

section Insertion

variable {m : Mem} {region head previous current : Word}

/-- The size that `init_heap` gives the region. -/
def regionSize : BitVec 32 := BitVec.ofNat 32 (HEAP_INIT_SIZE - 24 - 8)

theorem toNat_size_byte (h : nodeSize m region = regionSize) :
    (m (region + 4)).toNat = 0xe0 ∧ (m (region + 5)).toNat = 0xff ∧ (m (region + 6)).toNat = 0x1f ∧
      (m (region + 7)).toNat = 0 := by
  have hbyte : ∀ k < 4, m (region + 4 + BitVec.ofNat 64 k) = regionSize.extractLsb' (8 * k) 8 := by
    intro k hk
    rw [← h]
    exact Mem.byte_read m (region + 4) hk
  have hadd : ∀ k, region + 4 + BitVec.ofNat 64 k = region + BitVec.ofNat 64 (4 + k) := by
    intro k
    rw [BitVec.ofNat_add, ← BitVec.add_assoc]
    rfl
  simp only [hadd] at hbyte
  exact ⟨congrArg BitVec.toNat (hbyte 0 (by decide)), congrArg BitVec.toNat (hbyte 1 (by decide)),
    congrArg BitVec.toNat (hbyte 2 (by decide)), congrArg BitVec.toNat (hbyte 3 (by decide))⟩

/-- The region put before `head`: either its `next` is not NULL, or the store to `head->prev`
that made it so has hit its size. -/
theorem head_insertion (haligned : PageAligned region) (hregion : region ≠ 0) (hhead : head ≠ 0)
    (hnext : nodeNext (setPrev (setNext m region head) head region) region = 0) :
    nodeSize (setPrev (setNext m region head) head region) region ≠ regionSize := by
  intro hsize
  obtain ⟨-, hff, h1f, -⟩ := toNat_size_byte hsize
  -- `t` is the distance from `head->prev` up to `region->next`
  obtain ⟨t, ht⟩ : ∃ t, (region + 8 - (head + 16)).toNat = t := ⟨_, rfl⟩
  have htlt : t < 2 ^ 64 := ht ▸ (region + 8 - (head + 16)).isLt
  have hadd : region.toNat = (head.toNat + 8 + t) % 2 ^ 64 := by bv_omega
  have hlinks : ∀ k < 8, (if (t + k) % 2 ^ 64 < 8 then Mem.byteOf region ((t + k) % 2 ^ 64)
      else Mem.byteOf head k) = 0 := by
    intro k hk
    have hbyte := Mem.byteOf_read64_write64 m (region + 8) (head + 16) head region hk
    have hzero := (congrArg (Mem.byteOf · k) hnext).trans (Mem.byteOf_zero k)
    rw [ht] at hbyte
    exact hbyte.symm.trans hzero
  have hffbyte : 3 ≤ t → t < 8 → Mem.byteOf region (t - 3) = 0xff := by
    intro hlow hhigh
    have hoff : (region + 5 - (head + 16)).toNat = t - 3 := by bv_omega
    rwa [setPrev, Mem.toNat_write64, hoff, if_pos (by omega)] at hff
  have h1fbyte : 2 ≤ t → t < 8 → Mem.byteOf region (t - 2) = 0x1f := by
    intro hlow hhigh
    have hoff : (region + 6 - (head + 16)).toNat = t - 2 := by bv_omega
    rwa [setPrev, Mem.toNat_write64, hoff, if_pos (by omega)] at h1f
  unfold PageAligned at haligned
  rcases Nat.lt_or_ge t 8 with hlt | hge
  · -- the store covers the first bytes of `next`
    interval_cases t
    · refine hregion (Mem.eq_zero_of_byteOf fun k hk => ?_)
      have := hlinks k hk
      rwa [Nat.zero_add, Nat.mod_eq_of_lt (by omega), if_pos hk] at this
    · refine hregion (Mem.eq_zero_of_byteOf fun k hk => ?_)
      cases k with
      | zero => rw [Mem.byteOf_low]; omega
      | succ k =>
        have := hlinks k (by omega)
        rwa [Nat.mod_eq_of_lt (by omega), if_pos (by omega), Nat.add_comm] at this
    · have := h1fbyte (by decide) (by decide)
      simp only [Mem.byteOf, Nat.reduceSub, Nat.reduceMul, Nat.reducePow] at this
      omega
    · have := hffbyte (by decide) (by decide)
      simp only [Mem.byteOf, Nat.reduceSub, Nat.reduceMul, Nat.reducePow] at this
      omega
    · have := hffbyte (by decide) (by decide)
      simp only [Mem.byteOf, Nat.reduceSub, Nat.reduceMul, Nat.reducePow] at this
      omega
    all_goals
      -- `head` is small, and the region is not
      have hsmall : head.toNat < 2 ^ 24 := Mem.toNat_lt_of_byteOf (j := 3) fun k hk hle => by
        have := hlinks k hk
        rwa [Nat.mod_eq_of_lt (by omega), if_neg (by omega)] at this
      have := h1fbyte (by decide) (by decide)
      simp only [Mem.byteOf, Nat.reduceSub, Nat.reduceMul, Nat.reducePow] at this
      omega
  · rcases Nat.lt_or_ge (2 ^ 64 - 8) t with habove | hfar
    · -- the store starts inside `next`, after its first byte
      have := hlinks 0 (by decide)
      rw [Nat.add_zero, Nat.mod_eq_of_lt htlt, if_neg (by omega), Mem.byteOf_low] at this
      omega
    · refine hhead (Eq.trans ?_ hnext)
      rw [nodeNext, setPrev, Mem.read64_write64_of_disjoint (by bv_omega) (by bv_omega), setNext,
        Mem.read64_write64_self]

theorem toNat_hole_byte (h : nodeHole m region = 1) :
    (m (region + 1)).toNat = 0 ∧ (m (region + 2)).toNat = 0 ∧ (m (region + 3)).toNat = 0 := by
  have hbyte : ∀ k < 4, m (region + BitVec.ofNat 64 k) = (1#32).extractLsb' (8 * k) 8 := by
    intro k hk
    rw [show 1#32 = m.read 4 region from h.symm]
    exact Mem.byte_read m region hk
  exact ⟨congrArg BitVec.toNat (hbyte 1 (by decide)), congrArg BitVec.toNat (hbyte 2 (by decide)),
    congrArg BitVec.toNat (hbyte 3 (by decide))⟩

/-- The region put between two nodes: the stores cannot leave both of its links NULL. -/
theorem middle_insertion (haligned : PageAligned region) (hhole : nodeHole m region = 1)
    (hsize : nodeSize m region = regionSize) (hfree : nodeNext m region = 0)
    (hprevious : previous ≠ 0) (hcurrent : current ≠ 0) (hne : current ≠ region)
    (hlink : nodeNext m previous = current)
    (hnext : nodeNext (setPrev (setPrev (setNext (setNext m region current) previous region)
      region previous) current region) region = 0) :
    nodePrev (setPrev (setPrev (setNext (setNext m region current) previous region)
      region previous) current region) region ≠ 0 := by
  intro hprev
  obtain ⟨he0, hff, h1f, h00⟩ := toNat_size_byte hsize
  obtain ⟨hone, htwo, hthree⟩ := toNat_hole_byte hhole
  unfold PageAligned at haligned
  -- `t` is the distance from `current` up to the region, `e` that from `previous`
  obtain ⟨t, ht⟩ : ∃ t, (region - current).toNat = t := ⟨_, rfl⟩
  obtain ⟨e, he⟩ : ∃ e, (region - previous).toNat = e := ⟨_, rfl⟩
  have htlt : t < 2 ^ 64 := ht ▸ (region - current).isLt
  have hadd : region.toNat = (current.toNat + t) % 2 ^ 64 := by bv_omega
  have hne' : t ≠ 0 := by bv_omega
  have hprevs : ∀ k < 8, (if (t + k) % 2 ^ 64 < 8 then Mem.byteOf region ((t + k) % 2 ^ 64)
      else Mem.byteOf previous k) = 0 := by
    intro k hk
    have hbyte := Mem.byteOf_read64_write64 (setNext (setNext m region current) previous region)
      (region + 16) (current + 16) previous region hk
    have hzero := (congrArg (Mem.byteOf · k) hprev).trans (Mem.byteOf_zero k)
    rw [add_sub_add_right_eq_sub, ht] at hbyte
    exact hbyte.symm.trans hzero
  have hnear : t < 8 ∨ 2 ^ 64 - 8 < t := by
    by_contra hfar
    refine hprevious (Eq.trans ?_ hprev)
    rw [nodePrev, setPrev, Mem.read64_write64_of_disjoint (by bv_omega) (by bv_omega), setPrev,
      Mem.read64_write64_self]
  -- so `current` is not the address of a page, and its low byte must have been overwritten
  have hclose : e < 8 := by
    by_contra hfar
    have hbyte := Mem.toNat_read64 (setPrev (setPrev (setNext (setNext m region current)
      previous region) region previous) current region) (region + 8) (k := 0) (by decide)
    have hsum : region + 8 + BitVec.ofNat 64 0 = region + 8 := BitVec.add_zero _
    have hself : (region + 8 - (region + 8)).toNat = 0 := by bv_omega
    rw [show Mem.read64 _ (region + 8) = 0 from hnext, hsum, setPrev, Mem.toNat_write64,
      if_neg (by bv_omega), setPrev, Mem.toNat_write64, if_neg (by bv_omega), setNext,
      Mem.toNat_write64, if_neg (by bv_omega), setNext, Mem.toNat_write64, hself,
      if_pos (by decide), Mem.byteOf_low, Mem.byteOf_zero] at hbyte
    omega
  have hbytes : ∀ k < 8, (m (previous + 8 + BitVec.ofNat 64 k)).toNat = Mem.byteOf current k :=
    fun k hk => by rw [Mem.toNat_read64 m (previous + 8) hk, ← hlink]; rfl
  have hfirst := hbytes 0 (by decide)
  rw [Mem.byteOf_low] at hfirst
  -- the low byte of `current` was read from the region's first bytes
  interval_cases e
  · have heq : previous = region := by bv_omega
    rw [heq, hfree] at hlink
    exact hcurrent hlink.symm
  · rw [show previous + 8 + BitVec.ofNat 64 0 = region + 7 by bv_omega, h00] at hfirst
    omega
  · rw [show previous + 8 + BitVec.ofNat 64 0 = region + 6 by bv_omega, h1f] at hfirst
    omega
  · -- only here it can be that of an address next to the region, which is then at 0x...2000
    rw [show previous + 8 + BitVec.ofNat 64 0 = region + 5 by bv_omega, hff] at hfirst
    have hsecond := hbytes 1 (by decide)
    rw [show previous + 8 + BitVec.ofNat 64 1 = region + 6 by bv_omega, h1f] at hsecond
    obtain rfl : t = 1 := by omega
    have hlast := hprevs 0 (by decide)
    simp only [Nat.add_zero, Nat.reducePow, Nat.reduceMod, Nat.reduceLT, if_true, Mem.byteOf,
      Nat.mul_one] at hlast hsecond
    omega
  · rw [show previous + 8 + BitVec.ofNat 64 0 = region + 4 by bv_omega, he0] at hfirst
    omega
  · rw [show previous + 8 + BitVec.ofNat 64 0 = region + 3 by bv_omega, hthree] at hfirst
    omega
  · rw [show previous + 8 + BitVec.ofNat 64 0 = region + 2 by bv_omega, htwo] at hfirst
    omega
  · rw [show previous + 8 + BitVec.ofNat 64 0 = region + 1 by bv_omega, hone] at hfirst
    omega

end Insertion

/-! ## What `add_node` does -/

/-- The loop of `add_node` ends at the end of the list or at a larger node, either at the head
or behind a node that points there. -/
theorem findPlace_eq_some {m : Mem} {node head previous current : Word}
    (h : findPlace m node head = some (previous, current)) :
    (current ≠ 0 → nodeSize m node < nodeSize m current) ∧
      (previous = 0 ∧ current = head ∨ previous ≠ 0 ∧ nodeNext m previous = current) := by
  refine ⟨fun hne => ?_, ?_⟩
  · have hstop := searchFrom_stop h
    rw [decide_eq_true_eq, not_and] at hstop
    exact BitVec.not_le.mp (hstop hne)
  · refine searchFrom_induct (I := fun c : Word × Word =>
      c.1 = 0 ∧ c.2 = head ∨ c.1 ≠ 0 ∧ nodeNext m c.1 = c.2) ?_ (Or.inl ⟨rfl, rfl⟩) h
    intro c hgoes _
    rw [decide_eq_false_iff_not, not_not] at hgoes
    exact Or.inr ⟨hgoes.1, rfl⟩

/-- The node as `add_node` first leaves it. -/
def unlinked (m : Mem) (node : Word) : Mem := setPrev (setNext m node 0) node 0

theorem addNode_eq_some {m m' : Mem} {bin node : Word} (h : addNode m bin node = some m') :
    ((unlinked m node).read64 bin = 0 ∧ m' = (unlinked m node).write64 bin node) ∨
    (unlinked m node).read64 bin ≠ 0 ∧ ∃ previous current,
      findPlace (unlinked m node) node ((unlinked m node).read64 bin) = some (previous, current) ∧
      (current = 0 ∧ m' = setPrev (setNext (unlinked m node) previous node) node previous ∨
       current ≠ 0 ∧ previous ≠ 0 ∧ m' = setPrev (setPrev (setNext (setNext (unlinked m node)
         node current) previous node) node previous) current node ∨
       current ≠ 0 ∧ previous = 0 ∧ ∃ m₁,
         m₁ = setNext (unlinked m node) node ((unlinked m node).read64 bin) ∧
         m' = (setPrev m₁ (m₁.read64 bin) node).write64 bin node) := by
  change (if (unlinked m node).read64 bin = 0 then _ else _) = _ at h
  split_ifs at h with hempty
  · exact Or.inl ⟨hempty, (Option.some.inj h).symm⟩
  · refine Or.inr ⟨hempty, ?_⟩
    obtain ⟨⟨previous, current⟩, hplace, hrest⟩ := Option.bind_eq_some_iff.mp h
    refine ⟨previous, current, hplace, ?_⟩
    dsimp only at hrest
    split_ifs at hrest with hend hmiddle
    · exact Or.inl ⟨hend, (Option.some.inj hrest).symm⟩
    · exact Or.inr (Or.inl ⟨hend, hmiddle, (Option.some.inj hrest).symm⟩)
    · exact Or.inr (Or.inr ⟨hend, not_not.mp hmiddle, _, rfl, (Option.some.inj hrest).symm⟩)

/-- An empty list takes the node as its head. -/
theorem addNode_empty {m : Mem} {bin node : Word} (h : (unlinked m node).read64 bin = 0) :
    addNode m bin node = some ((unlinked m node).write64 bin node) := if_pos h

end ChronOS.Shmall
