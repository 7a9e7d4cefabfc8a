/-
  Shmall/FreeLists.lean --- `add_node`, `remove_node` and `get_best_fit` on lists.

  A bin is the word at the list head and the nodes linked from there.  The nodes
  are anywhere, but their headers do not overlap, and the list head is no part of
  one of them (`Nodes`).  Then each of the three functions is the edit or the search
  its name says, on the list of addresses, and the only bytes that change are links
  of the nodes at hand and the list head (`LinksOnly`).

  `remove_node` takes the first node out by moving the list head on; the back link
  of the node that is first now still points to the one removed, which is why
  `BinList` says nothing about it.
-/
import ChronOS.Foundation.DoublyLinked
import ChronOS.Shmall.AddNode

set_option autoImplicit false

namespace ChronOS.Shmall

open ChronOS.Foundation

/-! ## Headers that do not overlap -/

/-- The headers of the nodes at `x` and `y` have no byte in common. -/
def HeadersApart (x y : Word) : Prop := 24 ≤ (x - y).toNat ∧ 24 ≤ (y - x).toNat

/-- The word at `b` is no part of the header of the node at `x`. -/
def OffHeader (b x : Word) : Prop := 24 ≤ (b - x).toNat ∧ 8 ≤ (x - b).toNat

/-- Addresses of nodes that can be in a list with the head at `b`. -/
structure Nodes (b : Word) (S : Set Word) : Prop where
  ne_zero : ∀ x ∈ S, x ≠ 0
  apart : S.Pairwise HeadersApart
  head : ∀ x ∈ S, OffHeader b x

section Fields

variable {m : Mem} {b x y v : Word} {S : Set Word}

theorem Nodes.nodeNext_setNext (h : Nodes b S) (hx : x ∈ S) (hy : y ∈ S) :
    nodeNext (setNext m x v) y = if y = x then v else nodeNext m y := by
  split_ifs with heq
  · rw [heq]
    exact Mem.read64_write64_self ..
  · obtain ⟨hxy, hyx⟩ := h.apart hx hy (Ne.symm heq)
    exact Mem.read64_write64_of_disjoint (by bv_omega) (by bv_omega)

theorem Nodes.nodePrev_setPrev (h : Nodes b S) (hx : x ∈ S) (hy : y ∈ S) :
    nodePrev (setPrev m x v) y = if y = x then v else nodePrev m y := by
  split_ifs with heq
  · rw [heq]
    exact Mem.read64_write64_self ..
  · obtain ⟨hxy, hyx⟩ := h.apart hx hy (Ne.symm heq)
    exact Mem.read64_write64_of_disjoint (by bv_omega) (by bv_omega)

theorem Nodes.nodeNext_setPrev (h : Nodes b S) (hx : x ∈ S) (hy : y ∈ S) :
    nodeNext (setPrev m x v) y = nodeNext m y := by
  by_cases heq : x = y
  · rw [heq]
    exact Mem.read64_write64_of_disjoint (by bv_omega) (by bv_omega)
  · obtain ⟨hxy, hyx⟩ := h.apart hx hy heq
    exact Mem.read64_write64_of_disjoint (by bv_omega) (by bv_omega)

theorem Nodes.nodePrev_setNext (h : Nodes b S) (hx : x ∈ S) (hy : y ∈ S) :
    nodePrev (setNext m x v) y = nodePrev m y := by
  by_cases heq : x = y
  · rw [heq]
    exact Mem.read64_write64_of_disjoint (by bv_omega) (by bv_omega)
  · obtain ⟨hxy, hyx⟩ := h.apart hx hy heq
    exact Mem.read64_write64_of_disjoint (by bv_omega) (by bv_omega)

theorem Nodes.nodeNext_head (h : Nodes b S) (hy : y ∈ S) :
    nodeNext (m.write64 b v) y = nodeNext m y := by
  obtain ⟨hby, hyb⟩ := h.head y hy
  exact Mem.read64_write64_of_disjoint (by bv_omega) (by bv_omega)

theorem Nodes.nodePrev_head (h : Nodes b S) (hy : y ∈ S) :
    nodePrev (m.write64 b v) y = nodePrev m y := by
  obtain ⟨hby, hyb⟩ := h.head y hy
  exact Mem.read64_write64_of_disjoint (by bv_omega) (by bv_omega)

theorem Nodes.read64_setNext (h : Nodes b S) (hx : x ∈ S) :
    (setNext m x v).read64 b = m.read64 b := by
  obtain ⟨hbx, hxb⟩ := h.head x hx
  exact Mem.read64_write64_of_disjoint (by bv_omega) (by bv_omega)

theorem Nodes.read64_setPrev (h : Nodes b S) (hx : x ∈ S) :
    (setPrev m x v).read64 b = m.read64 b := by
  obtain ⟨hbx, hxb⟩ := h.head x hx
  exact Mem.read64_write64_of_disjoint (by bv_omega) (by bv_omega)

end Fields

/-! ## What a list operation can change -/

/-- The two memories differ in links of the nodes `S` and in the word at `b` only. -/
def LinksOnly (S : Set Word) (b : Word) (m m' : Mem) : Prop :=
  ∀ y, (∀ x ∈ S, (y - x).toNat < 8 ∨ 24 ≤ (y - x).toNat) → 8 ≤ (y - b).toNat → m' y = m y

section LinksOnly

variable {S : Set Word} {b x v : Word} {m m₁ m₂ m' : Mem}

theorem LinksOnly.refl : LinksOnly S b m m := fun _ _ _ => rfl

theorem LinksOnly.setNext (h : LinksOnly S b m m') (hx : x ∈ S) :
    LinksOnly S b m (setNext m' x v) := by
  intro y hy hb
  rw [← h y hy hb]
  refine Mem.write64_of_ge ?_
  have := hy x hx
  bv_omega

theorem LinksOnly.setPrev (h : LinksOnly S b m m') (hx : x ∈ S) :
    LinksOnly S b m (setPrev m' x v) := by
  intro y hy hb
  rw [← h y hy hb]
  refine Mem.write64_of_ge ?_
  have := hy x hx
  bv_omega

theorem LinksOnly.head (h : LinksOnly S b m m') : LinksOnly S b m (m'.write64 b v) :=
  fun y hy hb => (Mem.write64_of_ge hb).trans (h y hy hb)

/-- Hole flag and size of a node are kept. -/
theorem LinksOnly.header (h : LinksOnly S b m m') {z : Word} (hoff : OffHeader b z)
    (hz : ∀ x ∈ S, x = z ∨ HeadersApart x z) :
    nodeHole m' z = nodeHole m z ∧ nodeSize m' z = nodeSize m z := by
  have hbyte : ∀ y, (y - z).toNat < 8 → m' y = m y := by
    intro y hy
    refine h y (fun x hx => ?_) ?_
    · rcases hz x hx with rfl | hapart
      · exact Or.inl hy
      · unfold HeadersApart at hapart
        right
        bv_omega
    · unfold OffHeader at hoff
      bv_omega
  refine ⟨Mem.read_congr fun k hk => hbyte _ ?_, Mem.read_congr fun k hk => hbyte _ ?_⟩
  · rw [toNat_offset _ (by omega)]
    omega
  · bv_omega

/-- The links of a node that the operation has nothing to do with are kept. -/
theorem LinksOnly.links (h : LinksOnly S b m m') {z : Word} (hoff : OffHeader b z)
    (hz : ∀ x ∈ S, HeadersApart x z) :
    nodeNext m' z = nodeNext m z ∧ nodePrev m' z = nodePrev m z := by
  have hbyte : ∀ y, (y - z).toNat < 24 → m' y = m y := by
    intro y hy
    refine h y (fun x hx => ?_) ?_
    · have hapart := hz x hx
      unfold HeadersApart at hapart
      right
      bv_omega
    · unfold OffHeader at hoff
      bv_omega
  exact ⟨Mem.read64_congr fun k hk => hbyte _ (by bv_omega),
    Mem.read64_congr fun k hk => hbyte _ (by bv_omega)⟩

/-- A word that neither is the list head nor meets a node is kept. -/
theorem LinksOnly.read64 (h : LinksOnly S b m m') {w : Word} (hw : 8 ≤ (w - b).toNat)
    (hw' : 8 ≤ (b - w).toNat) (hoff : ∀ x ∈ S, OffHeader w x) : m'.read64 w = m.read64 w := by
  refine Mem.read64_congr fun k hk => h _ (fun x hx => ?_) (by bv_omega)
  have := hoff x hx
  unfold OffHeader at this
  right
  bv_omega

end LinksOnly

/-! ## The bins as lists -/

/-- The list of the bin with its head at `b`. -/
abbrev BinList (m : Mem) (b : Word) (l : List Word) : Prop :=
  DList (nodeNext m) (nodePrev m) 0 (m.read64 b) l

section Lists

variable {m m' : Mem} {b node : Word} {l pre post : List Word} {S : Set Word}

theorem BinList.eq_nil_of_head (h : BinList m b l) (hhead : m.read64 b = 0) : l = [] := by
  unfold BinList at h
  rw [hhead] at h
  exact h.eq_nil

/-- An operation on one list leaves the others alone. -/
theorem BinList.frame {c : Word} {k : List Word} (h : BinList m c k) (hchange : LinksOnly S b m m')
    (hb : ∀ x ∈ k, OffHeader b x) (hk : ∀ x ∈ k, ∀ y ∈ S, HeadersApart y x)
    (hc : 8 ≤ (c - b).toNat ∧ 8 ≤ (b - c).toNat) (hS : ∀ x ∈ S, OffHeader c x) :
    BinList m' c k := by
  have hlinks := fun x hx => hchange.links (hb x hx) (hk x hx)
  unfold BinList
  rw [hchange.read64 hc.1 hc.2 hS]
  exact h.congr (fun x hx => (hlinks x hx).1) fun x hx => (hlinks x (List.mem_of_mem_tail hx)).2

/-- The place `add_node` puts a node at: behind the nodes that are not larger. -/
def insertBySize (size : Word → BitVec 32) (node : Word) (l : List Word) : List Word :=
  l.takeWhile (fun x => size x ≤ size node) ++ node :: l.dropWhile (fun x => size x ≤ size node)

/-- As many tests as there are pairs of words decide a walk that keeps the node before. -/
theorem searchFrom_pairs {stop : Word × Word → Bool} {next : Word × Word → Word × Word} {fuel : Nat}
    {i j : Word × Word} (h : searchFrom stop next fuel i = some j) :
    searchFrom stop next (2 ^ 128) i = some j := by
  have hcard : Fintype.card (Word × Word) = 2 ^ 128 := by
    rw [Fintype.card_prod, Fintype.card_congr BitVec.equivFin.toEquiv, Fintype.card_fin, ← pow_add]
  exact hcard ▸ searchFrom_card h

theorem findPlace_eq (h : BinList m b (pre ++ post))
    (hpre : ∀ x ∈ pre, nodeSize m x ≤ nodeSize m node)
    (hpost : ∀ x ∈ post.head?, nodeSize m node < nodeSize m x) :
    findPlace m node (m.read64 b) = some (pre.getLastD 0, post.headD 0) := by
  have hwalks : ∀ x ∈ pre, decide (¬ (x ≠ 0 ∧ nodeSize m x ≤ nodeSize m node)) = false := by
    intro x hx
    have hne : x ≠ 0 := h.ne_nul (List.mem_append_left post hx)
    exact decide_eq_false (not_not.mpr ⟨hne, hpre x hx⟩)
  have hstops : ∀ x ∈ post.head?,
      decide (¬ (x ≠ 0 ∧ nodeSize m x ≤ nodeSize m node)) = true := by
    intro x hx
    exact decide_eq_true fun hgoes => BitVec.not_le.mpr (hpost x hx) hgoes.2
  obtain ⟨fuel, hfuel⟩ := h.searchFrom_pair _ (by simp) hwalks hstops 0
  exact searchFrom_pairs hfuel

theorem addNode_eq {previous current : Word} (hne : (unlinked m node).read64 b ≠ 0)
    (h : findPlace (unlinked m node) node ((unlinked m node).read64 b) = some (previous, current)) :
    addNode m b node = some (
      if current = 0 then setPrev (setNext (unlinked m node) previous node) node previous
      else if previous ≠ 0 then setPrev (setPrev (setNext (setNext (unlinked m node) node current)
        previous node) node previous) current node
      else (setPrev (setNext (unlinked m node) node ((unlinked m node).read64 b))
        ((setNext (unlinked m node) node ((unlinked m node).read64 b)).read64 b) node).write64
          b node) := by
  change (if (unlinked m node).read64 b = 0 then _ else _) = _
  rw [if_neg hne]
  refine (congrArg (Option.bind · _) h).trans ?_
  dsimp only [Option.bind_some]
  split_ifs <;> rfl

section Insertion

variable {p c : Word} (hnodes : Nodes b S) (hnode : node ∈ S)
include hnodes hnode

/-- The stores of `add_node` at the end of a list. -/
theorem BinList.insert_end (h : BinList m b (pre ++ [p])) (hS : ∀ x ∈ pre ++ [p], x ∈ S)
    (hnew : node ∉ pre ++ [p]) (hfree : nodeNext m node = 0) :
    BinList (setPrev (setNext m p node) node p) b (pre ++ [p, node]) := by
  have hp : p ∈ S := hS p (by simp)
  have hlast : nodeNext m p = 0 := DList.nil_iff.mp (DList.suffix pre h).tail
  have hS' : ∀ y ∈ node :: (pre ++ [p]), y ∈ S := List.forall_mem_cons.mpr ⟨hnode, hS⟩
  unfold BinList
  rw [hnodes.read64_setPrev hnode, hnodes.read64_setNext hp]
  refine DList.insert_after h (hnodes.ne_zero node hnode) hnew (fun y hy => ?_) fun y hy => ?_
  · have hy := hS' y hy
    rw [hnodes.nodeNext_setPrev hnode hy, hnodes.nodeNext_setNext hp hy, hlast]
    split_ifs with _ heq
    · rfl
    · rw [heq, hfree]
    · rfl
  · have hy := hS' y hy
    rw [hnodes.nodePrev_setPrev hnode hy, hnodes.nodePrev_setNext hp hy]
    rfl

/-- The stores of `add_node` between two nodes. -/
theorem BinList.insert_middle (h : BinList m b (pre ++ p :: c :: post))
    (hS : ∀ x ∈ pre ++ p :: c :: post, x ∈ S) (hnew : node ∉ pre ++ p :: c :: post) :
    BinList (setPrev (setPrev (setNext (setNext m node c) p node) node p) c node) b
      (pre ++ p :: node :: c :: post) := by
  have hp : p ∈ S := hS p (by simp)
  have hc : c ∈ S := hS c (by simp)
  have hcn : c ≠ node := fun heq => hnew (by simp [heq])
  have hlink : nodeNext m p = c := (DList.suffix pre h).tail.head_eq
  have hS' : ∀ y ∈ node :: (pre ++ p :: c :: post), y ∈ S :=
    List.forall_mem_cons.mpr ⟨hnode, hS⟩
  unfold BinList
  rw [hnodes.read64_setPrev hc, hnodes.read64_setPrev hnode, hnodes.read64_setNext hp,
    hnodes.read64_setNext hnode]
  refine DList.insert_after h (hnodes.ne_zero node hnode) hnew (fun y hy => ?_) fun y hy => ?_
  · have hy := hS' y hy
    rw [hnodes.nodeNext_setPrev hc hy, hnodes.nodeNext_setPrev hnode hy,
      hnodes.nodeNext_setNext hp hy, hnodes.nodeNext_setNext hnode hy, hlink]
  · have hy := hS' y hy
    rw [hnodes.nodePrev_setPrev hc hy, hnodes.nodePrev_setPrev hnode hy,
      hnodes.nodePrev_setNext hp hy, hnodes.nodePrev_setNext hnode hy]
    by_cases heq : y = c
    · simp [heq, hcn]
    · simp [heq, Ne.symm heq]

/-- The stores of `add_node` before the first node. -/
theorem BinList.insert_head (h : BinList m b (c :: post)) (hS : ∀ x ∈ c :: post, x ∈ S)
    (hnew : node ∉ c :: post) :
    BinList ((setPrev (setNext m node c) c node).write64 b node) b (node :: c :: post) := by
  have hc : c ∈ S := hS c List.mem_cons_self
  have hnext : ∀ y ∈ S, nodeNext ((setPrev (setNext m node c) c node).write64 b node) y =
      if y = node then c else nodeNext m y := fun y hy => by
    rw [hnodes.nodeNext_head hy, hnodes.nodeNext_setPrev hc hy, hnodes.nodeNext_setNext hnode hy]
  have hprev : ∀ y ∈ S, nodePrev ((setPrev (setNext m node c) c node).write64 b node) y =
      if y = c then node else nodePrev m y := fun y hy => by
    rw [hnodes.nodePrev_head hy, hnodes.nodePrev_setPrev hc hy, hnodes.nodePrev_setNext hnode hy]
  unfold BinList
  rw [Mem.read64_write64_self]
  refine DList.cons h (hnodes.ne_zero node hnode) ?_ (fun y hy => ?_) (fun y hy => ?_)
    fun y hy => ?_
  · rw [hnext node hnode, if_pos rfl, h.head_eq]
    rfl
  · cases hy
    rw [hprev c hc, if_pos rfl]
  · have hne : y ≠ node := fun heq => hnew (heq ▸ hy)
    rw [hnext y (hS y hy), if_neg hne]
  · have hne : y ≠ c := fun heq => (List.nodup_cons.mp h.nodup).1 (heq ▸ hy)
    rw [hprev y (hS y (List.mem_of_mem_tail hy)), if_neg hne]

end Insertion

section AddNode

variable (hnodes : Nodes b S) (hnode : node ∈ S)
include hnodes hnode

/-- What clearing the links of a node outside the list leaves. -/
theorem BinList.unlinked (h : BinList m b l) (hS : ∀ x ∈ l, x ∈ S) (hnew : node ∉ l) :
    BinList (unlinked m node) b l := by
  unfold BinList Shmall.unlinked
  rw [hnodes.read64_setPrev hnode, hnodes.read64_setNext hnode]
  have hne : ∀ x ∈ l, x ≠ node := fun x hx heq => hnew (heq ▸ hx)
  refine DList.congr h (fun x hx => ?_) fun x hx => ?_
  · rw [hnodes.nodeNext_setPrev hnode (hS x hx), hnodes.nodeNext_setNext hnode (hS x hx),
      if_neg (hne x hx)]
  · have hmem := List.mem_of_mem_tail hx
    rw [hnodes.nodePrev_setPrev hnode (hS x hmem), if_neg (hne x hmem),
      hnodes.nodePrev_setNext hnode (hS x hmem)]

theorem Nodes.nodeNext_unlinked : nodeNext (Shmall.unlinked m node) node = 0 := by
  rw [Shmall.unlinked, hnodes.nodeNext_setPrev hnode hnode, hnodes.nodeNext_setNext hnode hnode,
    if_pos rfl]

omit hnodes in
theorem linksOnly_unlinked : LinksOnly S b m (Shmall.unlinked m node) :=
  (LinksOnly.refl.setNext hnode).setPrev hnode

/-- The search for the place sees the sizes as they were. -/
theorem findPlace_unlinked (h : BinList m b (pre ++ post)) (hS : ∀ x ∈ pre ++ post, x ∈ S)
    (hnew : node ∉ pre ++ post) (hpre : ∀ x ∈ pre, nodeSize m x ≤ nodeSize m node)
    (hpost : ∀ x ∈ post.head?, nodeSize m node < nodeSize m x) :
    findPlace (Shmall.unlinked m node) node ((Shmall.unlinked m node).read64 b) =
      some (pre.getLastD 0, post.headD 0) := by
  have hsize : ∀ x ∈ S, nodeSize (Shmall.unlinked m node) x = nodeSize m x := fun x hx =>
    ((linksOnly_unlinked hnode).header (hnodes.head x hx) fun y hy =>
      or_iff_not_imp_left.mpr (hnodes.apart hy hx)).2
  refine findPlace_eq (h.unlinked hnodes hnode hS hnew) (fun x hx => ?_) fun x hx => ?_
  · rw [hsize x (hS x (List.mem_append_left _ hx)), hsize node hnode]
    exact hpre x hx
  · rw [hsize x (hS x (List.mem_append_right _ (List.mem_of_mem_head? hx))), hsize node hnode]
    exact hpost x hx

/-- `add_node` at a place between the smaller and the larger nodes. -/
theorem addNode_split (h : BinList m b (pre ++ post)) (hS : ∀ x ∈ pre ++ post, x ∈ S)
    (hnew : node ∉ pre ++ post) (hpre : ∀ x ∈ pre, nodeSize m x ≤ nodeSize m node)
    (hpost : ∀ x ∈ post.head?, nodeSize m node < nodeSize m x) :
    ∃ m', addNode m b node = some m' ∧ BinList m' b (pre ++ node :: post) ∧
      LinksOnly S b m m' := by
  have h₀ : BinList (Shmall.unlinked m node) b (pre ++ post) := h.unlinked hnodes hnode hS hnew
  have hplace := findPlace_unlinked hnodes hnode h hS hnew hpre hpost
  have hfree : nodeNext (Shmall.unlinked m node) node = 0 := hnodes.nodeNext_unlinked hnode
  have hchange : LinksOnly S b m (Shmall.unlinked m node) := linksOnly_unlinked hnode
  by_cases hempty : (Shmall.unlinked m node).read64 b = 0
  · have hnil : pre ++ post = [] := h₀.eq_nil_of_head hempty
    obtain ⟨rfl, rfl⟩ := List.append_eq_nil_iff.mp hnil
    refine ⟨_, addNode_empty hempty, ?_, hchange.head⟩
    unfold BinList
    rw [Mem.read64_write64_self]
    refine DList.cons_iff.mpr ⟨rfl, hnodes.ne_zero node hnode, by simp, DList.nil_iff.mpr ?_⟩
    rw [hnodes.nodeNext_head hnode, hfree]
  have hadd := addNode_eq hempty hplace
  rcases List.eq_nil_or_concat' pre with rfl | ⟨pre, p, rfl⟩
  · rcases post with - | ⟨c, post⟩
    · exact absurd (DList.nil_iff.mp h₀) hempty
    · have hc : c ∈ S := hS c List.mem_cons_self
      have hhead : (Shmall.unlinked m node).read64 b = c := h₀.head_eq
      rw [List.headD_cons, if_neg (hnodes.ne_zero c hc), List.getLastD_nil,
        if_neg (not_not.mpr rfl), hnodes.read64_setNext hnode, hhead] at hadd
      exact ⟨_, hadd, h₀.insert_head hnodes hnode hS hnew,
        ((hchange.setNext hnode).setPrev hc).head⟩
  · have hp : p ∈ S := hS p (by simp)
    rw [List.getLastD_concat] at hadd
    rcases post with - | ⟨c, post⟩
    · rw [List.headD_nil, if_pos rfl] at hadd
      rw [List.append_nil] at h₀ hS hnew
      refine ⟨_, hadd, ?_, (hchange.setNext hp).setPrev hnode⟩
      rw [List.append_assoc]
      exact h₀.insert_end hnodes hnode hS hnew hfree
    · have hc : c ∈ S := hS c (by simp)
      rw [List.headD_cons, if_neg (hnodes.ne_zero c hc), if_pos (hnodes.ne_zero p hp)] at hadd
      rw [List.append_assoc, List.singleton_append] at h₀ hS hnew ⊢
      exact ⟨_, hadd, h₀.insert_middle hnodes hnode hS hnew,
        (((hchange.setNext hnode).setNext hp).setPrev hnode).setPrev hc⟩

theorem addNode_spec (h : BinList m b l) (hS : ∀ x ∈ l, x ∈ S) (hnew : node ∉ l) :
    ∃ m', addNode m b node = some m' ∧ BinList m' b (insertBySize (nodeSize m) node l) ∧
      LinksOnly S b m m' := by
  rw [← @List.takeWhile_append_dropWhile _ (fun x => nodeSize m x ≤ nodeSize m node) l] at h hS hnew
  refine addNode_split hnodes hnode h hS hnew (fun x hx => ?_) fun x hx => ?_
  · exact of_decide_eq_true
      (@List.mem_takeWhile_imp _ (fun x => decide (nodeSize m x ≤ nodeSize m node)) l x hx)
  · have hlarger := List.head?_dropWhile_not (fun x => nodeSize m x ≤ nodeSize m node) l
    rw [hx] at hlarger
    exact BitVec.not_le.mp (of_decide_eq_false hlarger)

end AddNode

section RemoveNode

variable {p : Word} (hnodes : Nodes b S) (h : BinList m b (pre ++ p :: node :: post))
  (hS : ∀ x ∈ pre ++ p :: node :: post, x ∈ S)
include h

/-- The walk of `remove_node` finds the node, and its back link is the one to the node before. -/
theorem removeNode_eq :
    removeNode m b node = some (if nodeNext m node = 0 then setNext m p 0
      else setPrev (setNext m p (nodeNext m node)) (nodeNext (setNext m p (nodeNext m node)) node)
        (nodePrev (setNext m p (nodeNext m node)) node)) := by
  have hnode : node ≠ 0 := h.ne_nul (by simp)
  have hprev : nodePrev m node = p := (DList.cons_iff.mp (DList.suffix pre h)).2.2.1 node rfl
  obtain ⟨first, rest, hfirst⟩ := List.exists_cons_of_ne_nil (show pre ++ [p] ≠ [] by simp)
  have hlist : pre ++ p :: node :: post = first :: (rest ++ node :: post) := by
    rw [← List.cons_append, ← hfirst, List.append_assoc, List.singleton_append]
  have hnodup := h.nodup
  unfold BinList at h
  rw [hlist] at h hnodup
  obtain ⟨hfirst', hrest⟩ := List.nodup_cons.mp hnodup
  have hhead : m.read64 b = first := h.head_eq
  have hhead₀ : first ≠ 0 := h.ne_nul List.mem_cons_self
  have hne : first ≠ node := fun heq => hfirst' (by simp [heq])
  have hwalks : ∀ x ∈ rest, decide (x = 0 ∨ x = node) = false := by
    intro x hx
    refine decide_eq_false (not_or.mpr ⟨h.tail.ne_nul (List.mem_append_left _ hx), ?_⟩)
    exact (List.nodup_append.mp hrest).2.2 x hx node List.mem_cons_self
  have hstops : ∀ x ∈ (node :: post).head?, decide (x = 0 ∨ x = node) = true :=
    fun x hx => decide_eq_true (Or.inr (Option.some.inj hx).symm)
  obtain ⟨fuel, hfuel⟩ := h.tail.searchFrom _ (by simp) hwalks hstops
  have hfound := searchFrom_pow hfuel
  rw [removeNode, hhead, if_neg hhead₀, if_neg hne, hfound]
  dsimp only [Option.bind_eq_bind, Option.bind_some, List.headD_cons]
  rw [if_neg hnode, hprev]
  split_ifs <;> rfl

include hnodes hS

/-- The stores of `remove_node` for a node that is not the first. -/
theorem removeNode_after :
    ∃ m', removeNode m b node = some m' ∧ BinList m' b (pre ++ p :: post) ∧
      LinksOnly S b m m' := by
  have hp : p ∈ S := hS p (by simp)
  have hnode : node ∈ S := hS node (by simp)
  have hkept : ∀ y ∈ pre ++ p :: post, y ∈ S := fun y hy => by
    refine hS y ?_
    simp only [List.mem_append, List.mem_cons] at hy ⊢
    tauto
  have hsuffix := (DList.suffix pre h).tail
  have hpnode : node ≠ p := (DList.seam h.nodup).1 node (by simp)
  have hlink : nodeNext (setNext m p (nodeNext m node)) node = nodeNext m node := by
    rw [hnodes.nodeNext_setNext hp hnode, if_neg hpnode]
  have hback : nodePrev (setNext m p (nodeNext m node)) node = p := by
    rw [hnodes.nodePrev_setNext hp hnode]
    exact (DList.cons_iff.mp (DList.suffix pre h)).2.2.1 node rfl
  have heq := removeNode_eq h
  rw [hlink, hback] at heq
  rcases post with - | ⟨c, post⟩
  · have hlast : nodeNext m node = 0 := DList.nil_iff.mp hsuffix.tail
    rw [if_pos hlast] at heq
    refine ⟨_, heq, ?_, LinksOnly.refl.setNext hp⟩
    unfold BinList
    rw [hnodes.read64_setNext hp]
    refine DList.erase_after h (fun y hy => ?_) fun y hy => ?_
    · rw [hnodes.nodeNext_setNext hp (hkept y hy), hlast]
    · exact hnodes.nodePrev_setNext hp (hkept y hy)
  · have hc : c ∈ S := hkept c (by simp)
    have hnext : nodeNext m node = c := hsuffix.tail.head_eq
    rw [hnext, if_neg (hnodes.ne_zero c hc)] at heq
    refine ⟨_, heq, ?_, (LinksOnly.refl.setNext hp).setPrev hc⟩
    unfold BinList
    rw [hnodes.read64_setPrev hc, hnodes.read64_setNext hp]
    refine DList.erase_after h (fun y hy => ?_) fun y hy => ?_
    · have hy := hkept y hy
      rw [hnodes.nodeNext_setPrev hc hy, hnodes.nodeNext_setNext hp hy, hnext]
    · have hy := hkept y hy
      rw [hnodes.nodePrev_setPrev hc hy, hnodes.nodePrev_setNext hp hy]
      simp only [List.head?_cons, Option.mem_def, Option.some.injEq, eq_comm]

end RemoveNode

theorem removeNode_spec (hnodes : Nodes b S) (h : BinList m b (pre ++ node :: post))
    (hS : ∀ x ∈ pre ++ node :: post, x ∈ S) :
    ∃ m', removeNode m b node = some m' ∧ BinList m' b (pre ++ post) ∧ LinksOnly S b m m' := by
  rcases List.eq_nil_or_concat' pre with rfl | ⟨pre, p, rfl⟩
  · -- the head moves on; the back link of the node behind it is left as it was
    have hhead : m.read64 b = node := h.head_eq
    have hne : node ≠ 0 := h.ne_nul List.mem_cons_self
    refine ⟨m.write64 b (nodeNext m node), ?_, ?_, LinksOnly.refl.head⟩
    · rw [removeNode, hhead, if_neg hne, if_pos rfl]
      rfl
    · unfold BinList
      rw [Mem.read64_write64_self]
      have hS' := fun y hy => hS y (List.mem_cons_of_mem node hy)
      exact h.tail.congr (fun y hy => hnodes.nodeNext_head (hS' y hy))
        fun y hy => hnodes.nodePrev_head (hS' y (List.mem_of_mem_tail hy))
  · rw [List.append_assoc, List.singleton_append] at h hS ⊢
    exact removeNode_after hnodes h hS

theorem getBestFit_eq (h : BinList m b (pre ++ post)) (size : Word)
    (hpre : ∀ x ∈ pre, (nodeSize m x).setWidth 64 < size)
    (hpost : ∀ x ∈ post.head?, size ≤ (nodeSize m x).setWidth 64) :
    getBestFit m b size = some (post.headD 0) := by
  have hwalks : ∀ x ∈ pre, decide (x = 0 ∨ size ≤ (nodeSize m x).setWidth 64) = false := by
    intro x hx
    have hne : x ≠ 0 := h.ne_nul (List.mem_append_left post hx)
    exact decide_eq_false (not_or.mpr ⟨hne, BitVec.not_le.mpr (hpre x hx)⟩)
  have hstops : ∀ x ∈ post.head?, decide (x = 0 ∨ size ≤ (nodeSize m x).setWidth 64) = true :=
    fun x hx => decide_eq_true (Or.inr (hpost x hx))
  obtain ⟨fuel, hfuel⟩ := h.searchFrom _ (by simp) hwalks hstops
  exact searchFrom_pow hfuel

end Lists

end ChronOS.Shmall
