/-
  Foundation/DoublyLinked.lean --- lists that are threaded through a store.

  The store is seen through the two functions that read the links of a node.  A
  list is `head`, the nodes that `next` leads to from there, and the end `nul`;
  `prev` leads back from every node to the one before it.  Nothing is said about
  `prev` of the first node: a list from which the head was taken by moving the
  head pointer on still has the old back link there, and no operation reads it.

  An operation on a list writes few links.  Each of the edits below asks for the
  links after it, which are new for the nodes at the seam and the old ones elsewhere.
-/
import ChronOS.Foundation.Search

set_option autoImplicit false

namespace ChronOS.Foundation

variable {α : Type} {next next' prev prev' : α → α} {nul head x p : α} {l pre post : List α}

/-- The nodes `l` are linked in this order, from `head` on. -/
structure DList (next prev : α → α) (nul head : α) (l : List α) : Prop where
  head_eq : head = l.headD nul
  nul_notMem : nul ∉ l
  forward : (l ++ [nul]).IsChain fun x y => next x = y
  back : l.IsChain fun x y => prev y = x

namespace DList

theorem nil_iff : DList next prev nul head [] ↔ head = nul :=
  ⟨fun h => h.head_eq, fun h => ⟨h, List.not_mem_nil, List.isChain_singleton _, List.isChain_nil⟩⟩

theorem cons_iff : DList next prev nul head (x :: l) ↔
    head = x ∧ x ≠ nul ∧ (∀ y ∈ l.head?, prev y = x) ∧ DList next prev nul (next x) l := by
  constructor
  · rintro ⟨hhead, hnul, hforward, hback⟩
    rw [List.cons_append, List.isChain_cons] at hforward
    rw [List.isChain_cons] at hback
    refine ⟨hhead, fun heq => hnul (heq ▸ List.mem_cons_self), hback.1, ?_,
      fun hmem => hnul (List.mem_cons_of_mem x hmem), hforward.2, hback.2⟩
    cases l with
    | nil => exact hforward.1 nul rfl
    | cons y l => exact hforward.1 y rfl
  · rintro ⟨rfl, hne, hfirst, hhead, hnul, hforward, hback⟩
    refine ⟨rfl, fun hmem => ?_, ?_, List.isChain_cons.mpr ⟨hfirst, hback⟩⟩
    · exact (List.mem_cons.mp hmem).elim (fun heq => hne heq.symm) hnul
    · rw [List.cons_append, List.isChain_cons]
      refine ⟨fun y hy => ?_, hforward⟩
      rw [hhead]
      cases l with
      | nil => exact Option.some.inj hy
      | cons z l => exact Option.some.inj hy

/-- The list behind its first node. -/
theorem tail (h : DList next prev nul head (x :: l)) : DList next prev nul (next x) l :=
  (cons_iff.mp h).2.2.2

theorem ne_nul (h : DList next prev nul head l) (hx : x ∈ l) : x ≠ nul :=
  fun heq => h.nul_notMem (heq ▸ hx)

theorem eq_nil (h : DList next prev nul nul l) : l = [] := by
  cases l with
  | nil => rfl
  | cons x l => exact absurd (h.head_eq ▸ List.mem_cons_self) h.nul_notMem

/-- A pointer leads to one list only. -/
theorem unique {l' : List α} (h : DList next prev nul head l) (h' : DList next prev nul head l') :
    l = l' := by
  induction l generalizing head l' with
  | nil =>
    obtain rfl := nil_iff.mp h
    exact h'.eq_nil.symm
  | cons x l ih =>
    obtain ⟨rfl, hne, -, hrest⟩ := cons_iff.mp h
    cases l' with
    | nil => exact absurd (nil_iff.mp h') hne
    | cons y l' =>
      obtain ⟨rfl, -, -, hrest'⟩ := cons_iff.mp h'
      rw [ih hrest hrest']

theorem suffix (pre : List α) (h : DList next prev nul head (pre ++ x :: post)) :
    DList next prev nul x (x :: post) := by
  induction pre generalizing head with
  | nil =>
    obtain rfl : head = x := h.head_eq
    exact h
  | cons y pre ih => exact ih h.tail

theorem nodup (h : DList next prev nul head l) : l.Nodup := by
  induction l generalizing head with
  | nil => exact List.nodup_nil
  | cons x l ih =>
    refine List.nodup_cons.mpr ⟨fun hmem => ?_, ih h.tail⟩
    obtain ⟨before, after, rfl⟩ := List.append_of_mem hmem
    -- the list from `x` on would be the one from a later place on
    have hlong := suffix [] h
    have hshort := suffix (x :: before) h
    have hlength := congrArg List.length (hlong.unique hshort)
    simp only [List.length_cons, List.length_append] at hlength
    omega

/-! ## Edits -/

theorem congr (h : DList next prev nul head l) (hnext : ∀ y ∈ l, next' y = next y)
    (hprev : ∀ y ∈ l.tail, prev' y = prev y) : DList next' prev' nul head l := by
  induction l generalizing head with
  | nil => exact nil_iff.mpr (nil_iff.mp h)
  | cons x l ih =>
    obtain ⟨rfl, hne, hfirst, hrest⟩ := cons_iff.mp h
    refine cons_iff.mpr ⟨rfl, hne, fun y hy => ?_, ?_⟩
    · exact (hprev y (List.mem_of_mem_head? hy)).trans (hfirst y hy)
    · rw [hnext head List.mem_cons_self]
      exact ih hrest (fun y hy => hnext y (List.mem_cons_of_mem _ hy))
        fun y hy => hprev y (List.mem_of_mem_tail hy)

/-- A node put before the first one. -/
theorem cons (h : DList next prev nul head l) (hx : x ≠ nul) (hxnext : next' x = head)
    (hfirst : ∀ y ∈ l.head?, prev' y = x) (hnext : ∀ y ∈ l, next' y = next y)
    (hprev : ∀ y ∈ l.tail, prev' y = prev y) : DList next' prev' nul x (x :: l) :=
  cons_iff.mpr ⟨rfl, hx, hfirst, hxnext ▸ h.congr hnext hprev⟩

/-- The links behind `p` and what follows them are exchanged, and those before are kept. -/
theorem replace_after {post' : List α} (h : DList next prev nul head (pre ++ p :: post))
    (hpost : DList next' prev' nul (next' p) post') (hfirst : ∀ y ∈ post'.head?, prev' y = p)
    (hnext : ∀ y ∈ pre, next' y = next y) (hprev : ∀ y ∈ (pre ++ [p]).tail, prev' y = prev y) :
    DList next' prev' nul head (pre ++ p :: post') := by
  induction pre generalizing head with
  | nil =>
    obtain ⟨rfl, hne, -, -⟩ := cons_iff.mp h
    exact cons_iff.mpr ⟨rfl, hne, hfirst, hpost⟩
  | cons y pre ih =>
    obtain ⟨rfl, hne, hsecond, hrest⟩ := cons_iff.mp h
    have hkept := ih hrest (fun z hz => hnext z (List.mem_cons_of_mem _ hz))
      fun z hz => hprev z (List.mem_of_mem_tail hz)
    refine cons_iff.mpr ⟨rfl, hne, fun z hz => ?_, hnext head List.mem_cons_self ▸ hkept⟩
    -- the second node is still the one it was
    have hz' : z ∈ (pre ++ [p]).head? ∧ z ∈ (pre ++ p :: post).head? := by
      cases pre <;> exact ⟨hz, hz⟩
    exact (hprev z (List.mem_of_mem_head? hz'.1)).trans (hsecond z hz'.2)

/-- In a list without repetitions `p` is no other node, and the node behind it neither. -/
theorem seam (h : (pre ++ p :: post).Nodup) :
    (∀ y ∈ pre ++ post, y ≠ p) ∧ ∀ y ∈ (pre ++ [p]).tail ++ post.tail, y ∉ post.head? := by
  obtain ⟨-, hrest, hdisjoint⟩ := List.nodup_append.mp h
  obtain ⟨hp, hpost⟩ := List.nodup_cons.mp hrest
  refine ⟨fun y hy => ?_, fun y hy hfirst => ?_⟩
  · rcases List.mem_append.mp hy with hy | hy
    · exact hdisjoint y hy p List.mem_cons_self
    · exact fun heq => hp (heq ▸ hy)
  · have hmem := List.mem_of_mem_head? hfirst
    rcases List.mem_append.mp hy with hy | hy
    · rcases List.mem_append.mp (List.mem_of_mem_tail hy) with hy | hy
      · exact hdisjoint y hy y (List.mem_cons_of_mem _ hmem) rfl
      · exact hp (List.mem_singleton.mp hy ▸ hmem)
    · cases post with
      | nil => cases hmem
      | cons c post =>
        cases hfirst
        exact (List.nodup_cons.mp hpost).1 hy

theorem mem_of_mem_seam {y : α} (hy : y ∈ (pre ++ [p]).tail ++ post.tail) :
    y ∈ pre ++ p :: post := by
  rcases List.mem_append.mp hy with hy | hy
  · rcases List.mem_append.mp (List.mem_of_mem_tail hy) with hy | hy
    · exact List.mem_append_left _ hy
    · exact List.mem_append_right _ (List.mem_singleton.mp hy ▸ List.mem_cons_self)
  · exact List.mem_append_right _ (List.mem_cons_of_mem _ (List.mem_of_mem_tail hy))

section Seam

variable [DecidableEq α]

theorem insert_after (h : DList next prev nul head (pre ++ p :: post)) (hx : x ≠ nul)
    (hnew : x ∉ pre ++ p :: post)
    (hnext : ∀ y ∈ x :: (pre ++ p :: post),
      next' y = if y = p then x else if y = x then next p else next y)
    (hprev : ∀ y ∈ x :: (pre ++ p :: post),
      prev' y = if y = x then p else if y ∈ post.head? then x else prev y) :
    DList next' prev' nul head (pre ++ p :: x :: post) := by
  obtain ⟨hp, hfirst⟩ := seam h.nodup
  have hother : ∀ y ∈ pre ++ p :: post, y ≠ x := fun y hy heq => hnew (heq ▸ hy)
  have hpmem : p ∈ pre ++ p :: post := by simp
  have hnextOther : ∀ y ∈ pre ++ post, next' y = next y := fun y hy => by
    have hmem : y ∈ pre ++ p :: post := by
      rcases List.mem_append.mp hy with hy | hy <;> simp [hy]
    rw [hnext y (List.mem_cons_of_mem _ hmem), if_neg (hp y hy), if_neg (hother y hmem)]
  have hprevOther : ∀ y ∈ (pre ++ [p]).tail ++ post.tail, prev' y = prev y := fun y hy => by
    have hmem := mem_of_mem_seam hy
    rw [hprev y (List.mem_cons_of_mem _ hmem), if_neg (hother y hmem), if_neg (hfirst y hy)]
  have hpnext : next' p = x := by rw [hnext p (List.mem_cons_of_mem _ hpmem), if_pos rfl]
  have hxnext : next' x = next p := by
    rw [hnext x List.mem_cons_self, if_neg (hother p hpmem).symm, if_pos rfl]
  have hxprev : prev' x = p := by rw [hprev x List.mem_cons_self, if_pos rfl]
  have hpost : DList next' prev' nul x (x :: post) := by
    refine (suffix pre h).tail.cons hx hxnext (fun y hy => ?_)
      (fun y hy => hnextOther y (List.mem_append_right _ hy))
      fun y hy => hprevOther y (List.mem_append_right _ hy)
    have hmem : y ∈ pre ++ p :: post := by simp [List.mem_of_mem_head? hy]
    rw [hprev y (List.mem_cons_of_mem _ hmem), if_neg (hother y hmem), if_pos hy]
  refine h.replace_after (hpnext ▸ hpost) (fun y hy => ?_)
    (fun y hy => hnextOther y (List.mem_append_left _ hy))
    fun y hy => hprevOther y (List.mem_append_left _ hy)
  cases hy
  exact hxprev

theorem erase_after (h : DList next prev nul head (pre ++ p :: x :: post))
    (hnext : ∀ y ∈ pre ++ p :: post, next' y = if y = p then next x else next y)
    (hprev : ∀ y ∈ pre ++ p :: post, prev' y = if y ∈ post.head? then p else prev y) :
    DList next' prev' nul head (pre ++ p :: post) := by
  have hnodup : (pre ++ p :: post).Nodup := h.nodup.sublist
    (List.Sublist.append_left (List.Sublist.cons_cons p (List.sublist_cons_self x post)) pre)
  obtain ⟨hp, hfirst⟩ := seam hnodup
  have hnextOther : ∀ y ∈ pre ++ post, next' y = next y := fun y hy => by
    have hmem : y ∈ pre ++ p :: post := by
      rcases List.mem_append.mp hy with hy | hy <;> simp [hy]
    rw [hnext y hmem, if_neg (hp y hy)]
  have hprevOther : ∀ y ∈ (pre ++ [p]).tail ++ post.tail, prev' y = prev y := fun y hy => by
    rw [hprev y (mem_of_mem_seam hy), if_neg (hfirst y hy)]
  have hpnext : next' p = next x := by rw [hnext p (by simp), if_pos rfl]
  have hpost : DList next' prev' nul (next x) post :=
    (suffix pre h).tail.tail.congr (fun y hy => hnextOther y (List.mem_append_right _ hy))
      fun y hy => hprevOther y (List.mem_append_right _ hy)
  refine h.replace_after (hpnext ▸ hpost) (fun y hy => ?_)
    (fun y hy => hnextOther y (List.mem_append_left _ hy))
    fun y hy => hprevOther y (List.mem_append_left _ hy)
  have hmem : y ∈ pre ++ p :: post := by simp [List.mem_of_mem_head? hy]
  rw [hprev y hmem, if_pos hy]

end Seam

/-! ## Walks -/

/-- A loop that follows the list ends at the first node that passes its exit test, and at the
end of the list if there is none. -/
theorem searchFrom (h : DList next prev nul head (pre ++ post)) (stop : α → Bool)
    (hnul : stop nul = true) (hpre : ∀ y ∈ pre, stop y = false)
    (hpost : ∀ y ∈ post.head?, stop y = true) :
    ∃ fuel, Foundation.searchFrom stop next fuel head = some (post.headD nul) := by
  induction pre generalizing head with
  | nil =>
    refine ⟨1, ?_⟩
    have hstop : stop head = true := by
      rw [h.head_eq]
      cases post with
      | nil => exact hnul
      | cons y post => exact hpost y rfl
    rw [Foundation.searchFrom, if_pos hstop, h.head_eq]
    rfl
  | cons x pre ih =>
    obtain ⟨rfl, -, -, hrest⟩ := cons_iff.mp h
    obtain ⟨fuel, hfuel⟩ := ih hrest fun y hy => hpre y (List.mem_cons_of_mem _ hy)
    refine ⟨fuel + 1, ?_⟩
    rw [Foundation.searchFrom, hpre head List.mem_cons_self]
    exact hfuel

/-- The same for a loop that also keeps the node before. -/
theorem searchFrom_pair (h : DList next prev nul head (pre ++ post)) (stop : α → Bool)
    (hnul : stop nul = true) (hpre : ∀ y ∈ pre, stop y = false)
    (hpost : ∀ y ∈ post.head?, stop y = true) (p : α) :
    ∃ fuel, Foundation.searchFrom (fun c : α × α => stop c.2) (fun c => (c.2, next c.2)) fuel
      (p, head) = some (pre.getLastD p, post.headD nul) := by
  induction pre generalizing head p with
  | nil =>
    refine ⟨1, ?_⟩
    have hstop : stop head = true := by
      rw [h.head_eq]
      cases post with
      | nil => exact hnul
      | cons y post => exact hpost y rfl
    rw [Foundation.searchFrom, if_pos hstop, h.head_eq]
    rfl
  | cons x pre ih =>
    obtain ⟨rfl, -, -, hrest⟩ := cons_iff.mp h
    obtain ⟨fuel, hfuel⟩ := ih hrest (fun y hy => hpre y (List.mem_cons_of_mem _ hy)) head
    refine ⟨fuel + 1, ?_⟩
    rw [Foundation.searchFrom, hpre head List.mem_cons_self, List.getLastD_cons]
    exact hfuel

end DList

end ChronOS.Foundation
