/-
  Foundation/Chains.lean --- chains in a table of links.

  A table gives for every node the next one.  A chain is what is passed from a node on until
  a mark is reached that is no node.  The chains of several owners share one table; an owner's
  chain may be lengthened by a node of nobody, or cut, and as long as the table changes
  nowhere else, the other chains stay and nobody's chain runs into another's.
-/
import Mathlib

set_option autoImplicit false

namespace ChronOS.Foundation

variable {α : Type} {next next' : α → α} {live fin : α → Prop} {c d e x n : α}
  {l pre post : List α}

/-- From `c` on, `next` passes the live nodes `l` and comes to `e`. -/
def Leads (next : α → α) (live : α → Prop) : α → List α → α → Prop
  | c, [], e => c = e
  | c, x :: l, e => x = c ∧ live c ∧ Leads next live (next c) l e

namespace Leads

theorem append_iff : Leads next live c (pre ++ post) e ↔
    ∃ d, Leads next live c pre d ∧ Leads next live d post e := by
  induction pre generalizing c with
  | nil => exact ⟨fun h => ⟨c, rfl, h⟩, fun ⟨_, hc, h⟩ => hc ▸ h⟩
  | cons x pre ih =>
    constructor
    · rintro ⟨hx, hlive, h⟩
      obtain ⟨d, hpre, hpost⟩ := ih.mp h
      exact ⟨d, ⟨hx, hlive, hpre⟩, hpost⟩
    · rintro ⟨d, ⟨hx, hlive, hpre⟩, hpost⟩
      exact ⟨hx, hlive, ih.mpr ⟨d, hpre, hpost⟩⟩

theorem live_of_mem (h : Leads next live c l e) (hx : x ∈ l) : live x := by
  induction l generalizing c with
  | nil => exact absurd hx List.not_mem_nil
  | cons y l ih =>
    obtain ⟨rfl, hlive, h⟩ := h
    rcases List.mem_cons.mp hx with rfl | hx
    · exact hlive
    · exact ih h hx

/-- A node of a chain leads to one of the chain or to where it comes. -/
theorem next_of_mem (h : Leads next live c l e) (hx : x ∈ l) : next x ∈ l ∨ next x = e := by
  induction l generalizing c with
  | nil => exact absurd hx List.not_mem_nil
  | cons y l ih =>
    obtain ⟨rfl, -, h⟩ := h
    rcases List.mem_cons.mp hx with rfl | hx
    · cases l with
      | nil => exact Or.inr h
      | cons z l => exact Or.inl (h.1 ▸ List.mem_cons_of_mem x List.mem_cons_self)
    · exact (ih h hx).imp_left (List.mem_cons_of_mem y)

/-- The nodes are linked in their order. -/
theorem next_getElem? {i : Nat} (h : Leads next live c l e) (hx : l[i]? = some x)
    (hd : l[i + 1]? = some d) : next x = d := by
  induction l generalizing c i with
  | nil => cases hx
  | cons y l ih =>
    obtain ⟨rfl, -, h⟩ := h
    cases i with
    | zero =>
      obtain rfl : y = x := Option.some.inj hx
      cases l with
      | nil => cases hd
      | cons z l =>
        obtain rfl : z = d := Option.some.inj hd
        exact h.1.symm
    | succ i => exact ih h hx hd

theorem congr (h : Leads next live c l e) (hsame : ∀ x ∈ l, next' x = next x) :
    Leads next' live c l e := by
  induction l generalizing c with
  | nil => exact h
  | cons y l ih =>
    obtain ⟨rfl, hlive, h⟩ := h
    refine ⟨rfl, hlive, ?_⟩
    rw [hsame y List.mem_cons_self]
    exact ih h fun x hx => hsame x (List.mem_cons_of_mem y hx)

/-- A node leads to one chain only. -/
theorem unique {l' : List α} {e' : α} (h : Leads next live c l e) (he : ¬ live e)
    (h' : Leads next live c l' e') (he' : ¬ live e') : l = l' := by
  induction l generalizing c l' with
  | nil =>
    obtain rfl : c = e := h
    cases l' with
    | nil => rfl
    | cons y l' => exact absurd h'.2.1 he
  | cons x l ih =>
    obtain ⟨rfl, hlive, h⟩ := h
    cases l' with
    | nil =>
      obtain rfl : x = e' := h'
      exact absurd hlive he'
    | cons y l' =>
      obtain ⟨rfl, -, h'⟩ := h'
      rw [ih h h']

/-- A chain that comes to an end passes no node twice. -/
theorem nodup (h : Leads next live c l e) (he : ¬ live e) : l.Nodup := by
  induction l generalizing c with
  | nil => exact List.nodup_nil
  | cons x l ih =>
    obtain ⟨rfl, hlive, hrest⟩ := h
    refine List.nodup_cons.mpr ⟨fun hmem => ?_, ih hrest⟩
    -- otherwise the chain from its first node on would be a part of itself
    obtain ⟨a, b, rfl⟩ := List.append_of_mem hmem
    obtain ⟨d, -, hd⟩ := append_iff.mp hrest
    obtain rfl : x = d := hd.1
    have heq := unique (l := x :: (a ++ x :: b)) ⟨rfl, hlive, hrest⟩ he hd he
    have hlen := congrArg List.length heq
    simp at hlen
    omega

end Leads

/-- The nodes `l` are linked in this order and then comes an end. -/
def Linked (next : α → α) (live fin : α → Prop) (l : List α) : Prop :=
  ∀ x ∈ l.head?, ∃ e, Leads next live x l e ∧ fin e

namespace Linked

theorem nil : Linked next live fin [] := fun _ hx => nomatch hx

theorem congr (h : Linked next live fin l) (hsame : ∀ x ∈ l, next' x = next x) :
    Linked next' live fin l := fun x hx =>
  (h x hx).imp fun _ ⟨hleads, hfin⟩ => ⟨hleads.congr hsame, hfin⟩

theorem live_of_mem (h : Linked next live fin l) (hx : x ∈ l) : live x := by
  cases l with
  | nil => exact absurd hx List.not_mem_nil
  | cons y l =>
    obtain ⟨e, hleads, -⟩ := h y rfl
    exact hleads.live_of_mem hx

theorem next_of_mem (h : Linked next live fin l) (hx : x ∈ l) :
    live (next x) ∨ fin (next x) := by
  cases l with
  | nil => exact absurd hx List.not_mem_nil
  | cons y l =>
    obtain ⟨e, hleads, hfin⟩ := h y rfl
    rcases hleads.next_of_mem hx with hmem | heq
    · exact Or.inl (hleads.live_of_mem hmem)
    · exact Or.inr (heq ▸ hfin)

theorem next_getElem? {i : Nat} (h : Linked next live fin l) (hx : l[i]? = some x)
    (hd : l[i + 1]? = some d) : next x = d := by
  cases l with
  | nil => cases hx
  | cons y l =>
    obtain ⟨e, hleads, -⟩ := h y rfl
    exact hleads.next_getElem? hx hd

theorem nodup (h : Linked next live fin l) (hend : ∀ e, fin e → ¬ live e) : l.Nodup := by
  cases l with
  | nil => exact List.nodup_nil
  | cons y l =>
    obtain ⟨e, hleads, hfin⟩ := h y rfl
    exact hleads.nodup (hend e hfin)

theorem fin_last (h : Linked next live fin (pre ++ [x])) : fin (next x) := by
  obtain ⟨y, hy⟩ : ∃ y, y ∈ (pre ++ [x]).head? := by cases pre <;> exact ⟨_, rfl⟩
  obtain ⟨e, hleads, hfin⟩ := h y hy
  obtain ⟨d, -, rfl, -, rfl⟩ := Leads.append_iff.mp hleads
  exact hfin

/-- The part of a chain before a node, when that part is given an end. -/
theorem cut (h : Linked next live fin (pre ++ [x] ++ post)) (hend : fin (next' x))
    (hsame : ∀ y ∈ pre, next' y = next y) : Linked next' live fin (pre ++ [x]) := by
  intro y hy
  have hy' : y ∈ (pre ++ [x] ++ post).head? := by
    cases pre <;> exact hy
  obtain ⟨e, hleads, -⟩ := h y hy'
  obtain ⟨d, hfront, -⟩ := Leads.append_iff.mp hleads
  obtain ⟨d', hpre, rfl, hlive, -⟩ := Leads.append_iff.mp hfront
  exact ⟨next' x, Leads.append_iff.mpr ⟨x, hpre.congr hsame, rfl, hlive, rfl⟩, hend⟩

theorem append (h : Linked next live fin l) (hn : live n) (hend : fin (next' n))
    (hlink : ∀ x ∈ l.getLast?, next' x = n)
    (hsame : ∀ y ∈ l.dropLast, next' y = next y) : Linked next' live fin (l ++ [n]) := by
  rcases List.eq_nil_or_concat' l with rfl | ⟨pre, x, rfl⟩
  · intro y hy
    obtain rfl : n = y := Option.some.inj hy
    exact ⟨next' n, ⟨rfl, hn, rfl⟩, hend⟩
  · rw [List.dropLast_concat] at hsame
    have hx : next' x = n := hlink x (by simp)
    intro y hy
    have hy' : y ∈ (pre ++ [x]).head? := by
      cases pre <;> exact hy
    obtain ⟨e, hleads, -⟩ := h y hy'
    obtain ⟨d, hpre, rfl, hlive, -⟩ := Leads.append_iff.mp hleads
    refine ⟨next' n, ?_, hend⟩
    rw [List.append_assoc]
    exact Leads.append_iff.mpr ⟨x, hpre.congr hsame, rfl, hlive, hx.symm, hx ▸ hn, by rw [hx]; rfl⟩

end Linked

/-! ## Several owners -/

section Owners

variable {ι : Type} [DecidableEq ι] {own : ι → Option (List α)} {i : ι}

/-- The chain of every owner who is known to have one, and no node is in two of them. -/
structure Owned (next : α → α) (live fin : α → Prop) (own : ι → Option (List α)) : Prop where
  linked : ∀ i l, own i = some l → Linked next live fin l
  apart : ∀ i j l l', i ≠ j → own i = some l → own j = some l' → l.Disjoint l'

/-- One owner's chain changes, and the table only where it does not matter to the others. -/
theorem Owned.update (h : Owned next live fin own) {o : Option (List α)}
    (hothers : ∀ j l', j ≠ i → own j = some l' → ∀ x ∈ l', next' x = next x)
    (ho : ∀ l, o = some l → Linked next' live fin l ∧
      ∀ j l', j ≠ i → own j = some l' → l.Disjoint l') :
    Owned next' live fin (Function.update own i o) where
  linked := by
    intro j l hj
    by_cases hij : j = i
    · subst hij
      rw [Function.update_self] at hj
      exact (ho l hj).1
    · rw [Function.update_of_ne hij] at hj
      exact (h.linked j l hj).congr (hothers j l hij hj)
  apart := by
    intro j k l l' hjk hj hk
    by_cases hij : j = i
    · subst hij
      rw [Function.update_self] at hj
      rw [Function.update_of_ne (Ne.symm hjk)] at hk
      exact (ho l hj).2 k l' (Ne.symm hjk) hk
    · rw [Function.update_of_ne hij] at hj
      by_cases hik : k = i
      · subst hik
        rw [Function.update_self] at hk
        exact ((ho l' hk).2 j l hij hj).symm
      · rw [Function.update_of_ne hik] at hk
        exact h.apart j k l l' hjk hj hk

/-- A chain that is no longer known, with the table as it was for the others. -/
theorem Owned.lose (h : Owned next live fin own)
    (hothers : ∀ j l', j ≠ i → own j = some l' → ∀ x ∈ l', next' x = next x) :
    Owned next' live fin (Function.update own i none) :=
  h.update hothers fun _ ho => nomatch ho

/-- A node that nobody has, behind the last one of a chain. -/
theorem Owned.grow (h : Owned next live fin own) (hend : ∀ e, fin e → ¬ live e)
    (hi : own i = some l) (hn : live n) (hfresh : ∀ j l', own j = some l' → n ∉ l')
    (hfin : fin (next' n)) (hlink : ∀ x ∈ l.getLast?, next' x = n)
    (hsame : ∀ y, y ≠ n → y ∉ l.getLast? → next' y = next y) :
    Owned next' live fin (Function.update own i (some (l ++ [n]))) := by
  have hl := h.linked i l hi
  refine h.update (fun j l' hj hown x hx => hsame x ?_ ?_) fun _ ho => ?_
  · exact ne_of_mem_of_not_mem hx (hfresh j l' hown)
  · exact fun hlast => h.apart j i l' l hj hown hi hx (List.mem_of_getLast? hlast)
  · cases ho
    refine ⟨hl.append hn hfin hlink fun y hy => hsame y ?_ ?_, fun j l' hj hown => ?_⟩
    · exact ne_of_mem_of_not_mem (List.mem_of_mem_dropLast hy) (hfresh i l hi)
    · -- the last node does not occur before
      intro hlast
      have hnodup := hl.nodup hend
      rw [← List.dropLast_append_getLast? y hlast] at hnodup
      exact (List.nodup_append.mp hnodup).2.2 y hy y (List.mem_singleton.mpr rfl) rfl
    · rw [List.disjoint_append_left, List.singleton_disjoint]
      exact ⟨h.apart i j l l' (Ne.symm hj) hi hown, hfresh j l' hown⟩

/-- The front of a chain, when it is given an end. -/
theorem Owned.cut (h : Owned next live fin own) (hend : ∀ e, fin e → ¬ live e)
    (hi : own i = some (pre ++ post)) (hfin : ∀ x ∈ pre.getLast?, fin (next' x))
    (hsame : ∀ y, y ∉ pre.getLast? → y ∉ post → next' y = next y) :
    Owned next' live fin (Function.update own i (some pre)) := by
  have hl := h.linked i _ hi
  refine h.update (fun j l' hj hown x hx => hsame x ?_ ?_) fun _ ho => ?_
  · exact fun hlast => h.apart j i l' _ hj hown hi hx
      (List.mem_append_left _ (List.mem_of_getLast? hlast))
  · exact fun hpost => h.apart j i l' _ hj hown hi hx (List.mem_append_right _ hpost)
  · cases ho
    refine ⟨?_, fun j l' hj hown x hx hx' =>
      h.apart i j _ l' (Ne.symm hj) hi hown (List.mem_append_left _ hx) hx'⟩
    rcases List.eq_nil_or_concat' pre with rfl | ⟨pre, x, rfl⟩
    · exact Linked.nil
    · refine hl.cut (hfin x (by simp)) fun y hy => hsame y ?_ fun hpost => ?_
      · have hnodup := (List.nodup_append.mp (hl.nodup hend)).1
        intro hlast
        obtain rfl : x = y := by simpa using hlast
        exact (List.nodup_append.mp hnodup).2.2 x hy x (List.mem_singleton.mpr rfl) rfl
      · have hnodup := hl.nodup hend
        rw [List.append_assoc] at hnodup
        exact (List.nodup_append.mp hnodup).2.2 y hy y (List.mem_append_right _ hpost) rfl

end Owners

end ChronOS.Foundation
