/-
  Foundation/Ring.lean --- circular singly linked lists.

  A list is given by its link function alone.  `Path next x l y` says that the
  links lead from `x` through exactly `l` to `y`; a ring is a path from its head
  back to its head.  Insertion behind the head and rotation to another member are
  the two operations on it.
-/
import Mathlib

set_option autoImplicit false

namespace ChronOS.Foundation

variable {α : Type}

/-- The links lead from `x` through `l` to `y`. -/
def Path (next : α → α) : α → List α → α → Prop
  | x, [], y => next x = y
  | x, z :: l, y => next x = z ∧ Path next z l y

/-- The `n` nodes reached from `x` by one, two, ..., `n` links. -/
def successors (next : α → α) : α → Nat → List α
  | _, 0 => []
  | x, n + 1 => next x :: successors next (next x) n

namespace Path

variable {next next' : α → α} {x y z : α} {l l' : List α}

/-- A path depends on the links of its inner nodes and of its start only. -/
theorem congr (h : Path next x l y) (hsame : ∀ a ∈ x :: l, next' a = next a) :
    Path next' x l y := by
  induction l generalizing x with
  | nil => exact (hsame x List.mem_cons_self).trans h
  | cons z l ih =>
    obtain ⟨hz, hrest⟩ := h
    exact ⟨(hsame x List.mem_cons_self).trans hz,
      ih hrest fun a ha => hsame a (List.mem_cons_of_mem x ha)⟩

theorem append (h : Path next x l z) (h' : Path next z l' y) :
    Path next x (l ++ z :: l') y := by
  induction l generalizing x with
  | nil => exact ⟨h, h'⟩
  | cons w l ih => exact ⟨h.1, ih h.2⟩

theorem split (h : Path next x (l ++ z :: l') y) : Path next x l z ∧ Path next z l' y := by
  induction l generalizing x with
  | nil => exact h
  | cons w l ih =>
    obtain ⟨hw, hrest⟩ := h
    obtain ⟨hleft, hright⟩ := ih hrest
    exact ⟨⟨hw, hleft⟩, hright⟩

theorem successors_eq (h : Path next x l y) : successors next x (l.length + 1) = l ++ [y] := by
  induction l generalizing x with
  | nil =>
    obtain rfl := h
    rfl
  | cons z l ih =>
    obtain ⟨rfl, hrest⟩ := h
    rw [List.length_cons, successors, ih hrest, List.cons_append]

end Path

/-- The links lead from `head` once through `l` and back to `head`, and meet no node twice. -/
structure Ring (next : α → α) (head : α) (l : List α) : Prop where
  path : Path next head l head
  nodup : (head :: l).Nodup

namespace Ring

variable {next next' : α → α} {head p x : α} {l : List α}

/-- A new node linked behind the head. -/
theorem insert (h : Ring next head l) (hp : p ∉ head :: l) (hnew : next' p = next head)
    (hhead : next' head = p) (hsame : ∀ a ∈ l, next' a = next a) : Ring next' head (p :: l) := by
  obtain ⟨hpath, hnodup⟩ := h
  have hpne : p ≠ head ∧ p ∉ l := by simpa using hp
  refine ⟨⟨hhead, ?_⟩, ?_⟩
  · cases l with
    | nil => exact hnew.trans hpath
    | cons z l => exact ⟨hnew.trans hpath.1, hpath.2.congr hsame⟩
  · rw [List.nodup_cons] at hnodup ⊢
    refine ⟨?_, List.nodup_cons.mpr ⟨hpne.2, hnodup.2⟩⟩
    rw [List.mem_cons, not_or]
    exact ⟨Ne.symm hpne.1, hnodup.1⟩

/-- A ring can be entered at any of its nodes. -/
theorem rotate (h : Ring next head l) (hx : x ∈ head :: l) :
    ∃ l', Ring next x l' ∧ (x :: l').Perm (head :: l) := by
  rcases List.mem_cons.mp hx with rfl | hx
  · exact ⟨l, h, List.Perm.refl _⟩
  · obtain ⟨l₁, l₂, rfl⟩ := List.append_of_mem hx
    obtain ⟨hleft, hright⟩ := h.path.split
    have hperm : (x :: (l₂ ++ head :: l₁)).Perm (head :: (l₁ ++ x :: l₂)) := by
      have := (List.perm_append_comm : ((x :: l₂) ++ (head :: l₁)).Perm ((head :: l₁) ++ (x :: l₂)))
      simpa using this
    exact ⟨l₂ ++ head :: l₁, ⟨hright.append hleft, hperm.nodup_iff.mpr h.nodup⟩, hperm⟩

/-- As many links as the ring has nodes visit each node once and end where they began. -/
theorem successors_perm (h : Ring next head l) (hx : x ∈ head :: l) :
    ∃ l', successors next x (l.length + 1) = l' ++ [x] ∧ (l' ++ [x]).Perm (head :: l) := by
  obtain ⟨l', hring, hperm⟩ := h.rotate hx
  have hlen : l'.length = l.length := by simpa using hperm.length_eq
  refine ⟨l', ?_, (List.perm_append_singleton x l').trans hperm⟩
  rw [← hlen, hring.path.successors_eq]

/-- The links do not leave the ring. -/
theorem next_mem (h : Ring next head l) (hx : x ∈ head :: l) : next x ∈ head :: l := by
  obtain ⟨l', hring, hperm⟩ := h.rotate hx
  rw [← hperm.mem_iff]
  cases l' with
  | nil =>
    have hself : next x = x := hring.path
    simp [hself]
  | cons z l' =>
    have hz : next x = z := hring.path.1
    simp [hz]

/-- Only in a ring of one node does a link lead back to its own node. -/
theorem next_eq_self_iff (h : Ring next head l) (hx : x ∈ head :: l) : next x = x ↔ l = [] := by
  obtain ⟨l', hring, hperm⟩ := h.rotate hx
  have hlen : l'.length = l.length := by simpa using hperm.length_eq
  cases l' with
  | nil =>
    have hnil : l = [] := List.length_eq_zero_iff.mp hlen.symm
    exact iff_of_true hring.path hnil
  | cons z l' =>
    have hz : next x = z := hring.path.1
    have hne : z ≠ x := fun heq => (List.nodup_cons.mp hring.nodup).1 (heq ▸ List.mem_cons_self)
    refine iff_of_false (hz ▸ hne) ?_
    intro hnil
    simp [hnil] at hlen

end Ring

end ChronOS.Foundation
