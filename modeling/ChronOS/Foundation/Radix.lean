/-
  Foundation/Radix.lean --- forests of fixed-depth radix trees.

  A store maps a node and an index to the child linked there.  A node at the
  last level of a tree links to payloads instead of nodes, so a lookup is a walk
  of exactly `depth` indices from a root.

  The structural invariant is carried by one ghost function, `owner`: it sends
  each node in use to the unique root and path it is linked at.  Because it is a
  *function* of the node, two different links can never lead to the same node,
  and the disjointness of all trees, of all levels and of all roots is one
  statement instead of a quadratic family of them.

  Two operations are characterised: grafting an empty node onto a free inner
  link, which changes no lookup (`Forest.walk_graft`), and overwriting a
  last-level link, which changes exactly one lookup (`Forest.walk_setLeaf`).
-/
import Mathlib

set_option autoImplicit false

namespace ChronOS.Foundation.Radix

variable {N I : Type}

/-- Follow a path of indices through the store. -/
def walk (S : N → I → Option N) : N → List I → Option N
  | n, [] => some n
  | n, i :: path => (S n i).bind fun c => walk S c path

@[simp] theorem walk_nil (S : N → I → Option N) (n : N) : walk S n [] = some n := rfl

@[simp] theorem walk_cons (S : N → I → Option N) (n : N) (i : I) (path : List I) :
    walk S n (i :: path) = (S n i).bind fun c => walk S c path := rfl

theorem walk_append (S : N → I → Option N) :
    ∀ (p q : List I) (n : N), walk S n (p ++ q) = (walk S n p).bind fun m => walk S m q := by
  intro p
  induction p with
  | nil => intro q n; simp
  | cons i p ih =>
      intro q n
      rw [List.cons_append, walk_cons, walk_cons]
      cases S n i with
      | none => simp
      | some c => simp [ih q c]

/-- `owner` describes the store `S` as a forest of radix trees of depth `depth`
over the roots `roots`. -/
structure Forest (depth : Nat) (roots : Set N) (S : N → I → Option N)
    (owner : N → Option (N × List I)) : Prop where
  /-- Every root owns the empty path of itself. -/
  root : ∀ r ∈ roots, owner r = some (r, [])
  /-- Owned nodes belong to the tree of some root. -/
  rooted : ∀ n r q, owner n = some (r, q) → r ∈ roots
  /-- Only nodes above the payload level are owned. -/
  short : ∀ n r q, owner n = some (r, q) → q.length < depth
  /-- A node really is linked where its owner says. -/
  linked : ∀ n r q, owner n = some (r, q) → walk S r q = some n
  /-- An inner link leads to the node owned at the extended path. -/
  child : ∀ n r q i c, owner n = some (r, q) → q.length + 1 < depth →
    S n i = some c → owner c = some (r, q ++ [i])

namespace Forest

variable {depth : Nat} {roots : Set N} {S S' : N → I → Option N}
  {owner : N → Option (N × List I)}

/-- The node a short walk from a root ends in is owned at the path walked. -/
theorem owner_of_walk (hF : Forest depth roots S owner) {r : N} (hr : r ∈ roots) :
    ∀ {p : List I} {n : N}, walk S r p = some n → p.length < depth →
      owner n = some (r, p) := by
  intro p
  induction p using List.reverseRecOn with
  | nil =>
      intro n h _
      cases h
      exact hF.root r hr
  | append_singleton p j ih =>
      intro n h hlen
      simp only [List.length_append, List.length_cons, List.length_nil] at hlen
      rw [walk_append, Option.bind_eq_some_iff] at h
      obtain ⟨m, hm, hn⟩ := h
      rw [walk_cons, Option.bind_eq_some_iff] at hn
      obtain ⟨c, hc, hcn⟩ := hn
      obtain rfl := Option.some.inj hcn
      exact hF.child m r p j c (ih hm (by omega)) (by omega) hc

theorem walk_eq_none_of_empty {n : N} {p : List I} (hempty : ∀ i, S n i = none)
    (hp : p ≠ []) : walk S n p = none := by
  cases p with
  | nil => exact absurd rfl hp
  | cons i p => simp [hempty i]

open Classical in
/-- A store in which no root has a link is a forest of empty trees. -/
theorem of_empty (hdepth : 0 < depth) (hempty : ∀ r ∈ roots, ∀ i, S r i = none) :
    Forest depth roots S (fun n => if n ∈ roots then some (n, []) else none) := by
  have hown : ∀ n r q, (if n ∈ roots then some (n, ([] : List I)) else none) = some (r, q) →
      n ∈ roots ∧ r = n ∧ q = [] := by
    intro n r q h
    split at h
    · rename_i hn
      cases h
      exact ⟨hn, rfl, rfl⟩
    · cases h
  constructor
  · intro r hr
    simp [hr]
  · intro n r q h
    obtain ⟨hn, rfl, _⟩ := hown n r q h
    exact hn
  · intro n r q h
    obtain ⟨_, _, rfl⟩ := hown n r q h
    simpa using hdepth
  · intro n r q h
    obtain ⟨_, rfl, rfl⟩ := hown n r q h
    rfl
  · intro n r q i c h _ hc
    obtain ⟨hn, _, _⟩ := hown n r q h
    simp [hempty n hn i] at hc

/-! ## Changes elsewhere -/

/-- Lookups from an owned node depend on the links of owned nodes only. -/
theorem walk_congr (hF : Forest depth roots S owner)
    (hsame : ∀ n, owner n ≠ none → ∀ j, S' n j = S n j) :
    ∀ (p : List I) (n r' : N) (q' : List I), owner n = some (r', q') →
      q'.length + p.length ≤ depth → walk S' n p = walk S n p := by
  intro p
  induction p with
  | nil => intro n r' q' _ _; rfl
  | cons j p ih =>
      intro n r' q' hn hlen
      simp only [List.length_cons] at hlen
      rw [walk_cons, walk_cons, hsame n (by simp [hn]) j]
      cases hd : S n j with
      | none => rfl
      | some d =>
          cases p with
          | nil => rfl
          | cons k p =>
              simp only [List.length_cons] at hlen
              have hown := hF.child n r' q' j d hn (by omega) hd
              simp only [Option.bind_some]
              apply ih d r' (q' ++ [j]) hown
              simp only [List.length_append, List.length_cons, List.length_nil]
              omega

theorem congr (hF : Forest depth roots S owner)
    (hsame : ∀ n, owner n ≠ none → ∀ j, S' n j = S n j) : Forest depth roots S' owner := by
  refine ⟨hF.root, hF.rooted, hF.short, ?_, ?_⟩
  · intro n r' q' hn
    have hroot := hF.root r' (hF.rooted n r' q' hn)
    have hlen := hF.short n r' q' hn
    rw [walk_congr hF hsame q' r' r' [] hroot (by simp; omega)]
    exact hF.linked n r' q' hn
  · intro n r' q' j d hn hlen hd
    rw [hsame n (by simp [hn]) j] at hd
    exact hF.child n r' q' j d hn hlen hd

/-! ## Grafting an empty node -/

section Graft

variable {t c r : N} {q : List I} {i : I}

/-- Links that were there before a graft still lead to the same nodes. -/
theorem walk_mono_of_graft (hF : Forest depth roots S owner)
    (hfree : S t i = none)
    (hsame : ∀ n, owner n ≠ none → ∀ j, (n ≠ t ∨ j ≠ i) → S' n j = S n j) :
    ∀ (p : List I) (n r' : N) (q' : List I) (m : N), owner n = some (r', q') →
      q'.length + p.length ≤ depth → walk S n p = some m → walk S' n p = some m := by
  intro p
  induction p with
  | nil => intro n r' q' m _ _ h; exact h
  | cons j p ih =>
      intro n r' q' m hn hlen h
      rw [walk_cons, Option.bind_eq_some_iff] at h
      obtain ⟨d, hd, hrest⟩ := h
      have hslot : n ≠ t ∨ j ≠ i := by
        by_contra hcon
        push Not at hcon
        rw [hcon.1, hcon.2, hfree] at hd
        cases hd
      rw [walk_cons, hsame n (by simp [hn]) j hslot, hd]
      cases p with
      | nil => exact hrest
      | cons k p =>
          have hinner : q'.length + 1 < depth := by
            simp only [List.length_cons] at hlen
            omega
          have hown := hF.child n r' q' j d hn hinner hd
          refine ih d r' (q' ++ [j]) m hown ?_ hrest
          simp only [List.length_append, List.length_cons, List.length_nil] at hlen ⊢
          omega

/-- A graft of an empty node changes no full-depth lookup from an owned node. -/
theorem walk_graft (hF : Forest depth roots S owner)
    (ht : owner t = some (r, q)) (hinner : q.length + 1 < depth)
    (hfree : S t i = none)
    (hsame : ∀ n, owner n ≠ none → ∀ j, (n ≠ t ∨ j ≠ i) → S' n j = S n j)
    (hlink : S' t i = some c) (hempty : ∀ j, S' c j = none) :
    ∀ (p : List I) (n r' : N) (q' : List I), owner n = some (r', q') →
      q'.length + p.length = depth → walk S' n p = walk S n p := by
  intro p
  induction p with
  | nil => intro n r' q' _ _; rfl
  | cons j p ih =>
      intro n r' q' hn hlen
      simp only [List.length_cons] at hlen
      by_cases hslot : n ≠ t ∨ j ≠ i
      · rw [walk_cons, walk_cons, hsame n (by simp [hn]) j hslot]
        cases hd : S n j with
        | none => rfl
        | some d =>
            cases p with
            | nil => rfl
            | cons k p =>
                simp only [List.length_cons] at hlen
                have hown := hF.child n r' q' j d hn (by omega) hd
                simp only [Option.bind_some]
                apply ih d r' (q' ++ [j]) hown
                simp only [List.length_append, List.length_cons, List.length_nil]
                omega
      · push Not at hslot
        obtain ⟨rfl, rfl⟩ := hslot
        rw [hn] at ht
        cases ht
        have hp : p ≠ [] := by
          rintro rfl
          simp only [List.length_nil] at hlen
          omega
        simp [hlink, hfree, walk_eq_none_of_empty hempty hp]

/-- Grafting an unowned empty node keeps the forest, and the new node is owned at
the extended path. -/
theorem graft [DecidableEq N] (hF : Forest depth roots S owner)
    (ht : owner t = some (r, q)) (hinner : q.length + 1 < depth)
    (hfree : S t i = none) (hc : owner c = none)
    (hsame : ∀ n, owner n ≠ none → ∀ j, (n ≠ t ∨ j ≠ i) → S' n j = S n j)
    (hlink : S' t i = some c) (hempty : ∀ j, S' c j = none) :
    Forest depth roots S' (Function.update owner c (some (r, q ++ [i]))) := by
  have hupd : ∀ n, n ≠ c → Function.update owner c (some (r, q ++ [i])) n = owner n :=
    fun n hn => Function.update_of_ne hn _ _
  have hnew : Function.update owner c (some (r, q ++ [i])) c = some (r, q ++ [i]) :=
    Function.update_self _ _ _
  have hmono := walk_mono_of_graft hF hfree hsame
  have hcases : ∀ n r' q', Function.update owner c (some (r, q ++ [i])) n = some (r', q') →
      (n = c ∧ r' = r ∧ q' = q ++ [i]) ∨ (n ≠ c ∧ owner n = some (r', q')) := by
    intro n r' q' hn
    by_cases hnc : n = c
    · subst hnc
      rw [hnew] at hn
      cases hn
      exact Or.inl ⟨rfl, rfl, rfl⟩
    · rw [hupd n hnc] at hn
      exact Or.inr ⟨hnc, hn⟩
  constructor
  · intro r' hr'
    have hne : r' ≠ c := by
      rintro rfl
      simp [hF.root r' hr'] at hc
    rw [hupd r' hne, hF.root r' hr']
  · intro n r' q' hn
    rcases hcases n r' q' hn with ⟨_, rfl, _⟩ | ⟨_, hn⟩
    · exact hF.rooted t r' q ht
    · exact hF.rooted n r' q' hn
  · intro n r' q' hn
    rcases hcases n r' q' hn with ⟨_, _, rfl⟩ | ⟨_, hn⟩
    · simpa using hinner
    · exact hF.short n r' q' hn
  · intro n r' q' hn
    rcases hcases n r' q' hn with ⟨rfl, rfl, rfl⟩ | ⟨_, hn⟩
    · have hwt := hmono q r' r' [] t (hF.root r' (hF.rooted t r' q ht)) (by simp; omega)
        (hF.linked t r' q ht)
      simp [walk_append, hwt, hlink]
    · have hlen := hF.short n r' q' hn
      exact hmono q' r' r' [] n (hF.root r' (hF.rooted n r' q' hn)) (by simp; omega)
        (hF.linked n r' q' hn)
  · intro n r' q' j d hn hlen hd
    rcases hcases n r' q' hn with ⟨rfl, _, _⟩ | ⟨_, hold⟩
    · simp [hempty j] at hd
    · by_cases hslot : n ≠ t ∨ j ≠ i
      · rw [hsame n (by simp [hold]) j hslot] at hd
        have hown := hF.child n r' q' j d hold hlen hd
        have hdc : d ≠ c := by
          rintro rfl
          simp [hown] at hc
        rw [hupd d hdc, hown]
      · push Not at hslot
        obtain ⟨rfl, rfl⟩ := hslot
        rw [hold] at ht
        cases ht
        rw [hlink] at hd
        cases hd
        exact hnew

end Graft

/-! ## Overwriting a last-level link -/

section SetLeaf

variable {t r : N} {q : List I} {i : I}

/-- Short walks never meet a last-level link. -/
theorem walk_inner_of_setLeaf (hF : Forest depth roots S owner)
    (ht : owner t = some (r, q)) (hleaf : q.length + 1 = depth)
    (hsame : ∀ n, owner n ≠ none → ∀ j, (n ≠ t ∨ j ≠ i) → S' n j = S n j) :
    ∀ (p : List I) (n r' : N) (q' : List I), owner n = some (r', q') →
      q'.length + p.length < depth → walk S' n p = walk S n p := by
  intro p
  induction p with
  | nil => intro n r' q' _ _; rfl
  | cons j p ih =>
      intro n r' q' hn hlen
      simp only [List.length_cons] at hlen
      have hnt : n ≠ t := by
        rintro rfl
        rw [hn] at ht
        obtain ⟨_, rfl⟩ := Prod.mk.inj (Option.some.inj ht)
        omega
      rw [walk_cons, walk_cons, hsame n (by simp [hn]) j (Or.inl hnt)]
      cases hd : S n j with
      | none => rfl
      | some d =>
          have hown := hF.child n r' q' j d hn (by omega) hd
          simp only [Option.bind_some]
          apply ih d r' (q' ++ [j]) hown
          simp only [List.length_append, List.length_cons, List.length_nil]
          omega

theorem setLeaf (hF : Forest depth roots S owner)
    (ht : owner t = some (r, q)) (hleaf : q.length + 1 = depth)
    (hsame : ∀ n, owner n ≠ none → ∀ j, (n ≠ t ∨ j ≠ i) → S' n j = S n j) :
    Forest depth roots S' owner := by
  constructor
  · exact hF.root
  · exact hF.rooted
  · exact hF.short
  · intro n r' q' hn
    have hroot := hF.root r' (hF.rooted n r' q' hn)
    have hlen := hF.short n r' q' hn
    rw [walk_inner_of_setLeaf hF ht hleaf hsame q' r' r' [] hroot (by simpa using hlen)]
    exact hF.linked n r' q' hn
  · intro n r' q' j d hn hlen hd
    have hnt : n ≠ t := by
      rintro rfl
      rw [hn] at ht
      obtain ⟨_, rfl⟩ := Prod.mk.inj (Option.some.inj ht)
      omega
    rw [hsame n (by simp [hn]) j (Or.inl hnt)] at hd
    exact hF.child n r' q' j d hn hlen hd

/-- Overwriting the last-level link `i` of `t` changes the lookup of the path that
ends there, and no other lookup of any root. -/
theorem walk_setLeaf (hF : Forest depth roots S owner)
    (ht : owner t = some (r, q)) (hleaf : q.length + 1 = depth)
    (hsame : ∀ n, owner n ≠ none → ∀ j, (n ≠ t ∨ j ≠ i) → S' n j = S n j)
    {r' : N} (hr' : r' ∈ roots) {p : List I} (hp : p.length = depth) :
    (r' = r ∧ p = q ++ [i] → walk S' r' p = S' t i) ∧
      (¬ (r' = r ∧ p = q ++ [i]) → walk S' r' p = walk S r' p) := by
  have hF' := setLeaf hF ht hleaf hsame
  refine ⟨?_, ?_⟩
  · rintro ⟨rfl, rfl⟩
    rw [walk_append, hF'.linked t r' q ht]
    simp only [Option.bind_some, walk_cons, walk_nil]
    cases S' t i <;> rfl
  · intro hother
    -- split the path before its last index: the two walks agree up to there
    obtain ⟨p', j, rfl⟩ : ∃ p' j, p = p' ++ [j] := by
      have hne : p ≠ [] := by
        rintro rfl
        simp only [List.length_nil] at hp
        omega
      exact ⟨p.dropLast, p.getLast hne, (List.dropLast_concat_getLast hne).symm⟩
    have hlen : p'.length + 1 = depth := by simpa using hp
    have hroot := hF.root r' hr'
    rw [walk_append, walk_append,
      walk_inner_of_setLeaf hF ht hleaf hsame p' r' r' [] hroot (by simp; omega)]
    cases hw : walk S r' p' with
    | none => rfl
    | some n =>
        have hn : owner n = some (r', p') := owner_of_walk hF hr' hw (by omega)
        have hslot : n ≠ t ∨ j ≠ i := by
          by_contra hcon
          push Not at hcon
          obtain ⟨rfl, rfl⟩ := hcon
          rw [hn] at ht
          cases ht
          exact hother ⟨rfl, rfl⟩
        simp [hsame n (by simp [hn]) j hslot]

end SetLeaf

end Forest

end ChronOS.Foundation.Radix
