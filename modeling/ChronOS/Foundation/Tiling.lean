/-
  Foundation/Tiling.lean --- an allocator as a division of an interval into tiles.

  A stretch of memory is cut into tiles without gaps.  A tile has a payload and `h`
  bytes of bookkeeping, and is a hole or in use.  To allocate is to take one of the
  smallest holes that are large enough, and to cut the rest of it off when there is
  enough of it; to free is to make a hole and to join it to the holes around it.
  Neither says where the tiles are recorded or how a hole is found.
-/
import Mathlib

set_option autoImplicit false

namespace ChronOS.Foundation

/-- A tile: where it starts, how long its payload is and whether it is free. -/
structure Tile where
  off : Nat
  size : Nat
  hole : Bool
deriving DecidableEq, Repr

namespace Tile

/-- The first byte behind the tile. -/
def stop (h : Nat) (t : Tile) : Nat := t.off + t.size + h

end Tile

/-- The tiles fill the interval from `a` to `b`, in this order. -/
def Tiling (h : Nat) : Nat → List Tile → Nat → Prop
  | a, [], b => a = b
  | a, t :: ts, b => t.off = a ∧ Tiling h (t.stop h) ts b

namespace Tiling

variable {h a b : Nat} {s t c : Tile} {ts pre mid post : List Tile}

theorem append_iff :
    Tiling h a (pre ++ post) b ↔ ∃ k, Tiling h a pre k ∧ Tiling h k post b := by
  induction pre generalizing a with
  | nil =>
    constructor
    · exact fun hpost => ⟨a, rfl, hpost⟩
    · rintro ⟨k, rfl, hpost⟩
      exact hpost
  | cons t pre ih =>
    constructor
    · rintro ⟨rfl, hrest⟩
      obtain ⟨k, hpre, hpost⟩ := ih.mp hrest
      exact ⟨k, ⟨rfl, hpre⟩, hpost⟩
    · rintro ⟨k, ⟨rfl, hpre⟩, hpost⟩
      exact ⟨rfl, ih.mpr ⟨k, hpre, hpost⟩⟩

theorem le (hts : Tiling h a ts b) : a ≤ b := by
  induction ts generalizing a with
  | nil => exact Nat.le_of_eq hts
  | cons t ts ih =>
    obtain ⟨rfl, hrest⟩ := hts
    have := ih hrest
    unfold Tile.stop at this
    omega

theorem bounds (hts : Tiling h a ts b) (ht : t ∈ ts) : a ≤ t.off ∧ t.stop h ≤ b := by
  obtain ⟨pre, post, rfl⟩ := List.append_of_mem ht
  obtain ⟨k, hpre, rfl, hpost⟩ := append_iff.mp hts
  exact ⟨hpre.le, hpost.le⟩

/-- What lies before a tile and what lies behind it. -/
theorem around (hts : Tiling h a (pre ++ t :: post) b) :
    (∀ c ∈ pre, c.stop h ≤ t.off) ∧ ∀ c ∈ post, t.stop h ≤ c.off := by
  obtain ⟨k, hpre, rfl, hpost⟩ := append_iff.mp hts
  exact ⟨fun c hc => (hpre.bounds hc).2, fun c hc => (hpost.bounds hc).1⟩

/-- Two tiles have no byte in common. -/
theorem apart (hts : Tiling h a ts b) (hs : s ∈ ts) (ht : t ∈ ts) (hne : s ≠ t) :
    s.stop h ≤ t.off ∨ t.stop h ≤ s.off := by
  obtain ⟨pre, post, rfl⟩ := List.append_of_mem ht
  rcases List.mem_append.mp hs with hs | hs
  · exact Or.inl (hts.around.1 s hs)
  · exact Or.inr (hts.around.2 s ((List.mem_cons.mp hs).resolve_left hne))

theorem nodup (hpos : 0 < h) (hts : Tiling h a ts b) : ts.Nodup := by
  induction ts generalizing a with
  | nil => exact List.nodup_nil
  | cons t ts ih =>
    obtain ⟨rfl, hrest⟩ := hts
    refine List.nodup_cons.mpr ⟨fun hmem => ?_, ih hrest⟩
    have := (hrest.bounds hmem).1
    unfold Tile.stop at this
    omega

/-- A tile is cut into others. -/
theorem replace (hts : Tiling h a (pre ++ t :: post) b) (hmid : Tiling h t.off mid (t.stop h)) :
    Tiling h a (pre ++ (mid ++ post)) b := by
  obtain ⟨k, hpre, rfl, hpost⟩ := append_iff.mp hts
  exact append_iff.mpr ⟨t.off, hpre, append_iff.mpr ⟨_, hmid, hpost⟩⟩

/-- Two neighbours become one tile. -/
theorem join (hts : Tiling h a (pre ++ s :: t :: post) b) (hole : Bool) :
    Tiling h a (pre ++ ⟨s.off, s.size + h + t.size, hole⟩ :: post) b := by
  obtain ⟨k, hpre, rfl, hoff, hpost⟩ := append_iff.mp hts
  refine append_iff.mpr ⟨s.off, hpre, rfl, ?_⟩
  have hstop : Tile.stop h ⟨s.off, s.size + h + t.size, hole⟩ = t.stop h := by
    change s.off + (s.size + h + t.size) + h = t.off + t.size + h
    unfold Tile.stop at hoff
    omega
  rwa [hstop]

/-- Whether a tile is a hole does not matter here. -/
theorem setHole (hts : Tiling h a (pre ++ t :: post) b) (hole : Bool) :
    Tiling h a (pre ++ { t with hole := hole } :: post) b := by
  obtain ⟨k, hpre, rfl, hpost⟩ := append_iff.mp hts
  exact append_iff.mpr ⟨t.off, hpre, rfl, hpost⟩

end Tiling

/-! ## Allocating -/

section Take

/-- The part of a hole that is taken for `n` bytes: all of it when what would be left has a
payload of at most `min` bytes. -/
def Tile.taken (h min n : Nat) (t : Tile) : Tile :=
  ⟨t.off, if n + h + min < t.size then n else t.size, false⟩

/-- What is left of the hole. -/
def Tile.rest (h min n : Nat) (t : Tile) : List Tile :=
  if n + h + min < t.size then [⟨t.off + n + h, t.size - n - h, true⟩] else []

theorem Tile.taken_tiling (h min n : Nat) (t : Tile) :
    Tiling h t.off (t.taken h min n :: t.rest h min n) (t.stop h) := by
  unfold Tile.taken Tile.rest
  split_ifs with hsplit
  · refine ⟨rfl, rfl, ?_⟩
    change t.off + n + h + (t.size - n - h) + h = t.off + t.size + h
    omega
  · exact ⟨rfl, rfl⟩

theorem Tile.hole_of_mem_rest {h min n : Nat} {t c : Tile} (hc : c ∈ t.rest h min n) :
    c.hole = true := by
  unfold Tile.rest at hc
  split_ifs at hc with hsplit
  · rw [List.mem_singleton.mp hc]
  · exact absurd hc List.not_mem_nil

/-- `n` bytes are allocated at `off`: the tile there was one of the smallest holes large enough. -/
inductive BestFit (h min n : Nat) : List Tile → Nat → List Tile → Prop
  | take (pre : List Tile) (t : Tile) (post : List Tile) : t.hole = true → n ≤ t.size →
      (∀ c ∈ pre ++ t :: post, c.hole = true → n ≤ c.size → t.size ≤ c.size) →
      BestFit h min n (pre ++ t :: post) t.off
        (pre ++ t.taken h min n :: (t.rest h min n ++ post))

section BestFit

variable {h min n off : Nat} {ts ts' : List Tile} {c : Tile}

/-- Where the block is there was a hole. -/
theorem BestFit.source (hfit : BestFit h min n ts off ts') :
    ∃ c ∈ ts, c.off = off ∧ c.hole = true := by
  cases hfit with
  | take pre t post hhole _ _ => exact ⟨t, by simp, rfl, hhole⟩

/-- The block has its size. -/
theorem BestFit.target (hfit : BestFit h min n ts off ts') :
    ∃ c ∈ ts', c.off = off ∧ c.hole = false ∧ n ≤ c.size := by
  cases hfit with
  | take pre t post _ hle _ =>
    refine ⟨t.taken h min n, by simp, rfl, rfl, ?_⟩
    unfold Tile.taken
    dsimp only
    split_ifs <;> omega

theorem BestFit.mem_used (hfit : BestFit h min n ts off ts') (hc : c ∈ ts)
    (hused : c.hole = false) : c ∈ ts' := by
  cases hfit with
  | take pre t post hhole _ _ =>
    have hne : c ≠ t := by
      rintro rfl
      rw [hhole] at hused
      cases hused
    rcases List.mem_append.mp hc with hc | hc
    · simp [hc]
    · simp [(List.mem_cons.mp hc).resolve_left hne]

/-- A tile in use was there before, or it is the block. -/
theorem BestFit.of_mem_used (hfit : BestFit h min n ts off ts') (hc : c ∈ ts')
    (hused : c.hole = false) : c ∈ ts ∨ c.off = off := by
  cases hfit with
  | take pre t post _ _ _ =>
    rw [List.mem_append, List.mem_cons, List.mem_append] at hc
    rcases hc with hc | rfl | hc | hc
    · exact Or.inl (List.mem_append_left _ hc)
    · exact Or.inr rfl
    · rw [Tile.hole_of_mem_rest hc] at hused
      cases hused
    · exact Or.inl (List.mem_append_right _ (List.mem_cons_of_mem _ hc))

end BestFit

end Take

/-! ## Freeing -/

section Release

/-- The tile joined to the hole before it, if there is one. -/
def joinPrev (h : Nat) (pre : List Tile) (t : Tile) : List Tile × Tile :=
  match pre.getLast? with
  | some p => if p.hole then (pre.dropLast, ⟨p.off, p.size + h + t.size, t.hole⟩) else (pre, t)
  | none => (pre, t)

/-- The tile joined to the hole behind it, if there is one. -/
def joinNext (h : Nat) (t : Tile) : List Tile → Tile × List Tile
  | [] => (t, [])
  | c :: post => if c.hole then (⟨t.off, t.size + h + c.size, t.hole⟩, post) else (t, c :: post)

/-- The tiles after `t` has been freed and joined to the holes around it. -/
def coalesce (h : Nat) (pre : List Tile) (t : Tile) (post : List Tile) : List Tile :=
  let (pre, t) := joinPrev h pre t
  let (t, post) := joinNext h t post
  pre ++ { t with hole := true } :: post

variable {h a b : Nat} {p t c : Tile} {pre post : List Tile}

theorem joinPrev_concat : joinPrev h (pre ++ [p]) t =
    if p.hole then (pre, ⟨p.off, p.size + h + t.size, t.hole⟩) else (pre ++ [p], t) := by
  simp only [joinPrev, List.getLast?_concat, List.dropLast_concat]

/-- Joining takes away nothing but holes. -/
theorem mem_joinPrev (hc : c ∈ pre) (hused : c.hole = false) : c ∈ (joinPrev h pre t).1 := by
  rcases List.eq_nil_or_concat' pre with rfl | ⟨pre, p, rfl⟩
  · exact hc
  · rw [joinPrev_concat]
    split_ifs with hp
    · rcases List.mem_append.mp hc with hc | hc
      · exact hc
      · rw [List.mem_singleton.mp hc, hp] at hused
        cases hused
    · exact hc

theorem mem_joinNext (hc : c ∈ post) (hused : c.hole = false) : c ∈ (joinNext h t post).2 := by
  cases post with
  | nil => exact hc
  | cons d post =>
    rw [joinNext]
    split_ifs with hd
    · rcases List.mem_cons.mp hc with rfl | hc
      · rw [hd] at hused
        cases hused
      · exact hc
    · exact hc

theorem mem_coalesce (hc : c ∈ pre ++ post) (hused : c.hole = false) :
    c ∈ coalesce h pre t post := by
  rcases List.mem_append.mp hc with hc | hc
  · exact List.mem_append_left _ (mem_joinPrev hc hused)
  · exact List.mem_append_right _ (List.mem_cons_of_mem _ (mem_joinNext hc hused))

theorem of_mem_joinPrev (hc : c ∈ (joinPrev h pre t).1) : c ∈ pre := by
  rcases List.eq_nil_or_concat' pre with rfl | ⟨pre, p, rfl⟩
  · exact hc
  · rw [joinPrev_concat] at hc
    split_ifs at hc
    · exact List.mem_append_left _ hc
    · exact hc

theorem of_mem_joinNext (hc : c ∈ (joinNext h t post).2) : c ∈ post := by
  cases post with
  | nil => exact hc
  | cons d post =>
    rw [joinNext] at hc
    split_ifs at hc
    · exact List.mem_cons_of_mem _ hc
    · exact hc

theorem of_mem_coalesce (hc : c ∈ coalesce h pre t post) (hused : c.hole = false) :
    c ∈ pre ++ post := by
  rcases List.mem_append.mp hc with hc | hc
  · exact List.mem_append_left _ (of_mem_joinPrev hc)
  · rcases List.mem_cons.mp hc with rfl | hc
    · cases hused
    · exact List.mem_append_right _ (of_mem_joinNext hc)

end Release

/-! ## No two holes next to each other -/

section Coalesced

variable {h min n off : Nat} {ts ts' pre post : List Tile} {t : Tile}

/-- Of two neighbours at most one is a hole. -/
def Coalesced (ts : List Tile) : Prop :=
  ts.IsChain fun s t => ¬ (s.hole = true ∧ t.hole = true)

/-- A tile in use may stand anywhere. -/
theorem coalesced_used (hused : t.hole = false) :
    Coalesced (pre ++ t :: post) ↔ Coalesced pre ∧ Coalesced post := by
  unfold Coalesced
  rw [List.isChain_append, List.isChain_cons]
  simp [hused]

/-- A hole stands between tiles in use. -/
theorem coalesced_hole (hhole : t.hole = true) :
    Coalesced (pre ++ t :: post) ↔ Coalesced pre ∧ Coalesced post ∧
      (∀ p ∈ pre.getLast?, p.hole = false) ∧ ∀ c ∈ post.head?, c.hole = false := by
  unfold Coalesced
  rw [List.isChain_append, List.isChain_cons]
  simp [hhole]
  tauto

theorem Coalesced.bestFit (hts : Coalesced ts) (hfit : BestFit h min n ts off ts') :
    Coalesced ts' := by
  cases hfit with
  | take pre t post hhole _ _ =>
    obtain ⟨hpre, hpost, -, hnext⟩ := (coalesced_hole hhole).mp hts
    refine (coalesced_used rfl).mpr ⟨hpre, ?_⟩
    unfold Tile.rest
    split_ifs
    · exact (@coalesced_hole [] post _ rfl).mpr ⟨List.IsChain.nil, hpost, by simp, hnext⟩
    · exact hpost

/-- Before the joined tile there is no hole. -/
theorem Coalesced.joinPrev (hpre : Coalesced pre) :
    Coalesced (joinPrev h pre t).1 ∧
      ∀ p ∈ (Foundation.joinPrev h pre t).1.getLast?, p.hole = false := by
  rcases List.eq_nil_or_concat' pre with rfl | ⟨pre, p, rfl⟩
  · exact ⟨hpre, by simp [Foundation.joinPrev]⟩
  · rw [joinPrev_concat]
    split_ifs with hp
    · obtain ⟨hpre, -, hlast, -⟩ := (coalesced_hole hp).mp hpre
      exact ⟨hpre, hlast⟩
    · refine ⟨hpre, fun q hq => ?_⟩
      rw [List.getLast?_concat] at hq
      exact Option.some.inj hq ▸ Bool.eq_false_iff.mpr hp

/-- Behind it there is none either. -/
theorem Coalesced.joinNext (hpost : Coalesced post) :
    Coalesced (joinNext h t post).2 ∧
      ∀ c ∈ (Foundation.joinNext h t post).2.head?, c.hole = false := by
  cases post with
  | nil => exact ⟨hpost, by simp [Foundation.joinNext]⟩
  | cons c post =>
    rw [Foundation.joinNext]
    split_ifs with hc
    · obtain ⟨-, hpost, -, hnext⟩ := (@coalesced_hole [] post c hc).mp hpost
      exact ⟨hpost, hnext⟩
    · exact ⟨hpost, fun d hd => Option.some.inj hd ▸ Bool.eq_false_iff.mpr hc⟩

theorem Coalesced.coalesce (hts : Coalesced (pre ++ t :: post)) (hused : t.hole = false) :
    Coalesced (coalesce h pre t post) := by
  obtain ⟨hpre, hpost⟩ := (coalesced_used hused).mp hts
  obtain ⟨hpre', hlast⟩ := hpre.joinPrev (h := h) (t := t)
  obtain ⟨hpost', hnext⟩ := hpost.joinNext (h := h) (t := (Foundation.joinPrev h pre t).2)
  exact (coalesced_hole rfl).mpr ⟨hpre', hpost', hlast, hnext⟩

end Coalesced

end ChronOS.Foundation
