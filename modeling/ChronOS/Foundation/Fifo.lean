/-
  Foundation/Fifo.lean --- queues in a circular array.

  A queue is given by the index of its first cell and the number of its cells; the
  cells wrap around at the end of the array.  Writing the cell behind the last one
  appends, and stepping over the first cell removes.
-/
import Mathlib

set_option autoImplicit false

namespace ChronOS.Foundation

variable {α : Type} {size cur n : Nat}

/-- The `n` cells from `cur` on in a circular array of `size` cells. -/
def ringCells (size cur n : Nat) : List Nat :=
  (List.range n).map fun k => (cur + k) % size

theorem ringCells_succ_last :
    ringCells size cur (n + 1) = ringCells size cur n ++ [(cur + n) % size] := by
  simp [ringCells, List.range_succ]

theorem ringCells_succ_first (hcur : cur < size) :
    ringCells size cur (n + 1) = cur :: ringCells size ((cur + 1) % size) n := by
  unfold ringCells
  rw [List.range_succ_eq_map, List.map_cons, List.map_map, Nat.add_zero, Nat.mod_eq_of_lt hcur]
  refine congrArg (cur :: ·) (List.map_congr_left fun k _ => ?_)
  rw [Nat.mod_add_mod, Nat.add_assoc, Nat.add_comm 1 k]
  rfl

theorem lt_of_mem_ringCells {i : Nat} (hsize : 0 < size) (hi : i ∈ ringCells size cur n) :
    i < size := by
  obtain ⟨k, -, rfl⟩ := List.mem_map.mp hi
  exact Nat.mod_lt _ hsize

/-- The distance of a cell from the first one, counted around the end. -/
theorem ring_distance {k : Nat} (hcur : cur < size) (hk : k < size) :
    ((cur + k) % size + size - cur) % size = k := by
  rcases Nat.lt_or_ge (cur + k) size with hlt | hge
  · have hdist : cur + k + size - cur = k + size := by omega
    rw [Nat.mod_eq_of_lt hlt, hdist, Nat.add_mod_right, Nat.mod_eq_of_lt hk]
  · have hwrap : (cur + k) % size = cur + k - size := by
      rw [Nat.mod_eq_sub_mod hge, Nat.mod_eq_of_lt (by omega)]
    have hdist : cur + k - size + size - cur = k := by omega
    rw [hwrap, hdist, Nat.mod_eq_of_lt hk]

/-- A cell at a distance of at least the length is not in the queue. -/
theorem notMem_ringCells {m : Nat} (hcur : cur < size) (hn : n ≤ m) (hm : m < size) :
    (cur + m) % size ∉ ringCells size cur n := by
  intro hmem
  obtain ⟨k, hk, heq⟩ := List.mem_map.mp hmem
  rw [List.mem_range] at hk
  have hdist := ring_distance hcur (Nat.lt_of_lt_of_le hk (hn.trans hm.le))
  rw [heq, ring_distance hcur hm] at hdist
  omega

/-- What the queue holds, first to last. -/
def ringContents (size : Nat) (cell : Nat → α) (cur n : Nat) : List α :=
  (ringCells size cur n).map cell

variable {cell cell' : Nat → α}

theorem ringContents_push (hkeep : ∀ i ∈ ringCells size cur n, cell' i = cell i) :
    ringContents size cell' cur (n + 1) =
      ringContents size cell cur n ++ [cell' ((cur + n) % size)] := by
  rw [ringContents, ringCells_succ_last, List.map_append, List.map_congr_left hkeep]
  rfl

theorem ringContents_pop (hcur : cur < size) :
    ringContents size cell cur (n + 1) =
      cell cur :: ringContents size cell ((cur + 1) % size) n := by
  rw [ringContents, ringCells_succ_first hcur]
  rfl

end ChronOS.Foundation
