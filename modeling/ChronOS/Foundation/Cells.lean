/-
  Foundation/Cells.lean --- loops that store one value in each iteration.

  When the iterations store to different cells and none reads what an earlier one
  has stored, the loop leaves in every cell the value computed from the cells it
  started with.  `rowMajor` is the order of a loop over the columns of each row.
-/
import Mathlib

set_option autoImplicit false

namespace ChronOS.Foundation

section Writes

variable {ι κ α : Type} [DecidableEq ι] {dst : κ → ι} {val : κ → (ι → α) → α} {l : List κ}

/-- Iteration `k` stores `val k`, computed from the cells the iterations before it left, in the
cell `dst k`. -/
def writeAll (dst : κ → ι) (val : κ → (ι → α) → α) (l : List κ) (cells : ι → α) : ι → α :=
  l.foldl (fun cells k => Function.update cells (dst k) (val k cells)) cells

theorem writeAll_of_ne {i : ι} (h : ∀ k ∈ l, dst k ≠ i) (cells : ι → α) :
    writeAll dst val l cells i = cells i := by
  induction l generalizing cells with
  | nil => rfl
  | cons k l ih =>
    have hrest := ih (fun j hj => h j (List.mem_cons_of_mem k hj))
      (Function.update cells (dst k) (val k cells))
    exact hrest.trans (Function.update_of_ne (Ne.symm (h k List.mem_cons_self)) ..)

theorem writeAll_dst
    (hpair : l.Pairwise fun a b =>
      dst a ≠ dst b ∧ ∀ cells v, val b (Function.update cells (dst a) v) = val b cells)
    {k : κ} (hk : k ∈ l) (cells : ι → α) : writeAll dst val l cells (dst k) = val k cells := by
  induction l generalizing cells with
  | nil => exact absurd hk List.not_mem_nil
  | cons a l ih =>
    obtain ⟨hhead, htail⟩ := List.pairwise_cons.mp hpair
    rcases List.mem_cons.mp hk with rfl | hk
    · refine Eq.trans (writeAll_of_ne (fun b hb => Ne.symm (hhead b hb).1) _) ?_
      exact Function.update_self ..
    · exact (ih htail hk _).trans ((hhead k hk).2 cells _)

/-- Values that are known before the loop. -/
theorem writeAll_dst_const {v : κ → α} (hpair : l.Pairwise fun a b => dst a ≠ dst b) {k : κ}
    (hk : k ∈ l) (cells : ι → α) : writeAll dst (fun k _ => v k) l cells (dst k) = v k :=
  writeAll_dst (hpair.imp fun hne => ⟨hne, fun _ _ => rfl⟩) hk cells

end Writes

/-! ## Rows and columns -/

/-- `for (y = 0; y < h; y++) for (x = 0; x < w; x++)`, as pairs `(x, y)`. -/
def rowMajor (h w : Nat) : List (Nat × Nat) :=
  (List.range h).flatMap fun y => (List.range w).map fun x => (x, y)

theorem mem_rowMajor {h w : Nat} {c : Nat × Nat} : c ∈ rowMajor h w ↔ c.1 < w ∧ c.2 < h := by
  obtain ⟨x, y⟩ := c
  simp [rowMajor, and_comm]

/-- Earlier cells are in an earlier row, or further left in the same row. -/
theorem pairwise_rowMajor (h w : Nat) :
    (rowMajor h w).Pairwise fun a b => a.2 < b.2 ∨ a.2 = b.2 ∧ a.1 < b.1 := by
  rw [rowMajor, List.pairwise_flatMap]
  constructor
  · intro y _
    rw [List.pairwise_map]
    exact List.pairwise_lt_range.imp fun hlt => Or.inr ⟨rfl, hlt⟩
  · refine List.pairwise_lt_range.imp fun {y y'} hlt => ?_
    intro a ha b hb
    obtain ⟨x, -, rfl⟩ := List.mem_map.mp ha
    obtain ⟨x', -, rfl⟩ := List.mem_map.mp hb
    exact Or.inl hlt

end ChronOS.Foundation
