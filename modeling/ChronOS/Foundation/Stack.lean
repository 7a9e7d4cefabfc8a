/-
  Foundation/Stack.lean --- words in memory, and a stack that grows downwards.

  `wordAt m a i` is the `i`-th word of the block at `a`.  Pushing a list of words is
  storing their reverse as a block below the stack pointer (`pushAll_eq`), so what
  a later load finds follows from the two lemmas about `storeWords`.
-/
import ChronOS.Foundation.Memory

set_option autoImplicit false

namespace ChronOS.Foundation

/-- The `i`-th word of the block at `a`. -/
def wordAt (m : Mem) (a : Word) (i : Nat) : Word := m.read64 (a + BitVec.ofNat 64 (8 * i))

/-- The words `ws` stored as a block at `a`. -/
def storeWords (m : Mem) (a : Word) : List Word → Mem
  | [] => m
  | w :: ws => (storeWords m (a + 8#64) ws).write64 a w

/-- `push`: the stack pointer and the memory after it. -/
def push (s : Word × Mem) (v : Word) : Word × Mem := (s.1 - 8#64, s.2.write64 (s.1 - 8#64) v)

/-- The words `vs` pushed in order. -/
def pushAll (s : Word × Mem) (vs : List Word) : Word × Mem := vs.foldl push s

theorem wordAt_add (m : Mem) (a : Word) (n i : Nat) :
    wordAt m (a + BitVec.ofNat 64 (8 * n)) i = wordAt m a (n + i) := by
  have haddr : a + BitVec.ofNat 64 (8 * n) + BitVec.ofNat 64 (8 * i) =
      a + BitVec.ofNat 64 (8 * (n + i)) := by
    bv_omega
  rw [wordAt, wordAt, haddr]

theorem wordAt_succ (m : Mem) (a : Word) (i : Nat) :
    wordAt m a (i + 1) = wordAt m (a + 8#64) i := by
  rw [Nat.add_comm i 1, ← wordAt_add]

/-- A word store at the start of a block leaves the later words alone. -/
theorem wordAt_write64 {m : Mem} {a v : Word} {i : Nat} (hi : 8 * (i + 2) ≤ 2 ^ 64) :
    wordAt (m.write64 a v) (a + 8#64) i = wordAt m (a + 8#64) i := by
  unfold wordAt
  apply Mem.read64_write64_of_disjoint
  · bv_omega
  · bv_omega

theorem wordAt_storeWords {m : Mem} {ws : List Word} (hlen : 8 * ws.length ≤ 2 ^ 64) {a : Word}
    {i : Nat} (hi : i < ws.length) : wordAt (storeWords m a ws) a i = ws[i] := by
  induction ws generalizing a i with
  | nil => exact absurd hi (Nat.not_lt_zero i)
  | cons w ws ih =>
    rw [List.length_cons] at hlen hi
    cases i with
    | zero => simp [wordAt, storeWords]
    | succ i =>
      rw [wordAt_succ, storeWords, wordAt_write64 (by omega), ih (by omega) (by omega)]
      rfl

/-- The words behind a stored block stay. -/
theorem wordAt_storeWords_of_ge {m : Mem} {ws : List Word} {a : Word} {i : Nat}
    (hi : ws.length ≤ i) (hbound : 8 * (i + 1) ≤ 2 ^ 64) :
    wordAt (storeWords m a ws) a i = wordAt m a i := by
  induction ws generalizing a i with
  | nil => rfl
  | cons w ws ih =>
    rw [List.length_cons] at hi
    cases i with
    | zero => omega
    | succ i =>
      rw [wordAt_succ, storeWords, wordAt_write64 (by omega), ih (by omega) (by omega),
        wordAt_succ]

theorem pushAll_append (s : Word × Mem) (vs ws : List Word) :
    pushAll (pushAll s vs) ws = pushAll s (vs ++ ws) :=
  (List.foldl_append).symm

/-- Pushing a list of words stores their reverse below the stack pointer. -/
theorem pushAll_eq (sp : Word) (m : Mem) (vs : List Word) :
    pushAll (sp, m) vs = (sp - BitVec.ofNat 64 (8 * vs.length),
      storeWords m (sp - BitVec.ofNat 64 (8 * vs.length)) vs.reverse) := by
  -- on the list from its end: the last word pushed is the first of the block
  induction vs using List.reverseRecOn with
  | nil => simp [pushAll, storeWords]
  | append_singleton vs v ih =>
    have hnext : sp - BitVec.ofNat 64 (8 * (vs ++ [v]).length) + 8#64 =
        sp - BitVec.ofNat 64 (8 * vs.length) := by
      rw [List.length_append, List.length_singleton]
      bv_omega
    have hsp : sp - BitVec.ofNat 64 (8 * vs.length) - 8#64 =
        sp - BitVec.ofNat 64 (8 * (vs ++ [v]).length) := by
      rw [← hnext]
      bv_omega
    rw [← pushAll_append, ih, pushAll, List.foldl_cons, List.foldl_nil, push, hsp,
      List.reverse_append, List.reverse_singleton, List.singleton_append, storeWords, hnext]

end ChronOS.Foundation
