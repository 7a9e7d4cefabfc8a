/-
  Shmall/Realloc.lean --- `laihost_realloc` of `kernel/src/lai_wrapper.c`.

  `laihost_realloc` frees the block and allocates another one; it never looks at
  `oldsize` and copies nothing.  Two things follow in every state of the heap,
  whatever the free lists look like:

  * a block that is returned starts with the link fields `heap_alloc` has just set
    to NULL, so the first byte of the old contents is lost unless it was zero;
  * when NULL is returned the old block has been freed already.

  Memory does not say which blocks are in use, so the state carries the list of the
  blocks handed out and not freed, each with the size it was asked for.
-/
import ChronOS.Shmall.HeapInit

set_option autoImplicit false

namespace ChronOS.Shmall

open ChronOS.Foundation ChronOS.Mm

/-! ## The host functions -/

/-- Memory and the blocks in use. -/
structure HeapState where
  mem : Mem
  live : List (Word × Word)

/-- `laihost_malloc`; the `size_t` becomes an `int`. -/
def laihostMalloc (heap size : Word) (s : HeapState) : Option (Word × HeapState) :=
  (kmalloc heap (size.setWidth 32) s.mem).map fun r =>
    (r.1, ⟨r.2, if r.1 = 0 then s.live else (r.1, size) :: s.live⟩)

/-- `laihost_free`. -/
def laihostFree (heap ptr : Word) (s : HeapState) : Option HeapState :=
  (kfree heap ptr s.mem).map fun m => ⟨m, s.live.filter fun b => b.1 ≠ ptr⟩

/-- `laihost_realloc`. -/
def laihostRealloc (heap ptr newsize _oldsize : Word) (s : HeapState) :
    Option (Word × HeapState) := do
  let s ← if ptr ≠ 0 then laihostFree heap ptr s else some s
  laihostMalloc heap newsize s

/-- The block at `ptr` filled with `contents`. -/
def HeapState.fill (s : HeapState) (ptr size : Word) (contents : Nat → Byte) : HeapState :=
  { s with mem := fun x =>
      if (x - ptr).toNat < size.toNat then contents (x - ptr).toNat else s.mem x }

/-- The states of the heap at `heap`: after `heap_init`, blocks are allocated, freed and
written. -/
inductive HeapRun (heap : Word) : HeapState → Prop
  | init {σ : Type} {src : PageSource σ} {s s' : Machine σ} {g : HeapPages} :
      heapInit src s = some (g, s') → g.heap = heap → HeapRun heap ⟨s'.mem, []⟩
  | malloc {s s' : HeapState} {size p : Word} :
      HeapRun heap s → laihostMalloc heap size s = some (p, s') → HeapRun heap s'
  | free {s s' : HeapState} {b : Word × Word} :
      HeapRun heap s → b ∈ s.live → laihostFree heap b.1 s = some s' → HeapRun heap s'
  | store {s : HeapState} {b : Word × Word} (contents : Nat → Byte) :
      HeapRun heap s → b ∈ s.live → HeapRun heap (s.fill b.1 b.2 contents)

/-! ## What a reallocation has to keep -/

/-- The outcome `p`, `s'` of reallocating the block at `ptr` keeps the contents. -/
structure Kept (s : HeapState) (ptr oldsize newsize p : Word) (s' : HeapState) : Prop where
  moved : p ≠ 0 → ∀ i < min oldsize.toNat newsize.toNat,
    s'.mem (p + BitVec.ofNat 64 i) = s.mem (ptr + BitVec.ofNat 64 i)
  others : p ≠ 0 → ∀ b ∈ s.live, b.1 ≠ ptr → ∀ i < b.2.toNat,
    s'.mem (b.1 + BitVec.ofNat 64 i) = s.mem (b.1 + BitVec.ofNat 64 i)
  failed : p = 0 → (ptr, oldsize) ∈ s'.live ∧ ∀ i < oldsize.toNat,
    s'.mem (ptr + BitVec.ofNat 64 i) = s.mem (ptr + BitVec.ofNat 64 i)

/-- Whatever the block holds and whatever size is asked for, a call that returns keeps the
contents. -/
def PreservesContents (heap : Word) (s : HeapState) (ptr oldsize : Word) : Prop :=
  ∀ contents newsize p s',
    laihostRealloc heap ptr newsize oldsize (s.fill ptr oldsize contents) = some (p, s') →
    Kept (s.fill ptr oldsize contents) ptr oldsize newsize p s'

/-! ## What `heap_alloc` returns -/

/-- A node that fits is not smaller than what was asked for. -/
theorem getBestFit_eq_some {m : Mem} {bin size found : Word}
    (h : getBestFit m bin size = some found) :
    found = 0 ∨ size ≤ (nodeSize m found).setWidth 64 := by
  simpa using searchFrom_stop h

theorem findFit_large {m : Mem} {heap size : Word} (hsize : 2 ^ 32 ≤ size.toNat) {n : Nat}
    {index index' : BitVec 32} {found : Word}
    (h : findFit m heap size n index = some (found, index')) : found = 0 := by
  induction n generalizing index with
  | zero => exact (Prod.mk.inj (Option.some.inj h)).1.symm
  | succ n ih =>
    obtain ⟨node, hfit, hrest⟩ := Option.bind_eq_some_iff.mp h
    have hnode : node = 0 := by
      refine (getBestFit_eq_some hfit).resolve_right fun hle => ?_
      have hlt := (nodeSize m node).isLt
      rw [BitVec.le_def, BitVec.toNat_setWidth] at hle
      omega
    rw [if_neg (not_not.mpr hnode)] at hrest
    split_ifs at hrest
    · exact (Prod.mk.inj (Option.some.inj hrest)).1.symm
    · exact ih hrest

/-- The two ways `heap_alloc` returns: NULL, or a node whose links are cleared. -/
theorem heapAlloc_eq_some {heap size p : Word} {m m' : Mem}
    (h : heapAlloc heap size m = some (p, m')) :
    p = 0 ∨ size.toNat < 2 ^ 32 ∧ m' p = 0 := by
  obtain ⟨⟨found, index⟩, hfind, hrest⟩ := Option.bind_eq_some_iff.mp h
  dsimp only at hrest
  by_cases hnull : found = 0
  · rw [if_pos hnull] at hrest
    exact Or.inl (Prod.mk.inj (Option.some.inj hrest)).1.symm
  · rw [if_neg hnull] at hrest
    obtain ⟨m₁, -, hrest⟩ := Option.bind_eq_some_iff.mp hrest
    obtain ⟨m₂, -, hrest⟩ := Option.bind_eq_some_iff.mp hrest
    split_ifs at hrest
    · exact Or.inl (Prod.mk.inj (Option.some.inj hrest)).1.symm
    · cases hrest
      refine Or.inr ⟨?_, ?_⟩
      · by_contra hlarge
        exact hnull (findFit_large (Nat.not_lt.mp hlarge) hfind)
      · have hself : (found + 8 - (found + 8)).toNat < 8 := by
          rw [sub_self]
          decide
        apply BitVec.eq_of_toNat_eq
        rw [setNext, Mem.toNat_write64, if_pos hself, Mem.byteOf_zero]
        rfl

/-! ## Every reallocation -/

theorem HeapRun.ne_zero {heap : Word} {s : HeapState} (h : HeapRun heap s) :
    ∀ b ∈ s.live, b.1 ≠ 0 := by
  induction h with
  | init => simp
  | malloc _ hcall ih =>
    obtain ⟨⟨p, m⟩, -, heq⟩ := Option.map_eq_some_iff.mp hcall
    obtain ⟨-, rfl⟩ := Prod.mk.inj heq
    dsimp only
    split_ifs with hp
    · exact ih
    · exact List.forall_mem_cons.mpr ⟨hp, ih⟩
  | free _ _ hcall ih =>
    obtain ⟨m, -, rfl⟩ := Option.map_eq_some_iff.mp hcall
    exact fun b hb => ih b (List.mem_of_mem_filter hb)
  | store _ _ _ ih => exact ih

/-- A reallocation returns NULL with the block freed, or a block that starts with a zero. -/
theorem laihostRealloc_eq_some {heap ptr newsize oldsize p : Word} {s s' : HeapState}
    (hptr : ptr ≠ 0) (h : laihostRealloc heap ptr newsize oldsize s = some (p, s')) :
    p = 0 ∧ (ptr, oldsize) ∉ s'.live ∨
      p ≠ 0 ∧ ((newsize.setWidth 32).signExtend 64).toNat < 2 ^ 32 ∧ s'.mem p = 0 := by
  rw [laihostRealloc, if_pos hptr] at h
  obtain ⟨s₁, hfree, hmalloc⟩ := Option.bind_eq_some_iff.mp h
  obtain ⟨m₁, -, rfl⟩ := Option.map_eq_some_iff.mp hfree
  obtain ⟨⟨q, m₂⟩, halloc, heq⟩ := Option.map_eq_some_iff.mp hmalloc
  cases heq
  by_cases hnull : q = 0
  · refine Or.inl ⟨hnull, ?_⟩
    dsimp only
    rw [if_pos hnull]
    simp
  · exact Or.inr ⟨hnull, (heapAlloc_eq_some halloc).resolve_left hnull⟩

/-- A size that `kmalloc` takes for a negative one loses the block. -/
theorem not_kept_of_negative {heap ptr oldsize p : Word} {s s' : HeapState} (hptr : ptr ≠ 0)
    (h : laihostRealloc heap ptr 0x80000000 oldsize s = some (p, s')) :
    ¬ Kept s ptr oldsize 0x80000000 p s' := by
  intro hkept
  rcases laihostRealloc_eq_some hptr h with ⟨hnull, hfreed⟩ | ⟨-, hsmall, -⟩
  · exact hfreed (hkept.failed hnull).1
  · exact absurd hsmall (by decide)

/-! ## A heap to try it on -/

/-- The memory after `heap_init` in a memory of zeros: its clearing loops have done nothing. -/
def freshMem : Mem :=
  filled heapPoolPages (setBins heapPoolPages.heap (memset (Mem.write64 (fun _ => 0)
    (binSlot heapPoolPages.heap 0) heapPoolPages.bins) heapPoolPages.bins 0 8) (BIN_COUNT - 1))

theorem memset_zeros (buf : Word) {n : Nat} (hn : n ≤ 2 ^ 64) :
    memset (fun _ => 0) buf 0 n = fun _ => 0 := by
  funext x
  rw [memset_apply _ _ _ _ _ hn, ite_self]

theorem heapInit_freshMem : ∃ pool', heapInit poolSource ⟨fun _ => 0, heapPool⟩ =
    some (heapPoolPages, ⟨freshMem, pool'⟩) := by
  obtain ⟨pool', hinit⟩ := heapInit_heapPool (m := fun _ => 0) (Mem.read64_eq_zero fun _ _ => rfl)
  rw [preparedMem, memset_zeros _ (by decide), memset_zeros _ (by decide)] at hinit
  exact ⟨pool', hinit⟩

theorem freshMem_run : HeapRun heapPoolPages.heap ⟨freshMem, []⟩ := by
  obtain ⟨pool', hinit⟩ := heapInit_freshMem
  exact .init hinit rfl

theorem freshMem_malloc :
    ∃ s, laihostMalloc heapPoolPages.heap 16 ⟨freshMem, []⟩ = some (0x101008, s) ∧
      HeapRun heapPoolPages.heap s ∧ (0x101008, 16) ∈ s.live := by
  have hblock : (laihostMalloc heapPoolPages.heap 16 ⟨freshMem, []⟩).map Prod.fst =
      some 0x101008 := by
    decide +kernel
  obtain ⟨⟨p, s⟩, hcall, rfl⟩ := Option.map_eq_some_iff.mp hblock
  refine ⟨s, hcall, .malloc freshMem_run hcall, ?_⟩
  obtain ⟨⟨q, m⟩, -, heq⟩ := Option.map_eq_some_iff.mp hcall
  cases heq
  exact List.mem_cons_self

/-! ## Every reallocation loses contents -/

/-- In no state of the heap does a `laihost_realloc` that returns preserve the contents of a
block: a size that `kmalloc` takes for a negative one loses the block, and with every other size
the first byte is lost unless it was zero. -/
theorem laihostRealloc_loses_contents {heap : Word} {s : HeapState} (hrun : HeapRun heap s)
    {ptr oldsize : Word} (hlive : (ptr, oldsize) ∈ s.live) :
    (∀ contents, (laihostRealloc heap ptr 0x80000000 oldsize
      (s.fill ptr oldsize contents)).isSome → ¬ PreservesContents heap s ptr oldsize) ∧
    ∀ contents newsize p s', 0 < oldsize → 0 < newsize → contents 0 ≠ 0 →
      laihostRealloc heap ptr newsize oldsize (s.fill ptr oldsize contents) = some (p, s') →
      ¬ Kept (s.fill ptr oldsize contents) ptr oldsize newsize p s' := by
  have hptr : ptr ≠ 0 := hrun.ne_zero _ hlive
  refine ⟨fun contents hreturns hall => ?_,
    fun contents newsize p s' hold hnew hfirst hcall hkept => ?_⟩
  · obtain ⟨⟨p, s'⟩, hcall⟩ := Option.isSome_iff_exists.mp hreturns
    exact not_kept_of_negative hptr hcall (hall _ _ _ _ hcall)
  · rcases laihostRealloc_eq_some hptr hcall with ⟨hnull, hfreed⟩ | ⟨hblock, -, hzero⟩
    · exact hfreed (hkept.failed hnull).1
    · have hmin : 0 < min oldsize.toNat newsize.toNat :=
        Nat.lt_min.mpr ⟨BitVec.lt_def.mp hold, BitVec.lt_def.mp hnew⟩
      have hbyte := hkept.moved hblock 0 hmin
      have hself : (ptr - ptr).toNat = 0 := by rw [sub_self]; rfl
      rw [show BitVec.ofNat 64 0 = (0 : Word) from rfl, add_zero, add_zero, hzero] at hbyte
      simp only [HeapState.fill, hself] at hbyte
      rw [if_pos (show 0 < oldsize.toNat from BitVec.lt_def.mp hold)] at hbyte
      exact hfirst hbyte.symm

/-- The block of sixteen bytes is such a block. -/
theorem sixteen_bytes_not_preserved :
    ∃ s, HeapRun heapPoolPages.heap s ∧ (0x101008, 16) ∈ s.live ∧
      ¬ PreservesContents heapPoolPages.heap s 0x101008 16 := by
  obtain ⟨s, hcall, hrun, hlive⟩ := freshMem_malloc
  have hreturns : ((laihostMalloc heapPoolPages.heap 16 ⟨freshMem, []⟩).map fun r =>
      (laihostRealloc heapPoolPages.heap 0x101008 0x80000000 16
        (r.2.fill 0x101008 16 fun _ => 0x41)).isSome) = some true := by
    decide +kernel
  rw [hcall, Option.map_some, Option.some.injEq] at hreturns
  exact ⟨s, hrun, hlive, (laihostRealloc_loses_contents hrun hlive).1 _ hreturns⟩

/-- Sixteen times the letter A grown to 32 bytes: the new block starts with a zero.  Grown to
2^31 bytes the answer is NULL, and the block is gone. -/
theorem sixteen_bytes_lost :
    ∃ s, HeapRun heapPoolPages.heap s ∧ (0x101008, 16) ∈ s.live ∧
      ((laihostRealloc heapPoolPages.heap 0x101008 32 16 (s.fill 0x101008 16 fun _ => 0x41)).map
        fun r => (r.1, r.2.mem r.1)) = some (0x101038, 0) ∧
      ((laihostRealloc heapPoolPages.heap 0x101008 0x80000000 16 s).map
        fun r => (r.1, r.2.live)) = some (0, []) := by
  obtain ⟨s, hcall, hrun, hlive⟩ := freshMem_malloc
  refine ⟨s, hrun, hlive, ?_, ?_⟩
  · have hrun : ((laihostMalloc heapPoolPages.heap 16 ⟨freshMem, []⟩).bind fun r =>
        (laihostRealloc heapPoolPages.heap 0x101008 32 16
          (r.2.fill 0x101008 16 fun _ => 0x41)).map fun r => (r.1, r.2.mem r.1)) =
        some (0x101038, 0) := by
      decide +kernel
    rwa [hcall, Option.bind_some] at hrun
  · have hrun : ((laihostMalloc heapPoolPages.heap 16 ⟨freshMem, []⟩).bind fun r =>
        (laihostRealloc heapPoolPages.heap 0x101008 0x80000000 16 r.2).map
          fun r => (r.1, r.2.live)) = some (0, []) := by
      decide +kernel
    rwa [hcall, Option.bind_some] at hrun

end ChronOS.Shmall
