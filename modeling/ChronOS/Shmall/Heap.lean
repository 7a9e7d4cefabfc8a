/-
  Shmall/Heap.lean --- the kernel heap: `kernel/src/shmall/heap.c`,
  `kernel/src/shmall/llist.c` and `kernel/src/shmall_wrapper.c`.

  Everything the allocator knows is in memory, so the functions below are stores
  into a flat memory: a node is 24 bytes (`hole` at 0, `size` at 4, `next` at 8,
  `prev` at 16), a footer is the eight bytes after the payload of a node, and
  `heap_t` is `start`, `end` and nine pointers to list heads.  A pointer that was
  never initialised is followed like any other one.

  The lists are walked without a bound.  A walk that comes back to a node it has
  seen never ends; as many tests as there are states decide that, and `none` is
  divergence.  `expand` always answers 0 and `contract` does nothing.
-/
import ChronOS.Foundation.Search
import ChronOS.Mm.Paging

set_option autoImplicit false

namespace ChronOS.Shmall

open ChronOS.Foundation ChronOS.Mm

def HEAP_INIT_SIZE : Nat := 0x200000
def MIN_ALLOC_SZ : BitVec 32 := 4
def MIN_WILDERNESS : BitVec 32 := 0x1000
def BIN_COUNT : Nat := 9
def BIN_MAX_IDX : BitVec 32 := 8

/-- `sizeof(footer_t) + sizeof(node_t)`. -/
def overhead : BitVec 32 := 32

/-! ## Nodes, footers and bins in memory -/

def nodeHole (m : Mem) (node : Word) : BitVec 32 := m.read 4 node
def nodeSize (m : Mem) (node : Word) : BitVec 32 := m.read 4 (node + 4)
def nodeNext (m : Mem) (node : Word) : Word := m.read64 (node + 8)
def nodePrev (m : Mem) (node : Word) : Word := m.read64 (node + 16)

def setHole (m : Mem) (node : Word) (v : BitVec 32) : Mem := m.write (n := 4) node v
def setSize (m : Mem) (node : Word) (v : BitVec 32) : Mem := m.write (n := 4) (node + 4) v
def setNext (m : Mem) (node v : Word) : Mem := m.write64 (node + 8) v
def setPrev (m : Mem) (node v : Word) : Mem := m.write64 (node + 16) v

/-- `&heap->bins[i]`. -/
def binSlot (heap : Word) (i : Nat) : Word := heap + 16 + BitVec.ofNat 64 (8 * i)

/-- `heap->bins[i]`. -/
def binAt (m : Mem) (heap : Word) (i : BitVec 32) : Word := m.read64 (binSlot heap i.toNat)

/-- `get_foot`. -/
def getFoot (m : Mem) (node : Word) : Word := node + 24 + (nodeSize m node).setWidth 64

/-- `create_foot`. -/
def createFoot (m : Mem) (head : Word) : Mem := m.write64 (getFoot m head) head

/-- The loop `while (sz >>= 1) index++`; a word is zero after 64 shifts. -/
def shiftCount : Nat → Word → BitVec 32 → BitVec 32
  | 0, _, index => index
  | n + 1, sz, index => if sz >>> 1 ≠ 0 then shiftCount n (sz >>> 1) (index + 1) else index

/-- `get_bin_index`. -/
def getBinIndex (sz : Word) : BitVec 32 :=
  let index := shiftCount 64 (if sz < 4 then 4 else sz) 0 - 2
  if index > BIN_MAX_IDX then BIN_MAX_IDX else index

/-- The bin for nodes of `node`'s size, `heap->bins[get_bin_index(node->size)]`. -/
def binFor (m : Mem) (heap node : Word) : Word :=
  binAt m heap (getBinIndex ((nodeSize m node).setWidth 64))

/-! ## The lists -/

/-- The loop of `add_node` over `previous` and `current`. -/
def findPlace (m : Mem) (node head : Word) : Option (Word × Word) :=
  searchFrom (fun c : Word × Word => decide ¬ (c.2 ≠ 0 ∧ nodeSize m c.2 ≤ nodeSize m node))
    (fun c => (c.2, nodeNext m c.2)) (2 ^ 128) (0, head)

/-- `add_node`. -/
def addNode (m : Mem) (bin node : Word) : Option Mem := do
  let m := setNext m node 0
  let m := setPrev m node 0
  if m.read64 bin = 0 then
    return m.write64 bin node
  let (previous, current) ← findPlace m node (m.read64 bin)
  if current = 0 then
    let m := setNext m previous node
    return setPrev m node previous
  else if previous ≠ 0 then
    let m := setNext m node current
    let m := setNext m previous node
    let m := setPrev m node previous
    return setPrev m current node
  else
    let m := setNext m node (m.read64 bin)
    let m := setPrev m (m.read64 bin) node
    return m.write64 bin node

/-- `remove_node`. -/
def removeNode (m : Mem) (bin node : Word) : Option Mem := do
  if m.read64 bin = 0 then
    return m
  if m.read64 bin = node then
    return m.write64 bin (nodeNext m (m.read64 bin))
  let temp ← searchFrom (fun temp => decide (temp = 0 ∨ temp = node)) (nodeNext m) (2 ^ 64)
    (nodeNext m (m.read64 bin))
  if temp = 0 then
    return m
  else if nodeNext m temp = 0 then
    return setNext m (nodePrev m temp) 0
  else
    let m := setNext m (nodePrev m temp) (nodeNext m temp)
    return setPrev m (nodeNext m temp) (nodePrev m temp)

/-- `get_best_fit`; the answer 0 is NULL. -/
def getBestFit (m : Mem) (bin size : Word) : Option Word :=
  searchFrom (fun temp => decide (temp = 0 ∨ size ≤ (nodeSize m temp).setWidth 64)) (nodeNext m)
    (2 ^ 64) (m.read64 bin)

/-! ## Allocation and release -/

/-- `get_wilderness`. -/
def getWilderness (m : Mem) (heap : Word) : Word := m.read64 (m.read64 (heap + 8) - 8)

/-- The search of `heap_alloc` through the bins from `index` on: the node found, 0 when there
is none, and the index of its bin.  There are at most `BIN_COUNT` bins to look at. -/
def findFit (m : Mem) (heap size : Word) : Nat → BitVec 32 → Option (Word × BitVec 32)
  | 0, index => some (0, index)
  | n + 1, index => do
    let found ← getBestFit m (binAt m heap index) size
    if found ≠ 0 then
      return (found, index)
    else if index + 1 ≥ BitVec.ofNat 32 BIN_COUNT then
      return (0, index)
    else
      findFit m heap size n (index + 1)

/-- The part of `heap_alloc` that cuts the rest of `found` off as a node of its own, when there
is enough of it. -/
def splitNode (m : Mem) (heap found size : Word) : Option Mem :=
  if (nodeSize m found).setWidth 64 - size > (overhead + MIN_ALLOC_SZ).setWidth 64 then do
    let split := found + 24 + 8 + size
    let m := setSize m split (((nodeSize m found).setWidth 64 - size - 24 - 8).setWidth 32)
    let m := setHole m split 1
    let m := createFoot m split
    let m ← addNode m (binFor m heap split) split
    let m := setSize m found (size.setWidth 32)
    return createFoot m found
  else some m

/-- `heap_alloc`; the answer 0 is NULL. -/
def heapAlloc (heap size : Word) (m : Mem) : Option (Word × Mem) := do
  let (found, index) ← findFit m heap size BIN_COUNT (getBinIndex size)
  if found = 0 then
    return (0, m)
  let m ← splitNode m heap found size
  let m := setHole m found 0
  let m ← removeNode m (binAt m heap index) found
  if nodeSize m (getWilderness m heap) < MIN_WILDERNESS then
    return (0, m)
  let m := setPrev m found 0
  let m := setNext m found 0
  return (found + 8, m)

/-- The part of `heap_free` that joins `head` to the node before it, when that is a hole; the
node that `head` is afterwards. -/
def mergePrev (m : Mem) (heap prev head : Word) : Option (Word × Mem) :=
  if nodeHole m prev ≠ 0 then do
    let m ← removeNode m (binFor m heap prev) prev
    let m := setSize m prev (nodeSize m prev + (overhead + nodeSize m head))
    return (prev, m.write64 (getFoot m head) prev)
  else some (head, m)

/-- The part of `heap_free` that joins the node after it to `head`, when that is a hole. -/
def mergeNext (m : Mem) (heap head next : Word) : Option Mem :=
  if nodeHole m next ≠ 0 then do
    let m ← removeNode m (binFor m heap next) next
    let m := setSize m head (nodeSize m head + (overhead + nodeSize m next))
    let m := m.write64 (getFoot m next) 0
    let m := setSize m next 0
    let m := setHole m next 0
    return m.write64 (getFoot m head) head
  else some m

/-- `heap_free`. -/
def heapFree (heap p : Word) (m : Mem) : Option Mem := do
  let head := p - 8
  if head = m.read64 heap then
    let m := setHole m head 1
    addNode m (binFor m heap head) head
  else
    let next := getFoot m head + 8
    let prev := m.read64 (head - 8)
    let (head, m) ← mergePrev m heap prev head
    let m ← mergeNext m heap head next
    let m := setHole m head 1
    addNode m (binFor m heap head) head

/-- `kmalloc`; the `int` becomes a `size_t`. -/
def kmalloc (heap : Word) (size : BitVec 32) (m : Mem) : Option (Word × Mem) :=
  heapAlloc heap (size.signExtend 64) m

/-- `kfree`. -/
def kfree (heap ptr : Word) (m : Mem) : Option Mem := heapFree heap ptr m

/-! ## Initialisation -/

/-- `init_heap`. -/
def initHeap (heap start : Word) (m : Mem) : Option Mem := do
  let m := setHole m start 1
  let m := setSize m start (BitVec.ofNat 32 (HEAP_INIT_SIZE - 24 - 8))
  let m := createFoot m start
  let m ← addNode m (binFor m heap start) start
  let m := m.write64 heap start
  return m.write64 (heap + 8) (start + BitVec.ofNat 64 HEAP_INIT_SIZE)

/-- The loop of `heap_init` over the bins 1 to `n`; the scaled pointer arithmetic leaves 64
bytes between two list heads. -/
def setBins (heap : Word) (m : Mem) : Nat → Mem
  | 0 => m
  | n + 1 =>
    let m := setBins heap m n
    m.write64 (binSlot heap (n + 1)) (m.read64 (binSlot heap 0) + BitVec.ofNat 64 (64 * (n + 1)))

/-- The globals `heap` and `region`, the page of the list heads and (for the statements only)
the pages taken for the region. -/
structure HeapPages where
  heap : Word
  region : Word
  pages : List Word
  bins : Word

section Init

variable {σ : Type} (src : PageSource σ)

/-- The results of `n` calls of `pmm_getpage`. -/
def takePages : Nat → Machine σ → Option (List Word × Machine σ)
  | 0, s => some ([], s)
  | n + 1, s => do
    let (p, pmm, mem) ← src.getpage s.pmm s.mem
    let (ps, s) ← takePages n ⟨mem, pmm⟩
    return (p :: ps, s)

/-- `heap_init` up to the call of `init_heap`. -/
def heapInitPages (s : Machine σ) : Option (HeapPages × Machine σ) := do
  let (heap, pmm, mem) ← src.getpage s.pmm s.mem
  let mem := memset mem heap 0 88
  let (region, pmm, mem) ← src.getpage pmm mem
  let (rest, s) ← takePages src 0x1ff ⟨mem, pmm⟩
  let mem := memset s.mem region 0 HEAP_INIT_SIZE
  let (bins, pmm, mem) ← src.getpage s.pmm mem
  let mem := mem.write64 (binSlot heap 0) bins
  let mem := memset mem (mem.read64 (binSlot heap 0)) 0 8
  return (⟨heap, region, region :: rest, bins⟩, ⟨setBins heap mem (BIN_COUNT - 1), pmm⟩)

/-- `heap_init`. -/
def heapInit (s : Machine σ) : Option (HeapPages × Machine σ) := do
  let (g, s) ← heapInitPages src s
  let mem ← initHeap g.heap g.region s.mem
  return (g, ⟨mem, s.pmm⟩)

end Init

end ChronOS.Shmall
