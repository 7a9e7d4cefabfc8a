/-
  Mm/Vmm.lean --- `kernel/src/mm/vmm/vmm.c` and its two system calls.

  A process owns a window of `VMM_SIZE_PAGES` virtual pages.  Which of them are
  in use is kept twice: in a bitmap, indexed by an `int`, and in the page
  tables, indexed by the address.  `mmap` and `munmap` update both side by side.
-/
import ChronOS.Mm.Pmm
import ChronOS.Mm.PagingTables
import ChronOS.Utils.Regs

set_option autoImplicit false

namespace ChronOS.Mm

open ChronOS.Foundation ChronOS.Ds ChronOS.Utils

def VMM_ADDR_START : Word := 0xFFFFFFFF00000000#64
def VMM_SIZE_PAGES : Nat := 0x80000

/-- The fields of `process_t` that `mmap` and `munmap` read. -/
structure AddressSpace where
  pml4 : Word
  bitmap : Bitmap
  deriving DecidableEq, Repr

/-- The counter `x` after `n` iterations of the inner search loop of `mmap`. -/
def clearCount (m : Mem) (b : Bitmap) (idx : BitVec 32) : Nat → BitVec 32
  | 0 => 0
  | n + 1 =>
      let x := clearCount m b idx n
      if bitmapGet m b (idx + BitVec.ofNat 32 n) = 0 then x + 1 else x

/-- The search loop of `mmap`: the first index with `pages` clear bits from it on. -/
def findPages (m : Mem) (b : Bitmap) (pages : BitVec 32) : Option (BitVec 32) :=
  searchIndex fun idx => clearCount m b idx pages.toInt.toNat == pages

section Operations

variable {σ : Type} (src : PageSource σ)

/-- Iteration `i` of the mapping loop of `mmap`. -/
def mapPage (proc : AddressSpace) (virtaddr physAddr flags : Word) (idx i : BitVec 32)
    (s : Machine σ) : Option (Machine σ) :=
  let s := { s with mem := (bitmapSet s.mem proc.bitmap (idx + i) 1).2 }
  pagingMap src proc.pml4 (pageAddress virtaddr i) (pageAddress physAddr i) flags s

/-- The first `n` iterations of the mapping loop of `mmap`. -/
def mapPages (proc : AddressSpace) (virtaddr physAddr flags : Word) (idx : BitVec 32) :
    Nat → Machine σ → Option (Machine σ)
  | 0, s => some s
  | n + 1, s => do
      let s ← mapPages proc virtaddr physAddr flags idx n s
      mapPage src proc virtaddr physAddr flags idx (BitVec.ofNat 32 n) s

/-- `mmap`; `proc = none` is the null pointer. -/
def mmap (proc : Option AddressSpace) (phys flags : Word) (pages : BitVec 32)
    (s : Machine σ) : Option (Word × Machine σ) :=
  match proc with
  | none => some (0, s)
  | some proc =>
      if phys = 0 ∨ pages = 0 then some (0, s) else do
        let flags := flags ||| PAGE_PRESENT
        let physAddr := phys &&& 0xFFFFFFFFFFFFF000#64
        let idx ← findPages s.mem proc.bitmap pages
        let virtaddr := pageAddress VMM_ADDR_START idx
        let s ← mapPages src proc virtaddr physAddr flags idx pages.toInt.toNat s
        return (virtaddr, s)

/-- Iteration `i` of the loop of `munmap`. -/
def unmapPage (proc : AddressSpace) (addr : Word) (idx i : BitVec 32) (m : Mem) : Mem :=
  let m := (bitmapSet m proc.bitmap (idx + i) 0).2
  pagingUnmap proc.pml4 (pageAddress addr i) m

/-- The first `n` iterations of the loop of `munmap`. -/
def unmapPages (proc : AddressSpace) (addr : Word) (idx : BitVec 32) : Nat → Mem → Mem
  | 0, m => m
  | n + 1, m =>
      unmapPage proc addr idx (BitVec.ofNat 32 n) (unmapPages proc addr idx n m)

/-- `munmap`. -/
def munmap (proc : Option AddressSpace) (addr : Word) (pages : BitVec 32) (s : Machine σ) :
    BitVec 32 × Machine σ :=
  match proc with
  | none => (-1, s)
  | some proc =>
      if addr = 0 ∨ pages = 0 then (-1, s)
      else
        let idx := pageIndex VMM_ADDR_START addr
        (0, { s with mem := unmapPages proc addr idx pages.toInt.toNat s.mem })

/-- `mmap_syscall`; `proc` is what `get_cur_proc` returns. -/
def mmapSyscall (proc : Option AddressSpace) (regs : Regs) (s : Machine σ) :
    Option (Regs × Machine σ) := do
  let (ret, s) ← mmap src proc regs.rdi regs.rsi (regs.rdx.setWidth 32) s
  return ({ regs with rax := ret }, s)

/-- `munmap_syscall`. -/
def munmapSyscall (proc : Option AddressSpace) (regs : Regs) (s : Machine σ) :
    Regs × Machine σ :=
  let (ret, s) := munmap proc regs.rdi (regs.rsi.setWidth 32) s
  ({ regs with rax := ret.signExtend 64 }, s)

end Operations

end ChronOS.Mm
