/-
  Idt/Syscall.lean --- `kernel/src/idt/syscall.c`.

  A system call works on the `regs_t` in memory.  `open` and `write` switch to the
  table of the caller to copy from its memory and switch back.

  What the calls into the heap and the file system return is given from outside;
  the copies into local buffers and the output to the terminal are left out.
-/
import ChronOS.Idt.Interrupts

set_option autoImplicit false

namespace ChronOS.Idt

open ChronOS.Foundation ChronOS.Utils ChronOS.Mm ChronOS.Proc

def MAX_SYSCALLS : Nat := 128

/-- What the code outside this file returns: the block `kmalloc` allocates, the results of
`f_open` and `f_close`, and the words a file index beyond the table reads. -/
structure External where
  kmalloc : Word
  fOpen : BitVec 32
  fClose : BitVec 32
  beyond : Word → Word

variable {σ : Type}

/-- A store to word `i` of the frame. -/
def setFrameWord (frame : Word) (i : Nat) (v : Word) (k : Kernel σ) : Kernel σ :=
  setMem k (k.machine.mem.write64 (frame + BitVec.ofNat 64 (8 * i)) v)

/-- `regs->rax = v`. -/
def setRax (frame v : Word) (k : Kernel σ) : Kernel σ := setFrameWord frame 14 v k

/-- `test_syscall`. -/
def testSyscall (frame : Word) (k : Kernel σ) : Kernel σ :=
  setFrameWord frame 8 ((loadRegs k.machine.mem frame).rdi + 10#64) k

/-- `get_cur_proc()` as `mmap` and `munmap` see it. -/
def curSpace (k : Kernel σ) : Option AddressSpace :=
  if k.curProc = 0 then none
  else
    let proc := k.procs k.curProc
    some { pml4 := proc.pml4, bitmap := k.bitmaps proc.bitmap }

/-- `mmap_syscall` on the frame in memory. -/
def mmapCall (src : PageSource σ) (frame : Word) (k : Kernel σ) : Option (Kernel σ) := do
  let (regs, machine) ← mmapSyscall src (curSpace k) (loadRegs k.machine.mem frame) k.machine
  return setRax frame regs.rax { k with machine }

/-- `munmap_syscall` on the frame in memory. -/
def munmapCall (frame : Word) (k : Kernel σ) : Kernel σ :=
  let (regs, machine) := munmapSyscall (curSpace k) (loadRegs k.machine.mem frame) k.machine
  setRax frame regs.rax { k with machine }

/-- The search of `open_syscall`: the loop does not stop at the first free slot, so it ends
with the last one. -/
def freeSlot (files : Fin MAX_FILES_OPENABLE → Word) : Option (Fin MAX_FILES_OPENABLE) :=
  (List.finRange MAX_FILES_OPENABLE).foldl
    (fun x i => if i.val < 2 then x else if files i ≠ 0 then x else some i) none

/-- `open_syscall`. -/
def openSyscall (ext : External) (frame : Word) (k : Kernel σ) : Kernel σ :=
  let proc := k.curProc
  match freeSlot (k.procs proc).files with
  | none => setRax frame 1 k
  | some x =>
      let k := processSetPml4ToCurProc k
      let k := processSetPml4ToKernel k
      let k := k.modify proc fun p => { p with files := Function.update p.files x ext.kmalloc }
      let res := ext.fOpen
      if res ≠ 0 then setRax frame ((-res).setWidth 64) k
      else setRax frame (BitVec.ofNat 64 x.val) k

/-- `proc->files[i]`, with no check of the index. -/
def fileAt (ext : External) (p : Process) (i : Word) : Word :=
  if h : i.toNat < MAX_FILES_OPENABLE then p.files ⟨i.toNat, h⟩ else ext.beyond i

/-- `close_syscall`; the slot is not cleared. -/
def closeSyscall (ext : External) (frame : Word) (k : Kernel σ) : Kernel σ :=
  let fd := (loadRegs k.machine.mem frame).rdi
  if fileAt ext (k.procs k.curProc) fd = 0 then setRax frame (-2#64) k
  else
    let res := ext.fClose
    if res ≠ 0 then setRax frame ((-res).setWidth 64) k
    else setRax frame 0 k

/-- `write_syscall`: only the standard output is written to, and `rax` is the number of
iterations of the output loop. -/
def writeSyscall (frame : Word) (k : Kernel σ) : Kernel σ :=
  let regs := loadRegs k.machine.mem frame
  let fd : BitVec 32 := regs.rdi.setWidth 32
  let len : BitVec 32 := regs.rdx.setWidth 32
  let k := processSetPml4ToCurProc k
  let k := processSetPml4ToKernel k
  if fd = 1 then setRax frame (BitVec.ofNat 64 len.toInt.toNat) k else k

/-- `syscall`: an empty entry of the table does nothing; a number beyond the table calls
whatever is stored there, so nothing can be said of it. -/
def syscall (src : PageSource σ) (ext : External) (frame : Word) (k : Kernel σ) :
    Option (Kernel σ) :=
  let syscallNum := (loadRegs k.machine.mem frame).rax.toNat
  match syscallNum with
  | 0 => some (testSyscall frame k)
  | 1 => mmapCall src frame k
  | 2 => some (munmapCall frame k)
  | 3 => some (openSyscall ext frame k)
  | 4 => some (closeSyscall ext frame k)
  | 5 => some k
  | 6 => some (writeSyscall frame k)
  | n => if n < MAX_SYSCALLS then some k else none

end ChronOS.Idt
