/-
  Process/Process.lean --- `kernel/src/process/process.c`.

  Process structures are kept apart from the rest of memory: `procs` gives the
  `process_t` at every address, the null pointer and pages never written
  included, so a field read before it is assigned has whatever value was there.
  The `bitmap_t` objects that `process_t.bitmap` points to are kept in the same
  way; a write through that pointer, which is never assigned, therefore hits no
  process structure here.

  `create_page_table` and `load_elf` work on the flat memory and are the models of
  `Mm.Paging` and `Loader.Elf`.
-/
import ChronOS.Loader.Elf
import ChronOS.Mm.Vmm

set_option autoImplicit false

namespace ChronOS.Proc

open ChronOS.Foundation ChronOS.Ds ChronOS.Utils ChronOS.Mm ChronOS.Loader

def MAX_FILES_OPENABLE : Nat := 64

/-- `process_t`; `files` holds the pointers to the open files. -/
structure Process where
  regs : Regs
  pml4 : Word
  fxsaveRegion : BitVec 4096
  stack : Word
  pidId : BitVec 32
  elfProgram : Option ElfPrg
  bitmap : Word
  files : Fin MAX_FILES_OPENABLE → Word
  next : Word

/-- The addresses `process.c` and `create_page_table` take from the linker, and the
memory size `get_mem_size` has kept since `pmm_init`. -/
structure Layout where
  kernStart : Word
  kernEnd : Word
  memSize : Word
  idle : Word

/-- The kernel state: memory and allocator, the process structures and their bitmaps,
the globals of `process.c` and `paging.c`, and the registers they load. -/
structure Kernel (σ : Type) where
  machine : Machine σ
  procs : Word → Process
  bitmaps : Word → Bitmap
  procQueue : Word
  curProc : Word
  numPids : BitVec 32
  fpu : BitVec 4096
  pml4 : Word
  cr3 : Word

variable {σ : Type}

/-- A write to the process structure at `p`. -/
def Kernel.modify (k : Kernel σ) (p : Word) (f : Process → Process) : Kernel σ :=
  { k with procs := Function.update k.procs p (f (k.procs p)) }

/-- `cur_proc->next`. -/
def Kernel.next (k : Kernel σ) (p : Word) : Word := (k.procs p).next

/-! ## Scheduling -/

/-- The nineteen assignments `dst.r = src.r`, in the order of the source. -/
def copyRegs (dst src : Regs) : Regs :=
  { dst with
    rax := src.rax
    rcx := src.rcx
    rdx := src.rdx
    rbx := src.rbx
    rbp := src.rbp
    rsp := src.rsp
    rsi := src.rsi
    rdi := src.rdi
    rflags := src.rflags
    rip := src.rip
    r8 := src.r8
    r9 := src.r9
    r10 := src.r10
    r11 := src.r11
    r12 := src.r12
    r13 := src.r13
    r14 := src.r14
    r15 := src.r15
    cs := src.cs }

/-- `schedule`: the frame it leaves behind and the state after it. -/
def schedule (regs : Regs) (k : Kernel σ) : Regs × Kernel σ :=
  if k.procQueue = 0 then (regs, k)
  else if k.curProc = 0 then (regs, k)
  else if (k.procs k.curProc).next = 0 then (regs, k)
  else
    let k := k.modify k.curProc fun p => { p with regs := copyRegs p.regs regs }
    let k := k.modify k.curProc fun p => { p with fxsaveRegion := k.fpu }
    let k := { k with curProc := (k.procs k.curProc).next }
    let regs := copyRegs regs (k.procs k.curProc).regs
    (regs, { k with fpu := (k.procs k.curProc).fxsaveRegion })

/-! ## Creation -/

section Creation

variable (src : FrameSource σ) (layout : Layout)

/-- `pmm_getpage()`. -/
def Kernel.getpage (k : Kernel σ) : Option (Word × Kernel σ) :=
  (src.getpage k.machine.pmm k.machine.mem).map fun (page, pmm, mem) =>
    (page, { k with machine := { mem, pmm } })

/-- The stack of a new process and the two registers that point to its end. -/
def newStack (newProc : Word) (k : Kernel σ) : Option (Kernel σ) := do
  let (stack, k) ← k.getpage src
  return k.modify newProc fun p =>
    { p with stack, regs := { p.regs with rsp := stack + 0x1000#64, rbp := stack + 0x1000#64 } }

/-- `new_proc->pml4 = create_page_table()`. -/
def newPageTable (newProc : Word) (k : Kernel σ) : Option (Kernel σ) := do
  let (pml4, machine) ← createPageTable src.toPageSource layout.kernStart layout.kernEnd
    layout.memSize k.machine
  return { k with machine }.modify newProc fun p => { p with pml4 }

/-- `new_proc->pid_id = num_pids++`. -/
def newPid (newProc : Word) (k : Kernel σ) : Kernel σ :=
  { k with numPids := k.numPids + 1 }.modify newProc fun p => { p with pidId := k.numPids }

/-- The page behind `new_proc->bitmap`, through a pointer that is not assigned. -/
def newBitmap (newProc : Word) (k : Kernel σ) : Option (Kernel σ) := do
  let (page, k) ← k.getpage src
  return { k with
    machine := { k.machine with mem := memset k.machine.mem page 0 0x1000 }
    bitmaps := Function.update k.bitmaps (k.procs newProc).bitmap
      { bitmap := page, size := BitVec.ofNat 64 (VMM_SIZE_PAGES / 8) } }

/-- `memset(new_proc->fxsave_region, 0, 512)`. -/
def clearFxsave (newProc : Word) (k : Kernel σ) : Kernel σ :=
  k.modify newProc fun p => { p with fxsaveRegion := 0 }

/-- The end of both constructors: the file table is cleared and the new process is linked
behind `proc_queue`. -/
def linkProc (newProc : Word) (k : Kernel σ) : Kernel σ :=
  let k := k.modify newProc fun p => { p with files := fun _ => 0 }
  let tmpNext := (k.procs k.procQueue).next
  let k := k.modify newProc fun p => { p with next := tmpNext }
  k.modify k.procQueue fun p => { p with next := newProc }

/-- `make_proc`; `size_pages` is not used. -/
def makeProc (entry : Word) (k : Kernel σ) : Option (Kernel σ) := do
  let (newProc, k) ← k.getpage src
  let k := k.modify newProc fun p =>
    { p with regs := { Regs.zero with rflags := 0x202, rip := entry, cs := 0x08 } }
  let k ← newStack src newProc k
  let k ← newPageTable src layout newProc k
  let k := newPid newProc k
  let k ← newBitmap src newProc k
  let k := clearFxsave newProc k
  return linkProc newProc k

/-- `elf_program->entry`, the first field; the null pointer reads address 0. -/
def programEntry (m : Mem) : Option ElfPrg → Word
  | some prog => prog.entry
  | none => m.read64 0

/-- `make_proc_from_elf`. -/
def makeProcFromElf (elfData : Word) (k : Kernel σ) : Option (Kernel σ) := do
  let (newProc, k) ← k.getpage src
  let k := k.modify newProc fun p =>
    { p with regs := { Regs.zero with rflags := 0x202, cs := 0x08 } }
  let k ← newStack src newProc k
  let k ← newPageTable src layout newProc k
  let proc := k.procs newProc
  let machine ← pagingMap src.toPageSource proc.pml4 proc.stack proc.stack PAGE_NORMAL k.machine
  let (elfProgram, machine) ← loadElf src elfData proc.pml4 machine
  let k := { k with machine }.modify newProc fun p =>
    { p with elfProgram, regs := { p.regs with rip := programEntry machine.mem elfProgram } }
  let k := newPid newProc k
  let k := clearFxsave newProc k
  let k ← newBitmap src newProc k
  return linkProc newProc k

/-- `process_init`. -/
def processInit (k : Kernel σ) : Option (Kernel σ) := do
  let (page, k) ← k.getpage src
  let k := { k with procQueue := page }
  let k := { k with curProc := k.procQueue }
  let k := newPid k.curProc k
  let k := k.modify k.curProc fun p => { p with pml4 := k.pml4 }
  let k := k.modify k.curProc fun p => { p with next := k.curProc }
  makeProc src layout layout.idle k

end Creation

/-! ## Address spaces -/

/-- `paging_change_dir`. -/
def pagingChangeDir (dir : Word) (k : Kernel σ) : Kernel σ := { k with pml4 := dir, cr3 := dir }

/-- `process_set_pml4_to_kernel`; the guard is a conjunction, so it reads through the null
pointer when there is no queue. -/
def processSetPml4ToKernel (k : Kernel σ) : Kernel σ :=
  if k.procQueue = 0 ∧ (k.procs k.procQueue).pml4 = 0 then k
  else pagingChangeDir (k.procs k.procQueue).pml4 k

/-- `process_set_pml4_to_cur_proc`. -/
def processSetPml4ToCurProc (k : Kernel σ) : Kernel σ :=
  if k.curProc = 0 then k
  else pagingChangeDir (k.procs k.curProc).pml4 k

end ChronOS.Proc
