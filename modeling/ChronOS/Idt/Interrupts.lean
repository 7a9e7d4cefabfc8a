/-
  Idt/Interrupts.lean --- `kernel/src/idt/interrupts.asm` and the hardware around it.

  In long mode the processor aligns the stack pointer to 16 bytes and pushes SS,
  RSP, RFLAGS, CS and RIP; `iretq` pops all five.  `pushaq` pushes sixteen words
  below them, the first being the stack pointer itself, and the nineteen words
  from R15 to RFLAGS are what a handler sees as its `regs_t`:

      frame + 8 * 0 .. 14    r15 .. rax    (pushaq)
      frame + 8 * 15         rsp           (pushaq; the address of the RIP slot)
      frame + 8 * 16 .. 18   rip, cs, rflags
      frame + 8 * 19, 20     rsp, ss       (not part of regs_t)

  All stacks are identity mapped in every page table, so the memory is the flat
  one.  Gates are interrupt gates, so a stub is not interrupted.  The return
  addresses and C frames of the calls a stub makes lie below the frame and are
  read by nothing else; they are left out.
-/
import ChronOS.Foundation.Stack
import ChronOS.Process.SchedulerRing

set_option autoImplicit false

namespace ChronOS.Idt

open ChronOS.Foundation ChronOS.Utils ChronOS.Mm ChronOS.Proc

/-! ## The register frame in memory -/

/-- The words of a `regs_t`, in the order of its fields. -/
def regsWords (r : Regs) : List Word :=
  [r.r15, r.r14, r.r13, r.r12, r.r11, r.r10, r.r9, r.r8, r.rdi, r.rsi, r.rbp, r.rbx, r.rdx,
    r.rcx, r.rax, r.rsp, r.rip, r.cs, r.rflags]

/-- The `regs_t` at `a`. -/
def loadRegs (m : Mem) (a : Word) : Regs where
  r15 := wordAt m a 0
  r14 := wordAt m a 1
  r13 := wordAt m a 2
  r12 := wordAt m a 3
  r11 := wordAt m a 4
  r10 := wordAt m a 5
  r9 := wordAt m a 6
  r8 := wordAt m a 7
  rdi := wordAt m a 8
  rsi := wordAt m a 9
  rbp := wordAt m a 10
  rbx := wordAt m a 11
  rdx := wordAt m a 12
  rcx := wordAt m a 13
  rax := wordAt m a 14
  rsp := wordAt m a 15
  rip := wordAt m a 16
  cs := wordAt m a 17
  rflags := wordAt m a 18

/-- The `regs_t` at `a` overwritten with `r`. -/
def storeRegs (m : Mem) (a : Word) (r : Regs) : Mem := storeWords m a (regsWords r)

/-! ## The stub -/

/-- The registers of the processor; `regs.rsp` is the stack pointer it runs with. -/
structure Cpu where
  regs : Regs
  ss : Word
  deriving DecidableEq, Repr

/-- The processor and the kernel it runs. -/
structure Hart (σ : Type) where
  cpu : Cpu
  kernel : Kernel σ

variable {σ : Type}

/-- The kernel with another memory. -/
def setMem (k : Kernel σ) (mem : Mem) : Kernel σ := { k with machine := { k.machine with mem } }

/-- What the processor pushes when it takes an interrupt. -/
def hardwarePush (cpu : Cpu) (m : Mem) : Word × Mem :=
  pushAll (cpu.regs.rsp &&& ~~~0xf#64, m)
    [cpu.ss, cpu.regs.rsp, cpu.regs.rflags, cpu.regs.cs, cpu.regs.rip]

/-- `pushaq`; `push rsp` stores the stack pointer as it is before the push. -/
def pushaq (r : Regs) (s : Word × Mem) : Word × Mem :=
  pushAll s [s.1, r.rax, r.rcx, r.rdx, r.rbx, r.rbp, r.rsi, r.rdi, r.r8, r.r9, r.r10, r.r11,
    r.r12, r.r13, r.r14, r.r15]

/-- `popaq`: fifteen pops, and `add rsp, 8` over the stack pointer that was pushed. -/
def popaq (m : Mem) (sp : Word) (r : Regs) : Regs × Word :=
  ({ r with
      r15 := wordAt m sp 0
      r14 := wordAt m sp 1
      r13 := wordAt m sp 2
      r12 := wordAt m sp 3
      r11 := wordAt m sp 4
      r10 := wordAt m sp 5
      r9 := wordAt m sp 6
      r8 := wordAt m sp 7
      rdi := wordAt m sp 8
      rsi := wordAt m sp 9
      rbp := wordAt m sp 10
      rbx := wordAt m sp 11
      rdx := wordAt m sp 12
      rcx := wordAt m sp 13
      rax := wordAt m sp 14 },
    sp + 8#64 * 15#64 + 8#64)

/-- `iretq`: RIP, CS, RFLAGS, RSP and SS are popped. -/
def iretq (m : Mem) (sp : Word) (r : Regs) : Cpu where
  regs := { r with
    rip := wordAt m sp 0
    cs := wordAt m sp 1
    rflags := wordAt m sp 2
    rsp := wordAt m sp 3 }
  ss := wordAt m sp 4

/-- `pushaq; call process_set_pml4_to_kernel; mov rdi, rsp`: the frame and the kernel the
handler starts with. -/
def stubEnter (h : Hart σ) : Word × Kernel σ :=
  let (sp, m) := pushaq h.cpu.regs (hardwarePush h.cpu h.kernel.machine.mem)
  (sp, processSetPml4ToKernel (setMem h.kernel m))

/-- `call process_set_pml4_to_cur_proc; popaq; iretq`. -/
def stubLeave (r : Regs) (sp : Word) (k : Kernel σ) : Hart σ :=
  let k := processSetPml4ToCurProc k
  let (r, sp) := popaq k.machine.mem sp r
  { cpu := iretq k.machine.mem sp r, kernel := k }

/-- The stub around a handler that returns. -/
def stub (handler : Word → Kernel σ → Kernel σ) (h : Hart σ) : Hart σ :=
  let (frame, k) := stubEnter h
  stubLeave h.cpu.regs frame (handler frame k)

/-- `timer_handler`: `schedule` on the frame in memory. -/
def timerHandler (frame : Word) (k : Kernel σ) : Kernel σ :=
  let (regs, k) := schedule (loadRegs k.machine.mem frame) k
  setMem k (storeRegs k.machine.mem frame regs)

/-- `timer_irq`. -/
def timerIrq (h : Hart σ) : Hart σ := stub timerHandler h

/-! ## What a stub leaves in the registers -/

/-- The frame address of an interrupt taken with this stack pointer. -/
def frameAddress (rsp : Word) : Word := (rsp &&& ~~~0xf#64) - 168#64

/-- The `regs_t` an interrupt presents to its handler: the registers, but with the address
of the RIP slot in the place of the stack pointer. -/
def frameRegs (r : Regs) : Regs := { r with rsp := (r.rsp &&& ~~~0xf#64) - 40#64 }

/-- The twenty-one words of a frame. -/
def frameWords (cpu : Cpu) : List Word := regsWords (frameRegs cpu.regs) ++ [cpu.regs.rsp, cpu.ss]

theorem pushaq_hardwarePush (cpu : Cpu) (m : Mem) :
    pushaq cpu.regs (hardwarePush cpu m) = (frameAddress cpu.regs.rsp,
      storeWords m (frameAddress cpu.regs.rsp) (frameWords cpu)) := by
  have hsp : (hardwarePush cpu m).1 = (cpu.regs.rsp &&& ~~~0xf#64) - 40#64 := by
    rw [hardwarePush, pushAll_eq]
    rfl
  rw [pushaq, hsp, hardwarePush, pushAll_append, pushAll_eq]
  rfl

/-- A block that starts with the words of a `regs_t` reads back as that `regs_t`. -/
theorem loadRegs_storeWords (m : Mem) (a : Word) (r : Regs) {rest : List Word}
    (hrest : rest.length ≤ 2) : loadRegs (storeWords m a (regsWords r ++ rest)) a = r := by
  have hlen : (regsWords r ++ rest).length = 19 + rest.length := List.length_append
  have hword : ∀ i (hi : i < (regsWords r ++ rest).length),
      wordAt (storeWords m a (regsWords r ++ rest)) a i = (regsWords r ++ rest)[i] :=
    fun i hi => wordAt_storeWords (by omega) hi
  ext1 <;> exact hword _ (by omega)

theorem loadRegs_storeRegs (m : Mem) (a : Word) (r : Regs) : loadRegs (storeRegs m a r) a = r := by
  have h := @loadRegs_storeWords m a r [] (by decide)
  rwa [List.append_nil] at h

theorem wordAt_storeRegs {m : Mem} {a : Word} {r : Regs} {i : Nat} (hi : 19 ≤ i)
    (hbound : 8 * (i + 1) ≤ 2 ^ 64) : wordAt (storeRegs m a r) a i = wordAt m a i :=
  wordAt_storeWords_of_ge hi hbound

@[simp] theorem processSetPml4ToKernel_machine (k : Kernel σ) :
    (processSetPml4ToKernel k).machine = k.machine := by
  unfold processSetPml4ToKernel
  split_ifs <;> rfl

@[simp] theorem processSetPml4ToCurProc_machine (k : Kernel σ) :
    (processSetPml4ToCurProc k).machine = k.machine := by
  unfold processSetPml4ToCurProc
  split_ifs <;> rfl

theorem sameProcs_setMem (k : Kernel σ) (m : Mem) : SameProcs k (setMem k m) :=
  ⟨_, _, _, _, _, rfl⟩

/-- What a handler starts with: the frame holds the registers, and behind them the stack
pointer and segment of the interrupted process; only memory and the active table differ from
the state that was interrupted. -/
structure Entered (h : Hart σ) (frame : Word) (k : Kernel σ) : Prop where
  same : SameProcs h.kernel k
  regs : loadRegs k.machine.mem frame = frameRegs h.cpu.regs
  rsp : wordAt k.machine.mem frame 19 = h.cpu.regs.rsp
  ss : wordAt k.machine.mem frame 20 = h.cpu.ss

theorem stubEnter_entered (h : Hart σ) : Entered h (stubEnter h).1 (stubEnter h).2 := by
  have hlen : (frameWords h.cpu).length = 21 := rfl
  rw [stubEnter, pushaq_hardwarePush]
  constructor
  · exact (sameProcs_setMem h.kernel _).trans (SameProcs.toKernel _)
  · rw [processSetPml4ToKernel_machine]
    exact loadRegs_storeWords _ _ _ (Nat.le_refl 2)
  · rw [processSetPml4ToKernel_machine]
    exact wordAt_storeWords (by omega) (by omega)
  · rw [processSetPml4ToKernel_machine]
    exact wordAt_storeWords (by omega) (by omega)

/-- A stub resumes with the frame as it stands in memory, except for the stack pointer: that
one comes from the word the processor pushed, behind the `regs_t`. -/
theorem stubLeave_cpu (r : Regs) (frame : Word) (k : Kernel σ) :
    (stubLeave r frame k).cpu =
      { regs := { loadRegs k.machine.mem frame with rsp := wordAt k.machine.mem frame 19 }
        ss := wordAt k.machine.mem frame 20 } := by
  have hsp : frame + 8#64 * 15#64 + 8#64 = frame + BitVec.ofNat 64 (8 * 16) := by bv_omega
  simp only [stubLeave, popaq, iretq, loadRegs, processSetPml4ToCurProc_machine, hsp, wordAt_add]

theorem timerHandler_eq {frame : Word} {k : Kernel σ} {r : Regs}
    (hframe : loadRegs k.machine.mem frame = r) :
    timerHandler frame k =
      setMem (schedule r k).2 (storeRegs (schedule r k).2.machine.mem frame (schedule r k).1) := by
  rw [← hframe]
  rfl

end ChronOS.Idt
