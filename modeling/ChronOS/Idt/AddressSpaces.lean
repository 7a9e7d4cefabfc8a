/-
  Idt/AddressSpaces.lean --- which page table is active around an interrupt.

  Every stub calls `process_set_pml4_to_kernel` before its handler and
  `process_set_pml4_to_cur_proc` after it.  Interrupts are on from `idt_init`, long
  before `process_init` assigns the pointers these two functions follow, so
  `process_init` is cut here into its single stores (`bootStep`), and interrupts may
  come between any two of them.

  `Harmless` says which words the two functions read while the ring is not set up,
  and that these are null or the table in use.
-/
import ChronOS.Idt.Syscall

set_option autoImplicit false

namespace ChronOS.Idt

open ChronOS.Foundation ChronOS.Utils ChronOS.Mm ChronOS.Loader ChronOS.Proc

variable {σ : Type}

/-! ## `process_init`, one store at a time -/

/-- How far `process_init` has come.  The stages that carry an address are those of
`make_proc(idle)`, with the page of the new process. -/
inductive Stage
  | early
  | queueSet
  | curSet
  | pidSet
  | pml4Set
  | nextSet
  | idlePage (newProc : Word)
  | idleRegs (newProc : Word)
  | idleStack (newProc : Word)
  | idleTable (newProc : Word)
  | idlePid (newProc : Word)
  | idleBitmap (newProc : Word)
  | idleFxsave (newProc : Word)
  | idleNext (newProc : Word)
  | ready
  deriving DecidableEq

section Boot

variable (src : FrameSource σ) (layout : Layout)

/-- The next store of `process_init`. -/
def bootStep (stage : Stage) (k : Kernel σ) : Option (Stage × Kernel σ) :=
  match stage with
  | .early => do
      let (page, k) ← k.getpage src
      return (.queueSet, { k with procQueue := page })
  | .queueSet => some (.curSet, { k with curProc := k.procQueue })
  | .curSet => some (.pidSet, newPid k.curProc k)
  | .pidSet => some (.pml4Set, k.modify k.curProc fun p => { p with pml4 := k.pml4 })
  | .pml4Set => some (.nextSet, k.modify k.curProc fun p => { p with next := k.curProc })
  | .nextSet => do
      let (newProc, k) ← k.getpage src
      return (.idlePage newProc, k)
  | .idlePage newProc => some (.idleRegs newProc, k.modify newProc fun p =>
      { p with regs := { Regs.zero with rflags := 0x202, rip := layout.idle, cs := 0x08 } })
  | .idleRegs newProc => do
      let k ← newStack src newProc k
      return (.idleStack newProc, k)
  | .idleStack newProc => do
      let k ← newPageTable src layout newProc k
      return (.idleTable newProc, k)
  | .idleTable newProc => some (.idlePid newProc, newPid newProc k)
  | .idlePid newProc => do
      let k ← newBitmap src newProc k
      return (.idleBitmap newProc, k)
  | .idleBitmap newProc => some (.idleFxsave newProc, clearFxsave newProc k)
  | .idleFxsave newProc =>
      let k := k.modify newProc fun p => { p with files := fun _ => 0 }
      let tmpNext := (k.procs k.procQueue).next
      some (.idleNext newProc, k.modify newProc fun p => { p with next := tmpNext })
  | .idleNext newProc => some (.ready, k.modify k.procQueue fun p => { p with next := newProc })
  | .ready => none

/-- `n` stores in a row. -/
def bootRun : Nat → Stage × Kernel σ → Option (Stage × Kernel σ)
  | 0, s => some s
  | n + 1, s => (bootStep src layout s.1 s.2).bind (bootRun n)

/-- A store that first asks for a page, and `n` more. -/
theorem bootRun_bind {α : Type} (x : Option α) (f : α → Stage × Kernel σ) (n : Nat) :
    (x.bind fun a => some (f a)).bind (bootRun src layout n) =
      x.bind fun a => bootRun src layout n (f a) := by
  cases x <;> rfl

/-- The last nine stores are `make_proc(idle)`. -/
theorem bootRun_eq_makeProc (k : Kernel σ) :
    bootRun src layout 9 (.nextSet, k) =
      (makeProc src layout layout.idle k).map fun k => (.ready, k) := by
  -- one request after the other: for the structure, its stack, its table and its bitmap
  unfold makeProc
  rw [Option.bind_eq_bind, Option.map_bind]
  refine (bootRun_bind src layout _ _ 8).trans (Option.bind_congr fun ⟨newProc, k⟩ _ => ?_)
  simp only [Function.comp_apply, Option.bind_eq_bind, Option.map_bind]
  refine (bootRun_bind src layout _ _ 6).trans (Option.bind_congr fun k _ => ?_)
  refine (bootRun_bind src layout _ _ 5).trans (Option.bind_congr fun k _ => ?_)
  refine (bootRun_bind src layout _ _ 3).trans (Option.bind_congr fun k _ => ?_)
  rfl

/-- The fourteen stores are `process_init`. -/
theorem bootRun_eq_processInit (k : Kernel σ) :
    bootRun src layout 14 (.early, k) = (processInit src layout k).map fun k => (.ready, k) := by
  unfold processInit
  rw [Option.bind_eq_bind, Option.map_bind]
  refine (bootRun_bind src layout _ _ 13).trans (Option.bind_congr fun ⟨page, k⟩ _ => ?_)
  exact bootRun_eq_makeProc src layout _

end Boot

/-! ## Interrupts -/

/-- The interrupts a stub is installed for: the timer, the other devices (their handlers
leave the processes and the active table alone, and memory in the given state), system calls,
and exceptions, whose handler does not return. -/
inductive Irq
  | timer
  | device (mem : Mem)
  | syscall (ext : External)
  | exception (erc : Word)

/-- The start of an exception stub: the error code lies between the processor's words and
those of `pushaq`. -/
def exceptionEnter (erc : Word) (h : Hart σ) : Word × Kernel σ :=
  let (sp, m) := pushaq h.cpu.regs (push (hardwarePush h.cpu h.kernel.machine.mem) erc)
  (sp, processSetPml4ToKernel (setMem h.kernel m))

/-- The frame and the kernel the handler starts with. -/
def enter (irq : Irq) (h : Hart σ) : Word × Kernel σ :=
  match irq with
  | .exception erc => exceptionEnter erc h
  | _ => stubEnter h

/-- The handler; `none` if it does not return. -/
def handler (src : PageSource σ) (irq : Irq) (frame : Word) (k : Kernel σ) : Option (Kernel σ) :=
  match irq with
  | .timer => some (timerHandler frame k)
  | .device mem => some (setMem k mem)
  | .syscall ext => syscall src ext frame k
  | .exception _ => none

/-- The whole stub. -/
def interrupt (src : PageSource σ) (irq : Irq) (h : Hart σ) : Option (Hart σ) :=
  (handler src irq (enter irq h).1 (enter irq h).2).map (stubLeave h.cpu.regs (enter irq h).1)

/-- The process whose frame the stub resumes: after the timer the successor of the current
one, if `schedule` gets that far. -/
def resumed (irq : Irq) (k : Kernel σ) : Word :=
  match irq with
  | .timer =>
      if k.procQueue = 0 ∨ k.curProc = 0 ∨ k.next k.curProc = 0 then k.curProc
      else k.next k.curProc
  | _ => k.curProc

/-! ## Handlers and the active table -/

/-- What no handler changes: the queue, the active table, and the table of every process. -/
structure KeepsTables (k k' : Kernel σ) : Prop where
  queue : k'.procQueue = k.procQueue
  pml4 : k'.pml4 = k.pml4
  cr3 : k'.cr3 = k.cr3
  tables : ∀ p, (k'.procs p).pml4 = (k.procs p).pml4

/-- The state `process_set_pml4_to_kernel` leaves. -/
def KernelActive (k : Kernel σ) : Prop :=
  (k.procQueue = 0 ∧ (k.procs k.procQueue).pml4 = 0) ∨
    (k.pml4 = (k.procs k.procQueue).pml4 ∧ k.cr3 = (k.procs k.procQueue).pml4)

theorem toKernel_kernelActive (k : Kernel σ) : KernelActive (processSetPml4ToKernel k) := by
  unfold processSetPml4ToKernel
  split_ifs with hnull
  · exact Or.inl hnull
  · exact Or.inr ⟨rfl, rfl⟩

theorem pagingChangeDir_self {k : Kernel σ} {dir : Word} (hpml4 : k.pml4 = dir)
    (hcr3 : k.cr3 = dir) : pagingChangeDir dir k = k := by
  unfold pagingChangeDir
  nth_rewrite 1 [← hpml4]
  rw [← hcr3]

/-- Inside a handler, the detour through the table of the current process ends where it
began. -/
theorem toKernel_toCurProc {k : Kernel σ} (hactive : KernelActive k)
    (hqueue : k.curProc ≠ 0 → k.procQueue ≠ 0) :
    processSetPml4ToKernel (processSetPml4ToCurProc k) = k := by
  by_cases hcur : k.curProc = 0
  · rw [processSetPml4ToCurProc, if_pos hcur, processSetPml4ToKernel]
    rcases hactive with hnull | ⟨hpml4, hcr3⟩
    · rw [if_pos hnull]
    · rw [pagingChangeDir_self hpml4 hcr3, ite_self]
  · have hne := hqueue hcur
    rcases hactive with hnull | ⟨hpml4, hcr3⟩
    · exact absurd hnull.1 hne
    · rw [processSetPml4ToCurProc, if_neg hcur, processSetPml4ToKernel,
        if_neg fun hnull => hne hnull.1]
      exact pagingChangeDir_self hpml4 hcr3

/-- A handler that returns keeps the tables and leaves the resumed process current. -/
structure Handled (irq : Irq) (k k' : Kernel σ) : Prop extends KeepsTables k k' where
  cur : k'.curProc = resumed irq k

theorem Handled.setMem {irq : Irq} {k k' : Kernel σ} (h : Handled irq k k') (m : Mem) :
    Handled irq k (setMem k' m) :=
  ⟨⟨h.queue, h.pml4, h.cr3, h.tables⟩, h.cur⟩

theorem timerHandler_handled (frame : Word) (k : Kernel σ) :
    Handled .timer k (timerHandler frame k) := by
  rw [timerHandler_eq rfl]
  apply Handled.setMem
  by_cases hnull : k.procQueue = 0 ∨ k.curProc = 0 ∨ k.next k.curProc = 0
  · rw [schedule_of_null _ hnull]
    refine ⟨⟨rfl, rfl, rfl, fun _ => rfl⟩, ?_⟩
    rw [resumed, if_pos hnull]
  · have hne := not_or.mp hnull
    have hswitch := schedule_switched (loadRegs k.machine.mem frame) hne.1
      (not_or.mp hne.2).1 (not_or.mp hne.2).2
    refine ⟨⟨hswitch.queue, hswitch.pml4, hswitch.cr3, hswitch.tables⟩, ?_⟩
    rw [resumed, if_neg hnull, hswitch.cur]

theorem handled_refl (ext : External) (k : Kernel σ) : Handled (.syscall ext) k k :=
  ⟨⟨rfl, rfl, rfl, fun _ => rfl⟩, rfl⟩

theorem openSyscall_handled {ext : External} {frame : Word} {k : Kernel σ}
    (hdetour : processSetPml4ToKernel (processSetPml4ToCurProc k) = k) :
    Handled (.syscall ext) k (openSyscall ext frame k) := by
  unfold openSyscall
  dsimp only
  split
  · exact (handled_refl ext k).setMem _
  · next x _ =>
    have hfiles : Handled (.syscall ext) k (k.modify k.curProc fun p =>
        { p with files := Function.update p.files x ext.kmalloc }) := by
      refine ⟨⟨rfl, rfl, rfl, ?_⟩, rfl⟩
      intro p
      by_cases hp : p = k.curProc
      · rw [hp, modify_procs_self]
      · rw [modify_procs_of_ne k _ hp]
    rw [hdetour]
    split_ifs
    · exact hfiles.setMem _
    · exact hfiles.setMem _

theorem closeSyscall_handled (ext : External) (frame : Word) (k : Kernel σ) :
    Handled (.syscall ext) k (closeSyscall ext frame k) := by
  unfold closeSyscall
  dsimp only
  split_ifs
  all_goals exact (handled_refl ext k).setMem _

theorem writeSyscall_handled {ext : External} {frame : Word} {k : Kernel σ}
    (hdetour : processSetPml4ToKernel (processSetPml4ToCurProc k) = k) :
    Handled (.syscall ext) k (writeSyscall frame k) := by
  unfold writeSyscall
  simp only [hdetour]
  split_ifs
  · exact (handled_refl ext k).setMem _
  · exact handled_refl ext k

theorem syscall_handled {src : PageSource σ} {ext : External} {frame : Word} {k k' : Kernel σ}
    (hdetour : processSetPml4ToKernel (processSetPml4ToCurProc k) = k)
    (h : syscall src ext frame k = some k') : Handled (.syscall ext) k k' := by
  unfold syscall at h
  dsimp only at h
  split at h
  · cases h
    exact ⟨⟨rfl, rfl, rfl, fun _ => rfl⟩, rfl⟩
  · simp only [mmapCall, Option.bind_eq_bind, Option.bind_eq_some_iff] at h
    obtain ⟨⟨regs, machine⟩, -, heq⟩ := h
    cases heq
    exact ⟨⟨rfl, rfl, rfl, fun _ => rfl⟩, rfl⟩
  · cases h
    exact ⟨⟨rfl, rfl, rfl, fun _ => rfl⟩, rfl⟩
  · cases h
    exact openSyscall_handled hdetour
  · cases h
    exact closeSyscall_handled ext frame k
  · cases h
    exact handled_refl ext k
  · cases h
    exact writeSyscall_handled hdetour
  · split_ifs at h
    cases h
    exact handled_refl ext k

theorem handler_handled {src : PageSource σ} {irq : Irq} {frame : Word} {k k' : Kernel σ}
    (hactive : KernelActive k) (hqueue : k.curProc ≠ 0 → k.procQueue ≠ 0)
    (h : handler src irq frame k = some k') : Handled irq k k' := by
  cases irq with
  | timer =>
    cases h
    exact timerHandler_handled frame k
  | device mem =>
    cases h
    exact ⟨⟨rfl, rfl, rfl, fun _ => rfl⟩, rfl⟩
  | syscall ext => exact syscall_handled (toKernel_toCurProc hactive hqueue) h
  | exception erc => exact absurd h (Option.some_ne_none k').symm

/-! ## The two ends of a stub -/

/-- The first words `process_set_pml4_to_kernel` reads are null, or name the table in use. -/
def EntryHarmless (k : Kernel σ) : Prop :=
  (k.procQueue = 0 ∧ (k.procs k.procQueue).pml4 = 0) ∨
    (k.procs k.procQueue).pml4 = k.pml4

theorem enter_eq (irq : Irq) (h : Hart σ) :
    ∃ m, (enter irq h).2 = processSetPml4ToKernel (setMem h.kernel m) := by
  cases irq with
  | exception erc => exact ⟨_, rfl⟩
  | timer => exact ⟨_, rfl⟩
  | device mem => exact ⟨_, rfl⟩
  | syscall ext => exact ⟨_, rfl⟩

theorem enter_same (irq : Irq) (h : Hart σ) : SameProcs h.kernel (enter irq h).2 := by
  obtain ⟨m, heq⟩ := enter_eq irq h
  rw [heq]
  exact (sameProcs_setMem h.kernel m).trans (SameProcs.toKernel _)

theorem enter_kernelActive (irq : Irq) (h : Hart σ) : KernelActive (enter irq h).2 := by
  obtain ⟨m, heq⟩ := enter_eq irq h
  rw [heq]
  exact toKernel_kernelActive _

/-- With a queue, the handler starts with the table of the queue. -/
theorem enter_tables (irq : Irq) {h : Hart σ} (hqueue : h.kernel.procQueue ≠ 0) :
    (enter irq h).2.pml4 = (h.kernel.procs h.kernel.procQueue).pml4 ∧
      (enter irq h).2.cr3 = (h.kernel.procs h.kernel.procQueue).pml4 := by
  obtain ⟨m, heq⟩ := enter_eq irq h
  have hguard : ¬ ((setMem h.kernel m).procQueue = 0 ∧
      ((setMem h.kernel m).procs (setMem h.kernel m).procQueue).pml4 = 0) :=
    fun hnull => hqueue hnull.1
  rw [heq, processSetPml4ToKernel, if_neg hguard]
  exact ⟨rfl, rfl⟩

theorem enter_agree (irq : Irq) {h : Hart σ} (htables : h.kernel.cr3 = h.kernel.pml4) :
    (enter irq h).2.cr3 = (enter irq h).2.pml4 := by
  obtain ⟨m, heq⟩ := enter_eq irq h
  rw [heq, processSetPml4ToKernel]
  split_ifs
  · exact htables
  · rfl

theorem enter_unchanged_iff (irq : Irq) {h : Hart σ} (htables : h.kernel.cr3 = h.kernel.pml4) :
    ((enter irq h).2.pml4 = h.kernel.pml4 ∧ (enter irq h).2.cr3 = h.kernel.cr3) ↔
      EntryHarmless h.kernel := by
  obtain ⟨m, heq⟩ := enter_eq irq h
  rw [heq, processSetPml4ToKernel]
  split_ifs with hnull
  · exact iff_of_true ⟨rfl, rfl⟩ (Or.inl hnull)
  · refine ⟨fun hsame => Or.inr hsame.1, ?_⟩
    intro hharmless
    have hsame := hharmless.resolve_left hnull
    exact ⟨hsame, hsame.trans htables.symm⟩

/-- The stub ends with the table of the resumed process, if there is one, and otherwise with
the table its handler ran with. -/
theorem interrupt_inv {src : PageSource σ} {irq : Irq} {h h' : Hart σ}
    (hqueue : h.kernel.curProc ≠ 0 → h.kernel.procQueue ≠ 0)
    (hirq : interrupt src irq h = some h') :
    h'.kernel.procQueue = h.kernel.procQueue ∧ h'.kernel.curProc = resumed irq h.kernel ∧
      (∀ p, (h'.kernel.procs p).pml4 = (h.kernel.procs p).pml4) ∧
      (resumed irq h.kernel = 0 → h'.kernel.pml4 = (enter irq h).2.pml4 ∧
        h'.kernel.cr3 = (enter irq h).2.cr3) ∧
      (resumed irq h.kernel ≠ 0 →
        h'.kernel.pml4 = (h.kernel.procs (resumed irq h.kernel)).pml4 ∧
        h'.kernel.cr3 = (h.kernel.procs (resumed irq h.kernel)).pml4) := by
  obtain ⟨k', hhandler, rfl⟩ := Option.map_eq_some_iff.mp hirq
  have hactive := enter_kernelActive irq h
  obtain ⟨machine, bitmaps, numPids, pml4, cr3, heq⟩ := enter_same irq h
  rw [heq] at hhandler hactive ⊢
  have hhandled := handler_handled hactive hqueue hhandler
  have hcur : k'.curProc = resumed irq h.kernel := hhandled.cur
  have hleave : (stubLeave h.cpu.regs (enter irq h).1 k').kernel = processSetPml4ToCurProc k' := rfl
  rw [hleave, processSetPml4ToCurProc]
  split_ifs with hnull
  · refine ⟨hhandled.queue, hcur, hhandled.tables, ?_, ?_⟩
    · exact fun _ => ⟨hhandled.pml4, hhandled.cr3⟩
    · exact fun hne => absurd (hcur.symm.trans hnull) hne
  · refine ⟨hhandled.queue, hcur, hhandled.tables, ?_, ?_⟩
    · exact fun hzero => absurd (hcur.trans hzero) hnull
    · intro _
      have htable := hhandled.tables k'.curProc
      rw [hcur] at htable
      rw [pagingChangeDir, hcur]
      exact ⟨htable, htable⟩

/-! ## Runs -/

/-- The machine and the progress of `process_init`. -/
structure Sys (σ : Type) where
  stage : Stage
  hart : Hart σ

section Runs

variable (src : FrameSource σ) (layout : Layout)

/-- One step: other code (before `process_init` and after it, with any effect on memory and
process structures), a store of `process_init` while its own context is the running one, or
an interrupt. -/
inductive SysStep : Sys σ → Sys σ → Prop
  | exec {s : Sys σ} {cpu : Cpu} {k : Kernel σ} (hstage : s.stage = .early ∨ s.stage = .ready)
      (hqueue : k.procQueue = s.hart.kernel.procQueue) (hcur : k.curProc = s.hart.kernel.curProc)
      (hpml4 : k.pml4 = s.hart.kernel.pml4) (hcr3 : k.cr3 = s.hart.kernel.cr3) :
      SysStep s ⟨s.stage, cpu, k⟩
  | boot {s : Sys σ} {stage : Stage} {cpu : Cpu} {k : Kernel σ}
      (hrunning : s.hart.kernel.curProc = 0 ∨ s.hart.kernel.curProc = s.hart.kernel.procQueue)
      (hstep : bootStep src layout s.stage s.hart.kernel = some (stage, k))
      (hpage : k.procQueue ≠ 0) : SysStep s ⟨stage, cpu, k⟩
  | irq {s : Sys σ} {h : Hart σ} (irq : Irq)
      (hirq : interrupt src.toPageSource irq s.hart = some h) : SysStep s ⟨s.stage, h⟩

end Runs

/-- The state `idt_init` starts from: no process yet, and CR3 and the global agree since
`paging_init`; memory and the process structures hold anything. -/
structure Booted (s : Sys σ) : Prop where
  stage : s.stage = .early
  queue : s.hart.kernel.procQueue = 0
  cur : s.hart.kernel.curProc = 0
  tables : s.hart.kernel.cr3 = s.hart.kernel.pml4

/-- What holds in every state of a run. -/
structure BootInv (s : Sys σ) : Prop where
  tables : s.hart.kernel.cr3 = s.hart.kernel.pml4
  queue : s.stage ≠ .early → s.hart.kernel.procQueue ≠ 0
  cur : s.stage ≠ .early → s.stage ≠ .queueSet → s.hart.kernel.curProc ≠ 0
  curQueue : s.hart.kernel.curProc ≠ 0 → s.hart.kernel.procQueue ≠ 0

theorem resumed_ne_zero_iff (irq : Irq) (k : Kernel σ) : resumed irq k ≠ 0 ↔ k.curProc ≠ 0 := by
  cases irq with
  | timer =>
    unfold resumed
    dsimp only
    split_ifs with hnull
    · exact Iff.rfl
    · have hne := not_or.mp (not_or.mp hnull).2
      exact iff_of_true hne.2 hne.1
  | device mem => exact Iff.rfl
  | syscall ext => exact Iff.rfl
  | exception erc => exact Iff.rfl

section Invariant

variable {src : FrameSource σ} {layout : Layout} {s s' : Sys σ}

/-- The globals that select processes and tables are the same. -/
structure BootKeeps (k k' : Kernel σ) : Prop where
  queue : k'.procQueue = k.procQueue
  cur : k'.curProc = k.curProc
  pml4 : k'.pml4 = k.pml4
  cr3 : k'.cr3 = k.cr3

theorem BootKeeps.of_builds {p : Word} {k k' : Kernel σ} (h : Builds p k k') : BootKeeps k k' :=
  ⟨h.queue, h.cur, h.pml4, h.cr3⟩

/-- The stages after the two in which a pointer is still null. -/
def Stage.Late (stage : Stage) : Prop := stage ≠ .early ∧ stage ≠ .queueSet

theorem late_step {stage st stage' : Stage} {k k₁ k' : Kernel σ}
    (heq : some (st, k₁) = some (stage', k')) (hkeeps : BootKeeps k k₁) (hstage : stage.Late)
    (hst : st.Late) : stage.Late ∧ stage'.Late ∧ BootKeeps k k' := by
  cases heq
  exact ⟨hstage, hst, hkeeps⟩

/-- Of these globals, the stores of `process_init` change only the queue, first, and the
current process, second. -/
theorem bootStep_cases {stage stage' : Stage} {k k' : Kernel σ}
    (h : bootStep src layout stage k = some (stage', k')) :
    (stage = .early ∧ stage' = .queueSet ∧ k'.curProc = k.curProc ∧ k'.pml4 = k.pml4 ∧
        k'.cr3 = k.cr3) ∨
      (stage = .queueSet ∧ stage'.Late ∧ k' = { k with curProc := k.procQueue }) ∨
      (stage.Late ∧ stage'.Late ∧ BootKeeps k k') := by
  cases stage with
  | early =>
    simp only [bootStep, Option.bind_eq_bind, Option.bind_eq_some_iff] at h
    obtain ⟨⟨page, k₁⟩, hpage, heq⟩ := h
    have hbuilds := (getpage_prepares page hpage).toBuilds
    cases heq
    exact Or.inl ⟨rfl, rfl, hbuilds.cur, hbuilds.pml4, hbuilds.cr3⟩
  | queueSet =>
    cases h
    exact Or.inr (Or.inl ⟨rfl, ⟨by simp, by simp⟩, rfl⟩)
  | nextSet =>
    simp only [bootStep, Option.bind_eq_bind, Option.bind_eq_some_iff] at h
    obtain ⟨⟨page, k₁⟩, hpage, heq⟩ := h
    exact Or.inr (Or.inr (late_step heq (.of_builds (getpage_prepares page hpage).toBuilds)
      ⟨by simp, by simp⟩ ⟨by simp, by simp⟩))
  | idleRegs newProc =>
    simp only [bootStep, Option.bind_eq_bind, Option.bind_eq_some_iff] at h
    obtain ⟨k₁, hstack, heq⟩ := h
    exact Or.inr (Or.inr (late_step heq (.of_builds (newStack_builds hstack).1)
      ⟨by simp, by simp⟩ ⟨by simp, by simp⟩))
  | idleStack newProc =>
    simp only [bootStep, Option.bind_eq_bind, Option.bind_eq_some_iff] at h
    obtain ⟨k₁, htable, heq⟩ := h
    exact Or.inr (Or.inr (late_step heq (.of_builds (newPageTable_prepares htable).toBuilds)
      ⟨by simp, by simp⟩ ⟨by simp, by simp⟩))
  | idlePid newProc =>
    simp only [bootStep, Option.bind_eq_bind, Option.bind_eq_some_iff] at h
    obtain ⟨k₁, hbitmap, heq⟩ := h
    exact Or.inr (Or.inr (late_step heq (.of_builds (newBitmap_prepares hbitmap).toBuilds)
      ⟨by simp, by simp⟩ ⟨by simp, by simp⟩))
  | ready => exact absurd h (Option.some_ne_none _).symm
  | _ =>
    exact Or.inr (Or.inr (late_step h ⟨rfl, rfl, rfl, rfl⟩ ⟨by simp, by simp⟩ ⟨by simp, by simp⟩))

theorem BootInv.boot_step {stage : Stage} {cpu : Cpu} {k : Kernel σ} (hinv : BootInv s)
    (hstep : bootStep src layout s.stage s.hart.kernel = some (stage, k))
    (hpage : k.procQueue ≠ 0) : BootInv ⟨stage, cpu, k⟩ := by
  rcases bootStep_cases hstep with ⟨-, rfl, -, hpml4, hcr3⟩ | ⟨-, -, rfl⟩ | ⟨hlate, -, hkeeps⟩
  · refine ⟨?_, fun _ => hpage, fun _ hne => absurd rfl hne, fun _ => hpage⟩
    exact hcr3.trans (hinv.tables.trans hpml4.symm)
  · exact ⟨hinv.tables, fun _ => hpage, fun _ _ => hpage, fun _ => hpage⟩
  · refine ⟨?_, fun _ => hpage, fun _ _ => ?_, fun _ => hpage⟩
    · exact hkeeps.cr3.trans (hinv.tables.trans hkeeps.pml4.symm)
    · exact hkeeps.cur ▸ hinv.cur hlate.1 hlate.2

theorem BootInv.irq_step {h : Hart σ} (hinv : BootInv s) {irq : Irq}
    (hirq : interrupt src.toPageSource irq s.hart = some h) : BootInv ⟨s.stage, h⟩ := by
  obtain ⟨hqueue, hcur, -, hnull, hproc⟩ := interrupt_inv hinv.curQueue hirq
  have hcurIff := resumed_ne_zero_iff irq s.hart.kernel
  refine ⟨?_, ?_, ?_, ?_⟩
  · by_cases hzero : resumed irq s.hart.kernel = 0
    · obtain ⟨hpml4, hcr3⟩ := hnull hzero
      rw [hpml4, hcr3]
      exact enter_agree irq hinv.tables
    · obtain ⟨hpml4, hcr3⟩ := hproc hzero
      exact hcr3.trans hpml4.symm
  · exact fun hstage => hqueue ▸ hinv.queue hstage
  · exact fun hstage hstage' => hcur ▸ hcurIff.mpr (hinv.cur hstage hstage')
  · exact fun hne => hqueue ▸ hinv.curQueue (hcurIff.mp (hcur ▸ hne))

theorem BootInv.step (hinv : BootInv s) (hstep : SysStep src layout s s') : BootInv s' := by
  cases hstep with
  | exec hstage hqueue hcur hpml4 hcr3 =>
    refine ⟨?_, ?_, ?_, ?_⟩
    · exact hcr3.trans (hinv.tables.trans hpml4.symm)
    · exact fun hearly => hqueue ▸ hinv.queue hearly
    · exact fun hearly hlate => hcur ▸ hinv.cur hearly hlate
    · exact fun hne => hqueue ▸ hinv.curQueue (hcur ▸ hne)
  | boot hrunning hstep hpage => exact hinv.boot_step hstep hpage
  | irq irq hirq => exact hinv.irq_step hirq

theorem BootInv.of_run (hboot : Booted s)
    (hrun : Relation.ReflTransGen (SysStep src layout) s s') : BootInv s' := by
  induction hrun with
  | refl =>
    refine ⟨hboot.tables, ?_, ?_, ?_⟩
    · exact fun hne => absurd hboot.stage hne
    · exact fun hne => absurd hboot.stage hne
    · exact fun hne => absurd hboot.cur hne
  | tail _ hstep ih => exact ih.step hstep

end Invariant

/-! ## The discipline -/

/-- The stub leaves CR3 and the global alone, in its handler and when it returns. -/
def TablesKept (src : PageSource σ) (irq : Irq) (h : Hart σ) : Prop :=
  ((enter irq h).2.pml4 = h.kernel.pml4 ∧ (enter irq h).2.cr3 = h.kernel.cr3) ∧
    ∀ h', interrupt src irq h = some h' →
      h'.kernel.pml4 = h.kernel.pml4 ∧ h'.kernel.cr3 = h.kernel.cr3

/-- The handler starts and ends with the table of the queue, and the stub returns with the
table of the process it resumes. -/
def TablesSwitched (src : PageSource σ) (irq : Irq) (h : Hart σ) : Prop :=
  ((enter irq h).2.pml4 = (h.kernel.procs h.kernel.procQueue).pml4 ∧
      (enter irq h).2.cr3 = (h.kernel.procs h.kernel.procQueue).pml4) ∧
    (∀ k, handler src irq (enter irq h).1 (enter irq h).2 = some k →
      k.pml4 = (k.procs k.procQueue).pml4 ∧ k.cr3 = (k.procs k.procQueue).pml4) ∧
    ∀ h', interrupt src irq h = some h' → h'.kernel.curProc = resumed irq h.kernel ∧
      h'.kernel.pml4 = (h'.kernel.procs h'.kernel.curProc).pml4 ∧
      h'.kernel.cr3 = (h'.kernel.procs h'.kernel.curProc).pml4

/-- The words the stub reads before the ring is set up are null or name the table in use: the
`pml4` behind `proc_queue`, null or not, and, if the handler returns, that of the process it
leaves current. -/
def Harmless (src : PageSource σ) (irq : Irq) (h : Hart σ) : Prop :=
  EntryHarmless h.kernel ∧
    ((interrupt src irq h).isSome → resumed irq h.kernel = 0 ∨
      (h.kernel.procs (resumed irq h.kernel)).pml4 = h.kernel.pml4)

section Main

variable {src : FrameSource σ} {layout : Layout} {s s' : Sys σ}

theorem BootInv.tablesKept_iff (hinv : BootInv s) (irq : Irq) :
    TablesKept src.toPageSource irq s.hart ↔ Harmless src.toPageSource irq s.hart := by
  unfold TablesKept Harmless
  rw [enter_unchanged_iff irq hinv.tables]
  refine and_congr_right fun hentry => ?_
  have henter := (enter_unchanged_iff irq hinv.tables).mpr hentry
  refine ⟨?_, ?_⟩
  · intro hkept hsome
    obtain ⟨h', hirq⟩ := Option.isSome_iff_exists.mp hsome
    obtain ⟨-, -, -, -, hproc⟩ := interrupt_inv hinv.curQueue hirq
    by_cases hzero : resumed irq s.hart.kernel = 0
    · exact Or.inl hzero
    · exact Or.inr ((hproc hzero).1.symm.trans (hkept h' hirq).1)
  · intro hharmless h' hirq
    obtain ⟨-, -, -, hnull, hproc⟩ := interrupt_inv hinv.curQueue hirq
    by_cases hzero : resumed irq s.hart.kernel = 0
    · obtain ⟨hpml4, hcr3⟩ := hnull hzero
      exact ⟨hpml4.trans henter.1, hcr3.trans henter.2⟩
    · have hsome : (interrupt src.toPageSource irq s.hart).isSome := by rw [hirq]; rfl
      have htable := (hharmless hsome).resolve_left hzero
      obtain ⟨hpml4, hcr3⟩ := hproc hzero
      exact ⟨hpml4.trans htable, hcr3.trans (htable.trans hinv.tables.symm)⟩

theorem BootInv.tablesSwitched (hinv : BootInv s) (hlate : s.stage.Late) (irq : Irq) :
    TablesSwitched src.toPageSource irq s.hart := by
  have hqueue := hinv.queue hlate.1
  have hcur := hinv.cur hlate.1 hlate.2
  have henter := enter_tables irq hqueue
  refine ⟨henter, ?_, ?_⟩
  · intro k hhandler
    obtain ⟨machine, bitmaps, numPids, pml4, cr3, heq⟩ := enter_same irq s.hart
    have hactive := enter_kernelActive irq s.hart
    rw [heq] at hhandler hactive henter
    have hhandled := handler_handled hactive hinv.curQueue hhandler
    have htable : (k.procs k.procQueue).pml4 =
        (s.hart.kernel.procs s.hart.kernel.procQueue).pml4 := by
      rw [hhandled.queue, hhandled.tables]
    rw [htable]
    exact ⟨hhandled.pml4.trans henter.1, hhandled.cr3.trans henter.2⟩
  · intro h' hirq
    obtain ⟨-, hnext, htables, -, hproc⟩ := interrupt_inv hinv.curQueue hirq
    obtain ⟨hpml4, hcr3⟩ := hproc ((resumed_ne_zero_iff irq s.hart.kernel).mpr hcur)
    refine ⟨hnext, ?_, ?_⟩
    · rw [hnext, htables, hpml4]
    · rw [hnext, htables, hcr3]

theorem bootRun_queue {n : Nat} {stage stage' : Stage} {k k' : Kernel σ}
    (h : bootRun src layout n (stage, k) = some (stage', k')) (hearly : stage ≠ .early) :
    k'.procQueue = k.procQueue := by
  induction n generalizing stage k with
  | zero => rw [(Prod.mk.inj (Option.some.inj h)).2]
  | succ n ih =>
    obtain ⟨⟨stage₁, k₁⟩, hstep, hrest⟩ := Option.bind_eq_some_iff.mp h
    rcases bootStep_cases hstep with ⟨heq, -⟩ | ⟨-, hlate, hcur⟩ | ⟨-, hlate, hkeeps⟩
    · exact absurd heq hearly
    · rw [ih hrest hlate.1, hcur]
    · exact (ih hrest hlate.1).trans hkeeps.queue

/-- Without interrupts, the stores of `process_init` are a run. -/
theorem bootRun_reaches {n : Nat} {stage stage' : Stage} {k k' : Kernel σ} (cpu : Cpu)
    (h : bootRun src layout n (stage, k) = some (stage', k'))
    (hrunning : k.curProc = 0 ∨ stage ≠ .early ∧ k.curProc = k.procQueue)
    (hpage : k'.procQueue ≠ 0) :
    Relation.ReflTransGen (SysStep src layout) ⟨stage, cpu, k⟩ ⟨stage', cpu, k'⟩ := by
  induction n generalizing stage k with
  | zero =>
    cases h
    exact .refl
  | succ n ih =>
    obtain ⟨⟨stage₁, k₁⟩, hstep, hrest⟩ := Option.bind_eq_some_iff.mp h
    have hnext : stage₁ ≠ .early ∧ (k₁.curProc = 0 ∨ k₁.curProc = k₁.procQueue) := by
      rcases bootStep_cases hstep with
        ⟨hearly, rfl, hcur, -⟩ | ⟨-, hlate, hcur⟩ | ⟨-, hlate, hkeeps⟩
      · refine ⟨by simp, Or.inl ?_⟩
        exact hcur.trans (hrunning.resolve_right fun hlate => hlate.1 hearly)
      · rw [hcur]
        exact ⟨hlate.1, Or.inr rfl⟩
      · rw [hkeeps.cur, hkeeps.queue]
        exact ⟨hlate.1, hrunning.imp id And.right⟩
    have hpage₁ : k₁.procQueue ≠ 0 := bootRun_queue hrest hnext.1 ▸ hpage
    exact .head (.boot (hrunning.imp id And.right) hstep hpage₁)
      (ih hrest (hnext.2.imp id fun heq => ⟨hnext.1, heq⟩))

/-- In every state a run reaches before the ring is set up, a stub leaves CR3 and the global
alone exactly when the words it reads are null or name the table in use.  Once the ring is set
up, every stub keeps the discipline. -/
theorem interrupt_tables_iff (hboot : Booted s)
    (hrun : Relation.ReflTransGen (SysStep src layout) s s') (irq : Irq) :
    (s'.stage ≠ .ready →
      (TablesKept src.toPageSource irq s'.hart ↔ Harmless src.toPageSource irq s'.hart)) ∧
    (s'.stage = .ready → TablesSwitched src.toPageSource irq s'.hart) := by
  have hinv := BootInv.of_run hboot hrun
  refine ⟨fun _ => hinv.tablesKept_iff irq, fun hready => hinv.tablesSwitched ?_ irq⟩
  rw [hready]
  exact ⟨by simp, by simp⟩

end Main

/-! ## Two boot states -/

/-- Before `process_init`, with all process structures of zeros. -/
def zeroSys : Sys PagePool := ⟨.early, ⟨Regs.zero, 0⟩, bootKernel⟩

/-- The same, but the word that `NULL->pml4` reads is not zero. -/
def staleSys : Sys PagePool :=
  ⟨.early, ⟨Regs.zero, 0⟩, { bootKernel with
    procs := fun _ => ⟨Regs.zero, 0xdead000, 0, 0, 0, none, 0, fun _ => 0, 0⟩ }⟩

/-- A timer interrupt before `process_init` loads CR3 from the word at `NULL->pml4`. -/
theorem staleSys_loads_null_pml4 :
    Booted staleSys ∧
      (interrupt poolFrames.toPageSource .timer staleSys.hart).map (fun h => h.kernel.cr3) =
        some 0xdead000 ∧
      ¬ TablesKept poolFrames.toPageSource .timer staleSys.hart := by
  refine ⟨⟨rfl, rfl, rfl, rfl⟩, by decide +kernel, ?_⟩
  intro hkept
  have hentry := hkept.1.1
  revert hentry
  decide +kernel

/-- With zeros in memory the same interrupt changes nothing, and `process_init` reaches a state
in which the discipline holds. -/
theorem zeroSys_tables :
    TablesKept poolFrames.toPageSource .timer zeroSys.hart ∧
      TablesSwitched poolFrames.toPageSource .timer ⟨zeroSys.hart.cpu, readyKernel⟩ := by
  have hboot : Booted zeroSys := ⟨rfl, rfl, rfl, rfl⟩
  have hharmless : Harmless poolFrames.toPageSource .timer zeroSys.hart :=
    ⟨Or.inl ⟨rfl, rfl⟩, fun _ => Or.inl rfl⟩
  have hinit : bootRun poolFrames bootLayout 14 (.early, bootKernel) =
      some (.ready, readyKernel) := by
    rw [bootRun_eq_processInit, readyKernel_init, Option.map_some]
  have hrun := bootRun_reaches zeroSys.hart.cpu hinit (Or.inl rfl) (by decide +kernel)
  have hstart : Relation.ReflTransGen (SysStep poolFrames bootLayout) zeroSys zeroSys := .refl
  exact ⟨((interrupt_tables_iff hboot hstart .timer).1 (by simp [zeroSys])).mpr hharmless,
    (interrupt_tables_iff hboot hrun .timer).2 rfl⟩

end ChronOS.Idt
