/-
  Idt/TimerStack.lean --- which stack a preempted process resumes on.

  `schedule` exchanges the nineteen words of the `regs_t`, but the stack pointer
  that `iretq` loads is a twentieth word, behind them.  So the timer interrupt
  exchanges every register of the two processes except the stack pointer
  (`timerIrq_cpu`), and the process that is resumed runs on the stack of the one
  that was interrupted.
-/
import ChronOS.Idt.Interrupts
import ChronOS.Process.SchedulerRing

set_option autoImplicit false

namespace ChronOS.Idt

open ChronOS.Foundation ChronOS.Utils ChronOS.Mm ChronOS.Loader ChronOS.Proc

variable {σ : Type}

/-! ## The timer interrupt -/

/-- The registers after the timer interrupt: the context of the process that was selected,
but the stack pointer and stack segment of the process that was interrupted. -/
theorem timerIrq_cpu (h : Hart σ) :
    (timerIrq h).cpu =
      { regs := { (schedule (frameRegs h.cpu.regs) h.kernel).1 with rsp := h.cpu.regs.rsp }
        ss := h.cpu.ss } := by
  have henter := stubEnter_entered h
  obtain ⟨hframe, -, hmachine⟩ := henter.same.schedule (frameRegs h.cpu.regs)
  rw [timerIrq, stub, stubLeave_cpu, timerHandler_eq henter.regs, setMem, hframe, hmachine,
    loadRegs_storeRegs, wordAt_storeRegs (by decide) (by decide),
    wordAt_storeRegs (by decide) (by decide), henter.rsp, henter.ss]

/-- The processes after the timer interrupt are those after `schedule`. -/
theorem timerIrq_kernel (h : Hart σ) :
    SameProcs (schedule (frameRegs h.cpu.regs) h.kernel).2 (timerIrq h).kernel := by
  have henter := stubEnter_entered h
  obtain ⟨-, hkernel, -⟩ := henter.same.schedule (frameRegs h.cpu.regs)
  have hleave : (timerIrq h).kernel =
      processSetPml4ToCurProc (timerHandler (stubEnter h).1 (stubEnter h).2) := rfl
  rw [hleave, timerHandler_eq henter.regs]
  exact (hkernel.trans (sameProcs_setMem _ _)).trans (SameProcs.toCurProc _)

/-! ## Runs -/

/-- What a run records: the first process, every created process with its stack, and every
timer interrupt with the process that was interrupted, its stack pointer, the process that
was resumed and the stack pointer it was resumed with. -/
inductive Tick
  | boot (p : Word)
  | create (p stack : Word)
  | timer (out rsp sel rsp' : Word)

/-- The processes of a record, newest first. -/
def procsOf : List Tick → List Word
  | [] => []
  | .boot p :: ticks => p :: procsOf ticks
  | .create p _ :: ticks => p :: procsOf ticks
  | .timer _ _ _ _ :: ticks => procsOf ticks

/-- The stack pointer `p` has to be resumed with: that of its last interruption, or the end of
its stack if it never ran. -/
def lastRsp : List Tick → Word → Option Word
  | [], _ => none
  | .boot _ :: ticks, p => lastRsp ticks p
  | .create q stack :: ticks, p => if q = p then some (stack + 0x1000#64) else lastRsp ticks p
  | .timer out rsp _ _ :: ticks, p => if out = p then some rsp else lastRsp ticks p

/-- The record of a call that took `k` to `k'` and created the process now linked behind the
queue. -/
def createTick (k k' : Kernel σ) : Tick :=
  .create (k'.next k.procQueue) (k'.procs (k'.next k.procQueue)).stack

/-- The record of a timer interrupt. -/
def timerTick (h : Hart σ) : Tick :=
  .timer h.kernel.curProc h.cpu.regs.rsp (timerIrq h).kernel.curProc (timerIrq h).cpu.regs.rsp

/-- Runs of the machine: they start with one process in the ring, as `process_init` leaves it
before it creates the idle process; between interrupts the current process changes registers
and memory as it likes. -/
inductive TimerRun (src : FrameSource σ) (layout : Layout) : Hart σ → List Tick → Prop
  | start {h : Hart σ} (hqueue : h.kernel.procQueue ≠ 0)
      (hcur : h.kernel.curProc = h.kernel.procQueue)
      (hself : h.kernel.next h.kernel.procQueue = h.kernel.procQueue) :
      TimerRun src layout h [.boot h.kernel.procQueue]
  | exec {h : Hart σ} {ticks : List Tick} (cpu : Cpu) (machine : Machine σ) (fpu : BitVec 4096)
      (hrun : TimerRun src layout h ticks) :
      TimerRun src layout ⟨cpu, { h.kernel with machine, fpu }⟩ ticks
  | makeProc {h : Hart σ} {k : Kernel σ} {ticks : List Tick} (entry : Word)
      (hrun : TimerRun src layout h ticks) (hmake : makeProc src layout entry h.kernel = some k)
      (hnonnull : k.next h.kernel.procQueue ≠ 0)
      (hnew : k.next h.kernel.procQueue ∉ procsOf ticks) :
      TimerRun src layout ⟨h.cpu, k⟩ (createTick h.kernel k :: ticks)
  | makeProcFromElf {h : Hart σ} {k : Kernel σ} {ticks : List Tick} (elfData : Word)
      (hrun : TimerRun src layout h ticks)
      (hmake : makeProcFromElf src layout elfData h.kernel = some k)
      (hnonnull : k.next h.kernel.procQueue ≠ 0)
      (hnew : k.next h.kernel.procQueue ∉ procsOf ticks) :
      TimerRun src layout ⟨h.cpu, k⟩ (createTick h.kernel k :: ticks)
  | timer {h : Hart σ} {ticks : List Tick} (hrun : TimerRun src layout h ticks) :
      TimerRun src layout (timerIrq h) (timerTick h :: ticks)

/-- Every process is resumed with the stack pointer it was last interrupted with, or with the
end of its stack. -/
def OwnStacks (ticks : List Tick) : Prop :=
  ∀ out rsp sel rsp' earlier, .timer out rsp sel rsp' :: earlier <:+ ticks →
    lastRsp (.timer out rsp sel rsp' :: earlier) sel = some rsp'

/-- `p` was interrupted or resumed with the stack pointer `rsp`. -/
def Executes (ticks : List Tick) (p rsp : Word) : Prop :=
  (∃ sel rsp', .timer p rsp sel rsp' ∈ ticks) ∨ ∃ out rsp₀, .timer out rsp₀ p rsp ∈ ticks

/-- No two processes execute on the same stack. -/
def NoSharedStack (ticks : List Tick) : Prop :=
  ∀ p q rsp, Executes ticks p rsp → Executes ticks q rsp → p = q

/-- Every timer interrupt came while the ring had one process only. -/
def OneProcess (ticks : List Tick) : Prop :=
  ∀ out rsp sel rsp' earlier, .timer out rsp sel rsp' :: earlier <:+ ticks →
    (procsOf earlier).length = 1

/-- Every interrupted process had the stack pointer its successor has to be resumed with. -/
def MeetsSuccessor (ticks : List Tick) : Prop :=
  ∀ out rsp sel rsp' earlier, .timer out rsp sel rsp' :: earlier <:+ ticks →
    lastRsp (.timer out rsp sel rsp' :: earlier) sel = some rsp

/-! ## What every run does -/

section Law

variable {src : FrameSource σ} {layout : Layout} {h : Hart σ} {ticks : List Tick}

theorem onRing_create {k k' : Kernel σ} {rip : Word} {procs : List Word} (hring : OnRing k procs)
    (hmake : Constructs rip k k') (hnonnull : k'.next k.procQueue ≠ 0)
    (hnew : k'.next k.procQueue ∉ procs) : OnRing k' (k'.next k.procQueue :: procs) :=
  hring.create_step hnonnull hnew
    (hmake.created fun heq => hnew (heq.symm ▸ hring.queue_mem))

theorem TimerRun.onRing (hrun : TimerRun src layout h ticks) :
    OnRing h.kernel (procsOf ticks) := by
  induction hrun with
  | start hqueue hcur hself =>
    refine ⟨⟨[], ⟨hself, List.nodup_singleton _⟩, List.Perm.refl _⟩, ?_, ?_⟩
    · simp [procsOf, hcur]
    · simpa [procsOf] using hqueue
  | exec cpu machine fpu _ ih => exact ⟨ih.ring, ih.cur, ih.nonnull⟩
  | makeProc entry _ hmake hnonnull hnew ih =>
    exact onRing_create ih (makeProc_constructs hmake) hnonnull hnew
  | makeProcFromElf elfData _ hmake hnonnull hnew ih =>
    obtain ⟨rip, hconstructs⟩ := makeProcFromElf_constructs hmake
    exact onRing_create ih hconstructs hnonnull hnew
  | @timer h ticks _ ih =>
    exact (timerIrq_kernel h).onRing (ih.switch_step (ih.switched (frameRegs h.cpu.regs)))

/-- What a timer interrupt records: the stack pointer is not exchanged, and the process
changes unless it is the only one. -/
structure TickLaw (out rsp sel rsp' : Word) (earlier : List Tick) : Prop where
  rsp : rsp' = rsp
  out_mem : out ∈ procsOf earlier
  sel : sel = out ↔ (procsOf earlier).length = 1

theorem timerTick_law (hring : OnRing h.kernel (procsOf ticks)) :
    TickLaw h.kernel.curProc h.cpu.regs.rsp (timerIrq h).kernel.curProc
      (timerIrq h).cpu.regs.rsp ticks := by
  have hswitch := hring.switched (frameRegs h.cpu.regs)
  have hcur : (timerIrq h).kernel.curProc = h.kernel.next h.kernel.curProc := by
    obtain ⟨_, _, _, _, _, heq⟩ := timerIrq_kernel h
    rw [heq, ← hswitch.cur]
  obtain ⟨l, hl, hperm⟩ := hring.ring
  refine ⟨?_, hring.cur, ?_⟩
  · rw [timerIrq_cpu]
  · rw [hcur, hl.next_eq_self_iff (hperm.mem_iff.mpr hring.cur), ← hperm.length_eq]
    simp

theorem TimerRun.law (hrun : TimerRun src layout h ticks) {out rsp sel rsp' : Word}
    {earlier : List Tick} (hsuffix : .timer out rsp sel rsp' :: earlier <:+ ticks) :
    TickLaw out rsp sel rsp' earlier := by
  induction hrun with
  | start hqueue hcur hself => simp [List.suffix_cons_iff] at hsuffix
  | exec cpu machine fpu _ ih => exact ih hsuffix
  | makeProc entry _ hmake hnonnull hnew ih =>
    rcases List.suffix_cons_iff.mp hsuffix with heq | hsuffix
    · simp [createTick] at heq
    · exact ih hsuffix
  | makeProcFromElf elfData _ hmake hnonnull hnew ih =>
    rcases List.suffix_cons_iff.mp hsuffix with heq | hsuffix
    · simp [createTick] at heq
    · exact ih hsuffix
  | timer hrun ih =>
    rcases List.suffix_cons_iff.mp hsuffix with heq | hsuffix
    · simp only [timerTick, List.cons.injEq, Tick.timer.injEq] at heq
      obtain ⟨⟨rfl, rfl, rfl, rfl⟩, rfl⟩ := heq
      exact timerTick_law hrun.onRing
    · exact ih hsuffix

theorem procsOf_suffix {earlier : List Tick} (h : earlier <:+ ticks) :
    procsOf earlier <:+ procsOf ticks := by
  induction ticks with
  | nil =>
    rw [List.suffix_nil.mp h]
  | cons tick ticks ih =>
    rcases List.suffix_cons_iff.mp h with rfl | h
    · exact List.suffix_rfl
    · refine (ih h).trans ?_
      cases tick with
      | boot p => exact List.suffix_cons p _
      | create p stack => exact List.suffix_cons p _
      | timer out rsp sel rsp' => exact List.suffix_rfl

theorem OneProcess.ownStacks (hone : OneProcess ticks) (hrun : TimerRun src layout h ticks) :
    OwnStacks ticks := by
  intro out rsp sel rsp' earlier hsuffix
  have hlaw := hrun.law hsuffix
  rw [lastRsp, if_pos (hlaw.sel.mpr (hone _ _ _ _ _ hsuffix)).symm, hlaw.rsp]

/-- With one process at every interrupt, whoever executes is that process. -/
theorem OneProcess.executes (hone : OneProcess ticks) (hrun : TimerRun src layout h ticks)
    {p rsp : Word} (hexec : Executes ticks p rsp) :
    ∃ earlier, earlier <:+ ticks ∧ procsOf earlier = [p] := by
  have htick : ∃ out rsp sel rsp', .timer out rsp sel rsp' ∈ ticks ∧ (p = out ∨ p = sel) := by
    rcases hexec with ⟨sel, rsp', hmem⟩ | ⟨out, rsp₀, hmem⟩
    · exact ⟨p, rsp, sel, rsp', hmem, Or.inl rfl⟩
    · exact ⟨out, rsp₀, p, rsp, hmem, Or.inr rfl⟩
  obtain ⟨out, rsp, sel, rsp', hmem, hp⟩ := htick
  obtain ⟨later, earlier, rfl⟩ := List.append_of_mem hmem
  have hsuffix : .timer out rsp sel rsp' :: earlier <:+
      later ++ .timer out rsp sel rsp' :: earlier :=
    List.suffix_append _ _
  have hlaw := hrun.law hsuffix
  have hlen := hone _ _ _ _ _ hsuffix
  have hpout : p = out := hp.elim id fun heq => heq.trans (hlaw.sel.mpr hlen)
  obtain ⟨q, hq⟩ := List.length_eq_one_iff.mp hlen
  have hout : out = q := by simpa [hq] using hlaw.out_mem
  exact ⟨earlier, (List.suffix_cons _ _).trans hsuffix, by rw [hq, hpout, hout]⟩

theorem OneProcess.noSharedStack (hone : OneProcess ticks)
    (hrun : TimerRun src layout h ticks) : NoSharedStack ticks := by
  intro p q rsp hp hq
  obtain ⟨before, hbefore, hprocs⟩ := hone.executes hrun hp
  obtain ⟨before', hbefore', hprocs'⟩ := hone.executes hrun hq
  rcases List.suffix_or_suffix_of_suffix hbefore hbefore' with hle | hle
  · have hsuffix := procsOf_suffix hle
    rw [hprocs, hprocs'] at hsuffix
    simpa using hsuffix.eq_of_length rfl
  · have hsuffix := procsOf_suffix hle
    rw [hprocs, hprocs'] at hsuffix
    simpa using (hsuffix.eq_of_length rfl).symm

/-- A stack that is never shared forbids every switch between two processes. -/
theorem NoSharedStack.oneProcess (hshared : NoSharedStack ticks)
    (hrun : TimerRun src layout h ticks) : OneProcess ticks := by
  intro out rsp sel rsp' earlier hsuffix
  have hlaw := hrun.law hsuffix
  have hmem : .timer out rsp sel rsp' ∈ ticks := hsuffix.mem List.mem_cons_self
  refine hlaw.sel.mp (hshared sel out rsp (Or.inr ⟨out, rsp, ?_⟩) (Or.inl ⟨sel, rsp', hmem⟩))
  rwa [hlaw.rsp] at hmem

/-- In every run, the processes are resumed on their own stacks exactly when each interrupted
process happened to have the stack pointer of its successor; and they are resumed on their own
stacks without sharing one exactly when every timer interrupt came while the ring had a single
process. -/
theorem resumes_own_stack_iff (hrun : TimerRun src layout h ticks) :
    (OwnStacks ticks ↔ MeetsSuccessor ticks) ∧
      (OwnStacks ticks ∧ NoSharedStack ticks ↔ OneProcess ticks) := by
  refine ⟨⟨?_, ?_⟩, ⟨?_, ?_⟩⟩
  · intro hown out rsp sel rsp' earlier hsuffix
    rw [hown out rsp sel rsp' earlier hsuffix, (hrun.law hsuffix).rsp]
  · intro hmeets out rsp sel rsp' earlier hsuffix
    rw [hmeets out rsp sel rsp' earlier hsuffix, (hrun.law hsuffix).rsp]
  · intro hboth
    exact hboth.2.oneProcess hrun
  · intro hone
    exact ⟨hone.ownStacks hrun, hone.noSharedStack hrun⟩

end Law

/-! ## Two small machines -/

/-- One process at 0x100000, linked to itself, running with the stack pointer 0x7000. -/
def soloHart : Hart PagePool where
  cpu := ⟨{ Regs.zero with rsp := 0x7000 }, 0x10⟩
  kernel := { bootKernel with
    machine := ⟨fun _ => 0, ⟨[0x101000, 0x102000, 0x103000, 0x104000], by decide,
      by simp [FrameAddress, PageAligned]⟩⟩
    procs := fun _ => ⟨Regs.zero, 0x1000, 0, 0, 0, none, 0, fun _ => 0, 0x100000⟩
    procQueue := 0x100000
    curProc := 0x100000 }

theorem soloHart_run : TimerRun poolFrames bootLayout soloHart [.boot 0x100000] :=
  .start (by decide) (by decide) (by decide)

/-- With a single process the timer interrupt resumes it on its own stack. -/
theorem soloHart_resumes_own_stack :
    TimerRun poolFrames bootLayout (timerIrq soloHart) [timerTick soloHart, .boot 0x100000] ∧
      OwnStacks [timerTick soloHart, .boot 0x100000] ∧
      NoSharedStack [timerTick soloHart, .boot 0x100000] := by
  have hrun := soloHart_run.timer
  have hone : OneProcess [timerTick soloHart, .boot 0x100000] := by
    intro out rsp sel rsp' earlier hsuffix
    rcases List.suffix_cons_iff.mp hsuffix with heq | hsuffix
    · rw [(List.cons.inj heq).2]
      rfl
    · simp [List.suffix_cons_iff] at hsuffix
  exact ⟨hrun, (resumes_own_stack_iff hrun).2.mpr hone⟩

/-- The machine after `make_proc` added a second process, with its stack at 0x102000. -/
def duoHart : Hart PagePool where
  cpu := soloHart.cpu
  kernel := (makeProc poolFrames bootLayout 0x5000 soloHart.kernel).getD soloHart.kernel

theorem duoHart_run :
    TimerRun poolFrames bootLayout duoHart [.create 0x101000 0x102000, .boot 0x100000] := by
  have hsome : (makeProc poolFrames bootLayout 0x5000 soloHart.kernel).isSome = true := by
    decide +kernel
  have hmake : makeProc poolFrames bootLayout 0x5000 soloHart.kernel = some duoHart.kernel :=
    (Option.some_get hsome).symm.trans
      (congrArg some (@Option.get_eq_getD _ soloHart.kernel _ hsome))
  have htick : createTick soloHart.kernel duoHart.kernel = .create 0x101000 0x102000 := by
    have hproc : duoHart.kernel.next soloHart.kernel.procQueue = 0x101000 := by decide +kernel
    have hstack : (duoHart.kernel.procs 0x101000).stack = 0x102000 := by decide +kernel
    rw [createTick, hproc, hstack]
  have hrun := soloHart_run.makeProc 0x5000 hmake (by decide +kernel) (by decide +kernel)
  rwa [htick] at hrun

/-- The second process starts on the stack of the first, not on its own. -/
theorem duoHart_shares_stack :
    TimerRun poolFrames bootLayout (timerIrq duoHart)
      [.timer 0x100000 0x7000 0x101000 0x7000, .create 0x101000 0x102000, .boot 0x100000] ∧
    ¬ OwnStacks
      [.timer 0x100000 0x7000 0x101000 0x7000, .create 0x101000 0x102000, .boot 0x100000] ∧
    ¬ NoSharedStack
      [.timer 0x100000 0x7000 0x101000 0x7000, .create 0x101000 0x102000, .boot 0x100000] := by
  refine ⟨?_, ?_, ?_⟩
  · have hsel : (timerIrq duoHart).kernel.curProc = 0x101000 := by decide +kernel
    have hrsp : (timerIrq duoHart).cpu.regs.rsp = 0x7000 := by
      rw [timerIrq_cpu]
      rfl
    have hrun := duoHart_run.timer
    rwa [timerTick, hsel, hrsp] at hrun
  · intro hown
    have hfirst := hown _ _ _ _ _ List.suffix_rfl
    revert hfirst
    decide
  · intro hshared
    have hsame := hshared 0x100000 0x101000 0x7000
      (Or.inl ⟨_, _, List.mem_cons_self⟩) (Or.inr ⟨_, _, List.mem_cons_self⟩)
    revert hsame
    decide

end ChronOS.Idt
