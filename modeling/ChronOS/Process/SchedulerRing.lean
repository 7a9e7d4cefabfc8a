/-
  Process/SchedulerRing.lean --- the process ring over whole runs.

  A run starts with `process_init` and goes on with `schedule`, `make_proc` and
  `make_proc_from_elf` in any order.  Its history records what the statements
  need and the code does not keep: which processes were created, and which frame
  was saved for whom.

  `RingInv` is the invariant: the links form a ring of the created processes, the
  current process is on it, and every process that is not current holds the
  context it will be resumed with.
-/
import ChronOS.Foundation.Ring
import ChronOS.Process.Process

set_option autoImplicit false

namespace ChronOS.Proc

open ChronOS.Foundation ChronOS.Ds ChronOS.Utils ChronOS.Mm ChronOS.Loader

variable {σ : Type}

/-! ## What the constructors do to the process structures -/

/-- The registers a new process starts with. -/
def initialRegs (rip stack : Word) : Regs :=
  { Regs.zero with
    rflags := 0x202, rip, cs := 0x08, rsp := stack + 0x1000#64, rbp := stack + 0x1000#64 }

/-- `p` was created, with entry point `rip`, and linked behind the queue; no other process
structure and neither of the two pointers changed. -/
structure Created (k k' : Kernel σ) (p rip : Word) : Prop where
  queue : k'.procQueue = k.procQueue
  cur : k'.curProc = k.curProc
  link : k'.procs k.procQueue = { k.procs k.procQueue with next := p }
  next : k'.next p = k.next k.procQueue
  regs : (k'.procs p).regs = initialRegs rip (k'.procs p).stack
  others : ∀ q, q ≠ p → q ≠ k.procQueue → k'.procs q = k.procs q

section Creation

variable {src : FrameSource σ} {layout : Layout} {k k' k'' : Kernel σ} {p : Word}

/-- A stretch of a constructor: of the process structures only the one at `p` changes, its
link excepted, and the globals that select processes and tables stay. -/
structure Builds (p : Word) (k k' : Kernel σ) : Prop where
  queue : k'.procQueue = k.procQueue
  cur : k'.curProc = k.curProc
  pml4 : k'.pml4 = k.pml4
  cr3 : k'.cr3 = k.cr3
  next : (k'.procs p).next = (k.procs p).next
  others : ∀ q, q ≠ p → k'.procs q = k.procs q

/-- The register image and the stack of the process at `p` stay as well. -/
structure Prepares (p : Word) (k k' : Kernel σ) : Prop extends Builds p k k' where
  regs : (k'.procs p).regs = (k.procs p).regs
  stack : (k'.procs p).stack = (k.procs p).stack

theorem Builds.trans (h : Builds p k k') (h' : Builds p k' k'') : Builds p k k'' where
  queue := h'.queue.trans h.queue
  cur := h'.cur.trans h.cur
  pml4 := h'.pml4.trans h.pml4
  cr3 := h'.cr3.trans h.cr3
  next := h'.next.trans h.next
  others q hq := (h'.others q hq).trans (h.others q hq)

theorem Prepares.trans (h : Prepares p k k') (h' : Prepares p k' k'') : Prepares p k k'' where
  toBuilds := h.toBuilds.trans h'.toBuilds
  regs := h'.regs.trans h.regs
  stack := h'.stack.trans h.stack

@[simp] theorem modify_procs_self (k : Kernel σ) (p : Word) (f : Process → Process) :
    (k.modify p f).procs p = f (k.procs p) := Function.update_self ..

theorem modify_procs_of_ne (k : Kernel σ) {p q : Word} (f : Process → Process) (h : q ≠ p) :
    (k.modify p f).procs q = k.procs q := Function.update_of_ne h ..

theorem modify_builds (k : Kernel σ) (p : Word) {f : Process → Process}
    (hf : ∀ proc, (f proc).next = proc.next) : Builds p k (k.modify p f) where
  queue := rfl
  cur := rfl
  pml4 := rfl
  cr3 := rfl
  next := by rw [modify_procs_self, hf]
  others q hq := modify_procs_of_ne k f hq

theorem modify_prepares (k : Kernel σ) (p : Word) {f : Process → Process}
    (hf : ∀ proc, (f proc).next = proc.next ∧ (f proc).regs = proc.regs ∧
      (f proc).stack = proc.stack) : Prepares p k (k.modify p f) where
  toBuilds := modify_builds k p fun proc => (hf proc).1
  regs := by rw [modify_procs_self, (hf (k.procs p)).2.1]
  stack := by rw [modify_procs_self, (hf (k.procs p)).2.2]

/-- A stretch that begins with a write to the new structure. -/
theorem Builds.after_modify {f : Process → Process} (h : Builds p (k.modify p f) k')
    (hf : ∀ proc, (f proc).next = proc.next) : Builds p k k' :=
  (modify_builds k p hf).trans h

/-- Memory, bitmaps and the pid counter are no part of the process structures. -/
theorem prepares_rest (p : Word) (k : Kernel σ) (machine : Machine σ) (bitmaps : Word → Bitmap)
    (numPids : BitVec 32) : Prepares p k { k with machine, bitmaps, numPids } :=
  ⟨⟨rfl, rfl, rfl, rfl, rfl, fun _ _ => rfl⟩, rfl, rfl⟩

theorem getpage_prepares {page : Word} (p : Word) (h : k.getpage src = some (page, k')) :
    Prepares p k k' := by
  simp only [Kernel.getpage, Option.map_eq_some_iff] at h
  obtain ⟨⟨page, pmm, mem⟩, -, heq⟩ := h
  obtain ⟨-, rfl⟩ := Prod.ext_iff.mp heq
  exact prepares_rest p k _ _ _

theorem newStack_builds (h : newStack src p k = some k') :
    Builds p k k' ∧ (k'.procs p).regs = { (k.procs p).regs with
      rsp := (k'.procs p).stack + 0x1000#64, rbp := (k'.procs p).stack + 0x1000#64 } := by
  simp only [newStack, Option.bind_eq_bind, Option.bind_eq_some_iff] at h
  obtain ⟨⟨stack, k₁⟩, hpage, heq⟩ := h
  have hprep := getpage_prepares p hpage
  cases heq
  refine ⟨hprep.toBuilds.trans (modify_builds k₁ p fun _ => rfl), ?_⟩
  rw [modify_procs_self, hprep.regs]

theorem newPageTable_prepares (h : newPageTable src layout p k = some k') :
    Prepares p k k' := by
  simp only [newPageTable, Option.bind_eq_bind, Option.bind_eq_some_iff] at h
  obtain ⟨⟨pml4, machine⟩, -, heq⟩ := h
  cases heq
  exact (prepares_rest p k machine _ _).trans (modify_prepares _ p fun _ => ⟨rfl, rfl, rfl⟩)

theorem newPid_prepares (p : Word) (k : Kernel σ) : Prepares p k (newPid p k) :=
  (prepares_rest p k _ _ _).trans (modify_prepares _ p fun _ => ⟨rfl, rfl, rfl⟩)

theorem newBitmap_prepares (h : newBitmap src p k = some k') : Prepares p k k' := by
  simp only [newBitmap, Option.bind_eq_bind, Option.bind_eq_some_iff] at h
  obtain ⟨⟨page, k₁⟩, hpage, heq⟩ := h
  cases heq
  exact (getpage_prepares p hpage).trans (prepares_rest p k₁ _ _ _)

theorem clearFxsave_prepares (p : Word) (k : Kernel σ) : Prepares p k (clearFxsave p k) :=
  modify_prepares k p fun _ => ⟨rfl, rfl, rfl⟩

/-- Linking a process that was built turns it into a created one. -/
theorem Builds.created {rip : Word} (h : Builds p k k') (hp : p ≠ k.procQueue)
    (hregs : (k'.procs p).regs = initialRegs rip (k'.procs p).stack) :
    Created k (linkProc p k') p rip := by
  have hne : k.procQueue ≠ p := Ne.symm hp
  have hqueue := h.others k.procQueue hne
  constructor
  case others =>
    intro q hq hq'
    simp [linkProc, Kernel.modify, h.queue, hq, hq', h.others q hq]
  all_goals simp_all [linkProc, Kernel.modify, Kernel.next, h.queue, h.cur]

theorem linkProc_next (p : Word) (k : Kernel σ) : (linkProc p k).next k.procQueue = p := by
  simp [linkProc, Kernel.next, Kernel.modify]

/-- Both constructors build a structure and then link it. -/
def Constructs (rip : Word) (k k' : Kernel σ) : Prop :=
  ∃ p built, Builds p k built ∧ (built.procs p).regs = initialRegs rip (built.procs p).stack ∧
    k' = linkProc p built

theorem Constructs.queue {rip : Word} (h : Constructs rip k k') : k'.procQueue = k.procQueue := by
  obtain ⟨p, built, hbuilds, -, rfl⟩ := h
  exact hbuilds.queue

/-- The new process is the one `proc_queue->next` points to afterwards. -/
theorem Constructs.created {rip : Word} (h : Constructs rip k k')
    (hfresh : k'.next k.procQueue ≠ k.procQueue) :
    Created k k' (k'.next k.procQueue) rip := by
  obtain ⟨p, built, hbuilds, hregs, rfl⟩ := h
  have hp := linkProc_next p built
  rw [hbuilds.queue] at hp
  rw [hp] at hfresh ⊢
  exact hbuilds.created hfresh hregs

theorem makeProc_constructs {entry : Word} (h : makeProc src layout entry k = some k') :
    Constructs entry k k' := by
  simp only [makeProc, Option.bind_eq_bind, Option.bind_eq_some_iff] at h
  obtain ⟨⟨p, k₁⟩, hpage, k₂, hstack, k₃, htable, k₄, hbitmap, heq⟩ := h
  obtain ⟨hbuilds, hregs⟩ := newStack_builds hstack
  have hrest := ((newPageTable_prepares htable).trans (newPid_prepares p k₃)).trans
    ((newBitmap_prepares hbitmap).trans (clearFxsave_prepares p k₄))
  have hall := (getpage_prepares p hpage).toBuilds.trans
    ((hbuilds.trans hrest.toBuilds).after_modify fun _ => rfl)
  refine ⟨p, _, hall, ?_, (Option.some.inj heq).symm⟩
  rw [hrest.regs, hrest.stack, hregs, modify_procs_self]
  rfl

theorem makeProcFromElf_constructs {elfData : Word}
    (h : makeProcFromElf src layout elfData k = some k') : ∃ rip, Constructs rip k k' := by
  simp only [makeProcFromElf, Option.bind_eq_bind, Option.bind_eq_some_iff] at h
  obtain ⟨⟨p, k₁⟩, hpage, k₂, hstack, k₃, htable, m₄, hmap, ⟨prog, m₅⟩, helf, k₄, hbitmap, heq⟩ := h
  obtain ⟨hbuilds, hregs⟩ := newStack_builds hstack
  have htab := newPageTable_prepares htable
  have hlast := (newPid_prepares p _).trans
    ((clearFxsave_prepares p _).trans (newBitmap_prepares hbitmap))
  have hprog := (prepares_rest p k₃ m₅ k₃.bitmaps k₃.numPids).toBuilds.trans
    (hlast.toBuilds.after_modify fun _ => rfl)
  have hall := (getpage_prepares p hpage).toBuilds.trans
    (((hbuilds.trans htab.toBuilds).trans hprog).after_modify fun _ => rfl)
  refine ⟨programEntry m₅.mem prog, p, k₄, hall, ?_, (Option.some.inj heq).symm⟩
  rw [hlast.regs, hlast.stack, modify_procs_self]
  dsimp only
  rw [htab.regs, htab.stack, hregs, modify_procs_self]
  rfl

/-- `process_init` makes a ring of one process and adds the idle process to it. -/
theorem processInit_inv (h : processInit src layout k = some k') :
    ∃ ring : Kernel σ, ring.curProc = ring.procQueue ∧ ring.next ring.procQueue = ring.procQueue ∧
      Constructs layout.idle ring k' := by
  simp only [processInit, Option.bind_eq_bind, Option.bind_eq_some_iff] at h
  obtain ⟨⟨page, k₁⟩, -, hmake⟩ := h
  refine ⟨_, ?_, ?_, makeProc_constructs hmake⟩
  · rfl
  · rw [Kernel.next]
    simp [Kernel.modify, newPid]

end Creation

/-! ## What `schedule` does to the process structures -/

/-- The switch from the current process to its successor. -/
structure Switched (frame : Regs) (k : Kernel σ) (frame' : Regs) (k' : Kernel σ) : Prop where
  queue : k'.procQueue = k.procQueue
  cur : k'.curProc = k.next k.curProc
  next : k'.next = k.next
  saved : (k'.procs k.curProc).regs = frame
  others : ∀ q, q ≠ k.curProc → (k'.procs q).regs = (k.procs q).regs
  loaded : frame' = (k'.procs k'.curProc).regs
  pml4 : k'.pml4 = k.pml4
  cr3 : k'.cr3 = k.cr3
  tables : ∀ q, (k'.procs q).pml4 = (k.procs q).pml4

theorem schedule_switched {k : Kernel σ} (frame : Regs) (hqueue : k.procQueue ≠ 0)
    (hcur : k.curProc ≠ 0) (hnext : k.next k.curProc ≠ 0) :
    Switched frame k (schedule frame k).1 (schedule frame k).2 := by
  have hnext' : (k.procs k.curProc).next ≠ 0 := hnext
  unfold schedule
  rw [if_neg hqueue, if_neg hcur, if_neg hnext']
  constructor
  case next =>
    funext q
    by_cases hq : q = k.curProc
    · subst hq
      simp [Kernel.next, Kernel.modify]
    · simp [Kernel.next, Kernel.modify, hq]
  case tables =>
    intro q
    by_cases hq : q = k.curProc
    · subst hq
      simp [Kernel.modify]
    · simp [Kernel.modify, hq]
  case others =>
    intro q hq
    simp [Kernel.modify, hq]
  all_goals simp [Kernel.next, Kernel.modify, copyRegs]

/-- The early returns of `schedule`. -/
theorem schedule_of_null {k : Kernel σ} (frame : Regs)
    (hnull : k.procQueue = 0 ∨ k.curProc = 0 ∨ k.next k.curProc = 0) :
    schedule frame k = (frame, k) := by
  unfold schedule
  split_ifs with hqueue hcur hnext
  · rfl
  · rfl
  · rfl
  · exact absurd hnull (not_or.mpr ⟨hqueue, not_or.mpr ⟨hcur, hnext⟩⟩)

/-! ## Runs -/

/-- What the history of a run records: the process that `process_init` starts with, every
created process with its entry point and stack, and every switch with the two frames. -/
inductive Event
  | boot (p : Word)
  | create (p rip stack : Word)
  | switch (out : Word) (frame : Regs) (sel : Word) (frame' : Regs)

/-- The processes of a history, newest first. -/
def created : List Event → List Word
  | [] => []
  | .boot p :: hist => p :: created hist
  | .create p _ _ :: hist => p :: created hist
  | .switch _ _ _ _ :: hist => created hist

/-- The context `p` has to be resumed with: the frame saved at its last switch-out, or the
registers it was created with. -/
def lastContext : List Event → Word → Option Regs
  | [], _ => none
  | .boot _ :: hist, p => lastContext hist p
  | .create q rip stack :: hist, p =>
      if q = p then some (initialRegs rip stack) else lastContext hist p
  | .switch out frame _ _ :: hist, p => if out = p then some frame else lastContext hist p

/-- The page of a new process is not null and holds no process yet. -/
def Fresh (hist : List Event) (p : Word) : Prop := p ≠ 0 ∧ p ∉ created hist

/-- The event of a call that took `k` to `k'` and created the process now linked behind
the queue. -/
def creation (k k' : Kernel σ) : Event :=
  let p := k'.next k.procQueue
  .create p (k'.procs p).regs.rip (k'.procs p).stack

section Runs

variable (src : FrameSource σ) (layout : Layout)

/-- The runs of the scheduler and the process constructors, with their histories. -/
inductive Run : Kernel σ → List Event → Prop
  | init {k₀ k : Kernel σ} (hinit : processInit src layout k₀ = some k)
      (hqueue : k.procQueue ≠ 0) (hidle : Fresh [.boot k.procQueue] (k.next k.procQueue)) :
      Run k [creation k k, .boot k.procQueue]
  | schedule {k : Kernel σ} {hist : List Event} (frame : Regs) (hrun : Run k hist) :
      Run (schedule frame k).2
        (.switch k.curProc frame (schedule frame k).2.curProc (schedule frame k).1 :: hist)
  | makeProc {k k' : Kernel σ} {hist : List Event} (entry : Word) (hrun : Run k hist)
      (hmake : makeProc src layout entry k = some k')
      (hfresh : Fresh hist (k'.next k.procQueue)) : Run k' (creation k k' :: hist)
  | makeProcFromElf {k k' : Kernel σ} {hist : List Event} (elfData : Word) (hrun : Run k hist)
      (hmake : makeProcFromElf src layout elfData k = some k')
      (hfresh : Fresh hist (k'.next k.procQueue)) : Run k' (creation k k' :: hist)

/-- The processes a sequence of `schedule` calls selects, in order. -/
def selections : List Regs → Kernel σ → List Word
  | [], _ => []
  | frame :: frames, k =>
      (schedule frame k).2.curProc :: selections frames (schedule frame k).2

end Runs

/-! ## The invariant -/

/-- The links form a ring of the processes `procs`, and the current one is among them. -/
structure OnRing (k : Kernel σ) (procs : List Word) : Prop where
  ring : ∃ l, Ring k.next k.procQueue l ∧ (k.procQueue :: l).Perm procs
  cur : k.curProc ∈ procs
  nonnull : ∀ p ∈ procs, p ≠ 0

namespace OnRing

variable {k k' : Kernel σ} {procs : List Word}

theorem queue_mem (h : OnRing k procs) : k.procQueue ∈ procs := by
  obtain ⟨l, -, hperm⟩ := h.ring
  exact hperm.mem_iff.mp List.mem_cons_self

theorem next_mem (h : OnRing k procs) {p : Word} (hp : p ∈ procs) : k.next p ∈ procs := by
  obtain ⟨l, hring, hperm⟩ := h.ring
  exact hperm.mem_iff.mp (hring.next_mem (hperm.mem_iff.mpr hp))

/-- On a ring `schedule` never takes one of its early returns. -/
theorem switched (h : OnRing k procs) (frame : Regs) :
    Switched frame k (schedule frame k).1 (schedule frame k).2 :=
  schedule_switched frame (h.nonnull _ h.queue_mem) (h.nonnull _ h.cur)
    (h.nonnull _ (h.next_mem h.cur))

theorem switch_step {frame frame' : Regs} (h : OnRing k procs)
    (hswitch : Switched frame k frame' k') : OnRing k' procs := by
  refine ⟨?_, ?_, h.nonnull⟩
  · rw [hswitch.next, hswitch.queue]
    exact h.ring
  · rw [hswitch.cur]
    exact h.next_mem h.cur

theorem create_step {p rip : Word} (h : OnRing k procs) (hnonnull : p ≠ 0) (hnew : p ∉ procs)
    (hcreated : Created k k' p rip) : OnRing k' (p :: procs) := by
  obtain ⟨l, hring, hperm⟩ := h.ring
  refine ⟨⟨p :: l, ?_, ?_⟩, ?_, ?_⟩
  · have hlink : k'.next k.procQueue = p := by rw [Kernel.next, hcreated.link]
    rw [hcreated.queue]
    refine hring.insert (fun hmem => hnew (hperm.mem_iff.mp hmem)) hcreated.next hlink ?_
    intro a ha
    have hapart : a ≠ k.procQueue := fun heq =>
      (List.nodup_cons.mp hring.nodup).1 (heq ▸ ha)
    have hold : a ≠ p := fun heq =>
      hnew (hperm.mem_iff.mp (heq ▸ List.mem_cons_of_mem _ ha))
    exact congrArg Process.next (hcreated.others a hold hapart)
  · rw [hcreated.queue]
    exact (List.Perm.swap _ _ _).trans (hperm.cons _)
  · rw [hcreated.cur]
    exact List.mem_cons_of_mem _ h.cur
  · intro q hq
    rcases List.mem_cons.mp hq with rfl | hq
    · exact hnonnull
    · exact h.nonnull q hq

end OnRing

/-- Beyond the ring, every process that is not current holds the context it has to be
resumed with. -/
structure RingInv (k : Kernel σ) (hist : List Event) : Prop extends OnRing k (created hist) where
  contexts : ∀ p ∈ created hist, p ≠ k.curProc → lastContext hist p = some (k.procs p).regs

namespace RingInv

variable {src : FrameSource σ} {layout : Layout} {k k' : Kernel σ} {hist : List Event}

/-- The frame `schedule` leaves is the context of the process it selects. -/
theorem loaded (h : RingInv k hist) (frame : Regs) (sel : Word) (frame' : Regs) :
    lastContext (.switch k.curProc frame sel frame' :: hist) (schedule frame k).2.curProc =
      some (schedule frame k).1 := by
  have hswitch := h.switched frame
  have hmem := h.next_mem h.cur
  rw [hswitch.loaded, hswitch.cur, lastContext]
  by_cases hself : k.curProc = k.next k.curProc
  · rw [if_pos hself, ← hself, hswitch.saved]
  · rw [if_neg hself, h.contexts _ hmem (Ne.symm hself), hswitch.others _ (Ne.symm hself)]

theorem schedule_step (h : RingInv k hist) (frame : Regs) (sel : Word) (frame' : Regs) :
    RingInv (schedule frame k).2 (.switch k.curProc frame sel frame' :: hist) := by
  have hswitch := h.switched frame
  refine ⟨h.toOnRing.switch_step hswitch, ?_⟩
  intro p hp _
  rw [lastContext]
  by_cases hout : k.curProc = p
  · rw [if_pos hout, ← hout, hswitch.saved]
  · rw [if_neg hout, hswitch.others p (Ne.symm hout)]
    exact h.contexts p hp (Ne.symm hout)

theorem construct_step {rip : Word} (h : RingInv k hist)
    (hfresh : Fresh hist (k'.next k.procQueue)) (hmake : Constructs rip k k') :
    RingInv k' (creation k k' :: hist) := by
  have hcreated := hmake.created fun heq => hfresh.2 (heq.symm ▸ h.queue_mem)
  have hregs := hcreated.regs
  have hrip : (k'.procs (k'.next k.procQueue)).regs.rip = rip := by
    rw [hregs]
    rfl
  refine ⟨h.toOnRing.create_step hfresh.1 hfresh.2 hcreated, ?_⟩
  intro p hp hcur
  rw [creation, lastContext]
  by_cases heq : k'.next k.procQueue = p
  · rw [if_pos heq, ← heq, hrip, ← hregs]
  · have hp : p ∈ created hist := (List.mem_cons.mp hp).resolve_left (Ne.symm heq)
    rw [if_neg heq, h.contexts p hp (hcreated.cur ▸ hcur)]
    by_cases hqueue : p = k.procQueue
    · rw [hqueue, hcreated.link]
    · rw [hcreated.others p (Ne.symm heq) hqueue]

theorem init (hinit : processInit src layout k = some k') (hqueue : k'.procQueue ≠ 0)
    (hidle : Fresh [.boot k'.procQueue] (k'.next k'.procQueue)) :
    RingInv k' [creation k' k', .boot k'.procQueue] := by
  obtain ⟨ring, hcur, hself, hmake⟩ := processInit_inv hinit
  have hsame := hmake.queue
  have hring : RingInv ring [.boot ring.procQueue] := by
    refine ⟨⟨⟨[], ⟨hself, List.nodup_singleton _⟩, List.Perm.refl _⟩, ?_, ?_⟩, ?_⟩
    · simp [created, hcur]
    · simpa [created, hsame] using hqueue
    · simp [created, hcur]
  have hevent : creation k' k' = creation ring k' := by simp only [creation, hsame]
  rw [hsame] at hidle
  rw [hevent, hsame]
  exact hring.construct_step hidle hmake

theorem of_run (hrun : Run src layout k hist) : RingInv k hist := by
  induction hrun with
  | init hinit hqueue hidle => exact RingInv.init hinit hqueue hidle
  | schedule frame _ ih => exact ih.schedule_step frame _ _
  | makeProc entry _ hmake hfresh ih => exact ih.construct_step hfresh (makeProc_constructs hmake)
  | makeProcFromElf elfData _ hmake hfresh ih =>
    obtain ⟨rip, hconstructs⟩ := makeProcFromElf_constructs hmake
    exact ih.construct_step hfresh hconstructs

theorem selections_eq (h : RingInv k hist) (frames : List Regs) :
    selections frames k = successors k.next k.curProc frames.length := by
  induction frames generalizing k hist with
  | nil => rfl
  | cons frame frames ih =>
    have hswitch := h.switched frame
    rw [selections, ih (h.schedule_step frame 0 frame), List.length_cons, successors,
      hswitch.next, hswitch.cur]

end RingInv

/-! ## The part of the kernel state that scheduling depends on -/

/-- `k'` differs from `k` at most in memory, bitmaps, the pid counter and the active table. -/
def SameProcs (k k' : Kernel σ) : Prop :=
  ∃ machine bitmaps numPids pml4 cr3, k' = { k with machine, bitmaps, numPids, pml4, cr3 }

namespace SameProcs

variable {k k' k'' : Kernel σ}

theorem trans (h : SameProcs k k') (h' : SameProcs k' k'') : SameProcs k k'' := by
  obtain ⟨_, _, _, _, _, rfl⟩ := h
  obtain ⟨_, _, _, _, _, rfl⟩ := h'
  exact ⟨_, _, _, _, _, rfl⟩

theorem toKernel (k : Kernel σ) : SameProcs k (processSetPml4ToKernel k) := by
  unfold processSetPml4ToKernel
  split_ifs
  · exact ⟨_, _, _, _, _, rfl⟩
  · exact ⟨_, _, _, _, _, rfl⟩

theorem toCurProc (k : Kernel σ) : SameProcs k (processSetPml4ToCurProc k) := by
  unfold processSetPml4ToCurProc
  split_ifs
  · exact ⟨_, _, _, _, _, rfl⟩
  · exact ⟨_, _, _, _, _, rfl⟩

/-- `schedule` does not look at the rest of the state and keeps the memory. -/
theorem schedule (h : SameProcs k k') (frame : Regs) :
    (schedule frame k').1 = (schedule frame k).1 ∧
      SameProcs (schedule frame k).2 (schedule frame k').2 ∧
      (Proc.schedule frame k').2.machine = k'.machine := by
  obtain ⟨machine, bitmaps, numPids, pml4, cr3, rfl⟩ := h
  unfold Proc.schedule
  dsimp only
  split_ifs
  all_goals exact ⟨rfl, ⟨machine, bitmaps, numPids, pml4, cr3, rfl⟩, rfl⟩

theorem onRing {procs : List Word} (h : SameProcs k k') (hring : OnRing k procs) :
    OnRing k' procs := by
  obtain ⟨_, _, _, _, _, rfl⟩ := h
  exact ⟨hring.ring, hring.cur, hring.nonnull⟩

end SameProcs

/-! ## The scheduler over whole runs -/

section Main

variable {src : FrameSource σ} {layout : Layout}

/-- In every run the created processes form one ring with the current process on it, as many
`schedule` calls as there are processes select each of them once, and the frame `schedule`
leaves is the context last saved for the process it selects. -/
theorem scheduler_ring_and_contexts {k : Kernel σ} {hist : List Event}
    (hrun : Run src layout k hist) :
    (∃ l, Ring k.next k.procQueue l ∧ (k.procQueue :: l).Perm (created hist) ∧
      k.curProc ∈ k.procQueue :: l) ∧
    (∀ frames : List Regs, frames.length = (created hist).length →
      ∃ l, selections frames k = l ++ [k.curProc] ∧ (l ++ [k.curProc]).Perm (created hist) ∧
        (l ++ [k.curProc]).Nodup) ∧
    (∀ frame : Regs,
      lastContext (.switch k.curProc frame (schedule frame k).2.curProc (schedule frame k).1 :: hist)
        (schedule frame k).2.curProc = some (schedule frame k).1) := by
  have hinv := RingInv.of_run hrun
  obtain ⟨l, hring, hperm⟩ := hinv.ring
  have hcur : k.curProc ∈ k.procQueue :: l := hperm.mem_iff.mpr hinv.cur
  refine ⟨⟨l, hring, hperm, hcur⟩, ?_, ?_⟩
  · intro frames hlen
    obtain ⟨l', hwalk, hperm'⟩ := hring.successors_perm hcur
    have hcount : frames.length = l.length + 1 := by
      rw [hlen, ← hperm.length_eq, List.length_cons]
    refine ⟨l', ?_, hperm'.trans hperm, hperm'.nodup_iff.mpr hring.nodup⟩
    rw [hinv.selections_eq, hcount, hwalk]
  · intro frame
    exact hinv.loaded frame _ _

/-- A kernel that maps nothing into its tables. -/
def bootLayout : Layout := { kernStart := 0, kernEnd := 0 - 0x1000, memSize := 0, idle := 0x5000 }

/-- Pages for two processes, a stack, a table and a bitmap. -/
def bootPool : PagePool where
  pages := [0x100000, 0x101000, 0x102000, 0x103000, 0x104000]
  nodup := by decide
  frame := by simp [FrameAddress, PageAligned]

/-- No process yet, and process structures of zeros. -/
def bootKernel : Kernel PagePool where
  machine := { mem := fun _ => 0, pmm := bootPool }
  procs _ := ⟨Regs.zero, 0, 0, 0, 0, none, 0, fun _ => 0, 0⟩
  bitmaps _ := ⟨0, 0⟩
  procQueue := 0
  curProc := 0
  numPids := 0
  fpu := 0
  pml4 := 0x1000
  cr3 := 0x1000

/-- The kernel after `process_init`. -/
def readyKernel : Kernel PagePool := (processInit poolFrames bootLayout bootKernel).getD bootKernel

theorem readyKernel_init : processInit poolFrames bootLayout bootKernel = some readyKernel := by
  have hsome : (processInit poolFrames bootLayout bootKernel).isSome = true := by decide +kernel
  exact (Option.some_get hsome).symm.trans (congrArg some (Option.get_eq_getD _))

/-- After `process_init` the ring is made of the two processes it created. -/
theorem readyKernel_ring_and_contexts :
    Run poolFrames bootLayout readyKernel
      [creation readyKernel readyKernel, .boot readyKernel.procQueue] ∧
    ∃ l, Ring readyKernel.next readyKernel.procQueue l ∧
      (readyKernel.procQueue :: l).Perm [0x101000, 0x100000] := by
  have hrun : Run poolFrames bootLayout readyKernel
      [creation readyKernel readyKernel, .boot readyKernel.procQueue] :=
    .init readyKernel_init (by decide +kernel) ⟨by decide +kernel, by decide +kernel⟩
  have hcreated : created [creation readyKernel readyKernel, .boot readyKernel.procQueue] =
      [0x101000, 0x100000] := by decide +kernel
  obtain ⟨⟨l, hring, hperm, -⟩, -, -⟩ := scheduler_ring_and_contexts hrun
  exact ⟨hrun, l, hring, hcreated ▸ hperm⟩

end Main

end ChronOS.Proc
