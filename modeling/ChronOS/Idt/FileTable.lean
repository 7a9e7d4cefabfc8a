/-
  Idt/FileTable.lean --- the life of a file descriptor under `open_syscall` and
  `close_syscall`.

  A descriptor is open from the call that returned it to the call that closes it
  (`IsOpen`, read off the calls alone).  The slots of `proc->files` should say the
  same.  They never say less: `open_syscall` takes an empty slot and no call empties
  one.  They say more as soon as `close_syscall` finds a file, because it leaves the
  pointer in its slot.
-/
import ChronOS.Idt.Syscall

set_option autoImplicit false

namespace ChronOS.Idt

open ChronOS.Foundation ChronOS.Utils ChronOS.Mm ChronOS.Proc

variable {σ : Type}

/-! ## The two calls -/

/-- The value that `setRax` stores is the one that the caller finds. -/
theorem loadRegs_setRax (frame v : Word) (k : Kernel σ) :
    (loadRegs (setRax frame v k).machine.mem frame).rax = v :=
  Mem.read64_write64_self _ _ _

theorem setRax_procs (frame v : Word) (k : Kernel σ) : (setRax frame v k).procs = k.procs := rfl

theorem freeSlot_eq (files : Fin MAX_FILES_OPENABLE → Word) :
    freeSlot files = (List.finRange MAX_FILES_OPENABLE).foldl
      (fun x i => if 2 ≤ i.val ∧ files i = 0 then some i else x) none := by
  unfold freeSlot
  congr 1
  funext x i
  by_cases hlow : i.val < 2
  · rw [if_pos hlow, if_neg (fun h => absurd h.1 (Nat.not_le.mpr hlow))]
  · by_cases hfree : files i = 0
    · rw [if_neg hlow, if_neg (not_not.mpr hfree), if_pos ⟨Nat.le_of_not_lt hlow, hfree⟩]
    · rw [if_neg hlow, if_pos hfree, if_neg (fun h => hfree h.2)]

/-- The search finds an empty slot above the two reserved ones, unless there is none. -/
theorem freeSlot_cases (files : Fin MAX_FILES_OPENABLE → Word) :
    (∃ x, freeSlot files = some x ∧ 2 ≤ x.val ∧ files x = 0) ∨
      (freeSlot files = none ∧ ∀ i : Fin MAX_FILES_OPENABLE, 2 ≤ i.val → files i ≠ 0) := by
  rw [freeSlot_eq]
  rcases foldl_last_match (fun i : Fin MAX_FILES_OPENABLE => 2 ≤ i.val ∧ files i = 0)
    (List.finRange MAX_FILES_OPENABLE) none with ⟨x, -, hx, heq⟩ | ⟨hnone, heq⟩
  · exact Or.inl ⟨x, heq, hx⟩
  · exact Or.inr ⟨heq, fun i hi hfree => hnone i (List.mem_finRange i) ⟨hi, hfree⟩⟩

/-- What `open_syscall` does to the slots of the process, whatever `f_open` says: it stores the
block into the free slot it found, if any.  The current process stays the same. -/
theorem openSyscall_files (ext : External) (frame : Word) (k : Kernel σ) :
    (openSyscall ext frame k).curProc = k.curProc ∧
      ((openSyscall ext frame k).procs k.curProc).files =
        match freeSlot (k.procs k.curProc).files with
        | none => (k.procs k.curProc).files
        | some x => Function.update (k.procs k.curProc).files x ext.kmalloc := by
  unfold openSyscall
  dsimp only
  cases freeSlot (k.procs k.curProc).files with
  | none => exact ⟨rfl, rfl⟩
  | some x =>
    obtain ⟨_, _, _, _, _, heq⟩ :=
      (SameProcs.toCurProc k).trans (SameProcs.toKernel (processSetPml4ToCurProc k))
    have hstore : ∀ (k' : Kernel σ) (v : Word), ((setRax frame v (k'.modify k.curProc fun p =>
        { p with files := Function.update p.files x ext.kmalloc })).procs k.curProc).files =
          Function.update (k'.procs k.curProc).files x ext.kmalloc := by
      intro k' v
      rw [setRax_procs, modify_procs_self]
    dsimp only
    rw [heq]
    split_ifs
    · exact ⟨rfl, hstore _ _⟩
    · exact ⟨rfl, hstore _ _⟩

/-- Which call is made. -/
inductive FileCall
  | openFile
  | closeFile
  deriving DecidableEq, Repr

/-- One call: what the code outside the file returns during it, its frame, and the kernel it
starts in. -/
structure FileStep (σ : Type) where
  call : FileCall
  ext : External
  frame : Word
  before : Kernel σ

namespace FileStep

/-- The kernel after the call. -/
def after (s : FileStep σ) : Kernel σ :=
  match s.call with
  | .openFile => openSyscall s.ext s.frame s.before
  | .closeFile => closeSyscall s.ext s.frame s.before

/-- The first argument of the call, for `close` the descriptor. -/
def fd (s : FileStep σ) : Word := (loadRegs s.before.machine.mem s.frame).rdi

/-- The result of the call. -/
def rax (s : FileStep σ) : Word := (loadRegs s.after.machine.mem s.frame).rax

/-- The slots of process `p` before the call. -/
def files (p : Word) (s : FileStep σ) : Fin MAX_FILES_OPENABLE → Word := (s.before.procs p).files

/-- `f_open` and `f_close` succeed; `f_open` refuses the null pointer, so the block it was
given is not null. -/
structure Succeeds (s : FileStep σ) : Prop where
  fOpen : s.ext.fOpen = 0
  fClose : s.ext.fClose = 0
  kmalloc : s.ext.kmalloc ≠ 0

variable {p : Word} {s : FileStep σ}

/-- `open` fills the slot it returns, or reports that no slot is empty. -/
theorem open_cases (hcall : s.call = .openFile) (hcur : s.before.curProc = p)
    (hok : s.Succeeds) :
    (∃ x : Fin MAX_FILES_OPENABLE, 2 ≤ x.val ∧ s.files p x = 0 ∧ s.rax = BitVec.ofNat 64 x.val ∧
        (s.after.procs p).files = Function.update (s.files p) x s.ext.kmalloc) ∨
      ((∀ i : Fin MAX_FILES_OPENABLE, 2 ≤ i.val → s.files p i ≠ 0) ∧ s.rax = 1 ∧
        (s.after.procs p).files = s.files p) := by
  have hafter : s.after = openSyscall s.ext s.frame s.before := by rw [after, hcall]
  have hfiles := (openSyscall_files s.ext s.frame s.before).2
  rw [hcur] at hfiles
  rw [rax, hafter]
  rcases freeSlot_cases (s.files p) with ⟨x, hslot, hx, hfree⟩ | ⟨hslot, hfull⟩
  · rw [files] at hslot
    rw [hslot] at hfiles
    refine Or.inl ⟨x, hx, hfree, ?_, hfiles⟩
    rw [openSyscall, hcur, hslot, hok.fOpen]
    exact loadRegs_setRax _ _ _
  · rw [files] at hslot
    rw [hslot] at hfiles
    refine Or.inr ⟨hfull, ?_, hfiles⟩
    rw [openSyscall, hcur, hslot]
    exact loadRegs_setRax _ _ _

theorem close_of_empty (hcall : s.call = .closeFile) (hcur : s.before.curProc = p)
    (hempty : fileAt s.ext (s.before.procs p) s.fd = 0) :
    s.rax = -2#64 ∧ s.after = setRax s.frame (-2#64) s.before := by
  have hafter : s.after = setRax s.frame (-2#64) s.before := by
    rw [fd] at hempty
    rw [after, hcall]
    dsimp only
    rw [closeSyscall, hcur, if_pos hempty]
  refine ⟨?_, hafter⟩
  rw [rax, hafter]
  exact loadRegs_setRax _ _ _

theorem close_of_file (hcall : s.call = .closeFile) (hcur : s.before.curProc = p)
    (hok : s.Succeeds) (hfile : fileAt s.ext (s.before.procs p) s.fd ≠ 0) :
    s.rax = 0 ∧ (s.after.procs p).files = s.files p := by
  have hafter : s.after = setRax s.frame 0 s.before := by
    rw [fd] at hfile
    rw [after, hcall]
    dsimp only
    rw [closeSyscall, hcur, if_neg hfile, hok.fClose]
    rfl
  constructor
  · rw [rax, hafter]
    exact loadRegs_setRax _ _ _
  · rw [hafter]
    rfl

end FileStep

/-! ## Runs -/

/-- The calls of process `p`, the latest first, and the kernel after them.  Its slots start
empty; between its calls the kernel may do anything that leaves them alone. -/
inductive FileRun (p : Word) : List (FileStep σ) → Kernel σ → Prop
  | start {k : Kernel σ} (hempty : ∀ i, (k.procs p).files i = 0) : FileRun p [] k
  | other {steps : List (FileStep σ)} {k k' : Kernel σ} (hrun : FileRun p steps k)
      (hfiles : (k'.procs p).files = (k.procs p).files) : FileRun p steps k'
  | call {steps : List (FileStep σ)} {s : FileStep σ} (hrun : FileRun p steps s.before)
      (hcur : s.before.curProc = p) (hok : s.Succeeds) : FileRun p (s :: steps) s.after

/-- An `open` returned the descriptor and no `close` has named it since; 1 is the value that
`open` fails with. -/
def IsOpen : List (FileStep σ) → Word → Prop
  | [], _ => False
  | s :: steps, fd =>
      match s.call with
      | .openFile => (fd = s.rax ∧ s.rax ≠ 1) ∨ IsOpen steps fd
      | .closeFile => fd ≠ s.fd ∧ IsOpen steps fd

/-- What one call should do, after the calls `past`. -/
structure FileStep.Lawful (p : Word) (past : List (FileStep σ)) (s : FileStep σ) : Prop where
  slots : ∀ i : Fin MAX_FILES_OPENABLE,
    (s.after.procs p).files i ≠ 0 ↔ IsOpen (s :: past) (BitVec.ofNat 64 i.val)
  opens : s.call = .openFile →
    (2 ≤ s.rax.toNat ∧ s.rax.toNat ≤ 63 ∧ ¬ IsOpen past s.rax) ∨
      (s.rax = 1 ∧ ∀ fd : Word, 2 ≤ fd.toNat → fd.toNat ≤ 63 → IsOpen past fd)
  closes : s.call = .closeFile → ¬ IsOpen past s.fd →
    s.rax = -2#64 ∧ s.after = setRax s.frame (-2#64) s.before

/-- Every call of the run does what it should. -/
def FilesLawful (p : Word) : List (FileStep σ) → Prop
  | [] => True
  | s :: past => s.Lawful p past ∧ FilesLawful p past

/-- A `close` finds no file behind its descriptor. -/
def FileStep.ClosesNothing (p : Word) (s : FileStep σ) : Prop :=
  s.call = .closeFile → fileAt s.ext (s.before.procs p) s.fd = 0

theorem fileAt_slot (ext : External) (q : Process) (i : Fin MAX_FILES_OPENABLE) :
    fileAt ext q (BitVec.ofNat 64 i.val) = q.files i := by
  have hi : i.val < 64 := i.isLt
  have hval : (BitVec.ofNat 64 i.val).toNat = i.val := by
    rw [BitVec.toNat_ofNat]
    omega
  simp only [fileAt, hval]
  exact dif_pos i.isLt

section Runs

variable {p : Word} {steps : List (FileStep σ)} {k : Kernel σ}

/-- In every run an open descriptor is one of the slots above the reserved ones, and that slot
is taken. -/
theorem FileRun.slot_of_isOpen (hrun : FileRun p steps k) {fd : Word} (hopen : IsOpen steps fd) :
    ∃ i : Fin MAX_FILES_OPENABLE, fd = BitVec.ofNat 64 i.val ∧ 2 ≤ i.val ∧
      (k.procs p).files i ≠ 0 := by
  induction hrun generalizing fd with
  | start hempty => exact hopen.elim
  | other _ hfiles ih =>
    obtain ⟨i, hfd, hi, htaken⟩ := ih hopen
    exact ⟨i, hfd, hi, hfiles ▸ htaken⟩
  | @call steps s _ hcur hok ih =>
    unfold IsOpen at hopen
    cases hcall : s.call with
    | openFile =>
      rw [hcall] at hopen
      rcases FileStep.open_cases hcall hcur hok with ⟨x, hx, hfree, hrax, hfiles⟩ |
        ⟨-, hrax, hfiles⟩
      · rcases hopen with ⟨hfd, -⟩ | hopen
        · refine ⟨x, hfd.trans hrax, hx, ?_⟩
          rw [hfiles, Function.update_self]
          exact hok.kmalloc
        · obtain ⟨i, hfd, hi, htaken⟩ := ih hopen
          refine ⟨i, hfd, hi, ?_⟩
          have hne : i ≠ x := fun heq => htaken (heq ▸ hfree)
          rw [hfiles, Function.update_of_ne hne]
          exact htaken
      · obtain ⟨i, hfd, hi, htaken⟩ := ih (hopen.resolve_left fun h => h.2 hrax)
        exact ⟨i, hfd, hi, hfiles ▸ htaken⟩
    | closeFile =>
      rw [hcall] at hopen
      obtain ⟨i, hfd, hi, htaken⟩ := ih hopen.2
      refine ⟨i, hfd, hi, ?_⟩
      by_cases hfile : fileAt s.ext (s.before.procs p) s.fd = 0
      · rw [(FileStep.close_of_empty hcall hcur hfile).2]
        exact htaken
      · rw [(FileStep.close_of_file hcall hcur hok hfile).2]
        exact htaken

/-- As long as the calls have done what they should, the taken slots are the open
descriptors. -/
theorem FileRun.slots (hrun : FileRun p steps k) (hlaw : FilesLawful p steps)
    (i : Fin MAX_FILES_OPENABLE) :
    (k.procs p).files i ≠ 0 ↔ IsOpen steps (BitVec.ofNat 64 i.val) := by
  induction hrun with
  | start hempty => exact iff_of_false (not_not.mpr (hempty i)) id
  | other _ hfiles ih =>
    rw [hfiles]
    exact ih hlaw
  | call => exact hlaw.1.slots i

variable {s : FileStep σ}

theorem slot_injective {i j : Fin MAX_FILES_OPENABLE}
    (h : BitVec.ofNat 64 i.val = BitVec.ofNat 64 j.val) : i = j := by
  have hi : i.val < 64 := i.isLt
  have hj : j.val < 64 := j.isLt
  have hval := congrArg BitVec.toNat h
  rw [BitVec.toNat_ofNat, BitVec.toNat_ofNat] at hval
  exact Fin.ext (by omega)

/-- `open` always does what it should when the slots were right before it. -/
theorem FileStep.lawful_open (hcall : s.call = .openFile) (hcur : s.before.curProc = p)
    (hok : s.Succeeds)
    (hslots : ∀ i, s.files p i ≠ 0 ↔ IsOpen steps (BitVec.ofNat 64 i.val)) :
    s.Lawful p steps := by
  have hnow : ∀ fd, IsOpen (s :: steps) fd ↔ (fd = s.rax ∧ s.rax ≠ 1) ∨ IsOpen steps fd := by
    intro fd
    rw [IsOpen, hcall]
  have hclose : s.call ≠ .closeFile := by
    rw [hcall]
    exact FileCall.noConfusion
  rcases s.open_cases hcall hcur hok with ⟨x, hx, hfree, hrax, hfiles⟩ | ⟨hfull, hrax, hfiles⟩
  · have hxlt : x.val < 64 := x.isLt
    have hval : s.rax.toNat = x.val := by
      rw [hrax, BitVec.toNat_ofNat]
      omega
    have hne : s.rax ≠ 1 := by
      intro heq
      have hone : (1 : Word).toNat = 1 := rfl
      rw [heq] at hval
      omega
    refine ⟨?_, fun _ => Or.inl ⟨by omega, by omega, ?_⟩, fun h => absurd h hclose⟩
    · intro i
      rw [hnow, hfiles]
      by_cases heq : i = x
      · rw [heq, Function.update_self]
        exact iff_of_true hok.kmalloc (Or.inl ⟨hrax.symm, hne⟩)
      · have hother : ¬ (BitVec.ofNat 64 i.val = s.rax ∧ s.rax ≠ 1) :=
          fun h => heq (slot_injective (h.1.trans hrax))
        rw [Function.update_of_ne heq, hslots i]
        exact ⟨Or.inr, fun h => h.resolve_left hother⟩
    · rw [hrax, ← hslots x]
      exact not_not.mpr hfree
  · refine ⟨?_, fun _ => Or.inr ⟨hrax, ?_⟩, fun h => absurd h hclose⟩
    · intro i
      rw [hnow, hfiles, hslots i]
      exact ⟨Or.inr, fun h => h.resolve_left fun h => h.2 hrax⟩
    · intro fd hlow hhigh
      have hlt : fd.toNat < MAX_FILES_OPENABLE := Nat.lt_succ_of_le hhigh
      have hfd := (hslots ⟨fd.toNat, hlt⟩).mp (hfull _ hlow)
      rwa [BitVec.ofNat_toNat, BitVec.setWidth_eq] at hfd

/-- `close` does what it should exactly when there is nothing to close. -/
theorem FileStep.lawful_close_iff (hrun : FileRun p steps s.before) (hcall : s.call = .closeFile)
    (hcur : s.before.curProc = p) (hok : s.Succeeds)
    (hslots : ∀ i, s.files p i ≠ 0 ↔ IsOpen steps (BitVec.ofNat 64 i.val)) :
    s.Lawful p steps ↔ fileAt s.ext (s.before.procs p) s.fd = 0 := by
  have hnow : ∀ fd, IsOpen (s :: steps) fd ↔ fd ≠ s.fd ∧ IsOpen steps fd := by
    intro fd
    rw [IsOpen, hcall]
  constructor
  · intro hlaw
    by_contra hfile
    obtain ⟨hrax, hfiles⟩ := s.close_of_file hcall hcur hok hfile
    by_cases hlt : s.fd.toNat < MAX_FILES_OPENABLE
    · -- the slot is still taken, but the descriptor is no longer open
      have hfd : BitVec.ofNat 64 s.fd.toNat = s.fd := by rw [BitVec.ofNat_toNat, BitVec.setWidth_eq]
      have htaken : s.files p ⟨s.fd.toNat, hlt⟩ ≠ 0 := by
        rwa [fileAt, dif_pos hlt] at hfile
      rw [← hfiles] at htaken
      exact ((hnow _).mp ((hlaw.slots _).mp htaken)).1 hfd
    · -- the index is beyond the table, so no error is reported
      have hnot : ¬ IsOpen steps s.fd := by
        intro hopen
        obtain ⟨i, hfd, -, -⟩ := hrun.slot_of_isOpen hopen
        have hi : i.val < 64 := i.isLt
        have hval := congrArg BitVec.toNat hfd
        rw [BitVec.toNat_ofNat] at hval
        exact hlt (by unfold MAX_FILES_OPENABLE; omega)
      have herr := (hlaw.closes hcall hnot).1
      rw [hrax] at herr
      cases herr
  · intro hempty
    obtain ⟨hrax, hafter⟩ := s.close_of_empty hcall hcur hempty
    have hopen : s.call ≠ .openFile := by
      rw [hcall]
      exact FileCall.noConfusion
    refine ⟨?_, fun h => absurd h hopen, fun _ _ => ⟨hrax, hafter⟩⟩
    intro i
    rw [hnow, hafter]
    refine ⟨fun htaken => ⟨?_, (hslots i).mp htaken⟩, fun h => (hslots i).mpr h.2⟩
    intro hfd
    rw [← hfd, fileAt_slot] at hempty
    exact htaken hempty

/-- The slots are the open descriptors, `open` returns an unused one, and `close` of a
descriptor that is not open fails, after every call of a run exactly when no call of the run
closes a file. -/
theorem file_descriptors_lawful_iff (hrun : FileRun p steps k) :
    FilesLawful p steps ↔ ∀ s ∈ steps, s.ClosesNothing p := by
  induction hrun with
  | start => simp [FilesLawful]
  | other _ _ ih => exact ih
  | @call steps s hrun hcur hok ih =>
    rw [List.forall_mem_cons, ← ih, FilesLawful]
    refine and_congr_left fun hlaw => ?_
    have hslots := hrun.slots hlaw
    cases hcall : s.call with
    | openFile =>
      refine iff_of_true (s.lawful_open hcall hcur hok hslots) fun h => ?_
      rw [hcall] at h
      exact absurd h FileCall.noConfusion
    | closeFile =>
      rw [s.lawful_close_iff hrun hcall hcur hok hslots]
      exact ⟨fun hempty _ => hempty, fun hnothing => hnothing hcall⟩

end Runs

/-- Calls into the heap and the file system that succeed. -/
def okExternal : External := ⟨0x9000, 0, 0, fun _ => 0⟩

/-- A process at `0x100000` without open files calls `open`. -/
def openStep : FileStep PagePool :=
  ⟨.openFile, okExternal, 0x5000, { bootKernel with curProc := 0x100000 }⟩

/-- It then calls `close` with the descriptor it got, 63. -/
def closeStep : FileStep PagePool :=
  ⟨.closeFile, okExternal, 0x5000, setFrameWord 0x5000 8 63 openStep.after⟩

theorem openStep_run : FileRun 0x100000 [openStep] openStep.after := by
  have hstart : FileRun 0x100000 [] openStep.before := .start fun _ => rfl
  exact hstart.call rfl ⟨rfl, rfl, by decide⟩

theorem openStep_lawful :
    openStep.rax = 63 ∧ FilesLawful 0x100000 [openStep] := by
  have hnothing : ∀ s ∈ [openStep], s.ClosesNothing 0x100000 := by
    intro s hs hclose
    rw [List.mem_singleton.mp hs] at hclose
    cases hclose
  exact ⟨by decide +kernel, (file_descriptors_lawful_iff openStep_run).mpr hnothing⟩

/-- After the two calls descriptor 63 is closed, and its slot is still taken. -/
theorem closeStep_keeps_slot :
    FileRun 0x100000 [closeStep, openStep] closeStep.after ∧ closeStep.fd = openStep.rax ∧
      closeStep.rax = 0 ∧ ¬ IsOpen [closeStep, openStep] 63 ∧
      (closeStep.after.procs 0x100000).files ⟨63, by decide⟩ = 0x9000 ∧
      ¬ FilesLawful 0x100000 [closeStep, openStep] := by
  have hafter : closeStep.before.curProc = 0x100000 := by decide +kernel
  have hrun : FileRun 0x100000 [openStep] closeStep.before := openStep_run.other rfl
  have hclosed : ¬ IsOpen [closeStep, openStep] 63 := by
    intro hopen
    exact hopen.1 (by decide +kernel)
  have hslot : (closeStep.after.procs 0x100000).files ⟨63, by decide⟩ = 0x9000 := by decide +kernel
  refine ⟨hrun.call hafter ⟨rfl, rfl, by decide⟩, by decide +kernel, by decide +kernel, hclosed,
    hslot, ?_⟩
  intro hlaw
  refine hclosed ((hlaw.1.slots ⟨63, by decide⟩).mp ?_)
  rw [hslot]
  decide

/-! ## Opens that fail -/

/-- Calls of `open` by process `p` in which `f_open` fails, the latest first, from one kernel to
another; between them the kernel may do anything that leaves the slots alone. -/
inductive FailedOpens (p : Word) (k : Kernel σ) : List (FileStep σ) → Kernel σ → Prop
  | start : FailedOpens p k [] k
  | other {steps : List (FileStep σ)} {k' k'' : Kernel σ} (hrun : FailedOpens p k steps k')
      (hfiles : (k''.procs p).files = (k'.procs p).files) : FailedOpens p k steps k''
  | call {steps : List (FileStep σ)} {s : FileStep σ} (hrun : FailedOpens p k steps s.before)
      (hcall : s.call = .openFile) (hcur : s.before.curProc = p) (hfail : s.ext.fOpen ≠ 0) :
      FailedOpens p k (s :: steps) s.after

/-- The slots are what they were, and a slot can still be found if one could before. -/
def SlotsKept (p : Word) (k k' : Kernel σ) : Prop :=
  (k'.procs p).files = (k.procs p).files ∧
    (freeSlot (k.procs p).files ≠ none → freeSlot (k'.procs p).files ≠ none)

/-- The call finds no slot, or `kmalloc` returns the null pointer. -/
def FileStep.StoresNothing (p : Word) (s : FileStep σ) : Prop :=
  (∀ i : Fin MAX_FILES_OPENABLE, 2 ≤ i.val → s.files p i ≠ 0) ∨ s.ext.kmalloc = 0

section FailedOpens

variable {p : Word} {k k' : Kernel σ} {steps : List (FileStep σ)} {s : FileStep σ}

/-- One call: the slots stay as they are, or a free one is filled. -/
theorem FileStep.open_stores (hcall : s.call = .openFile) (hcur : s.before.curProc = p) :
    (s.StoresNothing p ∧ (s.after.procs p).files = s.files p) ∨
      (s.ext.kmalloc ≠ 0 ∧ ∃ x, freeSlot (s.files p) = some x ∧ s.files p x = 0 ∧
        (s.after.procs p).files = Function.update (s.files p) x s.ext.kmalloc) := by
  have hfiles := (openSyscall_files s.ext s.frame s.before).2
  have hafter : s.after = openSyscall s.ext s.frame s.before := by rw [FileStep.after, hcall]
  rw [← hafter, hcur] at hfiles
  rcases freeSlot_cases (s.files p) with ⟨x, hslot, -, hfree⟩ | ⟨hslot, hfull⟩
  · rw [FileStep.files] at hslot
    rw [hslot] at hfiles
    by_cases hnull : s.ext.kmalloc = 0
    · refine Or.inl ⟨Or.inr hnull, hfiles.trans ?_⟩
      rw [hnull, ← hfree]
      exact Function.update_eq_self x _
    · exact Or.inr ⟨hnull, x, hslot, hfree, hfiles⟩
  · rw [FileStep.files] at hslot
    rw [hslot] at hfiles
    exact Or.inl ⟨Or.inl hfull, hfiles⟩

/-- Calls that store nothing leave the slots alone. -/
theorem FailedOpens.files_eq (hrun : FailedOpens p k steps k')
    (hnothing : ∀ s ∈ steps, s.StoresNothing p) : (k'.procs p).files = (k.procs p).files := by
  induction hrun with
  | start => rfl
  | other _ hfiles ih => exact hfiles.trans (ih hnothing)
  | @call steps s _ hcall hcur _ ih =>
    rw [List.forall_mem_cons] at hnothing
    refine Eq.trans ?_ (ih hnothing.2)
    rcases s.open_stores hcall hcur with ⟨-, hfiles⟩ | ⟨hblock, x, hslot, hfree, -⟩
    · exact hfiles
    · obtain ⟨y, hslot', hy, -⟩ | ⟨hnone, -⟩ := freeSlot_cases (s.files p)
      · obtain rfl := Option.some.inj (hslot.symm.trans hslot')
        exact (hnothing.1.elim (fun hfull => hfull x hy hfree) hblock).elim
      · exact absurd (hslot.symm.trans hnone) (Option.some_ne_none x)

/-- A call that stores a block fills a slot for good. -/
theorem FailedOpens.filled (hrun : FailedOpens p k steps k')
    (hstores : ¬ ∀ s ∈ steps, s.StoresNothing p) :
    ∃ i, (k.procs p).files i = 0 ∧ (k'.procs p).files i ≠ 0 := by
  induction hrun with
  | start => exact absurd (fun s hs => absurd hs List.not_mem_nil) hstores
  | other _ hfiles ih =>
    rw [hfiles]
    exact ih hstores
  | @call steps s hrun hcall hcur _ ih =>
    by_cases hbefore : ∀ s ∈ steps, s.StoresNothing p
    · -- this is the first call that stores a block
      have hsame : s.files p = (k.procs p).files := hrun.files_eq hbefore
      rcases s.open_stores hcall hcur with ⟨hnothing, -⟩ | ⟨hblock, x, -, hfree, hfiles⟩
      · exact absurd (List.forall_mem_cons.mpr ⟨hnothing, hbefore⟩) hstores
      · refine ⟨x, hsame ▸ hfree, ?_⟩
        rw [hfiles, Function.update_self]
        exact hblock
    · obtain ⟨i, hfree, htaken⟩ := ih hbefore
      refine ⟨i, hfree, ?_⟩
      rcases s.open_stores hcall hcur with ⟨-, hfiles⟩ | ⟨-, x, -, hx, hfiles⟩
      · rw [hfiles]
        exact htaken
      · have hne : i ≠ x := fun heq => htaken (heq ▸ hx)
        rw [hfiles, Function.update_of_ne hne]
        exact htaken

/-- Any number of failing opens leaves the slots as they were exactly when each of them found no
slot or got no block. -/
theorem failed_opens_keep_slots_iff (hrun : FailedOpens p k steps k') :
    SlotsKept p k k' ↔ ∀ s ∈ steps, s.StoresNothing p := by
  constructor
  · intro hkept
    by_contra hstores
    obtain ⟨i, hfree, htaken⟩ := hrun.filled hstores
    exact htaken (hkept.1 ▸ hfree)
  · intro hnothing
    have hfiles := hrun.files_eq hnothing
    exact ⟨hfiles, fun hsome => hfiles ▸ hsome⟩

end FailedOpens

/-- A failing open for which there was no memory either. -/
def noMemoryStep : FileStep PagePool := { openStep with ext := ⟨0, 4, 0, fun _ => 0⟩ }

theorem noMemoryStep_keeps_slots :
    FailedOpens 0x100000 openStep.before [noMemoryStep] noMemoryStep.after ∧
      SlotsKept 0x100000 openStep.before noMemoryStep.after := by
  have hstart : FailedOpens 0x100000 openStep.before [] noMemoryStep.before := .start
  have hrun := hstart.call rfl rfl (by decide)
  refine ⟨hrun, (failed_opens_keep_slots_iff hrun).mpr fun s hs => ?_⟩
  rw [List.mem_singleton.mp hs]
  exact Or.inr rfl

/-! ### The table runs full -/

/-- The slots that a search can find. -/
def freeSlots (files : Fin MAX_FILES_OPENABLE → Word) : Finset (Fin MAX_FILES_OPENABLE) :=
  Finset.univ.filter fun i => 2 ≤ i.val ∧ files i = 0

theorem freeSlot_eq_none_iff (files : Fin MAX_FILES_OPENABLE → Word) :
    freeSlot files = none ↔ freeSlots files = ∅ := by
  rw [freeSlots, Finset.filter_eq_empty_iff]
  rcases freeSlot_cases files with ⟨x, hslot, hx, hfree⟩ | ⟨hslot, hfull⟩
  · rw [hslot]
    exact iff_of_false (Option.some_ne_none x) fun h => h (Finset.mem_univ x) ⟨hx, hfree⟩
  · rw [hslot]
    exact iff_of_true rfl fun i _ h => hfull i h.1 h.2

/-- Storing a block into the slot that was found leaves one slot less. -/
theorem freeSlots_update {files : Fin MAX_FILES_OPENABLE → Word} {x : Fin MAX_FILES_OPENABLE}
    {block : Word} (hblock : block ≠ 0) :
    freeSlots (Function.update files x block) = (freeSlots files).erase x := by
  ext i
  rw [Finset.mem_erase, freeSlots, freeSlots, Finset.mem_filter, Finset.mem_filter]
  by_cases hi : i = x
  · subst hi
    rw [Function.update_self]
    exact iff_of_false (fun h => hblock h.2.2) fun h => h.1 rfl
  · simp [hi]

/-- `n` calls of `open` with the same outcome. -/
def opens (ext : External) (frame : Word) : Nat → Kernel σ → Kernel σ
  | 0, k => k
  | n + 1, k => openSyscall ext frame (opens ext frame n k)

theorem opens_freeSlots (ext : External) (frame : Word) (hblock : ext.kmalloc ≠ 0) (k : Kernel σ) :
    ∀ n : Nat, (opens ext frame n k).curProc = k.curProc ∧
      (freeSlots ((opens ext frame n k).procs k.curProc).files).card =
        (freeSlots (k.procs k.curProc).files).card - n := by
  intro n
  induction n with
  | zero => exact ⟨rfl, rfl⟩
  | succ n ih =>
    obtain ⟨hcur, hcard⟩ := ih
    obtain ⟨hcur', hfiles⟩ := openSyscall_files ext frame (opens ext frame n k)
    rw [hcur] at hcur' hfiles
    refine ⟨hcur', ?_⟩
    rw [opens, hfiles]
    rcases freeSlot_cases ((opens ext frame n k).procs k.curProc).files with
      ⟨x, hslot, hx, hfree⟩ | ⟨hslot, hfull⟩
    · have hmem : x ∈ freeSlots ((opens ext frame n k).procs k.curProc).files :=
        Finset.mem_filter.mpr ⟨Finset.mem_univ x, hx, hfree⟩
      rw [hslot]
      dsimp only
      rw [freeSlots_update hblock, Finset.card_erase_of_mem hmem, hcard, Nat.sub_sub]
    · have hempty := (freeSlot_eq_none_iff _).mp hslot
      rw [hempty, Finset.card_empty] at hcard
      rw [hslot]
      dsimp only
      rw [hempty, Finset.card_empty]
      omega

/-- As many failing opens as there are free slots make every later `open` fail for lack of one,
whatever the file system would say. -/
theorem opens_run_out (ext later : External) (frame : Word) (hblock : ext.kmalloc ≠ 0)
    (k : Kernel σ) {n : Nat} (hn : (freeSlots (k.procs k.curProc).files).card ≤ n) :
    openSyscall later frame (opens ext frame n k) = setRax frame 1 (opens ext frame n k) := by
  obtain ⟨hcur, hcard⟩ := opens_freeSlots ext frame hblock k n
  have hempty := Finset.card_eq_zero.mp (hcard.trans (Nat.sub_eq_zero_of_le hn))
  rw [← freeSlot_eq_none_iff] at hempty
  rw [openSyscall, hcur, hempty]

theorem opens_failedOpens {ext : External} (hfail : ext.fOpen ≠ 0) (frame : Word)
    (hblock : ext.kmalloc ≠ 0) (k : Kernel σ) :
    ∀ n : Nat, ∃ steps : List (FileStep σ), steps.length = n ∧
      FailedOpens k.curProc k steps (opens ext frame n k) := by
  intro n
  induction n with
  | zero => exact ⟨[], rfl, .start⟩
  | succ n ih =>
    obtain ⟨steps, hlen, hrun⟩ := ih
    have hcur := (opens_freeSlots ext frame hblock k n).1
    refine ⟨⟨.openFile, ext, frame, opens ext frame n k⟩ :: steps, by simp [hlen], ?_⟩
    exact hrun.call rfl hcur hfail

/-- A file that does not exist. -/
def noFileExternal : External := ⟨0x9000, 4, 0, fun _ => 0⟩

/-- A process without open files that fails 62 times to open a file can open none at all
afterwards. -/
theorem failed_opens_fill_table :
    let full := opens noFileExternal 0x5000 62 openStep.before
    (∃ steps, steps.length = 62 ∧ FailedOpens 0x100000 openStep.before steps full) ∧
      ¬ SlotsKept 0x100000 openStep.before full ∧
      openSyscall okExternal 0x5000 full = setRax 0x5000 1 full := by
  have hcur : openStep.before.curProc = 0x100000 := rfl
  have hempty : (freeSlots (openStep.before.procs openStep.before.curProc).files).card = 62 := by
    decide
  have hblock : noFileExternal.kmalloc ≠ 0 := by decide
  have hlater :=
    opens_run_out noFileExternal okExternal 0x5000 hblock openStep.before hempty.le
  have hcard := (opens_freeSlots noFileExternal 0x5000 hblock openStep.before 62).2
  obtain ⟨steps, hlen, hrun⟩ := opens_failedOpens (by decide) 0x5000 hblock openStep.before 62
  rw [hempty, hcur] at hcard
  rw [hcur] at hrun hempty
  refine ⟨⟨steps, hlen, hrun⟩, fun hkept => ?_, hlater⟩
  rw [hkept.1, hempty] at hcard
  cases hcard

end ChronOS.Idt
