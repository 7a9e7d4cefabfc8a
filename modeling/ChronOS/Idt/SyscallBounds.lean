/-
  Idt/SyscallBounds.lean --- the array accesses of a system call.

  `syscall` and its handlers index the handler table, the file table of the process
  and two local buffers with values from the caller's registers and memory.  The
  functions below list these accesses in the order of the source; `Admissible` is
  the range check that the source does not make.
-/
import ChronOS.Idt.FileTable
import ChronOS.Utils.Strings

set_option autoImplicit false

namespace ChronOS.Idt

open ChronOS.Foundation ChronOS.Utils ChronOS.Mm ChronOS.Proc

/-- The size of `fname` in `open_syscall`. -/
def FNAME_SIZE : Nat := 256

/-! ## The accesses -/

/-- An access to `syscalls`, to `proc->files` or to `fname`, with its index, and a length given
to `buffer` in `write_syscall`. -/
inductive Access
  | handler (index : Nat)
  | file (index : Nat)
  | fname (index : Nat)
  | buffer (len : Int)
  deriving DecidableEq, Repr

/-- The access stays in its array. -/
def Access.InBounds : Access → Prop
  | .handler index => index < MAX_SYSCALLS
  | .file index => index < MAX_FILES_OPENABLE
  | .fname index => index < FNAME_SIZE
  | .buffer len => 0 ≤ len

/-- The number of bytes `open_syscall` copies into `fname`: the name and its terminator.  Without
a terminator `strlen` does not return, and nothing is copied. -/
def nameBytes (user : Word → Byte) (str : Word) : Nat :=
  match strlen user str with
  | some len => (len + 1#64).toNat
  | none => 0

/-- The accesses of `open_syscall`: the search, and if it found a slot the copy of the name, the
store of the new file and its use by `f_open`. -/
def openAccesses (user : Word → Byte) (regs : Regs) (proc : Process) : List Access :=
  (List.range' 2 (MAX_FILES_OPENABLE - 2)).map .file ++
    match freeSlot proc.files with
    | none => []
    | some x =>
        (List.range (nameBytes user regs.rdi)).map .fname ++ [.file x.val, .file x.val]

/-- The accesses of `close_syscall`: the test of the slot, and its use by `f_close`. -/
def closeAccesses (ext : External) (regs : Regs) (proc : Process) : List Access :=
  if fileAt ext proc regs.rdi = 0 then [.file regs.rdi.toNat]
  else [.file regs.rdi.toNat, .file regs.rdi.toNat]

/-- `int len = regs->rdx`. -/
def writeLen (regs : Regs) : Int := (regs.rdx.setWidth 32 : BitVec 32).toInt

/-- The accesses of `write_syscall`: the size of `buffer`, and the length it is filled with. -/
def writeAccesses (regs : Regs) : List Access := [.buffer (writeLen regs), .buffer (writeLen regs)]

/-- The accesses of `syscall` and the handler it calls. -/
def syscallAccesses (user : Word → Byte) (ext : External) (regs : Regs) (proc : Process) :
    List Access :=
  .handler regs.rax.toNat ::
    match regs.rax.toNat with
    | 3 => openAccesses user regs proc
    | 4 => closeAccesses ext regs proc
    | 6 => writeAccesses regs
    | _ => []

section Listed

variable {σ : Type} {src : PageSource σ} {user : Word → Byte} {ext : External} {frame : Word}
  {k k' : Kernel σ}

/-- The words outside of `proc->files` that a call depends on are at listed indices. -/
theorem syscall_beyond {beyond : Word → Word}
    (h : ∀ i : Word, .file i.toNat ∈ syscallAccesses user ext (loadRegs k.machine.mem frame)
      (k.procs k.curProc) → beyond i = ext.beyond i) :
    syscall src { ext with beyond } frame k = syscall src ext frame k := by
  unfold syscall syscallAccesses at *
  dsimp only at *
  split
  case h_5 hnum =>
    have hfile : fileAt { ext with beyond } (k.procs k.curProc) (loadRegs k.machine.mem frame).rdi =
        fileAt ext (k.procs k.curProc) (loadRegs k.machine.mem frame).rdi := by
      unfold fileAt
      split
      · rfl
      · refine h _ ?_
        rw [hnum]
        dsimp only [closeAccesses]
        split_ifs <;> simp
    rw [closeSyscall, closeSyscall, hfile]
  all_goals rfl

/-- No call but `open` changes the processes. -/
theorem syscall_procs (hcall : syscall src ext frame k = some k')
    (hnum : (loadRegs k.machine.mem frame).rax.toNat ≠ 3) : k'.procs = k.procs := by
  unfold syscall at hcall
  dsimp only at hcall
  split at hcall
  case h_2 =>
    obtain ⟨r, -, heq⟩ := Option.bind_eq_some_iff.mp hcall
    cases heq
    rfl
  case h_4 hthree => exact absurd hthree hnum
  case h_5 =>
    cases hcall
    unfold closeSyscall
    dsimp only
    split_ifs <;> rfl
  case h_7 =>
    cases hcall
    obtain ⟨_, _, _, _, _, heq⟩ :=
      (SameProcs.toCurProc k).trans (SameProcs.toKernel (processSetPml4ToCurProc k))
    unfold writeSyscall
    dsimp only
    rw [heq]
    split_ifs <;> rfl
  case h_8 =>
    split_ifs at hcall
    cases hcall
    rfl
  all_goals
    cases hcall
    rfl

/-- The file slots that a call changes are listed. -/
theorem syscall_files (hcall : syscall src ext frame k = some k') {i : Fin MAX_FILES_OPENABLE}
    (hne : (k'.procs k.curProc).files i ≠ (k.procs k.curProc).files i) :
    .file i.val ∈ syscallAccesses user ext (loadRegs k.machine.mem frame) (k.procs k.curProc) := by
  by_cases hnum : (loadRegs k.machine.mem frame).rax.toNat = 3
  · have hopen : k' = openSyscall ext frame k := by
      simpa only [syscall, hnum, Option.some.injEq, eq_comm] using hcall
    rw [hopen, (openSyscall_files ext frame k).2] at hne
    rw [syscallAccesses, hnum]
    dsimp only [openAccesses]
    cases hslot : freeSlot (k.procs k.curProc).files with
    | none => exact absurd (by rw [hslot]) hne
    | some x =>
      rw [hslot] at hne
      have hi : i = x := by
        by_contra hix
        exact hne (Function.update_of_ne hix _ _)
      simp [hi]
  · exact absurd (by rw [syscall_procs hcall hnum]) hne

end Listed

/-! ## Which requests are in range -/

/-- The request is in the range of every array it is used with. -/
def InRange (user : Word → Byte) (regs : Regs) : Prop :=
  regs.rax.toNat < MAX_SYSCALLS ∧
    (regs.rax.toNat = 3 → nameBytes user regs.rdi ≤ FNAME_SIZE) ∧
    (regs.rax.toNat = 4 → regs.rdi.toNat < MAX_FILES_OPENABLE) ∧
    (regs.rax.toNat = 6 → 0 ≤ writeLen regs)

variable {σ : Type}

/-- The call returns one of the two values that the handlers report their own errors with, and
leaves the processes unchanged. -/
def Refused (src : PageSource σ) (ext : External) (frame : Word) (k : Kernel σ) : Prop :=
  ∃ k', syscall src ext frame k = some k' ∧ k'.procs = k.procs ∧
    ((loadRegs k'.machine.mem frame).rax = 1 ∨ (loadRegs k'.machine.mem frame).rax = -2#64)

/-- All accesses of the call stay in their arrays, and a request out of range is refused. -/
def SyscallSafe (src : PageSource σ) (user : Word → Byte) (ext : External) (frame : Word)
    (k : Kernel σ) : Prop :=
  let regs := loadRegs k.machine.mem frame
  (∀ a ∈ syscallAccesses user ext regs (k.procs k.curProc), a.InBounds) ∧
    (¬ InRange user regs → Refused src ext frame k)

/-- The request is in range, or it is an `open` for which there is no slot: that check comes
before the name is copied. -/
def Admissible (user : Word → Byte) (frame : Word) (k : Kernel σ) : Prop :=
  let regs := loadRegs k.machine.mem frame
  InRange user regs ∨ (regs.rax.toNat = 3 ∧ freeSlot (k.procs k.curProc).files = none)

theorem openAccesses_inBounds_iff (user : Word → Byte) (regs : Regs) (proc : Process) :
    (∀ a ∈ openAccesses user regs proc, a.InBounds) ↔
      freeSlot proc.files = none ∨ nameBytes user regs.rdi ≤ FNAME_SIZE := by
  have hsearch : ∀ a ∈ (List.range' 2 (MAX_FILES_OPENABLE - 2)).map Access.file, a.InBounds := by
    intro a ha
    obtain ⟨i, hi, rfl⟩ := List.mem_map.mp ha
    have hlt := (List.mem_range'_1.mp hi).2
    unfold MAX_FILES_OPENABLE at hlt
    exact hlt
  unfold openAccesses
  rw [List.forall_mem_append]
  cases hslot : freeSlot proc.files with
  | none => exact iff_of_true ⟨hsearch, by simp⟩ (Or.inl rfl)
  | some x =>
    have hfile : ∀ a ∈ [Access.file x.val, Access.file x.val], a.InBounds := by
      intro a ha
      rw [List.eq_of_mem_replicate (show a ∈ List.replicate 2 (Access.file x.val) from ha)]
      exact x.isLt
    have hname : (∀ a ∈ (List.range (nameBytes user regs.rdi)).map Access.fname, a.InBounds) ↔
        nameBytes user regs.rdi ≤ FNAME_SIZE := by
      constructor
      · intro hall
        by_contra hlong
        have hmem : FNAME_SIZE ∈ List.range (nameBytes user regs.rdi) :=
          List.mem_range.mpr (Nat.lt_of_not_le hlong)
        exact Nat.lt_irrefl _ (hall _ (List.mem_map_of_mem hmem))
      · intro hshort a ha
        obtain ⟨i, hi, rfl⟩ := List.mem_map.mp ha
        exact Nat.lt_of_lt_of_le (List.mem_range.mp hi) hshort
    dsimp only
    rw [List.forall_mem_append, hname]
    exact ⟨fun h => Or.inr h.2.1, fun h => ⟨hsearch, h.resolve_left (by simp), hfile⟩⟩

theorem closeAccesses_inBounds_iff (ext : External) (regs : Regs) (proc : Process) :
    (∀ a ∈ closeAccesses ext regs proc, a.InBounds) ↔ regs.rdi.toNat < MAX_FILES_OPENABLE := by
  unfold closeAccesses
  split_ifs
  · simp [Access.InBounds]
  · simp [Access.InBounds]

theorem writeAccesses_inBounds_iff (regs : Regs) :
    (∀ a ∈ writeAccesses regs, a.InBounds) ↔ 0 ≤ writeLen regs := by
  simp [writeAccesses, Access.InBounds]

theorem syscallAccesses_inBounds_iff (user : Word → Byte) (ext : External) (regs : Regs)
    (proc : Process) :
    (∀ a ∈ syscallAccesses user ext regs proc, a.InBounds) ↔
      regs.rax.toNat < MAX_SYSCALLS ∧
        (regs.rax.toNat = 3 → freeSlot proc.files = none ∨
          nameBytes user regs.rdi ≤ FNAME_SIZE) ∧
        (regs.rax.toNat = 4 → regs.rdi.toNat < MAX_FILES_OPENABLE) ∧
        (regs.rax.toNat = 6 → 0 ≤ writeLen regs) := by
  unfold syscallAccesses
  rw [List.forall_mem_cons]
  refine and_congr Iff.rfl ?_
  split
  · next hnum => simp [hnum, openAccesses_inBounds_iff]
  · next hnum => simp [hnum, closeAccesses_inBounds_iff]
  · next hnum => simp [hnum, writeAccesses_inBounds_iff]
  · next hopen hclose hwrite =>
    refine iff_of_true (List.forall_mem_nil _) ⟨?_, ?_, ?_⟩
    · exact fun hnum => absurd hnum hopen
    · exact fun hnum => absurd hnum hclose
    · exact fun hnum => absurd hnum hwrite

/-- An `open` without a free slot is refused before anything else happens. -/
theorem refused_of_full {src : PageSource σ} {ext : External} {frame : Word} {k : Kernel σ}
    (hnum : (loadRegs k.machine.mem frame).rax.toNat = 3)
    (hslot : freeSlot (k.procs k.curProc).files = none) : Refused src ext frame k := by
  have hopen : openSyscall ext frame k = setRax frame 1 k := by
    unfold openSyscall
    dsimp only
    rw [hslot]
  have hcall : syscall src ext frame k = some (setRax frame 1 k) := by
    unfold syscall
    dsimp only
    rw [hnum, ← hopen]
    rfl
  exact ⟨_, hcall, rfl, Or.inl (loadRegs_setRax _ _ _)⟩

/-- A system call stays in its arrays and refuses what is out of range exactly when there is
nothing to refuse, a full file table apart. -/
theorem syscall_safe_iff (src : PageSource σ) (user : Word → Byte) (ext : External)
    (frame : Word) (k : Kernel σ) :
    SyscallSafe src user ext frame k ↔ Admissible user frame k := by
  unfold SyscallSafe Admissible InRange
  dsimp only
  rw [syscallAccesses_inBounds_iff]
  constructor
  · intro ⟨⟨hnum, hopen, hclose, hwrite⟩, _⟩
    by_cases hfull : (loadRegs k.machine.mem frame).rax.toNat = 3 ∧
        freeSlot (k.procs k.curProc).files = none
    · exact Or.inr hfull
    · refine Or.inl ⟨hnum, ?_, hclose, hwrite⟩
      intro hthree
      exact (hopen hthree).resolve_left fun hslot => hfull ⟨hthree, hslot⟩
  · intro hadmissible
    rcases hadmissible with hrange | ⟨hthree, hslot⟩
    · obtain ⟨hnum, hopen, hclose, hwrite⟩ := hrange
      exact ⟨⟨hnum, fun h => Or.inr (hopen h), hclose, hwrite⟩,
        fun hout => absurd ⟨hnum, hopen, hclose, hwrite⟩ hout⟩
    · refine ⟨⟨?_, fun _ => Or.inl hslot, ?_, ?_⟩, fun _ => refused_of_full hthree hslot⟩
      · rw [hthree]
        decide
      · intro hfour
        omega
      · intro hsix
        omega

/-- A frame at `0x5000` with the given call number and first argument. -/
def requestKernel (rax rdi : Word) : Kernel PagePool :=
  setRax 0x5000 rax (setFrameWord 0x5000 8 rdi { bootKernel with curProc := 0x100000 })

/-- Call number 128 calls through an entry that is not in the table. -/
theorem requestKernel_out_of_table :
    .handler 128 ∈ syscallAccesses (fun _ => 0) okExternal
        (loadRegs (requestKernel 128 0).machine.mem 0x5000) ((requestKernel 128 0).procs 0x100000) ∧
      ¬ SyscallSafe poolSource (fun _ => 0) okExternal 0x5000 (requestKernel 128 0) := by
  have hrax : (loadRegs (requestKernel 128 0).machine.mem 0x5000).rax = 128 :=
    loadRegs_setRax _ _ _
  have hmem : Access.handler 128 ∈ syscallAccesses (fun _ => 0) okExternal
      (loadRegs (requestKernel 128 0).machine.mem 0x5000)
      ((requestKernel 128 0).procs 0x100000) := by
    unfold syscallAccesses
    rw [hrax]
    exact List.mem_cons_self
  refine ⟨hmem, ?_⟩
  intro hsafe
  exact absurd (hsafe.1 _ hmem) (by unfold Access.InBounds; decide)

end ChronOS.Idt
