/-
  Process/BadExecutable.lean --- `make_proc_from_elf` with a file that is no executable.

  `load_elf` executes `cli` first and `sti` before its last return only, and
  `make_proc_from_elf` reads the entry point through whatever pointer it returns.
  `Cpu` adds the interrupt flag and a record of reads through the null pointer to
  the kernel state; `makeProcFromElfCpu` is the constructor with both, and
  `makeProcFromElfCpu_kernel` says that it is the same constructor otherwise.
-/
import ChronOS.Process.CreationFrame
import ChronOS.Process.SchedulerRing

set_option autoImplicit false

namespace ChronOS.Proc

open ChronOS.Foundation ChronOS.Ds ChronOS.Utils ChronOS.Mm ChronOS.Loader

variable {σ : Type}

/-! ## Interrupt flag and null pointer -/

/-- The kernel, the interrupt flag, and whether a pointer that was null has been read through. -/
structure Cpu (σ : Type) where
  kernel : Kernel σ
  interrupts : Bool
  nullRead : Bool

section Operations

variable (src : FrameSource σ) (layout : Layout)

/-- `load_elf` with the interrupt flag: `cli` at its beginning, `sti` at its end, and a return in
between. -/
def loadElfCpu (data pageTable : Word) (s : Machine σ) :
    Option (Option ElfPrg × Bool × Machine σ) :=
  let interrupts := false
  let ehdr := data
  if elfCheck s.mem ehdr ≠ 0 then some (none, interrupts, s) else do
    let entry := eEntry s.mem ehdr
    let (program, pmm, mem) ← src.getpages (progSizePages s.mem ehdr) s.pmm s.mem
    let shdrBase := ehdr + eShoff mem ehdr
    let s ← loadSections src ehdr pageTable program shdrBase maxSections 0 { mem, pmm }
    let interrupts := true
    return (some { entry, program }, interrupts, s)

/-- `make_proc_from_elf` with the interrupt flag and the read of `elf_program->entry`. -/
def makeProcFromElfCpu (elfData : Word) (c : Cpu σ) : Option (Cpu σ) := do
  let (newProc, k) ← c.kernel.getpage src
  let k := k.modify newProc fun p =>
    { p with regs := { Regs.zero with rflags := 0x202, cs := 0x08 } }
  let k ← newStack src newProc k
  let k ← newPageTable src layout newProc k
  let proc := k.procs newProc
  let machine ← pagingMap src.toPageSource proc.pml4 proc.stack proc.stack PAGE_NORMAL k.machine
  let (elfProgram, interrupts, machine) ← loadElfCpu src elfData proc.pml4 machine
  let nullRead := c.nullRead || elfProgram.isNone
  let k := { k with machine }.modify newProc fun p =>
    { p with elfProgram, regs := { p.regs with rip := programEntry machine.mem elfProgram } }
  let k := newPid newProc k
  let k := clearFxsave newProc k
  let k ← newBitmap src newProc k
  return { kernel := linkProc newProc k, interrupts, nullRead }

end Operations

section Agreement

variable {src : FrameSource σ} {layout : Layout}

theorem loadElfCpu_eq (data pageTable : Word) (s : Machine σ) :
    loadElfCpu src data pageTable s =
      (loadElf src data pageTable s).map fun r => (r.1, r.1.isSome, r.2) := by
  unfold loadElfCpu loadElf
  dsimp only
  split_ifs
  · rfl
  · simp only [Option.bind_eq_bind, Option.map_bind, Function.comp_def, Option.pure_def,
      Option.map_some, Option.isSome_some]

/-- The constructor does to the kernel what it does without the flag. -/
theorem makeProcFromElfCpu_kernel (elfData : Word) (c : Cpu σ) :
    (makeProcFromElfCpu src layout elfData c).map Cpu.kernel =
      makeProcFromElf src layout elfData c.kernel := by
  unfold makeProcFromElfCpu makeProcFromElf
  simp only [loadElfCpu_eq, Option.bind_eq_bind, Option.map_bind, Option.bind_map,
    Function.comp_def, Option.pure_def, Option.map_some]

end Agreement

/-! ## What has to stay -/

/-- The process at `p` is one that the links from `proc_queue` lead to. -/
def InQueue (k : Kernel σ) (p : Word) : Prop := ∃ n : Nat, k.next^[n] k.procQueue = p

/-- A call that changes nothing: the ring, the current process and the counter of pids are the
same, the null pointer is not read through, and the interrupt flag is the same. -/
structure ChangesNothing (c c' : Cpu σ) : Prop where
  queue : c'.kernel.procQueue = c.kernel.procQueue
  ring : ∀ p, InQueue c.kernel p → c'.kernel.next p = c.kernel.next p
  cur : c'.kernel.curProc = c.kernel.curProc
  pids : c'.kernel.numPids = c.kernel.numPids
  noNullRead : c'.nullRead = c.nullRead
  interrupts : c'.interrupts = c.interrupts

section BadExecutable

variable {src : FrameSource σ} {layout : Layout} {taken : σ → Set Word} {elfData : Word}
  {c c' : Cpu σ}

/-- What the constructor does with a file that is refused: the process is created and linked all
the same, its entry point is read through the null pointer, and interrupts stay off. -/
structure CreatesAnyway (src : FrameSource σ) (c c' : Cpu σ) : Prop where
  linked : ∃ p k, (c.kernel.getpage src).map Prod.fst = some p ∧ c'.kernel = linkProc p k
  cur : c'.kernel.curProc = c.kernel.curProc
  pids : c'.kernel.numPids = c.kernel.numPids + 1
  nullRead : c'.nullRead = true
  interrupts : c'.interrupts = false

theorem newStack_numPids {p : Word} {k k' : Kernel σ} (h : newStack src p k = some k') :
    k'.numPids = k.numPids := by
  simp only [newStack, Option.bind_eq_bind, Option.bind_eq_some_iff] at h
  obtain ⟨⟨stack, k₁⟩, hpage, heq⟩ := h
  obtain ⟨pmm, mem, -, rfl⟩ := kernel_getpage_eq_some hpage
  cases heq
  rfl

theorem newPageTable_numPids {p : Word} {k k' : Kernel σ}
    (h : newPageTable src layout p k = some k') : k'.numPids = k.numPids := by
  simp only [newPageTable, Option.bind_eq_bind, Option.bind_eq_some_iff] at h
  obtain ⟨⟨pml4, machine⟩, -, heq⟩ := h
  cases heq
  rfl

theorem newBitmap_numPids {p : Word} {k k' : Kernel σ} (h : newBitmap src p k = some k') :
    k'.numPids = k.numPids := by
  simp only [newBitmap, Option.bind_eq_bind, Option.bind_eq_some_iff] at h
  obtain ⟨⟨page, k₁⟩, hpage, heq⟩ := h
  obtain ⟨pmm, mem, -, rfl⟩ := kernel_getpage_eq_some hpage
  cases heq
  rfl

theorem makeProcFromElfCpu_bad (hlaw : src.Lawful taken)
    (hfile : FileIn (taken c.kernel.machine.pmm) elfData 4)
    (hbad : elfCheck c.kernel.machine.mem elfData ≠ 0)
    (h : makeProcFromElfCpu src layout elfData c = some c') : CreatesAnyway src c c' := by
  have hcur : c'.kernel.curProc = c.kernel.curProc := by
    have hkernel := @makeProcFromElfCpu_kernel σ src layout elfData c
    rw [h] at hkernel
    obtain ⟨rip, q, built, hbuilds, -, hlink⟩ := makeProcFromElf_constructs hkernel.symm
    rw [hlink]
    exact hbuilds.cur
  simp only [makeProcFromElfCpu, Option.bind_eq_bind, Option.bind_eq_some_iff] at h
  obtain ⟨⟨p, k₁⟩, hpage, k₂, hstack, k₃, htable, m₄, hmap, ⟨prog, flag, m₅⟩, helf, k₄, hbitmap,
    heq⟩ := h
  cases heq
  -- the bytes of the file are still the same when `load_elf` looks at them
  obtain ⟨-, owner₃, hbuilt₃⟩ := newProc_built hlaw hpage hstack htable fun _ => ⟨rfl, rfl⟩
  obtain ⟨owner₄, hgrows, -⟩ := pagingMap_spec hlaw.page hbuilt₃.tables (Set.mem_singleton _)
    normal_flags.1 normal_flags.2 hmap
  have hsame := (hbuilt₃.grows hgrows).sameFile hfile
  rw [← elfCheck_congr hsame (Nat.le_refl 4)] at hbad
  rw [loadElfCpu, if_pos hbad] at helf
  obtain ⟨rfl, rfl, rfl⟩ : none = prog ∧ false = flag ∧ m₄ = m₅ := by
    simpa only [Option.some.injEq, Prod.mk.injEq] using helf
  have hpids₁ : k₁.numPids = c.kernel.numPids := by
    obtain ⟨pmm, mem, -, rfl⟩ := kernel_getpage_eq_some hpage
    rfl
  have hpids₃ : k₃.numPids = c.kernel.numPids :=
    (newPageTable_numPids htable).trans ((newStack_numPids hstack).trans hpids₁)
  refine ⟨⟨p, k₄, by rw [hpage]; rfl, rfl⟩, hcur, ?_, Bool.or_true _, rfl⟩
  refine (newBitmap_numPids hbitmap).trans ?_
  exact congrArg (· + 1) hpids₃

end BadExecutable

/-! ## A run -/

section Progress

variable {src : FrameSource σ} {n : Nat} {k : Kernel σ}

theorem kernel_getpage_progress (h : src.toPageSource.Supplies (n + 1) k.machine.pmm) :
    ∃ page k', k.getpage src = some (page, k') ∧ src.toPageSource.Supplies n k'.machine.pmm := by
  obtain ⟨page, pmm, mem, hget, hrest⟩ := h k.machine.mem
  refine ⟨page, { k with machine := { mem, pmm } }, ?_, hrest⟩
  rw [Kernel.getpage, hget]
  rfl

theorem newStack_progress (h : src.toPageSource.Supplies (n + 1) k.machine.pmm) (p : Word) :
    ∃ k', newStack src p k = some k' ∧ src.toPageSource.Supplies n k'.machine.pmm := by
  obtain ⟨stack, k₁, hpage, hrest⟩ := kernel_getpage_progress h
  simp only [newStack, hpage, Option.bind_eq_bind, Option.bind_some]
  exact ⟨_, rfl, hrest⟩

theorem newBitmap_progress (h : src.toPageSource.Supplies (n + 1) k.machine.pmm) (p : Word) :
    ∃ k', newBitmap src p k = some k' ∧ src.toPageSource.Supplies n k'.machine.pmm := by
  obtain ⟨page, k₁, hpage, hrest⟩ := kernel_getpage_progress h
  simp only [newBitmap, hpage, Option.bind_eq_bind, Option.bind_some]
  exact ⟨_, rfl, hrest⟩

/-- A kernel that maps nothing needs one page for a table. -/
theorem newPageTable_progress (h : src.toPageSource.Supplies (n + 1) k.machine.pmm) (p : Word) :
    ∃ k', newPageTable src bootLayout p k = some k' ∧
      src.toPageSource.Supplies n k'.machine.pmm := by
  obtain ⟨tbl, pmm, mem, hget, hrest⟩ := h k.machine.mem
  have hloop : ∀ (s : Machine σ), identityMap src.toPageSource tbl 0 PAGE_NORMAL maxPages 0 s =
      some s := by
    intro s
    rw [maxPages, identityMap, if_neg (by decide)]
  have hstop : bootLayout.kernEnd + 0x1000#64 = 0 := by decide
  simp only [newPageTable, createPageTable, hget, hstop, Option.bind_eq_bind, Option.bind_some,
    Option.pure_def]
  rw [show bootLayout.kernStart = 0 from rfl, show bootLayout.memSize = 0 from rfl, hloop]
  simp only [Option.bind_some, hloop]
  exact ⟨_, rfl, hrest⟩

/-- With seven pages the call returns. -/
theorem makeProcFromElfCpu_returns {taken : σ → Set Word} {elfData : Word} {c : Cpu σ}
    (hlaw : src.Lawful taken) (hfile : FileIn (taken c.kernel.machine.pmm) elfData 4)
    (hbad : elfCheck c.kernel.machine.mem elfData ≠ 0)
    (h : src.toPageSource.Supplies 7 c.kernel.machine.pmm) :
    ∃ c', makeProcFromElfCpu src bootLayout elfData c = some c' := by
  obtain ⟨p, k₁, hpage, h₁⟩ := kernel_getpage_progress (n := 6) h
  set k₁' := k₁.modify p fun proc =>
    { proc with regs := { Regs.zero with rflags := 0x202, cs := 0x08 } } with hk₁'
  obtain ⟨k₂, hstack, h₂⟩ := newStack_progress (n := 5) (k := k₁') h₁ p
  obtain ⟨k₃, htable, h₃⟩ := newPageTable_progress (n := 4) h₂ p
  obtain ⟨m₄, hmap, h₄⟩ := pagingMap_progress (n := 1) h₃ (k₃.procs p).pml4 (k₃.procs p).stack
    (k₃.procs p).stack PAGE_NORMAL
  obtain ⟨-, owner₃, hbuilt₃⟩ := newProc_built hlaw hpage hstack htable fun _ => ⟨rfl, rfl⟩
  obtain ⟨owner₄, hgrows, -⟩ := pagingMap_spec hlaw.page hbuilt₃.tables (Set.mem_singleton _)
    normal_flags.1 normal_flags.2 hmap
  have hsame := (hbuilt₃.grows hgrows).sameFile hfile
  rw [← elfCheck_congr hsame (Nat.le_refl 4)] at hbad
  have helf : loadElfCpu src elfData (k₃.procs p).pml4 m₄ = some (none, false, m₄) := if_pos hbad
  set k₅ := clearFxsave p (newPid p ({ k₃ with machine := m₄ }.modify p fun proc =>
    { proc with elfProgram := none, regs := { proc.regs with rip := programEntry m₄.mem none } }))
    with hk₅
  obtain ⟨k₆, hbitmap, -⟩ := newBitmap_progress (n := 0) (k := k₅) h₄ p
  refine ⟨⟨linkProc p k₆, false, c.nullRead || true⟩, ?_⟩
  simp only [makeProcFromElfCpu, hpage, ← hk₁', hstack, htable, hmap, helf, ← hk₅, hbitmap,
    Option.bind_eq_bind, Option.bind_some, Option.pure_def, Option.isNone_none]

end Progress

/-- A kernel with one process, interrupts on, seven free pages and zeros in memory. -/
def plainCpu : Cpu PagePool where
  kernel := { bootKernel with
    machine := { mem := fun _ => 0, pmm := ⟨[0x100000, 0x101000, 0x102000, 0x103000, 0x104000,
      0x105000, 0x106000], by decide, by simp [FrameAddress, PageAligned]⟩ }
    procQueue := 0x200000
    curProc := 0x200000 }
  interrupts := true
  nullRead := false

theorem plainCpu_file : FileIn (PagePool.taken plainCpu.kernel.machine.pmm) 0x300000 4 := by
  intro k hk
  have hused : (0x300000 : Word) ∉ plainCpu.kernel.machine.pmm.pages := by decide
  refine ⟨0x300000, hused, by decide, ?_⟩
  unfold InPage
  rw [toNat_offset _ (by omega)]
  omega

theorem plainCpu_returns :
    ∃ c, makeProcFromElfCpu poolFrames bootLayout 0x300000 plainCpu = some c :=
  makeProcFromElfCpu_returns poolFrames_lawful plainCpu_file (by decide)
    (poolSource_supplies 7 _ (by decide))

/-! ## The result -/

/-- A file that is refused does not leave things as they are, for no file at all: the call does
what it should exactly when the file is not refused. -/
theorem bad_executable_changes_nothing_iff {src : FrameSource σ} {layout : Layout}
    {taken : σ → Set Word} {elfData : Word} {c c' : Cpu σ} (hlaw : src.Lawful taken)
    (hfile : FileIn (taken c.kernel.machine.pmm) elfData 4)
    (h : makeProcFromElfCpu src layout elfData c = some c') :
    (elfCheck c.kernel.machine.mem elfData ≠ 0 → CreatesAnyway src c c') ∧
      ((elfCheck c.kernel.machine.mem elfData ≠ 0 → ChangesNothing c c') ↔
        elfCheck c.kernel.machine.mem elfData = 0) := by
  have hbad := fun hbad => makeProcFromElfCpu_bad hlaw hfile hbad h
  refine ⟨hbad, fun hnothing => ?_, fun hgood hbad => absurd hgood hbad⟩
  by_contra hrefused
  have hpids := (hnothing hrefused).pids
  rw [(hbad hrefused).pids] at hpids
  bv_omega

/-- Zeros are no executable, and a process is made of them. -/
theorem plainCpu_creates_anyway :
    ∃ c, makeProcFromElfCpu poolFrames bootLayout 0x300000 plainCpu = some c ∧
      CreatesAnyway poolFrames plainCpu c := by
  obtain ⟨c, h⟩ := plainCpu_returns
  exact ⟨c, h, (bad_executable_changes_nothing_iff poolFrames_lawful plainCpu_file h).1 (by decide)⟩

/-- The counter of pids is one higher, the null pointer was read through, and interrupts, which
were on, are off. -/
theorem plainCpu_changed :
    elfCheck plainCpu.kernel.machine.mem 0x300000 ≠ 0 ∧
      ∃ c, makeProcFromElfCpu poolFrames bootLayout 0x300000 plainCpu = some c ∧
        plainCpu.interrupts = true ∧ c.interrupts = false ∧ c.nullRead = true ∧
        c.kernel.numPids = 1 ∧ ¬ ChangesNothing plainCpu c := by
  have hbad : elfCheck plainCpu.kernel.machine.mem 0x300000 ≠ 0 := by decide
  obtain ⟨c, h⟩ := plainCpu_returns
  have hcreates := makeProcFromElfCpu_bad poolFrames_lawful plainCpu_file hbad h
  refine ⟨hbad, c, h, rfl, hcreates.interrupts, hcreates.nullRead, hcreates.pids, fun hsame => ?_⟩
  have hflag := hsame.interrupts
  rw [hcreates.interrupts] at hflag
  cases hflag

end ChronOS.Proc
