/-
  Drivers/Ahci.lean --- commands of `kernel/src/drivers/storage/ahci/ahci.c`, and the
  device that executes them.

  Command headers and command tables are kept as typed stores by address; the
  data buffers are in the flat memory.  What the device registers read as during
  a command, and whether it completes, is given from outside (`Answer`).  The
  device itself takes everything it does from the header, the table and the
  register FIS: the 48-bit LBA from `lba0` to `lba5`, the sector count, and the
  buffer of the first PRDT entry.

  `dev_ahci_read` and `dev_ahci_write` are the same code up to the direction bit
  and the command, and are one definition here, `issue`.
-/
import ChronOS.Foundation.Memory

set_option autoImplicit false

namespace ChronOS.Drivers

open ChronOS.Foundation

def FIS_TYPE_REG_H2D : Byte := 0x27
def ATA_CMD_READ_DMA_EX : Byte := 0x25
def ATA_CMD_WRITE_DMA_EX : Byte := 0x35
def SPIN_LIMIT : Nat := 10000000

/-- `FIS_REG_H2D`, without its reserved fields. -/
structure FisRegH2D where
  fisType : Byte
  portMultiplier : BitVec 4
  commandControl : BitVec 1
  command : Byte
  featureLow : Byte
  lba0 : Byte
  lba1 : Byte
  lba2 : Byte
  deviceRegister : Byte
  lba3 : Byte
  lba4 : Byte
  lba5 : Byte
  featureHigh : Byte
  countLow : Byte
  countHigh : Byte
  isoCommandCompletion : Byte
  control : Byte
  deriving DecidableEq, Repr

/-- The command FIS after the `memset`. -/
def FisRegH2D.zero : FisRegH2D := ⟨0, 0, 0, 0, 0, 0, 0, 0, 0, 0, 0, 0, 0, 0, 0, 0, 0⟩

/-- `hba_prdt_entry_t`. -/
structure PrdtEntry where
  dataBaseAddress : BitVec 32
  dataBaseAddressUpper : BitVec 32
  byteCount : BitVec 22
  interruptOnCompletion : BitVec 1
  deriving DecidableEq, Repr

/-- `hba_cmd_table_t`: the command FIS and the first PRDT entry. -/
structure CmdTable where
  commandFIS : FisRegH2D
  prdtEntry : PrdtEntry
  deriving DecidableEq, Repr

/-- `hba_cmd_hdr_t`: the fields the driver assigns or reads. -/
structure CmdHeader where
  commandFISLength : BitVec 5
  write : BitVec 1
  prdtLength : BitVec 16
  commandTableBaseAddress : BitVec 32
  commandTableBaseAddressUpper : BitVec 32
  deriving DecidableEq, Repr

/-- The driver's port and the device behind it: registers that keep their value, command
headers and tables by address, memory, and the bytes of the disk. -/
structure Ahci where
  hostCapability : BitVec 32
  commandListBase : BitVec 32
  commandListBaseUpper : BitVec 32
  buffer : Word
  cmdHeaders : Word → CmdHeader
  cmdTables : Word → CmdTable
  mem : Mem
  disk : Nat → Byte

/-- How a command that was issued ends: done, with the error bit and whatever the device did
to memory and disk, or not at all. -/
inductive Completion
  | done
  | taskFileError (mem : Mem) (disk : Nat → Byte)
  | never

/-- What the registers read as during a command: the two slot registers, the busy bits at
each poll, and the end of the wait. -/
structure Answer where
  sataActive : BitVec 32
  commandIssue : BitVec 32
  busy : Nat → Bool
  completion : Completion

/-! ## The driver -/

/-- The loop of `dev_ahci_find_cmdslot`. -/
def findSlot : (remaining i : Nat) → BitVec 32 → Option Nat
  | 0, _, _ => none
  | remaining + 1, i, slots =>
      if slots &&& 1#32 = 0 then some i else findSlot remaining (i + 1) (slots >>> 1)

/-- `dev_ahci_find_cmdslot`; `none` is the result -1. -/
def devAhciFindCmdslot (hostCapability : BitVec 32) (ans : Answer) : Option Nat :=
  let slots := ans.sataActive ||| ans.commandIssue
  let cmdslots := (hostCapability &&& 0x0f00#32) >>> 8
  findSlot cmdslots.toNat 0 slots

/-- The busy loop: whether one of the first `fuel` polls, from poll `spin` on, is not busy. -/
def spinReady (busy : Nat → Bool) : (fuel spin : Nat) → Bool
  | 0, _ => false
  | fuel + 1, spin => if busy spin then spinReady busy fuel (spin + 1) else true

/-- A 64-bit address from its two register halves. -/
def joinHalves (low high : BitVec 32) : Word := low.setWidth 64 ||| high.setWidth 64 <<< 32

/-- The upper half of a 64-bit value. -/
def upperHalf (x : Word) : BitVec 32 := (x >>> 32).setWidth 32

/-- The command FIS for a transfer: `lba3` to `lba5` are taken from the upper 32 bits of the
sector number, so bits 24 to 31 are in no byte. -/
def registerFis (command : Byte) (sector : Word) (sectorCount : BitVec 32) : FisRegH2D :=
  let sectorL : BitVec 32 := sector.setWidth 32
  let sectorH := upperHalf sector
  { FisRegH2D.zero with
    fisType := FIS_TYPE_REG_H2D
    commandControl := 1
    command
    lba0 := sectorL.setWidth 8
    lba1 := (sectorL >>> 8).setWidth 8
    lba2 := (sectorL >>> 16).setWidth 8
    lba3 := sectorH.setWidth 8
    lba4 := (sectorH >>> 8).setWidth 8
    lba5 := (sectorH >>> 16).setWidth 8
    deviceRegister := 1 <<< 6
    countLow := (sectorCount &&& 0xff#32).setWidth 8
    countHigh := (sectorCount >>> 8 &&& 0xff#32).setWidth 8 }

/-- The address of the header of a slot, as the driver computes it: from the lower half of
the command list base alone. -/
def driverHeader (a : Ahci) (slot : Nat) : Word :=
  a.commandListBase.setWidth 64 + BitVec.ofNat 64 (32 * slot)

/-- The header and the table of a command, filled in. -/
def prepare (write : BitVec 1) (command : Byte) (sector : Word) (sectorCount : BitVec 32)
    (slot : Nat) (a : Ahci) : Ahci :=
  let header := { a.cmdHeaders (driverHeader a slot) with
    commandFISLength := 5, write, prdtLength := 1 }
  let prdtEntry :=
    { dataBaseAddress := a.buffer.setWidth 32
      dataBaseAddressUpper := upperHalf a.buffer
      byteCount := (sectorCount <<< 9 - 1#32).setWidth 22
      interruptOnCompletion := 1 }
  { a with
    cmdHeaders := Function.update a.cmdHeaders (driverHeader a slot) header
    cmdTables := Function.update a.cmdTables
      (joinHalves header.commandTableBaseAddress header.commandTableBaseAddressUpper)
      { commandFIS := registerFis command sector sectorCount, prdtEntry } }

/-! ## The device -/

/-- The 48-bit LBA of a register FIS. -/
def fisLba (fis : FisRegH2D) : Nat :=
  fis.lba0.toNat + 2 ^ 8 * fis.lba1.toNat + 2 ^ 16 * fis.lba2.toNat + 2 ^ 24 * fis.lba3.toNat +
    2 ^ 32 * fis.lba4.toNat + 2 ^ 40 * fis.lba5.toNat

/-- The number of sectors of a register FIS; zero stands for 65536. -/
def fisCount (fis : FisRegH2D) : Nat :=
  let n := fis.countLow.toNat + 2 ^ 8 * fis.countHigh.toNat
  if n = 0 then 2 ^ 16 else n

/-- `n` bytes from the disk to memory. -/
def dmaToMem (m : Mem) (data : Word) (disk : Nat → Byte) (start n : Nat) : Mem := fun x =>
  if (x - data).toNat < n then disk (start + (x - data).toNat) else m x

/-- `n` bytes from memory to the disk. -/
def dmaToDisk (disk : Nat → Byte) (start : Nat) (m : Mem) (data : Word) (n : Nat) :
    Nat → Byte := fun b =>
  if start ≤ b ∧ b < start + n then m (data + BitVec.ofNat 64 (b - start)) else disk b

/-- The device executes the command of a slot. -/
def execute (slot : Nat) (a : Ahci) : Ahci :=
  let header := a.cmdHeaders
    (joinHalves a.commandListBase a.commandListBaseUpper + BitVec.ofNat 64 (32 * slot))
  let table := a.cmdTables
    (joinHalves header.commandTableBaseAddress header.commandTableBaseAddressUpper)
  let fis := table.commandFIS
  let data := joinHalves table.prdtEntry.dataBaseAddress table.prdtEntry.dataBaseAddressUpper
  let start := 512 * fisLba fis
  let n := 512 * fisCount fis
  if fis.command = ATA_CMD_READ_DMA_EX then
    { a with mem := dmaToMem a.mem data a.disk start n }
  else if fis.command = ATA_CMD_WRITE_DMA_EX then
    { a with disk := dmaToDisk a.disk start a.mem data n }
  else a

/-- A command from slot search to completion; the result is an `int`, and `none` means that
the wait does not end. -/
def issue (write : BitVec 1) (command : Byte) (sector : Word) (sectorCount : BitVec 32)
    (ans : Answer) (a : Ahci) : Option (BitVec 32 × Ahci) :=
  match devAhciFindCmdslot a.hostCapability ans with
  | none => some (-1, a)
  | some slot =>
      let a := prepare write command sector sectorCount slot a
      if spinReady ans.busy SPIN_LIMIT 0 then
        match ans.completion with
        | .done => some (0, execute slot a)
        | .taskFileError mem disk => some (-1, { a with mem, disk })
        | .never => none
      else some (-1, a)

/-- `dev_ahci_read`. -/
def devAhciRead : Word → BitVec 32 → Answer → Ahci → Option (BitVec 32 × Ahci) :=
  issue 0 ATA_CMD_READ_DMA_EX

/-- `dev_ahci_write`. -/
def devAhciWrite : Word → BitVec 32 → Answer → Ahci → Option (BitVec 32 × Ahci) :=
  issue 1 ATA_CMD_WRITE_DMA_EX

/-! ## What a command transfers -/

theorem joinHalves_upperHalf (x : Word) : joinHalves (x.setWidth 32) (upperHalf x) = x := by
  apply BitVec.eq_of_getLsbD_eq
  intro i hi
  rcases Nat.lt_or_ge i 32 with hlow | hhigh
  · simp [joinHalves, upperHalf, hlow, hi]
  · have hsub : i - 32 < 32 := by omega
    have hlow : ¬ i < 32 := by omega
    have hjoin : 32 + (i - 32) = i := by omega
    simp [joinHalves, upperHalf, hlow, hi, hsub, hjoin]

theorem joinHalves_zero (low : BitVec 32) : joinHalves low 0 = low.setWidth 64 := by
  simp [joinHalves]

/-- The LBA the device decodes: the low 24 bits of the sector number, and above them the low
24 bits of its upper half. -/
theorem fisLba_registerFis (command : Byte) (sector : Word) (sectorCount : BitVec 32) :
    fisLba (registerFis command sector sectorCount) =
      sector.toNat % 2 ^ 24 + 2 ^ 24 * (sector.toNat / 2 ^ 32 % 2 ^ 24) := by
  simp only [fisLba, registerFis, upperHalf, BitVec.toNat_setWidth, BitVec.toNat_ushiftRight,
    Nat.shiftRight_eq_div_pow]
  omega

theorem fisCount_registerFis {command : Byte} {sector : Word} {sectorCount : BitVec 32}
    (hpos : 0 < sectorCount.toNat) (hlt : sectorCount.toNat < 2 ^ 16) :
    fisCount (registerFis command sector sectorCount) = sectorCount.toNat := by
  have hlow := Nat.and_two_pow_sub_one_eq_mod sectorCount.toNat 8
  have hhigh := Nat.and_two_pow_sub_one_eq_mod (sectorCount.toNat / 2 ^ 8) 8
  have hsum : (registerFis command sector sectorCount).countLow.toNat +
      2 ^ 8 * (registerFis command sector sectorCount).countHigh.toNat = sectorCount.toNat := by
    simp only [registerFis, BitVec.toNat_setWidth, BitVec.toNat_and, BitVec.toNat_ushiftRight,
      Nat.shiftRight_eq_div_pow, BitVec.toNat_ofNat]
    norm_num at hlow hhigh ⊢
    rw [hlow, hhigh]
    omega
  unfold fisCount
  dsimp only
  rw [hsum, if_neg (by omega)]

/-- The parts of the port that no command changes. -/
structure SamePort (a a' : Ahci) : Prop where
  hostCapability : a'.hostCapability = a.hostCapability
  commandListBaseUpper : a'.commandListBaseUpper = a.commandListBaseUpper
  buffer : a'.buffer = a.buffer

/-- The bytes a transfer command moves: where they start on the disk, and how many. -/
def transferStart (sector : Word) : Nat :=
  512 * (sector.toNat % 2 ^ 24 + 2 ^ 24 * (sector.toNat / 2 ^ 32 % 2 ^ 24))

/-- With the command list below 4 GiB, the device finds the header and the table that the
driver filled in. -/
theorem execute_prepare {write : BitVec 1} {command : Byte} {sector : Word}
    {sectorCount : BitVec 32} {slot : Nat} {a : Ahci} (hlow : a.commandListBaseUpper = 0)
    (hpos : 0 < sectorCount.toNat) (hlt : sectorCount.toNat < 2 ^ 16) :
    execute slot (prepare write command sector sectorCount slot a) =
      if command = ATA_CMD_READ_DMA_EX then
        { prepare write command sector sectorCount slot a with
          mem := dmaToMem a.mem a.buffer a.disk (transferStart sector) (512 * sectorCount.toNat) }
      else if command = ATA_CMD_WRITE_DMA_EX then
        { prepare write command sector sectorCount slot a with
          disk := dmaToDisk a.disk (transferStart sector) a.mem a.buffer
            (512 * sectorCount.toNat) }
      else prepare write command sector sectorCount slot a := by
  have hheader : joinHalves a.commandListBase a.commandListBaseUpper +
      BitVec.ofNat 64 (32 * slot) = driverHeader a slot := by
    rw [hlow, joinHalves_zero]
    rfl
  have hlba := fisLba_registerFis command sector sectorCount
  have hcount : fisCount (registerFis command sector sectorCount) = sectorCount.toNat :=
    fisCount_registerFis hpos hlt
  have hcommand : (registerFis command sector sectorCount).command = command := rfl
  simp only [execute, prepare, hheader, Function.update_self, hlba, hcount, hcommand,
    joinHalves_upperHalf, transferStart]

theorem issue_ok {write : BitVec 1} {command : Byte} {sector : Word} {sectorCount : BitVec 32}
    {ans : Answer} {a a' : Ahci} (h : issue write command sector sectorCount ans a = some (0, a')) :
    ∃ slot, a' = execute slot (prepare write command sector sectorCount slot a) := by
  have herr : (-1 : BitVec 32) ≠ 0 := by decide
  unfold issue at h
  split at h
  · exact absurd (Prod.mk.inj (Option.some.inj h)).1 herr
  · next slot _ =>
    dsimp only at h
    split_ifs at h
    · split at h
      · exact ⟨slot, (Prod.mk.inj (Option.some.inj h)).2.symm⟩
      · exact absurd (Prod.mk.inj (Option.some.inj h)).1 herr
      · exact absurd h (Option.some_ne_none _).symm
    · exact absurd (Prod.mk.inj (Option.some.inj h)).1 herr

/-- A read that succeeds fills the port buffer from the disk and leaves the disk alone. -/
theorem devAhciRead_ok {sector : Word} {sectorCount : BitVec 32} {ans : Answer} {a a' : Ahci}
    (hlow : a.commandListBaseUpper = 0) (hpos : 0 < sectorCount.toNat)
    (hlt : sectorCount.toNat < 2 ^ 16) (h : devAhciRead sector sectorCount ans a = some (0, a')) :
    SamePort a a' ∧ a'.disk = a.disk ∧ a'.mem = dmaToMem a.mem a.buffer a.disk
      (transferStart sector) (512 * sectorCount.toNat) := by
  obtain ⟨slot, rfl⟩ := issue_ok h
  rw [execute_prepare hlow hpos hlt, if_pos rfl]
  exact ⟨⟨rfl, rfl, rfl⟩, rfl, rfl⟩

/-- A write that succeeds stores the port buffer on the disk and leaves memory alone. -/
theorem devAhciWrite_ok {sector : Word} {sectorCount : BitVec 32} {ans : Answer} {a a' : Ahci}
    (hlow : a.commandListBaseUpper = 0) (hpos : 0 < sectorCount.toNat)
    (hlt : sectorCount.toNat < 2 ^ 16) (h : devAhciWrite sector sectorCount ans a = some (0, a')) :
    SamePort a a' ∧ a'.mem = a.mem ∧ a'.disk = dmaToDisk a.disk (transferStart sector) a.mem
      a.buffer (512 * sectorCount.toNat) := by
  have hcommand : ATA_CMD_WRITE_DMA_EX ≠ ATA_CMD_READ_DMA_EX := by decide
  obtain ⟨slot, rfl⟩ := issue_ok h
  rw [execute_prepare hlow hpos hlt, if_neg hcommand, if_pos rfl]
  exact ⟨⟨rfl, rfl, rfl⟩, rfl, rfl⟩

/-- The device is idle and answers at once. -/
def idleAnswer : Answer := ⟨0, 0, fun _ => false, .done⟩

/-- On a controller with command slots, a command to an idle device succeeds. -/
theorem issue_idle {write : BitVec 1} {command : Byte} {sector : Word} {sectorCount : BitVec 32}
    {a : Ahci} (hslots : (a.hostCapability &&& 0x0f00#32) >>> 8 ≠ 0) :
    ∃ a', issue write command sector sectorCount idleAnswer a = some (0, a') := by
  have hslot : devAhciFindCmdslot a.hostCapability idleAnswer = some 0 := by
    unfold devAhciFindCmdslot
    dsimp only
    cases hn : ((a.hostCapability &&& 0x0f00#32) >>> 8).toNat with
    | zero => exact absurd (BitVec.eq_of_toNat_eq hn) hslots
    | succ n => rfl
  have hready : spinReady idleAnswer.busy SPIN_LIMIT 0 = true := rfl
  refine ⟨execute 0 (prepare write command sector sectorCount 0 a), ?_⟩
  unfold issue
  rw [hslot]
  dsimp only
  rw [if_pos hready]
  rfl

/-! ## The choice of a slot -/

/-- The number of command slots of a controller: the zero-based five-bit field `CAP_NCS` plus
one. -/
def commandSlots (hostCapability : BitVec 32) : Nat := (hostCapability >>> 8 &&& 0x1f#32).toNat + 1

/-- Slot `i` is neither active nor issued. -/
def SlotFree (ans : Answer) (i : Nat) : Prop :=
  ans.sataActive.getLsbD i = false ∧ ans.commandIssue.getLsbD i = false

instance (ans : Answer) (i : Nat) : Decidable (SlotFree ans i) :=
  inferInstanceAs (Decidable (_ ∧ _))

/-- The least free slot below `n`, or none if all of them are taken. -/
def ChoosesLeast (n : Nat) (ans : Answer) : Option Nat → Prop
  | some i => i < n ∧ SlotFree ans i ∧ ∀ j < i, ¬ SlotFree ans j
  | none => ∀ i < n, ¬ SlotFree ans i

/-- Two bounds that both contain a free slot, or neither, have the same choice. -/
theorem ChoosesLeast.iff_of_le {n n' : Nat} {ans : Answer} {r : Option Nat} (hle : n ≤ n')
    (h : ChoosesLeast n ans r) :
    ChoosesLeast n' ans r ↔ (∃ i < n, SlotFree ans i) ∨ ∀ i < n', ¬ SlotFree ans i := by
  cases r with
  | some i =>
    obtain ⟨hlt, hfree, hleast⟩ := h
    exact ⟨fun _ => Or.inl ⟨i, hlt, hfree⟩, fun _ => ⟨by omega, hfree, hleast⟩⟩
  | none =>
    refine ⟨fun hnone => Or.inr hnone, ?_⟩
    rintro (⟨i, hi, hfree⟩ | hnone)
    · exact absurd hfree (h i hi)
    · exact hnone

/-- The loop shifts the word, so its bit 0 is bit `i` of the word it started with. -/
theorem findSlot_chooses {slots : BitVec 32} {ans : Answer}
    (hslots : ∀ i, slots.getLsbD i = false ↔ SlotFree ans i) :
    ∀ remaining i : Nat, (∀ j < i, ¬ SlotFree ans j) →
      ChoosesLeast (i + remaining) ans (findSlot remaining i (slots >>> i)) := by
  intro remaining
  induction remaining with
  | zero =>
    intro i hbefore
    exact hbefore
  | succ remaining ih =>
    intro i hbefore
    have hbit : slots >>> i &&& 1#32 = 0 ↔ SlotFree ans i := by
      rw [← hslots, BitVec.and_one_eq_setWidth_ofBool_getLsbD]
      cases h : (slots >>> i).getLsbD 0 <;> simp_all
    unfold findSlot
    by_cases hfree : SlotFree ans i
    · rw [if_pos (hbit.mpr hfree)]
      exact ⟨by omega, hfree, hbefore⟩
    · rw [if_neg (hbit.not.mpr hfree), ← BitVec.shiftRight_add]
      have hnext := ih (i + 1) fun j hj => by
        rcases Nat.lt_succ_iff_lt_or_eq.mp hj with hlt | rfl
        · exact hbefore j hlt
        · exact hfree
      rwa [Nat.add_right_comm, Nat.add_assoc] at hnext

/-- The driver looks at as many slots as the lower four bits of the field say. -/
theorem devAhciFindCmdslot_chooses (hostCapability : BitVec 32) (ans : Answer) :
    ChoosesLeast ((hostCapability &&& 0x0f00#32) >>> 8).toNat ans
      (devAhciFindCmdslot hostCapability ans) := by
  have hslots : ∀ i, (ans.sataActive ||| ans.commandIssue).getLsbD i = false ↔ SlotFree ans i := by
    intro i
    rw [BitVec.getLsbD_or, Bool.or_eq_false_iff]
    rfl
  have h := findSlot_chooses hslots ((hostCapability &&& 0x0f00#32) >>> 8).toNat 0
    fun j hj => absurd hj (Nat.not_lt_zero j)
  rwa [Nat.zero_add, BitVec.ushiftRight_zero] at h

theorem slots_lt_commandSlots (hostCapability : BitVec 32) :
    ((hostCapability &&& 0x0f00#32) >>> 8).toNat < commandSlots hostCapability := by
  have hlow : (hostCapability &&& 0x0f00#32) >>> 8 =
      (hostCapability >>> 8 &&& 0x1f#32) &&& 0xf#32 := by
    rw [BitVec.ushiftRight_and_distrib, BitVec.and_assoc]
    rfl
  unfold commandSlots
  rw [hlow, BitVec.toNat_and]
  exact Nat.lt_succ_of_le Nat.and_le_left

/-- The choice of `dev_ahci_find_cmdslot` is the right one exactly when one of the slots it looks
at is free, or no slot of the controller is. -/
theorem find_cmdslot_exact_iff (hostCapability : BitVec 32) (ans : Answer) :
    ChoosesLeast (commandSlots hostCapability) ans (devAhciFindCmdslot hostCapability ans) ↔
      (∃ i < ((hostCapability &&& 0x0f00#32) >>> 8).toNat, SlotFree ans i) ∨
        ∀ i < commandSlots hostCapability, ¬ SlotFree ans i := by
  have hle := (slots_lt_commandSlots hostCapability).le
  exact (devAhciFindCmdslot_chooses hostCapability ans).iff_of_le hle

/-- On a controller with one slot none is ever found. -/
theorem single_slot_never_found :
    commandSlots 0 = 1 ∧ SlotFree idleAnswer 0 ∧ devAhciFindCmdslot 0 idleAnswer = none ∧
      ¬ ChoosesLeast (commandSlots 0) idleAnswer (devAhciFindCmdslot 0 idleAnswer) := by
  have hfree : SlotFree idleAnswer 0 := by decide
  exact ⟨rfl, hfree, rfl, fun hnone => hnone 0 (by decide) hfree⟩

end ChronOS.Drivers
