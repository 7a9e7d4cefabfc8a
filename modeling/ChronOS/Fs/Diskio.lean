/-
  Fs/Diskio.lean --- `disk_read` and `disk_write` of `kernel/src/fs/fat/diskio.c`, and
  the array of sectors they are meant to be.

  Both go through the one-page buffer of the port.  The sector number is a 32-bit
  `LBA_t`, of which the command FIS carries 24 bits, so two sectors that differ by
  a multiple of 2^24 are the same to the device; below that the disk is an array.
-/
import ChronOS.Drivers.AhciPort

set_option autoImplicit false

namespace ChronOS.Fs

open ChronOS.Foundation ChronOS.Mm ChronOS.Drivers

/-- The two values of `DRESULT` these functions return. -/
inductive Dresult
  | ok
  | error
  deriving DecidableEq, Repr

/-- `disk_read`. -/
def diskRead (buff : Word) (sector count : BitVec 32) (ans : Answer) (a : Ahci) :
    Option (Dresult × Ahci) := do
  let (res, a) ← devAhciRead (sector.setWidth 64) count ans a
  if res ≠ 0 then some (.error, a)
  else some (.ok, { a with mem := memcpy a.mem buff a.buffer (count * 512#32).toNat })

/-- `disk_write`. -/
def diskWrite (buff : Word) (sector count : BitVec 32) (ans : Answer) (a : Ahci) :
    Option (Dresult × Ahci) := do
  let a := { a with mem := memcpy a.mem a.buffer buff (count * 512#32).toNat }
  let (res, a) ← devAhciWrite (sector.setWidth 64) count ans a
  if res ≠ 0 then some (.error, a) else some (.ok, a)

/-! ## One transfer -/

/-- Two blocks of `n` bytes that do not meet. -/
def Separate (p q : Word) (n : Nat) : Prop := n ≤ (p - q).toNat ∧ n ≤ (q - p).toNat

theorem Separate.symm {p q : Word} {n : Nat} (h : Separate p q n) : Separate q p n := And.symm h

theorem Separate.source {p q : Word} {n : Nat} (h : Separate p q n) :
    ∀ i < n, n ≤ (q + BitVec.ofNat 64 i - p).toNat := by
  intro i hi
  obtain ⟨hpq, hqp⟩ := h
  bv_omega

theorem memcpy_separate {m : Mem} {dst src : Word} {n : Nat} (h : Separate dst src n) {i : Nat}
    (hi : i < n) :
    memcpy m dst src n (dst + BitVec.ofNat 64 i) = m (src + BitVec.ofNat 64 i) := by
  have hlt : n < 2 ^ 64 := by
    have := h.1
    omega
  have hoff : dst + BitVec.ofNat 64 i - dst = BitVec.ofNat 64 i := by bv_omega
  have hin : (dst + BitVec.ofNat 64 i - dst).toNat < n := by
    rw [hoff, BitVec.toNat_ofNat, Nat.mod_eq_of_lt (by omega)]
    exact hi
  rw [memcpy_apply m dst src n (by omega) h.source n (Nat.le_refl n) _ hin, hoff]

theorem transferStart_sector (sector : BitVec 32) :
    transferStart (sector.setWidth 64) = 512 * (sector.toNat % 2 ^ 24) := by
  have hlt := sector.isLt
  unfold transferStart
  rw [BitVec.toNat_setWidth]
  omega

theorem toNat_bytes {count : BitVec 32} (h : count.toNat ≤ 8) :
    (count * 512#32).toNat = 512 * count.toNat := by
  rw [BitVec.toNat_mul, BitVec.toNat_ofNat]
  omega

section OneTransfer

variable {buff : Word} {sector count : BitVec 32} {ans : Answer} {a a' : Ahci}

/-- What `disk_read` returns are the bytes at the sector number modulo `2 ^ 24`. -/
theorem diskRead_ok (hlow : a.commandListBaseUpper = 0) (hpos : 0 < count.toNat)
    (hcount : count.toNat ≤ 8) (hsep : Separate buff a.buffer (512 * count.toNat))
    (h : diskRead buff sector count ans a = some (.ok, a')) :
    SamePort a a' ∧ a'.disk = a.disk ∧ ∀ i < 512 * count.toNat,
      a'.mem (buff + BitVec.ofNat 64 i) = a.disk (512 * (sector.toNat % 2 ^ 24) + i) := by
  obtain ⟨⟨res, a₁⟩, hread, hres⟩ := Option.bind_eq_some_iff.mp h
  dsimp only at hres
  split_ifs at hres with hzero
  · cases hres
  · obtain rfl : res = 0 := not_not.mp hzero
    obtain ⟨hport, hdisk, hmem⟩ := devAhciRead_ok hlow hpos (by omega) hread
    obtain rfl := (Prod.mk.inj (Option.some.inj hres)).2
    refine ⟨⟨hport.hostCapability, hport.commandListBaseUpper, hport.buffer⟩, hdisk, ?_⟩
    intro i hi
    have hoff : a.buffer + BitVec.ofNat 64 i - a.buffer = BitVec.ofNat 64 i := by bv_omega
    have hval : (BitVec.ofNat 64 i).toNat = i := by
      rw [BitVec.toNat_ofNat]
      omega
    dsimp only
    rw [toNat_bytes hcount, hport.buffer, memcpy_separate hsep hi, hmem, dmaToMem, hoff, hval,
      if_pos hi, transferStart_sector]

/-- What `disk_write` changes are the bytes at the sector number modulo `2 ^ 24`. -/
theorem diskWrite_ok (hlow : a.commandListBaseUpper = 0) (hpos : 0 < count.toNat)
    (hcount : count.toNat ≤ 8) (hsep : Separate buff a.buffer (512 * count.toNat))
    (h : diskWrite buff sector count ans a = some (.ok, a')) :
    SamePort a a' ∧ ∀ b, a'.disk b =
      let start := 512 * (sector.toNat % 2 ^ 24)
      if start ≤ b ∧ b < start + 512 * count.toNat then a.mem (buff + BitVec.ofNat 64 (b - start))
      else a.disk b := by
  obtain ⟨⟨res, a₁⟩, hwrite, hres⟩ := Option.bind_eq_some_iff.mp h
  dsimp only at hres
  split_ifs at hres with hzero
  · cases hres
  · obtain rfl : res = 0 := not_not.mp hzero
    obtain rfl := (Prod.mk.inj (Option.some.inj hres)).2
    obtain ⟨hport, -, hdisk⟩ := devAhciWrite_ok (by exact hlow) hpos (by omega) hwrite
    refine ⟨⟨hport.hostCapability, hport.commandListBaseUpper, hport.buffer⟩, ?_⟩
    intro b
    rw [hdisk, dmaToDisk, transferStart_sector, toNat_bytes hcount]
    dsimp only
    split_ifs with hb
    · exact memcpy_separate hsep.symm (by omega)
    · rfl

end OneTransfer

theorem diskWrite_idle (buff : Word) (sector count : BitVec 32) {a : Ahci}
    (hslots : (a.hostCapability &&& 0x0f00#32) >>> 8 ≠ 0) :
    ∃ a', diskWrite buff sector count idleAnswer a = some (.ok, a') := by
  obtain ⟨a', hissue⟩ := issue_idle (a := { a with
    mem := memcpy a.mem a.buffer buff (count * 512#32).toNat }) hslots
  exact ⟨a', Option.bind_eq_some_iff.mpr ⟨(0, a'), hissue, rfl⟩⟩

/-! ## The array of sectors -/

/-- A transfer that returned `RES_OK`: its sectors, the bytes that the caller got or gave, and
for a write the disk before and after. -/
inductive Transfer
  | read (sector count : Nat) (data : Nat → Byte)
  | write (sector count : Nat) (data before after : Nat → Byte)

/-- The byte `b` of the sectors from `sector` to `sector + count - 1`. -/
def InSectors (sector count b : Nat) : Prop := 512 * sector ≤ b ∧ b < 512 * (sector + count)

instance (sector count b : Nat) : Decidable (InSectors sector count b) :=
  inferInstanceAs (Decidable (_ ∧ _))

/-- The byte of the latest write, the latest transfer first, or the initial one. -/
def latest (disk₀ : Nat → Byte) : List Transfer → Nat → Byte
  | [], b => disk₀ b
  | .read _ _ _ :: rest, b => latest disk₀ rest b
  | .write sector count data _ _ :: rest, b =>
      if InSectors sector count b then data (b - 512 * sector) else latest disk₀ rest b

/-- Reads return the latest bytes and writes change no other sector. -/
def ArrayLike (disk₀ : Nat → Byte) : List Transfer → Prop
  | [] => True
  | .read sector count data :: rest =>
      (∀ i < 512 * count, data i = latest disk₀ rest (512 * sector + i)) ∧ ArrayLike disk₀ rest
  | .write sector count _ before after :: rest =>
      (∀ b, ¬ InSectors sector count b → after b = before b) ∧ ArrayLike disk₀ rest

/-- Transfers of one to eight sectors, with start sectors in `allowed` and the caller's buffer
apart from the port's, in any order; between them the caller does to memory what it likes. -/
inductive DiskRun (allowed : Set (BitVec 32)) (a₀ : Ahci) : Ahci → List Transfer → Prop
  | start : DiskRun allowed a₀ a₀ []
  | caller {a : Ahci} {rest : List Transfer} (mem : Mem) (hrun : DiskRun allowed a₀ a rest) :
      DiskRun allowed a₀ { a with mem } rest
  | read {a a' : Ahci} {rest : List Transfer} {buff : Word} {sector count : BitVec 32}
      {ans : Answer} (hrun : DiskRun allowed a₀ a rest) (hsector : sector ∈ allowed)
      (hpos : 0 < count.toNat) (hcount : count.toNat ≤ 8)
      (hsep : Separate buff a.buffer (512 * count.toNat))
      (h : diskRead buff sector count ans a = some (.ok, a')) :
      DiskRun allowed a₀ a'
        (.read sector.toNat count.toNat (fun i => a'.mem (buff + BitVec.ofNat 64 i)) :: rest)
  | write {a a' : Ahci} {rest : List Transfer} {buff : Word} {sector count : BitVec 32}
      {ans : Answer} (hrun : DiskRun allowed a₀ a rest) (hsector : sector ∈ allowed)
      (hpos : 0 < count.toNat) (hcount : count.toNat ≤ 8)
      (hsep : Separate buff a.buffer (512 * count.toNat))
      (h : diskWrite buff sector count ans a = some (.ok, a')) :
      DiskRun allowed a₀ a' (.write sector.toNat count.toNat
        (fun i => a.mem (buff + BitVec.ofNat 64 i)) a.disk a'.disk :: rest)

/-- What a run below `2 ^ 24` keeps: the disk is the latest bytes. -/
structure DiskInv (a₀ a : Ahci) (transfers : List Transfer) : Prop where
  low : a.commandListBaseUpper = 0
  disk : ∀ b, a.disk b = latest a₀.disk transfers b
  arrayLike : ArrayLike a₀.disk transfers

theorem DiskRun.inv {allowed : Set (BitVec 32)} {a₀ a : Ahci} {transfers : List Transfer}
    (hlow : a₀.commandListBaseUpper = 0) (hallowed : ∀ s ∈ allowed, s.toNat < 2 ^ 24)
    (hrun : DiskRun allowed a₀ a transfers) : DiskInv a₀ a transfers := by
  induction hrun with
  | start => exact ⟨hlow, fun _ => rfl, trivial⟩
  | caller mem _ ih => exact ⟨ih.low, ih.disk, ih.arrayLike⟩
  | read _ hsector hpos hcount hsep h ih =>
      obtain ⟨hport, hdisk, hmem⟩ := diskRead_ok ih.low hpos hcount hsep h
      rw [Nat.mod_eq_of_lt (hallowed _ hsector)] at hmem
      refine ⟨hport.commandListBaseUpper.trans ih.low, ?_, ?_, ih.arrayLike⟩
      · intro b
        rw [hdisk]
        exact ih.disk b
      · intro i hi
        exact (hmem i hi).trans (ih.disk _)
  | write _ hsector hpos hcount hsep h ih =>
      obtain ⟨hport, hdisk⟩ := diskWrite_ok ih.low hpos hcount hsep h
      rw [Nat.mod_eq_of_lt (hallowed _ hsector)] at hdisk
      simp only [← Nat.mul_add] at hdisk
      refine ⟨hport.commandListBaseUpper.trans ih.low, ?_, ?_, ih.arrayLike⟩
      · intro b
        rw [hdisk b, ih.disk b]
        rfl
      · intro b hb
        rw [hdisk b]
        exact if_neg hb

section Aliasing

variable {buff : Word} {sector count : BitVec 32} {a a' : Ahci}

/-- A write that starts at or above `2 ^ 24` puts its first byte into another sector. -/
theorem diskWrite_aliases {ans : Answer} (hlow : a.commandListBaseUpper = 0)
    (hpos : 0 < count.toNat) (hcount : count.toNat ≤ 8)
    (hsep : Separate buff a.buffer (512 * count.toNat)) (hhigh : 2 ^ 24 ≤ sector.toNat)
    (h : diskWrite buff sector count ans a = some (.ok, a')) :
    a'.disk (512 * (sector.toNat % 2 ^ 24)) = a.mem buff ∧
      ¬ InSectors sector.toNat count.toNat (512 * (sector.toNat % 2 ^ 24)) := by
  obtain ⟨-, hdisk⟩ := diskWrite_ok hlow hpos hcount hsep h
  constructor
  · rw [hdisk]
    dsimp only
    rw [if_pos ⟨Nat.le_refl _, by omega⟩, Nat.sub_self]
    exact congrArg a.mem (BitVec.add_zero buff)
  · intro hin
    have hle := hin.1
    omega

/-- If that byte is not the one already there, the disk is no array. -/
theorem not_arrayLike_of_aliasing {disk₀ data : Nat → Byte} {rest : List Transfer} {ans : Answer}
    (hlow : a.commandListBaseUpper = 0) (hpos : 0 < count.toNat) (hcount : count.toNat ≤ 8)
    (hsep : Separate buff a.buffer (512 * count.toNat)) (hhigh : 2 ^ 24 ≤ sector.toNat)
    (hnew : a.mem buff ≠ a.disk (512 * (sector.toNat % 2 ^ 24)))
    (h : diskWrite buff sector count ans a = some (.ok, a')) :
    ¬ ArrayLike disk₀ (.write sector.toNat count.toNat data a.disk a'.disk :: rest) := by
  intro harray
  obtain ⟨hbyte, hother⟩ := diskWrite_aliases hlow hpos hcount hsep hhigh h
  exact hnew (hbyte.symm.trans (harray.1 _ hother))

/-- From every state of the port some run that writes one such sector goes wrong. -/
theorem exists_run_aliasing {allowed : Set (BitVec 32)} (hlow : a.commandListBaseUpper = 0)
    (hslots : (a.hostCapability &&& 0x0f00#32) >>> 8 ≠ 0) (hsector : sector ∈ allowed)
    (hhigh : 2 ^ 24 ≤ sector.toNat) :
    ∃ a' transfers, DiskRun allowed a a' transfers ∧ ¬ ArrayLike a.disk transfers := by
  -- the caller fills memory with another byte than the one about to be overwritten
  let old := a.disk (512 * (sector.toNat % 2 ^ 24))
  have hnew : old + 1 ≠ old := by bv_omega
  have hsep : Separate (a.buffer + 0x1000) a.buffer (512 * (1#32).toNat) := by
    constructor <;> bv_omega
  obtain ⟨a', hwrite⟩ := diskWrite_idle (a.buffer + 0x1000) sector 1#32
    (a := { a with mem := fun _ => old + 1 }) hslots
  have hrun := DiskRun.write (.caller _ .start) hsector (by decide) (by decide) (by exact hsep)
    hwrite
  exact ⟨a', _, hrun,
    not_arrayLike_of_aliasing hlow (by decide) (by decide) hsep hhigh hnew hwrite⟩

end Aliasing

/-- The disk is an array of sectors exactly for the start sectors below `2 ^ 24`: every run
with start sectors in `allowed` reads what it wrote and changes only what it writes if and
only if all of them are. -/
theorem disk_array_iff {a₀ : Ahci} (hlow : a₀.commandListBaseUpper = 0)
    (hslots : (a₀.hostCapability &&& 0x0f00#32) >>> 8 ≠ 0) (allowed : Set (BitVec 32)) :
    (∀ a transfers, DiskRun allowed a₀ a transfers → ArrayLike a₀.disk transfers) ↔
      ∀ s ∈ allowed, s.toNat < 2 ^ 24 := by
  constructor
  · intro harray s hs
    by_contra hge
    obtain ⟨a, transfers, hrun, hbroken⟩ :=
      exists_run_aliasing hlow hslots hs (Nat.le_of_not_lt hge)
    exact hbroken (harray a transfers hrun)
  · intro hallowed a transfers hrun
    exact (hrun.inv hlow hallowed).arrayLike

/-- A port with 15 command slots and an empty disk, in a memory of ones. -/
def blankAhci : Ahci where
  hostCapability := 0x0f00
  commandListBase := 0x2000
  commandListBaseUpper := 0
  buffer := 0x5000
  cmdHeaders := fun x => ⟨0, 0, 0, (x <<< 3).setWidth 32, 0⟩
  cmdTables := fun _ => ⟨.zero, ⟨0, 0, 0, 0⟩⟩
  mem := fun _ => 1
  disk := fun _ => 0

theorem blankAhci_slots : (blankAhci.hostCapability &&& 0x0f00#32) >>> 8 ≠ 0 := by decide

theorem blankAhci_separate : Separate 0x6000 blankAhci.buffer (512 * (1#32).toNat) := by
  constructor <;> decide

/-- Below `2 ^ 24` its runs, and there are runs that write, are those of an array. -/
theorem blankAhci_low_sectors_array :
    (∃ a transfer, DiskRun { s | s.toNat < 2 ^ 24 } blankAhci a [transfer]) ∧
      ∀ a transfers, DiskRun { s | s.toNat < 2 ^ 24 } blankAhci a transfers →
        ArrayLike blankAhci.disk transfers := by
  have hsector : (3#32).toNat < 2 ^ 24 := by decide
  have hsep := blankAhci_separate
  obtain ⟨a, hwrite⟩ := diskWrite_idle 0x6000 3#32 1#32 blankAhci_slots
  refine ⟨⟨a, _, .write .start hsector (by decide) (by decide) hsep hwrite⟩, ?_⟩
  exact (disk_array_iff rfl blankAhci_slots { s | s.toNat < 2 ^ 24 }).mpr fun _ hs => hs

/-- Writing sector `0x1000000` overwrites sector 0. -/
theorem blankAhci_overwrites_sector_zero :
    blankAhci.disk 0 = 0 ∧ ∃ a, diskWrite 0x6000 0x1000000 1 idleAnswer blankAhci = some (.ok, a) ∧
      a.disk 0 = 1 ∧ ∃ transfers, DiskRun Set.univ blankAhci a transfers ∧
        ¬ ArrayLike blankAhci.disk transfers := by
  have hhigh : 2 ^ 24 ≤ (0x1000000#32).toNat := by decide
  have hsep := blankAhci_separate
  obtain ⟨a, hwrite⟩ := diskWrite_idle 0x6000 0x1000000 1#32 blankAhci_slots
  have hbyte := (diskWrite_aliases rfl (by decide) (by decide) hsep hhigh hwrite).1
  have hrun := DiskRun.write .start (Set.mem_univ _) (by decide) (by decide) hsep hwrite
  exact ⟨rfl, a, hwrite, hbyte, _, hrun, not_arrayLike_of_aliasing rfl (by decide) (by decide) hsep
    hhigh (by decide) hwrite⟩

/-! ## The port buffer -/

/-- The size of the copy in both functions. -/
def copyLength (count : BitVec 32) : Nat := (count * 512#32).toNat

theorem diskRead_eq (buff : Word) (sector count : BitVec 32) (ans : Answer) (a : Ahci) :
    diskRead buff sector count ans a =
      (devAhciRead (sector.setWidth 64) count ans a).bind fun (res, a) =>
        if res ≠ 0 then some (.error, a)
        else some (.ok, { a with mem := memcpy a.mem buff a.buffer (copyLength count) }) := rfl

theorem diskWrite_eq (buff : Word) (sector count : BitVec 32) (ans : Answer) (a : Ahci) :
    diskWrite buff sector count ans a =
      (devAhciWrite (sector.setWidth 64) count ans
        { a with mem := memcpy a.mem a.buffer buff (copyLength count) }).bind fun (res, a) =>
          if res ≠ 0 then some (.error, a) else some (.ok, a) := rfl

/-- The command table of a slot, as the device finds it through the header. -/
def commandTable (a : Ahci) (slot : Nat) : CmdTable :=
  a.cmdTables (a.cmdHeaders (driverHeader a slot)).table

/-- The command of a transfer, filled in. -/
def transferTable (write : BitVec 1) (command : Byte) (sector count : BitVec 32) (slot : Nat)
    (a : Ahci) : CmdTable :=
  commandTable (prepare write command (sector.setWidth 64) count slot a) slot

/-- The bytes that are copied and the bytes that the PRDT entry tells the device to transfer are
those of the sectors, and all of them lie in the page. -/
structure TransferInside (page : Word) (a : Ahci) (count : BitVec 32) (entry : PrdtEntry) :
    Prop where
  copyExact : copyLength count = 512 * count.toNat
  copyInside : ∀ k < copyLength count, InPage page (a.buffer + BitVec.ofNat 64 k)
  prdtExact : entry.byteCount.toNat + 1 = 512 * count.toNat
  prdtInside : ∀ k < entry.byteCount.toNat + 1, InPage page
    (joinHalves entry.dataBaseAddress entry.dataBaseAddressUpper + BitVec.ofNat 64 k)

section Buffer

variable {write : BitVec 1} {command : Byte} {sector count : BitVec 32} {slot : Nat} {a : Ahci}

theorem copyLength_eq (hmax : count.toNat ≤ 128) : copyLength count = 512 * count.toNat := by
  rw [copyLength, BitVec.toNat_mul, BitVec.toNat_ofNat]
  omega

theorem transferTable_prdt : (transferTable write command sector count slot a).prdtEntry =
    { dataBaseAddress := a.buffer.setWidth 32
      dataBaseAddressUpper := upperHalf a.buffer
      byteCount := (count <<< 9 - 1#32).setWidth 22
      interruptOnCompletion := 1 } := by
  have hheader : driverHeader (prepare write command (sector.setWidth 64) count slot a) slot =
      driverHeader a slot := rfl
  simp only [transferTable, commandTable, hheader]
  simp only [prepare, Function.update_self, CmdHeader.table]

theorem toNat_byteCount (hpos : 0 < count.toNat) (hmax : count.toNat ≤ 128) :
    ((count <<< 9 - 1#32).setWidth 22 : BitVec 22).toNat + 1 = 512 * count.toNat := by
  simp only [BitVec.toNat_setWidth, BitVec.toNat_sub, BitVec.toNat_shiftLeft, BitVec.toNat_ofNat,
    Nat.shiftLeft_eq]
  omega

/-- A block of bytes from the beginning of a page lies in the page when it is no longer. -/
theorem block_inPage_iff (page : Word) {n : Nat} (hn : n < 2 ^ 64) :
    (∀ k < n, InPage page (page + BitVec.ofNat 64 k)) ↔ n ≤ 0x1000 := by
  constructor
  · intro h
    by_contra hgt
    have hin := h 0x1000 (by omega)
    unfold InPage at hin
    rw [toNat_offset page (by decide)] at hin
    omega
  · intro hle k hk
    unfold InPage
    rw [toNat_offset page (by omega)]
    omega

/-- A transfer of up to 128 sectors through the buffer of a port moves exactly its bytes, and
stays in the page of the buffer exactly when it has at most 8 sectors. -/
theorem transfer_inside_buffer_iff {σ : Type} {src : PageSource σ} {pml4 page : Word}
    {waits : PortWaits} {port port' : AhciPort} {s s' : Machine σ} {pmm : σ} {mem : Mem}
    (hinit : devAhciInitPort src pml4 waits port s = some (port', s'))
    (hpage : src.getpage s.pmm s.mem = some (page, pmm, mem)) (ha : a.buffer = port'.buffer)
    (hpos : 0 < count.toNat) (hmax : count.toNat ≤ 128) :
    TransferInside page a count (transferTable write command sector count slot a).prdtEntry ↔
      count.toNat ≤ 8 := by
  obtain ⟨pmm', mem', hget⟩ := devAhciInitPort_buffer hinit
  obtain ⟨hbuffer, -⟩ := Prod.mk.inj (Option.some.inj (hpage.symm.trans hget))
  obtain rfl : a.buffer = page := ha.trans hbuffer.symm
  have hcopy := copyLength_eq hmax
  have hprdt := toNat_byteCount hpos hmax
  have hblock := block_inPage_iff a.buffer (n := 512 * count.toNat) (by omega)
  rw [transferTable_prdt]
  constructor
  · intro h
    have hinside := h.copyInside
    rw [hcopy, hblock] at hinside
    omega
  · intro hle
    have hinside := hblock.mpr (by omega)
    refine ⟨hcopy, ?_, hprdt, ?_⟩
    · rwa [hcopy]
    · rwa [hprdt, joinHalves_upperHalf]

end Buffer

/-- A port on a machine with free pages from 1 MiB on. -/
theorem initPort_ascending :
    ∃ port s pmm mem, devAhciInitPort poolSource 0x1000 ⟨true, true⟩ ⟨resetPort, 0⟩
        (pagesMachine 0x100000 137 (by decide) (by decide)) = some (port, s) ∧
      poolSource.getpage (pagesMachine 0x100000 137 (by decide) (by decide)).pmm (fun _ => 0) =
        some (port.buffer, pmm, mem) := by
  obtain ⟨port, s, h⟩ := devAhciInitPort_progress
    (@pagesMachine_supplies 0x100000 137 (by decide) (by decide)) 0x1000 ⟨resetPort, 0⟩
  obtain ⟨pmm, mem, hget⟩ := devAhciInitPort_buffer h
  exact ⟨port, s, pmm, mem, h, hget⟩

/-- Eight sectors fit. -/
theorem eight_sectors_inside :
    ∃ port s, devAhciInitPort poolSource 0x1000 ⟨true, true⟩ ⟨resetPort, 0⟩
        (pagesMachine 0x100000 137 (by decide) (by decide)) = some (port, s) ∧
      ∀ a : Ahci, a.buffer = port.buffer →
        TransferInside port.buffer a 8 (transferTable 0 ATA_CMD_READ_DMA_EX 0 8 0 a).prdtEntry := by
  obtain ⟨port, s, pmm, mem, h, hget⟩ := initPort_ascending
  refine ⟨port, s, h, fun a ha => ?_⟩
  exact (transfer_inside_buffer_iff h hget ha (by decide) (by decide)).mpr (by decide)

/-- Reading or writing a cluster of 16 sectors goes past the page: byte `0x1000` is copied and
transferred. -/
theorem sixteen_sectors_outside :
    ∃ port s, devAhciInitPort poolSource 0x1000 ⟨true, true⟩ ⟨resetPort, 0⟩
        (pagesMachine 0x100000 137 (by decide) (by decide)) = some (port, s) ∧
      ∀ a : Ahci, a.buffer = port.buffer → copyLength 16 = 0x2000 ∧
        ((transferTable 0 ATA_CMD_READ_DMA_EX 0 16 0 a).prdtEntry.byteCount).toNat + 1 = 0x2000 ∧
        ¬ TransferInside port.buffer a 16
          (transferTable 0 ATA_CMD_READ_DMA_EX 0 16 0 a).prdtEntry := by
  obtain ⟨port, s, pmm, mem, h, hget⟩ := initPort_ascending
  refine ⟨port, s, h, fun a ha => ⟨by decide, ?_, fun hinside => ?_⟩⟩
  · rw [transferTable_prdt]
    exact toNat_byteCount (by decide) (by decide)
  · have hin := hinside.copyInside 0x1000 (by decide)
    rw [ha] at hin
    unfold InPage at hin
    rw [toNat_offset _ (by decide)] at hin
    exact absurd hin (by decide)

end ChronOS.Fs
