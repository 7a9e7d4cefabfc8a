/-
  Fs/AhciDrive.lean --- the drive of FatFs is `disk_read` and `disk_write`.

  The results about volumes and files are over any drive with some media on it.  Here the drive
  is the AHCI port: FatFs' buffer lies at an address apart from the buffer of the port, and a
  device, of which only its answers are known, ends each command as it likes.  Sectors below
  `2 ^ 24` and transfers of up to eight of them make media of it, as long as a command that
  fails spoils nothing but the sectors it was to write.
-/
import ChronOS.Fs.FatEntries

set_option autoImplicit false

namespace ChronOS.Fs

open ChronOS.Foundation ChronOS.Drivers

/-- The port with its disk, and the number of commands so far. -/
structure PortDrive where
  port : Ahci
  commands : Nat

/-- How the device answers a command: by its number, whether it writes, its sectors and the port
as it is then. -/
abbrev Device : Type := Nat → Bool → Lba → BitVec 32 → Ahci → Answer

/-- The `n` sectors of a buffer at `buff`. -/
def storeSectors (buff : Word) (n : Nat) (data : Nat → Sector) (m : Mem) : Mem := fun x =>
  if (x - buff).toNat < 512 * n then
    byteAt (data ((x - buff).toNat / 512)) (x - buff).toNat
  else m x

/-- Sector `i` of a buffer at `buff`. -/
def loadSector (buff : Word) (m : Mem) (i : Nat) : Sector := fun k =>
  m (buff + BitVec.ofNat 64 (512 * i + k))

theorem loadSector_storeSectors {buff : Word} {n i : Nat} {data : Nat → Sector} {m : Mem}
    (hn : n ≤ 8) (hi : i < n) : loadSector buff (storeSectors buff n data m) i = data i := by
  funext k
  have hk := k.isLt
  have hdiv : (512 * i + k) / 512 = i := by omega
  have hmod : (512 * i + (k : Nat)) % 512 = k := by omega
  rw [loadSector, storeSectors, toNat_offset _ (by omega), if_pos (by omega)]
  exact congrArg₂ data hdiv (Fin.ext hmod)

/-- `disk_read` and `disk_write` with a buffer at `buff`. -/
def portDrive (buff : Word) (dev : Device) : Drive PortDrive where
  read q n buf s := do
    let a := { s.port with mem := storeSectors buff n.toNat buf s.port.mem }
    let (res, a) ← diskRead buff q n (dev s.commands false q n a) a
    some (res, fun i => if i < n.toNat then loadSector buff a.mem i else buf i,
      ⟨a, s.commands + 1⟩)
  write data q n s := do
    let a := { s.port with mem := storeSectors buff n.toNat data s.port.mem }
    let (res, a) ← diskWrite buff q n (dev s.commands true q n a) a
    some (res, ⟨a, s.commands + 1⟩)

/-- A command that fails changes nothing on the disk but the sectors it was to write. -/
def Device.Contained (dev : Device) : Prop :=
  ∀ t write q n a mem disk, (dev t write q n a).completion = .taskFileError mem disk →
    ∀ b, ¬ (write = true ∧ InSectors q.toNat n.toNat b) → disk b = a.disk b

/-! ## Commands that fail -/

section Failed

variable {write : BitVec 1} {command : Byte} {sector : Word} {sectorCount : BitVec 32}
  {ans : Answer} {a a' : Ahci} {r : BitVec 32}

/-- The port is kept, and the disk is as it was or as the device left it. -/
structure Failed (ans : Answer) (a a' : Ahci) : Prop where
  port : SamePort a a'
  disk : a'.disk = a.disk ∨ ∃ mem disk, ans.completion = .taskFileError mem disk ∧ a'.disk = disk

theorem Failed.disk_eq (h : Failed ans a a') {b : Nat}
    (hans : ∀ mem disk, ans.completion = .taskFileError mem disk → disk b = a.disk b) :
    a'.disk b = a.disk b := by
  rcases h.disk with hsame | ⟨mem, disk, hcompletion, hdisk⟩
  · rw [hsame]
  · rw [hdisk, hans mem disk hcompletion]

theorem issue_failed (h : issue write command sector sectorCount ans a = some (r, a'))
    (hr : r ≠ 0) : Failed ans a a' := by
  unfold issue at h
  split at h
  · cases h
    exact ⟨⟨rfl, rfl, rfl⟩, Or.inl rfl⟩
  · dsimp only at h
    split_ifs at h
    · split at h <;> cases h
      · exact absurd rfl hr
      · next mem disk heq => exact ⟨⟨rfl, rfl, rfl⟩, Or.inr ⟨mem, disk, heq, rfl⟩⟩
    · cases h
      exact ⟨⟨rfl, rfl, rfl⟩, Or.inl rfl⟩

theorem issue_returns (h : ans.completion ≠ .never) :
    ∃ x, issue write command sector sectorCount ans a = some x := by
  unfold issue
  split
  · exact ⟨_, rfl⟩
  · dsimp only
    split_ifs
    · split
      · exact ⟨_, rfl⟩
      · exact ⟨_, rfl⟩
      · next hnever => exact absurd hnever h
    · exact ⟨_, rfl⟩

variable {buff : Word} {q n : BitVec 32}

theorem diskRead_failed (h : diskRead buff q n ans a = some (.error, a')) : Failed ans a a' := by
  obtain ⟨⟨res, a₁⟩, hread, hres⟩ := Option.bind_eq_some_iff.mp h
  dsimp only at hres
  split_ifs at hres with hzero
  · cases hres
    exact issue_failed hread hzero
  · cases hres

theorem diskWrite_failed (h : diskWrite buff q n ans a = some (.error, a')) : Failed ans a a' := by
  obtain ⟨⟨res, a₁⟩, hwrite, hres⟩ := Option.bind_eq_some_iff.mp h
  dsimp only at hres
  split_ifs at hres with hzero
  · cases hres
    obtain ⟨hport, hdisk⟩ := issue_failed hwrite hzero
    exact ⟨⟨hport.hostCapability, hport.commandListBaseUpper, hport.buffer⟩, hdisk⟩
  · cases hres

theorem diskRead_returns (h : ans.completion ≠ .never) :
    ∃ x, diskRead buff q n ans a = some x := by
  rw [diskRead_eq, devAhciRead]
  obtain ⟨⟨res, a₁⟩, hread⟩ := issue_returns h
  rw [hread, Option.bind_some]
  dsimp only
  split_ifs
  · exact ⟨_, rfl⟩
  · exact ⟨_, rfl⟩

theorem diskWrite_returns (h : ans.completion ≠ .never) :
    ∃ x, diskWrite buff q n ans a = some x := by
  rw [diskWrite_eq, devAhciWrite]
  obtain ⟨⟨res, a₁⟩, hwrite⟩ := issue_returns h
  rw [hwrite, Option.bind_some]
  dsimp only
  split_ifs
  · exact ⟨_, rfl⟩
  · exact ⟨_, rfl⟩

end Failed

/-! ## The media -/

section Media

variable {buff : Word} {dev : Device} {q n : BitVec 32} {s s' : PortDrive}

/-- The command list is below 4 GiB, and the buffers are apart. -/
def PortDrive.Ready (buff : Word) (s : PortDrive) : Prop :=
  s.port.commandListBaseUpper = 0 ∧ Separate buff s.port.buffer 0x1000

theorem PortDrive.Ready.next (h : s.Ready buff) {a : Ahci} {mem : Mem} {t : Nat}
    (hport : SamePort { s.port with mem } a) : PortDrive.Ready buff ⟨a, t⟩ :=
  ⟨hport.commandListBaseUpper.trans h.1, (congrArg (Separate buff · 0x1000) hport.buffer).mpr h.2⟩

theorem PortDrive.Ready.separate (h : s.Ready buff) (hn : n.toNat ≤ 8) :
    Separate buff s.port.buffer (512 * n.toNat) := by
  obtain ⟨-, hfirst, hsecond⟩ := h
  exact ⟨by omega, by omega⟩

theorem toNat_sector {i : Nat} (hle : q.toNat + n.toNat ≤ 2 ^ 24) (hi : i < n.toNat) :
    (q + BitVec.ofNat 32 i).toNat = q.toNat + i := by
  rw [BitVec.toNat_add, BitVec.toNat_ofNat]
  omega

/-- Sector `p` of the disk behind the port. -/
def PortDrive.sector (s : PortDrive) (p : Lba) : Sector := fun k =>
  s.port.disk (512 * p.toNat + k)

/-- A sector that is not written has no byte among those written. -/
theorem not_inSectors {p : Lba} (hfar : n.toNat ≤ (p - q).toNat) (k : Fin 512) :
    ¬ InSectors q.toNat n.toNat (512 * p.toNat + k) := by
  have hk := k.isLt
  unfold InSectors
  bv_omega

theorem portDrive_read (hdev : dev.Contained) {buf data : Nat → Sector} {r : Dresult}
    (hs : s.Ready buff) (hpos : 0 < n.toNat) (hmost : n.toNat ≤ 8)
    (hle : q.toNat + n.toNat ≤ 2 ^ 24)
    (h : (portDrive buff dev).read q n buf s = some (r, data, s')) :
    s'.Ready buff ∧ (∀ p : Lba, p.toNat < 2 ^ 24 → s'.sector p = s.sector p) ∧
      (r = .ok → ∀ i < n.toNat, data i = s.sector (q + BitVec.ofNat 32 i)) := by
  simp only [portDrive, Option.bind_eq_bind, Option.bind_eq_some_iff, Prod.exists] at h
  obtain ⟨res, a, hread, heq⟩ := h
  cases heq
  cases r with
  | ok =>
    have hspec := fun hup hsep => diskRead_ok hup hpos hmost hsep hread
    obtain ⟨hport, hdisk, hmem⟩ := hspec hs.1 (hs.separate hmost)
    refine ⟨hs.next hport, fun p _ => funext fun k => congrFun hdisk _,
      fun _ i hi => funext fun k => ?_⟩
    have hk := k.isLt
    refine (congrFun (if_pos hi) k).trans ((hmem _ (by omega)).trans ?_)
    rw [PortDrive.sector, toNat_sector hle hi, Nat.mod_eq_of_lt (by omega), Nat.mul_add,
      Nat.add_assoc]
  | error =>
    have hfailed := diskRead_failed hread
    refine ⟨hs.next hfailed.port, fun p _ => funext fun k => ?_, fun hok => by cases hok⟩
    exact hfailed.disk_eq fun mem disk hans =>
      hdev _ _ _ _ _ _ _ hans _ fun hw => by cases hw.1

theorem portDrive_write (hdev : dev.Contained) {data : Nat → Sector} {r : Dresult}
    (hs : s.Ready buff) (hpos : 0 < n.toNat) (hmost : n.toNat ≤ 8)
    (hle : q.toNat + n.toNat ≤ 2 ^ 24)
    (h : (portDrive buff dev).write data q n s = some (r, s')) :
    s'.Ready buff ∧ (∀ p : Lba, p.toNat < 2 ^ 24 → n.toNat ≤ (p - q).toNat →
        s'.sector p = s.sector p) ∧
      (r = .ok → ∀ i < n.toNat, s'.sector (q + BitVec.ofNat 32 i) = data i) := by
  simp only [portDrive, Option.bind_eq_bind, Option.bind_eq_some_iff, Prod.exists] at h
  obtain ⟨res, a, hwrite, heq⟩ := h
  cases heq
  cases r with
  | ok =>
    have hspec := fun hup hsep => diskWrite_ok hup hpos hmost hsep hwrite
    obtain ⟨hport, hdisk⟩ := hspec hs.1 (hs.separate hmost)
    rw [Nat.mod_eq_of_lt (by omega)] at hdisk
    simp only [← Nat.mul_add] at hdisk
    refine ⟨hs.next hport, fun p _ hfar => funext fun k => ?_, fun _ i hi => funext fun k => ?_⟩
    · exact (hdisk _).trans (if_neg (not_inSectors hfar k))
    · have hk := k.isLt
      have hoff : 512 * (q + BitVec.ofNat 32 i).toNat + k - 512 * q.toNat = 512 * i + k := by
        rw [toNat_sector hle hi]
        omega
      refine (hdisk _).trans ((if_pos ?_).trans ?_)
      · rw [toNat_sector hle hi]
        omega
      · rw [hoff]
        exact congrFun (loadSector_storeSectors hmost hi) k
  | error =>
    have hfailed := diskWrite_failed hwrite
    refine ⟨hs.next hfailed.port, fun p _ hfar => funext fun k => ?_, fun hok => by cases hok⟩
    exact hfailed.disk_eq fun mem disk hans =>
      hdev _ _ _ _ _ _ _ hans _ fun hw => not_inSectors hfar k hw.2

/-- The sectors below `2 ^ 24` of the disk behind the port. -/
def portMedia (buff : Word) (dev : Device) (hdev : dev.Contained) :
    Media (portDrive buff dev) where
  limit := 2 ^ 24
  limit_lt := by decide
  most := 8
  most_pos := by decide
  sectors := PortDrive.sector
  Sound := PortDrive.Ready buff
  read_spec := portDrive_read hdev
  write_spec := portDrive_write hdev

/-- A device that ends every command makes a drive on which every transfer returns. -/
theorem portMedia_answers (hdev : dev.Contained)
    (hends : ∀ t write q n a, (dev t write q n a).completion ≠ .never) :
    (portMedia buff dev hdev).Answers where
  read := by
    intro q n buf s _ _ _ _
    obtain ⟨⟨r, a⟩, h⟩ := diskRead_returns (hends s.commands false q n _)
    exact ⟨_, _, _, Option.bind_eq_some_iff.mpr ⟨_, h, rfl⟩⟩
  write := by
    intro data q n s _ _ _ _
    obtain ⟨⟨r, a⟩, h⟩ := diskWrite_returns (hends s.commands true q n _)
    exact ⟨_, _, Option.bind_eq_some_iff.mpr ⟨_, h, rfl⟩⟩

example : Device.Contained fun _ _ _ _ _ => idleAnswer := fun _ _ _ _ _ _ _ h => by cases h

end Media

end ChronOS.Fs
