/-
  Boot/Bootloader.lean --- the part of `gnu-efi/bootloader/main.c` that loads the
  kernel.

  The kernel file is given by its bytes; reads fill exactly what they are asked for.
  The firmware's `AllocatePages` hands out the pages at the requested address with
  whatever they contain, or fails, which `efi_main` does not look at.  The buffers
  for the headers are pool memory, outside the segments; so is everything that
  `efi_main` does between the loop and the jump.

  A segment is read from the file, and the rest of it up to `p_memsz` is left as
  the firmware handed it out.
-/
import ChronOS.Foundation.Memory

set_option autoImplicit false

namespace ChronOS.Boot

open ChronOS.Foundation

/-! ## The file -/

def ELFCLASS64 : Byte := 2
def ELFDATA2LSB : Byte := 1
def ET_EXEC : BitVec 16 := 2
def EM_X86_64 : BitVec 16 := 62
def EV_CURRENT : BitVec 32 := 1
def PT_LOAD : BitVec 32 := 1

/-- The fields of `Elf64_Ehdr` that `efi_main` reads. -/
structure Ehdr where
  magic : BitVec 32
  eiClass : Byte
  eiData : Byte
  eType : BitVec 16
  eMachine : BitVec 16
  eVersion : BitVec 32
  eEntry : Word
  ePhoff : Word
  ePhentsize : BitVec 16
  ePhnum : BitVec 16
  deriving DecidableEq, Repr

/-- The header at the start of the file. -/
def readEhdr (file : Mem) : Ehdr where
  magic := file.read 4 0
  eiClass := file 4
  eiData := file 5
  eType := file.read 2 16
  eMachine := file.read 2 18
  eVersion := file.read 4 20
  eEntry := file.read 8 24
  ePhoff := file.read 8 32
  ePhentsize := file.read 2 54
  ePhnum := file.read 2 56

/-- The header check; it decides only what is printed. -/
def Ehdr.verified (h : Ehdr) : Bool :=
  h.magic = 0x464C457F ∧ h.eiClass = ELFCLASS64 ∧ h.eiData = ELFDATA2LSB ∧ h.eType = ET_EXEC ∧
    h.eMachine = EM_X86_64 ∧ h.eVersion = EV_CURRENT

/-- The fields of `Elf64_Phdr` that `efi_main` reads. -/
structure Phdr where
  pType : BitVec 32
  pOffset : Word
  pPaddr : Word
  pFilesz : Word
  pMemsz : Word
  deriving DecidableEq, Repr

/-- The program header at byte `o` of the table. -/
def readPhdr (file : Mem) (ePhoff : Word) (o : Nat) : Phdr where
  pType := file.read 4 (ePhoff + BitVec.ofNat 64 o)
  pOffset := file.read 8 (ePhoff + BitVec.ofNat 64 (o + 8))
  pPaddr := file.read 8 (ePhoff + BitVec.ofNat 64 (o + 24))
  pFilesz := file.read 8 (ePhoff + BitVec.ofNat 64 (o + 32))
  pMemsz := file.read 8 (ePhoff + BitVec.ofNat 64 (o + 40))

/-! ## The firmware -/

/-- `AllocatePages` with `AllocateAddress`, for a number of pages at an address: whether it
succeeds.  `contents` is what the pages hold when they are handed out. -/
structure Firmware (φ : Type) where
  allocatePages : Word → Word → φ → Bool × φ
  contents : Mem

/-- Pages are handed out at page addresses and inside the address space. -/
structure Firmware.Lawful {φ : Type} (fw : Firmware φ) : Prop where
  aligned : ∀ pages segment s, (fw.allocatePages pages segment s).1 = true → PageAligned segment
  inside : ∀ pages segment s, (fw.allocatePages pages segment s).1 = true →
    segment.toNat + 0x1000 * pages.toNat ≤ 2 ^ 64

/-- The memory once `pages` pages at `segment` are handed out. -/
def handOut (contents : Mem) (segment pages : Word) (m : Mem) : Mem := fun x =>
  if (x - segment).toNat < 0x1000 * pages.toNat then contents x else m x

/-- `Read` of `size` bytes at `offset` of the file to `dst`. -/
def readFile (file : Mem) (offset size dst : Word) (m : Mem) : Mem := fun x =>
  if (x - dst).toNat < size.toNat then file (offset + (x - dst)) else m x

/-! ## The loop of `efi_main` -/

/-- The state of the firmware, the memory, and whether a call of `AllocatePages` has failed. -/
structure BootState (φ : Type) where
  firmware : φ
  mem : Mem
  allocFailed : Bool

/-- The number of pages of a segment, an `int` that is passed on as a `UINTN`. -/
def Phdr.pages (ph : Phdr) : Word :=
  (((ph.pMemsz + 0x1000#64 - 1#64) / 0x1000#64).setWidth 32).signExtend 64

section Load

variable {φ : Type} (fw : Firmware φ) (file : Mem)

/-- The body of the loop. -/
def loadPhdr (ph : Phdr) (s : BootState φ) : BootState φ :=
  if ph.pType = PT_LOAD then
    let segment := ph.pPaddr
    let (success, firmware) := fw.allocatePages ph.pages segment s.firmware
    let mem := if success then handOut fw.contents segment ph.pages s.mem else s.mem
    let mem := readFile file ph.pOffset ph.pFilesz segment mem
    ⟨firmware, mem, s.allocFailed || !success⟩
  else s

/-- The loop from byte `o` of the table on. -/
def loadPhdrs (ePhoff : Word) (ePhentsize : Nat) (size : Int) :
    Nat → Nat → BootState φ → Option (BootState φ)
  | 0, _, _ => none
  | fuel + 1, o, s =>
    if (o : Int) < size then
      loadPhdrs ePhoff ePhentsize size fuel (o + ePhentsize)
        (loadPhdr fw file (readPhdr file ePhoff o) s)
    else some s

/-- `e_phnum * e_phentsize`, computed as an `int`. -/
def Ehdr.tableSize (h : Ehdr) : BitVec 32 := h.ePhnum.setWidth 32 * h.ePhentsize.setWidth 32

/-- `efi_main` up to the jump: the entry, what is printed about the header, and the state. -/
def efiMain (s : BootState φ) : Option (Word × String × BootState φ) := do
  let header := readEhdr file
  let message := if header.verified then "kernel header successfully verified\r\n"
    else "kernel format is bad\r\n"
  let s ← loadPhdrs fw file header.ePhoff header.ePhentsize.toNat header.tableSize.toInt
    (2 ^ 32) 0 s
  return (header.eEntry, message, s)

end Load

/-! ## Segments and pages -/

/-- The byte at `x` belongs to the segment. -/
def Phdr.Holds (ph : Phdr) (x : Word) : Prop := (x - ph.pPaddr).toNat < ph.pMemsz.toNat

/-- Pages that exist are not more than the segment needs. -/
theorem Phdr.pages_le (ph : Phdr) (h : 0x1000 * ph.pages.toNat ≤ 2 ^ 64) :
    0x1000 * ph.pages.toNat ≤ ph.pMemsz.toNat + 0xFFF := by
  unfold Phdr.pages at h ⊢
  rw [BitVec.toNat_signExtend] at h ⊢
  have hsum : (ph.pMemsz + 0x1000#64 - 1#64).toNat ≤ ph.pMemsz.toNat + 0xFFF := by bv_omega
  have hdiv : ((ph.pMemsz + 0x1000#64 - 1#64) / 0x1000#64).toNat =
      (ph.pMemsz + 0x1000#64 - 1#64).toNat / 0x1000 := BitVec.toNat_udiv
  -- a negative number of pages is far too many
  split_ifs at h ⊢ with hneg
  · omega
  · rw [BitVec.toNat_setWidth, BitVec.toNat_setWidth, hdiv] at h ⊢
    omega

theorem toNat_sub_back {x p : Word} {k : Nat} (h : k ≤ (x - p).toNat) :
    (x - BitVec.ofNat 64 k - p).toNat = (x - p).toNat - k := by
  bv_omega

/-- The pages of one segment do not meet another one: their last byte that is not in the segment is
before the next page. -/
theorem Phdr.pages_apart {a b : Phdr} (ha : PageAligned a.pPaddr) (hb : PageAligned b.pPaddr)
    (hpages : 0x1000 * b.pages.toNat ≤ b.pMemsz.toNat + 0xFFF)
    (hdisjoint : ∀ x, ¬ (a.Holds x ∧ b.Holds x)) {x : Word} (hx : a.Holds x) :
    ¬ (x - b.pPaddr).toNat < 0x1000 * b.pages.toNat := by
  intro hin
  have hnot : ¬ b.Holds x := fun h => hdisjoint x ⟨hx, h⟩
  unfold Phdr.Holds at hx hnot
  unfold PageAligned at ha hb
  -- the last byte of `b`, in the page of `x`
  let back := (x - b.pPaddr).toNat - b.pMemsz.toNat + 1
  have hmod : (x - a.pPaddr).toNat % 0x1000 = (x - b.pPaddr).toNat % 0x1000 := by
    rw [BitVec.toNat_sub, BitVec.toNat_sub]
    omega
  have hback : back ≤ (x - a.pPaddr).toNat := by omega
  have hback' : back ≤ (x - b.pPaddr).toNat := by omega
  refine hdisjoint (x - BitVec.ofNat 64 back) ⟨?_, ?_⟩
  · unfold Phdr.Holds
    rw [toNat_sub_back hback]
    omega
  · unfold Phdr.Holds
    rw [toNat_sub_back hback']
    omega

/-! ## The loaded image -/

section Image

variable {φ : Type} {fw : Firmware φ} {file : Mem}

theorem loadPhdr_allocated {ph : Phdr} (hload : ph.pType = PT_LOAD) {s : BootState φ}
    (hok : (loadPhdr fw file ph s).allocFailed = false) :
    (fw.allocatePages ph.pages ph.pPaddr s.firmware).1 = true := by
  rw [loadPhdr, if_pos hload] at hok
  simpa using (Bool.or_eq_false_iff.mp hok).2

/-- A segment that is loaded holds the bytes of the file, and behind them what was handed out. -/
theorem loadPhdr_own {ph : Phdr} (hload : ph.pType = PT_LOAD) {s : BootState φ}
    (hok : (loadPhdr fw file ph s).allocFailed = false) (x : Word) :
    (loadPhdr fw file ph s).mem x =
      if (x - ph.pPaddr).toNat < ph.pFilesz.toNat then file (ph.pOffset + (x - ph.pPaddr))
      else handOut fw.contents ph.pPaddr ph.pages s.mem x := by
  have hsuccess := loadPhdr_allocated hload hok
  rw [loadPhdr, if_pos hload]
  simp only [hsuccess, if_true]
  rfl

theorem loadPhdr_success {ph : Phdr} (hload : ph.pType = PT_LOAD) {s : BootState φ}
    (hok : (loadPhdr fw file ph s).allocFailed = false) (hlaw : fw.Lawful) :
    PageAligned ph.pPaddr ∧ 0x1000 * ph.pages.toNat ≤ ph.pMemsz.toNat + 0xFFF := by
  have hsuccess := loadPhdr_allocated hload hok
  have hinside := hlaw.inside _ _ _ hsuccess
  exact ⟨hlaw.aligned _ _ _ hsuccess, ph.pages_le (by omega)⟩

theorem loadPhdr_other (hlaw : fw.Lawful) {a b : Phdr} (ha : PageAligned a.pPaddr)
    {s : BootState φ} (hok : (loadPhdr fw file b s).allocFailed = false)
    (hfits : b.pType = PT_LOAD → b.pFilesz.toNat ≤ b.pMemsz.toNat)
    (hdisjoint : b.pType = PT_LOAD → ∀ x, ¬ (a.Holds x ∧ b.Holds x)) {x : Word} (hx : a.Holds x) :
    (loadPhdr fw file b s).mem x = s.mem x := by
  by_cases hload : b.pType = PT_LOAD
  · obtain ⟨hb, hpages⟩ := loadPhdr_success hload hok hlaw
    have hpage := Phdr.pages_apart ha hb hpages (hdisjoint hload) hx
    have hread : ¬ (x - b.pPaddr).toNat < b.pFilesz.toNat := fun hlt =>
      hdisjoint hload x ⟨hx, Nat.lt_of_lt_of_le hlt (hfits hload)⟩
    rw [loadPhdr_own hload hok, if_neg hread, handOut, if_neg hpage]
  · rw [loadPhdr, if_neg hload]

/-- Program header `i` of the file. -/
def phdrAt (file : Mem) (i : Nat) : Phdr :=
  readPhdr file (readEhdr file).ePhoff (i * (readEhdr file).ePhentsize.toNat)

/-- The state after the first `n` headers. -/
def loadFirst (fw : Firmware φ) (file : Mem) : Nat → BootState φ → BootState φ
  | 0, s => s
  | n + 1, s => loadPhdr fw file (phdrAt file n) (loadFirst fw file n s)

theorem loadPhdr_allocFailed {ph : Phdr} {s : BootState φ}
    (h : (loadPhdr fw file ph s).allocFailed = false) : s.allocFailed = false := by
  unfold loadPhdr at h
  split_ifs at h
  · exact (Bool.or_eq_false_iff.mp h).1
  · exact h

theorem loadFirst_allocFailed {n k : Nat} (hk : k ≤ n) {s : BootState φ}
    (h : (loadFirst fw file n s).allocFailed = false) :
    (loadFirst fw file k s).allocFailed = false := by
  induction n with
  | zero => rwa [Nat.le_zero.mp hk]
  | succ n ih =>
    rcases Nat.lt_or_eq_of_le hk with hlt | rfl
    · exact ih (Nat.le_of_lt_succ hlt) (loadPhdr_allocFailed h)
    · exact h

/-- The table of program headers: its size is computed as an `int`, and the segments are disjoint
and not smaller than their part in the file. -/
structure ProgramTable (file : Mem) : Prop where
  entsize : 56 ≤ (readEhdr file).ePhentsize.toNat
  size : (readEhdr file).ePhnum.toNat * (readEhdr file).ePhentsize.toNat < 2 ^ 31
  fits : ∀ i < (readEhdr file).ePhnum.toNat, (phdrAt file i).pType = PT_LOAD →
    (phdrAt file i).pFilesz.toNat ≤ (phdrAt file i).pMemsz.toNat
  disjoint : ∀ i < (readEhdr file).ePhnum.toNat, ∀ j < (readEhdr file).ePhnum.toNat, i ≠ j →
    (phdrAt file i).pType = PT_LOAD → (phdrAt file j).pType = PT_LOAD →
    ∀ x, ¬ ((phdrAt file i).Holds x ∧ (phdrAt file j).Holds x)

/-- A byte of segment `i` is as before until its header is reached, and as its header has left it
from then on. -/
theorem loadFirst_mem (hlaw : fw.Lawful) (htable : ProgramTable file) {s : BootState φ} {i : Nat}
    (hi : i < (readEhdr file).ePhnum.toNat) (hload : (phdrAt file i).pType = PT_LOAD)
    (halign : PageAligned (phdrAt file i).pPaddr) {x : Word} (hx : (phdrAt file i).Holds x)
    {n : Nat} (hn : n ≤ (readEhdr file).ePhnum.toNat)
    (hok : (loadFirst fw file n s).allocFailed = false) :
    (loadFirst fw file n s).mem x = if n ≤ i then s.mem x
      else (loadFirst fw file (i + 1) s).mem x := by
  induction n with
  | zero => exact (if_pos (Nat.zero_le i)).symm
  | succ n ih =>
    have hprev := ih (Nat.le_of_succ_le hn) (loadPhdr_allocFailed hok)
    by_cases hown : n = i
    · subst hown
      exact (if_neg (Nat.not_succ_le_self n)).symm
    · have hkeep : (loadFirst fw file (n + 1) s).mem x = (loadFirst fw file n s).mem x :=
        loadPhdr_other hlaw halign hok (htable.fits n hn)
          (htable.disjoint i hi n hn (Ne.symm hown) hload) hx
      have hiff : n + 1 ≤ i ↔ n ≤ i := by omega
      rw [hkeep, hprev]
      exact if_congr hiff.symm rfl rfl

theorem loadFirst_segment (hlaw : fw.Lawful) (htable : ProgramTable file) {s : BootState φ}
    (hok : (loadFirst fw file (readEhdr file).ePhnum.toNat s).allocFailed = false) {i : Nat}
    (hi : i < (readEhdr file).ePhnum.toNat) (hload : (phdrAt file i).pType = PT_LOAD) {x : Word}
    (hx : (phdrAt file i).Holds x) :
    (loadFirst fw file (readEhdr file).ePhnum.toNat s).mem x =
      if (x - (phdrAt file i).pPaddr).toNat < (phdrAt file i).pFilesz.toNat then
        file ((phdrAt file i).pOffset + (x - (phdrAt file i).pPaddr))
      else handOut fw.contents (phdrAt file i).pPaddr (phdrAt file i).pages s.mem x := by
  have hat := loadFirst_allocFailed (Nat.succ_le_of_lt hi) hok
  obtain ⟨halign, -⟩ := loadPhdr_success hload hat hlaw
  have hbefore := loadFirst_mem hlaw htable hi hload halign hx hi.le
    (loadFirst_allocFailed hi.le hok)
  rw [if_pos (Nat.le_refl i)] at hbefore
  rw [loadFirst_mem hlaw htable hi hload halign hx (Nat.le_refl _) hok, if_neg (Nat.not_le.mpr hi),
    loadFirst, loadPhdr_own hload hat]
  unfold handOut
  rw [hbefore]

/-- The loop goes through the headers in order and ends. -/
theorem loadPhdrs_eq (hent : 0 < (readEhdr file).ePhentsize.toNat) {s : BootState φ} {size : Int}
    (hsize : size = (readEhdr file).ePhnum.toNat * (readEhdr file).ePhentsize.toNat) {k : Nat} :
    ∀ {n fuel : Nat}, n + k = (readEhdr file).ePhnum.toNat → k < fuel →
      loadPhdrs fw file (readEhdr file).ePhoff (readEhdr file).ePhentsize.toNat size fuel
        (n * (readEhdr file).ePhentsize.toNat) (loadFirst fw file n s) =
      some (loadFirst fw file (readEhdr file).ePhnum.toNat s) := by
  induction k with
  | zero =>
    intro n fuel hn hfuel
    obtain ⟨fuel, rfl⟩ := Nat.exists_eq_succ_of_ne_zero (Nat.ne_of_gt hfuel)
    rw [Nat.add_zero] at hn
    rw [loadPhdrs, if_neg, hn]
    rw [hsize, hn]
    exact lt_irrefl _
  | succ k ih =>
    intro n fuel hn hfuel
    obtain ⟨fuel, rfl⟩ := Nat.exists_eq_succ_of_ne_zero (Nat.ne_of_gt (Nat.zero_lt_of_lt hfuel))
    have hlt : ((n * (readEhdr file).ePhentsize.toNat : Nat) : Int) < size := by
      rw [hsize]
      exact_mod_cast Nat.mul_lt_mul_of_pos_right (by omega : n < _) hent
    rw [loadPhdrs, if_pos hlt, ← Nat.succ_mul]
    exact ih (by omega) (Nat.lt_of_succ_lt_succ hfuel)

theorem Ehdr.tableSize_eq {h : Ehdr} (hsize : h.ePhnum.toNat * h.ePhentsize.toNat < 2 ^ 31) :
    h.tableSize.toInt = h.ePhnum.toNat * h.ePhentsize.toNat := by
  have hnum := h.ePhnum.isLt
  have hent := h.ePhentsize.isLt
  have hval : h.tableSize.toNat = h.ePhnum.toNat * h.ePhentsize.toNat := by
    rw [Ehdr.tableSize, BitVec.toNat_mul, BitVec.toNat_setWidth, BitVec.toNat_setWidth,
      Nat.mod_eq_of_lt (by omega : h.ePhnum.toNat < 2 ^ 32),
      Nat.mod_eq_of_lt (by omega : h.ePhentsize.toNat < 2 ^ 32), Nat.mod_eq_of_lt (by omega)]
  rw [BitVec.toInt_eq_toNat_of_lt (by omega), hval]
  push_cast
  rfl

/-- `efi_main` gets to the jump, with all headers loaded. -/
theorem efiMain_eq (fw : Firmware φ) (htable : ProgramTable file) (s : BootState φ) :
    ∃ message, efiMain fw file s = some ((readEhdr file).eEntry, message,
      loadFirst fw file (readEhdr file).ePhnum.toNat s) := by
  have hnum := (readEhdr file).ePhnum.isLt
  have hent := htable.entsize
  have hloop := @loadPhdrs_eq φ fw file (by omega) s _ (Ehdr.tableSize_eq htable.size) _ 0 (2 ^ 32)
    (Nat.zero_add _) (by omega)
  rw [Nat.zero_mul] at hloop
  exact ⟨_, Option.bind_eq_some_iff.mpr ⟨_, hloop, rfl⟩⟩

end Image

/-- The memory holds the segment as its header describes it. -/
def Loaded (file : Mem) (ph : Phdr) (m : Mem) : Prop :=
  ∀ x, ph.Holds x → m x = if (x - ph.pPaddr).toNat < ph.pFilesz.toNat then
    file (ph.pOffset + (x - ph.pPaddr)) else 0

/-- The memory holds the kernel as the program headers describe it. -/
def KernelImage (file m : Mem) : Prop :=
  ∀ i < (readEhdr file).ePhnum.toNat, (phdrAt file i).pType = PT_LOAD →
    Loaded file (phdrAt file i) m

/-- `efi_main` gets to the jump to the entry; and when all pages could be allocated, the memory then
holds the kernel as the headers describe it exactly if the firmware handed out zeros for the part
of every segment that is not in the file. -/
theorem kernel_image_iff {φ : Type} {fw : Firmware φ} (hlaw : fw.Lawful) {file : Mem}
    (htable : ProgramTable file) (s : BootState φ) :
    ∃ message s', efiMain fw file s = some ((readEhdr file).eEntry, message, s') ∧
      (s'.allocFailed = false →
        (KernelImage file s'.mem ↔
          ∀ i < (readEhdr file).ePhnum.toNat, (phdrAt file i).pType = PT_LOAD →
            ∀ x, (phdrAt file i).Holds x →
              (phdrAt file i).pFilesz.toNat ≤ (x - (phdrAt file i).pPaddr).toNat →
              handOut fw.contents (phdrAt file i).pPaddr (phdrAt file i).pages s.mem x = 0)) := by
  obtain ⟨message, hmain⟩ := efiMain_eq fw htable s
  refine ⟨message, _, hmain, fun hok => ?_⟩
  refine forall_congr' fun i => imp_congr_right fun hi => imp_congr_right fun hload =>
    forall_congr' fun x => imp_congr_right fun hx => ?_
  rw [loadFirst_segment hlaw htable hok hi hload hx]
  by_cases hfile : (x - (phdrAt file i).pPaddr).toNat < (phdrAt file i).pFilesz.toNat
  · rw [if_pos hfile, if_pos hfile]
    exact ⟨fun _ hle => absurd hfile (Nat.not_lt.mpr hle), fun _ => rfl⟩
  · rw [if_neg hfile, if_neg hfile]
    exact ⟨fun h _ => h, fun h => h (Nat.not_lt.mp hfile)⟩

/-- A kernel with one segment of four bytes at 1 MiB, two of which are in the file. -/
def smallKernel : Mem := fun x =>
  [0x7F, 0x45, 0x4C, 0x46, 2, 1, 1, 0, 0, 0, 0, 0, 0, 0, 0, 0, 2, 0, 62, 0, 1, 0, 0, 0,
    0, 0, 0x10, 0, 0, 0, 0, 0, 64, 0, 0, 0, 0, 0, 0, 0, 0, 0, 0, 0, 0, 0, 0, 0, 0, 0, 0, 0, 64, 0,
    56, 0, 1, 0, 0, 0, 0, 0, 0, 0,
    1, 0, 0, 0, 7, 0, 0, 0, 120, 0, 0, 0, 0, 0, 0, 0, 0, 0, 0x10, 0, 0, 0, 0, 0,
    0, 0, 0x10, 0, 0, 0, 0, 0, 2, 0, 0, 0, 0, 0, 0, 0, 4, 0, 0, 0, 0, 0, 0, 0, 0, 0x10, 0, 0, 0, 0,
    0, 0, 0xEB, 0xFE].getD x.toNat 0

theorem smallKernel_phnum : (readEhdr smallKernel).ePhnum.toNat = 1 := by decide +kernel

theorem smallKernel_phdr : phdrAt smallKernel 0 = ⟨PT_LOAD, 120, 0x100000, 2, 4⟩ := by
  decide +kernel

theorem smallKernel_table : ProgramTable smallKernel where
  entsize := by decide +kernel
  size := by decide +kernel
  fits := by
    intro i hi _
    rw [smallKernel_phnum, Nat.lt_one_iff] at hi
    rw [hi, smallKernel_phdr]
    decide
  disjoint := by
    intro i hi j hj hne
    rw [smallKernel_phnum, Nat.lt_one_iff] at hi hj
    exact absurd (hi.trans hj.symm) hne

/-- A firmware that hands out any pages, filled with `v`. -/
def fillFirmware (v : Byte) : Firmware Unit where
  allocatePages pages segment _ :=
    (decide (PageAligned segment ∧ segment.toNat + 0x1000 * pages.toNat ≤ 2 ^ 64), ())
  contents _ := v

theorem fillFirmware_lawful (v : Byte) : (fillFirmware v).Lawful where
  aligned _ _ _ h := (of_decide_eq_true h).1
  inside _ _ _ h := (of_decide_eq_true h).2

/-- The state in which `efi_main` loads the kernel. -/
def bootStart : BootState Unit := ⟨(), fun _ => 0, false⟩

/-- With pages that are not zero, the two bytes behind the file are not. -/
theorem smallKernel_tail_stale :
    (readEhdr smallKernel).verified = true ∧ ProgramTable smallKernel ∧
    ∃ message s', efiMain (fillFirmware 0xFF) smallKernel bootStart =
        some (0x100000, message, s') ∧ s'.allocFailed = false ∧
      (phdrAt smallKernel 0).Holds 0x100002 ∧ s'.mem 0x100002 = 0xFF := by
  obtain ⟨message, hmain⟩ := efiMain_eq (fillFirmware 0xFF) smallKernel_table bootStart
  have hentry : (readEhdr smallKernel).eEntry = 0x100000 := by decide +kernel
  rw [hentry, smallKernel_phnum] at hmain
  refine ⟨by decide +kernel, smallKernel_table, message, _, hmain, ?_, ?_, ?_⟩
  · rw [loadFirst, smallKernel_phdr]
    decide +kernel
  · rw [Phdr.Holds, smallKernel_phdr]
    decide
  · rw [loadFirst, smallKernel_phdr]
    decide +kernel

/-- With pages that are zero, the kernel is as its header describes it. -/
theorem smallKernel_zero_pages :
    ∃ message s', efiMain (fillFirmware 0) smallKernel bootStart =
        some ((readEhdr smallKernel).eEntry, message, s') ∧ s'.allocFailed = false ∧
      KernelImage smallKernel s'.mem := by
  obtain ⟨message, s', hmain, himage⟩ :=
    kernel_image_iff (fillFirmware_lawful 0) smallKernel_table bootStart
  obtain ⟨message', hmain'⟩ := efiMain_eq (fillFirmware 0) smallKernel_table bootStart
  have hok : s'.allocFailed = false := by
    have hs' := (Prod.mk.inj (Prod.mk.inj (Option.some.inj (hmain.symm.trans hmain'))).2).2
    rw [hs', smallKernel_phnum, loadFirst, smallKernel_phdr]
    decide +kernel
  refine ⟨message, s', hmain, hok, (himage hok).mpr fun i hi _ x _ _ => ?_⟩
  unfold handOut
  split_ifs
  · rfl
  · rfl

end ChronOS.Boot
