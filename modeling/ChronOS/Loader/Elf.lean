/-
  Loader/Elf.lean --- `kernel/src/loader/elf.c`.

  The file is read where it lies in memory: every header field is a load at its
  offset in `Elf64_Ehdr` or `Elf64_Shdr`, repeated in each iteration as the
  compiled loop does.  `load_elf` maps one page for each section and copies the
  section to the place of the image its address gives.

  `elf_prg_t` is returned by value: the block `kmalloc` puts it in plays no part.
-/
import ChronOS.Mm.PagingTables

set_option autoImplicit false

namespace ChronOS.Loader

open ChronOS.Foundation ChronOS.Mm

def ELF_VIRT_ENTRY : Word := 0xFFFFFFFF80000000#64
def SHT_NOBITS : BitVec 32 := 8

/-- `pmm_getpage` and `pmm_getpages` as the loader sees them. -/
structure FrameSource (σ : Type) extends PageSource σ where
  getpages : BitVec 32 → σ → Mem → Option (Word × σ × Mem)

/-- The first pages of a stock, when they are consecutive. -/
def poolFrames : FrameSource PagePool where
  toPageSource := poolSource
  getpages n pool m :=
    match pool.pages.head? with
    | none => none
    | some p =>
        if pool.pages.take n.toInt.toNat =
            (List.range n.toInt.toNat).map fun i => p + BitVec.ofNat 64 (0x1000 * i) then
          some (p, ⟨pool.pages.drop n.toInt.toNat, pool.nodup.sublist (List.drop_sublist _ _),
            fun q hq => pool.frame q (List.mem_of_mem_drop hq)⟩, m)
        else none

/-! ## Headers -/

/-- `ehdr->e_entry`. -/
def eEntry (m : Mem) (ehdr : Word) : Word := m.read64 (ehdr + 24)
/-- `ehdr->e_shoff`. -/
def eShoff (m : Mem) (ehdr : Word) : Word := m.read64 (ehdr + 40)
/-- `ehdr->e_shentsize`. -/
def eShentsize (m : Mem) (ehdr : Word) : BitVec 16 := m.read 2 (ehdr + 58)
/-- `ehdr->e_shnum`. -/
def eShnum (m : Mem) (ehdr : Word) : BitVec 16 := m.read 2 (ehdr + 60)

/-- The fields of `Elf64_Shdr` the loader reads. -/
structure Shdr where
  shType : BitVec 32
  shAddr : Word
  shOffset : Word
  shSize : Word
  deriving DecidableEq, Repr

/-- The section header at `a`. -/
def readShdr (m : Mem) (a : Word) : Shdr where
  shType := m.read 4 (a + 4)
  shAddr := m.read64 (a + 16)
  shOffset := m.read64 (a + 24)
  shSize := m.read64 (a + 32)

/-- `elf_check`: 1 for a wrong magic number. -/
def elfCheck (m : Mem) (ehdr : Word) : BitVec 32 :=
  if m ehdr ≠ 0x7f ∨ m (ehdr + 1) ≠ 0x45 ∨ m (ehdr + 2) ≠ 0x4c ∨ m (ehdr + 3) ≠ 0x46 then 1
  else 0

/-- `prog_size`: the sum of all `sh_size`.  This loop steps by `e_shentsize`, and does not
run at all when that is 0. -/
def progSize (m : Mem) (ehdr : Word) : Word :=
  let entsize := (eShentsize m ehdr).setWidth 64
  let count := if eShentsize m ehdr = 0 then 0 else (eShnum m ehdr).toNat
  (List.range count).foldl
    (fun size i => size + (readShdr m (ehdr + (eShoff m ehdr + BitVec.ofNat 64 i * entsize))).shSize)
    0

/-- `prog_size_pages`, an `int`. -/
def progSizePages (m : Mem) (ehdr : Word) : BitVec 32 :=
  (progSize m ehdr / 0x1000#64 + 1#64).setWidth 32

/-- `elf_prg_t`; `size` is never assigned. -/
structure ElfPrg where
  entry : Word
  program : Word
  deriving DecidableEq, Repr

/-! ## Loading -/

/-- The place of the address `v` in the image at `program`. -/
def imageAddress (program v : Word) : Word := program + (v - ELF_VIRT_ENTRY)

/-- The bytes of one section: cleared for `SHT_NOBITS`, copied from the file otherwise. -/
def copySection (ehdr program : Word) (shdr : Shdr) (m : Mem) : Mem :=
  let dst := imageAddress program shdr.shAddr
  if shdr.shType = SHT_NOBITS then memset m dst 0 shdr.shSize.toNat
  else memcpy m dst (ehdr + shdr.shOffset) shdr.shSize.toNat

section Operations

variable {σ : Type} (src : FrameSource σ)

/-- The loop body of `load_elf` for one section header. -/
def loadSection (ehdr pageTable program : Word) (shdr : Shdr) (s : Machine σ) :
    Option (Machine σ) :=
  if shdr.shAddr ≠ 0 then do
    let s ← pagingMap src.toPageSource pageTable shdr.shAddr
      (imageAddress program shdr.shAddr) PAGE_NORMAL s
    return { s with mem := copySection ehdr program shdr s.mem }
  else some s

/-- The loop `for (i = 0; i < ehdr->e_shnum; i++)`, from iteration `i` on. -/
def loadSections (ehdr pageTable program shdrBase : Word) :
    (fuel i : Nat) → Machine σ → Option (Machine σ)
  | 0, _, s => some s
  | fuel + 1, i, s =>
      if i < (eShnum s.mem ehdr).toNat then do
        let s ← loadSection src ehdr pageTable program
          (readShdr s.mem (shdrBase + BitVec.ofNat 64 (64 * i))) s
        loadSections ehdr pageTable program shdrBase fuel (i + 1) s
      else some s

/-- An iteration count that is always enough: `e_shnum` has 16 bits. -/
def maxSections : Nat := 2 ^ 16

/-- `load_elf`; the inner `none` is the null pointer. -/
def loadElf (data pageTable : Word) (s : Machine σ) : Option (Option ElfPrg × Machine σ) :=
  let ehdr := data
  if elfCheck s.mem ehdr ≠ 0 then some (none, s) else do
    let entry := eEntry s.mem ehdr
    let (program, pmm, mem) ← src.getpages (progSizePages s.mem ehdr) s.pmm s.mem
    let shdrBase := ehdr + eShoff mem ehdr
    let s ← loadSections src ehdr pageTable program shdrBase maxSections 0 { mem, pmm }
    return (some { entry, program }, s)

end Operations

/-- The section header that iteration `i` reads. -/
def sectionAt (m : Mem) (data : Word) (i : Nat) : Shdr :=
  readShdr m (data + eShoff m data + BitVec.ofNat 64 (64 * i))

/-- The section headers of the file at `data`. -/
def sections (m : Mem) (data : Word) : List Shdr :=
  (List.range (eShnum m data).toNat).map (sectionAt m data)

/-! ## The image a file describes -/

/-- The byte the file prescribes at offset `k` of a section. -/
def sectionByte (m : Mem) (data : Word) (sec : Shdr) (k : Nat) : Byte :=
  if sec.shType = SHT_NOBITS then 0 else m (data + sec.shOffset + BitVec.ofNat 64 k)

/-- The header and the section headers, at the distance `load_elf` assumes when it copies, lie in
the first `len` bytes. -/
structure HeadersInside (m : Mem) (data : Word) (len : Nat) : Prop where
  header : 64 ≤ len
  table : (eShoff m data).toNat + 64 * (eShnum m data).toNat ≤ len

/-- A well-formed file of `len` bytes at `data`. -/
structure WellFormed (m : Mem) (data : Word) (len : Nat) : Prop extends
    HeadersInside m data len where
  magic : elfCheck m data = 0
  shentsize : eShentsize m data = 64
  bounded : len < 2 ^ 64
  contents : ∀ sec ∈ sections m data, sec.shType ≠ SHT_NOBITS →
    sec.shOffset.toNat + sec.shSize.toNat ≤ len
  above : ∀ sec ∈ sections m data, sec.shAddr ≠ 0 →
    ELF_VIRT_ENTRY.toNat ≤ sec.shAddr.toNat ∧ sec.shAddr.toNat + sec.shSize.toNat ≤ 2 ^ 64
  disjoint : (sections m data).Pairwise fun a b => a.shAddr ≠ 0 → b.shAddr ≠ 0 →
    a.shAddr.toNat + a.shSize.toNat ≤ b.shAddr.toNat ∨
      b.shAddr.toNat + b.shSize.toNat ≤ a.shAddr.toNat

/-- Every loaded byte of every section is found through the table, in the memory `m'`. -/
def ImageCorrect (m m' : Mem) (data table : Word) : Prop :=
  ∀ sec ∈ sections m data, sec.shAddr ≠ 0 → ∀ k < sec.shSize.toNat,
    ∃ frame, pageWalk m' table (sec.shAddr + BitVec.ofNat 64 k) = some frame ∧
      m' (frame + ((sec.shAddr + BitVec.ofNat 64 k) &&& 0xfff#64)) = sectionByte m data sec k

/-- Every page a loaded section reaches into is the first page of some loaded section. -/
def PagesCovered (m : Mem) (data : Word) : Prop :=
  ∀ sec ∈ sections m data, sec.shAddr ≠ 0 → ∀ k < sec.shSize.toNat,
    ∃ first ∈ sections m data, first.shAddr ≠ 0 ∧
      pageNumber (sec.shAddr + BitVec.ofNat 64 k) = pageNumber first.shAddr

/-- A section that is not loaded, is empty, or ends, counted from `ELF_VIRT_ENTRY`, within `size`
bytes.  Addresses below `ELF_VIRT_ENTRY` wrap around. -/
def Shdr.Fits (sec : Shdr) (size : Nat) : Prop :=
  sec.shAddr = 0 ∨ sec.shSize = 0 ∨
    (sec.shAddr - ELF_VIRT_ENTRY).toNat + sec.shSize.toNat ≤ size

/-- Every section fits in the pages the sum of the sizes gives. -/
def SectionsFit (m : Mem) (data : Word) : Prop :=
  ∀ sec ∈ sections m data, sec.Fits (0x1000 * (progSizePages m data).toInt.toNat)

end ChronOS.Loader
