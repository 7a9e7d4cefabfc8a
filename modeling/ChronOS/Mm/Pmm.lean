/-
  Mm/Pmm.lean --- the physical page allocator, `kernel/src/mm/pmm/pmm.c`.

  The allocator is a bitmap and a base address: index `k` stands for the page
  `start_of_mem + 0x1000 * k`, where the product is an `int` and wraps.  The
  search loops of `pmm_getpage` and `pmm_getpages` have no bound of their own,
  so they return `none` here when every one of the 2^32 indices reads as taken.

  `pmm_init` walks the UEFI memory map.  The map is a list; `virtAddr` and
  `attribs` of a descriptor are left out because no function reads them.
-/
import ChronOS.Ds.Bitmap
import ChronOS.Foundation.Search

set_option autoImplicit false

namespace ChronOS.Mm

open ChronOS.Foundation ChronOS.Ds

/-- `EFI_MEMORY_DESCRIPTOR`. -/
structure Descriptor where
  type : BitVec 32
  physAddr : Word
  numPages : Word
  deriving DecidableEq, Repr

/-- `EfiConventionalMemory`. -/
def efiConventionalMemory : BitVec 32 := 7

/-- The globals of `pmm.c`, the static of `get_mem_size`, and memory. -/
structure Pmm where
  mem : Mem
  pmmBitmap : Bitmap
  startOfMem : Word
  memorySizeBytes : Word

/-! ## Handing out and taking back pages -/

/-- The loop `while (bitmap_get(&pmm_bitmap, idx) != 0) idx++`. -/
def firstClear (s : Pmm) : Option (BitVec 32) :=
  searchIndex fun idx => bitmapGet s.mem s.pmmBitmap idx == 0

/-- `start_of_mem + (0x1000 * idx)`; the product is an `int`. -/
def pageAddress (startOfMem : Word) (idx : BitVec 32) : Word :=
  startOfMem + (0x1000#32 * idx).signExtend 64

/-- `((uint64_t)pageaddr - (uint64_t)start_of_mem) / 0x1000`, truncated to an `int`. -/
def pageIndex (startOfMem pageaddr : Word) : BitVec 32 :=
  ((pageaddr - startOfMem) / 0x1000#64).setWidth 32

/-- The statement `bitmap_set(&pmm_bitmap, idx, value)`. -/
def Pmm.mark (s : Pmm) (idx : BitVec 32) (value : Byte) : Pmm :=
  { s with mem := (bitmapSet s.mem s.pmmBitmap idx value).2 }

/-- The loop `for (i = 0; i < n; i++) bitmap_set(&pmm_bitmap, idx + i, 1)`. -/
def Pmm.markFrom (s : Pmm) (idx : BitVec 32) : Nat → Pmm
  | 0 => s
  | n + 1 => (s.markFrom idx n).mark (idx + BitVec.ofNat 32 n) 1

/-- `pmm_getpage`. -/
def pmmGetpage (s : Pmm) : Option (Word × Pmm) := do
  let idx ← firstClear s
  return (pageAddress s.startOfMem idx, s.mark idx 1)

/-- `pmm_getpages`: only the first index is searched for, the following `pages - 1` are
taken as they are. -/
def pmmGetpages (pages : BitVec 32) (s : Pmm) : Option (Word × Pmm) := do
  let idx ← firstClear s
  return (pageAddress s.startOfMem idx, s.markFrom idx pages.toInt.toNat)

/-- `pmm_freepage`. -/
def pmmFreepage (pageaddr : Word) (s : Pmm) : Pmm :=
  s.mark (pageIndex s.startOfMem pageaddr) 0

/-- `pmm_lockpages`. -/
def pmmLockpages (addr : Word) (pages : BitVec 32) (s : Pmm) : Pmm :=
  s.markFrom (pageIndex s.startOfMem addr) pages.toInt.toNat

/-! ## Initialisation -/

/-- `get_mem_size`; the sum is kept in a static and computed once. -/
def getMemSize (mmap : List Descriptor) (memorySizeBytes : Word) : Word :=
  if memorySizeBytes > 0 then memorySizeBytes
  else mmap.foldl (fun size desc => size + desc.numPages * 4096#64) memorySizeBytes

/-- The locals of the scan in `pmm_init`, the bitmap pointer it assigns, and (for the
statements only) the descriptor the last assignment was made for. -/
structure Scan where
  largestFreeMemSeg : Word
  largestFreeMemSegSize : Word
  bitmap : Word
  desc : Option Descriptor

/-- One iteration of the scan in `pmm_init`. -/
def Scan.step (acc : Scan) (desc : Descriptor) : Scan :=
  if desc.type = efiConventionalMemory then
    if desc.numPages * 0x1000#64 > acc.largestFreeMemSegSize then
      let seg := desc.physAddr + 0x4000#64
      { largestFreeMemSeg := seg
        largestFreeMemSegSize := desc.numPages * 0x1000#64 - 0x4000#64
        bitmap := seg - 0x4000#64
        desc := some desc }
    else acc
  else acc

/-- The scan of `pmm_init`. -/
def scanSegments (mmap : List Descriptor) (s : Pmm) : Scan :=
  mmap.foldl Scan.step ⟨0, 0, s.pmmBitmap.bitmap, none⟩

/-- `pmm_init`; `kernStart` and `kernEnd` are the linker symbols `_kern_start` and
`_kern_end`. -/
def pmmInit (kernStart kernEnd : Word) (mmap : List Descriptor) (s : Pmm) : Pmm :=
  let scan := scanSegments mmap s
  let memorySize := getMemSize mmap s.memorySizeBytes
  let s : Pmm :=
    { mem := memset s.mem scan.bitmap 0 0x4000
      pmmBitmap := { bitmap := scan.bitmap, size := memorySize / 4096#64 / 8#64 + 1#64 }
      startOfMem := scan.largestFreeMemSeg
      memorySizeBytes := memorySize }
  if s.startOfMem < kernStart then
    let kernSizePages := (kernEnd - kernStart) / 0x1000#64 + 1#64
    pmmLockpages kernStart (kernSizePages.setWidth 32) s
  else s

/-! ## Indices and addresses -/

/-- Bit `i` of the allocator's bitmap. -/
def Pmm.taken (s : Pmm) (i : Nat) : Bool := bitAt s.mem s.pmmBitmap.bitmap i

/-- `pmm_bitmap.size * 8`. -/
def Pmm.limit (s : Pmm) : Nat := s.pmmBitmap.limit

@[simp] theorem mark_startOfMem (s : Pmm) (idx : BitVec 32) (value : Byte) :
    (s.mark idx value).startOfMem = s.startOfMem := rfl

/-- Marking an accepted index changes its bit and no other. -/
theorem taken_mark (s : Pmm) {idx : BitVec 32} (value : Byte) (h : idx.toNat ≤ s.limit)
    {j : Nat} (hj : j / 8 < 2 ^ 64) :
    (s.mark idx value).taken j = if j = idx.toNat then decide (value ≠ 0#8) else s.taken j :=
  bitAt_bitmapSet s.mem s.pmmBitmap idx value h j hj

theorem mark_rejected (s : Pmm) {idx : BitVec 32} (value : Byte) (h : s.limit < idx.toNat) :
    s.mark idx value = s := by
  unfold Pmm.mark
  rw [bitmapSet_rejected s.mem s.pmmBitmap idx value h]

@[simp] theorem markFrom_startOfMem (s : Pmm) (idx : BitVec 32) (n : Nat) :
    (s.markFrom idx n).startOfMem = s.startOfMem := by
  induction n with
  | zero => rfl
  | succ n ih => exact ih

theorem pmmGetpage_eq_some {s s' : Pmm} {a : Word} :
    pmmGetpage s = some (a, s') ↔
      ∃ k, firstClear s = some k ∧ pageAddress s.startOfMem k = a ∧ s.mark k 1 = s' := by
  simp only [pmmGetpage, Option.bind_eq_bind, Option.bind_eq_some_iff, Option.pure_def,
    Option.some.injEq, Prod.mk.injEq]

theorem pmmGetpages_eq_some {s s' : Pmm} {pages : BitVec 32} {a : Word} :
    pmmGetpages pages s = some (a, s') ↔
      ∃ k, firstClear s = some k ∧ pageAddress s.startOfMem k = a ∧
        s.markFrom k pages.toInt.toNat = s' := by
  simp only [pmmGetpages, Option.bind_eq_bind, Option.bind_eq_some_iff, Option.pure_def,
    Option.some.injEq, Prod.mk.injEq]

/-- The search stops at the least index that is past the limit or clear. -/
theorem firstClear_eq_some (s : Pmm) (k : BitVec 32) :
    firstClear s = some k ↔
      (k.toNat ≤ s.limit → s.taken k.toNat = false) ∧
        ∀ i < k.toNat, i ≤ s.limit ∧ s.taken i = true := by
  unfold firstClear
  rw [searchIndex_eq_some]
  have hstop : ∀ i : BitVec 32, (bitmapGet s.mem s.pmmBitmap i == 0) = false ↔
      i.toNat ≤ s.limit ∧ s.taken i.toNat = true := by
    intro i
    rw [beq_eq_false_iff_ne]
    exact bitmapGet_ne_zero_iff s.mem s.pmmBitmap i
  constructor
  · intro ⟨hk, hlow⟩
    refine ⟨fun hle => ?_, fun i hi => ?_⟩
    · by_contra htaken
      rw [(hstop k).mpr ⟨hle, by simpa using htaken⟩] at hk
      cases hk
    · have hlt := k.isLt
      have hi' : (BitVec.ofNat 32 i).toNat = i := Nat.mod_eq_of_lt (by omega)
      have := (hstop (BitVec.ofNat 32 i)).mp (hlow _ (by rw [BitVec.lt_def, hi']; exact hi))
      rwa [hi'] at this
  · intro ⟨hk, hlow⟩
    refine ⟨?_, fun i hi => (hstop i).mpr (hlow _ (BitVec.lt_def.mp hi))⟩
    by_contra hne
    obtain ⟨hle, htaken⟩ := (hstop k).mp (by simpa using hne)
    rw [hk hle] at htaken
    cases htaken

/-- The search ends whenever some index reads as free. -/
theorem firstClear_exists (s : Pmm) (i : Nat) (hi : i < 2 ^ 32)
    (hfree : i ≤ s.limit → s.taken i = false) :
    ∃ k, firstClear s = some k ∧ k.toNat ≤ i := by
  have hnat : (BitVec.ofNat 32 i).toNat = i := Nat.mod_eq_of_lt hi
  have hstop : (bitmapGet s.mem s.pmmBitmap (BitVec.ofNat 32 i) == 0) = true := by
    by_contra hne
    obtain ⟨hle, htaken⟩ :=
      (bitmapGet_ne_zero_iff s.mem s.pmmBitmap (BitVec.ofNat 32 i)).mp (by simpa using hne)
    rw [hnat] at hle htaken
    rw [Pmm.taken, htaken] at hfree
    exact absurd (hfree hle) (by decide)
  obtain ⟨k, hk, hle⟩ := @searchIndex_exists _
    (fun idx => bitmapGet s.mem s.pmmBitmap idx == 0) _ hstop
  refine ⟨k, hk, ?_⟩
  rw [BitVec.le_def, hnat] at hle
  exact hle

/-- The indices of a run that stays below 2^32. -/
theorem toNat_add_ofNat (idx : BitVec 32) {i : Nat} (h : idx.toNat + i < 2 ^ 32) :
    (idx + BitVec.ofNat 32 i).toNat = idx.toNat + i := by
  have hnat : (BitVec.ofNat 32 i).toNat = i := Nat.mod_eq_of_lt (by omega)
  rw [BitVec.toNat_add, hnat, Nat.mod_eq_of_lt h]

/-- The `int` product keeps the index modulo 2^20, and is negative from 2^19 on. -/
theorem toNat_pageOffset (idx : BitVec 32) :
    ((0x1000#32 * idx).signExtend 64).toNat =
      0x1000 * (idx.toNat % 2 ^ 20) +
        if idx.toNat % 2 ^ 20 < 2 ^ 19 then 0 else 2 ^ 64 - 2 ^ 32 := by
  have hmul : (0x1000#32 * idx).toNat = 0x1000 * (idx.toNat % 2 ^ 20) := by
    rw [BitVec.toNat_mul]
    simp only [BitVec.toNat_ofNat]
    omega
  rw [BitVec.toNat_signExtend, BitVec.toNat_setWidth, BitVec.msb_eq_decide, hmul]
  simp only [decide_eq_true_eq]
  split <;> split <;> omega

/-- Below 2^19 the `int` product does not overflow. -/
theorem pageAddress_eq (startOfMem : Word) {idx : BitVec 32} (h : idx.toNat < 2 ^ 19) :
    pageAddress startOfMem idx = startOfMem + BitVec.ofNat 64 (0x1000 * idx.toNat) := by
  unfold pageAddress
  congr 1
  apply BitVec.eq_of_toNat_eq
  rw [toNat_pageOffset, Nat.mod_eq_of_lt (by omega), if_pos h, BitVec.toNat_ofNat,
    Nat.mod_eq_of_lt (by omega)]
  rfl

theorem pageIndex_pageAddress (startOfMem : Word) {idx : BitVec 32} (h : idx.toNat < 2 ^ 19) :
    pageIndex startOfMem (pageAddress startOfMem idx) = idx := by
  apply BitVec.eq_of_toNat_eq
  rw [pageAddress_eq startOfMem h, pageIndex, BitVec.toNat_setWidth, BitVec.toNat_udiv,
    toNat_offset _ (by omega)]
  simp only [BitVec.toNat_ofNat, Nat.reducePow, Nat.reduceMod]
  omega

end ChronOS.Mm
