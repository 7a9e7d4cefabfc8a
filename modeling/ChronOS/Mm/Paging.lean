/-
  Mm/Paging.lean --- `kernel/src/mm/vmm/paging.c`: the four-level page tables.

  A table is 512 little-endian words in physical memory; nothing about it is
  stored anywhere else.  `pagingMap` and `pagingUnmap` are the internal
  `__paging_map` and `__paging_unmap`; the three identical get-or-create blocks
  of the former are one definition, `nextTable`.

  The physical allocator is a parameter.  `pmm_getpage` keeps its own state and
  writes its bitmap in the same memory, so a `PageSource` threads both; `none`
  means that the call does not return.

  `pageWalk` is the translation the tables denote, read with the same
  `pmidx_init` and `pde_getaddress` the code uses.
-/
import ChronOS.Foundation.Memory
import ChronOS.Foundation.Radix

set_option autoImplicit false

namespace ChronOS.Mm

open ChronOS.Foundation

/-! ## Entries -/

def PAGE_PRESENT : Word := 1#64 <<< 0
def PAGE_READWRITE : Word := 1#64 <<< 1
def PAGE_WRITE_THROUGH : Word := 1#64 <<< 3
def PAGE_CACHE_DISABLED : Word := 1#64 <<< 4
def PAGE_NORMAL : Word := PAGE_PRESENT ||| PAGE_READWRITE

/-- `pde_setaddress`: the address is masked to 40 bits, but its low 12 bits are
not cleared before they are ORed into the entry. -/
def pdeSetaddress (pde address : Word) : Word :=
  (pde &&& 0xfff0000000000fff#64) ||| (address &&& 0x000000ffffffffff#64)

/-- `pde_getaddress`. -/
def pdeGetaddress (pde : Word) : Word := pde &&& 0x000ffffffffff000#64

/-- `pde & PAGE_PRESENT`. -/
def Present (pde : Word) : Prop := pde &&& PAGE_PRESENT ≠ 0

instance (pde : Word) : Decidable (Present pde) := inferInstanceAs (Decidable (_ ≠ _))

/-- `page_map_idx_t`. -/
structure PageMapIdx where
  pdpI : Word
  pdI : Word
  ptI : Word
  pI : Word
  deriving DecidableEq, Repr

/-- `pmidx_init`: the four nine-bit indices of a virtual address. -/
def pmidxInit (virtual : Word) : PageMapIdx :=
  let virtual := virtual >>> 12
  let pI := virtual &&& 0x1ff#64
  let virtual := virtual >>> 9
  let ptI := virtual &&& 0x1ff#64
  let virtual := virtual >>> 9
  let pdI := virtual &&& 0x1ff#64
  let virtual := virtual >>> 9
  let pdpI := virtual &&& 0x1ff#64
  { pdpI, pdI, ptI, pI }

/-- `&tbl->entries[i]`. -/
def slot (tbl i : Word) : Word := tbl + 8#64 * i

/-! ## The allocator the tables are built from -/

/-- `pmm_getpage` as the paging code sees it. -/
structure PageSource (σ : Type) where
  getpage : σ → Mem → Option (Word × σ × Mem)

/-- Physical memory together with the state of the physical allocator. -/
structure Machine (σ : Type) where
  mem : Mem
  pmm : σ

section Operations

variable {σ : Type} (src : PageSource σ)

/-- One level of `__paging_map`: the table behind entry `i` of `tbl`, allocated,
cleared and linked when the entry is not present. -/
def nextTable (tbl i flags : Word) (s : Machine σ) : Option (Word × Machine σ) :=
  let pde := s.mem.read64 (slot tbl i)
  if Present pde then
    some (pdeGetaddress pde, s)
  else
    (src.getpage s.pmm s.mem).map fun (page, pmm, mem) =>
      let mem := memset mem page 0 0x1000
      let pde := pdeSetaddress pde page ||| flags
      (page, { mem := mem.write64 (slot tbl i) pde, pmm })

/-- `__paging_map`. -/
def pagingMap (dir virtual physical flags : Word) (s : Machine σ) :
    Option (Machine σ) := do
  let indexer := pmidxInit virtual
  let (pdp, s) ← nextTable src dir indexer.pdpI flags s
  let (pd, s) ← nextTable src pdp indexer.pdI flags s
  let (pt, s) ← nextTable src pd indexer.ptI flags s
  let pde := s.mem.read64 (slot pt indexer.pI)
  let pde := pdeSetaddress pde physical
  let pde := pde ||| flags
  some { s with mem := s.mem.write64 (slot pt indexer.pI) pde }

/-- The loop `for (; t < stop; t += 0x1000) __paging_map(tbl, t, t, flags)`. -/
def identityMap (tbl stop flags : Word) : (fuel : Nat) → Word → Machine σ → Option (Machine σ)
  | 0, _, _ => none
  | fuel + 1, t, s =>
      if t < stop then do
        let s ← pagingMap src tbl t t flags s
        identityMap tbl stop flags fuel (t + 0x1000#64) s
      else some s

/-- An iteration count that is always enough: `t` repeats after `2 ^ 52` steps, and the
loop then does not end at all. -/
def maxPages : Nat := 2 ^ 52 + 1

/-- `create_page_table`; `memSize` is what `get_mem_size` returns. -/
def createPageTable (kernStart kernEnd memSize : Word) (s : Machine σ) :
    Option (Word × Machine σ) := do
  let (tbl, pmm, mem) ← src.getpage s.pmm s.mem
  let mem := memset mem tbl 0 0x1000
  let s ← identityMap src tbl (kernEnd + 0x1000#64) PAGE_NORMAL maxPages kernStart { mem, pmm }
  let s ← identityMap src tbl memSize PAGE_NORMAL maxPages (kernEnd + 0x1000#64) s
  return (tbl, s)

/-- `paging_init`: the table that CR3 is loaded with.  `fbBase` and `bufSize` are the address and
the size of the framebuffer. -/
def pagingInit (memSize fbBase bufSize : Word) (s : Machine σ) : Option (Word × Machine σ) := do
  let (pml4, pmm, mem) ← src.getpage s.pmm s.mem
  let mem := memset mem pml4 0 0x1000
  let s ← identityMap src pml4 memSize PAGE_NORMAL maxPages 0 { mem, pmm }
  let fbSize := bufSize + 0x1000#64
  let s ← identityMap src pml4 (fbBase + fbSize)
    (PAGE_NORMAL ||| PAGE_CACHE_DISABLED ||| PAGE_WRITE_THROUGH) maxPages fbBase s
  return (pml4, s)

end Operations

/-- `__paging_unmap`: returns early at the first entry that is not present. -/
def pagingUnmap (dir virtual : Word) (m : Mem) : Mem :=
  let indexer := pmidxInit virtual
  let pde := m.read64 (slot dir indexer.pdpI)
  if ¬ Present pde then m else
  let pdp := pdeGetaddress pde
  let pde := m.read64 (slot pdp indexer.pdI)
  if ¬ Present pde then m else
  let pd := pdeGetaddress pde
  let pde := m.read64 (slot pd indexer.ptI)
  if ¬ Present pde then m else
  let pt := pdeGetaddress pde
  let pde := m.read64 (slot pt indexer.pI)
  if ¬ Present pde then m else
  m.write64 (slot pt indexer.pI) 0

/-- The present entry `i` of the table `tbl`, as the address it holds. -/
def entryTarget (m : Mem) (tbl i : Word) : Option Word :=
  let pde := m.read64 (slot tbl i)
  if Present pde then some (pdeGetaddress pde) else none

/-- The frame `virtual` translates to through the directory `dir`. -/
def pageWalk (m : Mem) (dir virtual : Word) : Option Word := do
  let indexer := pmidxInit virtual
  let pdp ← entryTarget m dir indexer.pdpI
  let pd ← entryTarget m pdp indexer.pdI
  let pt ← entryTarget m pd indexer.ptI
  entryTarget m pt indexer.pI

/-! ## Bits of entries -/

/-- Physical page addresses a table entry can hold: page aligned and below
`2 ^ 40`, the mask of `pde_setaddress`. -/
def FrameAddress (a : Word) : Prop := PageAligned a ∧ a.toNat < 2 ^ 40

/-- Flags made of the attribute bits 0..6 only. -/
def AttributeFlags (flags : Word) : Prop := flags.toNat < 2 ^ 7

/-- Flags that leave the address field of an entry alone. -/
def NoAddressBits (flags : Word) : Prop := flags &&& 0x000ffffffffff000#64 = 0

instance (a : Word) : Decidable (FrameAddress a) := inferInstanceAs (Decidable (_ ∧ _))
instance (f : Word) : Decidable (AttributeFlags f) := inferInstanceAs (Decidable (_ < _))
instance (f : Word) : Decidable (NoAddressBits f) := inferInstanceAs (Decidable (_ = _))

/-- Whatever the entry held before, it now holds the page of the address. -/
theorem pdeGetaddress_link {pde a flags : Word} (hf : NoAddressBits flags) :
    pdeGetaddress (pdeSetaddress pde a ||| flags) = a &&& 0x000000fffffff000#64 := by
  unfold pdeGetaddress pdeSetaddress
  have hpde : pde &&& 0xfff0000000000fff#64 &&& 0x000ffffffffff000#64 = 0#64 := by
    rw [BitVec.and_assoc]
    exact BitVec.and_zero
  have haddr : a &&& 0x000000ffffffffff#64 &&& 0x000ffffffffff000#64 =
      a &&& 0x000000fffffff000#64 := by
    rw [BitVec.and_assoc]
    rfl
  rw [BitVec.and_or_distrib_right, BitVec.and_or_distrib_right, hpde, haddr, hf,
    BitVec.zero_or]
  exact BitVec.or_zero

theorem FrameAddress.mask {a : Word} (ha : FrameAddress a) :
    a &&& 0x000000fffffff000#64 = a := by
  have hbits : ∀ i < 64, (0x000000fffffff000#64).getLsbD i = decide (12 ≤ i ∧ i < 40) := by
    decide
  obtain ⟨halign, hlt⟩ := ha
  apply BitVec.eq_of_getLsbD_eq
  intro i hi
  rw [BitVec.getLsbD_and, hbits i hi]
  by_cases hmid : 12 ≤ i ∧ i < 40
  · simp [hmid]
  · have hzero : a.getLsbD i = false := by
      unfold BitVec.getLsbD
      rcases Nat.lt_or_ge i 12 with hlow | hge
      · have htest := Nat.testBit_mod_two_pow a.toNat 12 i
        have hmod : a.toNat % 2 ^ 12 = 0 := halign
        rw [hmod, Nat.zero_testBit] at htest
        simpa [hlow] using htest
      · have hpow : 2 ^ 40 ≤ 2 ^ i := Nat.pow_le_pow_right (by decide) (by omega)
        exact Nat.testBit_lt_two_pow (by omega)
    simp [hzero]

theorem AttributeFlags.noAddressBits {flags : Word} (hf : AttributeFlags flags) :
    NoAddressBits flags := by
  have hmask : flags &&& 0x7f#64 = flags := by
    apply BitVec.eq_of_toNat_eq
    have hmod := Nat.and_two_pow_sub_one_eq_mod flags.toNat 7
    have hlt : flags.toNat < 128 := hf
    rw [BitVec.toNat_and]
    norm_num at hmod ⊢
    omega
  unfold NoAddressBits
  rw [← hmask, BitVec.and_assoc]
  exact BitVec.and_zero

theorem present_iff (pde : Word) : Present pde ↔ pde.getLsbD 0 = true := by
  have hmod : (pde &&& PAGE_PRESENT).toNat = pde.toNat % 2 := Nat.and_one_is_mod pde.toNat
  unfold Present
  rw [ne_eq, BitVec.toNat_eq, hmod, BitVec.getLsbD, Nat.testBit_zero, decide_eq_true_eq]
  simp

/-- An entry that receives flags with the present bit is present. -/
theorem present_or {pde flags : Word} (hf : Present flags) : Present (pde ||| flags) := by
  rw [present_iff] at hf ⊢
  simp [hf]

@[simp] theorem not_present_zero : ¬ Present 0 := by decide

/-! ## Indices and page numbers -/

theorem and_mask9 (x : Word) : x &&& 0x1ff#64 = (x.setWidth 9).setWidth 64 := by
  apply BitVec.eq_of_toNat_eq
  have h := Nat.and_two_pow_sub_one_eq_mod x.toNat 9
  simp only [BitVec.toNat_and, BitVec.toNat_setWidth]
  norm_num at h ⊢
  omega

/-- The indices of a virtual address, root first. -/
def path (virtual : Word) : List (BitVec 9) :=
  [(virtual >>> 39).setWidth 9, (virtual >>> 30).setWidth 9,
    (virtual >>> 21).setWidth 9, (virtual >>> 12).setWidth 9]

theorem pmidxInit_eq (virtual : Word) :
    pmidxInit virtual =
      { pdpI := ((virtual >>> 39).setWidth 9).setWidth 64
        pdI := ((virtual >>> 30).setWidth 9).setWidth 64
        ptI := ((virtual >>> 21).setWidth 9).setWidth 64
        pI := ((virtual >>> 12).setWidth 9).setWidth 64 } := by
  unfold pmidxInit
  simp only [and_mask9, ← BitVec.shiftRight_add]

/-- The virtual page number: bits 12..47 of the address. -/
def pageNumber (virtual : Word) : BitVec 36 := (virtual >>> 12).setWidth 36

theorem path_eq_iff (v w : Word) : path v = path w ↔ pageNumber v = pageNumber w := by
  unfold path pageNumber
  simp only [List.cons.injEq, and_true, BitVec.toNat_eq, BitVec.toNat_setWidth,
    BitVec.toNat_ushiftRight, Nat.shiftRight_eq_div_pow]
  omega

/-! ## The tables as a radix store -/

/-- The radix-tree link behind entry `i` of the table `t`. -/
def child (m : Mem) (t : Word) (i : BitVec 9) : Option Word := entryTarget m t (i.setWidth 64)

theorem pageWalk_eq_walk (m : Mem) (dir virtual : Word) :
    pageWalk m dir virtual = Radix.walk (child m) dir (path virtual) := by
  unfold pageWalk path
  simp only [pmidxInit_eq, Radix.walk_cons, Radix.walk_nil, child]
  simp [Option.bind_eq_bind]

/-- `__paging_unmap` clears the last-level entry when the walk reaches it and is a
no-op otherwise. -/
theorem pagingUnmap_eq (m : Mem) (dir virtual : Word) :
    pagingUnmap dir virtual m =
      match Radix.walk (child m) dir ((path virtual).take 3) with
      | none => m
      | some pt =>
          if child m pt ((virtual >>> 12).setWidth 9) = none then m
          else m.write64 (slot pt (((virtual >>> 12).setWidth 9).setWidth 64)) 0 := by
  unfold pagingUnmap path
  simp only [pmidxInit_eq, List.take, Radix.walk_cons, Radix.walk_nil, child, entryTarget]
  split_ifs <;> simp_all

end ChronOS.Mm
