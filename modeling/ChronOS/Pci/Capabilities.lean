/-
  Pci/Capabilities.lean --- `pci_find_capability` of `kernel/src/pci/pci.c`.

  The configuration space lies in memory from the header on.  A capability is two
  bytes, its ID and the offset of the next one; the chain starts at
  `capabilities_ptr` and the offset 0 ends it.  The offsets come from the device, so
  a chain may lead back into itself.  There are 256 offsets: a search that has not
  ended after as many tests never does, and that is what `none` stands for.
-/
import ChronOS.Foundation.Memory
import ChronOS.Foundation.Search

set_option autoImplicit false

namespace ChronOS.Pci

open ChronOS.Foundation

/-! ## The code -/

/-- `pciDeviceHeader->capabilities_ptr`, at offset 0x34 of `pci_hdr0_t`. -/
def capabilitiesPtr (m : Mem) (pciDeviceHeader : Word) : Byte := m (pciDeviceHeader + 0x34#64)

/-- `(uint64_t)pciDeviceHeader + ptr`. -/
def capHeaderAddr (pciDeviceHeader : Word) (ptr : Byte) : Word :=
  pciDeviceHeader + ptr.setWidth 64

/-- `capHeader[0]`. -/
def capHeaderId (m : Mem) (pciDeviceHeader : Word) (ptr : Byte) : Byte :=
  m (capHeaderAddr pciDeviceHeader ptr)

/-- `capHeader[1]`. -/
def capHeaderNext (m : Mem) (pciDeviceHeader : Word) (ptr : Byte) : Byte :=
  m (capHeaderAddr pciDeviceHeader ptr + 1)

/-- `pci_find_capability`.  The loop is left at offset 0 or at a capability with the ID, and the
address found is returned as a `uint32_t`. -/
def pciFindCapability (m : Mem) (pciDeviceHeader : Word) (capID : Byte) : Option (BitVec 32) := do
  let ptr ← searchFrom (fun ptr => ptr == 0 || capHeaderId m pciDeviceHeader ptr == capID)
    (capHeaderNext m pciDeviceHeader) 256 (capabilitiesPtr m pciDeviceHeader)
  return if ptr = 0 then 0 else (capHeaderAddr pciDeviceHeader ptr).setWidth 32

/-! ## The chain -/

section Chain

variable (m : Mem) (pciDeviceHeader : Word) (capID : Byte)

/-- The chain from offset `ptr` on comes to a capability with the ID, first of all at `q`. -/
inductive FirstAt : Byte → Byte → Prop
  | here {ptr : Byte} : ptr ≠ 0 → capHeaderId m pciDeviceHeader ptr = capID → FirstAt ptr ptr
  | next {ptr q : Byte} : ptr ≠ 0 → capHeaderId m pciDeviceHeader ptr ≠ capID →
      FirstAt (capHeaderNext m pciDeviceHeader ptr) q → FirstAt ptr q

/-- The chain from offset `ptr` on ends without a capability with the ID. -/
inductive EndsWithout : Byte → Prop
  | zero : EndsWithout 0
  | next {ptr : Byte} : ptr ≠ 0 → capHeaderId m pciDeviceHeader ptr ≠ capID →
      EndsWithout (capHeaderNext m pciDeviceHeader ptr) → EndsWithout ptr

/-- `pci_find_capability` returns, with the address of the first capability with the ID if the
chain reaches one and with 0 otherwise. -/
def FindsCapability : Prop :=
  ∃ r, pciFindCapability m pciDeviceHeader capID = some r ∧
    ((∃ q, FirstAt m pciDeviceHeader capID (capabilitiesPtr m pciDeviceHeader) q ∧
        r.setWidth 64 = capHeaderAddr pciDeviceHeader q) ∨
      (¬ ∃ q, FirstAt m pciDeviceHeader capID (capabilitiesPtr m pciDeviceHeader) q) ∧ r = 0)

end Chain

section Search

variable {m : Mem} {pciDeviceHeader : Word} {capID : Byte}

/-- The offset the loop is left at, with as many tests as it takes. -/
def Leaves (m : Mem) (pciDeviceHeader : Word) (capID ptr q : Byte) : Prop :=
  ∃ fuel, searchFrom (fun ptr => ptr == 0 || capHeaderId m pciDeviceHeader ptr == capID)
    (capHeaderNext m pciDeviceHeader) fuel ptr = some q

theorem Leaves.here {ptr : Byte} (h : ptr = 0 ∨ capHeaderId m pciDeviceHeader ptr = capID) :
    Leaves m pciDeviceHeader capID ptr ptr := by
  refine ⟨1, ?_⟩
  rw [searchFrom]
  exact if_pos (by simpa using h)

theorem Leaves.next {ptr q : Byte} (hptr : ptr ≠ 0)
    (hid : capHeaderId m pciDeviceHeader ptr ≠ capID)
    (h : Leaves m pciDeviceHeader capID (capHeaderNext m pciDeviceHeader ptr) q) :
    Leaves m pciDeviceHeader capID ptr q := by
  obtain ⟨fuel, hq⟩ := h
  refine ⟨fuel + 1, ?_⟩
  rw [searchFrom, if_neg (by simpa [hid] using hptr)]
  exact hq

theorem FirstAt.ne_zero {ptr q : Byte} (h : FirstAt m pciDeviceHeader capID ptr q) : q ≠ 0 := by
  induction h with
  | here hptr _ => exact hptr
  | next _ _ _ ih => exact ih

/-- The loop is left at the first capability with the ID, or at the end of the chain. -/
theorem leaves_iff {ptr q : Byte} :
    Leaves m pciDeviceHeader capID ptr q ↔
      FirstAt m pciDeviceHeader capID ptr q ∨ q = 0 ∧ EndsWithout m pciDeviceHeader capID ptr := by
  constructor
  · rintro ⟨fuel, hq⟩
    -- one test of the loop is one step along the chain
    induction fuel generalizing ptr with
    | zero => exact absurd hq (by simp [searchFrom])
    | succ fuel ih =>
      rw [searchFrom] at hq
      by_cases hptr : ptr = 0
      · rw [if_pos (by simp [hptr])] at hq
        cases hq
        exact Or.inr ⟨hptr, hptr ▸ EndsWithout.zero⟩
      · by_cases hid : capHeaderId m pciDeviceHeader ptr = capID
        · rw [if_pos (by simp [hid])] at hq
          cases hq
          exact Or.inl (.here hptr hid)
        · rw [if_neg (by simpa [hid] using hptr)] at hq
          exact (ih hq).imp (.next hptr hid) (And.imp_right (.next hptr hid))
  · rintro (hfirst | ⟨rfl, hends⟩)
    · induction hfirst with
      | here _ hid => exact .here (.inr hid)
      | next hptr hid _ ih => exact ih.next hptr hid
    · induction hends with
      | zero => exact .here (.inl rfl)
      | next hptr hid _ ih => exact ih.next hptr hid

/-- The 256 tests are enough. -/
theorem pciFindCapability_eq_some {r : BitVec 32} :
    pciFindCapability m pciDeviceHeader capID = some r ↔
      ∃ q, Leaves m pciDeviceHeader capID (capabilitiesPtr m pciDeviceHeader) q ∧
        r = if q = 0 then 0 else (capHeaderAddr pciDeviceHeader q).setWidth 32 := by
  simp only [pciFindCapability, Option.bind_eq_bind, Option.bind_eq_some_iff, Option.pure_def,
    Option.some.injEq]
  constructor
  · rintro ⟨q, hq, hr⟩
    exact ⟨q, ⟨256, hq⟩, hr.symm⟩
  · rintro ⟨q, ⟨fuel, hq⟩, hr⟩
    exact ⟨q, searchFrom_pow hq, hr.symm⟩

/-- The search goes one way only. -/
theorem Leaves.unique {ptr q q' : Byte} (h : Leaves m pciDeviceHeader capID ptr q)
    (h' : Leaves m pciDeviceHeader capID ptr q') : q = q' := by
  obtain ⟨fuel, hq⟩ := h
  obtain ⟨fuel', hq'⟩ := h'
  exact Option.some.inj ((searchFrom_pow hq).symm.trans (searchFrom_pow hq'))

end Search

/-- The address fits in the `uint32_t` that is returned exactly when it is below 4 GiB. -/
theorem setWidth_setWidth_eq_iff (a : Word) :
    (a.setWidth 32).setWidth 64 = a ↔ a.toNat < 2 ^ 32 := by
  have ha := a.isLt
  rw [← BitVec.toNat_inj, BitVec.toNat_setWidth, BitVec.toNat_setWidth]
  omega

/-- The search is right exactly when the chain comes to a capability with the ID at an address
below 4 GiB, or ends without one. -/
theorem findsCapability_iff (m : Mem) (pciDeviceHeader : Word) (capID : Byte) :
    FindsCapability m pciDeviceHeader capID ↔
      (∃ q, FirstAt m pciDeviceHeader capID (capabilitiesPtr m pciDeviceHeader) q ∧
          (capHeaderAddr pciDeviceHeader q).toNat < 2 ^ 32) ∨
        EndsWithout m pciDeviceHeader capID (capabilitiesPtr m pciDeviceHeader) := by
  constructor
  · rintro ⟨r, hr, hspec⟩
    obtain ⟨q, hleaves, rfl⟩ := pciFindCapability_eq_some.mp hr
    rcases leaves_iff.mp hleaves with hfirst | ⟨-, hends⟩
    · left
      rcases hspec with ⟨q', hfirst', hr⟩ | ⟨hnone, -⟩
      · obtain rfl := hleaves.unique (leaves_iff.mpr (.inl hfirst'))
        rw [if_neg hfirst.ne_zero] at hr
        exact ⟨q, hfirst, (setWidth_setWidth_eq_iff _).mp hr⟩
      · exact absurd ⟨q, hfirst⟩ hnone
    · exact .inr hends
  · rintro (⟨q, hfirst, hlow⟩ | hends)
    · have hleaves := leaves_iff.mpr (.inl hfirst)
      refine ⟨_, pciFindCapability_eq_some.mpr ⟨q, hleaves, rfl⟩, .inl ⟨q, hfirst, ?_⟩⟩
      rw [if_neg hfirst.ne_zero]
      exact (setWidth_setWidth_eq_iff _).mpr hlow
    · have hleaves := leaves_iff.mpr (.inr ⟨rfl, hends⟩)
      refine ⟨_, pciFindCapability_eq_some.mpr ⟨0, hleaves, rfl⟩, .inr ⟨?_, if_pos rfl⟩⟩
      rintro ⟨q, hfirst⟩
      exact hfirst.ne_zero (hleaves.unique (leaves_iff.mpr (.inl hfirst))).symm

/-- A capability at offset 0x40 that names itself as the next one. -/
def selfLoop : Mem := fun a =>
  if a = 0xB0000034 then 0x40 else if a = 0xB0000040 then 0x01 else
  if a = 0xB0000041 then 0x40 else 0

/-- A chain with the MSI capability at offset 0x40, behind a header at 4 GiB. -/
def highHeader : Mem := fun a =>
  if a = 0x100000034 then 0x40 else if a = 0x100000040 then 0x05 else 0

/-- The search for MSI goes round `selfLoop` for ever, and for `highHeader` it returns the address
without its upper half. -/
theorem pciFindCapability_fails :
    pciFindCapability selfLoop 0xB0000000 0x05 = none ∧
      pciFindCapability highHeader 0x100000000 0x05 = some 0x40 ∧
      FirstAt highHeader 0x100000000 0x05 (capabilitiesPtr highHeader 0x100000000) 0x40 ∧
      capHeaderAddr 0x100000000 0x40 = 0x100000040 := by
  refine ⟨by decide +kernel, by decide +kernel, ?_, by decide⟩
  exact .here (by decide) (by decide)

end ChronOS.Pci
