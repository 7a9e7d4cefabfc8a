/-
  Pci/LaiHost.lean --- the PCI accessors of `kernel/src/lai_wrapper.c`.

  The configuration mechanism has two ports: what is written to `CONFIG_ADDRESS`
  selects a dword of a function, and `CONFIG_DATA` reads or writes that dword.  The
  accessors for bytes and words read the dword and replace a part of it.  Over any
  sequence of accesses they behave as a byte array for each function.
-/
import ChronOS.Foundation.Memory
import ChronOS.Foundation.BitField

set_option autoImplicit false

namespace ChronOS.Pci

open ChronOS.Foundation

/-! ## The configuration mechanism -/

def CONFIG_ADDRESS : BitVec 16 := 0xCF8
def CONFIG_DATA : BitVec 16 := 0xCFC

/-- Bus, device and function number. -/
abbrev Bdf := BitVec 8 × BitVec 5 × BitVec 3

/-- The address register, and the 64 dwords of each function. -/
structure ConfigMechanism where
  address : BitVec 32
  dwords : Bdf → BitVec 6 → BitVec 32

namespace ConfigMechanism

/-- Bit 31 of the address register enables the data port. -/
def enabled (c : ConfigMechanism) : Bool := c.address.getLsbD 31

/-- The function and the dword that the address register selects. -/
def selected (c : ConfigMechanism) : Bdf × BitVec 6 :=
  ((c.address.extractLsb' 16 8, c.address.extractLsb' 11 5, c.address.extractLsb' 8 3),
    c.address.extractLsb' 2 6)

/-- The dword `r` of function `f` replaced by `val`. -/
def setDword (c : ConfigMechanism) (f : Bdf) (r : BitVec 6) (val : BitVec 32) : ConfigMechanism :=
  { c with dwords := fun f' r' => if f' = f ∧ r' = r then val else c.dwords f' r' }

end ConfigMechanism

/-- `outl` on the two ports of the mechanism. -/
def outl (port : BitVec 16) (val : BitVec 32) (c : ConfigMechanism) : ConfigMechanism :=
  if port = CONFIG_ADDRESS then { c with address := val }
  else if port = CONFIG_DATA ∧ c.enabled then c.setDword c.selected.1 c.selected.2 val
  else c

/-- `inl`; nobody answers while the data port is not enabled. -/
def inl (port : BitVec 16) (c : ConfigMechanism) : BitVec 32 :=
  if port = CONFIG_ADDRESS then c.address
  else if port = CONFIG_DATA ∧ c.enabled then c.dwords c.selected.1 c.selected.2
  else 0xFFFFFFFF

/-! ## The accessors -/

/-- The address that all six accessors write. -/
def configAddress (bus slot fn : Byte) (offset : BitVec 16) : BitVec 32 :=
  bus.setWidth 32 <<< 16 ||| slot.setWidth 32 <<< 11 ||| fn.setWidth 32 <<< 8 |||
    (offset &&& 0xFC).setWidth 32 ||| 0x80000000

/-- `laihost_pci_readb`; the segment is ignored. -/
def laihostPciReadb (_seg : BitVec 16) (bus slot fn : Byte) (offset : BitVec 16)
    (c : ConfigMechanism) : Byte × ConfigMechanism :=
  if 256 ≤ offset.toNat then (0xFF, c) else
  let c := outl CONFIG_ADDRESS (configAddress bus slot fn offset) c
  let data := inl CONFIG_DATA c
  ((data >>> ((offset &&& 3).toNat * 8) &&& 0xFF).setWidth 8, c)

/-- `laihost_pci_readw`. -/
def laihostPciReadw (_seg : BitVec 16) (bus slot fn : Byte) (offset : BitVec 16)
    (c : ConfigMechanism) : BitVec 16 × ConfigMechanism :=
  if 256 ≤ offset.toNat ∨ offset &&& 1 ≠ 0 then (0xFFFF, c) else
  let c := outl CONFIG_ADDRESS (configAddress bus slot fn offset) c
  let data := inl CONFIG_DATA c
  ((data >>> ((offset &&& 2).toNat * 8) &&& 0xFFFF).setWidth 16, c)

/-- `laihost_pci_readd`. -/
def laihostPciReadd (_seg : BitVec 16) (bus slot fn : Byte) (offset : BitVec 16)
    (c : ConfigMechanism) : BitVec 32 × ConfigMechanism :=
  if 256 ≤ offset.toNat ∨ offset &&& 3 ≠ 0 then (0xFFFFFFFF, c) else
  let c := outl CONFIG_ADDRESS (configAddress bus slot fn offset) c
  (inl CONFIG_DATA c, c)

/-- `laihost_pci_writeb`. -/
def laihostPciWriteb (_seg : BitVec 16) (bus slot fn : Byte) (offset : BitVec 16) (val : Byte)
    (c : ConfigMechanism) : ConfigMechanism :=
  if 256 ≤ offset.toNat then c else
  let c := outl CONFIG_ADDRESS (configAddress bus slot fn offset) c
  let data := inl CONFIG_DATA c
  let data := data &&& ~~~(0xFF#32 <<< ((offset &&& 3).toNat * 8))
  let data := data ||| val.setWidth 32 <<< ((offset &&& 3).toNat * 8)
  outl CONFIG_DATA data c

/-- `laihost_pci_writew`. -/
def laihostPciWritew (_seg : BitVec 16) (bus slot fn : Byte) (offset : BitVec 16)
    (val : BitVec 16) (c : ConfigMechanism) : ConfigMechanism :=
  if 256 ≤ offset.toNat ∨ offset &&& 1 ≠ 0 then c else
  let c := outl CONFIG_ADDRESS (configAddress bus slot fn offset) c
  let data := inl CONFIG_DATA c
  let data := data &&& ~~~(0xFFFF#32 <<< ((offset &&& 2).toNat * 8))
  let data := data ||| val.setWidth 32 <<< ((offset &&& 2).toNat * 8)
  outl CONFIG_DATA data c

/-- `laihost_pci_writed`. -/
def laihostPciWrited (_seg : BitVec 16) (bus slot fn : Byte) (offset : BitVec 16)
    (val : BitVec 32) (c : ConfigMechanism) : ConfigMechanism :=
  if 256 ≤ offset.toNat ∨ offset &&& 3 ≠ 0 then c else
  let c := outl CONFIG_ADDRESS (configAddress bus slot fn offset) c
  outl CONFIG_DATA val c

/-! ## Byte-addressable configuration space -/

/-- A function that an address can name: 32 slots on a bus, eight functions in a slot. -/
structure PciFunction where
  bus : Byte
  slot : Byte
  fn : Byte
  slot_lt : slot.toNat < 32
  fn_lt : fn.toNat < 8
  deriving DecidableEq

/-- A 256-byte array for each function. -/
abbrev ByteSpace := PciFunction → BitVec 8 → Byte

namespace ByteSpace

/-- The little-endian values of two and of four bytes. -/
def wordAt (m : ByteSpace) (f : PciFunction) (o : BitVec 8) : BitVec 16 :=
  m f (o + 1) ++ m f o

def dwordAt (m : ByteSpace) (f : PciFunction) (o : BitVec 8) : BitVec 32 :=
  m f (o + 3) ++ m f (o + 2) ++ m f (o + 1) ++ m f o

/-- The `n` bytes from `o` on replaced by those of `v`, the lowest first. -/
def setBytes (m : ByteSpace) (f : PciFunction) (o : BitVec 8) (n : Nat) (v : BitVec (8 * n)) :
    ByteSpace := fun f' o' =>
  if f' = f ∧ (o' - o).toNat < n then v.extractLsb' (8 * (o' - o).toNat) 8 else m f' o'

end ByteSpace

/-- A call of one of the accessors. -/
inductive PciAccess
  | readb (seg : BitVec 16) (f : PciFunction) (offset : BitVec 16)
  | readw (seg : BitVec 16) (f : PciFunction) (offset : BitVec 16)
  | readd (seg : BitVec 16) (f : PciFunction) (offset : BitVec 16)
  | writeb (seg : BitVec 16) (f : PciFunction) (offset : BitVec 16) (val : Byte)
  | writew (seg : BitVec 16) (f : PciFunction) (offset : BitVec 16) (val : BitVec 16)
  | writed (seg : BitVec 16) (f : PciFunction) (offset : BitVec 16) (val : BitVec 32)

/-- What a call returns. -/
inductive PciReply
  | byte (v : Byte)
  | word (v : BitVec 16)
  | dword (v : BitVec 32)
  | done
  deriving DecidableEq, Repr

namespace PciAccess

/-- The offset is below 256 and aligned to the width of the access. -/
def Valid : PciAccess → Prop
  | readb _ _ offset | writeb _ _ offset _ => offset.toNat < 256
  | readw _ _ offset | writew _ _ offset _ => offset.toNat < 256 ∧ offset.toNat % 2 = 0
  | readd _ _ offset | writed _ _ offset _ => offset.toNat < 256 ∧ offset.toNat % 4 = 0

/-- The call on the mechanism. -/
def run : PciAccess → ConfigMechanism → PciReply × ConfigMechanism
  | readb seg f offset, c =>
    let (v, c) := laihostPciReadb seg f.bus f.slot f.fn offset c
    (.byte v, c)
  | readw seg f offset, c =>
    let (v, c) := laihostPciReadw seg f.bus f.slot f.fn offset c
    (.word v, c)
  | readd seg f offset, c =>
    let (v, c) := laihostPciReadd seg f.bus f.slot f.fn offset c
    (.dword v, c)
  | writeb seg f offset val, c => (.done, laihostPciWriteb seg f.bus f.slot f.fn offset val c)
  | writew seg f offset val, c => (.done, laihostPciWritew seg f.bus f.slot f.fn offset val c)
  | writed seg f offset val, c => (.done, laihostPciWrited seg f.bus f.slot f.fn offset val c)

/-- The call on the byte arrays, when it is valid. -/
def onBytes : PciAccess → ByteSpace → PciReply × ByteSpace
  | readb _ f offset, m => (.byte (m f (offset.setWidth 8)), m)
  | readw _ f offset, m => (.word (m.wordAt f (offset.setWidth 8)), m)
  | readd _ f offset, m => (.dword (m.dwordAt f (offset.setWidth 8)), m)
  | writeb _ f offset val, m => (.done, m.setBytes f (offset.setWidth 8) 1 val)
  | writew _ f offset val, m => (.done, m.setBytes f (offset.setWidth 8) 2 val)
  | writed _ f offset val, m => (.done, m.setBytes f (offset.setWidth 8) 4 val)

/-- What a call that is not valid returns: all ones, and nothing for a write. -/
def refusal : PciAccess → PciReply
  | readb _ _ _ => .byte 0xFF
  | readw _ _ _ => .word 0xFFFF
  | readd _ _ _ => .dword 0xFFFFFFFF
  | writeb _ _ _ _ | writew _ _ _ _ | writed _ _ _ _ => .done

instance : DecidablePred Valid
  | readb _ _ _ | writeb _ _ _ _ => inferInstanceAs (Decidable (_ < _))
  | readw _ _ _ | writew _ _ _ _ => inferInstanceAs (Decidable (_ < _ ∧ _ = _))
  | readd _ _ _ | writed _ _ _ _ => inferInstanceAs (Decidable (_ < _ ∧ _ = _))

end PciAccess

/-! ## What the address register selects -/

/-- The numbers of a function as the mechanism decodes them. -/
def PciFunction.bdf (f : PciFunction) : Bdf := (f.bus, f.slot.setWidth 5, f.fn.setWidth 3)

theorem PciFunction.bdf_injective {f g : PciFunction} (h : f.bdf = g.bdf) : f = g := by
  obtain ⟨hbus, hrest⟩ := Prod.mk.inj h
  obtain ⟨hslot, hfn⟩ := Prod.mk.inj hrest
  obtain ⟨bus, slot, fn, hs, hf⟩ := f
  obtain ⟨bus', slot', fn', hs', hf'⟩ := g
  obtain rfl : bus = bus' := hbus
  obtain rfl : slot = slot' := by
    have hval := congrArg BitVec.toNat hslot
    simp only [BitVec.toNat_setWidth] at hval
    apply BitVec.eq_of_toNat_eq
    omega
  obtain rfl : fn = fn' := by
    have hval := congrArg BitVec.toNat hfn
    simp only [BitVec.toNat_setWidth] at hval
    apply BitVec.eq_of_toNat_eq
    omega
  rfl

theorem getLsbD_of_toNat_lt {w k i : Nat} {x : BitVec w} (h : x.toNat < 2 ^ k) (hi : k ≤ i) :
    x.getLsbD i = false :=
  Nat.testBit_lt_two_pow (Nat.lt_of_lt_of_le h (Nat.pow_le_pow_right (by decide) hi))

/-- Where the bits of the address come from. -/
theorem getLsbD_configAddress (bus slot fn : Byte) (offset : BitVec 16) {i : Nat} (hi : i < 32) :
    (configAddress bus slot fn offset).getLsbD i =
      (decide (16 ≤ i) && bus.getLsbD (i - 16) || decide (11 ≤ i) && slot.getLsbD (i - 11) ||
        decide (8 ≤ i) && fn.getLsbD (i - 8) ||
        decide (2 ≤ i ∧ i < 8) && offset.getLsbD i || decide (i = 31)) := by
  have hmask : ∀ i < 32, (0xFC#16).getLsbD i = decide (2 ≤ i ∧ i < 8) := by decide
  have henable : ∀ i < 32, (0x80000000#32).getLsbD i = decide (i = 31) := by decide
  have hshift : ∀ (x : Byte) (k : Nat),
      (x.setWidth 32 <<< k).getLsbD i = (decide (k ≤ i) && x.getLsbD (i - k)) := by
    intro x k
    by_cases hk : k ≤ i
    · simp [hi, hk]
    · simp [hk, Nat.lt_of_not_le hk]
  have hoffset : ((offset &&& 0xFC).setWidth 32).getLsbD i =
      (decide (2 ≤ i ∧ i < 8) && offset.getLsbD i) := by
    rw [BitVec.getLsbD_setWidth, BitVec.getLsbD_and, decide_eq_true hi, Bool.true_and,
      Bool.and_comm]
    exact congrArg (· && _) (hmask i hi)
  simp only [configAddress, BitVec.getLsbD_or, hshift, hoffset]
  exact congrArg (_ || ·) (henable i hi)

/-- The four parts of the address do not overlap. -/
theorem configAddress_fields (f : PciFunction) (offset : BitVec 16) :
    (configAddress f.bus f.slot f.fn offset).getLsbD 31 = true ∧
    (configAddress f.bus f.slot f.fn offset).extractLsb' 16 8 = f.bus ∧
    (configAddress f.bus f.slot f.fn offset).extractLsb' 11 5 = f.slot.setWidth 5 ∧
    (configAddress f.bus f.slot f.fn offset).extractLsb' 8 3 = f.fn.setWidth 3 ∧
    (configAddress f.bus f.slot f.fn offset).extractLsb' 2 6 = offset.extractLsb' 2 6 := by
  have hslot : ∀ i, 5 ≤ i → f.slot.getLsbD i = false := fun i => getLsbD_of_toNat_lt f.slot_lt
  have hfn : ∀ i, 3 ≤ i → f.fn.getLsbD i = false := fun i => getLsbD_of_toNat_lt f.fn_lt
  refine ⟨?_, ?_, ?_, ?_, ?_⟩
  · rw [getLsbD_configAddress _ _ _ _ (by decide)]
    simp
  · apply BitVec.eq_of_getLsbD_eq
    intro i hi
    have hne : 16 + i ≠ 31 := by omega
    have hlow : ¬ 16 + i < 8 := by omega
    rw [BitVec.getLsbD_extractLsb', getLsbD_configAddress _ _ _ _ (by omega),
      hslot _ (by omega), hfn _ (by omega)]
    simp [hi, hne, hlow]
  · apply BitVec.eq_of_getLsbD_eq
    intro i hi
    have hne : 11 + i ≠ 31 := by omega
    have hlow : ¬ 11 + i < 8 := by omega
    have hbus : ¬ 16 ≤ 11 + i := by omega
    rw [BitVec.getLsbD_extractLsb', getLsbD_configAddress _ _ _ _ (by omega), hfn _ (by omega)]
    simp [hi, hne, hlow, hbus]
  · apply BitVec.eq_of_getLsbD_eq
    intro i hi
    have hne : 8 + i ≠ 31 := by omega
    have hlow : ¬ 8 + i < 8 := by omega
    have hbus : ¬ 16 ≤ 8 + i := by omega
    have hslot : ¬ 11 ≤ 8 + i := by omega
    rw [BitVec.getLsbD_extractLsb', getLsbD_configAddress _ _ _ _ (by omega)]
    simp [hi, hne, hlow, hbus, hslot]
  · apply BitVec.eq_of_getLsbD_eq
    intro i hi
    have hne : 2 + i ≠ 31 := by omega
    have hlow : 2 + i < 8 := by omega
    have hbus : ¬ 16 ≤ 2 + i := by omega
    have hslot : ¬ 11 ≤ 2 + i := by omega
    rw [BitVec.getLsbD_extractLsb', BitVec.getLsbD_extractLsb',
      getLsbD_configAddress _ _ _ _ (by omega)]
    simp [hi, hne, hlow, hbus, hslot, Nat.not_le.mpr hlow]

/-! ## The accessors on the selected dword -/

section Selected

variable (f : PciFunction) (offset : BitVec 16) (c : ConfigMechanism)

/-- The mechanism once the address of the access is written. -/
def ConfigMechanism.select (c : ConfigMechanism) (f : PciFunction) (offset : BitVec 16) :
    ConfigMechanism :=
  { c with address := configAddress f.bus f.slot f.fn offset }

theorem outl_address :
    outl CONFIG_ADDRESS (configAddress f.bus f.slot f.fn offset) c = c.select f offset := rfl

theorem select_selected :
    (c.select f offset).enabled = true ∧
      (c.select f offset).selected = (f.bdf, offset.extractLsb' 2 6) := by
  obtain ⟨henable, hbus, hslot, hfn, hreg⟩ := configAddress_fields f offset
  refine ⟨henable, ?_⟩
  simp only [ConfigMechanism.selected, ConfigMechanism.select, hbus, hslot, hfn, hreg]
  rfl

theorem inl_select :
    inl CONFIG_DATA (c.select f offset) = c.dwords f.bdf (offset.extractLsb' 2 6) := by
  obtain ⟨henable, hsel⟩ := select_selected f offset c
  have hport : CONFIG_DATA ≠ CONFIG_ADDRESS := by decide
  rw [inl, if_neg hport, if_pos ⟨rfl, henable⟩, hsel]
  rfl

theorem outl_select (val : BitVec 32) :
    outl CONFIG_DATA val (c.select f offset) =
      (c.select f offset).setDword f.bdf (offset.extractLsb' 2 6) val := by
  obtain ⟨henable, hsel⟩ := select_selected f offset c
  have hport : CONFIG_DATA ≠ CONFIG_ADDRESS := by decide
  rw [outl, if_neg hport, if_pos ⟨rfl, henable⟩, hsel]

end Selected

/-- The bytes of configuration space. -/
def ConfigMechanism.bytes (c : ConfigMechanism) : ByteSpace := fun f o =>
  (c.dwords f.bdf (o.extractLsb' 2 6)).extractLsb' (8 * (o.toNat % 4)) 8

theorem select_bytes (c : ConfigMechanism) (f : PciFunction) (offset : BitVec 16) :
    (c.select f offset).bytes = c.bytes := rfl

theorem setDword_bytes (c : ConfigMechanism) (f g : PciFunction) (r : BitVec 6) (val : BitVec 32)
    (o : BitVec 8) :
    (c.setDword f.bdf r val).bytes g o =
      if g = f ∧ o.extractLsb' 2 6 = r then val.extractLsb' (8 * (o.toNat % 4)) 8
      else c.bytes g o := by
  have hkey : g.bdf = f.bdf ↔ g = f := ⟨PciFunction.bdf_injective, congrArg PciFunction.bdf⟩
  simp only [ConfigMechanism.bytes, ConfigMechanism.setDword, hkey]
  split_ifs <;> rfl

theorem extractLsb'_toNat_offset (o : BitVec 8) : (o.extractLsb' 2 6).toNat = o.toNat / 4 := by
  rw [BitVec.extractLsb'_toNat, Nat.shiftRight_eq_div_pow]
  exact Nat.mod_eq_of_lt (by omega)

/-- The bytes behind an offset, within its dword. -/
theorem bytes_add (c : ConfigMechanism) (f : PciFunction) (o : BitVec 8) {i : Nat}
    (h : o.toNat % 4 + i < 4) :
    c.bytes f (o + BitVec.ofNat 8 i) =
      (c.dwords f.bdf (o.extractLsb' 2 6)).extractLsb' (8 * (o.toNat % 4 + i)) 8 := by
  have hsum : (o + BitVec.ofNat 8 i).toNat = o.toNat + i := by
    rw [BitVec.toNat_add, BitVec.toNat_ofNat]
    omega
  have hreg : (o + BitVec.ofNat 8 i).extractLsb' 2 6 = o.extractLsb' 2 6 := by
    apply BitVec.eq_of_toNat_eq
    rw [extractLsb'_toNat_offset, extractLsb'_toNat_offset, hsum]
    omega
  have hplace : (o.toNat + i) % 4 = o.toNat % 4 + i := by omega
  rw [ConfigMechanism.bytes, hreg, hsum, hplace]

/-- The `n` bytes from an offset on are those of its dword with the places from its own on. -/
theorem offset_within_iff (o o' : BitVec 8) {n : Nat} (h : o.toNat % 4 + n ≤ 4) :
    (o' - o).toNat < n ↔ o'.extractLsb' 2 6 = o.extractLsb' 2 6 ∧
      o.toNat % 4 ≤ o'.toNat % 4 ∧ o'.toNat % 4 < o.toNat % 4 + n := by
  have hreg : o'.extractLsb' 2 6 = o.extractLsb' 2 6 ↔ o'.toNat / 4 = o.toNat / 4 := by
    rw [← BitVec.toNat_inj, extractLsb'_toNat_offset, extractLsb'_toNat_offset]
  rw [hreg, BitVec.toNat_sub]
  omega

/-- Replacing a field of the dword replaces its bytes in the array. -/
theorem insertField_bytes (c : ConfigMechanism) (f : PciFunction) (o : BitVec 8) {n : Nat}
    (v : BitVec (8 * n)) (h : o.toNat % 4 + n ≤ 4) :
    (c.setDword f.bdf (o.extractLsb' 2 6) (insertField (c.dwords f.bdf (o.extractLsb' 2 6))
      (8 * (o.toNat % 4)) v)).bytes = c.bytes.setBytes f o n v := by
  funext g o'
  rw [setDword_bytes, ByteSpace.setBytes]
  have hwithin := offset_within_iff o o' h
  by_cases hdword : g = f ∧ o'.extractLsb' 2 6 = o.extractLsb' 2 6
  · obtain ⟨rfl, hreg⟩ := hdword
    rw [if_pos ⟨rfl, hreg⟩]
    by_cases hplace : o.toNat % 4 ≤ o'.toNat % 4 ∧ o'.toNat % 4 < o.toNat % 4 + n
    · have hdist : (o' - o).toNat = o'.toNat % 4 - o.toNat % 4 := by
        have hdiv := congrArg BitVec.toNat hreg
        rw [extractLsb'_toNat_offset, extractLsb'_toNat_offset] at hdiv
        rw [BitVec.toNat_sub]
        omega
      rw [if_pos ⟨rfl, hwithin.mpr ⟨hreg, hplace⟩⟩, hdist, Nat.mul_sub]
      exact extractLsb'_insertField_inside _ v (by omega) (by omega) (by omega)
    · rw [if_neg fun hin => hplace (hwithin.mp hin.2).2, extractLsb'_insertField_outside _ v
        (by omega) (by omega), ConfigMechanism.bytes, hreg]
  · rw [if_neg hdword, if_neg fun hin => hdword ⟨hin.1, (hwithin.mp hin.2).1⟩]

/-! ## The offset checks -/

section Offset

variable {offset : BitVec 16}

theorem and_one_eq_zero : offset &&& 1 = 0 ↔ offset.toNat % 2 = 0 := by
  have hval : (offset &&& 1).toNat = offset.toNat % 2 := Nat.and_two_pow_sub_one_eq_mod _ 1
  rw [← hval]
  exact BitVec.toNat_inj.symm

/-- The place of an offset in its dword. -/
theorem setWidth_mod_four : (offset.setWidth 8).toNat % 4 = offset.toNat % 4 := by
  rw [BitVec.toNat_setWidth]
  omega

theorem and_three_toNat : (offset &&& 3).toNat = (offset.setWidth 8).toNat % 4 := by
  have hval : (offset &&& 3).toNat = offset.toNat % 4 := Nat.and_two_pow_sub_one_eq_mod _ 2
  rw [hval, setWidth_mod_four]

theorem and_three_eq_zero : offset &&& 3 = 0 ↔ offset.toNat % 4 = 0 := by
  have hval : (offset &&& 3).toNat = offset.toNat % 4 := Nat.and_two_pow_sub_one_eq_mod _ 2
  rw [← hval]
  exact BitVec.toNat_inj.symm

/-- The 16-bit accessors refuse exactly the offsets that are not valid. -/
theorem word_check : (256 ≤ offset.toNat ∨ offset &&& 1 ≠ 0) ↔
    ¬ (offset.toNat < 256 ∧ offset.toNat % 2 = 0) := by
  rw [Ne, and_one_eq_zero]
  omega

theorem dword_check : (256 ≤ offset.toNat ∨ offset &&& 3 ≠ 0) ↔
    ¬ (offset.toNat < 256 ∧ offset.toNat % 4 = 0) := by
  rw [Ne, and_three_eq_zero]
  omega

/-- For an even offset the two low bits are 0 or 2. -/
theorem and_two_of_even (h : offset &&& 1 = 0) : offset &&& 2 = offset &&& 3 := by
  have hsplit : (3 : BitVec 16) = 2 ||| 1 := rfl
  rw [hsplit, BitVec.and_or_distrib_left, h]
  exact BitVec.or_zero.symm

theorem extractLsb'_offset : offset.extractLsb' 2 6 = (offset.setWidth 8).extractLsb' 2 6 := by
  apply BitVec.eq_of_getLsbD_eq
  intro i hi
  have hlt : 2 + i < 8 := by omega
  simp [hi, hlt]

end Offset

/-! ## The accessors on bytes -/

section Accessors

variable (seg : BitVec 16) (f : PciFunction) (offset : BitVec 16) (c : ConfigMechanism)

theorem readb_bytes (h : offset.toNat < 256) :
    laihostPciReadb seg f.bus f.slot f.fn offset c =
      (c.bytes f (offset.setWidth 8), c.select f offset) := by
  rw [laihostPciReadb, if_neg (Nat.not_le.mpr h)]
  simp only [outl_address, inl_select, and_three_toNat, extractLsb'_offset]
  refine congrArg (·, _) ?_
  rw [ConfigMechanism.bytes, Nat.mul_comm 8]
  exact setWidth_and_shiftRight _ _ (by decide)

/-- Two bytes side by side are a field of 16 bits. -/
theorem wordAt_bytes (o : BitVec 8) (h : o.toNat % 4 + 1 < 4) :
    c.bytes.wordAt f o =
      (c.dwords f.bdf (o.extractLsb' 2 6)).extractLsb' (8 * (o.toNat % 4)) 16 :=
  (congrArg (· ++ c.bytes f o) (bytes_add c f o h)).trans
    (BitVec.extractLsb'_append_extractLsb'_eq_extractLsb' (Nat.mul_succ 8 _))

theorem dwordAt_bytes (o : BitVec 8) (h : o.toNat % 4 = 0) :
    c.bytes.dwordAt f o = c.dwords f.bdf (o.extractLsb' 2 6) := by
  have hbyte : ∀ i < 4, c.bytes f (o + BitVec.ofNat 8 i) =
      (c.dwords f.bdf (o.extractLsb' 2 6)).extractLsb' (8 * i) 8 := by
    intro i hi
    rw [bytes_add c f o (by omega), h, Nat.zero_add]
  have hbyte₃ : c.bytes f (o + 3) = _ := hbyte 3 (by decide)
  have hbyte₂ : c.bytes f (o + 2) = _ := hbyte 2 (by decide)
  have hbyte₁ : c.bytes f (o + 1) = _ := hbyte 1 (by decide)
  have hbyte₀ : c.bytes f o = _ := (congrArg (c.bytes f) (BitVec.add_zero o).symm).trans
    (hbyte 0 (by decide))
  rw [ByteSpace.dwordAt, hbyte₃, hbyte₂, hbyte₁, hbyte₀,
    BitVec.extractLsb'_append_extractLsb'_eq_extractLsb' (by decide : 8 * 3 = 8 * 2 + 8),
    BitVec.extractLsb'_append_extractLsb'_eq_extractLsb' (by decide : 8 * 2 = 8 * 1 + 8),
    BitVec.extractLsb'_append_extractLsb'_eq_extractLsb' (by decide : 8 * 1 = 8 * 0 + 8)]
  exact BitVec.extractLsb'_eq_self

theorem readw_bytes (h : offset.toNat < 256 ∧ offset.toNat % 2 = 0) :
    laihostPciReadw seg f.bus f.slot f.fn offset c =
      (c.bytes.wordAt f (offset.setWidth 8), c.select f offset) := by
  have heven := and_one_eq_zero.mpr h.2
  have hplace : (offset.setWidth 8).toNat % 4 + 1 < 4 := by
    rw [setWidth_mod_four]
    omega
  rw [laihostPciReadw, if_neg fun hcheck => word_check.mp hcheck h]
  simp only [outl_address, inl_select, and_two_of_even heven, and_three_toNat, extractLsb'_offset]
  rw [wordAt_bytes f c _ hplace, Nat.mul_comm 8]
  exact congrArg (·, _) (setWidth_and_shiftRight _ _ (by decide))

theorem readd_bytes (h : offset.toNat < 256 ∧ offset.toNat % 4 = 0) :
    laihostPciReadd seg f.bus f.slot f.fn offset c =
      (c.bytes.dwordAt f (offset.setWidth 8), c.select f offset) := by
  have hplace : (offset.setWidth 8).toNat % 4 = 0 := setWidth_mod_four.trans h.2
  rw [laihostPciReadd, if_neg fun hcheck => dword_check.mp hcheck h, dwordAt_bytes f c _ hplace,
    ← extractLsb'_offset]
  exact congrArg (·, _) (inl_select f offset c)

theorem insertField_byte (data : BitVec 32) (p : Nat) (val : Byte) :
    data &&& ~~~(0xFF#32 <<< p) ||| val.setWidth 32 <<< p = insertField data p val := rfl

theorem insertField_word (data : BitVec 32) (p : Nat) (val : BitVec 16) :
    data &&& ~~~(0xFFFF#32 <<< p) ||| val.setWidth 32 <<< p = insertField data p val := rfl

theorem writeb_bytes (val : Byte) (h : offset.toNat < 256) :
    (laihostPciWriteb seg f.bus f.slot f.fn offset val c).bytes =
      c.bytes.setBytes f (offset.setWidth 8) 1 val := by
  rw [laihostPciWriteb, if_neg (Nat.not_le.mpr h)]
  simp only [outl_address, inl_select, outl_select, and_three_toNat, extractLsb'_offset]
  rw [Nat.mul_comm _ 8, insertField_byte]
  exact insertField_bytes (n := 1) (c.select f offset) f (offset.setWidth 8) val (by omega)

theorem writew_bytes (val : BitVec 16) (h : offset.toNat < 256 ∧ offset.toNat % 2 = 0) :
    (laihostPciWritew seg f.bus f.slot f.fn offset val c).bytes =
      c.bytes.setBytes f (offset.setWidth 8) 2 val := by
  have heven := and_one_eq_zero.mpr h.2
  have hplace : (offset.setWidth 8).toNat % 4 + 2 ≤ 4 := by
    rw [setWidth_mod_four]
    omega
  rw [laihostPciWritew, if_neg fun hcheck => word_check.mp hcheck h]
  simp only [outl_address, inl_select, outl_select, and_two_of_even heven, and_three_toNat,
    extractLsb'_offset]
  rw [Nat.mul_comm _ 8, insertField_word]
  exact insertField_bytes (n := 2) (c.select f offset) f (offset.setWidth 8) val hplace

theorem writed_bytes (val : BitVec 32) (h : offset.toNat < 256 ∧ offset.toNat % 4 = 0) :
    (laihostPciWrited seg f.bus f.slot f.fn offset val c).bytes =
      c.bytes.setBytes f (offset.setWidth 8) 4 val := by
  have hplace : (offset.setWidth 8).toNat % 4 = 0 := setWidth_mod_four.trans h.2
  have hinsert :=
    insertField_bytes (n := 4) (c.select f offset) f (offset.setWidth 8) val (by omega)
  rw [hplace, Nat.mul_zero, insertField_zero] at hinsert
  rw [laihostPciWrited, if_neg fun hcheck => dword_check.mp hcheck h]
  simp only [outl_address, outl_select, extractLsb'_offset]
  exact hinsert

end Accessors

/-! ## Runs -/

namespace PciAccess

/-- A valid call does to the bytes what it should, and returns what it should. -/
theorem run_of_valid (a : PciAccess) (h : a.Valid) (c : ConfigMechanism) :
    (a.run c).1 = (a.onBytes c.bytes).1 ∧ (a.run c).2.bytes = (a.onBytes c.bytes).2 := by
  cases a with
  | readb seg f offset =>
    simp only [run, onBytes, readb_bytes seg f offset c h]
    exact ⟨trivial, select_bytes c f offset⟩
  | readw seg f offset =>
    simp only [run, onBytes, readw_bytes seg f offset c h]
    exact ⟨trivial, select_bytes c f offset⟩
  | readd seg f offset =>
    simp only [run, onBytes, readd_bytes seg f offset c h]
    exact ⟨trivial, select_bytes c f offset⟩
  | writeb seg f offset val => exact ⟨rfl, writeb_bytes seg f offset c val h⟩
  | writew seg f offset val => exact ⟨rfl, writew_bytes seg f offset c val h⟩
  | writed seg f offset val => exact ⟨rfl, writed_bytes seg f offset c val h⟩

/-- Any other call changes nothing, not even the address register. -/
theorem run_of_not_valid (a : PciAccess) (h : ¬ a.Valid) (c : ConfigMechanism) :
    a.run c = (a.refusal, c) := by
  cases a with
  | readb seg f offset => rw [run, laihostPciReadb, if_pos (Nat.not_lt.mp h)]; rfl
  | readw seg f offset => rw [run, laihostPciReadw, if_pos (word_check.mpr h)]; rfl
  | readd seg f offset => rw [run, laihostPciReadd, if_pos (dword_check.mpr h)]; rfl
  | writeb seg f offset val => rw [run, laihostPciWriteb, if_pos (Nat.not_lt.mp h)]; rfl
  | writew seg f offset val => rw [run, laihostPciWritew, if_pos (word_check.mpr h)]; rfl
  | writed seg f offset val => rw [run, laihostPciWrited, if_pos (dword_check.mpr h)]; rfl

/-- A call on the byte arrays. -/
def spec (a : PciAccess) (m : ByteSpace) : PciReply × ByteSpace :=
  if a.Valid then a.onBytes m else (a.refusal, m)

theorem run_spec (a : PciAccess) (c : ConfigMechanism) :
    (a.run c).1 = (a.spec c.bytes).1 ∧ (a.run c).2.bytes = (a.spec c.bytes).2 := by
  unfold spec
  split_ifs with h
  · exact a.run_of_valid h c
  · rw [a.run_of_not_valid h c]
    exact ⟨rfl, rfl⟩

end PciAccess

/-- A sequence of calls, with what each returned. -/
def runAccesses {σ : Type} (step : PciAccess → σ → PciReply × σ) :
    List PciAccess → σ → List PciReply × σ
  | [], s => ([], s)
  | a :: rest, s =>
    let (reply, s) := step a s
    let (replies, s) := runAccesses step rest s
    (reply :: replies, s)

theorem runAccesses_spec (accesses : List PciAccess) (c : ConfigMechanism) :
    (runAccesses PciAccess.run accesses c).1 =
        (runAccesses PciAccess.spec accesses c.bytes).1 ∧
      (runAccesses PciAccess.run accesses c).2.bytes =
        (runAccesses PciAccess.spec accesses c.bytes).2 := by
  induction accesses generalizing c with
  | nil => exact ⟨rfl, rfl⟩
  | cons a rest ih =>
    obtain ⟨hreply, hbytes⟩ := a.run_spec c
    obtain ⟨hreplies, hfinal⟩ := ih (a.run c).2
    simp only [runAccesses, ← hbytes, hreply, hreplies, hfinal, and_self]

/-- Whatever the sequence of accesses, each returns what it would on a 256-byte array for each
function, the arrays end up the same, and a call that the offset checks reject changes nothing. -/
theorem pci_accessors_refine (accesses : List PciAccess) (c : ConfigMechanism) :
    (runAccesses PciAccess.run accesses c).1 =
        (runAccesses PciAccess.spec accesses c.bytes).1 ∧
      (runAccesses PciAccess.run accesses c).2.bytes =
        (runAccesses PciAccess.spec accesses c.bytes).2 ∧
      ∀ a : PciAccess, ¬ a.Valid → (a.run c).2 = c := by
  obtain ⟨hreplies, hbytes⟩ := runAccesses_spec accesses c
  refine ⟨hreplies, hbytes, fun a h => ?_⟩
  rw [a.run_of_not_valid h c]

end ChronOS.Pci
