/-
  Fs/FatEntries.lean --- the entries of a FAT in bytes.

  Entries are packed: 12 bits each, two in three bytes; 16 bits; or 32 bits of which the upper
  four are not part of the entry and have to be kept.  As a stream of bits the three are one
  thing, a table of fields.  This file has the loads and stores of
  `kernel/src/fs/fat/ff.c` and says which field they read and set.
-/
import ChronOS.Foundation.BitStream
import ChronOS.Fs.FatWindow

set_option autoImplicit false

namespace ChronOS.Fs

open ChronOS.Foundation

/-! ## The three formats -/

namespace FsType

/-- The distance of two entries in bits. -/
def width : FsType → Nat
  | none => 0
  | fat12 => 12
  | fat16 => 16
  | fat32 => 32

/-- The bits of an entry. -/
def bits : FsType → Nat
  | none => 0
  | fat12 => 12
  | fat16 => 16
  | fat32 => 28

theorem bits_le_width (t : FsType) : t.bits ≤ t.width := by cases t <;> decide

/-- The part of a value that an entry holds. -/
def held (t : FsType) (val : BitVec 32) : BitVec 32 := (val.setWidth t.bits).setWidth 32

end FsType

/-! ## Bytes of the window -/

/-- `b[i]`. -/
def byteAt (b : Sector) (i : Nat) : Byte := b (Fin.ofNat 512 i)

/-- `b[i] = x`. -/
def setByte (b : Sector) (i : Nat) (x : Byte) : Sector := Function.update b (Fin.ofNat 512 i) x

/-- `ld_word`. -/
def ldWord (b : Sector) (p : Nat) : BitVec 16 :=
  let rv : BitVec 16 := (byteAt b (p + 1)).setWidth 16
  rv <<< 8 ||| (byteAt b p).setWidth 16

/-- `ld_dword`. -/
def ldDword (b : Sector) (p : Nat) : BitVec 32 :=
  let rv : BitVec 32 := (byteAt b (p + 3)).setWidth 32
  let rv := rv <<< 8 ||| (byteAt b (p + 2)).setWidth 32
  let rv := rv <<< 8 ||| (byteAt b (p + 1)).setWidth 32
  rv <<< 8 ||| (byteAt b p).setWidth 32

/-- `st_word`. -/
def stWord (b : Sector) (p : Nat) (val : BitVec 16) : Sector :=
  let b := setByte b p (val.setWidth 8)
  setByte b (p + 1) ((val >>> 8).setWidth 8)

/-- `st_dword`. -/
def stDword (b : Sector) (p : Nat) (val : BitVec 32) : Sector :=
  let b := setByte b p (val.setWidth 8)
  let val := val >>> 8
  let b := setByte b (p + 1) (val.setWidth 8)
  let val := val >>> 8
  let b := setByte b (p + 2) (val.setWidth 8)
  setByte b (p + 3) ((val >>> 8).setWidth 8)

/-- The first byte of a FAT12 entry, as `put_fat` updates it. -/
def firstByte (clst val : BitVec 32) (old : Byte) : Byte :=
  if clst &&& 1 ≠ 0 then old &&& 0x0F#8 ||| val.setWidth 8 <<< 4 else val.setWidth 8

/-- The second byte. -/
def secondByte (clst val : BitVec 32) (old : Byte) : Byte :=
  if clst &&& 1 ≠ 0 then (val >>> 4).setWidth 8
  else old &&& 0xF0#8 ||| ((val >>> 8).setWidth 8 &&& 0x0F#8)

/-! ## Which field they are -/

section Window

variable {b : Sector} {bytes : Nat → Byte} {p k : Nat}

/-- Indices count modulo the sector size. -/
theorem byteAt_congr (b : Sector) {i j : Nat} (h : i % 512 = j % 512) :
    byteAt b i = byteAt b j :=
  congrArg b (Fin.ext h)

theorem setByte_congr (b : Sector) (x : Byte) {i j : Nat} (h : i % 512 = j % 512) :
    setByte b i x = setByte b j x :=
  congrArg (fun l => Function.update b l x) (Fin.ext h)

theorem ldWord_eq (h : p % 512 = k % 512) (hb : ∀ i < 2, byteAt b (k + i) = bytes (k + i)) :
    ldWord b p = streamField bytes (8 * k) 16 := by
  have hbyte : ∀ i < 2, byteAt b (p + i) = bytes (k + i) :=
    fun i hi => (byteAt_congr b (by omega)).trans (hb i hi)
  apply BitVec.eq_of_getLsbD_eq
  intro i hi
  rw [getLsbD_streamField bytes _ hi, ldWord, hbyte 1 (by decide),
    show byteAt b p = bytes k from hbyte 0 (by decide), getLsbD_shiftLeft_or_byte _ _ hi]
  split_ifs with h0
  · exact (streamBit_of_byte rfl h0).symm
  · rw [streamBit_of_byte (k := k + 1) (i := i - 8) (by omega) (by omega)]
    simp; omega

theorem ldDword_eq (h : p % 512 = k % 512) (hb : ∀ i < 4, byteAt b (k + i) = bytes (k + i)) :
    ldDword b p = streamField bytes (8 * k) 32 := by
  have hbyte : ∀ i < 4, byteAt b (p + i) = bytes (k + i) :=
    fun i hi => (byteAt_congr b (by omega)).trans (hb i hi)
  apply BitVec.eq_of_getLsbD_eq
  intro i hi
  rw [getLsbD_streamField bytes _ hi, ldDword, hbyte 1 (by decide), hbyte 2 (by decide),
    hbyte 3 (by decide), show byteAt b p = bytes k from hbyte 0 (by decide),
    getLsbD_shiftLeft_or_byte _ _ hi]
  split_ifs with h0
  · exact (streamBit_of_byte rfl h0).symm
  rw [getLsbD_shiftLeft_or_byte _ _ (by omega)]
  split_ifs with h1
  · exact (streamBit_of_byte (by omega) h1).symm
  rw [getLsbD_shiftLeft_or_byte _ _ (by omega)]
  split_ifs with h2
  · exact (streamBit_of_byte (by omega) h2).symm
  · rw [streamBit_of_byte (k := k + 3) (i := i - 8 - 8 - 8) (by omega) (by omega)]
    simp; omega

/-- Two bytes merged as `get_fat` does it on a FAT12 volume. -/
theorem getLsbD_merge (bytes : Nat → Byte) (k : Nat) {i : Nat} (hi : i < 32) :
    ((bytes k).setWidth 32 ||| (bytes (k + 1)).setWidth 32 <<< 8 : BitVec 32).getLsbD i =
      (decide (i < 16) && streamBit bytes (8 * k + i)) := by
  rw [BitVec.or_comm, getLsbD_shiftLeft_or_byte _ _ hi]
  split_ifs with hlow
  · rw [streamBit_of_byte rfl hlow]
    simp; omega
  · by_cases hhigh : i < 16
    · rw [streamBit_of_byte (show 8 * k + i = 8 * (k + 1) + (i - 8) by omega) (by omega)]
      simp [hhigh]; omega
    · have hzero : (bytes (k + 1)).getLsbD (i - 8) = false :=
        BitVec.getLsbD_of_ge _ _ (by omega)
      simp [hhigh, hzero]

theorem toNat_mul_two_mod (c : BitVec 32) : (c * 2 % 512).toNat = 2 * c.toNat % 512 := by
  rw [BitVec.toNat_umod, BitVec.toNat_mul, show (2 : BitVec 32).toNat = 2 from rfl,
    show (512 : BitVec 32).toNat = 512 from rfl]
  omega

theorem toNat_mul_four_mod (c : BitVec 32) : (c * 4 % 512).toNat = 4 * c.toNat % 512 := by
  rw [BitVec.toNat_umod, BitVec.toNat_mul, show (4 : BitVec 32).toNat = 4 from rfl,
    show (512 : BitVec 32).toNat = 512 from rfl]
  omega

theorem odd_iff (c : BitVec 32) : c &&& 1 ≠ 0 ↔ c.toNat % 2 = 1 := by
  have hand : (c &&& 1).toNat = c.toNat % 2 := by
    rw [BitVec.toNat_and]
    exact Nat.and_one_is_mod _
  have hzero : c &&& 1 = 0 ↔ (c &&& 1).toNat = 0 :=
    ⟨fun h => by rw [h]; rfl, fun h => BitVec.eq_of_toNat_eq h⟩
  rw [Ne, hzero, hand]
  omega

/-- Adjusting the bit position gives the 12 bits of the entry. -/
theorem unpack12 (bytes : Nat → Byte) (c : BitVec 32) {k : Nat} (hk : k = c.toNat + c.toNat / 2) :
    (let wc := (bytes k).setWidth 32 ||| (bytes (k + 1)).setWidth 32 <<< 8
      if c &&& 1 ≠ 0 then wc >>> 4 else wc &&& 0xFFF) =
      (streamField bytes (12 * c.toNat) 12).setWidth 32 := by
  apply BitVec.eq_of_getLsbD_eq
  intro i hi
  have hmask : ∀ i < 32, (0xFFF : BitVec 32).getLsbD i = decide (i < 12) := by decide
  rw [BitVec.getLsbD_setWidth]
  dsimp only
  by_cases hi' : i < 12
  · rw [getLsbD_streamField bytes _ hi']
    split_ifs with hodd
    · have hpar := (odd_iff c).mp hodd
      rw [BitVec.getLsbD_ushiftRight, getLsbD_merge bytes k (by omega),
        show 8 * k + (4 + i) = 12 * c.toNat + i by omega]
      simp [hi]; omega
    · have hpar : ¬ c.toNat % 2 = 1 := fun h => hodd ((odd_iff c).mpr h)
      rw [BitVec.getLsbD_and, getLsbD_merge bytes k hi, hmask i hi,
        show 8 * k + i = 12 * c.toNat + i by omega]
      simp [hi, hi']; omega
  · rw [BitVec.getLsbD_of_ge (streamField bytes _ 12) i (by omega), Bool.and_false]
    split_ifs
    · rw [BitVec.getLsbD_ushiftRight]
      by_cases hlt : 4 + i < 32
      · rw [getLsbD_merge bytes k hlt]
        simp; omega
      · exact BitVec.getLsbD_of_ge _ _ (by omega)
    · rw [BitVec.getLsbD_and, hmask i hi]
      simp [hi']

theorem mask28 (bytes : Nat → Byte) (off : Nat) :
    streamField bytes off 32 &&& 0x0FFFFFFF = (streamField bytes off 28).setWidth 32 := by
  apply BitVec.eq_of_getLsbD_eq
  intro i hi
  have hmask : ∀ i < 32, (0x0FFFFFFF : BitVec 32).getLsbD i = decide (i < 28) := by decide
  rw [BitVec.getLsbD_setWidth, BitVec.getLsbD_and, getLsbD_streamField bytes _ hi, hmask i hi]
  by_cases hi' : i < 28
  · rw [getLsbD_streamField bytes _ hi']
    simp [hi, hi']
  · rw [BitVec.getLsbD_of_ge (streamField bytes _ 28) i (by omega)]
    simp [hi']

theorem store16 (bytes : Nat → Byte) (c : Nat) (val : BitVec 16) :
    let bytes' := Function.update (Function.update bytes (2 * c) (val.setWidth 8)) (2 * c + 1)
      ((val >>> 8).setWidth 8)
    SameOutside (16 * c) 16 bytes bytes' ∧ streamField bytes' (16 * c) 16 = val := by
  dsimp only
  constructor
  · exact (sameOutside_update fun i hi hout => absurd hout (by omega)).trans
      (sameOutside_update fun i hi hout => absurd hout (by omega))
  · rw [show 16 * c = 8 * (2 * c) by omega,
      streamField_of_bytes (x := val) fun m hm => ?_, BitVec.setWidth_eq]
    rcases (by omega : m = 0 ∨ m = 1) with rfl | rfl
    · simp
    · rw [Function.update_self]

/-- The mask of `put_fat` keeps the upper four bits of a FAT32 entry. -/
theorem getLsbD_keep28 (val old : BitVec 32) {i : Nat} (hi : i < 32) :
    (val &&& 0x0FFFFFFF ||| old &&& 0xF0000000).getLsbD i =
      if i < 28 then val.getLsbD i else old.getLsbD i := by
  have hlow : ∀ i < 32, (0x0FFFFFFF : BitVec 32).getLsbD i = decide (i < 28) := by decide
  have hhigh : ∀ i < 32, (0xF0000000 : BitVec 32).getLsbD i = decide (28 ≤ i) := by decide
  rw [BitVec.getLsbD_or, BitVec.getLsbD_and, BitVec.getLsbD_and, hlow i hi, hhigh i hi]
  split_ifs with h
  · simp [h]
  · simp [h]; omega

theorem store32 (bytes : Nat → Byte) (c : Nat) (val : BitVec 32) :
    let x := val &&& 0x0FFFFFFF ||| streamField bytes (32 * c) 32 &&& 0xF0000000
    let bytes' := Function.update (Function.update (Function.update (Function.update bytes (4 * c)
      (x.setWidth 8)) (4 * c + 1) ((x >>> 8).setWidth 8)) (4 * c + 2)
      ((x >>> 8 >>> 8).setWidth 8)) (4 * c + 3) ((x >>> 8 >>> 8 >>> 8).setWidth 8)
    SameOutside (32 * c) 28 bytes bytes' ∧ streamField bytes' (32 * c) 28 = val.setWidth 28 := by
  intro x
  have hkeep := fun i (hi : i < 32) => getLsbD_keep28 val (streamField bytes (32 * c) 32) hi
  dsimp only
  constructor
  · refine (sameOutside_update fun i hi hout => absurd hout (by omega)).trans
      ((sameOutside_update fun i hi hout => absurd hout (by omega)).trans
        ((sameOutside_update fun i hi hout => absurd hout (by omega)).trans
          (sameOutside_update fun i hi hout => ?_)))
    rw [Function.update_of_ne (by omega), Function.update_of_ne (by omega),
      Function.update_of_ne (by omega)]
    have hbit := hkeep (24 + i) (by omega)
    rw [if_neg (by omega), getLsbD_streamField bytes _ (by omega),
      streamBit_of_byte (show 32 * c + (24 + i) = 8 * (4 * c + 3) + i by omega) hi] at hbit
    rw [← hbit, ← BitVec.shiftRight_add, ← BitVec.shiftRight_add, BitVec.getLsbD_setWidth,
      BitVec.getLsbD_ushiftRight, decide_eq_true hi, Bool.true_and]
  · rw [show 32 * c = 8 * (4 * c) by omega, streamField_of_bytes (x := x) fun m hm => ?_]
    · apply BitVec.eq_of_getLsbD_eq
      intro i hi
      rw [BitVec.getLsbD_setWidth, BitVec.getLsbD_setWidth, hkeep i (by omega), if_pos hi]
    · rcases (by omega : m = 0 ∨ m = 1 ∨ m = 2 ∨ m = 3) with rfl | rfl | rfl | rfl
      · simp
      · simp
      · simp
      · simp

theorem getLsbD_lowNibble {i : Nat} (hi : i < 8) :
    (0x0F#8).getLsbD i = decide (i < 4) := by
  revert i
  decide

theorem getLsbD_highNibble {i : Nat} (hi : i < 8) :
    (0xF0#8).getLsbD i = decide (4 ≤ i) := by
  revert i
  decide

/-- An entry with an odd number begins in the middle of its first byte. -/
theorem getLsbD_firstByte (c val : BitVec 32) (old : Byte) {i : Nat} (hi : i < 8) :
    (firstByte c val old).getLsbD i =
      if c.toNat % 2 = 1 then if i < 4 then old.getLsbD i else val.getLsbD (i - 4)
      else val.getLsbD i := by
  unfold firstByte
  by_cases hodd : c &&& 1 ≠ 0
  · rw [if_pos hodd, if_pos ((odd_iff c).mp hodd), BitVec.getLsbD_or, BitVec.getLsbD_and,
      getLsbD_lowNibble hi]
    split_ifs with hlow
    · simp [hi, hlow]
    · simp [hi, hlow]
  · rw [if_neg hodd, if_neg fun h => hodd ((odd_iff c).mpr h)]
    simp [hi]

/-- One with an even number ends in the middle of its second. -/
theorem getLsbD_secondByte (c val : BitVec 32) (old : Byte) {i : Nat} (hi : i < 8) :
    (secondByte c val old).getLsbD i =
      if c.toNat % 2 = 1 then val.getLsbD (4 + i)
      else if i < 4 then val.getLsbD (8 + i) else old.getLsbD i := by
  unfold secondByte
  by_cases hodd : c &&& 1 ≠ 0
  · rw [if_pos hodd, if_pos ((odd_iff c).mp hodd)]
    simp [hi]
  · rw [if_neg hodd, if_neg fun h => hodd ((odd_iff c).mpr h), BitVec.getLsbD_or,
      BitVec.getLsbD_and, BitVec.getLsbD_and, getLsbD_lowNibble hi, getLsbD_highNibble hi]
    split_ifs with hlow
    · simp [hi, hlow]
    · simp [hlow]; omega

theorem store12_first (bytes : Nat → Byte) (c val : BitVec 32)
    (hk : k = c.toNat + c.toNat / 2) :
    SameOutside (12 * c.toNat) 12 bytes (Function.update bytes k (firstByte c val (bytes k))) := by
  refine sameOutside_update fun i hi hout => ?_
  rw [getLsbD_firstByte c val _ hi]
  split_ifs
  · rfl
  · omega
  · omega

theorem store12_second (bytes : Nat → Byte) (c val : BitVec 32)
    (hk : k = c.toNat + c.toNat / 2) :
    SameOutside (12 * c.toNat) 12 bytes
      (Function.update bytes (k + 1) (secondByte c val (bytes (k + 1)))) := by
  refine sameOutside_update fun i hi hout => ?_
  rw [getLsbD_secondByte c val _ hi]
  split_ifs
  · omega
  · omega
  · rfl

theorem store12_field (bytes : Nat → Byte) (c val : BitVec 32) (old : Byte)
    (hk : k = c.toNat + c.toNat / 2) :
    streamField (Function.update (Function.update bytes k (firstByte c val (bytes k))) (k + 1)
      (secondByte c val old)) (12 * c.toNat) 12 = val.setWidth 12 := by
  apply BitVec.eq_of_getLsbD_eq
  intro i hi
  rw [getLsbD_streamField _ _ hi, BitVec.getLsbD_setWidth, decide_eq_true hi, Bool.true_and]
  -- the bits of the first byte, which are the lower eight, or four after an odd number
  by_cases hfirst : 12 * c.toNat + i < 8 * (k + 1)
  · rw [streamBit_of_byte (show 12 * c.toNat + i = 8 * k + (12 * c.toNat + i - 8 * k) by omega)
      (by omega), Function.update_of_ne (by omega), Function.update_self,
      getLsbD_firstByte c val _ (by omega)]
    split_ifs
    · omega
    · congr 1; omega
    · congr 1; omega
  · rw [streamBit_of_byte (show 12 * c.toNat + i =
        8 * (k + 1) + (12 * c.toNat + i - 8 * (k + 1)) by omega) (by omega),
      Function.update_self, getLsbD_secondByte c val _ (by omega)]
    split_ifs
    · congr 1; omega
    · congr 1; omega
    · omega

end Window

end ChronOS.Fs
