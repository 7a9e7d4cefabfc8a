/-
  Ds/Bitmap.lean --- `kernel/src/ds/bitmap.c`.

  Bits are stored most significant first.  Both accessors reject an index with
  `idx > bitmap->size * 8`, so the index `8 * size` itself is accepted and
  addresses the byte at offset `size`, one past the bitmap; the model keeps that
  byte, because it lives in the same memory as everything else.
-/
import ChronOS.Foundation.Memory

set_option autoImplicit false

namespace ChronOS.Ds

open ChronOS.Foundation

/-- `bitmap_t`. -/
structure Bitmap where
  bitmap : Word
  size : Word
  deriving DecidableEq, Repr

/-- `0b10000000 >> bitIndex`. -/
def bitIndexer (idx : BitVec 32) : Byte := 0b10000000#8 >>> (idx % 8#32).toNat

/-- `&bitmap->bitmap[idx / 8]`. -/
def byteAddress (b : Bitmap) (idx : BitVec 32) : Word :=
  b.bitmap + (idx / 8#32).setWidth 64

/-- `bitmap_get`. -/
def bitmapGet (m : Mem) (b : Bitmap) (idx : BitVec 32) : Byte :=
  if idx.setWidth 64 > b.size * 8#64 then 0
  else if m (byteAddress b idx) &&& bitIndexer idx > 0 then 1
  else 0

/-- `bitmap_set`: the returned status and the memory after the call. -/
def bitmapSet (m : Mem) (b : Bitmap) (idx : BitVec 32) (value : Byte) : Byte × Mem :=
  if idx.setWidth 64 > b.size * 8#64 then (0, m)
  else
    let a := byteAddress b idx
    let m := m.set a (m a &&& ~~~ bitIndexer idx)
    let m := if value ≠ 0#8 then m.set a (m a ||| bitIndexer idx) else m
    (1, m)

/-! ## Bits -/

/-- Bit `i` of the bit array that starts at `base`. -/
def bitAt (m : Mem) (base : Word) (i : Nat) : Bool :=
  (m (base + BitVec.ofNat 64 (i / 8))).getMsbD (i % 8)

/-- The limit both accessors compare the index with. -/
def Bitmap.limit (b : Bitmap) : Nat := (b.size * 8#64).toNat

theorem bitIndexer_eq (idx : BitVec 32) :
    bitIndexer idx = BitVec.twoPow 8 (7 - idx.toNat % 8) := by
  have hall : ∀ k < 8, 0b10000000#8 >>> k = BitVec.twoPow 8 (7 - k) := by decide
  have hmod : (idx % 8#32).toNat = idx.toNat % 8 := by simp [BitVec.toNat_umod]
  unfold bitIndexer
  rw [hmod, hall (idx.toNat % 8) (by omega)]

theorem byteAddress_eq (b : Bitmap) (idx : BitVec 32) :
    byteAddress b idx = b.bitmap + BitVec.ofNat 64 (idx.toNat / 8) := by
  unfold byteAddress
  have hlt := idx.isLt
  congr 1
  apply BitVec.eq_of_toNat_eq
  simp [BitVec.toNat_udiv]

/-- An accepted index is one up to and including `8 * size`. -/
theorem accepts_iff (b : Bitmap) (idx : BitVec 32) :
    ¬ (idx.setWidth 64 > b.size * 8#64) ↔ idx.toNat ≤ b.limit := by
  have hlt := idx.isLt
  unfold Bitmap.limit
  rw [gt_iff_lt, BitVec.lt_def, BitVec.toNat_setWidth]
  omega

theorem getMsbD_byte (x : Byte) (i : Nat) :
    x.getMsbD (i % 8) = x.getLsbD (7 - i % 8) := by
  have hlt : i % 8 < 8 := Nat.mod_lt _ (by decide)
  simp [BitVec.getMsbD, hlt]

/-- `bitmap_get` reads the bit of an accepted index and answers 0 for the others. -/
theorem bitmapGet_ne_zero_iff (m : Mem) (b : Bitmap) (idx : BitVec 32) :
    bitmapGet m b idx ≠ 0 ↔ idx.toNat ≤ b.limit ∧ bitAt m b.bitmap idx.toNat = true := by
  unfold bitmapGet
  by_cases hacc : idx.toNat ≤ b.limit
  · rw [if_neg ((accepts_iff b idx).mpr hacc), bitIndexer_eq, byteAddress_eq,
      BitVec.and_twoPow]
    unfold bitAt
    rw [getMsbD_byte]
    have hpos : BitVec.twoPow 8 (7 - idx.toNat % 8) ≠ 0#8 := by
      intro hzero
      have hnat := congrArg BitVec.toNat hzero
      rw [BitVec.toNat_twoPow_of_lt (by omega)] at hnat
      exact absurd hnat (Nat.two_pow_pos _).ne'
    cases hbit : (m (b.bitmap + BitVec.ofNat 64 (idx.toNat / 8))).getLsbD (7 - idx.toNat % 8)
    · simp
    · simp [hacc, hpos]
  · rw [if_pos (by_contra fun h => hacc ((accepts_iff b idx).mp h))]
    simp [hacc]

theorem bitmapSet_rejected (m : Mem) (b : Bitmap) (idx : BitVec 32) (value : Byte)
    (h : b.limit < idx.toNat) : bitmapSet m b idx value = (0, m) := by
  unfold bitmapSet
  exact if_pos (by_contra fun hn => absurd ((accepts_iff b idx).mp hn) (by omega))

/-- The byte `bitmap_set` stores in place of `x`. -/
def updatedByte (x : Byte) (idx : BitVec 32) (value : Byte) : Byte :=
  if value ≠ 0#8 then x &&& ~~~ bitIndexer idx ||| bitIndexer idx else x &&& ~~~ bitIndexer idx

/-- For an accepted index `bitmap_set` succeeds and changes a single byte. -/
theorem bitmapSet_accepted (m : Mem) (b : Bitmap) (idx : BitVec 32) (value : Byte)
    (h : idx.toNat ≤ b.limit) :
    bitmapSet m b idx value =
      (1, m.set (byteAddress b idx) (updatedByte (m (byteAddress b idx)) idx value)) := by
  unfold bitmapSet updatedByte
  rw [if_neg ((accepts_iff b idx).mpr h)]
  by_cases hv : value = 0#8
  · simp [hv]
  · simp only [hv, ne_eq, not_false_eq_true, if_true, Mem.set_self, Prod.mk.injEq, true_and]
    funext x
    simp only [Mem.set]
    split <;> rfl

theorem getMsbD_updatedByte (x : Byte) (idx : BitVec 32) (value : Byte) (j : Nat) :
    (updatedByte x idx value).getMsbD (j % 8) =
      if j % 8 = idx.toNat % 8 then decide (value ≠ 0#8) else x.getMsbD (j % 8) := by
  have hlt : 7 - j % 8 < 8 := by omega
  have hlt' : 7 - idx.toNat % 8 < 8 := by omega
  have hiff : 7 - j % 8 = 7 - idx.toNat % 8 ↔ j % 8 = idx.toNat % 8 := by omega
  unfold updatedByte
  rw [bitIndexer_eq, getMsbD_byte, getMsbD_byte]
  by_cases hv : value = 0#8 <;> by_cases he : j % 8 = idx.toNat % 8 <;>
    simp [hv, he, hiff, hlt, hlt']

/-- `bitmap_set` on an accepted index sets that bit and leaves every other bit of memory
as it was. -/
theorem bitAt_bitmapSet (m : Mem) (b : Bitmap) (idx : BitVec 32) (value : Byte)
    (h : idx.toNat ≤ b.limit) (j : Nat) (hj : j / 8 < 2 ^ 64) :
    bitAt (bitmapSet m b idx value).2 b.bitmap j =
      if j = idx.toNat then decide (value ≠ 0#8) else bitAt m b.bitmap j := by
  have hlt := idx.isLt
  have hdm : j = idx.toNat ↔ j / 8 = idx.toNat / 8 ∧ j % 8 = idx.toNat % 8 := by omega
  rw [bitmapSet_accepted m b idx value h, byteAddress_eq]
  unfold bitAt
  by_cases hbyte : j / 8 = idx.toNat / 8
  · rw [hbyte]
    simp only [Mem.set_self]
    rw [getMsbD_updatedByte]
    simp [hdm, hbyte]
  · have hne : b.bitmap + BitVec.ofNat 64 (j / 8) ≠ b.bitmap + BitVec.ofNat 64 (idx.toNat / 8) := by
      intro heq
      have := congrArg BitVec.toNat ((BitVec.add_right_inj _).mp heq)
      simp only [BitVec.toNat_ofNat] at this
      omega
    simp only [Mem.set_of_ne hne]
    rw [if_neg (by omega)]

/-! ## Reads over writes, and the bound -/

/-- The byte that `bitmap_get` reads, and `bitmap_set` reads and writes; none if they refuse the
index. -/
def Bitmap.accessed (b : Bitmap) (idx : BitVec 32) : Option Word :=
  if idx.setWidth 64 > b.size * 8#64 then none else some (byteAddress b idx)

/-- What a bitmap of `size` bytes is to its users, for the index `i` and the value `v`. -/
structure ReadOverWrite (m : Mem) (b : Bitmap) (i : BitVec 32) (v : Byte) : Prop where
  status : (bitmapSet m b i v).1 = if i.toNat < 8 * b.size.toNat then 1 else 0
  same : i.toNat < 8 * b.size.toNat →
    bitmapGet (bitmapSet m b i v).2 b i = if v ≠ 0#8 then 1 else 0
  others : i.toNat < 8 * b.size.toNat →
    ∀ j, j ≠ i → bitmapGet (bitmapSet m b i v).2 b j = bitmapGet m b j
  outside : 8 * b.size.toNat ≤ i.toNat →
    (∀ a ∈ b.accessed i, (a - b.bitmap).toNat < b.size.toNat) ∧
      (bitmapSet m b i v).2 = m ∧ bitmapGet m b i = 0

theorem bitmapGet_eq (m : Mem) (b : Bitmap) (idx : BitVec 32) :
    bitmapGet m b idx =
      if idx.toNat ≤ b.limit ∧ bitAt m b.bitmap idx.toNat = true then 1 else 0 := by
  have hbit := bitmapGet_ne_zero_iff m b idx
  by_cases hset : idx.toNat ≤ b.limit ∧ bitAt m b.bitmap idx.toNat = true
  · rw [if_pos hset]
    have hne := hbit.mpr hset
    unfold bitmapGet at hne ⊢
    split_ifs at hne ⊢ <;> first | rfl | exact absurd rfl hne
  · rw [if_neg hset]
    exact not_not.mp (mt hbit.mp hset)

/-- The product `size * 8` is the number of bits unless it overflows. -/
theorem limit_eq (b : Bitmap) : b.limit = 8 * b.size.toNat % 2 ^ 64 := by
  unfold Bitmap.limit
  rw [BitVec.toNat_mul, Nat.mul_comm]
  rfl

/-- On an accepted index writes are read back and touch no other index. -/
theorem bitmapGet_bitmapSet (m : Mem) (b : Bitmap) {i : BitVec 32} (v : Byte)
    (h : i.toNat ≤ b.limit) (j : BitVec 32) :
    bitmapGet (bitmapSet m b i v).2 b j =
      if j = i then if v ≠ 0#8 then 1 else 0 else bitmapGet m b j := by
  have hj := j.isLt
  rw [bitmapGet_eq, bitAt_bitmapSet m b i v h j.toNat (by omega)]
  by_cases hji : j = i
  · subst hji
    simp [h]
  · rw [if_neg (fun hnat => hji (BitVec.eq_of_toNat_eq hnat)), if_neg hji, bitmapGet_eq]

/-- A bitmap behaves as its users expect exactly at the indices other than `8 * size`, as long as
`size * 8` does not overflow or at least reaches the index. -/
theorem readOverWrite_iff (m : Mem) (b : Bitmap) (i : BitVec 32) (v : Byte) :
    ReadOverWrite m b i v ↔
      i.toNat ≠ 8 * b.size.toNat ∧
        (8 * b.size.toNat < 2 ^ 64 ∨ i.toNat ≤ 8 * b.size.toNat % 2 ^ 64) := by
  have hlimit := limit_eq b
  have hi := i.isLt
  rcases Nat.lt_or_ge b.limit i.toNat with hrefused | hacc
  · -- a refused index is one outside the bitmap, unless the product has overflowed
    have hset := bitmapSet_rejected m b i v hrefused
    constructor
    · intro h
      have hout : ¬ i.toNat < 8 * b.size.toNat := fun hin => by
        have hstatus := h.status
        rw [hset, if_pos hin] at hstatus
        exact absurd (show (0 : Byte) = 1 from hstatus) (by decide)
      omega
    · intro hcond
      have hout : ¬ i.toNat < 8 * b.size.toNat := by omega
      refine ⟨?_, fun hin => absurd hin hout, fun hin => absurd hin hout, fun _ => ⟨?_, ?_, ?_⟩⟩
      · rw [hset, if_neg hout]
      · have hnone : b.accessed i = none :=
          if_pos (by_contra fun hpass => absurd ((accepts_iff b i).mp hpass) (by omega))
        simp [hnone]
      · rw [hset]
      · rw [bitmapGet_eq, if_neg (by omega)]
  · have hset := bitmapSet_accepted m b i v hacc
    have hread := bitmapGet_bitmapSet m b v hacc
    constructor
    · intro h
      have hin : i.toNat < 8 * b.size.toNat := by
        by_contra hout
        have hstatus := h.status
        rw [hset, if_neg hout] at hstatus
        exact absurd (show (1 : Byte) = 0 from hstatus) (by decide)
      omega
    · intro hcond
      have hin : i.toNat < 8 * b.size.toNat := by omega
      refine ⟨?_, fun _ => ?_, fun _ j hj => ?_, fun hout => absurd hin (Nat.not_lt.mpr hout)⟩
      · rw [hset, if_pos hin]
      · rw [hread i, if_pos rfl]
      · rw [hread j, if_neg hj]

/-- Index 8 of a bitmap of one byte is accepted, and the byte behind the bitmap is changed. -/
theorem one_byte_bitmap_overruns :
    let b : Bitmap := ⟨0x1000#64, 1#64⟩
    (bitmapSet (fun _ => 0) b 8#32 1#8).1 = 1 ∧ b.accessed 8#32 = some 0x1001#64 ∧
      (bitmapSet (fun _ => 0) b 8#32 1#8).2 0x1001#64 = 0x80#8 ∧
      bitmapGet (fun _ => 0xff) b 8#32 = 1 := by
  decide

end ChronOS.Ds
