/-
  Foundation/Memory.lean --- a flat, byte-addressed 64-bit memory.

  Addresses are `BitVec 64` and wrap, exactly as pointer arithmetic on
  `uint64_t` does.  A memory is total: reading an address nobody owns returns
  whatever byte the function has there, which is how an uninitialised page or a
  dereferenced null pointer is modelled by the clients.

  Two facts carry every frame argument above this file: `getLsbD_read`, which
  reduces a multi-byte little-endian read to single bytes, and the three
  `*_apply` lemmas, which give the byte left at an address by a word store, a
  `memset` and a `memcpy`.
-/
import Mathlib

set_option autoImplicit false

namespace ChronOS.Foundation

/-- `uint64_t`, and every pointer. -/
abbrev Word : Type := BitVec 64

/-- `uint8_t`. -/
abbrev Byte : Type := BitVec 8

/-- The contents of the whole address space. -/
abbrev Mem : Type := Word → Byte

/-- Every address is a base and its offset from there. -/
theorem add_offset (base x : Word) : base + BitVec.ofNat 64 (x - base).toNat = x := by
  rw [BitVec.ofNat_toNat, BitVec.setWidth_eq, add_sub_cancel]

theorem toNat_offset (base : Word) {n : Nat} (h : n < 2 ^ 64) :
    (base + BitVec.ofNat 64 n - base).toNat = n := by
  rw [add_sub_cancel_left, BitVec.toNat_ofNat, Nat.mod_eq_of_lt h]

/-- An `int` that is not negative keeps its value when it is widened. -/
theorem toNat_signExtend_of_lt {u : BitVec 32} (h : u.toNat < 2 ^ 31) :
    (u.signExtend 64).toNat = u.toNat := by
  have hmsb : u.msb = false := BitVec.msb_eq_false_iff_two_mul_lt.mpr (by omega)
  rw [BitVec.signExtend_eq_setWidth_of_msb_false hmsb, BitVec.toNat_setWidth]
  omega

namespace Mem

/-- Store one byte. -/
def set (m : Mem) (a : Word) (b : Byte) : Mem :=
  fun x => if x = a then b else m x

@[simp] theorem set_self (m : Mem) (a : Word) (b : Byte) : m.set a b a = b := by
  simp [set]

theorem set_of_ne {m : Mem} {a x : Word} {b : Byte} (h : x ≠ a) :
    m.set a b x = m x := by
  simp [set, h]

/-! ## Little-endian words -/

/-- The `n`-byte little-endian value stored at `a`. -/
def read (m : Mem) : (n : Nat) → Word → BitVec (8 * n)
  | 0, _ => 0#0
  | n + 1, a => read m n (a + 1) ++ m a

/-- Store the `n` bytes of `v` at `a`, least significant byte first. -/
def write (m : Mem) {n : Nat} (a : Word) (v : BitVec (8 * n)) : Mem :=
  fun x => if (x - a).toNat < n then v.extractLsb' (8 * (x - a).toNat) 8 else m x

/-- `*(uint64_t *)a`. -/
def read64 (m : Mem) (a : Word) : Word := m.read 8 a

/-- `*(uint64_t *)a = v`. -/
def write64 (m : Mem) (a : Word) (v : Word) : Mem := m.write (n := 8) a v

/-- Bit `i` of a little-endian read is bit `i % 8` of the byte at offset `i / 8`. -/
theorem getLsbD_read (m : Mem) :
    ∀ (n : Nat) (a : Word) (i : Nat), i < 8 * n →
      (m.read n a).getLsbD i = (m (a + BitVec.ofNat 64 (i / 8))).getLsbD (i % 8) := by
  intro n
  induction n with
  | zero => intro a i hi; omega
  | succ n ih =>
      intro a i hi
      rw [read, BitVec.getLsbD_append]
      by_cases hlow : i < 8
      · have hdiv : i / 8 = 0 := by omega
        have hmod : i % 8 = i := by omega
        simp [hlow, hdiv, hmod]
      · have haddr : a + 1 + BitVec.ofNat 64 ((i - 8) / 8) = a + BitVec.ofNat 64 (i / 8) := by
          have hdiv : i / 8 = 1 + (i - 8) / 8 := by omega
          rw [hdiv, BitVec.ofNat_add, BitVec.add_assoc]
          rfl
        have hmod : (i - 8) % 8 = i % 8 := by omega
        rw [if_neg hlow, ih (a + 1) (i - 8) (by omega), haddr, hmod]

theorem read_congr {m m' : Mem} {n : Nat} {a : Word}
    (h : ∀ k < n, m' (a + BitVec.ofNat 64 k) = m (a + BitVec.ofNat 64 k)) :
    m'.read n a = m.read n a := by
  apply BitVec.eq_of_getLsbD_eq
  intro i hi
  rw [getLsbD_read m' n a i hi, getLsbD_read m n a i hi, h (i / 8) (by omega)]

theorem byte_read (m : Mem) {n k : Nat} (a : Word) (hk : k < n) :
    m (a + BitVec.ofNat 64 k) = (m.read n a).extractLsb' (8 * k) 8 := by
  apply BitVec.eq_of_getLsbD_eq
  intro i hi
  have hdiv : (8 * k + i) / 8 = k := by omega
  have hmod : (8 * k + i) % 8 = i := by omega
  rw [BitVec.getLsbD_extractLsb', getLsbD_read m n a _ (by omega), hdiv, hmod]
  simp [hi]

theorem write_of_lt {m : Mem} {n : Nat} {a x : Word} {v : BitVec (8 * n)}
    (h : (x - a).toNat < n) :
    m.write a v x = v.extractLsb' (8 * (x - a).toNat) 8 :=
  if_pos h

theorem write_of_ge {m : Mem} {n : Nat} {a x : Word} {v : BitVec (8 * n)}
    (h : n ≤ (x - a).toNat) : m.write a v x = m x :=
  if_neg (Nat.not_lt.mpr h)

theorem read_write_self (m : Mem) {n : Nat} (hn : n ≤ 2 ^ 64) (a : Word)
    (v : BitVec (8 * n)) : (m.write a v).read n a = v := by
  apply BitVec.eq_of_getLsbD_eq
  intro i hi
  have hoff : (a + BitVec.ofNat 64 (i / 8) - a).toNat = i / 8 := by
    have hlt : i / 8 < 2 ^ 64 := by omega
    bv_omega
  rw [getLsbD_read _ n a i hi, write_of_lt (by omega), hoff,
    BitVec.getLsbD_extractLsb']
  have hmod : i % 8 < 8 := by omega
  have hjoin : 8 * (i / 8) + i % 8 = i := by omega
  simp [hmod, hjoin]

theorem read_write_of_disjoint {m : Mem} {n k : Nat} {a b : Word} {v : BitVec (8 * k)}
    (h : ∀ j < n, k ≤ (b + BitVec.ofNat 64 j - a).toNat) : (m.write a v).read n b = m.read n b :=
  read_congr fun j hj => write_of_ge (h j hj)

@[simp] theorem read64_write64_self (m : Mem) (a v : Word) :
    (m.write64 a v).read64 a = v :=
  read_write_self (n := 8) m (by decide) a v

theorem read64_congr {m m' : Mem} {a : Word}
    (h : ∀ k < 8, m' (a + BitVec.ofNat 64 k) = m (a + BitVec.ofNat 64 k)) :
    m'.read64 a = m.read64 a :=
  read_congr h

theorem write64_of_ge {m : Mem} {a x v : Word} (h : 8 ≤ (x - a).toNat) :
    m.write64 a v x = m x :=
  write_of_ge h

theorem read64_write64_of_disjoint {m : Mem} {a b v : Word}
    (hab : 8 ≤ (a - b).toNat) (hba : 8 ≤ (b - a).toNat) :
    (m.write64 a v).read64 b = m.read64 b :=
  read_write_of_disjoint (n := 8) (k := 8) fun j hj => by bv_omega

theorem read64_eq_zero {m : Mem} {a : Word}
    (h : ∀ k < 8, m (a + BitVec.ofNat 64 k) = 0) : m.read64 a = 0 := by
  apply BitVec.eq_of_getLsbD_eq
  intro i hi
  rw [read64, getLsbD_read m 8 a i hi, h (i / 8) (by omega)]
  simp

/-! ## Bytes as numbers -/

/-- Byte `k` of a word. -/
def byteOf (v : Word) (k : Nat) : Nat := v.toNat / 2 ^ (8 * k) % 256

@[simp] theorem byteOf_zero (k : Nat) : byteOf 0 k = 0 := by
  rw [byteOf, show (0 : Word).toNat = 0 from rfl, Nat.zero_div]

theorem byteOf_low (v : Word) : byteOf v 0 = v.toNat % 256 := by
  rw [byteOf, Nat.mul_zero, Nat.pow_zero, Nat.div_one]

theorem toNat_extractByte (v : Word) (k : Nat) : (v.extractLsb' (8 * k) 8).toNat = byteOf v k := by
  rw [BitVec.extractLsb'_toNat, Nat.shiftRight_eq_div_pow]
  rfl

/-- A word whose bytes are zero is zero. -/
theorem eq_zero_of_byteOf {v : Word} (h : ∀ k < 8, byteOf v k = 0) : v = 0 := by
  apply BitVec.eq_of_getLsbD_eq
  intro i hi
  have hbyte : v.extractLsb' (8 * (i / 8)) 8 = 0#8 :=
    BitVec.eq_of_toNat_eq ((toNat_extractByte v _).trans (h (i / 8) (by omega)))
  have hbit := congrArg (BitVec.getLsbD · (i % 8)) hbyte
  rw [BitVec.getLsbD_extractLsb', Nat.div_add_mod] at hbit
  simpa [Nat.mod_lt i (show 8 > 0 by decide)] using hbit

/-- A word whose upper bytes are zero is small. -/
theorem toNat_lt_of_byteOf {v : Word} {j : Nat} (h : ∀ k < 8, j ≤ k → byteOf v k = 0) :
    v.toNat < 2 ^ (8 * j) := by
  have hshift : v >>> (8 * j) = 0 := by
    refine eq_zero_of_byteOf fun k _ => ?_
    have hsplit : byteOf (v >>> (8 * j)) k = byteOf v (j + k) := by
      rw [byteOf, byteOf, BitVec.toNat_ushiftRight, Nat.shiftRight_eq_div_pow,
        Nat.div_div_eq_div_mul, ← Nat.pow_add, Nat.mul_add]
    rw [hsplit]
    by_cases hlt : j + k < 8
    · exact h _ hlt (Nat.le_add_right j k)
    · have hpow : 2 ^ 64 ≤ 2 ^ (8 * (j + k)) := Nat.pow_le_pow_right (by decide) (by omega)
      rw [byteOf, Nat.div_eq_of_lt (v.isLt.trans_le hpow)]
  have hnat := congrArg BitVec.toNat hshift
  rw [BitVec.toNat_ushiftRight, Nat.shiftRight_eq_div_pow] at hnat
  exact (Nat.div_eq_zero_iff_lt (Nat.two_pow_pos _)).mp hnat

theorem toNat_write64 (m : Mem) (a v x : Word) :
    (m.write64 a v x).toNat =
      if (x - a).toNat < 8 then byteOf v (x - a).toNat else (m x).toNat := by
  split_ifs with h
  · rw [write64, write_of_lt h, toNat_extractByte]
  · rw [write64_of_ge (Nat.not_lt.mp h)]

theorem toNat_read64 (m : Mem) (a : Word) {k : Nat} (hk : k < 8) :
    (m (a + BitVec.ofNat 64 k)).toNat = byteOf (m.read64 a) k := by
  rw [byte_read m a hk]
  exact toNat_extractByte (m.read64 a) k

/-- The bytes of a stored word after a second store, which may hit any part of it. -/
theorem byteOf_read64_write64 (m : Mem) (a b v w : Word) {k : Nat} (hk : k < 8) :
    byteOf (((m.write64 a v).write64 b w).read64 a) k =
      if ((a - b).toNat + k) % 2 ^ 64 < 8 then byteOf w (((a - b).toNat + k) % 2 ^ 64)
      else byteOf v k := by
  have hoff : (a + BitVec.ofNat 64 k - b).toNat = ((a - b).toNat + k) % 2 ^ 64 := by bv_omega
  rw [← toNat_read64 _ a hk, toNat_write64, hoff, toNat_write64, toNat_offset _ (by omega),
    if_pos hk]

end Mem

/-! ## The byte loops of the C string library -/

/-- `for (i = 0; i < size; i++) buf[i] = value;` -/
def memset (m : Mem) (buf : Word) (value : Byte) : Nat → Mem
  | 0 => m
  | i + 1 => (memset m buf value i).set (buf + BitVec.ofNat 64 i) value

/-- `for (i = 0; i < size; i++) dst[i] = src[i];` --- each byte is read from the
memory the previous iterations left, so an overlapping copy is modelled too. -/
def memcpy (m : Mem) (dst src : Word) : Nat → Mem
  | 0 => m
  | i + 1 =>
      (memcpy m dst src i).set (dst + BitVec.ofNat 64 i)
        (memcpy m dst src i (src + BitVec.ofNat 64 i))

theorem memset_apply (m : Mem) (buf : Word) (value : Byte) (x : Word) :
    ∀ n : Nat, n ≤ 2 ^ 64 →
      memset m buf value n x = if (x - buf).toNat < n then value else m x := by
  intro n
  induction n with
  | zero => intro _; simp [memset]
  | succ n ih =>
      intro hn
      have hprev := ih (by omega)
      by_cases hx : x = buf + BitVec.ofNat 64 n
      · have hoff : (x - buf).toNat < n + 1 := by bv_omega
        rw [memset, hx, Mem.set_self, ← hx, if_pos hoff]
      · have hoff : (x - buf).toNat ≠ n := by bv_omega
        rw [memset, Mem.set_of_ne hx, hprev]
        have hiff : (x - buf).toNat < n + 1 ↔ (x - buf).toNat < n := by omega
        simp only [hiff]

theorem memcpy_of_ge (m : Mem) (dst src : Word) {x : Word} :
    ∀ n : Nat, n ≤ 2 ^ 64 → n ≤ (x - dst).toNat → memcpy m dst src n x = m x := by
  intro n
  induction n with
  | zero => intro _ _; rfl
  | succ n ih =>
      intro hn hx
      have hne : x ≠ dst + BitVec.ofNat 64 n := by
        intro heq
        bv_omega
      rw [memcpy, Mem.set_of_ne hne, ih (by omega) (by omega)]

/-- A copy whose source does not meet its destination moves the bytes. -/
theorem memcpy_apply (m : Mem) (dst src : Word) (n : Nat) (hn : n ≤ 2 ^ 64)
    (hdisj : ∀ i < n, n ≤ (src + BitVec.ofNat 64 i - dst).toNat) :
    ∀ k ≤ n, ∀ x : Word, (x - dst).toNat < k →
      memcpy m dst src k x = m (src + (x - dst)) := by
  intro k
  induction k with
  | zero => intro _ x hx; omega
  | succ k ih =>
      intro hk x hx
      have hsrc : memcpy m dst src k (src + BitVec.ofNat 64 k) =
          m (src + BitVec.ofNat 64 k) :=
        memcpy_of_ge m dst src k (by omega) (by have := hdisj k (by omega); omega)
      by_cases heq : x = dst + BitVec.ofNat 64 k
      · have hoff : x - dst = BitVec.ofNat 64 k := by bv_omega
        rw [hoff, memcpy, heq, Mem.set_self, hsrc]
      · have hlt : (x - dst).toNat < k := by bv_omega
        rw [memcpy, Mem.set_of_ne heq, ih (by omega) x hlt]

/-! ## Pages -/

/-- `p` is the address of a 4 KiB page. -/
def PageAligned (p : Word) : Prop := p.toNat % 4096 = 0

/-- `x` is one of the 4096 bytes from `p` on. -/
def InPage (p x : Word) : Prop := (x - p).toNat < 4096

instance (p : Word) : Decidable (PageAligned p) := inferInstanceAs (Decidable (_ = _))
instance (p x : Word) : Decidable (InPage p x) := inferInstanceAs (Decidable (_ < _))

/-- Distinct pages share no byte. -/
theorem InPage.unique {p q x : Word} (hp : PageAligned p) (hq : PageAligned q)
    (hpx : InPage p x) (hqx : InPage q x) : p = q := by
  unfold PageAligned InPage at *
  bv_omega

/-- Clearing the low 12 bits rounds down to a page. -/
theorem toNat_roundDown (x : Word) :
    (x &&& 0xFFFFFFFFFFFFF000#64).toNat = x.toNat / 0x1000 * 0x1000 := by
  have hmask : ∀ i < 64, (0xFFFFFFFFFFFFF000#64).getLsbD i = decide (12 ≤ i) := by decide
  have hshift : x &&& 0xFFFFFFFFFFFFF000#64 = (x >>> 12) <<< 12 := by
    apply BitVec.eq_of_getLsbD_eq
    intro i hi
    rw [BitVec.getLsbD_and, hmask i hi, BitVec.getLsbD_shiftLeft, BitVec.getLsbD_ushiftRight]
    by_cases hle : 12 ≤ i
    · simp [hle, hi, Nat.add_sub_cancel' hle, Nat.not_lt.mpr hle]
    · simp [hle, Nat.lt_of_not_le hle]
  have hlt := x.isLt
  rw [hshift, BitVec.toNat_shiftLeft, BitVec.toNat_ushiftRight, Nat.shiftLeft_eq,
    Nat.shiftRight_eq_div_pow]
  omega

theorem memset_page_of_inPage {m : Mem} {p x : Word} (h : InPage p x) (v : Byte) :
    memset m p v 0x1000 x = v := by
  rw [memset_apply m p v x 0x1000 (by decide)]
  exact if_pos h

theorem memset_page_of_not_inPage {m : Mem} {p x : Word} (h : ¬ InPage p x) (v : Byte) :
    memset m p v 0x1000 x = m x := by
  rw [memset_apply m p v x 0x1000 (by decide)]
  exact if_neg h

/-- The addresses of `n` pages in a row. -/
def consecutive (n : Nat) (base : Word) : List Word :=
  (List.range n).map fun i => base + BitVec.ofNat 64 (0x1000 * i)

/-- The bytes of pages in a row are one range. -/
theorem exists_inPage_consecutive_iff {n : Nat} (hn : 0x1000 * n ≤ 2 ^ 64) (base x : Word) :
    (∃ p ∈ consecutive n base, InPage p x) ↔ (x - base).toNat < 0x1000 * n := by
  simp only [consecutive, List.mem_map, List.mem_range, exists_exists_and_eq_and, InPage]
  have hoff : ∀ i < n, (x - (base + BitVec.ofNat 64 (0x1000 * i))).toNat < 4096 ↔
      0x1000 * i ≤ (x - base).toNat ∧ (x - base).toNat < 0x1000 * i + 4096 := by
    intro i hi
    have hi' : 0x1000 * i < 2 ^ 64 := by omega
    bv_omega
  constructor
  · rintro ⟨i, hi, hx⟩
    have := (hoff i hi).mp hx
    omega
  · intro hx
    have hi : (x - base).toNat / 0x1000 < n := by omega
    exact ⟨_, hi, (hoff _ hi).mpr (by omega)⟩

theorem consecutive_concat (n : Nat) (base : Word) :
    consecutive (n + 1) base = consecutive n base ++ [base + BitVec.ofNat 64 (0x1000 * n)] := by
  rw [consecutive, consecutive, List.range_succ, List.map_append, List.map_singleton]

theorem consecutive_succ (n : Nat) (base : Word) :
    consecutive (n + 1) base = base :: consecutive n (base + 0x1000#64) := by
  simp only [consecutive, List.range_succ_eq_map, List.map_cons, List.map_map]
  refine congrArg₂ _ (BitVec.add_zero base) (List.map_congr_left fun i _ => ?_)
  simp only [Function.comp_apply, Nat.succ_eq_add_one, Nat.mul_add, BitVec.ofNat_add]
  rw [BitVec.add_comm (BitVec.ofNat 64 (0x1000 * i)), ← BitVec.add_assoc]

theorem consecutive_nodup {n : Nat} (hn : 0x1000 * n ≤ 2 ^ 64) (base : Word) :
    (consecutive n base).Nodup := by
  refine List.Nodup.map_on (fun i hi j hj heq => ?_) List.nodup_range
  rw [List.mem_range] at hi hj
  have := congrArg BitVec.toNat ((BitVec.add_right_inj _).mp heq)
  simp only [BitVec.toNat_ofNat] at this
  omega

end ChronOS.Foundation
