/-
  Printk/Number.lean --- `number`, which formats an integer.

  A call is modelled by the characters that it appends at `str`.  `int` is `BitVec 32`
  and wraps, as the kernel is compiled without optimisation.  Five loops share and
  decrement `size`, `precision` and `i`; every loop over `size` takes one off it also
  when it does nothing.  So if the difference of the width and the length of the number
  is within two of the smallest `int`, a later loop finds a large positive count.

  Whatever the padding, the field shows the argument: its sign, its radix mark and its
  digits are those of the integer (`Shows`, `number_shows`).
-/
import ChronOS.Foundation.Memory

set_option autoImplicit false

namespace ChronOS.Printk

open ChronOS.Foundation

/-- A character constant of the source. -/
def ascii (c : Char) : Byte := BitVec.ofNat 8 c.toNat

/-! ## The source -/

def ZEROPAD : BitVec 32 := 1
def SIGN : BitVec 32 := 2
def PLUS : BitVec 32 := 4
def SPACE : BitVec 32 := 8
def LEFT : BitVec 32 := 16
def SPECIAL : BitVec 32 := 32
def SMALL : BitVec 32 := 64

/-- `type & flag` as a condition. -/
def Has (type flag : BitVec 32) : Prop := type &&& flag ≠ 0

instance (type flag : BitVec 32) : Decidable (Has type flag) := inferInstanceAs (Decidable (_ ≠ _))

/-- The string "0123456789ABCDEFGHIJKLMNOPQRSTUVWXYZ". -/
def UPPER_DIGITS : List Byte := (List.range' 0x30 10 ++ List.range' 0x41 26).map (BitVec.ofNat 8)

/-- The string "0123456789abcdefghijklmnopqrstuvwxyz". -/
def LOWER_DIGITS : List Byte := (List.range' 0x30 10 ++ List.range' 0x61 26).map (BitVec.ofNat 8)

theorem toInt_sub_one {x : BitVec 32} (h : -2 ^ 31 < x.toInt) : (x - 1).toInt = x.toInt - 1 := by
  have hone : (1 : BitVec 32).toInt = 1 := by decide
  rw [BitVec.toInt_sub, hone]
  have := BitVec.toInt_lt (x := x)
  exact Int.bmod_eq_of_le (by omega) (by omega)

/-- `while (bound < counter--) *str++ = c;`: the characters, and the counter after the loop. -/
def fillWhile (c : Byte) (bound counter : BitVec 32) : List Byte × BitVec 32 :=
  if bound.toInt < counter.toInt then
    let r := fillWhile c bound (counter - 1)
    (c :: r.1, r.2)
  else ([], counter - 1)
termination_by (counter.toInt - bound.toInt).toNat
decreasing_by
  rename_i h
  have hbound := BitVec.le_toInt bound
  have hnext := toInt_sub_one (x := counter) (by omega)
  omega

/-- `sign` after the test of `SIGN`. -/
def signOf (num : Word) (type : BitVec 32) : Byte :=
  if Has type SIGN ∧ num.toInt < 0 then ascii '-'
  else if Has type PLUS then ascii '+'
  else if Has type SPACE then ascii ' '
  else 0

/-- `num` after the test of `SIGN`. -/
def absOf (num : Word) (type : BitVec 32) : Word :=
  if Has type SIGN ∧ num.toInt < 0 then -num else num

/-- `while (num != 0) tmp[i++] = digits[do_div(num, base)];`: `do_div` is an unsigned division.  A
64-bit number has at most 64 digits. -/
def digitLoop (digits : List Byte) (base : BitVec 32) : (fuel : Nat) → Word → List Byte
  | 0, _ => []
  | fuel + 1, num =>
    if num = 0 then []
    else digits.getD ((num % base.signExtend 64).setWidth 32).toNat 0 ::
      digitLoop digits base fuel (num / base.signExtend 64)

/-- `tmp`, as far as it is written. -/
def tmpOf (digits : List Byte) (base : BitVec 32) (num : Word) : List Byte :=
  if num = 0 then [ascii '0'] else digitLoop digits base 64 num

/-- What `SPECIAL` takes off `size`. -/
def specialSize (base type : BitVec 32) : BitVec 32 :=
  if Has type SPECIAL then if base = 16 then 2 else if base = 8 then 1 else 0 else 0

/-- What `SPECIAL` prints. -/
def special (digits : List Byte) (base type : BitVec 32) : List Byte :=
  if Has type SPECIAL then
    if base = 8 then [ascii '0'] else if base = 16 then [ascii '0', digits.getD 33 0] else []
  else []

/-- `digits`. -/
def digitTable (type : BitVec 32) : List Byte :=
  if Has type SMALL then LOWER_DIGITS else UPPER_DIGITS

/-- `number`, as the characters it appends; `none` is the null pointer. -/
def number (num : Word) (base size precision type : BitVec 32) : Option (List Byte) :=
  let digits := digitTable type
  let type := if Has type LEFT then type &&& ~~~ZEROPAD else type
  if base.toInt < 2 ∨ 36 < base.toInt then none
  else
    let c := if Has type ZEROPAD then ascii '0' else ascii ' '
    let sign := signOf num type
    let size := if sign ≠ 0 then size - 1 else size
    let size := size - specialSize base type
    let tmp := tmpOf digits base (absOf num type)
    let i := BitVec.ofNat 32 tmp.length
    let precision := if precision.toInt < i.toInt then i else precision
    let size := size - precision
    let left := if ¬ Has type (ZEROPAD + LEFT) then fillWhile (ascii ' ') 0 size else ([], size)
    let fill := if ¬ Has type LEFT then fillWhile c 0 left.2 else ([], left.2)
    -- `while (i < precision--)`, then the digits from the last one on
    let zeros := fillWhile (ascii '0') i precision
    let right := fillWhile (ascii ' ') 0 fill.2
    some (left.1 ++ (if sign ≠ 0 then [sign] else []) ++ special digits base type ++ fill.1 ++
      zeros.1 ++ tmp.reverse ++ right.1)

/-! ## The loops -/

/-- The loop prints as often as the counter is above the bound, and leaves the counter one below
where it stopped. -/
theorem fillWhile_eq (c : Byte) (bound : BitVec 32) :
    ∀ counter : BitVec 32, fillWhile c bound counter =
      (List.replicate (counter.toInt - bound.toInt).toNat c,
        (if bound.toInt < counter.toInt then bound else counter) - 1) := by
  intro counter
  induction counter using fillWhile.induct c bound with
  | case1 counter hlt ih =>
    have hmin := BitVec.le_toInt bound
    have hnext := toInt_sub_one (x := counter) (by omega)
    rw [fillWhile, if_pos hlt, ih, hnext]
    have hcount : (counter.toInt - bound.toInt).toNat =
        (counter.toInt - 1 - bound.toInt).toNat + 1 := by omega
    rw [hcount, List.replicate_succ, if_pos hlt]
    by_cases hlast : bound.toInt < counter.toInt - 1
    · rw [if_pos hlast]
    · have heq : counter - 1 = bound := BitVec.eq_of_toInt_eq (by omega)
      rw [if_neg hlast, heq]
  | case2 counter hge =>
    have hcount : (counter.toInt - bound.toInt).toNat = 0 := by omega
    rw [fillWhile, if_neg hge, if_neg hge, hcount]
    rfl

/-- The counter after `while (counter-- > 0)`. -/
def stopped (counter : BitVec 32) : BitVec 32 :=
  (if (0 : BitVec 32).toInt < counter.toInt then 0 else counter) - 1

theorem fillWhile_zero (c : Byte) (counter : BitVec 32) :
    fillWhile c 0 counter = (List.replicate counter.toInt.toNat c, stopped counter) := by
  rw [fillWhile_eq, show (0 : BitVec 32).toInt = 0 from rfl, Int.sub_zero]
  rfl

/-! ## The flags -/

theorem has_clear (type : BitVec 32) {flag : BitVec 32} (h : ~~~ZEROPAD &&& flag = flag) :
    Has (type &&& ~~~ZEROPAD) flag ↔ Has type flag := by
  rw [Has, Has, BitVec.and_assoc, h]

theorem not_has_clear (type : BitVec 32) : ¬ Has (type &&& ~~~ZEROPAD) ZEROPAD := by
  rw [Has, BitVec.and_assoc, show ~~~ZEROPAD &&& ZEROPAD = 0 from by decide]
  exact not_not.mpr BitVec.and_zero

theorem has_zeropad_left (type : BitVec 32) :
    Has type (ZEROPAD + LEFT) ↔ Has type ZEROPAD ∨ Has type LEFT := by
  have hsum : ZEROPAD + LEFT = ZEROPAD ||| LEFT := by decide
  rw [Has, Has, Has, hsum, BitVec.and_or_distrib_left]
  exact not_iff_comm.mp (by rw [not_or, not_not, not_not]; exact BitVec.or_eq_zero_iff.symm)

/-- `type` after `LEFT` has switched `ZEROPAD` off. -/
def normalised (type : BitVec 32) : BitVec 32 := if Has type LEFT then type &&& ~~~ZEROPAD else type

theorem has_normalised (type : BitVec 32) {flag : BitVec 32} (h : ~~~ZEROPAD &&& flag = flag) :
    Has (normalised type) flag ↔ Has type flag := by
  unfold normalised
  split_ifs
  · exact has_clear type h
  · exact Iff.rfl

theorem has_normalised_zeropad (type : BitVec 32) :
    Has (normalised type) ZEROPAD ↔ Has type ZEROPAD ∧ ¬ Has type LEFT := by
  unfold normalised
  by_cases hleft : Has type LEFT
  · rw [if_pos hleft]
    exact ⟨fun h => absurd h (not_has_clear type), fun h => absurd hleft h.2⟩
  · rw [if_neg hleft]
    exact ⟨fun h => ⟨h, hleft⟩, fun h => h.1⟩

theorem signOf_normalised (num : Word) (type : BitVec 32) :
    signOf num (normalised type) = signOf num type := by
  simp only [signOf, has_normalised type (show ~~~ZEROPAD &&& SIGN = SIGN from by decide),
    has_normalised type (show ~~~ZEROPAD &&& PLUS = PLUS from by decide),
    has_normalised type (show ~~~ZEROPAD &&& SPACE = SPACE from by decide)]

theorem absOf_normalised (num : Word) (type : BitVec 32) :
    absOf num (normalised type) = absOf num type := by
  simp only [absOf, has_normalised type (show ~~~ZEROPAD &&& SIGN = SIGN from by decide)]

theorem special_normalised (digits : List Byte) (base type : BitVec 32) :
    special digits base (normalised type) = special digits base type := by
  simp only [special, has_normalised type (show ~~~ZEROPAD &&& SPECIAL = SPECIAL from by decide)]

theorem specialSize_normalised (base type : BitVec 32) :
    specialSize base (normalised type) = specialSize base type := by
  simp only [specialSize,
    has_normalised type (show ~~~ZEROPAD &&& SPECIAL = SPECIAL from by decide)]

/-! ## What is printed -/

/-- Blanks, sign, radix mark, fill, zeros, digits and blanks. -/
def layout (left : Nat) (sign mark : List Byte) (c : Byte) (fill zeros : Nat) (digits : List Byte)
    (right : Nat) : List Byte :=
  List.replicate left (ascii ' ') ++ sign ++ mark ++ List.replicate fill c ++
    List.replicate zeros (ascii '0') ++ digits ++ List.replicate right (ascii ' ')

/-- The sign as it is printed. -/
def signChars (num : Word) (type : BitVec 32) : List Byte :=
  if signOf num type ≠ 0 then [signOf num type] else []

/-- `tmp` of a call. -/
def tmpDigits (num : Word) (base type : BitVec 32) : List Byte :=
  tmpOf (digitTable type) base (absOf num type)

/-- `precision` after it was raised to the number of digits. -/
def raised (num : Word) (base precision type : BitVec 32) : BitVec 32 :=
  if precision.toInt < (BitVec.ofNat 32 (tmpDigits num base type).length).toInt then
    BitVec.ofNat 32 (tmpDigits num base type).length
  else precision

/-- `size` when the first of its loops begins. -/
def remaining (num : Word) (base size precision type : BitVec 32) : BitVec 32 :=
  (if signOf num type ≠ 0 then size - 1 else size) - specialSize base type -
    raised num base precision type

/-- How often the loops over `size` print: before the sign, before the zeros and at the end. -/
def pads (type size : BitVec 32) : Nat × Nat × Nat :=
  if Has type LEFT then (0, 0, size.toInt.toNat)
  else if Has type ZEROPAD then (0, size.toInt.toNat, (stopped size).toInt.toNat)
  else (size.toInt.toNat, (stopped size).toInt.toNat, (stopped (stopped size)).toInt.toNat)

theorem number_eq (num : Word) {base : BitVec 32} (hbase : ¬ (base.toInt < 2 ∨ 36 < base.toInt))
    (size precision type : BitVec 32) :
    number num base size precision type =
      let pad := pads type (remaining num base size precision type)
      some (layout pad.1 (signChars num type) (special (digitTable type) base type)
        (if Has type ZEROPAD then ascii '0' else ascii ' ') pad.2.1
        ((raised num base precision type).toInt -
          (BitVec.ofNat 32 (tmpDigits num base type).length).toInt).toNat
        (tmpDigits num base type).reverse pad.2.2) := by
  have hnormal : (if Has type LEFT then type &&& ~~~ZEROPAD else type) = normalised type := rfl
  have hleft := has_normalised type (show ~~~ZEROPAD &&& LEFT = LEFT from by decide)
  have htmp : tmpOf (digitTable type) base (absOf num type) = tmpDigits num base type := rfl
  have hraised : (if precision.toInt < (BitVec.ofNat 32 (tmpDigits num base type).length).toInt then
      BitVec.ofNat 32 (tmpDigits num base type).length else precision) =
      raised num base precision type := rfl
  have hremaining : (if signOf num type ≠ 0 then size - 1 else size) - specialSize base type -
      raised num base precision type = remaining num base size precision type := rfl
  have hsign : (if signOf num type ≠ 0 then [signOf num type] else []) = signChars num type := rfl
  unfold number
  dsimp only
  rw [if_neg hbase, hnormal]
  simp only [signOf_normalised, absOf_normalised, special_normalised, specialSize_normalised,
    has_zeropad_left, has_normalised_zeropad, hleft, htmp, hraised, hremaining, hsign,
    fillWhile_zero]
  rw [fillWhile_eq]
  unfold pads
  by_cases hl : Has type LEFT
  · simp only [hl, not_true, or_true, if_true, if_false, layout, List.append_nil,
      List.nil_append, List.replicate_zero]
  · by_cases hz : Has type ZEROPAD
    · simp only [hl, hz, not_true, not_false_eq_true, or_false, and_self, if_true, if_false,
        layout, List.nil_append, List.replicate_zero]
    · simp only [hl, hz, not_false_eq_true, or_self, false_and, if_true, if_false, layout]

/-! ## The digits -/

/-- The number that is printed, without its sign. -/
def magnitude (num : Word) (type : BitVec 32) : Nat :=
  if Has type SIGN then num.toInt.natAbs else num.toNat

/-- The digits of `n` without leading zeros. -/
def canonical (type : BitVec 32) (base n : Nat) : List Byte :=
  if n = 0 then [ascii '0'] else (Nat.digits base n).reverse.map fun d => (digitTable type).getD d 0

/-- Also the most negative number has its magnitude, as an unsigned number. -/
theorem toNat_absOf (num : Word) (type : BitVec 32) :
    (absOf num type).toNat = magnitude num type := by
  have hlt := num.isLt
  have hint := BitVec.toInt_eq_toNat_cond num
  unfold absOf magnitude
  by_cases hsign : Has type SIGN
  · by_cases hneg : num.toInt < 0
    · rw [if_pos ⟨hsign, hneg⟩, if_pos hsign, BitVec.toNat_neg]
      split_ifs at hint <;> omega
    · rw [if_neg fun h => hneg h.2, if_pos hsign]
      split_ifs at hint <;> omega
  · rw [if_neg fun h => hsign h.1, if_neg hsign]

section Digits

variable {base : BitVec 32} (hlow : 2 ≤ base.toNat) (hhigh : base.toNat ≤ 36)
include hlow hhigh

theorem digitLoop_eq (digits : List Byte) :
    ∀ {fuel : Nat} {num : Word}, num.toNat < base.toNat ^ fuel →
      digitLoop digits base fuel num =
        (Nat.digits base.toNat num.toNat).map fun d => digits.getD d 0 := by
  intro fuel
  induction fuel with
  | zero =>
    intro num hnum
    rw [Nat.pow_zero, Nat.lt_one_iff] at hnum
    rw [hnum, Nat.digits_zero]
    rfl
  | succ fuel ih =>
    intro num hnum
    unfold digitLoop
    by_cases hzero : num = 0
    · rw [if_pos hzero, hzero]
      simp
    · have hpos : 0 < num.toNat := Nat.pos_of_ne_zero fun h => hzero (BitVec.eq_of_toNat_eq h)
      have hbase := toNat_signExtend_of_lt (show base.toNat < 2 ^ 31 by omega)
      have hmod : num.toNat % base.toNat < base.toNat := Nat.mod_lt _ (by omega)
      have hdiv : (num / base.signExtend 64).toNat < base.toNat ^ fuel := by
        rw [BitVec.toNat_udiv, hbase]
        exact Nat.div_lt_of_lt_mul (by rwa [Nat.pow_succ, Nat.mul_comm] at hnum)
      rw [if_neg hzero, ih hdiv, Nat.digits_def' (by omega) hpos, List.map_cons,
        BitVec.toNat_setWidth, BitVec.toNat_umod, BitVec.toNat_udiv, hbase,
        Nat.mod_eq_of_lt (show num.toNat % base.toNat < 2 ^ 32 by omega)]

/-- `tmp` holds the digits, the last one first. -/
theorem tmpDigits_reverse (num : Word) (type : BitVec 32) :
    (tmpDigits num base type).reverse = canonical type base.toNat (magnitude num type) := by
  have habs := toNat_absOf num type
  unfold tmpDigits tmpOf canonical
  by_cases hzero : absOf num type = 0
  · rw [if_pos hzero, if_pos (by rw [← habs, hzero]; rfl)]
    rfl
  · have hne : magnitude num type ≠ 0 := fun h => hzero (BitVec.eq_of_toNat_eq (habs.trans h))
    have hfuel : (absOf num type).toNat < base.toNat ^ 64 :=
      Nat.lt_of_lt_of_le (absOf num type).isLt (Nat.pow_le_pow_left hlow 64)
    rw [if_neg hzero, if_neg hne, digitLoop_eq hlow hhigh _ hfuel, habs, List.map_reverse]

end Digits

/-- In the bases of `vsprintf` at most 22 of the 36 bytes of `tmp` are used. -/
theorem tmpDigits_length {base : BitVec 32} (hlow : 8 ≤ base.toNat) (hhigh : base.toNat ≤ 36)
    (num : Word) (type : BitVec 32) :
    1 ≤ (tmpDigits num base type).length ∧ (tmpDigits num base type).length ≤ 22 := by
  rw [← List.length_reverse, tmpDigits_reverse (by omega) hhigh]
  unfold canonical
  split_ifs with hzero
  · exact ⟨Nat.le_refl 1, by decide⟩
  · rw [List.length_map, List.length_reverse]
    have hlt : magnitude num type < base.toNat ^ 22 := by
      rw [← toNat_absOf]
      exact Nat.lt_of_lt_of_le (Nat.lt_trans (absOf num type).isLt (by decide))
        (Nat.pow_le_pow_left hlow 22)
    refine ⟨?_, (Nat.digits_length_le_iff (by omega) _).mpr hlt⟩
    exact List.length_pos_of_ne_nil (Nat.digits_ne_nil_iff_ne_zero.mpr hzero)

theorem base_bounds {base : BitVec 32} (hbase : base = 8 ∨ base = 10 ∨ base = 16) :
    8 ≤ base.toNat ∧ base.toNat ≤ 36 ∧ ¬ (base.toInt < 2 ∨ 36 < base.toInt) := by
  rcases hbase with rfl | rfl | rfl <;> decide

/-! ## What is asked for -/

/-- The sign that the flags ask for. -/
def wantedSign (num : Word) (type : BitVec 32) : List Byte :=
  if Has type SIGN ∧ num.toInt < 0 then [ascii '-']
  else if Has type PLUS then [ascii '+']
  else if Has type SPACE then [ascii ' ']
  else []

/-- The radix mark that `SPECIAL` asks for. -/
def wantedMark (base type : BitVec 32) : List Byte :=
  if Has type SPECIAL then
    if base = 16 then [ascii '0', if Has type SMALL then ascii 'x' else ascii 'X']
    else if base = 8 then [ascii '0'] else []
  else []

/-- The length of the number with its sign, its mark and the zeros of the precision. -/
def bodyLength (num : Word) (base : BitVec 32) (precision : Int) (type : BitVec 32) : Int :=
  (wantedSign num type).length + (wantedMark base type).length +
    max precision (canonical type base.toNat (magnitude num type)).length

/-- The field that the arguments ask for. -/
def formatted (num : Word) (base : BitVec 32) (size precision : Int) (type : BitVec 32) :
    List Byte :=
  let digits := canonical type base.toNat (magnitude num type)
  let zeros := (precision - digits.length).toNat
  let fill := (size - bodyLength num base precision type).toNat
  if Has type LEFT then
    wantedSign num type ++ wantedMark base type ++ List.replicate zeros (ascii '0') ++ digits ++
      List.replicate fill (ascii ' ')
  else if Has type ZEROPAD then
    wantedSign num type ++ wantedMark base type ++ List.replicate (fill + zeros) (ascii '0') ++
      digits
  else
    List.replicate fill (ascii ' ') ++ wantedSign num type ++ wantedMark base type ++
      List.replicate zeros (ascii '0') ++ digits

/-- The field is as long as the width asks for, or as the number is. -/
theorem formatted_length (num : Word) (base : BitVec 32) (size precision : Int)
    (type : BitVec 32) :
    ((formatted num base size precision type).length : Int) =
      max size (bodyLength num base precision type) := by
  unfold formatted bodyLength
  dsimp only
  split_ifs <;> simp only [List.length_append, List.length_replicate, Nat.cast_add] <;> omega

/-- Blanks before, fill, and blanks behind, for a difference `d` of the width and the length. -/
def wantedPads (type : BitVec 32) (d : Int) : Nat × Nat × Nat :=
  if Has type LEFT then (0, 0, d.toNat)
  else if Has type ZEROPAD then (0, d.toNat, 0)
  else (d.toNat, 0, 0)

theorem formatted_eq_layout (num : Word) (base : BitVec 32) (size precision : Int)
    (type : BitVec 32) :
    formatted num base size precision type =
      let pad := wantedPads type (size - bodyLength num base precision type)
      let digits := canonical type base.toNat (magnitude num type)
      layout pad.1 (wantedSign num type) (wantedMark base type)
        (if Has type ZEROPAD then ascii '0' else ascii ' ') pad.2.1
        (precision - digits.length).toNat digits pad.2.2 := by
  unfold formatted wantedPads layout
  dsimp only
  split_ifs
  · simp only [List.replicate_zero, List.nil_append, List.append_nil]
  · simp only [List.replicate_zero, List.nil_append, List.append_nil]
  · simp only [List.replicate_zero, List.nil_append, List.append_nil, List.replicate_add,
      List.append_assoc]
  · simp only [List.replicate_zero, List.append_nil]

theorem signChars_eq (num : Word) (type : BitVec 32) :
    signChars num type = wantedSign num type := by
  unfold signChars signOf wantedSign
  by_cases hneg : Has type SIGN ∧ num.toInt < 0
  · simp only [if_pos hneg]
    exact if_pos (by decide)
  · simp only [if_neg hneg]
    by_cases hplus : Has type PLUS
    · simp only [if_pos hplus]
      exact if_pos (by decide)
    · simp only [if_neg hplus]
      by_cases hspace : Has type SPACE
      · simp only [if_pos hspace]
        exact if_pos (by decide)
      · simp only [if_neg hspace]
        rfl

theorem size_of_sign (num : Word) (size type : BitVec 32) :
    (if signOf num type ≠ 0 then size - 1 else size) =
      size - BitVec.ofNat 32 (wantedSign num type).length := by
  rw [← signChars_eq, signChars]
  split_ifs
  · rfl
  · exact (BitVec.sub_zero size).symm

theorem special_eq (base type : BitVec 32) :
    special (digitTable type) base type = wantedMark base type := by
  unfold special wantedMark
  by_cases hspecial : Has type SPECIAL
  · rw [if_pos hspecial, if_pos hspecial]
    by_cases h8 : base = 8
    · rw [if_pos h8, h8]
      rfl
    · rw [if_neg h8, if_neg h8]
      unfold digitTable
      split_ifs <;> rfl
  · rw [if_neg hspecial, if_neg hspecial]

theorem specialSize_eq (base type : BitVec 32) :
    specialSize base type = BitVec.ofNat 32 (wantedMark base type).length := by
  unfold specialSize wantedMark
  split_ifs <;> rfl

theorem wantedSign_length (num : Word) (type : BitVec 32) : (wantedSign num type).length ≤ 1 := by
  unfold wantedSign
  split_ifs <;> decide

theorem wantedMark_length (base type : BitVec 32) : (wantedMark base type).length ≤ 2 := by
  unfold wantedMark
  split_ifs <;> exact Nat.le_of_ble_eq_true rfl

/-! ## The count of the loops -/

theorem toInt_sub_ofNat {x : BitVec 32} {n : Nat} (hx : -1 ≤ x.toInt) (hn : n ≤ 4) :
    (x - BitVec.ofNat 32 n).toInt = x.toInt - n := by
  have hnat : (BitVec.ofNat 32 n).toInt = n := by
    rw [BitVec.toInt_ofNat']
    exact Int.bmod_eq_of_le (by omega) (by omega)
  have := BitVec.toInt_lt (x := x)
  rw [BitVec.toInt_sub, hnat]
  exact Int.bmod_eq_of_le (by omega) (by omega)

theorem toInt_stopped (counter : BitVec 32) :
    (stopped counter).toInt =
      if 0 < counter.toInt then -1
      else if counter.toInt = -2 ^ 31 then 2 ^ 31 - 1 else counter.toInt - 1 := by
  have hzero : (0 : BitVec 32).toInt = 0 := rfl
  have hmin := BitVec.le_toInt counter
  unfold stopped
  rw [hzero]
  split_ifs with hpos hwrap
  · decide
  · rw [show counter = BitVec.intMin 32 from BitVec.eq_of_toInt_eq (hwrap.trans (by decide))]
    decide
  · exact toInt_sub_one (by omega)

section Count

variable {base : BitVec 32} (hlow : 8 ≤ base.toNat) (hhigh : base.toNat ≤ 36)
include hlow hhigh

theorem canonical_length (num : Word) (type : BitVec 32) :
    (canonical type base.toNat (magnitude num type)).length = (tmpDigits num base type).length := by
  rw [← tmpDigits_reverse (by omega) hhigh, List.length_reverse]

theorem toInt_ofNat_length (num : Word) (type : BitVec 32) :
    (BitVec.ofNat 32 (tmpDigits num base type).length).toInt =
      (tmpDigits num base type).length := by
  have := (tmpDigits_length hlow hhigh num type).2
  rw [BitVec.toInt_ofNat']
  exact Int.bmod_eq_of_le (by omega) (by omega)

theorem toInt_raised (num : Word) (precision type : BitVec 32) :
    (raised num base precision type).toInt =
      max precision.toInt (tmpDigits num base type).length := by
  unfold raised
  rw [toInt_ofNat_length hlow hhigh]
  split_ifs with hlt
  · rw [toInt_ofNat_length hlow hhigh, Int.max_eq_right (by omega)]
  · rw [Int.max_eq_left (by omega)]

/-- The difference of the width and the length of the number, and what wraps around. -/
theorem toInt_remaining (num : Word) {size precision : BitVec 32} (hsize : -1 ≤ size.toInt)
    (type : BitVec 32) {d : Int}
    (hdef : d = size.toInt - bodyLength num base precision.toInt type) :
    -2 ^ 31 - 3 ≤ d ∧ (remaining num base size precision type).toInt =
      if -2 ^ 31 ≤ d then d else d + 2 ^ 32 := by
  have hsign := wantedSign_length num type
  have hmark := wantedMark_length base type
  have hdigits := tmpDigits_length hlow hhigh num type
  have hraised := toInt_raised hlow hhigh num precision type
  have hmax := BitVec.toInt_lt (x := raised num base precision type)
  have htop := BitVec.toInt_lt (x := size)
  have hsum : size - BitVec.ofNat 32 (wantedSign num type).length -
      BitVec.ofNat 32 (wantedMark base type).length =
      size - BitVec.ofNat 32 ((wantedSign num type).length + (wantedMark base type).length) := by
    rw [BitVec.ofNat_add, BitVec.sub_sub]
  have hbody : bodyLength num base precision.toInt type =
      (wantedSign num type).length + (wantedMark base type).length +
        (raised num base precision type).toInt := by
    rw [bodyLength, canonical_length hlow hhigh, hraised]
  have hd : d = size.toInt - ((wantedSign num type).length + (wantedMark base type).length) -
      (raised num base precision type).toInt := by omega
  refine ⟨by omega, ?_⟩
  rw [remaining, size_of_sign, specialSize_eq, hsum, BitVec.toInt_sub,
    toInt_sub_ofNat hsize (by omega), Nat.cast_add, ← hd]
  split_ifs with hmin
  · exact Int.bmod_eq_of_le (by omega) (by omega)
  · rw [← Int.add_bmod_right]
    exact Int.bmod_eq_of_le (by omega) (by omega)

end Count

/-- How far above the smallest `int` the difference of width and length has to be: each loop over
`size` but the last takes one off it. -/
def margin (type : BitVec 32) : Int :=
  if Has type LEFT then 0 else if Has type ZEROPAD then 1 else 2

/-- The loops print the padding that is asked for exactly if `size` never wraps around; otherwise
they print more. -/
theorem pads_of_margin {type size : BitVec 32} {d : Int} (hd : -2 ^ 31 - 3 ≤ d) (htop : d < 2 ^ 31)
    (hsize : size.toInt = if -2 ^ 31 ≤ d then d else d + 2 ^ 32) :
    (-2 ^ 31 + margin type ≤ d → pads type size = wantedPads type d) ∧
      (d < -2 ^ 31 + margin type →
        0 < (pads type size).1 + (pads type size).2.1 + (pads type size).2.2 ∧
          wantedPads type d = (0, 0, 0)) := by
  have hfirst := toInt_stopped size
  have hsecond := toInt_stopped (stopped size)
  unfold pads wantedPads margin
  by_cases hleft : Has type LEFT
  · simp only [if_pos hleft, Prod.mk.injEq, true_and]
    refine ⟨fun h => ?_, fun h => ⟨?_, ?_⟩⟩ <;> split_ifs at hsize <;> omega
  · by_cases hzero : Has type ZEROPAD
    · simp only [if_neg hleft, if_pos hzero, Prod.mk.injEq, true_and, and_true]
      refine ⟨fun h => ?_, fun h => ⟨?_, ?_⟩⟩ <;> split_ifs at hsize hfirst <;> omega
    · simp only [if_neg hleft, if_neg hzero, Prod.mk.injEq, and_true]
      refine ⟨fun h => ?_, fun h => ⟨?_, ?_⟩⟩ <;> split_ifs at hsize hfirst hsecond <;> omega

theorem layout_length (left : Nat) (sign mark : List Byte) (c : Byte) (fill zeros : Nat)
    (digits : List Byte) (right : Nat) :
    (layout left sign mark c fill zeros digits right).length =
      left + fill + right + (sign.length + mark.length + zeros + digits.length) := by
  unfold layout
  simp only [List.length_append, List.length_replicate]
  omega

/-- `number` prints the field that is asked for exactly if the difference of the width and the
length is not next to the smallest `int`; the index into `tmp` stays below its size. -/
theorem number_formats_iff (num : Word) {base : BitVec 32}
    (hbase : base = 8 ∨ base = 10 ∨ base = 16) {size : BitVec 32} (hsize : -1 ≤ size.toInt)
    (precision type : BitVec 32) :
    (number num base size precision type =
        some (formatted num base size.toInt precision.toInt type) ↔
      -2 ^ 31 + margin type ≤ size.toInt - bodyLength num base precision.toInt type) ∧
      (tmpDigits num base type).length < 36 := by
  obtain ⟨hlow, hhigh, hvalid⟩ := base_bounds hbase
  have hlength := tmpDigits_length hlow hhigh num type
  refine ⟨?_, by omega⟩
  obtain ⟨hd, hremaining⟩ := toInt_remaining hlow hhigh num hsize type rfl
  have htop : size.toInt - bodyLength num base precision.toInt type < 2 ^ 31 := by
    have := BitVec.toInt_lt (x := size)
    have hbody : 0 ≤ bodyLength num base precision.toInt type := by
      unfold bodyLength
      omega
    omega
  obtain ⟨hsame, hmore⟩ := @pads_of_margin type _ _ hd htop hremaining
  have hzeros : ((raised num base precision type).toInt -
      (BitVec.ofNat 32 (tmpDigits num base type).length).toInt).toNat =
      (precision.toInt - (canonical type base.toNat (magnitude num type)).length).toNat := by
    rw [toInt_raised hlow hhigh, toInt_ofNat_length hlow hhigh, canonical_length hlow hhigh]
    omega
  rw [number_eq num hvalid, formatted_eq_layout, signChars_eq, special_eq, hzeros,
    tmpDigits_reverse (by omega) hhigh]
  dsimp only
  constructor
  · intro heq
    by_contra hlt
    obtain ⟨hpos, hzero⟩ := hmore (by omega)
    have hlengths := congrArg List.length (Option.some.inj heq)
    rw [hzero, layout_length, layout_length] at hlengths
    dsimp only at hlengths
    omega
  · intro hmargin
    rw [hsame hmargin]

/-- The number 42 in a field of five characters. -/
theorem fortyTwo_formatted : number 42 10 5 (-1) 0 = some (formatted 42 10 5 (-1) 0) := by
  refine (number_formats_iff 42 (Or.inr (Or.inl rfl)) (by decide) (-1) 0).1.mpr ?_
  have hdigits := (tmpDigits_length (show 8 ≤ (10 : BitVec 32).toNat by decide) (by decide) 42 0).2
  have hbody : bodyLength 42 10 (-1 : BitVec 32).toInt 0 ≤ 22 := by
    rw [bodyLength, canonical_length (by decide) (by decide),
      show (wantedSign 42 0).length = 0 by decide, show (wantedMark 10 0).length = 0 by decide,
      show (-1 : BitVec 32).toInt = -1 by decide]
    omega
  rw [show margin 0 = 2 by decide, show (5 : BitVec 32).toInt = 5 by decide]
  omega

/-- No width and the largest precision: `size` reaches the smallest `int` and is decremented, and
the second loop prints 2147483647 blanks. -/
theorem widest_precision_overflows :
    ∃ out, number 0 10 (-1) 0x7fffffff 0 = some out ∧ out.length = 2 ^ 32 - 2 ∧
      out ≠ formatted 0 10 (-1) 0x7fffffff 0 := by
  have hpads : pads 0 (remaining 0 10 (-1) 0x7fffffff 0) = (0, 2147483647, 0) := by decide
  have htmp : tmpDigits 0 10 0 = [ascii '0'] := by decide
  have hraised : (raised 0 10 0x7fffffff 0).toInt = 2147483647 := by decide
  have hsign : signChars 0 0 = [] := by decide
  have hmark : special (digitTable 0) 10 0 = [] := by decide
  have heq := number_eq 0 (show ¬ ((10 : BitVec 32).toInt < 2 ∨ 36 < (10 : BitVec 32).toInt) by
    decide) (-1) 0x7fffffff 0
  rw [hpads, htmp, hraised, hsign, hmark] at heq
  refine ⟨_, heq, ?_, fun h => ?_⟩
  · rw [layout_length]
    rfl
  · have hlength := congrArg List.length h
    have hwanted := formatted_length 0 10 (-1) 0x7fffffff 0
    rw [layout_length] at hlength
    rw [← hlength, bodyLength, canonical_length (by decide) (by decide), htmp] at hwanted
    cases hwanted

/-! ## Fields that show an integer -/

/-- The sign in front of an integer. -/
def signFor (type : BitVec 32) (value : Int) : List Byte :=
  if value < 0 then [ascii '-']
  else if Has type PLUS then [ascii '+']
  else if Has type SPACE then [ascii ' ']
  else []

theorem mem_signFor {type : BitVec 32} {value : Int} {c : Byte} (h : c ∈ signFor type value) :
    c = ascii '-' ∧ value < 0 ∨ c = ascii '+' ∨ c = ascii ' ' := by
  unfold signFor at h
  split_ifs at h with hneg
  · exact Or.inl ⟨List.mem_singleton.mp h, hneg⟩
  · exact Or.inr (Or.inl (List.mem_singleton.mp h))
  · exact Or.inr (Or.inr (List.mem_singleton.mp h))
  · exact absurd h List.not_mem_nil

/-- The sign, the radix mark and the digits of an integer, with blanks and zeros. -/
def Shows (base type : BitVec 32) (value : Int) (out : List Byte) : Prop :=
  ∃ (left fill zeros right : Nat) (c : Byte), (c = ascii '0' ∨ c = ascii ' ') ∧
    out = layout left (signFor type value) (wantedMark base type) c fill zeros
      (canonical type base.toNat value.natAbs) right

/-- The integer that `number` takes its argument for. -/
def numberValue (num : Word) (type : BitVec 32) : Int :=
  if Has type SIGN then num.toInt else num.toNat

theorem natAbs_numberValue (num : Word) (type : BitVec 32) :
    (numberValue num type).natAbs = magnitude num type := by
  unfold numberValue magnitude
  split_ifs
  · rfl
  · exact Int.natAbs_natCast _

theorem signFor_numberValue (num : Word) (type : BitVec 32) :
    signFor type (numberValue num type) = wantedSign num type := by
  have hneg : numberValue num type < 0 ↔ Has type SIGN ∧ num.toInt < 0 := by
    unfold numberValue
    split_ifs with hsign
    · exact ⟨fun h => ⟨hsign, h⟩, fun h => h.2⟩
    · exact ⟨fun h => absurd h (by omega), fun h => absurd h.1 hsign⟩
  unfold signFor wantedSign
  simp only [hneg]

theorem number_shows {base : BitVec 32} (hbase : base = 8 ∨ base = 10 ∨ base = 16) (num : Word)
    (size precision type : BitVec 32) :
    ∃ out, number num base size precision type = some out ∧
      Shows base type (numberValue num type) out := by
  obtain ⟨hlow, hhigh, hvalid⟩ := base_bounds hbase
  have heq := number_eq num hvalid size precision type
  rw [signChars_eq, special_eq, tmpDigits_reverse (by omega) hhigh, ← signFor_numberValue,
    ← natAbs_numberValue] at heq
  exact ⟨_, heq, _, _, _, _, _, ite_eq_or_eq (Has type ZEROPAD) (ascii '0') (ascii ' '), rfl⟩

/-! ## The characters of a field -/

theorem mem_layout {left : Nat} {sign mark : List Byte} {f : Byte} {fill zeros : Nat}
    {digits : List Byte} {right : Nat} {c : Byte}
    (h : c ∈ layout left sign mark f fill zeros digits right) :
    c = ascii ' ' ∨ c ∈ sign ∨ c ∈ mark ∨ c = f ∨ c = ascii '0' ∨ c ∈ digits := by
  unfold layout at h
  simp only [List.mem_append, List.mem_replicate] at h
  tauto

theorem mem_canonical {type : BitVec 32} {base n : Nat} {c : Byte} (h : c ∈ canonical type base n) :
    c = ascii '0' ∨ ∃ d, c = (digitTable type).getD d 0 := by
  unfold canonical at h
  split_ifs at h
  · exact Or.inl (List.mem_singleton.mp h)
  · obtain ⟨d, -, rfl⟩ := List.mem_map.mp h
    exact Or.inr ⟨d, rfl⟩

theorem mem_wantedMark {base type : BitVec 32} {c : Byte} (h : c ∈ wantedMark base type) :
    c = ascii '0' ∨ c = ascii 'x' ∨ c = ascii 'X' := by
  unfold wantedMark at h
  split_ifs at h <;> simp only [List.mem_cons, List.not_mem_nil, or_false] at h <;> tauto

/-- A table entry is a digit or a letter, or the null byte behind the table. -/
theorem digitTable_getD (type : BitVec 32) (d : Nat) {c : Byte}
    (h : ∀ k < 36, UPPER_DIGITS.getD k 0 ≠ c ∧ LOWER_DIGITS.getD k 0 ≠ c) (hzero : (0 : Byte) ≠ c) :
    (digitTable type).getD d 0 ≠ c := by
  unfold digitTable
  by_cases hd : d < 36
  · split_ifs
    · exact (h d hd).2
    · exact (h d hd).1
  · split_ifs
    · rwa [List.getD_eq_default _ _ (by simpa [LOWER_DIGITS] using hd)]
    · rwa [List.getD_eq_default _ _ (by simpa [UPPER_DIGITS] using hd)]

section Field

variable {base type : BitVec 32} {value : Int} {out : List Byte}

/-- Blanks, zeros, radix marks, signs and digits. -/
theorem Shows.mem (h : Shows base type value out) {b : Byte} (hb : b ∈ out) :
    b ∈ [ascii ' ', ascii '0', ascii 'x', ascii 'X', ascii '+'] ∨ b = ascii '-' ∧ value < 0 ∨
      ∃ d, b = (digitTable type).getD d 0 := by
  obtain ⟨left, fill, zeros, right, c, hc, rfl⟩ := h
  simp only [List.mem_cons, List.not_mem_nil, or_false]
  rcases mem_layout hb with hb | hb | hb | rfl | hb | hb
  · exact Or.inl (Or.inl hb)
  · rcases mem_signFor hb with hb | hb | hb <;> tauto
  · rcases mem_wantedMark hb with hb | hb | hb <;> tauto
  · rcases hc with hc | hc <;> tauto
  · exact Or.inl (Or.inr (Or.inl hb))
  · rcases mem_canonical hb with hb | hb <;> tauto

theorem Shows.ne_nil (h : Shows base type value out) : out ≠ [] := by
  obtain ⟨left, fill, zeros, right, c, -, rfl⟩ := h
  have hdigits : canonical type base.toNat value.natAbs ≠ [] := by
    unfold canonical
    split_ifs with hzero
    · exact List.cons_ne_nil _ _
    · rw [Ne, List.map_eq_nil_iff, List.reverse_eq_nil_iff]
      exact Nat.digits_ne_nil_iff_ne_zero.mpr hzero
  intro hnil
  unfold layout at hnil
  simp only [List.append_eq_nil_iff] at hnil
  exact hdigits hnil.1.2

/-- The only `-` is the sign. -/
theorem Shows.minus_mem_iff (h : Shows base type value out) : ascii '-' ∈ out ↔ value < 0 := by
  constructor
  · intro hmem
    rcases h.mem hmem with hb | hb | ⟨d, hd⟩
    · exact absurd hb (by decide)
    · exact hb.2
    · exact absurd hd.symm (digitTable_getD type d (by decide) (by decide))
  · intro hneg
    obtain ⟨left, fill, zeros, right, c, -, rfl⟩ := h
    simp [layout, signFor, hneg]

theorem Shows.percent_notMem (h : Shows base type value out) : ascii '%' ∉ out := by
  intro hmem
  rcases h.mem hmem with hb | hb | ⟨d, hd⟩
  · exact absurd hb (by decide)
  · exact absurd hb.1 (by decide)
  · exact absurd hd.symm (digitTable_getD type d (by decide) (by decide))

end Field

end ChronOS.Printk
