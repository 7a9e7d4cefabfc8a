/-
  Printk/IntArgs.lean --- the integer that a conversion shows.

  `vsprintf` takes the argument of every integer conversion as an `unsigned long` and does
  not look at the qualifier, so `%d` and `%ld` are the same.  An `int` is passed in a slot
  of 64 bits with whatever the upper half holds, and the field shows the slot as a whole.

  A field determines the integer it shows (`Shows.unique`): its digits are read back with
  the blanks, the sign and the radix mark passed over, and the sign is the only `-` in it.
-/
import ChronOS.Printk.Conversions

set_option autoImplicit false

namespace ChronOS.Printk

open ChronOS.Foundation ChronOS.Utils

/-! ## Reading a field back -/

/-- One character; what is not a digit is passed over. -/
def readDigit (base : Nat) (type : BitVec 32) (n : Nat) (c : Byte) : Nat :=
  if c ∈ (digitTable type).take base then n * base + (digitTable type).idxOf c else n

def readBack (base : Nat) (type : BitVec 32) (n : Nat) (out : List Byte) : Nat :=
  out.foldl (readDigit base type) n

theorem readBack_append (base : Nat) (type : BitVec 32) (n : Nat) (a b : List Byte) :
    readBack base type n (a ++ b) = readBack base type (readBack base type n a) b :=
  List.foldl_append

theorem readBack_skip {base : Nat} {type : BitVec 32} {out : List Byte}
    (h : ∀ c ∈ out, c ∉ (digitTable type).take base) (n : Nat) : readBack base type n out = n := by
  induction out generalizing n with
  | nil => rfl
  | cons c out ih =>
    change readBack base type (readDigit base type n c) out = n
    rw [readDigit, if_neg (h c List.mem_cons_self)]
    exact ih (fun c' hc' => h c' (List.mem_cons_of_mem c hc')) n

theorem idxOf_zero (type : BitVec 32) : (digitTable type).idxOf (ascii '0') = 0 := by
  unfold digitTable
  split_ifs <;> decide

/-- Zeros before the first digit change nothing. -/
theorem readBack_zeros {base : Nat} {type : BitVec 32} {out : List Byte}
    (h : ∀ c ∈ out, c = ascii '0' ∨ c ∉ (digitTable type).take base) :
    readBack base type 0 out = 0 := by
  induction out with
  | nil => rfl
  | cons c out ih =>
    have hstep : readDigit base type 0 c = 0 := by
      unfold readDigit
      split_ifs with hmem
      · rcases h c List.mem_cons_self with rfl | hnot
        · rw [idxOf_zero, Nat.zero_mul]
        · exact absurd hmem hnot
      · rfl
    change readBack base type (readDigit base type 0 c) out = 0
    rw [hstep]
    exact ih fun c' hc' => h c' (List.mem_cons_of_mem c hc')

theorem readDigit_table {base d : Nat} (hbase : base ≤ 36) (hd : d < base) (type : BitVec 32)
    (n : Nat) : readDigit base type n ((digitTable type).getD d 0) = n * base + d := by
  have htable : (digitTable type).length = 36 ∧
      ∀ k < 36, (digitTable type).idxOf ((digitTable type).getD k 0) = k := by
    unfold digitTable
    split_ifs <;> decide
  have hlength : d < (digitTable type).length := by omega
  have hmem : (digitTable type).getD d 0 ∈ (digitTable type).take base := by
    rw [List.getD_eq_getElem _ _ hlength, List.mem_take_iff_getElem]
    exact ⟨d, by omega, rfl⟩
  rw [readDigit, if_pos hmem, htable.2 d (by omega)]

theorem readBack_canonical {base : Nat} (hlow : 2 ≤ base) (hhigh : base ≤ 36) (type : BitVec 32)
    (n : Nat) : readBack base type 0 (canonical type base n) = n := by
  have hdigits : ∀ ds : List Nat, (∀ d ∈ ds, d < base) →
      readBack base type 0 (ds.reverse.map fun d => (digitTable type).getD d 0) =
        Nat.ofDigits base ds := by
    intro ds
    induction ds with
    | nil => exact fun _ => rfl
    | cons d ds ih =>
      intro hds
      rw [List.reverse_cons, List.map_append, readBack_append,
        ih fun d' hd' => hds d' (List.mem_cons_of_mem d hd'), Nat.ofDigits_cons]
      change readDigit base type _ _ = _
      rw [readDigit_table hhigh (hds d List.mem_cons_self), Nat.mul_comm, Nat.add_comm]
  unfold canonical
  split_ifs with hzero
  · rw [hzero]
    exact readBack_zeros fun c hc => Or.inl (List.mem_singleton.mp hc)
  · rw [hdigits _ fun d hd => Nat.digits_lt_base (by omega) hd, Nat.ofDigits_digits]

/-! ## The integer of a field -/

section Unique

variable {base : BitVec 32} (hbase : base = 8 ∨ base = 10 ∨ base = 16) {type : BitVec 32}
  {value : Int} {out : List Byte}
include hbase

theorem not_digit (type : BitVec 32) {c : Byte}
    (hc : c = ascii ' ' ∨ c = ascii '-' ∨ c = ascii '+' ∨ c = ascii 'x' ∨ c = ascii 'X') :
    c ∉ (digitTable type).take base.toNat := by
  unfold digitTable
  rcases hbase with rfl | rfl | rfl <;> rcases hc with rfl | rfl | rfl | rfl | rfl <;>
    split_ifs <;> decide

theorem readBack_field (h : Shows base type value out) :
    readBack base.toNat type 0 out = value.natAbs := by
  obtain ⟨left, fill, zeros, right, c, hc, rfl⟩ := h
  obtain ⟨hlow, hhigh, -⟩ := base_bounds hbase
  have hblank : ascii ' ' ∉ (digitTable type).take base.toNat := not_digit hbase type (Or.inl rfl)
  have hbefore : ∀ b ∈ List.replicate left (ascii ' ') ++ signFor type value ++
      wantedMark base type ++ List.replicate fill c ++ List.replicate zeros (ascii '0'),
      b = ascii '0' ∨ b ∉ (digitTable type).take base.toNat := by
    intro b hb
    simp only [List.mem_append] at hb
    rcases hb with (((hb | hb) | hb) | hb) | hb
    · exact Or.inr (List.eq_of_mem_replicate hb ▸ hblank)
    · rcases mem_signFor hb with ⟨rfl, -⟩ | rfl | rfl
      · exact Or.inr (not_digit hbase type (by tauto))
      · exact Or.inr (not_digit hbase type (by tauto))
      · exact Or.inr hblank
    · rcases mem_wantedMark hb with rfl | rfl | rfl
      · exact Or.inl rfl
      · exact Or.inr (not_digit hbase type (by tauto))
      · exact Or.inr (not_digit hbase type (by tauto))
    · rw [List.eq_of_mem_replicate hb]
      rcases hc with rfl | rfl
      · exact Or.inl rfl
      · exact Or.inr hblank
    · exact Or.inl (List.eq_of_mem_replicate hb)
  unfold layout
  rw [readBack_append, readBack_append, readBack_zeros hbefore, readBack_canonical (by omega) hhigh,
    readBack_skip fun b hb => List.eq_of_mem_replicate hb ▸ hblank]

/-- A field shows one integer only. -/
theorem Shows.unique {value' : Int} (h : Shows base type value out)
    (h' : Shows base type value' out) : value = value' := by
  have habs := (readBack_field hbase h).symm.trans (readBack_field hbase h')
  have hsign := h.minus_mem_iff.symm.trans h'.minus_mem_iff
  omega

end Unique

/-! ## The slot of an argument -/

/-- `d` and `i`. -/
def Letter.Signed (l : Letter) : Prop := l = .d ∨ l = .i

instance (l : Letter) : Decidable l.Signed := inferInstanceAs (Decidable (_ ∨ _))

/-- `d`, `i`, `u`, `x`, `X` and `o`. -/
def Letter.Integer (l : Letter) : Prop := l.Numeric ∧ l ≠ .p

instance (l : Letter) : Decidable l.Integer := inferInstanceAs (Decidable (_ ∧ _))

/-- The integer that a letter shows for an argument of `w` bits. -/
def Letter.value {w : Nat} (l : Letter) (x : BitVec w) : Int :=
  if l.Signed then x.toInt else x.toNat

/-- The base of a letter. -/
def Letter.base : Letter → BitVec 32
  | .o => 8
  | .x | .X | .p => 16
  | _ => 10

theorem Letter.base_cases (l : Letter) : l.base = 8 ∨ l.base = 10 ∨ l.base = 16 := by
  cases l <;> decide

/-- The flags that a letter adds. -/
def Letter.adds : Letter → BitVec 32
  | .x => SMALL
  | .d | .i => SIGN
  | _ => 0

theorem letterField_integer (m : Mem) (d : Directive) {l : Letter} (hl : l.Integer) :
    letterField m d l =
      number d.args.head l.base d.fieldWidth d.precision (d.flags ||| l.adds) := by
  have hnone : d.flags ||| 0 = d.flags := BitVec.or_zero
  cases l with
  | c => exact absurd rfl hl.1.1
  | s => exact absurd rfl hl.1.2.1
  | n => exact absurd rfl hl.1.2.2
  | p => exact absurd rfl hl.2
  | d | i | x => rfl
  | o => exact congrArg (number d.args.head 8 d.fieldWidth d.precision) hnone.symm
  | u => exact congrArg (number d.args.head 10 d.fieldWidth d.precision) hnone.symm
  | X => exact congrArg (number d.args.head 16 d.fieldWidth d.precision) hnone.symm

/-- The field of a conversion shows an integer. -/
def Conversion.Shows (conv : Conversion) (value : Int) (out : List Byte) : Prop :=
  Printk.Shows conv.letter.base (conv.flagBits ||| conv.letter.adds) value out

/-- The slot of an `int`, with what its upper half holds. -/
def slotOf (upper v : BitVec 32) : Word := upper ++ v

theorem toNat_slotOf (upper v : BitVec 32) :
    (slotOf upper v).toNat = 2 ^ 32 * upper.toNat + v.toNat := by
  rw [slotOf, BitVec.toNat_append, ← Nat.shiftLeft_add_eq_or_of_lt v.isLt, Nat.shiftLeft_eq,
    Nat.mul_comm]

/-- The slot and the `int` in it are the same number exactly if the upper half extends the lower
one, by its sign or by zeros. -/
theorem value_slotOf_iff (l : Letter) (upper v : BitVec 32) :
    l.value (slotOf upper v) = l.value v ↔ upper = if l.Signed ∧ v.msb then -1 else 0 := by
  have hslot := toNat_slotOf upper v
  have hupper := upper.isLt
  have hv := v.isLt
  have hslotInt := BitVec.toInt_eq_toNat_cond (slotOf upper v)
  have hvInt := BitVec.toInt_eq_toNat_cond v
  have hones : upper = -1 ↔ upper.toNat = 2 ^ 32 - 1 := BitVec.toNat_eq
  have hzero : upper = 0 ↔ upper.toNat = 0 := BitVec.toNat_eq
  have hmsb : v.msb = true ↔ 2 ^ 31 ≤ v.toNat := by
    rw [BitVec.msb_eq_decide, decide_eq_true_iff]
  unfold Letter.value
  by_cases hsigned : l.Signed
  · rw [if_pos hsigned, if_pos hsigned]
    by_cases hneg : v.msb = true
    · have hlarge := hmsb.mp hneg
      rw [if_pos (show l.Signed ∧ v.msb = true from ⟨hsigned, hneg⟩), hones]
      split_ifs at hslotInt hvInt <;> omega
    · have hsmall := mt hmsb.mpr hneg
      rw [if_neg (show ¬ (l.Signed ∧ v.msb = true) from fun h => hneg h.2), hzero]
      split_ifs at hslotInt hvInt <;> omega
  · rw [if_neg hsigned, if_neg hsigned,
      if_neg (show ¬ (l.Signed ∧ v.msb = true) from fun h => hsigned h.1), hzero]
    omega

/-! ## What a conversion shows -/

theorem or_and_sign {a b : BitVec 32} (ha : a &&& SIGN = 0) (hb : b &&& SIGN = 0) :
    (a ||| b) &&& SIGN = 0 := by
  rw [BitVec.and_comm, BitVec.and_or_distrib_left, BitVec.and_comm, ha, BitVec.and_comm, hb]
  rfl

/-- No flag of the format is `SIGN`. -/
theorem flagBits_and_sign (conv : Conversion) : conv.flagBits &&& SIGN = 0 := by
  have hbit : ∀ flag : Flag, flag.bit &&& SIGN = 0 := by
    intro flag
    cases flag <;> decide
  have hflags : conv.flags.foldl (fun f flag => f ||| flag.bit) 0 &&& SIGN = 0 :=
    List.foldlRecOn (motive := fun f => f &&& SIGN = 0) conv.flags _ (by decide)
      fun _ hf flag _ => or_and_sign hf (hbit flag)
  exact List.foldlRecOn (motive := fun f => f &&& SIGN = 0) _ _ hflags
    fun _ hf _ _ => or_and_sign hf (by decide)

/-- The letter decides whether the argument has a sign. -/
theorem has_sign_iff (conv : Conversion) :
    Has (conv.flagBits ||| conv.letter.adds) SIGN ↔ conv.letter.Signed := by
  have hadds : ∀ l : Letter, l.adds &&& SIGN ≠ 0 ↔ l.Signed := by
    intro l
    cases l <;> decide
  rw [Has, BitVec.and_comm, BitVec.and_or_distrib_left, BitVec.and_comm, flagBits_and_sign,
    show (0 : BitVec 32) ||| (SIGN &&& conv.letter.adds) = SIGN &&& conv.letter.adds from
      BitVec.zero_or, BitVec.and_comm]
  exact hadds conv.letter

/-- The field shows the whole slot, whatever the qualifier. -/
theorem output_shows {m : Mem} (hterm : Terminated m) {conv : Conversion}
    (hl : conv.letter.Integer) (args : Stream' Word) :
    conv.Shows (conv.letter.value args.head) (conv.output m args) := by
  obtain ⟨out, hout, hshows⟩ := number_shows conv.letter.base_cases args.head conv.widthValue
    conv.precisionValue (conv.flagBits ||| conv.letter.adds)
  have hfield := letterField_integer m (conv.directive [] [] args) hl
  have heq : conv.output m args = out :=
    Option.some.inj ((letterField_output hterm conv [] [] args).symm.trans (hfield.trans hout))
  have hvalue : numberValue args.head (conv.flagBits ||| conv.letter.adds) =
      conv.letter.value args.head := by
    unfold numberValue Letter.value
    simp only [has_sign_iff]
  rw [heq, ← hvalue]
  exact hshows

/-- An integer conversion shows the `int` in its slot exactly if the upper half of the slot extends
it; with and without a qualifier it shows the slot as a `long`. -/
theorem int_argument_shown_iff {m : Mem} (hterm : Terminated m) (conv : Conversion)
    (hl : conv.letter.Integer) (upper v : BitVec 32) (args : Stream' Word) (rest : List Byte) :
    let slots := Stream'.cons (slotOf upper v) args
    let out := conv.output m slots
    (vsprintf m (conv.text ++ rest) slots).map Result.buf =
        (printed m rest args).map (fun more => out ++ more ++ [0]) ∧
      (conv.Shows (conv.letter.value v) out ↔
        upper = if conv.letter.Signed ∧ v.msb then -1 else 0) ∧
      conv.Shows (conv.letter.value (slotOf upper v)) out := by
  have hshows := output_shows hterm hl (Stream'.cons (slotOf upper v) args)
  refine ⟨?_, ?_, hshows⟩
  · rw [vsprintf_buf, printed_conversion hterm, Option.map_map]
    rfl
  · rw [← value_slotOf_iff]
    constructor
    · intro h
      exact Shows.unique conv.letter.base_cases hshows h
    · intro h
      exact h ▸ hshows

/-- `%d` shows −1 if its slot is all ones. -/
theorem minusOne_shown :
    plainDecimal.Shows (-1) (plainDecimal.output (fun _ => 0) (Stream'.cons (slotOf (-1) (-1))
      fortyTwoArg)) := by
  have hvalue : plainDecimal.letter.value (-1 : BitVec 32) = -1 := by decide
  rw [← hvalue]
  exact (int_argument_shown_iff (m := fun _ => 0) ⟨0, rfl⟩ plainDecimal (by decide) (-1) (-1)
    fortyTwoArg []).2.1.mpr (by decide)

/-- With an upper half of zeros `%d` prints −1 as 4294967295. -/
theorem minusOne_printed_unsigned :
    (vsprintf (fun _ => 0) plainDecimal.text (Stream'.cons (slotOf 0 (-1)) fortyTwoArg)).map
        Result.buf =
      some [ascii '4', ascii '2', ascii '9', ascii '4', ascii '9', ascii '6', ascii '7',
        ascii '2', ascii '9', ascii '5', 0] ∧
      ¬ plainDecimal.Shows (-1) [ascii '4', ascii '2', ascii '9', ascii '4', ascii '9', ascii '6',
        ascii '7', ascii '2', ascii '9', ascii '5'] := by
  have hbase : ¬ ((10 : BitVec 32).toInt < 2 ∨ 36 < (10 : BitVec 32).toInt) := by decide
  have hnumber := number_eq (slotOf 0 (-1)) hbase (-1) (-1) SIGN
  have hfield : plainDecimal.output (fun _ => 0) (Stream'.cons (slotOf 0 (-1)) fortyTwoArg) =
      [ascii '4', ascii '2', ascii '9', ascii '4', ascii '9', ascii '6', ascii '7', ascii '2',
        ascii '9', ascii '5'] :=
    (congrArg (Option.getD · []) hnumber).trans (by decide)
  have hprinted := printed_conversion (m := fun _ => 0) ⟨0, rfl⟩ plainDecimal []
    (Stream'.cons (slotOf 0 (-1)) fortyTwoArg)
  rw [List.append_nil, hfield, printed_nil] at hprinted
  refine ⟨?_, fun h => ?_⟩
  · rw [vsprintf_buf, hprinted]
    rfl
  · exact absurd (h.minus_mem_iff.mpr (by decide)) (by decide)

end ChronOS.Printk
