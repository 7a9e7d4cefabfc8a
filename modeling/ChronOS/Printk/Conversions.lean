/-
  Printk/Conversions.lean --- the texts of conversions and what `vsprintf` makes of them.

  A conversion is given by its flags, the digits of its width and of its precision, its
  qualifier and its letter.  Leading zeros of the width are read as flags.  Reading the
  text of a conversion gives back its parts, whatever follows it (`readDirective_text`).

  With a `*` for the width or the precision the argument is taken, but the `*` itself is
  converted: `%*` is printed, and the rest of the conversion is ordinary text.
-/
import ChronOS.Printk.Vsprintf

set_option autoImplicit false

namespace ChronOS.Printk

open ChronOS.Foundation ChronOS.Utils

/-! ## Texts -/

inductive Flag
  | minus | plus | space | sharp | zero
  deriving DecidableEq, Repr

def Flag.char : Flag → Byte
  | minus => ascii '-'
  | plus => ascii '+'
  | space => ascii ' '
  | sharp => ascii '#'
  | zero => ascii '0'

def Flag.bit : Flag → BitVec 32
  | minus => LEFT
  | plus => PLUS
  | space => SPACE
  | sharp => SPECIAL
  | zero => ZEROPAD

theorem flagBit_char (f : Flag) : flagBit f.char = some f.bit := by
  cases f <;> decide

inductive Qualifier
  | h | l | L
  deriving DecidableEq, Repr

def Qualifier.char : Qualifier → Byte
  | h => ascii 'h'
  | l => ascii 'l'
  | L => ascii 'L'

def Letter.char : Letter → Byte
  | c => ascii 'c'
  | s => ascii 's'
  | o => ascii 'o'
  | p => ascii 'p'
  | x => ascii 'x'
  | X => ascii 'X'
  | d => ascii 'd'
  | i => ascii 'i'
  | u => ascii 'u'
  | n => ascii 'n'

theorem letterOf_char (l : Letter) : letterOf l.char = some l := by
  cases l <;> decide

def digitChar (d : Fin 10) : Byte := BitVec.ofNat 8 (0x30 + d)

/-- A conversion; without digits there is no width, and the precision `some []` is a dot alone. -/
structure Conversion where
  flags : List Flag
  width : List (Fin 10)
  precision : Option (List (Fin 10))
  qualifier : Option Qualifier
  letter : Letter
  deriving DecidableEq, Repr

namespace Conversion

/-- The qualifier and the letter. -/
def modifier (conv : Conversion) : List Byte :=
  conv.qualifier.toList.map Qualifier.char ++ [conv.letter.char]

/-- What follows the width. -/
def tail (conv : Conversion) : List Byte :=
  (conv.precision.elim [] fun ds => ascii '.' :: ds.map digitChar) ++ conv.modifier

/-- The conversion as it is written. -/
def text (conv : Conversion) : List Byte :=
  ascii '%' :: (conv.flags.map Flag.char ++ (conv.width.map digitChar ++ conv.tail))

/-- The text with a `*` for the width. -/
def starWidth (conv : Conversion) : List Byte :=
  ascii '%' :: (conv.flags.map Flag.char ++ ascii '*' :: conv.tail)

/-- The text with a `*` for the precision. -/
def starPrecision (conv : Conversion) : List Byte :=
  ascii '%' :: (conv.flags.map Flag.char ++
    (conv.width.map digitChar ++ ascii '.' :: ascii '*' :: conv.modifier))

end Conversion

/-! ## Values -/

/-- The value that `skip_atoi` reads behind `i`, modulo `2 ^ 32`. -/
def atoiFrom (i : BitVec 32) (ds : List (Fin 10)) : BitVec 32 :=
  ds.foldl (fun i (d : Fin 10) => i * 10 + BitVec.ofNat 32 d) i

def atoi (ds : List (Fin 10)) : BitVec 32 := atoiFrom 0 ds

namespace Conversion

/-- `flags`: leading zeros of the width count. -/
def flagBits (conv : Conversion) : BitVec 32 :=
  (conv.width.takeWhile (· = 0)).foldl (fun f _ => f ||| ZEROPAD)
    (conv.flags.foldl (fun f flag => f ||| flag.bit) 0)

/-- `field_width`. -/
def widthValue (conv : Conversion) : BitVec 32 :=
  if conv.width.dropWhile (· = 0) = [] then -1 else atoi (conv.width.dropWhile (· = 0))

/-- `precision`. -/
def precisionValue (conv : Conversion) : BitVec 32 :=
  match conv.precision with
  | none => -1
  | some [] => 0
  | some (d :: ds) => if (atoi (d :: ds)).toInt < 0 then 0 else atoi (d :: ds)

/-- The directive when its letter is reached, with `rest` behind it. -/
def directive (conv : Conversion) (passed rest : List Byte) (args : Stream' Word) : Directive :=
  ⟨conv.flagBits, conv.widthValue, conv.precisionValue, conv.qualifier.map Qualifier.char,
    ⟨passed, conv.letter.char :: rest⟩, args⟩

end Conversion

/-! ## Reading a text -/

/-- A byte that ends the flags and the digits and is not a `*`. -/
def Stops (b : Byte) : Prop := flagBit b = none ∧ ¬ IsDigit b ∧ b ≠ ascii '*'

instance (b : Byte) : Decidable (Stops b) := inferInstanceAs (Decidable (_ ∧ _ ∧ _))

theorem isDigit_digitChar (d : Fin 10) : IsDigit (digitChar d) := by
  revert d
  decide

theorem flagBit_digitChar {d : Fin 10} (h : d ≠ 0) : flagBit (digitChar d) = none := by
  revert d
  decide

theorem digitChar_value (i : BitVec 32) (d : Fin 10) :
    i * 10 + (digitChar d).signExtend 32 - (ascii '0').signExtend 32 =
      i * 10 + BitVec.ofNat 32 d := by
  have hvalue : ∀ d : Fin 10, (digitChar d).signExtend 32 - (ascii '0').signExtend 32 =
      BitVec.ofNat 32 d := by decide
  rw [add_sub_assoc, hvalue]

theorem skipAtoi_digits {b : Byte} (hb : ¬ IsDigit b) (rest : List Byte) :
    ∀ (ds : List (Fin 10)) (passed : List Byte) (i : BitVec 32),
      skipAtoi passed i (ds.map digitChar ++ b :: rest) =
        (atoiFrom i ds, ⟨(ds.map digitChar).reverse ++ passed, b :: rest⟩) := by
  intro ds
  induction ds with
  | nil =>
    intro passed i
    exact if_neg hb
  | cons d ds ih =>
    intro passed i
    rw [List.map_cons, List.cons_append, skipAtoi, if_pos (isDigit_digitChar d), digitChar_value,
      ih, List.reverse_cons, List.append_assoc]
    rfl

theorem flagLoop_flags (rest : List Byte) :
    ∀ (fs : List Flag) (passed : List Byte) (flags : BitVec 32),
      flagLoop passed flags (fs.map Flag.char ++ rest) =
        flagLoop ((fs.map Flag.char).reverse ++ passed)
          (fs.foldl (fun f flag => f ||| flag.bit) flags) rest := by
  intro fs
  induction fs with
  | nil => exact fun _ _ => rfl
  | cons f fs ih =>
    intro passed flags
    rw [List.map_cons, List.cons_append, flagLoop, flagBit_char]
    dsimp only
    rw [ih, List.foldl_cons, List.reverse_cons, List.append_assoc]
    rfl

/-- The loop takes the leading zeros of the digits and stops at the first other one, or behind
them. -/
theorem flagLoop_digits {b : Byte} (hb : flagBit b = none) (rest : List Byte) :
    ∀ (ds : List (Fin 10)) (passed : List Byte) (flags : BitVec 32),
      ∃ passed', flagLoop passed flags (ds.map digitChar ++ b :: rest) =
        ((ds.takeWhile (· = 0)).foldl (fun f _ => f ||| ZEROPAD) flags,
          ⟨passed', (ds.dropWhile (· = 0)).map digitChar ++ b :: rest⟩) := by
  intro ds
  induction ds with
  | nil =>
    intro passed flags
    refine ⟨passed, ?_⟩
    rw [List.map_nil, List.nil_append, flagLoop, hb]
    rfl
  | cons d ds ih =>
    intro passed flags
    by_cases hd : d = 0
    · obtain ⟨passed', hloop⟩ := ih (digitChar d :: passed) (flags ||| ZEROPAD)
      refine ⟨passed', ?_⟩
      have hbit : flagBit (digitChar d) = some ZEROPAD := by rw [hd]; decide
      rw [List.map_cons, List.cons_append, flagLoop, hbit]
      dsimp only
      rw [hloop, List.takeWhile_cons_of_pos (by simpa using hd),
        List.dropWhile_cons_of_pos (by simpa using hd), List.foldl_cons]
    · refine ⟨passed, ?_⟩
      rw [List.map_cons, List.cons_append, flagLoop, flagBit_digitChar hd,
        List.takeWhile_cons_of_neg (by simpa using hd),
        List.dropWhile_cons_of_neg (by simpa using hd)]
      rfl

/-- Digits of the width that do not begin with a zero. -/
theorem readWidth_digits {d : Directive} {ds : List (Fin 10)} {b : Byte} {rest : List Byte}
    (hrest : d.cursor.rest = ds.map digitChar ++ b :: rest) (hb : Stops b) :
    ∃ passed, readWidth d =
      { d with fieldWidth := if ds = [] then d.fieldWidth else atoi ds
               cursor := ⟨passed, b :: rest⟩ } := by
  unfold readWidth Cursor.peek
  rw [hrest]
  cases ds with
  | nil =>
    rw [List.map_nil, List.nil_append, List.headD_cons, if_neg hb.2.1, if_neg hb.2.2]
    rw [List.map_nil, List.nil_append] at hrest
    exact ⟨d.cursor.passed, by rw [if_pos rfl, ← hrest]⟩
  | cons e ds =>
    rw [List.map_cons, List.cons_append, List.headD_cons, if_pos (isDigit_digitChar e),
      if_neg (List.cons_ne_nil e ds)]
    refine ⟨((e :: ds).map digitChar).reverse ++ d.cursor.passed, ?_⟩
    have hskip := skipAtoi_digits hb.2.1 rest (e :: ds) d.cursor.passed 0
    rw [List.map_cons, List.cons_append] at hskip
    rw [hskip]
    rfl

/-- The byte behind the digits of the precision. -/
theorem modifier_stops (conv : Conversion) (rest : List Byte) :
    ∃ b r, conv.modifier ++ rest = b :: r ∧ Stops b ∧ b ≠ ascii '.' := by
  have hletter : ∀ l : Letter, Stops l.char ∧ l.char ≠ ascii '.' := by
    intro l
    cases l <;> decide
  unfold Conversion.modifier
  cases hq : conv.qualifier with
  | none => exact ⟨conv.letter.char, rest, rfl, hletter conv.letter⟩
  | some q =>
    refine ⟨q.char, conv.letter.char :: rest, rfl, ?_⟩
    cases q <;> decide

/-- The byte behind the width. -/
theorem tail_stops (conv : Conversion) (rest : List Byte) :
    ∃ b r, conv.tail ++ rest = b :: r ∧ Stops b := by
  unfold Conversion.tail
  cases hp : conv.precision with
  | none =>
    obtain ⟨b, r, heq, hb, -⟩ := modifier_stops conv rest
    exact ⟨b, r, heq, hb⟩
  | some ds => exact ⟨ascii '.', _, rfl, by decide⟩

theorem readPrecision_text (conv : Conversion) {d : Directive} {rest : List Byte}
    (hrest : d.cursor.rest = conv.tail ++ rest) (hprecision : d.precision = -1) :
    ∃ passed, readPrecision d =
      some { d with precision := conv.precisionValue
                    cursor := ⟨passed, conv.modifier ++ rest⟩ } := by
  obtain ⟨b, r, heq, hb, hdot⟩ := modifier_stops conv rest
  obtain ⟨flags, width, precision, qualifier, ⟨passed, text⟩, args⟩ := d
  dsimp only at hrest hprecision
  subst hrest hprecision
  unfold readPrecision Conversion.tail Conversion.precisionValue Cursor.peek
  cases hp : conv.precision with
  | none =>
    refine ⟨passed, ?_⟩
    simp only [Option.elim_none, List.nil_append, heq, List.headD_cons, if_neg hdot]
  | some ds =>
    simp only [Option.elim_some, List.cons_append, List.headD_cons, if_true, Cursor.next,
      Option.bind_eq_bind, Option.bind_some, List.append_assoc, heq]
    cases ds with
    | nil =>
      refine ⟨ascii '.' :: passed, ?_⟩
      have hvalue : ∀ d' : Directive, d'.cursor.rest = b :: r → readPrecisionValue d' = d' := by
        intro d' hd'
        unfold readPrecisionValue Cursor.peek
        rw [hd', List.headD_cons, if_neg hb.2.1, if_neg hb.2.2]
      rw [hvalue _ rfl]
      rfl
    | cons e ds =>
      refine ⟨((e :: ds).map digitChar).reverse ++ ascii '.' :: passed, ?_⟩
      have hskip := skipAtoi_digits hb.2.1 r (e :: ds) (ascii '.' :: passed) 0
      unfold readPrecisionValue Cursor.peek
      dsimp only
      rw [List.map_cons, List.cons_append, List.headD_cons, if_pos (isDigit_digitChar e)]
      rw [List.map_cons, List.cons_append] at hskip
      rw [hskip]
      change pure (if (atoi (e :: ds)).toInt < 0 then _ else _) = _
      split_ifs <;> rfl

theorem readQualifier_text (conv : Conversion) {d : Directive} {rest : List Byte}
    (hrest : d.cursor.rest = conv.modifier ++ rest) (hqualifier : d.qualifier = none) :
    ∃ passed, readQualifier d =
      some { d with qualifier := conv.qualifier.map Qualifier.char
                    cursor := ⟨passed, conv.letter.char :: rest⟩ } := by
  obtain ⟨flags, width, precision, qualifier, ⟨passed, text⟩, args⟩ := d
  dsimp only at hrest hqualifier
  subst hrest hqualifier
  unfold readQualifier Conversion.modifier Cursor.peek
  cases hq : conv.qualifier with
  | none =>
    have hletter : ∀ l : Letter,
        ¬ (l.char = ascii 'h' ∨ l.char = ascii 'l' ∨ l.char = ascii 'L') := by
      intro l
      cases l <;> decide
    exact ⟨passed, if_neg (hletter conv.letter)⟩
  | some q =>
    have hchar : q.char = ascii 'h' ∨ q.char = ascii 'l' ∨ q.char = ascii 'L' := by
      cases q <;> decide
    exact ⟨q.char :: passed, if_pos hchar⟩

/-- The flags and the width, up to a byte that is part of neither. -/
theorem readWidth_text (conv : Conversion) {b : Byte} (hb : Stops b) (r : List Byte)
    (args : Stream' Word) :
    ∃ passed,
      (let loop := flagLoop [ascii '%'] 0
        (conv.flags.map Flag.char ++ (conv.width.map digitChar ++ b :: r))
      readWidth ⟨loop.1, -1, -1, none, loop.2, args⟩) =
        ⟨conv.flagBits, conv.widthValue, -1, none, ⟨passed, b :: r⟩, args⟩ := by
  obtain ⟨passed₁, hdigits⟩ := flagLoop_digits hb.1 r conv.width
    ((conv.flags.map Flag.char).reverse ++ [ascii '%'])
    (conv.flags.foldl (fun f flag => f ||| flag.bit) 0)
  obtain ⟨passed₂, hwidth⟩ := readWidth_digits (d := ⟨conv.flagBits, -1, -1, none,
    ⟨passed₁, (conv.width.dropWhile (· = 0)).map digitChar ++ b :: r⟩, args⟩) rfl hb
  refine ⟨passed₂, ?_⟩
  rw [flagLoop_flags, hdigits]
  exact hwidth

/-- Reading the text of a conversion gives its parts, whatever follows it. -/
theorem readDirective_text (conv : Conversion) (rest : List Byte) (args : Stream' Word) :
    ∃ passed, readDirective ⟨[], conv.text ++ rest⟩ args =
      some (conv.directive passed rest args) := by
  obtain ⟨b, r, heq, hb⟩ := tail_stops conv rest
  obtain ⟨passed₁, hwidth⟩ := readWidth_text conv hb r args
  obtain ⟨passed₂, hprecision⟩ := readPrecision_text conv
    (d := ⟨conv.flagBits, conv.widthValue, -1, none, ⟨passed₁, b :: r⟩, args⟩) heq.symm rfl
  obtain ⟨passed₃, hqualifier⟩ := readQualifier_text conv (d := ⟨conv.flagBits, conv.widthValue,
    conv.precisionValue, none, ⟨passed₂, conv.modifier ++ rest⟩, args⟩) rfl rfl
  refine ⟨passed₃, ?_⟩
  unfold readDirective Conversion.text
  simp only [Cursor.next, List.cons_append, List.append_assoc, heq, Option.bind_eq_bind,
    Option.bind_some]
  dsimp only at hwidth
  rw [hwidth, hprecision]
  exact hqualifier

/-! ## What a conversion prints -/

/-- The fields do not depend on the cursor. -/
theorem letterField_cursor (m : Mem) (d : Directive) (c : Cursor) (letter : Letter) :
    letterField m { d with cursor := c } letter = letterField m d letter := by
  cases letter <;> rfl

/-- The characters of the field. -/
def Conversion.output (m : Mem) (conv : Conversion) (args : Stream' Word) : List Byte :=
  (letterField m (conv.directive [] [] args) conv.letter).getD []

theorem cursor_next_cons (passed rest : List Byte) (b : Byte) :
    Cursor.next ⟨passed, b :: rest⟩ = some ⟨b :: passed, rest⟩ := rfl

section Printed

variable {m : Mem} (hterm : Terminated m)
include hterm

theorem letterField_output (conv : Conversion) (passed rest : List Byte) (args : Stream' Word) :
    letterField m (conv.directive passed rest args) conv.letter = some (conv.output m args) := by
  obtain ⟨out, hout⟩ := letterField_ends hterm (conv.directive [] [] args) conv.letter
  have hsame := letterField_cursor m (conv.directive [] [] args)
    ⟨passed, conv.letter.char :: rest⟩ conv.letter
  rw [Conversion.output, hout]
  exact hsame.trans hout

/-- A conversion prints its field, takes one argument, and leaves the rest of the format. -/
theorem printed_conversion (conv : Conversion) (rest : List Byte) (args : Stream' Word) :
    printed m (conv.text ++ rest) args =
      (printed m rest args.tail).map (conv.output m args ++ ·) := by
  obtain ⟨passed, hread⟩ := readDirective_text conv rest args
  have hconvert : convert m (conv.directive passed rest args) =
      some ⟨conv.output m args, ⟨passed, conv.letter.char :: rest⟩, args.tail,
        if conv.letter = .n then some args.head else none⟩ := by
    have hpeek : (conv.directive passed rest args).cursor.peek = conv.letter.char := rfl
    rw [convert, hpeek, letterOf_char]
    dsimp only
    rw [letterField_output hterm]
    rfl
  exact printed_directive hterm rfl
    (directive_eq hread hconvert (cursor_next_cons passed rest conv.letter.char))

/-- Where the conversion letter would be a `*`, it is printed behind a `%`. -/
theorem printed_star {fmt rest passed : List Byte} {args args' : Stream' Word}
    {flags width precision : BitVec 32} (hpercent : fmt.headD 0 = ascii '%')
    (hread : readDirective ⟨[], fmt⟩ args =
      some ⟨flags, width, precision, none, ⟨passed, ascii '*' :: rest⟩, args'⟩) :
    printed m fmt args = (printed m rest args').map ([ascii '%', ascii '*'] ++ ·) :=
  printed_directive hterm hpercent
    (directive_eq hread rfl (cursor_next_cons passed rest (ascii '*')))

end Printed

/-- Text without a `%` is printed as it is. -/
theorem printed_text {m : Mem} {rest : List Byte} {args : Stream' Word} :
    ∀ {text : List Byte}, (∀ b ∈ text, b ≠ 0 ∧ b ≠ ascii '%') →
      printed m (text ++ rest) args = (printed m rest args).map (text ++ ·) := by
  intro text
  induction text with
  | nil =>
    intro _
    exact Option.map_id'.symm
  | cons b text ih =>
    intro htext
    obtain ⟨hb, hplain⟩ := htext b List.mem_cons_self
    rw [List.cons_append, printed_cons hb hplain,
      ih fun b' hb' => htext b' (List.mem_cons_of_mem b hb'), Option.map_map]
    rfl

/-! ## Stars -/

theorem plain_modifier (conv : Conversion) : ∀ b ∈ conv.modifier, b ≠ 0 ∧ b ≠ ascii '%' := by
  have hqualifier : ∀ q : Qualifier, q.char ≠ 0 ∧ q.char ≠ ascii '%' := by
    intro q
    cases q <;> decide
  have hletter : ∀ l : Letter, l.char ≠ 0 ∧ l.char ≠ ascii '%' := by
    intro l
    cases l <;> decide
  intro b hb
  rcases List.mem_append.mp hb with hb | hb
  · obtain ⟨q, -, rfl⟩ := List.mem_map.mp hb
    exact hqualifier q
  · rw [List.mem_singleton.mp hb]
    exact hletter conv.letter

theorem plain_tail (conv : Conversion) : ∀ b ∈ conv.tail, b ≠ 0 ∧ b ≠ ascii '%' := by
  have hdigit : ∀ d : Fin 10, digitChar d ≠ 0 ∧ digitChar d ≠ ascii '%' := by decide
  intro b hb
  rcases List.mem_append.mp hb with hb | hb
  · cases hp : conv.precision with
    | none =>
      rw [hp] at hb
      exact absurd hb List.not_mem_nil
    | some ds =>
      rw [hp] at hb
      rcases List.mem_cons.mp hb with rfl | hb
      · decide
      · obtain ⟨d, -, rfl⟩ := List.mem_map.mp hb
        exact hdigit d
  · exact plain_modifier conv b hb

/-- On a `*` neither a precision nor a qualifier is read. -/
theorem readPrecision_star {d : Directive} (hpeek : d.cursor.peek = ascii '*') :
    readPrecision d = some d := by
  rw [readPrecision, hpeek]
  exact if_neg (by decide)

theorem readQualifier_star {d : Directive} (hpeek : d.cursor.peek = ascii '*') :
    readQualifier d = some d := by
  rw [readQualifier, hpeek]
  exact if_neg (by decide)

/-- The argument is taken, but the cursor stays. -/
theorem readWidth_star (flags : BitVec 32) (passed rest : List Byte) (args : Stream' Word) :
    ∃ flags' width, readWidth ⟨flags, -1, -1, none, ⟨passed, ascii '*' :: rest⟩, args⟩ =
      ⟨flags', width, -1, none, ⟨passed, ascii '*' :: rest⟩, args.tail⟩ := by
  unfold readWidth
  by_cases hneg : (intArg args).toInt < 0
  · exact ⟨flags ||| LEFT, -intArg args, if_pos hneg⟩
  · exact ⟨flags, intArg args, if_neg hneg⟩

theorem readDirective_starWidth (conv : Conversion) (rest : List Byte) (args : Stream' Word) :
    ∃ flags width passed, readDirective ⟨[], conv.starWidth ++ rest⟩ args =
      some ⟨flags, width, -1, none, ⟨passed, ascii '*' :: (conv.tail ++ rest)⟩, args.tail⟩ := by
  let passed := (conv.flags.map Flag.char).reverse ++ [ascii '%']
  let flags := conv.flags.foldl (fun f flag => f ||| flag.bit) 0
  obtain ⟨flags', width, hwidth⟩ := readWidth_star flags passed (conv.tail ++ rest) args
  have hloop : flagLoop [ascii '%'] 0
      (conv.flags.map Flag.char ++ ascii '*' :: (conv.tail ++ rest)) =
        (flags, ⟨passed, ascii '*' :: (conv.tail ++ rest)⟩) := flagLoop_flags _ _ _ _
  refine ⟨flags', width, passed, ?_⟩
  unfold readDirective Conversion.starWidth
  simp only [Cursor.next, List.cons_append, List.append_assoc, Option.bind_eq_bind,
    Option.bind_some]
  rw [hloop, hwidth, readPrecision_star rfl]
  exact readQualifier_star rfl

theorem readDirective_starPrecision (conv : Conversion) (rest : List Byte) (args : Stream' Word) :
    ∃ precision passed, readDirective ⟨[], conv.starPrecision ++ rest⟩ args =
      some ⟨conv.flagBits, conv.widthValue, precision, none,
        ⟨passed, ascii '*' :: (conv.modifier ++ rest)⟩, args.tail⟩ := by
  obtain ⟨passed, hwidth⟩ := readWidth_text conv (b := ascii '.') (by decide)
    (ascii '*' :: (conv.modifier ++ rest)) args
  have hprecision : ∃ precision, readPrecision ⟨conv.flagBits, conv.widthValue, -1, none,
      ⟨passed, ascii '.' :: ascii '*' :: (conv.modifier ++ rest)⟩, args⟩ =
      some ⟨conv.flagBits, conv.widthValue, precision, none,
        ⟨ascii '.' :: passed, ascii '*' :: (conv.modifier ++ rest)⟩, args.tail⟩ := by
    by_cases hneg : (intArg args).toInt < 0
    · exact ⟨0, congrArg some (if_pos hneg)⟩
    · exact ⟨intArg args, congrArg some (if_neg hneg)⟩
  obtain ⟨precision, hprecision⟩ := hprecision
  refine ⟨precision, ascii '.' :: passed, ?_⟩
  unfold readDirective Conversion.starPrecision
  simp only [Cursor.next, List.cons_append, List.append_assoc, Option.bind_eq_bind,
    Option.bind_some]
  dsimp only at hwidth
  rw [hwidth, hprecision]
  exact readQualifier_star rfl

/-- A `*` for the width is printed, with everything behind it, and takes an argument. -/
theorem printed_starWidth {m : Mem} (hterm : Terminated m) (conv : Conversion) (rest : List Byte)
    (args : Stream' Word) :
    printed m (conv.starWidth ++ rest) args =
      (printed m rest args.tail).map (ascii '%' :: ascii '*' :: conv.tail ++ ·) := by
  obtain ⟨flags, width, passed, hread⟩ := readDirective_starWidth conv rest args
  rw [printed_star hterm rfl hread, printed_text (plain_tail conv), Option.map_map]
  rfl

/-- So is a `*` for the precision, without the dot. -/
theorem printed_starPrecision {m : Mem} (hterm : Terminated m) (conv : Conversion)
    (rest : List Byte) (args : Stream' Word) :
    printed m (conv.starPrecision ++ rest) args =
      (printed m rest args.tail).map (ascii '%' :: ascii '*' :: conv.modifier ++ ·) := by
  obtain ⟨precision, passed, hread⟩ := readDirective_starPrecision conv rest args
  rw [printed_star hterm rfl hread, printed_text (plain_modifier conv), Option.map_map]
  rfl

/-! ## Stars and digits -/

/-- The decimal digits of a number. -/
def decimal (n : Nat) : List (Fin 10) :=
  if n = 0 then [0] else (Nat.digits 10 n).reverse.map (Fin.ofNat 10)

/-- The conversion with the digits of the width, and the `-` flag if it is negative. -/
def Conversion.withWidth (conv : Conversion) (w : Int) : Conversion :=
  { conv with
    flags := if w < 0 then conv.flags ++ [.minus] else conv.flags
    width := decimal w.natAbs }

/-- The conversion with the digits of the precision. -/
def Conversion.withPrecision (conv : Conversion) (q : Nat) : Conversion :=
  { conv with precision := some (decimal q) }

/-- The field of a number does not begin with a `%`. -/
theorem output_ne_percent {m : Mem} (hterm : Terminated m) {conv : Conversion}
    (hl : conv.letter.Numeric) (args : Stream' Word) (more text : List Byte) :
    conv.output m args ++ more ≠ ascii '%' :: text := by
  obtain ⟨base, size, type, hbase, hfield⟩ := letterField_numeric m (conv.directive [] [] args) hl
  obtain ⟨out, hout, hshows⟩ := number_shows hbase args.head size conv.precisionValue type
  have heq : conv.output m args = out :=
    Option.some.inj ((letterField_output hterm conv [] [] args).symm.trans (hfield.trans hout))
  rw [heq]
  cases out with
  | nil => exact absurd rfl hshows.ne_nil
  | cons c out =>
    intro h
    exact hshows.percent_notMem ((List.cons.inj h).1 ▸ List.mem_cons_self)

theorem vsprintf_buf (m : Mem) (fmt : List Byte) (args : Stream' Word) :
    (vsprintf m fmt args).map Result.buf = (printed m fmt args).map (· ++ [0]) := by
  rw [vsprintf, printed, Option.map_map, Option.map_map]
  rfl

/-- The buffers are equal exactly if the characters are. -/
theorem buf_eq_iff {m : Mem} {fmt fmt' : List Byte} {args args' : Stream' Word} :
    (vsprintf m fmt args).map Result.buf = (vsprintf m fmt' args').map Result.buf ↔
      printed m fmt args = printed m fmt' args' := by
  rw [vsprintf_buf, vsprintf_buf]
  exact (Option.map_injective (List.append_left_injective [0])).eq_iff

/-- The text `star`, with `slot` for its `*`, does what the conversion does on the argument `own`,
whatever follows in the format and in the arguments. -/
def StandsFor (m : Mem) (star : List Byte) (slot : Word) (conv : Conversion) (own : Word) : Prop :=
  ∀ (rest : List Byte) (args : Stream' Word),
    (vsprintf m (star ++ rest) (Stream'.cons slot (Stream'.cons own args))).map Result.buf =
      (vsprintf m (conv.text ++ rest) (Stream'.cons own args)).map Result.buf

/-- The conversion `%c`. -/
def plainChar : Conversion := ⟨[], [], none, none, .c⟩

theorem plainChar_output (m : Mem) (args : Stream' Word) :
    plainChar.output m args = [(intArg args).setWidth 8] := by
  have hfirst : fillDown (ascii ' ') (-1) = ([], -2) := by
    rw [fillDown_eq]
    decide
  have hsecond : fillDown (ascii ' ') (-2) = ([], -3) := by
    rw [fillDown_eq]
    decide
  have hright : ¬ Has plainChar.flagBits LEFT := by decide
  have hwidth : plainChar.widthValue = -1 := by decide
  have hfield : charField (plainChar.directive [] [] args) = [(intArg args).setWidth 8] := by
    unfold charField Conversion.directive
    simp only [if_pos hright, hwidth, hfirst, hsecond, List.nil_append, List.append_nil]
  exact congrArg (Option.getD · []) (congrArg some hfield)

section Stars

variable {m : Mem} (hterm : Terminated m) (conv : Conversion) {star text : List Byte} {slot : Word}
include hterm

/-- The `*` and the text behind it are printed, and no field of a number is. -/
theorem star_ne_of_numeric (hl : conv.letter.Numeric)
    (hstar : ∀ rest args, printed m (star ++ rest) args =
      (printed m rest args.tail).map (ascii '%' :: ascii '*' :: text ++ ·))
    (rest : List Byte) (args : Stream' Word) :
    (vsprintf m (star ++ rest) (Stream'.cons slot args)).map Result.buf ≠
      (vsprintf m (conv.text ++ rest) args).map Result.buf := by
  intro h
  rw [buf_eq_iff, hstar, printed_conversion hterm] at h
  obtain ⟨before, hbefore⟩ := printed_some hterm rest args
  obtain ⟨behind, hbehind⟩ := printed_some hterm rest args.tail
  rw [Stream'.tail_cons, hbefore, hbehind] at h
  exact output_ne_percent hterm hl args behind _ (Option.some.inj h).symm

/-- The argument of the conversion is left to what follows: with nothing behind it the texts may
be equal, but then not with a `%c` behind it. -/
theorem not_standsFor (own : Word)
    (hstar : ∀ rest args, printed m (star ++ rest) args =
      (printed m rest args.tail).map (ascii '%' :: ascii '*' :: text ++ ·)) :
    ¬ StandsFor m star slot conv own := by
  intro h
  have hend := h [] (Stream'.const (own + 1))
  have hchar := h (plainChar.text ++ []) (Stream'.const (own + 1))
  rw [buf_eq_iff, hstar, printed_conversion hterm] at hend hchar
  rw [printed_conversion hterm, printed_conversion hterm, plainChar_output, plainChar_output]
    at hchar
  simp only [printed_nil, Option.map_some, Option.some.injEq, List.append_nil] at hend hchar
  rw [hend] at hchar
  have hbyte : ((own.setWidth 32).setWidth 8 : Byte) = ((own + 1).setWidth 32).setWidth 8 :=
    List.singleton_inj.mp (List.append_cancel_left hchar)
  have hlow := congrArg BitVec.toNat hbyte
  have hone : (1 : Word).toNat = 1 := rfl
  simp only [BitVec.toNat_setWidth, BitVec.toNat_add, hone] at hlow
  omega

end Stars

/-- A width or a precision given as `*` never does what the digits of its argument do; where a
number is converted it does not with any format and arguments that follow. -/
theorem star_never_stands_for_digits {m : Mem} (hterm : Terminated m) (conv : Conversion)
    (slot own : Word) :
    let value : BitVec 32 := slot.setWidth 32
    let width := conv.withWidth value.toInt
    let precision := conv.withPrecision value.toInt.toNat
    ¬ StandsFor m conv.starWidth slot width own ∧
      ¬ StandsFor m conv.starPrecision slot precision own ∧
      (conv.letter.Numeric → ∀ (rest : List Byte) (args : Stream' Word),
        (vsprintf m (conv.starWidth ++ rest) (Stream'.cons slot args)).map Result.buf ≠
            (vsprintf m (width.text ++ rest) args).map Result.buf ∧
          (vsprintf m (conv.starPrecision ++ rest) (Stream'.cons slot args)).map Result.buf ≠
            (vsprintf m (precision.text ++ rest) args).map Result.buf) := by
  intro value width precision
  refine ⟨not_standsFor hterm _ own (printed_starWidth hterm conv),
    not_standsFor hterm _ own (printed_starPrecision hterm conv), fun hl rest args => ⟨?_, ?_⟩⟩
  · exact star_ne_of_numeric hterm width hl (printed_starWidth hterm conv) rest args
  · exact star_ne_of_numeric hterm precision hl (printed_starPrecision hterm conv) rest args

/-- The conversion `%d`, and its argument. -/
def plainDecimal : Conversion := ⟨[], [], none, none, .d⟩

def fortyTwoArg : Stream' Word := fun _ => 42

/-- `%*d` with 5 is not `%5d` on 42. -/
theorem plainDecimal_star_not_digits :
    ¬ StandsFor (fun _ => 0) plainDecimal.starWidth 5 (plainDecimal.withWidth 5) 42 :=
  (star_never_stands_for_digits (m := fun _ => 0) ⟨0, rfl⟩ plainDecimal 5 42).1

theorem decimal_digit {d : Fin 10} (h : (d : Nat) ≠ 0) : decimal d = [d] := by
  rw [decimal, if_neg h, Nat.digits_of_lt 10 d h d.isLt]
  exact congrArg (List.cons · []) (Fin.ofNat_val_eq_self d)

/-- `%5d` and `%.5d` print the number in five characters; `%*d` and `%.*d` with 5 print "%*d". -/
theorem starDecimal_differs :
    let starred : Option (List Byte) := some [ascii '%', ascii '*', ascii 'd', 0]
    let args := Stream'.cons 5 fortyTwoArg
    (vsprintf (fun _ => 0) plainDecimal.starWidth args).map Result.buf = starred ∧
      (vsprintf (fun _ => 0) (plainDecimal.withWidth 5).text fortyTwoArg).map Result.buf =
        some [ascii ' ', ascii ' ', ascii ' ', ascii '4', ascii '2', 0] ∧
      (vsprintf (fun _ => 0) plainDecimal.starPrecision args).map Result.buf = starred ∧
      (vsprintf (fun _ => 0) (plainDecimal.withPrecision 5).text fortyTwoArg).map Result.buf =
        some [ascii '0', ascii '0', ascii '0', ascii '4', ascii '2', 0] := by
  have hfive : decimal 5 = [5] := decimal_digit (d := 5) (by decide)
  have hbase : ¬ ((10 : BitVec 32).toInt < 2 ∨ 36 < (10 : BitVec 32).toInt) := by decide
  have hwidth := printed_conversion (m := fun _ => 0) ⟨0, rfl⟩ (plainDecimal.withWidth 5) []
    fortyTwoArg
  have hprecision := printed_conversion (m := fun _ => 0) ⟨0, rfl⟩
    (plainDecimal.withPrecision 5) [] fortyTwoArg
  have hfield : (plainDecimal.withWidth 5).output (fun _ => 0) fortyTwoArg =
      [ascii ' ', ascii ' ', ascii ' ', ascii '4', ascii '2'] := by
    have hnumber := number_eq 42 hbase 5 (-1) SIGN
    rw [Conversion.withWidth, show (5 : Int).natAbs = 5 from rfl, hfive]
    exact (congrArg (Option.getD · []) hnumber).trans (by decide)
  have hfield' : (plainDecimal.withPrecision 5).output (fun _ => 0) fortyTwoArg =
      [ascii '0', ascii '0', ascii '0', ascii '4', ascii '2'] := by
    have hnumber := number_eq 42 hbase (-1) 5 SIGN
    rw [Conversion.withPrecision, hfive]
    exact (congrArg (Option.getD · []) hnumber).trans (by decide)
  rw [List.append_nil, hfield, printed_nil] at hwidth
  rw [List.append_nil, hfield', printed_nil] at hprecision
  refine ⟨by decide, ?_, by decide, ?_⟩
  · rw [vsprintf_buf, hwidth]
    rfl
  · rw [vsprintf_buf, hprecision]
    rfl

end ChronOS.Printk
