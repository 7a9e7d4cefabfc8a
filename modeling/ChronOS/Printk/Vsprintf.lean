/-
  Printk/Vsprintf.lean --- `vsprintf` and its walk through the format.

  The format is the list of its bytes before the terminator.  While a directive is
  read, `fmt` is a cursor between the bytes of the directive that it has passed and
  those in front of it; the byte at the end is the terminator, and a step over it, or
  back over the `%`, has no result.  The variable arguments are 64-bit slots.  What
  `%n` stores is recorded with its address.

  The format and the strings are read as they are when `vsprintf` is called: neither
  the characters put into the buffer nor the stores of `%n` go to their bytes.

  A width or precision `*` takes its argument, but the cursor stays on the `*`, which
  is then the conversion letter.
-/
import ChronOS.Printk.Number
import ChronOS.Utils.Strings

set_option autoImplicit false

namespace ChronOS.Printk

open ChronOS.Foundation ChronOS.Utils

/-! ## The cursor -/

/-- A pointer into a directive: the bytes it has passed, the last one first, and those up to the
terminator. -/
structure Cursor where
  passed : List Byte
  rest : List Byte
  deriving DecidableEq, Repr

namespace Cursor

/-- `*fmt`. -/
def peek (c : Cursor) : Byte := c.rest.headD 0

/-- `++fmt`. -/
def next (c : Cursor) : Option Cursor :=
  match c.rest with
  | [] => none
  | b :: rest => some ⟨b :: c.passed, rest⟩

/-- `--fmt`. -/
def back (c : Cursor) : Option Cursor :=
  match c.passed with
  | [] => none
  | b :: passed => some ⟨passed, b :: c.rest⟩

end Cursor

/-! ## Reading a directive -/

/-- `is_digit`. -/
def IsDigit (c : Byte) : Prop := ascii '0' ≤ c ∧ c ≤ ascii '9'

instance (c : Byte) : Decidable (IsDigit c) := inferInstanceAs (Decidable (_ ∧ _))

/-- `skip_atoi`, with the value read so far. -/
def skipAtoi (passed : List Byte) (i : BitVec 32) : List Byte → BitVec 32 × Cursor
  | [] => (i, ⟨passed, []⟩)
  | b :: rest =>
    if IsDigit b then
      skipAtoi (b :: passed) (i * 10 + b.signExtend 32 - (ascii '0').signExtend 32) rest
    else (i, ⟨passed, b :: rest⟩)

/-- The flag that a character stands for. -/
def flagBit (c : Byte) : Option (BitVec 32) :=
  if c = ascii '-' then some LEFT
  else if c = ascii '+' then some PLUS
  else if c = ascii ' ' then some SPACE
  else if c = ascii '#' then some SPECIAL
  else if c = ascii '0' then some ZEROPAD
  else none

/-- The `repeat` loop, from behind its `++fmt` on. -/
def flagLoop (passed : List Byte) (flags : BitVec 32) : List Byte → BitVec 32 × Cursor
  | [] => (flags, ⟨passed, []⟩)
  | b :: rest =>
    match flagBit b with
    | some bit => flagLoop (b :: passed) (flags ||| bit) rest
    | none => (flags, ⟨passed, b :: rest⟩)

/-- What has been read of a directive. -/
structure Directive where
  flags : BitVec 32
  fieldWidth : BitVec 32
  precision : BitVec 32
  qualifier : Option Byte
  cursor : Cursor
  args : Stream' Word

/-- `va_arg(args, int)`. -/
def intArg (args : Stream' Word) : BitVec 32 := args.head.setWidth 32

/-- The field width; it may set `LEFT`. -/
def readWidth (d : Directive) : Directive :=
  if IsDigit d.cursor.peek then
    let r := skipAtoi d.cursor.passed 0 d.cursor.rest
    { d with fieldWidth := r.1, cursor := r.2 }
  else if d.cursor.peek = ascii '*' then
    let width := intArg d.args
    if width.toInt < 0 then
      { d with fieldWidth := -width, flags := d.flags ||| LEFT, args := d.args.tail }
    else { d with fieldWidth := width, args := d.args.tail }
  else d

/-- The precision behind the dot, not yet raised to zero. -/
def readPrecisionValue (d : Directive) : Directive :=
  if IsDigit d.cursor.peek then
    let r := skipAtoi d.cursor.passed 0 d.cursor.rest
    { d with precision := r.1, cursor := r.2 }
  else if d.cursor.peek = ascii '*' then { d with precision := intArg d.args, args := d.args.tail }
  else d

/-- The precision. -/
def readPrecision (d : Directive) : Option Directive :=
  if d.cursor.peek = ascii '.' then do
    let c ← d.cursor.next
    let d := readPrecisionValue { d with cursor := c }
    return if d.precision.toInt < 0 then { d with precision := 0 } else d
  else some d

/-- The qualifier, which is not used. -/
def readQualifier (d : Directive) : Option Directive :=
  if d.cursor.peek = ascii 'h' ∨ d.cursor.peek = ascii 'l' ∨ d.cursor.peek = ascii 'L' then do
    let c ← d.cursor.next
    return { d with qualifier := some d.cursor.peek, cursor := c }
  else some d

/-- A directive up to its letter, from the `%` on. -/
def readDirective (fmt : Cursor) (args : Stream' Word) : Option Directive := do
  let c ← fmt.next
  let r := flagLoop c.passed 0 c.rest
  let d ← readPrecision (readWidth ⟨r.1, -1, -1, none, r.2, args⟩)
  readQualifier d

/-! ## The conversions -/

/-- `while (--counter > 0) *str++ = c;` -/
def fillDown (c : Byte) (counter : BitVec 32) : List Byte × BitVec 32 :=
  if 0 < (counter - 1).toInt then
    let r := fillDown c (counter - 1)
    (c :: r.1, r.2)
  else ([], counter - 1)
termination_by (counter - 1).toInt.toNat
decreasing_by
  rename_i h
  have hnext := toInt_sub_one (x := counter - 1) (by omega)
  omega

/-- What a conversion does: the characters, the cursor and the arguments behind it, and where `%n`
stores. -/
structure Emitted where
  out : List Byte
  cursor : Cursor
  args : Stream' Word
  store : Option Word

/-- The letters of the `switch`. -/
inductive Letter
  | c | s | o | p | x | X | d | i | u | n
  deriving DecidableEq, Repr

/-- The label of a character. -/
def letterOf (b : Byte) : Option Letter :=
  if b = ascii 'c' then some .c
  else if b = ascii 's' then some .s
  else if b = ascii 'o' then some .o
  else if b = ascii 'p' then some .p
  else if b = ascii 'x' then some .x
  else if b = ascii 'X' then some .X
  else if b = ascii 'd' then some .d
  else if b = ascii 'i' then some .i
  else if b = ascii 'u' then some .u
  else if b = ascii 'n' then some .n
  else none

/-- `%c`. -/
def charField (d : Directive) : List Byte :=
  let left := if ¬ Has d.flags LEFT then fillDown (ascii ' ') d.fieldWidth else ([], d.fieldWidth)
  let right := fillDown (ascii ' ') left.2
  left.1 ++ [(intArg d.args).setWidth 8] ++ right.1

/-- `%s`; `none` if `strlen` does not return.  The string is read from the memory at the call, which
the output and the stores of `%n` leave alone there. -/
def stringField (m : Mem) (d : Directive) : Option (List Byte) := do
  let s := d.args.head
  let length ← strlen m s
  let len : BitVec 32 := length.setWidth 32
  let len :=
    if d.precision.toInt < 0 then len
    else if d.precision.toInt < len.toInt then d.precision else len
  let left :=
    if ¬ Has d.flags LEFT then fillWhile (ascii ' ') len d.fieldWidth else ([], d.fieldWidth)
  let chars := (List.range len.toInt.toNat).map fun i => m (s + BitVec.ofNat 64 i)
  let right := fillWhile (ascii ' ') len left.2
  return left.1 ++ chars ++ right.1

/-- A call of `number` with the next argument, an `unsigned long` or a pointer. -/
def numberField (d : Directive) (base fieldWidth flags : BitVec 32) : Option (List Byte) :=
  number d.args.head base fieldWidth d.precision flags

/-- The characters of the labels of the `switch`. -/
def letterField (m : Mem) (d : Directive) : Letter → Option (List Byte)
  | .c => some (charField d)
  | .s => stringField m d
  | .o => numberField d 8 d.fieldWidth d.flags
  | .p =>
    if d.fieldWidth = -1 then numberField d 16 8 (d.flags ||| ZEROPAD)
    else numberField d 16 d.fieldWidth d.flags
  | .x => numberField d 16 d.fieldWidth (d.flags ||| SMALL)
  | .X => numberField d 16 d.fieldWidth d.flags
  | .d | .i => numberField d 10 d.fieldWidth (d.flags ||| SIGN)
  | .u => numberField d 10 d.fieldWidth d.flags
  | .n => some []

/-- The `default` case: at the terminator `fmt` is stepped back. -/
def defaultField (d : Directive) : Option Emitted :=
  let percent := if d.cursor.peek ≠ ascii '%' then [ascii '%'] else []
  if d.cursor.peek ≠ 0 then some ⟨percent ++ [d.cursor.peek], d.cursor, d.args, none⟩
  else d.cursor.back.map fun c => ⟨percent, c, d.args, none⟩

/-- The `switch`.  Every label takes one argument, and `%n` stores through it. -/
def convert (m : Mem) (d : Directive) : Option Emitted :=
  match letterOf d.cursor.peek with
  | some letter => (letterField m d letter).map fun out =>
      ⟨out, d.cursor, d.args.tail, if letter = .n then some d.args.head else none⟩
  | none => defaultField d

/-! ## The loop -/

/-- The characters so far, and what `%n` stored. -/
structure Printed where
  out : List Byte
  stores : List (Word × BitVec 32)
  deriving DecidableEq, Repr

/-- One directive, up to the `++fmt` of the loop. -/
def directive (m : Mem) (fmt : List Byte) (args : Stream' Word) : Option Emitted := do
  let d ← readDirective ⟨[], fmt⟩ args
  let e ← convert m d
  let c ← e.cursor.next
  return { e with cursor := c }

/-- The loop over the format; `fuel` bounds the iterations. -/
def vsprintfLoop (m : Mem) : (fuel : Nat) → List Byte → Stream' Word → Printed → Option Printed
  | 0, _, _, _ => none
  | fuel + 1, fmt, args, p =>
    if fmt.headD 0 = 0 then some p
    else if fmt.headD 0 ≠ ascii '%' then do
      let c ← Cursor.next ⟨[], fmt⟩
      vsprintfLoop m fuel c.rest args { p with out := p.out ++ [fmt.headD 0] }
    else do
      let e ← directive m fmt args
      vsprintfLoop m fuel e.cursor.rest e.args
        ⟨p.out ++ e.out,
          p.stores ++ e.store.toList.map fun ip => (ip, BitVec.ofNat 32 p.out.length)⟩

/-- What `vsprintf` leaves: the buffer, the value returned, and what `%n` stored. -/
structure Result where
  buf : List Byte
  ret : BitVec 32
  stores : List (Word × BitVec 32)
  deriving DecidableEq, Repr

/-- `vsprintf`.  Each iteration takes at least one byte off the format. -/
def vsprintf (m : Mem) (fmt : List Byte) (args : Stream' Word) : Option Result :=
  (vsprintfLoop m (fmt.length + 1) fmt args ⟨[], []⟩).map fun p =>
    ⟨p.out ++ [0], BitVec.ofNat 32 p.out.length, p.stores⟩

/-! ## The cursor stays inside the format -/

namespace Cursor

/-- The cursor is in a text of `n` bytes, behind the first one. -/
def Inside (c : Cursor) (n : Nat) : Prop := c.passed.length + c.rest.length = n ∧ c.passed ≠ []

theorem inside_cons {passed rest : List Byte} {b : Byte} {n : Nat}
    (h : passed.length + (b :: rest).length = n) : (⟨b :: passed, rest⟩ : Cursor).Inside n := by
  refine ⟨?_, List.cons_ne_nil b passed⟩
  simp only [List.length_cons] at h ⊢
  omega

/-- A byte that is not the terminator can be stepped over. -/
theorem Inside.next {c : Cursor} {n : Nat} (h : c.Inside n) (hpeek : c.peek ≠ 0) :
    ∃ c', c.next = some c' ∧ c'.Inside n ∧ c'.rest.length < c.rest.length := by
  obtain ⟨passed, rest⟩ := c
  cases rest with
  | nil => exact absurd rfl hpeek
  | cons b rest => exact ⟨⟨b :: passed, rest⟩, rfl, inside_cons h.1, Nat.lt_succ_self _⟩

/-- A step back and a step forward are no step. -/
theorem Inside.back {c : Cursor} {n : Nat} (h : c.Inside n) :
    ∃ c', c.back = some c' ∧ c'.next = some c := by
  obtain ⟨passed, rest⟩ := c
  cases passed with
  | nil => exact absurd rfl h.2
  | cons b passed => exact ⟨⟨passed, b :: rest⟩, rfl, rfl⟩

end Cursor

theorem skipAtoi_inside {n : Nat} :
    ∀ {rest passed : List Byte} (i : BitVec 32), (⟨passed, rest⟩ : Cursor).Inside n →
      (skipAtoi passed i rest).2.Inside n := by
  intro rest
  induction rest with
  | nil => exact fun _ h => h
  | cons b rest ih =>
    intro passed i h
    unfold skipAtoi
    split_ifs
    · exact ih _ (Cursor.inside_cons h.1)
    · exact h

theorem flagLoop_inside {n : Nat} :
    ∀ {rest passed : List Byte} (flags : BitVec 32), (⟨passed, rest⟩ : Cursor).Inside n →
      (flagLoop passed flags rest).2.Inside n := by
  intro rest
  induction rest with
  | nil => exact fun _ h => h
  | cons b rest ih =>
    intro passed flags h
    unfold flagLoop
    split
    · exact ih _ (Cursor.inside_cons h.1)
    · exact h

section Inside

variable {d : Directive} {n : Nat} (h : d.cursor.Inside n)
include h

theorem readWidth_inside : (readWidth d).cursor.Inside n := by
  unfold readWidth
  dsimp only
  split_ifs
  · exact skipAtoi_inside 0 h
  · exact h
  · exact h
  · exact h

theorem readPrecisionValue_inside : (readPrecisionValue d).cursor.Inside n := by
  unfold readPrecisionValue
  dsimp only
  split_ifs
  · exact skipAtoi_inside 0 h
  · exact h
  · exact h

theorem readPrecision_inside : ∃ d', readPrecision d = some d' ∧ d'.cursor.Inside n := by
  unfold readPrecision
  split_ifs with hdot
  · obtain ⟨c, hnext, hc, -⟩ := h.next (hdot ▸ by decide)
    simp only [hnext, Option.bind_eq_bind, Option.bind_some]
    refine ⟨_, rfl, ?_⟩
    have hvalue := @readPrecisionValue_inside { d with cursor := c } n hc
    split_ifs
    · exact hvalue
    · exact hvalue
  · exact ⟨d, rfl, h⟩

theorem readQualifier_inside : ∃ d', readQualifier d = some d' ∧ d'.cursor.Inside n := by
  unfold readQualifier
  split_ifs with hletter
  · have hne : d.cursor.peek ≠ 0 := by
      rcases hletter with hletter | hletter | hletter <;> rw [hletter] <;> decide
    obtain ⟨c, hnext, hc, -⟩ := h.next hne
    simp only [hnext, Option.bind_eq_bind, Option.bind_some]
    exact ⟨_, rfl, hc⟩
  · exact ⟨d, rfl, h⟩

end Inside

/-- However the format ends, a directive is read without a step over the terminator. -/
theorem readDirective_inside {fmt : List Byte} (hpercent : fmt.headD 0 = ascii '%')
    (args : Stream' Word) :
    ∃ d, readDirective ⟨[], fmt⟩ args = some d ∧ d.cursor.Inside fmt.length := by
  cases fmt with
  | nil => cases hpercent
  | cons b rest =>
    have hstart : (⟨[b], rest⟩ : Cursor).Inside (b :: rest).length :=
      Cursor.inside_cons (Nat.zero_add _)
    have hflags := flagLoop_inside 0 hstart
    obtain ⟨d, hprecision, hd⟩ := readPrecision_inside (readWidth_inside
      (d := ⟨(flagLoop [b] 0 rest).1, -1, -1, none, (flagLoop [b] 0 rest).2, args⟩) hflags)
    obtain ⟨d', hqualifier, hd'⟩ := readQualifier_inside hd
    refine ⟨d', ?_, hd'⟩
    unfold readDirective
    simp only [Cursor.next, Option.bind_eq_bind, Option.bind_some, hprecision, hqualifier]

theorem directive_eq {m : Mem} {fmt : List Byte} {args : Stream' Word} {d : Directive}
    {e : Emitted} {c : Cursor} (hread : readDirective ⟨[], fmt⟩ args = some d)
    (hconvert : convert m d = some e) (hnext : e.cursor.next = some c) :
    directive m fmt args = some { e with cursor := c } := by
  unfold directive
  simp only [hread, hconvert, hnext, Option.bind_eq_bind, Option.bind_some]
  rfl

theorem vsprintfLoop_directive {m : Mem} {fmt : List Byte} (hpercent : fmt.headD 0 = ascii '%')
    {args : Stream' Word} {e : Emitted} (he : directive m fmt args = some e) (fuel : Nat)
    (p : Printed) :
    vsprintfLoop m (fuel + 1) fmt args p =
      vsprintfLoop m fuel e.cursor.rest e.args
        ⟨p.out ++ e.out,
          p.stores ++ e.store.toList.map fun ip => (ip, BitVec.ofNat 32 p.out.length)⟩ := by
  rw [vsprintfLoop, if_neg (hpercent ▸ by decide), if_neg (not_not.mpr hpercent), he]
  rfl

/-! ## Every directive ends -/

/-- `strlen` counts through the whole address space, so one terminator ends every string; that of
the format is one. -/
def Terminated (m : Mem) : Prop := ∃ a, m a = 0

theorem strlen_of_terminated {m : Mem} (hterm : Terminated m) (str : Word) :
    ∃ len, strlen m str = some len := by
  obtain ⟨a, ha⟩ := hterm
  have hstop : (m (str + (a - str)) == 0) = true := by
    rw [add_sub_cancel, ha]
    rfl
  obtain ⟨len, hlen, -⟩ := @searchIndex_exists _ (fun len => m (str + len) == 0) _ hstop
  exact ⟨len, hlen⟩

/-- Where a conversion leaves the cursor: on its letter, or one step before the terminator. -/
def LeavesCursor (d : Directive) (e : Emitted) : Prop :=
  d.cursor.peek ≠ 0 ∧ e.cursor = d.cursor ∨ d.cursor.peek = 0 ∧ d.cursor.back = some e.cursor

/-- The letters whose field is made by `number`. -/
def Letter.Numeric (l : Letter) : Prop := l ≠ .c ∧ l ≠ .s ∧ l ≠ .n

instance (l : Letter) : Decidable l.Numeric := inferInstanceAs (Decidable (_ ∧ _ ∧ _))

theorem letterField_numeric (m : Mem) (d : Directive) {l : Letter} (hl : l.Numeric) :
    ∃ base size type, (base = 8 ∨ base = 10 ∨ base = 16) ∧
      letterField m d l = number d.args.head base size d.precision type := by
  cases l with
  | c => exact absurd rfl hl.1
  | s => exact absurd rfl hl.2.1
  | n => exact absurd rfl hl.2.2
  | o => exact ⟨8, _, _, Or.inl rfl, rfl⟩
  | d => exact ⟨10, _, _, Or.inr (Or.inl rfl), rfl⟩
  | i => exact ⟨10, _, _, Or.inr (Or.inl rfl), rfl⟩
  | u => exact ⟨10, _, _, Or.inr (Or.inl rfl), rfl⟩
  | x => exact ⟨16, _, _, Or.inr (Or.inr rfl), rfl⟩
  | X => exact ⟨16, _, _, Or.inr (Or.inr rfl), rfl⟩
  | p =>
    unfold letterField
    split_ifs
    · exact ⟨16, _, _, Or.inr (Or.inr rfl), rfl⟩
    · exact ⟨16, _, _, Or.inr (Or.inr rfl), rfl⟩

theorem stringField_ends {m : Mem} (hterm : Terminated m) (d : Directive) :
    ∃ out, stringField m d = some out := by
  obtain ⟨len, hlen⟩ := strlen_of_terminated hterm d.args.head
  unfold stringField
  simp only [hlen, Option.bind_eq_bind, Option.bind_some]
  exact ⟨_, rfl⟩

theorem letterField_ends {m : Mem} (hterm : Terminated m) (d : Directive) (letter : Letter) :
    ∃ out, letterField m d letter = some out := by
  obtain rfl | rfl | rfl | hl : letter = .c ∨ letter = .s ∨ letter = .n ∨ letter.Numeric := by
    cases letter <;> decide
  · exact ⟨_, rfl⟩
  · exact stringField_ends hterm d
  · exact ⟨_, rfl⟩
  · obtain ⟨base, size, type, hbase, hfield⟩ := letterField_numeric m d hl
    obtain ⟨out, hout, -⟩ := number_shows hbase d.args.head size d.precision type
    exact ⟨out, hfield.trans hout⟩

theorem defaultField_ends {d : Directive} {n : Nat} (h : d.cursor.Inside n) :
    ∃ e, defaultField d = some e ∧ LeavesCursor d e := by
  unfold defaultField
  dsimp only
  by_cases hpeek : d.cursor.peek ≠ 0
  · rw [if_pos hpeek]
    exact ⟨_, rfl, Or.inl ⟨hpeek, rfl⟩⟩
  · obtain ⟨c, hback, -⟩ := h.back
    rw [if_neg hpeek, hback]
    exact ⟨_, rfl, Or.inr ⟨not_not.mp hpeek, hback⟩⟩

theorem convert_ends {m : Mem} (hterm : Terminated m) {d : Directive} {n : Nat}
    (h : d.cursor.Inside n) : ∃ e, convert m d = some e ∧ LeavesCursor d e := by
  unfold convert
  cases hletter : letterOf d.cursor.peek with
  | none => exact defaultField_ends h
  | some letter =>
    have hpeek : d.cursor.peek ≠ 0 := by
      intro hzero
      rw [hzero, show letterOf 0 = none by decide] at hletter
      exact absurd hletter.symm (Option.some_ne_none letter)
    obtain ⟨out, hout⟩ := letterField_ends hterm d letter
    dsimp only
    rw [hout]
    exact ⟨_, rfl, Or.inl ⟨hpeek, rfl⟩⟩

/-- A directive ends, and the loop goes on with fewer bytes. -/
theorem directive_ends {m : Mem} (hterm : Terminated m) {fmt : List Byte}
    (hpercent : fmt.headD 0 = ascii '%') (args : Stream' Word) :
    ∃ e, directive m fmt args = some e ∧ e.cursor.rest.length < fmt.length := by
  obtain ⟨d, hread, hinside⟩ := readDirective_inside hpercent args
  obtain ⟨e, hconvert, hleaves⟩ := convert_ends hterm hinside
  have hlength : d.cursor.rest.length < fmt.length := by
    have hsum := hinside.1
    have hpos := List.length_pos_of_ne_nil hinside.2
    omega
  obtain ⟨c, hnext, hshort⟩ : ∃ c, e.cursor.next = some c ∧ c.rest.length < fmt.length := by
    rcases hleaves with ⟨hpeek, hcursor⟩ | ⟨-, hback⟩
    · obtain ⟨c, hnext, -, hlt⟩ := hinside.next hpeek
      exact ⟨c, hcursor ▸ hnext, Nat.lt_trans hlt hlength⟩
    · obtain ⟨c', hback', hnext⟩ := hinside.back
      obtain rfl := Option.some.inj (hback.symm.trans hback')
      exact ⟨d.cursor, hnext, hlength⟩
  exact ⟨_, directive_eq hread hconvert hnext, hshort⟩

/-! ## The loop ends -/

section Loop

variable {m : Mem} (hterm : Terminated m)
include hterm

theorem vsprintfLoop_ends :
    ∀ {fuel : Nat} {fmt : List Byte}, fmt.length < fuel → ∀ (args : Stream' Word) (p : Printed),
      ∃ p', vsprintfLoop m fuel fmt args p = some p' := by
  intro fuel
  induction fuel with
  | zero => exact fun h => absurd h (Nat.not_lt_zero _)
  | succ fuel ih =>
    intro fmt hfuel args p
    unfold vsprintfLoop
    split_ifs with hend hplain
    · exact ⟨p, rfl⟩
    · cases fmt with
      | nil => exact absurd rfl hend
      | cons b rest =>
        exact ih (Nat.lt_of_succ_lt_succ hfuel) _ _
    · obtain ⟨e, he, hshort⟩ := directive_ends hterm (not_not.mp hplain) args
      rw [he]
      exact ih (Nat.lt_of_lt_of_le hshort (Nat.le_of_lt_succ hfuel)) _ _

/-- More fuel than bytes makes no difference. -/
theorem vsprintfLoop_fuel :
    ∀ {fuel fuel' : Nat} {fmt : List Byte}, fmt.length < fuel → fmt.length < fuel' →
      ∀ (args : Stream' Word) (p : Printed),
        vsprintfLoop m fuel fmt args p = vsprintfLoop m fuel' fmt args p := by
  intro fuel
  induction fuel with
  | zero => exact fun h => absurd h (Nat.not_lt_zero _)
  | succ fuel ih =>
    intro fuel' fmt hfuel hfuel' args p
    obtain ⟨fuel', rfl⟩ := Nat.exists_eq_succ_of_ne_zero (Nat.ne_of_gt (Nat.zero_lt_of_lt hfuel'))
    rw [vsprintfLoop, vsprintfLoop]
    split_ifs with hend hplain
    · rfl
    · cases fmt with
      | nil => exact absurd rfl hend
      | cons b rest =>
        exact ih (Nat.lt_of_succ_lt_succ hfuel) (Nat.lt_of_succ_lt_succ hfuel') _ _
    · obtain ⟨e, he, hshort⟩ := directive_ends hterm (not_not.mp hplain) args
      rw [he]
      exact ih (Nat.lt_of_lt_of_le hshort (Nat.le_of_lt_succ hfuel))
        (Nat.lt_of_lt_of_le hshort (Nat.le_of_lt_succ hfuel')) _ _

end Loop

/-! ## The characters -/

/-- The characters that `vsprintf` emits. -/
def printed (m : Mem) (fmt : List Byte) (args : Stream' Word) : Option (List Byte) :=
  (vsprintfLoop m (fmt.length + 1) fmt args ⟨[], []⟩).map Printed.out

/-- The characters that follow do not depend on those before. -/
theorem vsprintfLoop_out (m : Mem) :
    ∀ (fuel : Nat) (fmt : List Byte) (args : Stream' Word) (p : Printed),
      (vsprintfLoop m fuel fmt args p).map Printed.out =
        (vsprintfLoop m fuel fmt args ⟨[], []⟩).map fun q => p.out ++ q.out := by
  intro fuel
  induction fuel with
  | zero => exact fun _ _ _ => rfl
  | succ fuel ih =>
    intro fmt args p
    have hshift : ∀ (fmt : List Byte) (args : Stream' Word) (out : List Byte)
        (stores stores' : List (Word × BitVec 32)),
        (vsprintfLoop m fuel fmt args ⟨p.out ++ out, stores⟩).map Printed.out =
          (vsprintfLoop m fuel fmt args ⟨[] ++ out, stores'⟩).map fun q => p.out ++ q.out := by
      intro fmt args out stores stores'
      have hright := congrArg (Option.map (p.out ++ ·)) (ih fmt args ⟨[] ++ out, stores'⟩)
      rw [Option.map_map, Option.map_map] at hright
      rw [ih]
      refine Eq.trans ?_ hright.symm
      congr 1
      funext q
      simp only [Function.comp_apply, List.nil_append, List.append_assoc]
    rw [vsprintfLoop, vsprintfLoop]
    split_ifs
    · rw [Option.map_some, Option.map_some, List.append_nil]
    · cases Cursor.next ⟨[], fmt⟩ with
      | none => rfl
      | some c => exact hshift _ _ _ _ _
    · cases directive m fmt args with
      | none => rfl
      | some e => exact hshift _ _ _ _ _

section Characters

variable {m : Mem} {fmt rest : List Byte} {args : Stream' Word}

theorem printed_nil : printed m [] args = some [] := rfl

/-- A character that is not a `%` is printed. -/
theorem printed_cons {b : Byte} (hzero : b ≠ 0) (hplain : b ≠ ascii '%') :
    printed m (b :: rest) args = (printed m rest args).map (b :: ·) := by
  unfold printed
  rw [List.length_cons, vsprintfLoop, List.headD_cons, if_neg hzero, if_pos hplain,
    Option.map_map]
  exact vsprintfLoop_out m (rest.length + 1) rest args ⟨[b], []⟩

/-- A directive is followed by what the rest of the format prints. -/
theorem printed_directive (hterm : Terminated m) (hpercent : fmt.headD 0 = ascii '%')
    {e : Emitted} (he : directive m fmt args = some e) :
    printed m fmt args = (printed m e.cursor.rest e.args).map (e.out ++ ·) := by
  obtain ⟨e', he', hshort⟩ := directive_ends hterm hpercent args
  obtain rfl := Option.some.inj (he.symm.trans he')
  unfold printed
  rw [vsprintfLoop_directive hpercent he, vsprintfLoop_out,
    vsprintfLoop_fuel hterm hshort (Nat.lt_succ_self _), Option.map_map]
  rfl

theorem printed_some (hterm : Terminated m) (fmt : List Byte) (args : Stream' Word) :
    ∃ out, printed m fmt args = some out := by
  obtain ⟨p, hp⟩ := vsprintfLoop_ends hterm (Nat.lt_succ_self fmt.length) args ⟨[], []⟩
  exact ⟨p.out, by rw [printed, hp]; rfl⟩

/-- The buffer and the value returned, from the characters. -/
theorem vsprintf_of_printed {out : List Byte} (h : printed m fmt args = some out) :
    ∃ stores, vsprintf m fmt args = some ⟨out ++ [0], BitVec.ofNat 32 out.length, stores⟩ := by
  obtain ⟨p, hp, rfl⟩ := Option.map_eq_some_iff.mp h
  exact ⟨p.stores, by rw [vsprintf, hp]; rfl⟩

end Characters

theorem toInt_ofNat_iff (n : Nat) : (BitVec.ofNat 32 n).toInt = n ↔ n < 2 ^ 31 := by
  have hlt := (BitVec.toInt_lt (x := BitVec.ofNat 32 n))
  constructor
  · intro h
    omega
  · intro h
    rw [BitVec.toInt_ofNat']
    exact Int.bmod_eq_of_le (by omega) (by omega)

/-- `vsprintf` returns, without a step over the end of the format and with the terminator behind
the characters it emits; what it returns is their number exactly if that is an `int`. -/
theorem vsprintf_returns {m : Mem} (hterm : Terminated m) (fmt : List Byte) (args : Stream' Word) :
    ∃ out ret stores, printed m fmt args = some out ∧
      vsprintf m fmt args = some ⟨out ++ [0], ret, stores⟩ ∧
      (ret.toInt = out.length ↔ out.length < 2 ^ 31) := by
  obtain ⟨out, hout⟩ := printed_some hterm fmt args
  obtain ⟨stores, hstores⟩ := vsprintf_of_printed hout
  exact ⟨out, BitVec.ofNat 32 out.length, stores, hout, hstores, toInt_ofNat_iff _⟩

/-- The format "%5." ends in the middle of a directive. -/
theorem cutOff_returns :
    ∃ ret stores, vsprintf (fun _ => 0) [ascii '%', ascii '5', ascii '.'] (fun _ => 0) =
      some ⟨[ascii '%', 0], ret, stores⟩ ∧ ret.toInt = 1 := by
  obtain ⟨out, ret, stores, hout, hret, hlength⟩ :=
    vsprintf_returns (m := fun _ => 0) ⟨0, rfl⟩ [ascii '%', ascii '5', ascii '.'] (fun _ => 0)
  have hprinted : printed (fun _ => 0) [ascii '%', ascii '5', ascii '.'] (fun _ => 0) =
      some [ascii '%'] := by decide
  obtain rfl := Option.some.inj (hout.symm.trans hprinted)
  exact ⟨ret, stores, hret, hlength.mpr (by decide)⟩

theorem fillDown_eq (c : Byte) (counter : BitVec 32) :
    fillDown c counter =
      (List.replicate (counter - 1).toInt.toNat c,
        if 0 < (counter - 1).toInt then 0 else counter - 1) := by
  induction counter using fillDown.induct c with
  | case1 counter hlt ih =>
    have hnext := toInt_sub_one (x := counter - 1) (by omega)
    have hcount : (counter - 1).toInt.toNat = (counter - 1 - 1).toInt.toNat + 1 := by omega
    rw [fillDown, if_pos hlt, ih, hcount, List.replicate_succ, if_pos hlt]
    by_cases hlast : 0 < (counter - 1 - 1).toInt
    · rw [if_pos hlast]
    · have heq : counter - 1 - 1 = 0 := BitVec.eq_of_toInt_eq (by
        rw [show (0 : BitVec 32).toInt = 0 from rfl]
        omega)
      rw [if_neg hlast, heq]
  | case2 counter hge =>
    have hcount : (counter - 1).toInt.toNat = 0 := by omega
    rw [fillDown, if_neg hge, if_neg hge, hcount]
    rfl

/-- Without `LEFT` the character comes last, and nothing follows it. -/
theorem charField_length {d : Directive} (hright : ¬ Has d.flags LEFT)
    (hwidth : -2 ^ 31 + 2 < d.fieldWidth.toInt) :
    (charField d).length = (d.fieldWidth - 1).toInt.toNat + 1 := by
  have hone := toInt_sub_one (x := d.fieldWidth) (by omega)
  have htwo := toInt_sub_one (x := d.fieldWidth - 1) (by omega)
  have hnone : ((if 0 < (d.fieldWidth - 1).toInt then 0 else d.fieldWidth - 1) - 1 :
      BitVec 32).toInt.toNat = 0 := by
    split_ifs with hpos
    · decide
    · omega
  unfold charField
  simp only [if_pos hright, fillDown_eq, hnone, List.replicate_zero, List.append_nil,
    List.length_append, List.length_replicate, List.length_singleton]

/-- The format "%2147483647c%c". -/
def widestFormat : List Byte :=
  [ascii '%', ascii '2', ascii '1', ascii '4', ascii '7', ascii '4', ascii '8', ascii '3',
    ascii '6', ascii '4', ascii '7', ascii 'c', ascii '%', ascii 'c']

/-- The first directive of `widestFormat` when its letter is reached, and the second. -/
def widestFirst : Directive :=
  ⟨0, 0x7fffffff, -1, none, ⟨(widestFormat.take 11).reverse, widestFormat.drop 11⟩, fun _ => 0⟩

def widestSecond : Directive := ⟨0, -1, -1, none, ⟨[ascii '%'], [ascii 'c']⟩, fun _ => 0⟩

/-- 2147483648 characters are emitted, and the smallest `int` is returned. -/
theorem widestFormat_returns_negative :
    ∃ out stores, printed (fun _ => 0) widestFormat (fun _ => 0) = some out ∧
      out.length = 2 ^ 31 ∧
      vsprintf (fun _ => 0) widestFormat (fun _ => 0) =
        some ⟨out ++ [0], BitVec.intMin 32, stores⟩ := by
  have hread : readDirective ⟨[], widestFormat⟩ (fun _ => 0) = some widestFirst := rfl
  have hfirst := directive_eq (m := fun _ => 0)
    (e := ⟨charField widestFirst, widestFirst.cursor, fun _ => 0, none⟩)
    (c := ⟨(widestFormat.take 12).reverse, widestFormat.drop 12⟩) hread rfl rfl
  have hread' : readDirective ⟨[], widestFormat.drop 12⟩ (fun _ => 0) = some widestSecond := rfl
  have hsecond := directive_eq (m := fun _ => 0)
    (e := ⟨charField widestSecond, widestSecond.cursor, fun _ => 0, none⟩)
    (c := ⟨(widestFormat.drop 12).reverse, []⟩) hread' rfl rfl
  have hprinted := (printed_directive (m := fun _ => 0) ⟨0, rfl⟩ rfl hfirst).trans
    (congrArg _ (printed_directive (m := fun _ => 0) ⟨0, rfl⟩ rfl hsecond))
  rw [printed_nil, Option.map_some, Option.map_some] at hprinted
  have hlength : (charField widestFirst ++ (charField widestSecond ++ [])).length = 2 ^ 31 := by
    rw [List.append_nil, List.length_append, charField_length (by decide) (by decide),
      charField_length (by decide) (by decide)]
    decide
  obtain ⟨stores, hstores⟩ := vsprintf_of_printed hprinted
  dsimp only at hprinted hstores
  rw [hlength] at hstores
  exact ⟨_, stores, hprinted, hlength, hstores⟩

end ChronOS.Printk
