/-
  Terminal/Grid.lean --- the terminal against a grid of characters.

  `Screen` is what a terminal is meant to be: pixels by coordinates, and a cursor
  that counts characters.  A character is painted into the cell under the cursor; a
  newline or a full row moves on to the next row; past the last row all rows move up
  by one and the last one is blank.

  The code keeps the picture in one sequence of words.  It takes lines of `width`
  words when it clears and scrolls and lines of `pixels_per_sc` words when it
  prints, and it scrolls by pixel lines up to the bottom of the framebuffer, below
  the last row of characters.
-/
import ChronOS.Terminal.Terminal

set_option autoImplicit false

namespace ChronOS.Terminal

open ChronOS.Foundation

/-! ## The reference -/

/-- A grid of characters of `8 * charHeight` pixels on a screen of `width * height`. -/
structure Grid where
  width : Nat
  height : Nat
  charHeight : Nat
  glyph : Byte → Nat → Nat → Bool

def Grid.cols (g : Grid) : Nat := g.width / TERMINAL_CHAR_WIDTH

def Grid.rows (g : Grid) : Nat := g.height / g.charHeight

/-- What is on the screen, where the cursor is, and the current colours. -/
structure Screen where
  pixel : Nat → Nat → Pixel
  col : Nat
  row : Nat
  fg : Pixel
  bg : Pixel

namespace Screen

variable (g : Grid) (s : Screen)

/-- The glyph of `chr` in the cell under the cursor. -/
def paint (chr : Byte) : Screen :=
  { s with
    pixel := fun x y =>
      if x / TERMINAL_CHAR_WIDTH = s.col ∧ y / g.charHeight = s.row then
        if g.glyph chr (x % TERMINAL_CHAR_WIDTH) (y % g.charHeight) then s.fg else s.bg
      else s.pixel x y }

/-- Every row moves up by one, and the last row is blank. -/
def scroll : Screen :=
  { s with
    pixel := fun x y =>
      if y / g.charHeight + 1 < g.rows then s.pixel x (y + g.charHeight)
      else if y / g.charHeight + 1 = g.rows then s.bg
      else s.pixel x y }

theorem scroll_upper {x y : Nat} (h : y / g.charHeight + 1 < g.rows) :
    (s.scroll g).pixel x y = s.pixel x (y + g.charHeight) := if_pos h

theorem scroll_last {x y : Nat} (h : y / g.charHeight + 1 = g.rows) :
    (s.scroll g).pixel x y = s.bg :=
  (if_neg (by omega)).trans (if_pos h)

theorem scroll_below {x y : Nat} (h : g.rows < y / g.charHeight + 1) :
    (s.scroll g).pixel x y = s.pixel x y :=
  (if_neg (by omega)).trans (if_neg (by omega))

def nextRow : Screen :=
  if s.row + 1 < g.rows then { s with col := 0, row := s.row + 1 }
  else { s.scroll g with col := 0 }

def putc (chr : Byte) : Screen :=
  if chr = 0x0a then s.nextRow g
  else if s.col + 1 < g.cols then { s.paint g chr with col := s.col + 1 }
  else (s.paint g chr).nextRow g

def puts (string : List Byte) : Screen :=
  (string.takeWhile (· ≠ 0)).foldl (fun s chr => s.putc g chr) s

def clear : Screen := { s with pixel := fun _ _ => s.bg, col := 0, row := 0 }

end Screen

/-! ## Operations -/

/-- The operations of the terminal. -/
inductive Op where
  | clear
  | setFg (c : Fin 16)
  | setBg (c : Fin 16)
  | puts (string : List Byte)

def Op.exec (t : State) : Op → State
  | .clear => terminalClear t
  | .setFg c => terminalSetFgColorPalette c t
  | .setBg c => terminalSetBgColorPalette c t
  | .puts string => terminalPuts string t

/-- The same operation on the reference. -/
def Op.draw (g : Grid) (s : Screen) : Op → Screen
  | .clear => s.clear
  | .setFg c => { s with fg := palette c }
  | .setBg c => { s with bg := palette c }
  | .puts string => s.puts g string

def runOps (ops : List Op) (t : State) : State := ops.foldl Op.exec t

def drawOps (g : Grid) (ops : List Op) (s : Screen) : Screen := ops.foldl (Op.draw g) s

/-- The grid a framebuffer and a font give. -/
def gridOf (fb : Framebuffer) (font : Font) : Grid where
  width := fb.width.toNat
  height := fb.height.toNat
  charHeight := font.charsize.toNat
  glyph := glyphBit font

/-- The visible pixel at `(x, y)`. -/
def visible (t : State) (x y : Nat) : Pixel :=
  t.pixels (BitVec.ofNat 64 (x + y * t.framebuffer.pixelsPerSc.toNat))

/-- The reference screen that shows what is in the framebuffer when the terminal starts. -/
def screenOf (t : State) : Screen where
  pixel := visible t
  col := 0
  row := 0
  fg := t.fgColor
  bg := t.bgColor

/-- The framebuffer shows the reference screen. -/
def SamePicture (t : State) (s : Screen) : Prop :=
  ∀ x < t.framebuffer.width.toNat, ∀ y < t.framebuffer.height.toNat, visible t x y = s.pixel x y

/-- The geometries that are considered: a screen that holds a character, in scanlines that are at
least as long as the screen is wide. -/
structure Geometry (fb : Framebuffer) (font : Font) : Prop where
  stride : fb.width ≤ fb.pixelsPerSc
  width : TERMINAL_CHAR_WIDTH ≤ fb.width.toNat
  height : font.charsize.toNat ≤ fb.height.toNat
  charsize : 1 ≤ font.charsize.toNat

/-- The cursor fits in an `int`, and the indices in 32 bits, whether lines are taken to be `width`
or `pixels_per_sc` words long. -/
structure IndicesFit (fb : Framebuffer) : Prop where
  screen : fb.width.toNat * fb.height.toNat + TERMINAL_CHAR_WIDTH < 2 ^ 31
  lines : (fb.height.toNat - 1) * fb.pixelsPerSc.toNat < 2 ^ 32

/-- Clearing and scrolling take the framebuffer to have the same lines as printing. -/
def SameLines (fb : Framebuffer) : Prop := fb.pixelsPerSc = fb.width ∨ fb.height = 1

/-- The lines below the last row of characters have the current background colour. -/
def StripBlank (g : Grid) (t : State) : Prop :=
  ∀ x < g.width, ∀ y < g.height, g.rows ≤ y / g.charHeight → visible t x y = t.bgColor

/-- Printing `chr` moves past the last row. -/
def Scrolls (t : State) (chr : Byte) : Prop :=
  (chr = 0x0a ∨
    t.cursorX + BitVec.ofNat 32 TERMINAL_CHAR_WIDTH + BitVec.ofNat 32 TERMINAL_CHAR_WIDTH >
      t.framebuffer.width) ∧
  t.cursorY + t.charHeight + t.charHeight > t.framebuffer.height

/-- Characters that move past the last row are printed on a screen without padding, and while the
strip below the last row is blank. -/
def StringMeets (fb : Framebuffer) (font : Font) : List Byte → State → Prop
  | [], _ => True
  | chr :: string, t => (Scrolls t chr → SameLines fb ∧ StripBlank (gridOf fb font) t) ∧
      StringMeets fb font string (terminalPutc chr t)

def Op.Meets (fb : Framebuffer) (font : Font) (t : State) : Op → Prop
  | .clear => SameLines fb
  | .puts string => StringMeets fb font (string.takeWhile (· ≠ 0)) t
  | .setFg _ | .setBg _ => True

/-- Every operation of a run meets its condition in the state it starts in. -/
def AllMeet (fb : Framebuffer) (font : Font) : List Op → State → Prop
  | [], _ => True
  | op :: ops, t => op.Meets fb font t ∧ AllMeet fb font ops (op.exec t)

/-! ## Lines and indices -/

/-- A terminal whose geometry is a good one. -/
structure Ready (t : State) : Prop where
  geometry : Geometry t.framebuffer t.psf1Font
  fits : IndicesFit t.framebuffer
  charHeight : t.charHeight = t.psf1Font.charsize.setWidth 32

theorem Ready.congr {t t' : State} (h : Ready t) (hframebuffer : t'.framebuffer = t.framebuffer)
    (hfont : t'.psf1Font = t.psf1Font) (hheight : t'.charHeight = t.charHeight) : Ready t' := by
  obtain ⟨hgeometry, hfits, hchar⟩ := h
  rw [← hframebuffer] at hgeometry hfits
  rw [← hfont] at hgeometry hchar
  exact ⟨hgeometry, hfits, hheight.trans hchar⟩

section Indices

variable {w : Nat}

theorem line_lt {x x' y y' : Nat} (hx : x < w) (hy : y < y') : x + y * w < x' + y' * w := by
  have hle : (y + 1) * w ≤ y' * w := Nat.mul_le_mul_right w hy
  rw [Nat.add_mul, Nat.one_mul] at hle
  omega

theorem line_injective {x x' y y' : Nat} (hx : x < w) (hx' : x' < w)
    (h : x + y * w = x' + y' * w) : x = x' ∧ y = y' := by
  rcases Nat.lt_trichotomy y y' with hlt | rfl | hgt
  · exact absurd h (Nat.ne_of_lt (line_lt hx hlt))
  · exact ⟨Nat.add_right_cancel h, rfl⟩
  · exact absurd h (Nat.ne_of_gt (line_lt hx' hgt))

theorem line_bound {x y h : Nat} (hx : x < w) (hy : y < h) : x + y * w < w * h := by
  have hlt : x + y * w < 0 + h * w := line_lt hx hy
  rw [Nat.zero_add, Nat.mul_comm h w] at hlt
  exact hlt

theorem ofNat_injective {n i j : Nat} (hi : i < 2 ^ n) (hj : j < 2 ^ n)
    (h : BitVec.ofNat n i = BitVec.ofNat n j) : i = j := by
  have hnat := congrArg BitVec.toNat h
  rwa [BitVec.toNat_ofNat, BitVec.toNat_ofNat, Nat.mod_eq_of_lt hi, Nat.mod_eq_of_lt hj] at hnat

end Indices

theorem memset32_apply (buf : Word) (value : Pixel) {size : Nat} (hsize : size ≤ 2 ^ 64)
    (pixels : Word → Pixel) (i : Word) :
    memset32 buf value size pixels i = if (i - buf).toNat < size then value else pixels i := by
  by_cases hi : (i - buf).toNat < size
  · have hpair : (List.range size).Pairwise fun a b =>
        buf + BitVec.ofNat 64 a ≠ buf + BitVec.ofNat 64 b := by
      refine List.pairwise_lt_range.imp_of_mem fun {a b} ha hb hlt heq => ?_
      have ha := List.mem_range.mp ha
      have hb := List.mem_range.mp hb
      have := ofNat_injective (by omega) (by omega) ((BitVec.add_right_inj buf).mp heq)
      omega
    have hset : memset32 buf value size pixels (buf + BitVec.ofNat 64 (i - buf).toNat) = value :=
      writeAll_dst_const hpair (List.mem_range.mpr hi) pixels
    rw [add_offset] at hset
    rw [if_pos hi, hset]
  · rw [if_neg hi]
    refine writeAll_of_ne (fun k hk heq => hi ?_) pixels
    have hk := List.mem_range.mp hk
    rw [← heq, toNat_offset buf (by omega)]
    exact hk

section Lines

variable {t : State}

theorem SameLines.visible_eq (h : SameLines t.framebuffer) (x : Nat) {y : Nat}
    (hy : y < t.framebuffer.height.toNat) :
    visible t x y = t.pixels (BitVec.ofNat 64 (x + y * t.framebuffer.width.toNat)) := by
  unfold visible
  rcases h with hstride | hone
  · rw [hstride]
  · rw [hone] at hy
    have hzero : y = 0 := Nat.lt_one_iff.mp hy
    rw [hzero, Nat.zero_mul, Nat.zero_mul]

theorem Ready.toNat_charHeight (h : Ready t) :
    t.charHeight.toNat = t.psf1Font.charsize.toNat ∧
      t.charHeight.toInt.toNat = t.psf1Font.charsize.toNat := by
  have hlt := t.psf1Font.charsize.isLt
  have hnat : t.charHeight.toNat = t.psf1Font.charsize.toNat := by
    rw [h.charHeight, BitVec.toNat_setWidth]
    omega
  have hint := BitVec.toInt_eq_toNat_cond t.charHeight
  rw [if_pos (by omega)] at hint
  exact ⟨hnat, by omega⟩

theorem Ready.toNat_height_sub (h : Ready t) :
    (t.framebuffer.height - t.charHeight).toNat =
      t.framebuffer.height.toNat - t.psf1Font.charsize.toNat := by
  obtain ⟨hchar, -⟩ := h.toNat_charHeight
  have hle : t.charHeight ≤ t.framebuffer.height := by
    rw [BitVec.le_def, hchar]
    exact h.geometry.height
  rw [BitVec.toNat_sub_of_le hle, hchar]

/-- The bounds all index computations rest on. -/
theorem Ready.bounds (h : Ready t) :
    t.framebuffer.width.toNat * t.framebuffer.height.toNat < 2 ^ 31 ∧
      t.framebuffer.width.toNat + TERMINAL_CHAR_WIDTH < 2 ^ 31 ∧
      t.framebuffer.height.toNat < 2 ^ 28 := by
  have hbound := h.fits.screen
  have hw := h.geometry.width
  have hh := h.geometry.height
  have hc := h.geometry.charsize
  have hwide := Nat.mul_le_mul_left t.framebuffer.width.toNat (Nat.le_trans hc hh)
  have hhigh := Nat.mul_le_mul_right t.framebuffer.height.toNat hw
  unfold TERMINAL_CHAR_WIDTH at *
  omega

/-- Lines of `pixels_per_sc` words are at least as long, and their indices still fit. -/
theorem Ready.line_lt (h : Ready t) {y : Nat} (hy : y < t.framebuffer.height.toNat) :
    t.framebuffer.width.toNat ≤ t.framebuffer.pixelsPerSc.toNat ∧
      y * t.framebuffer.pixelsPerSc.toNat < 2 ^ 32 :=
  ⟨BitVec.le_def.mp h.geometry.stride, Nat.lt_of_le_of_lt
    (Nat.mul_le_mul_right _ (Nat.le_sub_one_of_lt hy)) h.fits.lines⟩

/-- Two pixels of the screen are in two words. -/
theorem Ready.index_injective (h : Ready t) {x x' y y' : Nat}
    (hx : x < t.framebuffer.width.toNat) (hy : y < t.framebuffer.height.toNat)
    (hx' : x' < t.framebuffer.width.toNat) (hy' : y' < t.framebuffer.height.toNat)
    (heq : BitVec.ofNat 64 (x + y * t.framebuffer.width.toNat) =
      BitVec.ofNat 64 (x' + y' * t.framebuffer.width.toNat)) : x = x' ∧ y = y' := by
  obtain ⟨hbound, -, -⟩ := h.bounds
  have hline := line_bound hx hy
  have hline' := line_bound hx' hy'
  exact line_injective hx hx' (ofNat_injective (by omega) (by omega) heq)

theorem visible_clear (h : Ready t) (hlines : SameLines t.framebuffer) {x y : Nat}
    (hx : x < t.framebuffer.width.toNat) (hy : y < t.framebuffer.height.toNat) :
    visible (terminalClear t) x y = t.bgColor := by
  obtain ⟨hbound, -, -⟩ := h.bounds
  have hline := line_bound hx hy
  have hsize : (t.framebuffer.width * t.framebuffer.height).toNat =
      t.framebuffer.width.toNat * t.framebuffer.height.toNat := by
    rw [BitVec.toNat_mul, Nat.mod_eq_of_lt (by omega)]
  refine (SameLines.visible_eq (t := terminalClear t) hlines x hy).trans ?_
  refine (memset32_apply _ _ (by rw [hsize]; omega) _ _).trans (if_pos ?_)
  rw [hsize, sub_zero, BitVec.toNat_ofNat]
  exact lt_of_le_of_lt (Nat.mod_le _ _) hline

theorem scrollIndex_eq (fb : Framebuffer) {x y : Nat} {u v : BitVec 32} (hu : u.toNat = x)
    (hv : v.toNat = y) (h : x + y * fb.width.toNat < 2 ^ 32) :
    scrollIndex fb u v = BitVec.ofNat 64 (x + y * fb.width.toNat) := by
  apply BitVec.eq_of_toNat_eq
  have hprod : (v * fb.width).toNat = y * fb.width.toNat := by
    rw [BitVec.toNat_mul, hv, Nat.mod_eq_of_lt (by omega)]
  rw [scrollIndex, BitVec.toNat_setWidth, BitVec.toNat_add, hprod, hu, BitVec.toNat_ofNat]
  omega

/-- The word `terminal_scroll` stores the pixel at `(x, y)` to. -/
theorem Ready.scrollIndex_dst (h : Ready t) {x y : Nat} (hx : x < t.framebuffer.width.toNat)
    (hy : y < t.framebuffer.height.toNat) :
    scrollIndex t.framebuffer (BitVec.ofNat 32 x) (BitVec.ofNat 32 y) =
      BitVec.ofNat 64 (x + y * t.framebuffer.width.toNat) := by
  obtain ⟨hbound, hwide, hhigh⟩ := h.bounds
  have hline := line_bound hx hy
  exact scrollIndex_eq _ (Nat.mod_eq_of_lt (by omega)) (Nat.mod_eq_of_lt (by omega)) (by omega)

/-- The word `terminal_scroll` reads the new pixel at `(x, y)` from. -/
theorem Ready.scrollIndex_src (h : Ready t) {x y : Nat} (hx : x < t.framebuffer.width.toNat)
    (hy : y + t.psf1Font.charsize.toNat < t.framebuffer.height.toNat) :
    scrollIndex t.framebuffer (BitVec.ofNat 32 x) (BitVec.ofNat 32 y + t.charHeight) =
      BitVec.ofNat 64 (x + (y + t.psf1Font.charsize.toNat) * t.framebuffer.width.toNat) := by
  obtain ⟨hbound, hwide, hhigh⟩ := h.bounds
  obtain ⟨hchar, -⟩ := h.toNat_charHeight
  have hline := line_bound hx hy
  refine scrollIndex_eq _ (Nat.mod_eq_of_lt (by omega)) ?_ (by omega)
  rw [BitVec.toNat_add, hchar, BitVec.toNat_ofNat]
  omega

theorem scroll_moved (h : Ready t) (hlines : SameLines t.framebuffer) {x y : Nat}
    (hx : x < t.framebuffer.width.toNat) (hy : y < t.framebuffer.height.toNat) :
    writeAll
      (fun c : Nat × Nat =>
        scrollIndex t.framebuffer (BitVec.ofNat 32 c.1) (BitVec.ofNat 32 c.2))
      (fun c pixels => pixels (scrollIndex t.framebuffer (BitVec.ofNat 32 c.1)
        (BitVec.ofNat 32 c.2 + t.charHeight)))
      (rowMajor (t.framebuffer.height - t.charHeight).toNat t.framebuffer.width.toNat) t.pixels
      (BitVec.ofNat 64 (x + y * t.framebuffer.width.toNat)) =
    if y + t.psf1Font.charsize.toNat < t.framebuffer.height.toNat then
      visible t x (y + t.psf1Font.charsize.toNat)
    else visible t x y := by
  have hc := h.geometry.charsize
  have hmem : ∀ c ∈ rowMajor (t.framebuffer.height - t.charHeight).toNat
      t.framebuffer.width.toNat, c.1 < t.framebuffer.width.toNat ∧
        c.2 + t.psf1Font.charsize.toNat < t.framebuffer.height.toNat := by
    intro c hcell
    rw [h.toNat_height_sub] at hcell
    obtain ⟨hcx, hcy⟩ := mem_rowMajor.mp hcell
    exact ⟨hcx, by omega⟩
  by_cases hmove : y + t.psf1Font.charsize.toNat < t.framebuffer.height.toNat
  · have hcell : (x, y) ∈ rowMajor (t.framebuffer.height - t.charHeight).toNat
        t.framebuffer.width.toNat := by
      rw [h.toNat_height_sub]
      exact mem_rowMajor.mpr ⟨hx, by omega⟩
    rw [if_pos hmove, hlines.visible_eq x hmove, ← h.scrollIndex_dst hx hy,
      ← h.scrollIndex_src hx hmove]
    refine writeAll_dst ((pairwise_rowMajor _ _).imp_of_mem fun {a b} ha hb hlt => ?_) hcell _
    obtain ⟨hax, hay⟩ := hmem a ha
    obtain ⟨hbx, hby⟩ := hmem b hb
    -- no cell is read after it was stored to: `b` reads from a line below every earlier one
    refine ⟨fun heq => ?_, fun cells v => Function.update_of_ne (fun heq => ?_) ..⟩
    · rw [h.scrollIndex_dst hax (by omega), h.scrollIndex_dst hbx (by omega)] at heq
      obtain ⟨hxe, hye⟩ := h.index_injective hax (by omega) hbx (by omega) heq
      omega
    · rw [h.scrollIndex_src hbx hby, h.scrollIndex_dst hax (by omega)] at heq
      obtain ⟨-, hye⟩ := h.index_injective hbx hby hax (by omega) heq
      omega
  · rw [if_neg hmove, hlines.visible_eq x hy]
    refine writeAll_of_ne (fun c hcell heq => ?_) _
    obtain ⟨hcx, hcy⟩ := hmem c hcell
    rw [h.scrollIndex_dst hcx (by omega)] at heq
    obtain ⟨-, hye⟩ := h.index_injective hcx (by omega) hx hy heq
    omega

/-- Where the words that `terminal_scroll` clears begin and end. -/
theorem scroll_cleared (h : Ready t) {x y : Nat} (hx : x < t.framebuffer.width.toNat)
    (hy : y < t.framebuffer.height.toNat) :
    (BitVec.ofNat 64 (x + y * t.framebuffer.width.toNat) -
        (t.framebuffer.width * (t.framebuffer.height - t.charHeight)).setWidth 64).toNat <
      (t.framebuffer.width * t.charHeight).toNat ↔
    ¬ y + t.psf1Font.charsize.toNat < t.framebuffer.height.toNat := by
  obtain ⟨hbound, hwide, hhigh⟩ := h.bounds
  obtain ⟨hchar, -⟩ := h.toNat_charHeight
  have hfits := h.geometry.height
  obtain ⟨lines, hlines⟩ := Nat.exists_eq_add_of_le hfits
  have hsplit : t.framebuffer.width.toNat * t.framebuffer.height.toNat =
      t.framebuffer.width.toNat * t.psf1Font.charsize.toNat +
        t.framebuffer.width.toNat * lines := by
    rw [hlines, Nat.mul_add]
  have hsize : (t.framebuffer.width * t.charHeight).toNat =
      t.framebuffer.width.toNat * t.psf1Font.charsize.toNat := by
    rw [BitVec.toNat_mul, hchar, Nat.mod_eq_of_lt (by omega)]
  have hrest : (t.framebuffer.height - t.charHeight).toNat = lines := by
    rw [h.toNat_height_sub, hlines, Nat.add_sub_cancel_left]
  have hbase : ((t.framebuffer.width * (t.framebuffer.height - t.charHeight)).setWidth 64 :
      Word).toNat = t.framebuffer.width.toNat * lines := by
    rw [BitVec.toNat_setWidth, BitVec.toNat_mul, hrest]
    omega
  have hline := line_bound hx hy
  rw [BitVec.toNat_sub, hsize, hbase, BitVec.toNat_ofNat]
  constructor
  · intro hlt hmove
    have habove := line_bound hx (by omega : y < lines)
    omega
  · intro hstay
    have hbelow := Nat.mul_le_mul_left t.framebuffer.width.toNat (by omega : lines ≤ y)
    rw [Nat.mul_comm _ y] at hbelow
    omega

/-- The picture after `terminal_scroll`: everything moves up by the height of a character, and the
lines at the bottom are cleared. -/
theorem visible_scroll (h : Ready t) (hlines : SameLines t.framebuffer) {x y : Nat}
    (hx : x < t.framebuffer.width.toNat) (hy : y < t.framebuffer.height.toNat) :
    visible (terminalScroll t) x y =
      if y + t.psf1Font.charsize.toNat < t.framebuffer.height.toNat then
        visible t x (y + t.psf1Font.charsize.toNat)
      else t.bgColor := by
  have hcleared := scroll_cleared h hx hy
  have hmoved := scroll_moved h hlines hx hy
  have hsize := (t.framebuffer.width * t.charHeight).isLt
  refine (SameLines.visible_eq (t := terminalScroll t) hlines x hy).trans ?_
  refine (memset32_apply _ _ (by omega) _ _).trans ?_
  by_cases hmove : y + t.psf1Font.charsize.toNat < t.framebuffer.height.toNat
  · rw [if_pos hmove] at hmoved ⊢
    exact (if_neg fun hlt => hcleared.mp hlt hmove).trans hmoved
  · rw [if_neg hmove]
    exact if_pos (hcleared.mpr hmove)

theorem pixelIndex_eq (h : Ready t) {x y : Nat} {u v : BitVec 32} (hu : u.toNat = x)
    (hv : v.toNat = y) (hx : x < t.framebuffer.width.toNat)
    (hy : y < t.framebuffer.height.toNat) :
    pixelIndex t.framebuffer u v =
      BitVec.ofNat 64 (x + y * t.framebuffer.pixelsPerSc.toNat) := by
  obtain ⟨-, hwide, -⟩ := h.bounds
  obtain ⟨-, hline⟩ := h.line_lt hy
  have hsign : (u.signExtend 64).toNat = x := (toNat_signExtend_of_lt (by omega)).trans hu
  have hprod : (v * t.framebuffer.pixelsPerSc).toNat = y * t.framebuffer.pixelsPerSc.toNat := by
    rw [BitVec.toNat_mul, hv, Nat.mod_eq_of_lt hline]
  apply BitVec.eq_of_toNat_eq
  rw [pixelIndex, BitVec.toNat_add, hsign, BitVec.toNat_setWidth, hprod, BitVec.toNat_ofNat]
  omega

theorem visible_drawGlyph (h : Ready t) (chr : Byte) {col row : Nat}
    (hcol : t.cursorX.toNat = TERMINAL_CHAR_WIDTH * col)
    (hcolFits : TERMINAL_CHAR_WIDTH * col + TERMINAL_CHAR_WIDTH ≤ t.framebuffer.width.toNat)
    (hrow : t.cursorY.toNat = t.psf1Font.charsize.toNat * row)
    (hrowFits : t.psf1Font.charsize.toNat * row + t.psf1Font.charsize.toNat ≤
      t.framebuffer.height.toNat)
    {x y : Nat} (hx : x < t.framebuffer.width.toNat) (hy : y < t.framebuffer.height.toNat) :
    visible (drawGlyph chr t) x y =
      if x / TERMINAL_CHAR_WIDTH = col ∧ y / t.psf1Font.charsize.toNat = row then
        if glyphBit t.psf1Font chr (x % TERMINAL_CHAR_WIDTH) (y % t.psf1Font.charsize.toNat)
        then t.fgColor else t.bgColor
      else visible t x y := by
  obtain ⟨-, hwide, hhigh⟩ := h.bounds
  obtain ⟨-, hcount⟩ := h.toNat_charHeight
  have hc := h.geometry.charsize
  have hmem : ∀ c : Nat × Nat, c ∈ rowMajor t.charHeight.toInt.toNat TERMINAL_CHAR_WIDTH ↔
      c.1 < TERMINAL_CHAR_WIDTH ∧ c.2 < t.psf1Font.charsize.toNat := by
    intro c
    rw [mem_rowMajor, hcount]
  have hdst : ∀ c : Nat × Nat, c.1 < TERMINAL_CHAR_WIDTH → c.2 < t.psf1Font.charsize.toNat →
      pixelIndex t.framebuffer (t.cursorX + BitVec.ofNat 32 c.1)
          (t.cursorY + BitVec.ofNat 32 c.2) =
        BitVec.ofNat 64 (TERMINAL_CHAR_WIDTH * col + c.1 +
          (t.psf1Font.charsize.toNat * row + c.2) * t.framebuffer.pixelsPerSc.toNat) := by
    intro c hcx hcy
    refine pixelIndex_eq h ?_ ?_ (by omega) (by omega)
    · rw [BitVec.toNat_add, hcol, BitVec.toNat_ofNat]
      omega
    · rw [BitVec.toNat_add, hrow, BitVec.toNat_ofNat]
      omega
  -- cells of the loop and pixels of the screen correspond one to one
  have hinj : ∀ c : Nat × Nat, c.1 < TERMINAL_CHAR_WIDTH → c.2 < t.psf1Font.charsize.toNat →
      ∀ x' < t.framebuffer.width.toNat, ∀ y' < t.framebuffer.height.toNat,
      pixelIndex t.framebuffer (t.cursorX + BitVec.ofNat 32 c.1)
          (t.cursorY + BitVec.ofNat 32 c.2) =
        BitVec.ofNat 64 (x' + y' * t.framebuffer.pixelsPerSc.toNat) →
      x' = TERMINAL_CHAR_WIDTH * col + c.1 ∧ y' = t.psf1Font.charsize.toNat * row + c.2 := by
    intro c hcx hcy x' hx' y' hy' heq
    obtain ⟨hlong, hline⟩ := h.line_lt (show t.psf1Font.charsize.toNat * row + c.2 < _ by omega)
    obtain ⟨-, hline'⟩ := h.line_lt hy'
    rw [hdst c hcx hcy] at heq
    exact line_injective (by omega) (by omega)
      (ofNat_injective (by omega) (by omega) heq.symm)
  have hpos : 0 < TERMINAL_CHAR_WIDTH := by decide
  by_cases hcell : x / TERMINAL_CHAR_WIDTH = col ∧ y / t.psf1Font.charsize.toNat = row
  · have hcx := Nat.mod_lt x hpos
    have hcy := Nat.mod_lt y hc
    have hxe := Nat.div_add_mod x TERMINAL_CHAR_WIDTH
    have hye := Nat.div_add_mod y t.psf1Font.charsize.toNat
    rw [hcell.1] at hxe
    rw [hcell.2] at hye
    have hindex := hdst (x % TERMINAL_CHAR_WIDTH, y % t.psf1Font.charsize.toNat) hcx hcy
    rw [hxe, hye] at hindex
    rw [if_pos hcell]
    show writeAll _ _ _ t.pixels (BitVec.ofNat 64 (x + y * t.framebuffer.pixelsPerSc.toNat)) = _
    rw [← hindex]
    refine writeAll_dst_const ((pairwise_rowMajor _ _).imp_of_mem fun {a b} ha hb hlt heq => ?_)
      ((hmem (x % TERMINAL_CHAR_WIDTH, y % t.psf1Font.charsize.toNat)).mpr ⟨hcx, hcy⟩) _
    obtain ⟨hax, hay⟩ := (hmem a).mp ha
    obtain ⟨hbx, hby⟩ := (hmem b).mp hb
    rw [hdst b hbx hby] at heq
    have hsame := hinj a hax hay _ (by omega) _ (by omega) heq
    omega
  · rw [if_neg hcell]
    refine writeAll_of_ne (fun c hmemc heq => hcell ?_) _
    obtain ⟨hcx, hcy⟩ := (hmem c).mp hmemc
    obtain ⟨rfl, rfl⟩ := hinj c hcx hcy x hx y hy heq
    rw [Nat.mul_add_div hpos, Nat.div_eq_of_lt hcx, Nat.mul_add_div hc, Nat.div_eq_of_lt hcy]
    exact ⟨rfl, rfl⟩

end Lines

/-! ## The refinement -/

section Refinement

variable {fb : Framebuffer} {font : Font} {t : State} {s : Screen}

/-- The terminal, on the framebuffer `fb` with the font `font`, shows the screen `s`. -/
structure Shows (fb : Framebuffer) (font : Font) (t : State) (s : Screen) : Prop where
  framebuffer : t.framebuffer = fb
  psf1Font : t.psf1Font = font
  ready : Ready t
  picture : SamePicture t s
  col : t.cursorX.toNat = TERMINAL_CHAR_WIDTH * s.col
  colLt : s.col < (gridOf fb font).cols
  row : t.cursorY.toNat = font.charsize.toNat * s.row
  rowLt : s.row < (gridOf fb font).rows
  fg : t.fgColor = s.fg
  bg : t.bgColor = s.bg

theorem row_fits {g : Grid} (hc : 0 < g.charHeight) {row : Nat} :
    row < g.rows ↔ g.charHeight * row + g.charHeight ≤ g.height := by
  rw [Grid.rows, ← Nat.succ_le_iff, Nat.le_div_iff_mul_le hc, Nat.succ_mul, Nat.mul_comm]

theorem col_fits {g : Grid} {col : Nat} :
    col < g.cols ↔ TERMINAL_CHAR_WIDTH * col + TERMINAL_CHAR_WIDTH ≤ g.width := by
  unfold Grid.cols TERMINAL_CHAR_WIDTH
  omega

theorem Ready.row_lt (h : Ready t) (row : Nat) :
    row < (gridOf t.framebuffer t.psf1Font).rows ↔
      t.psf1Font.charsize.toNat * row + t.psf1Font.charsize.toNat ≤
        t.framebuffer.height.toNat := by
  have hc : 0 < (gridOf t.framebuffer t.psf1Font).charHeight := h.geometry.charsize
  exact row_fits hc

theorem Shows.row_on_screen (h : Shows fb font t s) :
    font.charsize.toNat * s.row + font.charsize.toNat ≤ fb.height.toNat := by
  obtain ⟨rfl, rfl, hready, -, -, -, -, hrowLt, -, -⟩ := h
  exact (hready.row_lt s.row).mp hrowLt

theorem Shows.col_on_screen (h : Shows fb font t s) :
    TERMINAL_CHAR_WIDTH * s.col + TERMINAL_CHAR_WIDTH ≤ fb.width.toNat :=
  col_fits.mp h.colLt

theorem Shows.cursorY_add (h : Shows fb font t s) :
    (t.cursorY + t.charHeight).toNat = font.charsize.toNat * (s.row + 1) := by
  have hfits := h.row_on_screen
  obtain ⟨rfl, rfl, hready, -, -, -, hrow, -, -, -⟩ := h
  obtain ⟨-, -, hhigh⟩ := hready.bounds
  obtain ⟨hchar, -⟩ := hready.toNat_charHeight
  rw [BitVec.toNat_add, hrow, hchar, Nat.mul_add, Nat.mul_one]
  omega

/-- The comparison before a scroll tells whether there is a next row. -/
theorem Shows.past_last_row (h : Shows fb font t s) :
    t.cursorY + t.charHeight + t.charHeight > t.framebuffer.height ↔
      ¬ s.row + 1 < (gridOf fb font).rows := by
  have hfits := h.row_on_screen
  have hy := h.cursorY_add
  obtain ⟨rfl, rfl, hready, -, -, -, hrow, -, -, -⟩ := h
  obtain ⟨-, -, hhigh⟩ := hready.bounds
  obtain ⟨hchar, -⟩ := hready.toNat_charHeight
  have hclt := t.psf1Font.charsize.isLt
  have hy' : (t.cursorY + t.charHeight + t.charHeight).toNat =
      t.psf1Font.charsize.toNat * (s.row + 1) + t.psf1Font.charsize.toNat := by
    rw [BitVec.toNat_add, hy, hchar, Nat.mul_add, Nat.mul_one]
    omega
  rw [hready.row_lt, gt_iff_lt, BitVec.lt_def, hy', Nat.not_le]

theorem Shows.cursorX_add (h : Shows fb font t s) :
    (t.cursorX + BitVec.ofNat 32 TERMINAL_CHAR_WIDTH).toNat =
      TERMINAL_CHAR_WIDTH * (s.col + 1) := by
  have hfits := h.col_on_screen
  obtain ⟨rfl, rfl, hready, -, hcol, -, -, -, -, -⟩ := h
  obtain ⟨-, hwide, -⟩ := hready.bounds
  rw [BitVec.toNat_add, hcol, BitVec.toNat_ofNat, Nat.mul_add, Nat.mul_one]
  omega

/-- The comparison before a new line tells whether there is a next column. -/
theorem Shows.past_last_col (h : Shows fb font t s) :
    t.cursorX + BitVec.ofNat 32 TERMINAL_CHAR_WIDTH + BitVec.ofNat 32 TERMINAL_CHAR_WIDTH >
        t.framebuffer.width ↔
      ¬ s.col + 1 < (gridOf fb font).cols := by
  have hfits := h.col_on_screen
  have hx := h.cursorX_add
  obtain ⟨rfl, rfl, hready, -, hcol, -, -, -, -, -⟩ := h
  obtain ⟨-, hwide, -⟩ := hready.bounds
  have hx' : (t.cursorX + BitVec.ofNat 32 TERMINAL_CHAR_WIDTH +
      BitVec.ofNat 32 TERMINAL_CHAR_WIDTH).toNat =
        TERMINAL_CHAR_WIDTH * (s.col + 1) + TERMINAL_CHAR_WIDTH := by
    rw [BitVec.toNat_add, hx, BitVec.toNat_ofNat, Nat.mul_add, Nat.mul_one]
    omega
  rw [col_fits, gt_iff_lt, BitVec.lt_def, hx', Nat.not_le]
  rfl

/-- With a blank strip below the last row, `terminal_scroll` moves the rows of the screen. -/
theorem scroll_picture (h : Ready t) (hpicture : SamePicture t s) (hbg : t.bgColor = s.bg)
    (hmeets : SameLines t.framebuffer ∧ StripBlank (gridOf t.framebuffer t.psf1Font) t) :
    SamePicture (terminalScroll t) (s.scroll (gridOf t.framebuffer t.psf1Font)) := by
  obtain ⟨hlines, hstrip⟩ := hmeets
  intro x hx y hy
  have hc : 0 < t.psf1Font.charsize.toNat := h.geometry.charsize
  have hdiv := Nat.div_add_mod y t.psf1Font.charsize.toNat
  have hmod := Nat.mod_lt y hc
  have hnext : (y + t.psf1Font.charsize.toNat) / t.psf1Font.charsize.toNat =
      y / t.psf1Font.charsize.toNat + 1 := Nat.add_div_right y hc
  have hrowY := h.row_lt (y / t.psf1Font.charsize.toNat)
  have hrowNext := h.row_lt (y / t.psf1Font.charsize.toNat + 1)
  rw [Nat.mul_add, Nat.mul_one] at hrowNext
  rw [visible_scroll h hlines hx hy]
  rcases Nat.lt_trichotomy (y / t.psf1Font.charsize.toNat + 1)
    (gridOf t.framebuffer t.psf1Font).rows with hlt | heq | hgt
  · have hle := hrowNext.mp hlt
    have hmove : y + t.psf1Font.charsize.toNat < t.framebuffer.height.toNat := by omega
    rw [Screen.scroll_upper _ s hlt, if_pos hmove]
    exact hpicture x hx _ hmove
  · rw [Screen.scroll_last _ s heq]
    split
    · next hmove =>
      have hstripRow : (gridOf t.framebuffer t.psf1Font).rows ≤
          (y + t.psf1Font.charsize.toNat) / t.psf1Font.charsize.toNat := by
        rw [hnext]
        exact heq.ge
      exact (hstrip x hx _ hmove hstripRow).trans hbg
    · exact hbg
  · have hbelow : ¬ y / t.psf1Font.charsize.toNat < (gridOf t.framebuffer t.psf1Font).rows := by
      omega
    have hstay : ¬ y + t.psf1Font.charsize.toNat < t.framebuffer.height.toNat := by
      rw [hrowY] at hbelow
      omega
    rw [Screen.scroll_below _ s hgt, if_neg hstay, ← hpicture x hx y hy]
    exact (hstrip x hx y hy (Nat.le_of_not_lt hbelow)).symm

theorem Shows.nextRow (h : Shows fb font t s)
    (hmeets : t.cursorY + t.charHeight + t.charHeight > t.framebuffer.height →
      SameLines fb ∧ StripBlank (gridOf fb font) t) :
    Shows fb font (scrollIfNeeded { t with cursorX := 0, cursorY := t.cursorY + t.charHeight })
      (s.nextRow (gridOf fb font)) := by
  have hy := h.cursorY_add
  have hscroll := h.past_last_row
  obtain ⟨rfl, rfl, hready, hpicture, hcol, hcolLt, hrow, hrowLt, hfg, hbg⟩ := h
  have hcols : 0 < (gridOf t.framebuffer t.psf1Font).cols := Nat.zero_lt_of_lt hcolLt
  unfold scrollIfNeeded Screen.nextRow
  by_cases hlast : s.row + 1 < (gridOf t.framebuffer t.psf1Font).rows
  · rw [if_neg fun hgt => hscroll.mp hgt hlast, if_pos hlast]
    exact ⟨rfl, rfl, hready.congr rfl rfl rfl, hpicture, rfl, hcols, hy, hlast, hfg, hbg⟩
  · rw [if_pos (hscroll.mpr hlast), if_neg hlast]
    have hblank := hmeets (hscroll.mpr hlast)
    have hready' : Ready { t with cursorX := 0, cursorY := t.cursorY + t.charHeight } :=
      hready.congr rfl rfl rfl
    refine ⟨rfl, rfl, hready.congr rfl rfl rfl, scroll_picture hready' hpicture hbg hblank, rfl,
      hcols, ?_, hrowLt, hfg, hbg⟩
    show (t.cursorY + t.charHeight - t.charHeight).toNat = _
    rw [BitVec.add_sub_cancel]
    exact hrow

/-- What the loops of `terminal_putc` paint, by the cell of the grid the cursor is in. -/
theorem Shows.visible_glyph (h : Shows fb font t s) (chr : Byte) {x y : Nat}
    (hx : x < fb.width.toNat) (hy : y < fb.height.toNat) :
    visible (drawGlyph chr t) x y =
      if x / TERMINAL_CHAR_WIDTH = s.col ∧ y / font.charsize.toNat = s.row then
        if glyphBit font chr (x % TERMINAL_CHAR_WIDTH) (y % font.charsize.toNat)
        then t.fgColor else t.bgColor
      else visible t x y := by
  have hcolFits := h.col_on_screen
  have hrowFits := h.row_on_screen
  obtain ⟨rfl, rfl, hready, -, hcol, -, hrow, -, -, -⟩ := h
  exact visible_drawGlyph hready chr hcol hcolFits hrow hrowFits hx hy

theorem Shows.paint (h : Shows fb font t s) (chr : Byte) :
    Shows fb font (drawGlyph chr t) (s.paint (gridOf fb font) chr) := by
  refine ⟨h.framebuffer, h.psf1Font, h.ready.congr rfl rfl rfl, fun x hx y hy => ?_, h.col,
    h.colLt, h.row, h.rowLt, h.fg, h.bg⟩
  have hglyph := h.visible_glyph chr (h.framebuffer ▸ hx) (h.framebuffer ▸ hy)
  rw [hglyph, h.picture x hx y hy, h.fg, h.bg]
  rfl

/-- Painting a glyph leaves the strip below the last row alone. -/
theorem Shows.strip_paint (h : Shows fb font t s) (chr : Byte)
    (hstrip : StripBlank (gridOf fb font) t) : StripBlank (gridOf fb font) (drawGlyph chr t) := by
  intro x hx y hy hbelow
  have hcell : ¬ (x / TERMINAL_CHAR_WIDTH = s.col ∧ y / font.charsize.toNat = s.row) := by
    rintro ⟨-, hrow⟩
    exact absurd h.rowLt (hrow ▸ Nat.not_lt_of_le hbelow)
  rw [h.visible_glyph chr hx hy, if_neg hcell]
  exact hstrip x hx y hy hbelow

theorem terminalPutc_printable (t : State) {chr : Byte} (h : chr ≠ 0x0a) :
    terminalPutc chr t =
      if t.cursorX + BitVec.ofNat 32 TERMINAL_CHAR_WIDTH + BitVec.ofNat 32 TERMINAL_CHAR_WIDTH >
          t.framebuffer.width then
        scrollIfNeeded { drawGlyph chr t with
          cursorX := 0, cursorY := (drawGlyph chr t).cursorY + (drawGlyph chr t).charHeight }
      else
        scrollIfNeeded { drawGlyph chr t with
          cursorX := t.cursorX + BitVec.ofNat 32 TERMINAL_CHAR_WIDTH } := by
  unfold terminalPutc
  rw [if_neg h]
  exact apply_ite scrollIfNeeded _ _ _

/-- One character. -/
theorem Shows.putc (h : Shows fb font t s) (chr : Byte)
    (hmeets : Scrolls t chr → SameLines fb ∧ StripBlank (gridOf fb font) t) :
    Shows fb font (terminalPutc chr t) (s.putc (gridOf fb font) chr) := by
  unfold Screen.putc
  by_cases hnewline : chr = 0x0a
  · rw [terminalPutc, if_pos hnewline, if_pos hnewline]
    exact h.nextRow fun hgt => hmeets ⟨Or.inl hnewline, hgt⟩
  · rw [terminalPutc_printable t hnewline, if_neg hnewline]
    have hpaint := h.paint chr
    have hstrip := h.strip_paint chr
    have hwrap := h.past_last_col
    by_cases hlast : s.col + 1 < (gridOf fb font).cols
    · have hrowFits := h.row_on_screen
      have hx := h.cursorX_add
      have hy := h.cursorY_add
      have hstay : ¬ t.cursorY + t.charHeight > t.framebuffer.height := by
        rw [gt_iff_lt, BitVec.lt_def, hy, h.framebuffer, Nat.mul_add, Nat.mul_one]
        exact Nat.not_lt_of_le hrowFits
      have hkeep : scrollIfNeeded { drawGlyph chr t with
          cursorX := t.cursorX + BitVec.ofNat 32 TERMINAL_CHAR_WIDTH } =
            { drawGlyph chr t with
              cursorX := t.cursorX + BitVec.ofNat 32 TERMINAL_CHAR_WIDTH } := if_neg hstay
      rw [if_neg fun hgt => hwrap.mp hgt hlast, if_pos hlast, hkeep]
      exact ⟨hpaint.framebuffer, hpaint.psf1Font, hpaint.ready.congr rfl rfl rfl, hpaint.picture,
        hx, hlast, hpaint.row, hpaint.rowLt, hpaint.fg, hpaint.bg⟩
    · have hgt := hwrap.mpr hlast
      rw [if_neg hlast, if_pos hgt]
      exact hpaint.nextRow fun hgt' => (hmeets ⟨Or.inr hgt, hgt'⟩).imp_right hstrip

theorem Shows.putcs (string : List Byte) {t : State} {s : Screen} (h : Shows fb font t s)
    (hmeets : StringMeets fb font string t) :
    Shows fb font (string.foldl (fun t chr => terminalPutc chr t) t)
      (string.foldl (fun s chr => s.putc (gridOf fb font) chr) s) := by
  induction string generalizing t s with
  | nil => exact h
  | cons chr string ih => exact ih (h.putc chr hmeets.1) hmeets.2

/-- One operation. -/
theorem Shows.exec (h : Shows fb font t s) (op : Op) (hmeets : op.Meets fb font t) :
    Shows fb font (op.exec t) (op.draw (gridOf fb font) s) := by
  cases op with
  | clear =>
    obtain ⟨rfl, rfl, hready, -, -, hcolLt, -, hrowLt, hfg, hbg⟩ := h
    refine ⟨rfl, rfl, hready.congr rfl rfl rfl, fun x hx y hy => ?_, rfl,
      Nat.zero_lt_of_lt hcolLt, rfl, Nat.zero_lt_of_lt hrowLt, hfg, hbg⟩
    exact (visible_clear hready hmeets hx hy).trans hbg
  | setFg c =>
    exact ⟨h.framebuffer, h.psf1Font, h.ready.congr rfl rfl rfl, h.picture, h.col, h.colLt, h.row,
      h.rowLt, rfl, h.bg⟩
  | setBg c =>
    exact ⟨h.framebuffer, h.psf1Font, h.ready.congr rfl rfl rfl, h.picture, h.col, h.colLt, h.row,
      h.rowLt, h.fg, rfl⟩
  | puts string => exact h.putcs _ hmeets

theorem Shows.runOps (ops : List Op) {t : State} {s : Screen} (h : Shows fb font t s)
    (hmeets : AllMeet fb font ops t) :
    Shows fb font (runOps ops t) (drawOps (gridOf fb font) ops s) := by
  induction ops generalizing t s with
  | nil => exact h
  | cons op ops ih => exact ih (h.exec op hmeets.1) hmeets.2

/-- Without padding and without a strip below the last row every run meets the conditions. -/
theorem allMeet_of_dvd (hlines : SameLines fb) (hc : 0 < font.charsize.toNat)
    (hdvd : font.charsize.toNat ∣ fb.height.toNat) (ops : List Op) (t : State) :
    AllMeet fb font ops t := by
  have hstrip : ∀ t, StripBlank (gridOf fb font) t := by
    intro t x _ y hy hbelow
    have hlt : y / font.charsize.toNat < fb.height.toNat / font.charsize.toNat := by
      rwa [Nat.div_lt_iff_lt_mul hc, Nat.div_mul_cancel hdvd]
    exact absurd hlt (Nat.not_lt_of_le hbelow)
  have hstring : ∀ string t, StringMeets fb font string t := by
    intro string
    induction string with
    | nil => exact fun _ => trivial
    | cons chr string ih => exact fun t => ⟨fun _ => ⟨hlines, hstrip t⟩, ih _⟩
  induction ops generalizing t with
  | nil => trivial
  | cons op ops ih =>
    refine ⟨?_, ih _⟩
    cases op with
    | puts string => exact hstring _ t
    | clear => exact hlines
    | setFg c => trivial
    | setBg c => trivial

/-- The framebuffer shows the reference screen after every run in which the screen is cleared and
scrolled only when its scanlines have no padding (or there is only one), and no character is
printed past the last row while there is something in the strip below it. -/
theorem terminal_shows_grid (hgeometry : Geometry fb font) (hfits : IndicesFit fb)
    (pixels : Word → Pixel) (ops : List Op)
    (hmeets : AllMeet fb font ops (terminalInit fb font pixels)) :
    SamePicture (Terminal.runOps ops (terminalInit fb font pixels))
      (drawOps (gridOf fb font) ops (screenOf (terminalInit fb font pixels))) := by
  have hstart : Shows fb font (terminalInit fb font pixels)
      (screenOf (terminalInit fb font pixels)) := by
    refine ⟨rfl, rfl, ⟨hgeometry, hfits, rfl⟩, fun _ _ _ _ => rfl, rfl, ?_, rfl, ?_, rfl, rfl⟩
    · exact col_fits.mpr hgeometry.width
    · have hpos : 0 < (gridOf fb font).charHeight := hgeometry.charsize
      exact (row_fits hpos).mpr (by simpa [screenOf, gridOf] using hgeometry.height)
  exact (hstart.runOps ops hmeets).picture

/-- A font of blank lines but for the leftmost pixel. -/
def barFont (charsize : Byte) : Font := ⟨charsize, fun _ => 0b10000000⟩

/-- A scanline longer than the screen is wide, or a height that is no multiple of the character
height, and the picture is wrong: after `terminal_clear` a pixel of the second line keeps its
colour, and after a newline in the last row the strip below it is on the screen. -/
theorem padding_and_strip_show :
    (Geometry ⟨8, 2, 9⟩ (barFont 1) ∧
      ¬ SamePicture (runOps [.clear] (terminalInit ⟨8, 2, 9⟩ (barFont 1) fun _ => 0xFFFFFF))
        (drawOps (gridOf ⟨8, 2, 9⟩ (barFont 1)) [.clear]
          (screenOf (terminalInit ⟨8, 2, 9⟩ (barFont 1) fun _ => 0xFFFFFF)))) ∧
    (Geometry ⟨8, 3, 8⟩ (barFont 2) ∧
      ¬ SamePicture
        (runOps [.puts [0x0a]] (terminalInit ⟨8, 3, 8⟩ (barFont 2) fun _ => 0xFFFFFF))
        (drawOps (gridOf ⟨8, 3, 8⟩ (barFont 2)) [.puts [0x0a]]
          (screenOf (terminalInit ⟨8, 3, 8⟩ (barFont 2) fun _ => 0xFFFFFF)))) := by
  refine ⟨⟨⟨by decide, by decide, by decide, by decide⟩, fun h => ?_⟩,
    ⟨⟨by decide, by decide, by decide, by decide⟩, fun h => ?_⟩⟩
  · exact absurd (h 7 (by decide) 1 (by decide)) (by decide +kernel)
  · exact absurd (h 0 (by decide) 0 (by decide)) (by decide +kernel)

/-- Three characters on a screen of two rows and one column: the last two are left, in the colours
they were printed in. -/
theorem three_characters_scroll :
    visible (runOps [.setBg 4, .clear, .puts [0x41, 0x42], .setFg 9, .puts [0x43]]
      (terminalInit ⟨8, 4, 8⟩ (barFont 2) fun _ => 0xFFFFFF)) 0 1 =
    (drawOps (gridOf ⟨8, 4, 8⟩ (barFont 2)) [.setBg 4, .clear, .puts [0x41, 0x42], .setFg 9,
      .puts [0x43]] (screenOf (terminalInit ⟨8, 4, 8⟩ (barFont 2) fun _ => 0xFFFFFF))).pixel 0 1 :=
  terminal_shows_grid ⟨by decide, by decide, by decide, by decide⟩ ⟨by decide, by decide⟩ _ _
    (allMeet_of_dvd (Or.inl rfl) (by decide) (by decide) _ _) 0 (by decide) 1 (by decide)

end Refinement

end ChronOS.Terminal
