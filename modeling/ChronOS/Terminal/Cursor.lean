/-
  Terminal/Cursor.lean --- the cursor and the pixel accesses of terminal.c.

  `putcIndices` lists the words of the framebuffer that a call of `terminal_putc`
  reads or writes, those of a scroll included; `terminalPutc_frame` says that the
  call changes no other.  `Stays` is the invariant: the cell under the cursor lies
  on the screen.  The main result is that it holds after any output, and that all
  the indices are then below `pixels_per_sc * height`.

  Unlike in `Grid`, scanlines may be longer than the screen is wide.
-/
import ChronOS.Terminal.Grid

set_option autoImplicit false

namespace ChronOS.Terminal

open ChronOS.Foundation

/-! ## The accesses -/

/-- `terminal_putc` up to the test for scrolling. -/
def advance (chr : Byte) (t : State) : State :=
  if chr = 0x0a then { t with cursorX := 0, cursorY := t.cursorY + t.charHeight }
  else
    let t := drawGlyph chr t
    let t := { t with cursorX := t.cursorX + BitVec.ofNat 32 TERMINAL_CHAR_WIDTH }
    if t.cursorX + BitVec.ofNat 32 TERMINAL_CHAR_WIDTH > t.framebuffer.width then
      { t with cursorX := 0, cursorY := t.cursorY + t.charHeight }
    else t

theorem terminalPutc_eq_advance (chr : Byte) (t : State) :
    terminalPutc chr t = scrollIfNeeded (advance chr t) := by
  unfold terminalPutc advance
  split <;> rfl

/-- The words the loops over the glyph write. -/
def drawIndices (t : State) : List Word :=
  (rowMajor t.charHeight.toInt.toNat TERMINAL_CHAR_WIDTH).map fun c =>
    pixelIndex t.framebuffer (t.cursorX + BitVec.ofNat 32 c.1) (t.cursorY + BitVec.ofNat 32 c.2)

/-- The words `terminal_scroll` writes in its loops. -/
def scrollTargets (t : State) : List Word :=
  (rowMajor (t.framebuffer.height - t.charHeight).toNat t.framebuffer.width.toNat).map fun c =>
    scrollIndex t.framebuffer (BitVec.ofNat 32 c.1) (BitVec.ofNat 32 c.2)

/-- The words `terminal_scroll` reads. -/
def scrollSources (t : State) : List Word :=
  (rowMajor (t.framebuffer.height - t.charHeight).toNat t.framebuffer.width.toNat).map fun c =>
    scrollIndex t.framebuffer (BitVec.ofNat 32 c.1) (BitVec.ofNat 32 c.2 + t.charHeight)

/-- The words `terminal_scroll` clears at the end. -/
def clearIndices (t : State) : List Word :=
  (List.range (t.framebuffer.width * t.charHeight).toNat).map fun i =>
    (t.framebuffer.width * (t.framebuffer.height - t.charHeight)).setWidth 64 + BitVec.ofNat 64 i

def scrollIndices (t : State) : List Word := scrollSources t ++ scrollTargets t ++ clearIndices t

/-- The words a call of `terminal_putc` reads or writes. -/
def putcIndices (chr : Byte) (t : State) : List Word :=
  (if chr = 0x0a then [] else drawIndices t) ++
    if (advance chr t).cursorY + t.charHeight > t.framebuffer.height then scrollIndices t else []

/-- The characters `string`, one after the other. -/
def putcs (string : List Byte) (t : State) : State :=
  string.foldl (fun t chr => terminalPutc chr t) t

/-- What a character leaves alone. -/
structure SameScreen (t t' : State) : Prop where
  framebuffer : t'.framebuffer = t.framebuffer
  charHeight : t'.charHeight = t.charHeight

section Accesses

variable {t : State} {chr : Byte}

theorem advance_same (chr : Byte) (t : State) : SameScreen t (advance chr t) := by
  unfold advance
  split
  · exact ⟨rfl, rfl⟩
  · dsimp only
    split <;> exact ⟨rfl, rfl⟩

theorem scrollIfNeeded_same (t : State) : SameScreen t (scrollIfNeeded t) := by
  unfold scrollIfNeeded
  split <;> exact ⟨rfl, rfl⟩

theorem terminalPutc_same (chr : Byte) (t : State) : SameScreen t (terminalPutc chr t) := by
  have hadvance := advance_same chr t
  have hscroll := scrollIfNeeded_same (advance chr t)
  rw [terminalPutc_eq_advance]
  exact ⟨hscroll.framebuffer.trans hadvance.framebuffer,
    hscroll.charHeight.trans hadvance.charHeight⟩

theorem putcs_same (string : List Byte) (t : State) : SameScreen t (putcs string t) := by
  induction string generalizing t with
  | nil => exact ⟨rfl, rfl⟩
  | cons chr string ih =>
    have hfirst := terminalPutc_same chr t
    have hrest := ih (terminalPutc chr t)
    exact ⟨hrest.framebuffer.trans hfirst.framebuffer, hrest.charHeight.trans hfirst.charHeight⟩

theorem drawGlyph_frame {i : Word} (h : i ∉ drawIndices t) :
    (drawGlyph chr t).pixels i = t.pixels i :=
  writeAll_of_ne (fun c hc heq => h (List.mem_map.mpr ⟨c, hc, heq⟩)) t.pixels

theorem advance_pixels (chr : Byte) (t : State) :
    (advance chr t).pixels = if chr = 0x0a then t.pixels else (drawGlyph chr t).pixels := by
  unfold advance
  split
  · rfl
  · dsimp only
    split <;> rfl

theorem terminalScroll_frame {i : Word} (h : i ∉ scrollIndices t) :
    (terminalScroll t).pixels i = t.pixels i := by
  simp only [scrollIndices, List.mem_append, not_or] at h
  obtain ⟨⟨-, htargets⟩, hclear⟩ := h
  have hmoved := fun c hc heq => htargets (List.mem_map.mpr ⟨c, hc, heq⟩)
  have hcleared := fun k hk heq => hclear (List.mem_map.mpr ⟨k, hk, heq⟩)
  exact (writeAll_of_ne hcleared _).trans (writeAll_of_ne hmoved t.pixels)

/-- A call of `terminal_putc` changes only words that are in the list. -/
theorem terminalPutc_frame {i : Word} (h : i ∉ putcIndices chr t) :
    (terminalPutc chr t).pixels i = t.pixels i := by
  have hsame := advance_same chr t
  simp only [putcIndices, List.mem_append, not_or] at h
  obtain ⟨hdraw, hscroll⟩ := h
  have hadvance : (advance chr t).pixels i = t.pixels i := by
    rw [advance_pixels]
    split_ifs at hdraw ⊢
    · rfl
    · exact drawGlyph_frame hdraw
  rw [terminalPutc_eq_advance, scrollIfNeeded, hsame.framebuffer, hsame.charHeight]
  split_ifs at hscroll ⊢
  · rw [terminalScroll_frame, hadvance]
    simpa only [scrollIndices, scrollSources, scrollTargets, clearIndices, hsame.framebuffer,
      hsame.charHeight] using hscroll
  · exact hadvance

end Accesses

/-! ## The invariant -/

/-- The framebuffers considered: the screen holds a character, scanlines are at least as long as
the screen is wide, and the picture is smaller than 2^31 words. -/
structure Holds (t : State) : Prop where
  width : TERMINAL_CHAR_WIDTH ≤ t.framebuffer.width.toNat
  charHeight : 1 ≤ t.charHeight.toInt
  height : t.charHeight.toInt ≤ t.framebuffer.height.toNat
  stride : t.framebuffer.width.toNat ≤ t.framebuffer.pixelsPerSc.toNat
  bounded : t.framebuffer.pixelsPerSc.toNat * t.framebuffer.height.toNat < 2 ^ 31

/-- The cell under the cursor lies on the screen. -/
structure Stays (t : State) : Prop where
  x : t.cursorX.toNat + TERMINAL_CHAR_WIDTH ≤ t.framebuffer.width.toNat
  y : t.cursorY.toNat + t.charHeight.toNat ≤ t.framebuffer.height.toNat

/-- The cursor as the `int` coordinates it is made of. -/
def CursorOnScreen (t : State) : Prop :=
  (0 ≤ t.cursorX.toInt ∧
      t.cursorX.toInt ≤ (t.framebuffer.width.toNat : Int) - TERMINAL_CHAR_WIDTH) ∧
    0 ≤ t.cursorY.toInt ∧ t.cursorY.toInt ≤ (t.framebuffer.height.toNat : Int) - t.charHeight.toInt

section Invariant

variable {t t' : State}

theorem Holds.congr (h : Holds t) (hsame : SameScreen t t') : Holds t' := by
  obtain ⟨hframebuffer, hchar⟩ := hsame
  obtain ⟨hwidth, hone, hheight, hstride, hbounded⟩ := h
  rw [← hframebuffer] at hwidth hheight hstride hbounded
  rw [← hchar] at hone hheight
  exact ⟨hwidth, hone, hheight, hstride, hbounded⟩

/-- The numbers of a framebuffer that is considered. -/
theorem Holds.numbers (h : Holds t) :
    t.charHeight.toInt = t.charHeight.toNat ∧ 1 ≤ t.charHeight.toNat ∧
      t.charHeight.toNat ≤ t.framebuffer.height.toNat ∧
      t.framebuffer.pixelsPerSc.toNat < 2 ^ 31 ∧ t.framebuffer.height.toNat < 2 ^ 28 ∧
      t.framebuffer.width.toNat * t.framebuffer.height.toNat ≤
        t.framebuffer.pixelsPerSc.toNat * t.framebuffer.height.toNat := by
  obtain ⟨hwidth, hone, hheight, hstride, hbounded⟩ := h
  have hchar := BitVec.toInt_eq_toNat_cond t.charHeight
  have hint : t.charHeight.toInt = t.charHeight.toNat := by
    split at hchar <;> omega
  have hlines := Nat.mul_le_mul_right t.framebuffer.height.toNat (hwidth.trans hstride)
  have hlong := Nat.mul_le_mul_left t.framebuffer.pixelsPerSc.toNat
    (show 1 ≤ t.framebuffer.height.toNat by omega)
  have harea := Nat.mul_le_mul_right t.framebuffer.height.toNat hstride
  unfold TERMINAL_CHAR_WIDTH at hlines
  exact ⟨hint, by omega, by omega, by omega, by omega, harea⟩

theorem Stays.cursorOnScreen (hholds : Holds t) (h : Stays t) : CursorOnScreen t := by
  obtain ⟨hint, -, -, hpps, hheight, -⟩ := hholds.numbers
  have hstride := hholds.stride
  obtain ⟨hx, hy⟩ := h
  have hxint := BitVec.toInt_eq_toNat_cond t.cursorX
  have hyint := BitVec.toInt_eq_toNat_cond t.cursorY
  rw [if_pos (by omega)] at hxint hyint
  unfold CursorOnScreen
  rw [hint, hxint, hyint]
  omega

/-- The cursor moves on in the line, or to the beginning of the next line of characters. -/
theorem advance_cursor (hholds : Holds t) (h : Stays t) (chr : Byte) :
    (advance chr t).cursorX.toNat + TERMINAL_CHAR_WIDTH ≤ t.framebuffer.width.toNat ∧
      ((advance chr t).cursorY = t.cursorY ∨
        (advance chr t).cursorY = t.cursorY + t.charHeight) := by
  obtain ⟨-, -, -, hpps, -, -⟩ := hholds.numbers
  have hwidth := hholds.width
  have hstride := hholds.stride
  have hx := h.x
  have hsum : (t.cursorX + BitVec.ofNat 32 TERMINAL_CHAR_WIDTH).toNat =
      t.cursorX.toNat + TERMINAL_CHAR_WIDTH := by
    rw [BitVec.toNat_add, BitVec.toNat_ofNat]
    unfold TERMINAL_CHAR_WIDTH at *
    omega
  unfold advance
  split
  · exact ⟨by simpa using hwidth, Or.inr rfl⟩
  · dsimp only
    split_ifs with hwrap
    · exact ⟨by simpa using hwidth, Or.inr rfl⟩
    · refine ⟨?_, Or.inl rfl⟩
      -- the test is on the sum as an unsigned number, which does not wrap
      have hfits : (t.cursorX + BitVec.ofNat 32 TERMINAL_CHAR_WIDTH +
          BitVec.ofNat 32 TERMINAL_CHAR_WIDTH).toNat ≤ t.framebuffer.width.toNat :=
        BitVec.le_def.mp (BitVec.not_lt.mp hwrap)
      rw [BitVec.toNat_add, hsum, BitVec.toNat_ofNat] at hfits
      show (t.cursorX + BitVec.ofNat 32 TERMINAL_CHAR_WIDTH).toNat + TERMINAL_CHAR_WIDTH ≤ _
      rw [hsum]
      unfold TERMINAL_CHAR_WIDTH at *
      omega

/-- One character. -/
theorem Stays.putc (hholds : Holds t) (h : Stays t) (chr : Byte) : Stays (terminalPutc chr t) := by
  obtain ⟨-, hone, hle, -, hheight, -⟩ := hholds.numbers
  obtain ⟨hx, hy⟩ := advance_cursor hholds h chr
  have hsame := advance_same chr t
  have hcell := h.y
  have hnext : (t.cursorY + t.charHeight).toNat = t.cursorY.toNat + t.charHeight.toNat := by
    rw [BitVec.toNat_add]
    omega
  rw [terminalPutc_eq_advance, scrollIfNeeded, hsame.framebuffer, hsame.charHeight]
  split_ifs with hscroll
  · -- only a cursor that has moved down is past the last line
    refine ⟨by rw [← hsame.framebuffer] at hx; exact hx, ?_⟩
    show ((advance chr t).cursorY - (advance chr t).charHeight).toNat +
      (advance chr t).charHeight.toNat ≤ (advance chr t).framebuffer.height.toNat
    rw [hsame.framebuffer, hsame.charHeight]
    rcases hy with hy | hy
    · rw [hy, gt_iff_lt, BitVec.lt_def, hnext] at hscroll
      omega
    · rw [hy, BitVec.add_sub_cancel]
      exact hcell
  · refine ⟨by rw [hsame.framebuffer]; exact hx, ?_⟩
    rw [hsame.framebuffer, hsame.charHeight]
    have hfits := BitVec.le_def.mp (BitVec.not_lt.mp hscroll)
    rcases hy with hy | hy
    · rw [hy]
      exact hcell
    · rw [hy] at hfits ⊢
      rw [BitVec.toNat_add, hnext] at hfits
      omega

theorem Stays.putcs (hholds : Holds t) (h : Stays t) (string : List Byte) :
    Stays (putcs string t) := by
  induction string generalizing t with
  | nil => exact h
  | cons chr string ih => exact ih (hholds.congr (terminalPutc_same chr t)) (h.putc hholds chr)

/-! ## The indices -/

/-- The index of a pixel of the character cell. -/
theorem Stays.drawIndices_lt (hholds : Holds t) (h : Stays t) {i : Word} (hi : i ∈ drawIndices t) :
    i.toNat < t.framebuffer.pixelsPerSc.toNat * t.framebuffer.height.toNat := by
  obtain ⟨hint, -, -, hpps, hheight, -⟩ := hholds.numbers
  have hbounded := hholds.bounded
  have hstride := hholds.stride
  obtain ⟨hx, hy⟩ := h
  obtain ⟨⟨x, y⟩, hc, rfl⟩ := List.mem_map.mp hi
  obtain ⟨hxc, hyc⟩ := mem_rowMajor.mp hc
  dsimp only at hxc hyc ⊢
  rw [hint, Int.toNat_natCast] at hyc
  have hxsum : (t.cursorX + BitVec.ofNat 32 x).toNat = t.cursorX.toNat + x := by
    rw [BitVec.toNat_add, BitVec.toNat_ofNat]
    omega
  have hysum : (t.cursorY + BitVec.ofNat 32 y).toNat = t.cursorY.toNat + y := by
    rw [BitVec.toNat_add, BitVec.toNat_ofNat]
    omega
  have hsign : ((t.cursorX + BitVec.ofNat 32 x).signExtend 64).toNat = t.cursorX.toNat + x :=
    (toNat_signExtend_of_lt (by omega)).trans hxsum
  have hline : t.cursorX.toNat + x + (t.cursorY.toNat + y) * t.framebuffer.pixelsPerSc.toNat <
      t.framebuffer.pixelsPerSc.toNat * t.framebuffer.height.toNat :=
    line_bound (by omega) (by omega)
  rw [pixelIndex, BitVec.toNat_add, hsign, BitVec.toNat_setWidth, BitVec.toNat_mul, hysum]
  exact lt_of_le_of_lt ((Nat.mod_le _ _).trans
    (Nat.add_le_add_left ((Nat.mod_le _ _).trans (Nat.mod_le _ _)) _)) hline

theorem Holds.toNat_height_sub (h : Holds t) :
    (t.framebuffer.height - t.charHeight).toNat =
      t.framebuffer.height.toNat - t.charHeight.toNat := by
  obtain ⟨-, -, hle, -⟩ := h.numbers
  exact BitVec.toNat_sub_of_le (BitVec.le_def.mpr hle)

/-- The index of a pixel of the screen, in lines of the visible width. -/
theorem Holds.scrollIndex_lt (h : Holds t) {x y : Nat} {u v : BitVec 32} (hu : u.toNat = x)
    (hv : v.toNat = y) (hx : x < t.framebuffer.width.toNat)
    (hy : y < t.framebuffer.height.toNat) :
    (scrollIndex t.framebuffer u v).toNat <
      t.framebuffer.pixelsPerSc.toNat * t.framebuffer.height.toNat := by
  obtain ⟨-, -, -, -, -, harea⟩ := h.numbers
  have hbounded := h.bounded
  have hline := line_bound hx hy
  rw [scrollIndex_eq t.framebuffer hu hv (by omega), BitVec.toNat_ofNat]
  exact lt_of_le_of_lt (Nat.mod_le _ _) (hline.trans_le harea)

theorem Holds.scrollIndices_lt (h : Holds t) {i : Word} (hi : i ∈ scrollIndices t) :
    i.toNat < t.framebuffer.pixelsPerSc.toNat * t.framebuffer.height.toNat := by
  obtain ⟨-, hone, hle, hpps, hheight, harea⟩ := h.numbers
  have hsub := h.toNat_height_sub
  have hstride := h.stride
  have hbounded := h.bounded
  simp only [scrollIndices, List.mem_append] at hi
  rcases hi with (hsource | htarget) | hclear
  · obtain ⟨⟨x, y⟩, hc, rfl⟩ := List.mem_map.mp hsource
    obtain ⟨hx, hy⟩ := mem_rowMajor.mp hc
    dsimp only at hx hy ⊢
    refine h.scrollIndex_lt (Nat.mod_eq_of_lt (by omega))
      (y := y + t.charHeight.toNat) ?_ hx (by omega)
    rw [BitVec.toNat_add, BitVec.toNat_ofNat]
    omega
  · obtain ⟨⟨x, y⟩, hc, rfl⟩ := List.mem_map.mp htarget
    obtain ⟨hx, hy⟩ := mem_rowMajor.mp hc
    dsimp only at hx hy ⊢
    exact h.scrollIndex_lt (Nat.mod_eq_of_lt (by omega)) (Nat.mod_eq_of_lt (by omega)) hx (by omega)
  · obtain ⟨k, hk, rfl⟩ := List.mem_map.mp hclear
    have hk := List.mem_range.mp hk
    rw [BitVec.toNat_mul] at hk
    have hk' := hk.trans_le (Nat.mod_le _ _)
    have hsplit : t.framebuffer.width.toNat *
          (t.framebuffer.height.toNat - t.charHeight.toNat) +
        t.framebuffer.width.toNat * t.charHeight.toNat =
        t.framebuffer.width.toNat * t.framebuffer.height.toNat := by
      rw [← Nat.mul_add, Nat.sub_add_cancel hle]
    rw [BitVec.toNat_add, BitVec.toNat_setWidth, BitVec.toNat_mul, hsub, BitVec.toNat_ofNat]
    omega

theorem Stays.putcIndices_lt (hholds : Holds t) (h : Stays t) (chr : Byte) {i : Word}
    (hi : i ∈ putcIndices chr t) :
    i.toNat < t.framebuffer.pixelsPerSc.toNat * t.framebuffer.height.toNat := by
  unfold putcIndices at hi
  rcases List.mem_append.mp hi with hdraw | hscroll
  · split_ifs at hdraw
    · exact absurd hdraw List.not_mem_nil
    · exact h.drawIndices_lt hholds hdraw
  · split_ifs at hscroll
    · exact hholds.scrollIndices_lt hscroll
    · exact absurd hscroll List.not_mem_nil

end Invariant

/-- From the cursor at the origin on, after any output, each further character leaves the cursor
on the screen and reads and writes only words of the framebuffer. -/
theorem terminal_stays_on_screen (t : State) (hholds : Holds t) (hx : t.cursorX = 0)
    (hy : t.cursorY = 0) (string : List Byte) (chr : Byte) :
    CursorOnScreen (terminalPutc chr (putcs string t)) ∧
      ∀ i ∈ putcIndices chr (putcs string t),
        i.toNat < t.framebuffer.pixelsPerSc.toNat * t.framebuffer.height.toNat := by
  obtain ⟨-, -, hle, -⟩ := hholds.numbers
  have hstart : Stays t := by
    refine ⟨?_, ?_⟩
    · rw [hx]
      simpa using hholds.width
    · rw [hy]
      simpa using hle
  have hsame := putcs_same string t
  have hholds' := hholds.congr hsame
  have hstays := hstart.putcs hholds string
  refine ⟨(hstays.putc hholds' chr).cursorOnScreen (hholds'.congr (terminalPutc_same chr _)), ?_⟩
  intro i hi
  rw [← hsame.framebuffer]
  exact hstays.putcIndices_lt hholds' chr hi

/-- A screen of 20 by 5 pixels in lines of 24 words, with a font of height 2. -/
theorem small_screen_stays :
    let t := terminalInit ⟨20, 5, 24⟩ (barFont 2) fun _ => 0
    CursorOnScreen (terminalPutc 0x41 (putcs [0x41, 0x41, 0x0a, 0x41] t)) ∧
      ∀ i ∈ putcIndices 0x41 (putcs [0x41, 0x41, 0x0a, 0x41] t), i.toNat < 24 * 5 :=
  terminal_stays_on_screen _ ⟨by decide, by decide, by decide, by decide, by decide⟩ rfl rfl _ _

end ChronOS.Terminal
