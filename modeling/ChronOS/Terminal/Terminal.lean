/-
  Terminal/Terminal.lean --- `kernel/src/terminal/terminal.c`.

  The framebuffer is the sequence of 32-bit words from `framebuffer->address` on,
  by index.  Indices are computed as the source computes them: `terminal_clear` and
  `terminal_scroll` in `uint32_t` with the visible width as the length of a line,
  `terminal_putc` by adding the `int` x and the `uint32_t` product of y and the
  scanline length to a pointer.  All comparisons with a field of the framebuffer
  are unsigned.
-/
import ChronOS.Foundation.Cells
import ChronOS.Foundation.Memory

set_option autoImplicit false

namespace ChronOS.Terminal

open ChronOS.Foundation

/-- A pixel of 32 bits. -/
abbrev Pixel : Type := BitVec 32

def TERMINAL_CHAR_WIDTH : Nat := 8

/-- `gop_framebuffer_t`, without its address and its size in bytes. -/
structure Framebuffer where
  width : BitVec 32
  height : BitVec 32
  pixelsPerSc : BitVec 32
  deriving DecidableEq, Repr

/-- `psf1_font_t`; of the header only `charsize` is read. -/
structure Font where
  charsize : Byte
  glyphBuffer : Nat → Byte

/-- The globals of `terminal.c`. -/
structure State where
  framebuffer : Framebuffer
  psf1Font : Font
  pixels : Word → Pixel
  cursorX : BitVec 32
  cursorY : BitVec 32
  charHeight : BitVec 32
  fgColor : Pixel
  bgColor : Pixel

def palette : Fin 16 → Pixel :=
  ![0x000000, 0x7F0000, 0x007F00, 0x7F7F00, 0x00007F, 0x7F007F, 0x007F7F, 0x7F7F7F,
    0x3F3F3F, 0xFF0000, 0x00FF00, 0xFFFF00, 0x0000FF, 0xFF00FF, 0x00FFFF, 0xFFFFFF]

/-- `terminal_set_fg_color_palette`, for an index of the palette. -/
def terminalSetFgColorPalette (c : Fin 16) (t : State) : State :=
  { t with fgColor := palette c }

/-- `terminal_set_bg_color_palette`. -/
def terminalSetBgColorPalette (c : Fin 16) (t : State) : State :=
  { t with bgColor := palette c }

/-- `memset32`, with the buffer as an index. -/
def memset32 (buf : Word) (value : Pixel) (size : Nat) (pixels : Word → Pixel) : Word → Pixel :=
  writeAll (fun i => buf + BitVec.ofNat 64 i) (fun _ _ => value) (List.range size) pixels

/-- `terminal_clear`. -/
def terminalClear (t : State) : State :=
  { t with
    cursorX := 0
    cursorY := 0
    pixels := memset32 0 t.bgColor (t.framebuffer.width * t.framebuffer.height).toNat t.pixels }

/-- `x + y * framebuffer->width`, the index `terminal_scroll` uses. -/
def scrollIndex (fb : Framebuffer) (x y : BitVec 32) : Word := (x + y * fb.width).setWidth 64

/-- `terminal_scroll`. -/
def terminalScroll (t : State) : State :=
  let fb := t.framebuffer
  let moved := writeAll
    (fun c : Nat × Nat => scrollIndex fb (BitVec.ofNat 32 c.1) (BitVec.ofNat 32 c.2))
    (fun c pixels =>
      pixels (scrollIndex fb (BitVec.ofNat 32 c.1) (BitVec.ofNat 32 c.2 + t.charHeight)))
    (rowMajor (fb.height - t.charHeight).toNat fb.width.toNat) t.pixels
  { t with
    pixels := memset32 ((fb.width * (fb.height - t.charHeight)).setWidth 64) t.bgColor
      (fb.width * t.charHeight).toNat moved
    cursorY := t.cursorY - t.charHeight }

/-- `if (cursor_y + char_height > framebuffer->height) terminal_scroll();` -/
def scrollIfNeeded (t : State) : State :=
  if t.cursorY + t.charHeight > t.framebuffer.height then terminalScroll t else t

/-- `*fontPtr & (0b10000000 >> x)`, in line `y` of the glyph of `chr`. -/
def glyphBit (font : Font) (chr : Byte) (x y : Nat) : Bool :=
  font.glyphBuffer (chr.toNat * font.charsize.toNat + y) &&& (0b10000000#8 >>> x) ≠ 0

/-- `pixPtr + x + (y * framebuffer->pixels_per_sc)`, as an index. -/
def pixelIndex (fb : Framebuffer) (x y : BitVec 32) : Word :=
  x.signExtend 64 + (y * fb.pixelsPerSc).setWidth 64

/-- The two loops of `terminal_putc` over the pixels of the glyph. -/
def drawGlyph (chr : Byte) (t : State) : State :=
  { t with
    pixels := writeAll
      (fun c : Nat × Nat => pixelIndex t.framebuffer (t.cursorX + BitVec.ofNat 32 c.1)
        (t.cursorY + BitVec.ofNat 32 c.2))
      (fun c _ => if glyphBit t.psf1Font chr c.1 c.2 then t.fgColor else t.bgColor)
      (rowMajor t.charHeight.toInt.toNat TERMINAL_CHAR_WIDTH) t.pixels }

/-- `terminal_putc`. -/
def terminalPutc (chr : Byte) (t : State) : State :=
  if chr = 0x0a then
    scrollIfNeeded { t with cursorX := 0, cursorY := t.cursorY + t.charHeight }
  else
    let t := drawGlyph chr t
    let t := { t with cursorX := t.cursorX + BitVec.ofNat 32 TERMINAL_CHAR_WIDTH }
    let t :=
      if t.cursorX + BitVec.ofNat 32 TERMINAL_CHAR_WIDTH > t.framebuffer.width then
        { t with cursorX := 0, cursorY := t.cursorY + t.charHeight }
      else t
    scrollIfNeeded t

/-- `terminal_puts`: the characters up to the first zero. -/
def terminalPuts (string : List Byte) (t : State) : State :=
  (string.takeWhile (· ≠ 0)).foldl (fun t chr => terminalPutc chr t) t

/-- `terminal_init`, with the framebuffer contents at that time; the cursor starts at 0. -/
def terminalInit (fb : Framebuffer) (font : Font) (pixels : Word → Pixel) : State where
  framebuffer := fb
  psf1Font := font
  pixels := pixels
  cursorX := 0
  cursorY := 0
  charHeight := font.charsize.setWidth 32
  fgColor := palette 15
  bgColor := palette 0

end ChronOS.Terminal
