import Mathlib.Algebra.Order.Ring.Nat
import Tianole.Errno
import Tianole.Lib.Accesses

/-! The framebuffer console of `drivers/video/fbdev/core/fbcon.c` and its font. No decision of the
driver depends on a pixel, so that each function gives the accesses it makes, in their order. -/
namespace Tianole.Video

/-! ### The font -/

def fbconFontWidth : ℕ := 5
def fbconFontHeight : ℕ := 7

structure Glyph where
  ch : UInt8
  rows : List UInt8

/-- The table of `font.c`. -/
def font : List Glyph := [
  ⟨0x20, [0x00, 0x00, 0x00, 0x00, 0x00, 0x00, 0x00]⟩,
  ⟨0x21, [0x04, 0x04, 0x04, 0x04, 0x04, 0x00, 0x04]⟩,
  ⟨0x2e, [0x00, 0x00, 0x00, 0x00, 0x00, 0x0c, 0x0c]⟩,
  ⟨0x2c, [0x00, 0x00, 0x00, 0x00, 0x0c, 0x04, 0x08]⟩,
  ⟨0x3a, [0x00, 0x0c, 0x0c, 0x00, 0x0c, 0x0c, 0x00]⟩,
  ⟨0x2d, [0x00, 0x00, 0x00, 0x1f, 0x00, 0x00, 0x00]⟩,
  ⟨0x5f, [0x00, 0x00, 0x00, 0x00, 0x00, 0x00, 0x1f]⟩,
  ⟨0x3d, [0x00, 0x00, 0x1f, 0x00, 0x1f, 0x00, 0x00]⟩,
  ⟨0x2f, [0x01, 0x02, 0x04, 0x04, 0x08, 0x10, 0x10]⟩,
  ⟨0x30, [0x0e, 0x11, 0x13, 0x15, 0x19, 0x11, 0x0e]⟩,
  ⟨0x31, [0x04, 0x0c, 0x04, 0x04, 0x04, 0x04, 0x0e]⟩,
  ⟨0x32, [0x0e, 0x11, 0x01, 0x02, 0x04, 0x08, 0x1f]⟩,
  ⟨0x33, [0x1e, 0x01, 0x01, 0x0e, 0x01, 0x01, 0x1e]⟩,
  ⟨0x34, [0x02, 0x06, 0x0a, 0x12, 0x1f, 0x02, 0x02]⟩,
  ⟨0x35, [0x1f, 0x10, 0x10, 0x1e, 0x01, 0x01, 0x1e]⟩,
  ⟨0x36, [0x0e, 0x10, 0x10, 0x1e, 0x11, 0x11, 0x0e]⟩,
  ⟨0x37, [0x1f, 0x01, 0x02, 0x04, 0x08, 0x08, 0x08]⟩,
  ⟨0x38, [0x0e, 0x11, 0x11, 0x0e, 0x11, 0x11, 0x0e]⟩,
  ⟨0x39, [0x0e, 0x11, 0x11, 0x0f, 0x01, 0x01, 0x0e]⟩,
  ⟨0x41, [0x0e, 0x11, 0x11, 0x1f, 0x11, 0x11, 0x11]⟩,
  ⟨0x42, [0x1e, 0x11, 0x11, 0x1e, 0x11, 0x11, 0x1e]⟩,
  ⟨0x43, [0x0e, 0x11, 0x10, 0x10, 0x10, 0x11, 0x0e]⟩,
  ⟨0x44, [0x1e, 0x11, 0x11, 0x11, 0x11, 0x11, 0x1e]⟩,
  ⟨0x45, [0x1f, 0x10, 0x10, 0x1e, 0x10, 0x10, 0x1f]⟩,
  ⟨0x46, [0x1f, 0x10, 0x10, 0x1e, 0x10, 0x10, 0x10]⟩,
  ⟨0x47, [0x0e, 0x11, 0x10, 0x17, 0x11, 0x11, 0x0f]⟩,
  ⟨0x48, [0x11, 0x11, 0x11, 0x1f, 0x11, 0x11, 0x11]⟩,
  ⟨0x49, [0x0e, 0x04, 0x04, 0x04, 0x04, 0x04, 0x0e]⟩,
  ⟨0x4a, [0x07, 0x02, 0x02, 0x02, 0x12, 0x12, 0x0c]⟩,
  ⟨0x4b, [0x11, 0x12, 0x14, 0x18, 0x14, 0x12, 0x11]⟩,
  ⟨0x4c, [0x10, 0x10, 0x10, 0x10, 0x10, 0x10, 0x1f]⟩,
  ⟨0x4d, [0x11, 0x1b, 0x15, 0x15, 0x11, 0x11, 0x11]⟩,
  ⟨0x4e, [0x11, 0x19, 0x15, 0x13, 0x11, 0x11, 0x11]⟩,
  ⟨0x4f, [0x0e, 0x11, 0x11, 0x11, 0x11, 0x11, 0x0e]⟩,
  ⟨0x50, [0x1e, 0x11, 0x11, 0x1e, 0x10, 0x10, 0x10]⟩,
  ⟨0x51, [0x0e, 0x11, 0x11, 0x11, 0x15, 0x12, 0x0d]⟩,
  ⟨0x52, [0x1e, 0x11, 0x11, 0x1e, 0x14, 0x12, 0x11]⟩,
  ⟨0x53, [0x0f, 0x10, 0x10, 0x0e, 0x01, 0x01, 0x1e]⟩,
  ⟨0x54, [0x1f, 0x04, 0x04, 0x04, 0x04, 0x04, 0x04]⟩,
  ⟨0x55, [0x11, 0x11, 0x11, 0x11, 0x11, 0x11, 0x0e]⟩,
  ⟨0x56, [0x11, 0x11, 0x11, 0x11, 0x0a, 0x0a, 0x04]⟩,
  ⟨0x57, [0x11, 0x11, 0x11, 0x15, 0x15, 0x1b, 0x11]⟩,
  ⟨0x58, [0x11, 0x11, 0x0a, 0x04, 0x0a, 0x11, 0x11]⟩,
  ⟨0x59, [0x11, 0x11, 0x0a, 0x04, 0x04, 0x04, 0x04]⟩,
  ⟨0x5a, [0x1f, 0x01, 0x02, 0x04, 0x08, 0x10, 0x1f]⟩,
  ⟨0x61, [0x00, 0x00, 0x0e, 0x01, 0x0f, 0x11, 0x0f]⟩,
  ⟨0x62, [0x10, 0x10, 0x1e, 0x11, 0x11, 0x11, 0x1e]⟩,
  ⟨0x63, [0x00, 0x00, 0x0e, 0x10, 0x10, 0x10, 0x0e]⟩,
  ⟨0x64, [0x01, 0x01, 0x0f, 0x11, 0x11, 0x11, 0x0f]⟩,
  ⟨0x65, [0x00, 0x00, 0x0e, 0x11, 0x1f, 0x10, 0x0e]⟩,
  ⟨0x66, [0x06, 0x08, 0x1e, 0x08, 0x08, 0x08, 0x08]⟩,
  ⟨0x67, [0x00, 0x00, 0x0f, 0x11, 0x0f, 0x01, 0x0e]⟩,
  ⟨0x68, [0x10, 0x10, 0x1e, 0x11, 0x11, 0x11, 0x11]⟩,
  ⟨0x69, [0x04, 0x00, 0x0c, 0x04, 0x04, 0x04, 0x0e]⟩,
  ⟨0x6a, [0x02, 0x00, 0x06, 0x02, 0x02, 0x12, 0x0c]⟩,
  ⟨0x6b, [0x10, 0x10, 0x12, 0x14, 0x18, 0x14, 0x12]⟩,
  ⟨0x6c, [0x0c, 0x04, 0x04, 0x04, 0x04, 0x04, 0x0e]⟩,
  ⟨0x6d, [0x00, 0x00, 0x1a, 0x15, 0x15, 0x15, 0x15]⟩,
  ⟨0x6e, [0x00, 0x00, 0x1e, 0x11, 0x11, 0x11, 0x11]⟩,
  ⟨0x6f, [0x00, 0x00, 0x0e, 0x11, 0x11, 0x11, 0x0e]⟩,
  ⟨0x70, [0x00, 0x00, 0x1e, 0x11, 0x1e, 0x10, 0x10]⟩,
  ⟨0x71, [0x00, 0x00, 0x0f, 0x11, 0x0f, 0x01, 0x01]⟩,
  ⟨0x72, [0x00, 0x00, 0x16, 0x18, 0x10, 0x10, 0x10]⟩,
  ⟨0x73, [0x00, 0x00, 0x0f, 0x10, 0x0e, 0x01, 0x1e]⟩,
  ⟨0x74, [0x08, 0x08, 0x1e, 0x08, 0x08, 0x09, 0x06]⟩,
  ⟨0x75, [0x00, 0x00, 0x11, 0x11, 0x11, 0x13, 0x0d]⟩,
  ⟨0x76, [0x00, 0x00, 0x11, 0x11, 0x0a, 0x0a, 0x04]⟩,
  ⟨0x77, [0x00, 0x00, 0x11, 0x15, 0x15, 0x15, 0x0a]⟩,
  ⟨0x78, [0x00, 0x00, 0x11, 0x0a, 0x04, 0x0a, 0x11]⟩,
  ⟨0x79, [0x00, 0x00, 0x11, 0x11, 0x0f, 0x01, 0x0e]⟩,
  ⟨0x7a, [0x00, 0x00, 0x1f, 0x02, 0x04, 0x08, 0x1f]⟩,
  ⟨0x22, [0x0a, 0x0a, 0x0a, 0x00, 0x00, 0x00, 0x00]⟩,
  ⟨0x23, [0x0a, 0x0a, 0x1f, 0x0a, 0x1f, 0x0a, 0x0a]⟩,
  ⟨0x24, [0x04, 0x0f, 0x14, 0x0e, 0x05, 0x1e, 0x04]⟩,
  ⟨0x25, [0x18, 0x19, 0x02, 0x04, 0x08, 0x13, 0x03]⟩,
  ⟨0x26, [0x0c, 0x12, 0x14, 0x08, 0x15, 0x12, 0x0d]⟩,
  ⟨0x27, [0x04, 0x04, 0x08, 0x00, 0x00, 0x00, 0x00]⟩,
  ⟨0x28, [0x02, 0x04, 0x08, 0x08, 0x08, 0x04, 0x02]⟩,
  ⟨0x29, [0x08, 0x04, 0x02, 0x02, 0x02, 0x04, 0x08]⟩,
  ⟨0x2a, [0x00, 0x04, 0x15, 0x0e, 0x15, 0x04, 0x00]⟩,
  ⟨0x2b, [0x00, 0x04, 0x04, 0x1f, 0x04, 0x04, 0x00]⟩,
  ⟨0x3b, [0x00, 0x0c, 0x0c, 0x00, 0x0c, 0x04, 0x08]⟩,
  ⟨0x3c, [0x02, 0x04, 0x08, 0x10, 0x08, 0x04, 0x02]⟩,
  ⟨0x3e, [0x08, 0x04, 0x02, 0x01, 0x02, 0x04, 0x08]⟩,
  ⟨0x40, [0x0e, 0x11, 0x17, 0x15, 0x17, 0x10, 0x0e]⟩,
  ⟨0x5b, [0x0e, 0x08, 0x08, 0x08, 0x08, 0x08, 0x0e]⟩,
  ⟨0x5c, [0x10, 0x08, 0x04, 0x04, 0x02, 0x01, 0x01]⟩,
  ⟨0x5d, [0x0e, 0x02, 0x02, 0x02, 0x02, 0x02, 0x0e]⟩,
  ⟨0x5e, [0x04, 0x0a, 0x11, 0x00, 0x00, 0x00, 0x00]⟩,
  ⟨0x60, [0x08, 0x04, 0x02, 0x00, 0x00, 0x00, 0x00]⟩,
  ⟨0x7b, [0x02, 0x04, 0x04, 0x18, 0x04, 0x04, 0x02]⟩,
  ⟨0x7c, [0x04, 0x04, 0x04, 0x00, 0x04, 0x04, 0x04]⟩,
  ⟨0x7d, [0x08, 0x04, 0x04, 0x03, 0x04, 0x04, 0x08]⟩,
  ⟨0x7e, [0x00, 0x00, 0x08, 0x15, 0x02, 0x00, 0x00]⟩,
  ⟨0x3f, [0x0e, 0x11, 0x01, 0x02, 0x04, 0x00, 0x04]⟩]

/-- The search for a character. -/
def glyphIn (ch : UInt8) : List Glyph → Option (List UInt8)
  | [] => none
  | g :: rest => if g.ch = ch then some g.rows else glyphIn ch rest

/-- A character without a glyph gets that of the last entry. -/
def fbconFontGlyph (ch : UInt8) : List UInt8 :=
  match glyphIn ch font with
  | some rows => rows
  | none => (font.getD (font.length - 1) ⟨0, []⟩).rows

/-! ### The driver -/

/-- `struct fb_info`; `base` tells whether the address is not null. -/
structure FbInfo where
  base : Bool
  width : ℕ
  height : ℕ
  pixelsPerScanLine : ℕ
  pixelFormat : ℕ
  deriving DecidableEq, Repr

def fbconPixelFormatRgb : ℕ := 0
def fbconPixelFormatBgr : ℕ := 1

def glyphScale : ℕ := 1
def cellWidth : ℕ := 6
def cellHeight : ℕ := 9

def asciiBs : UInt8 := 8
def asciiCr : UInt8 := 13
def asciiLf : UInt8 := 10

/-- The static variables. -/
structure Fbcon where
  info : FbInfo
  cursorX : ℕ
  cursorY : ℕ
  columns : ℕ
  rows : ℕ
  deriving DecidableEq, Repr

def pixelColor (info : FbInfo) (red green blue : UInt32) : UInt32 :=
  if info.pixelFormat = fbconPixelFormatRgb then red ||| (green <<< 8) ||| (blue <<< 16)
  else blue ||| (green <<< 8) ||| (red <<< 16)

/-- The index of a pixel is computed in 32 bits. -/
def pixelIndex (info : FbInfo) (x y : ℕ) : ℕ := (y * info.pixelsPerScanLine + x) % 2 ^ 32

def drawPixel (info : FbInfo) (x y : ℕ) (color : UInt32) : List (Access UInt32) :=
  if info.width ≤ x ∨ info.height ≤ y then [] else [.store (pixelIndex info x y) color]

def clearCell (info : FbInfo) (column row : ℕ) : List (Access UInt32) :=
  let startX := column * cellWidth
  let startY := row * cellHeight
  let background := pixelColor info 0 0 0
  (List.range cellHeight).flatMap fun y =>
    (List.range cellWidth).flatMap fun x => drawPixel info (startX + x) (startY + y) background

/-- The bit of a glyph row for a column; the leftmost column is the highest bit. -/
def glyphBit (row : UInt8) (glyphCol : ℕ) : Bool :=
  row.toNat &&& 1 <<< (fbconFontWidth - 1 - glyphCol) ≠ 0

def drawChar (info : FbInfo) (ch : UInt8) (column row : ℕ) : List (Access UInt32) :=
  let glyph := fbconFontGlyph ch
  let foreground := pixelColor info 220 220 220
  let startX := column * cellWidth
  let startY := row * cellHeight + 1
  clearCell info column row ++
    (List.range fbconFontHeight).flatMap fun glyphRow =>
      (List.range fbconFontWidth).flatMap fun glyphCol =>
        if glyphBit (glyph.getD glyphRow 0) glyphCol = false then []
        else (List.range glyphScale).flatMap fun scaleY =>
          (List.range glyphScale).flatMap fun scaleX =>
            drawPixel info (startX + glyphCol * glyphScale + scaleX)
              (startY + glyphRow * glyphScale + scaleY) foreground

def clearScreen (info : FbInfo) : List (Access UInt32) :=
  let background := pixelColor info 0 0 0
  (List.range info.height).flatMap fun y =>
    (List.range info.width).flatMap fun x => drawPixel info x y background

def clearTextRow (c : Fbcon) (row : ℕ) : List (Access UInt32) :=
  (List.range c.columns).flatMap fun column => clearCell c.info column row

def scrollUp (c : Fbcon) : List (Access UInt32) :=
  ((List.range' cellHeight (c.rows * cellHeight - cellHeight)).flatMap fun y =>
    (List.range (c.columns * cellWidth)).map fun x =>
      .copy (pixelIndex c.info x (y - cellHeight)) (pixelIndex c.info x y)) ++
  clearTextRow c (c.rows - 1)

def newline (c : Fbcon) : Fbcon × List (Access UInt32) :=
  if c.cursorY + 1 < c.rows then ({ c with cursorX := 0, cursorY := c.cursorY + 1 }, [])
  else ({ c with cursorX := 0, cursorY := c.rows - 1 }, scrollUp c)

def backspace (c : Fbcon) : Fbcon × List (Access UInt32) :=
  if c.cursorX = 0 then (c, [])
  else ({ c with cursorX := c.cursorX - 1 }, clearCell c.info (c.cursorX - 1) c.cursorY)

/-- The console, the accesses and the status. A screen without room for a cell is refused after
the variables have been set. -/
def fbconInit (c : Fbcon) (info : Option FbInfo) : Fbcon × List (Access UInt32) × ℤ :=
  match info with
  | none => (c, [], -Errno.inval)
  | some info =>
      if info.base = false ∨ info.width = 0 ∨ info.height = 0 ∨ info.pixelsPerScanLine = 0 ∨
          fbconPixelFormatBgr < info.pixelFormat then (c, [], -Errno.inval)
      else
        let c := ⟨info, 0, 0, info.width / cellWidth, info.height / cellHeight⟩
        if c.columns = 0 ∨ c.rows = 0 then (c, [], -Errno.inval) else (c, clearScreen info, 0)

def fbconPutc (c : Fbcon) (ch : UInt8) : Fbcon × List (Access UInt32) :=
  if c.info.base = false ∨ c.rows = 0 ∨ c.columns = 0 then (c, [])
  else if ch = asciiCr then (c, [])
  else if ch = asciiBs then backspace c
  else if ch = asciiLf then newline c
  else
    let drawn := drawChar c.info ch c.cursorX c.cursorY
    let c := { c with cursorX := c.cursorX + 1 }
    if c.columns ≤ c.cursorX then ((newline c).1, drawn ++ (newline c).2) else (c, drawn)

/-- The loop of `fbcon_write`. -/
def fbconWrite (c : Fbcon) : List UInt8 → Fbcon × List (Access UInt32)
  | [] => (c, [])
  | ch :: text =>
      let first := fbconPutc c ch
      let rest := fbconWrite first.1 text
      (rest.1, first.2 ++ rest.2)

end Tianole.Video
