import Afos.Lib.Raw
import Afos.Lib.Text

/-!
# The framebuffer console

`FramebufferConsole` of `platforms/bare-metal/src/console.rs`: text drawn into the memory of the screen, glyph
by glyph, with a cursor that wraps at the right edge and a screen that scrolls at the bottom one. The memory is
a raw pointer in the source, so here it is `Raw`, with its record of accesses. The font is a parameter: a
raster for some of the characters.
-/

set_option autoImplicit false

namespace Afos

open Lib

def fontHeight : Nat := 16

def lineHeight : Nat := fontHeight + 2

/-- A raster of the font: rows of intensities, all of the width. The height is that of the font size, and the drawing
    goes by the rows that are there. -/
structure Glyph where
  width : Nat
  raster : List (List UInt8)
  row_width : ∀ row ∈ raster, row.length = width

/-- Source name: `get_raster`, at the regular weight and the size in use. Nothing is said about which characters have
    a raster. -/
abbrev Font := Char → Option Glyph

/-- What the loader says about the screen, and the bytes that are there. Source name of the first field:
    `address`. -/
structure Framebuffer where
  bytes : Nat → UInt8
  bpp : Nat
  width : Nat
  height : Nat
  pitch : Nat
  redMaskShift : UInt8
  greenMaskShift : UInt8
  blueMaskShift : UInt8

/-- The console as it keeps what it was told, and the cursor in pixels. Source name of the first field: `address`. -/
structure FramebufferConsole where
  memory : Raw
  width : Nat
  height : Nat
  pitch : Nat
  redShift : UInt8
  greenShift : UInt8
  blueShift : UInt8
  cursorX : Nat
  cursorY : Nat

/-- Unicode `Cc`. Source name: `char::is_control`. Those that `putChar` does not know are not drawn. -/
def isControl (c : Char) : Bool := c.toNat < 0x20 || (0x7f ≤ c.toNat && c.toNat ≤ 0x9f)

namespace FramebufferConsole

def clear (c : FramebufferConsole) : FramebufferConsole :=
  { c with memory := c.memory.fill 0 0 (c.height * c.pitch), cursorX := 0, cursorY := 0 }

/-- A screen that is narrower than 80 pixels, too low for a line, or not in words of 32 bits is not used. That the
    memory is as long as the loader says is nothing that can be tested. -/
def new (framebuffer : Framebuffer) : Option FramebufferConsole :=
  if framebuffer.bpp ≠ 32 ∨ framebuffer.width < 80 ∨ framebuffer.height < lineHeight then none
  else some (clear
    { memory := ⟨framebuffer.bytes, []⟩, width := framebuffer.width, height := framebuffer.height,
      pitch := framebuffer.pitch, redShift := framebuffer.redMaskShift,
      greenShift := framebuffer.greenMaskShift, blueShift := framebuffer.blueMaskShift,
      cursorX := 0, cursorY := 0 })

/-- Scroll by one line if the cursor's line is not all on the screen. The cursor is then on the last line, however far
    below it was. -/
def ensureVisible (c : FramebufferConsole) : FramebufferConsole :=
  if c.cursorY + lineHeight ≤ c.height then c
  else
    let bytesToMove := (c.height - lineHeight) * c.pitch
    { c with
      memory := (c.memory.copy (lineHeight * c.pitch) 0 bytesToMove).fill bytesToMove 0
        (lineHeight * c.pitch)
      cursorY := c.height - lineHeight }

/-- The cursor at the beginning of the next line, with the screen scrolled if there is none. -/
def lineFeed (c : FramebufferConsole) : FramebufferConsole :=
  ensureVisible { c with cursorX := 0, cursorY := c.cursorY + lineHeight }

/-- The same intensity in all three channels, at the places that the loader has given for them. -/
def pixelColor (c : FramebufferConsole) (intensity : UInt8) : UInt32 :=
  let channel := intensity.toUInt32
  (channel <<< c.redShift.toUInt32) ||| (channel <<< c.greenShift.toUInt32) |||
    (channel <<< c.blueShift.toUInt32)

/-- A call of `writePixel`: where, and the color. Drawing a glyph is a list of these, so that what is drawn can be
    spoken of apart from the memory. -/
structure Pixel where
  x : Nat
  y : Nat
  color : UInt32
  deriving DecidableEq

/-- The one place where a pixel is stored. The test against the screen's width and height is what keeps every store
    inside, whatever the caller has computed. -/
def writePixel (c : FramebufferConsole) (p : Pixel) : FramebufferConsole :=
  if c.width ≤ p.x ∨ c.height ≤ p.y then c
  else { c with memory := c.memory.storeWord (p.y * c.pitch + p.x * 4) p.color }

/-- The calls that draw a glyph at the cursor, row by row. Every pixel of the raster is drawn, those of intensity 0 as
    well, so a glyph covers what was there. -/
def glyphPixels (c : FramebufferConsole) (glyph : Glyph) : List Pixel :=
  glyph.raster.zipIdx.flatMap fun (row, y) =>
    row.zipIdx.map fun (intensity, x) => ⟨c.cursorX + x, c.cursorY + y, c.pixelColor intensity⟩

/-- The console at which a glyph is drawn: on the next line, if there is no room on this one. A glyph has a column of
    pixels behind it. -/
def wrapFor (c : FramebufferConsole) (glyph : Glyph) : FramebufferConsole :=
  if c.width ≤ c.cursorX + glyph.width + 1 then c.lineFeed else c

def drawGlyph (c : FramebufferConsole) (glyph : Glyph) : FramebufferConsole :=
  let c := c.wrapFor glyph
  let drawn := (c.glyphPixels glyph).foldl writePixel c
  { drawn with cursorX := drawn.cursorX + glyph.width + 1 }

variable (font : Font)

/-- The glyph that a character is drawn with: its own, or that of the question mark, or none if the font has not even
    that. -/
def glyphOf (character : Char) : Option Glyph := font character <|> font '?'

/-- Backspace takes the cursor back by nine pixels, whatever was drawn there, and erases nothing; the console writes a
    space over the character to do that. -/
def putChar (c : FramebufferConsole) (character : Char) : FramebufferConsole :=
  if character = '\n' then c.lineFeed
  else if character = '\r' then { c with cursorX := 0 }
  else if character = '\x08' then { c with cursorX := c.cursorX - 9 }
  else if isControl character then c
  else match glyphOf font character with
    | none => c
    | some glyph => c.drawGlyph glyph

/-- Source name: `write`. One character after the other, and nothing is kept between two calls but the cursor. -/
def writeText (c : FramebufferConsole) (text : Str) : FramebufferConsole := text.foldl (putChar font) c

end FramebufferConsole

end Afos
