import Afos.Framebuffer
import Afos.Lib.Run

/-!
# The screen is not written beside

The console trusts its cursor: scrolling subtracts a line height from the height of the screen, and drawing
computes addresses from the cursor. What keeps this in range is `InBounds`, and each operation keeps it. The
glyph decides at the right edge, before it is drawn, and the line at the bottom one, after every line feed; a
screen of 80 pixels has room for any glyph of 78 from its left edge, with a pixel between two and one to spare.

Nothing is clipped, either. The pixels of a glyph are in different places and all of them on the screen, so that each
is stored once and none is drawn over: what was to be written can be read back (`holds_foldl_writePixel`).
-/

set_option autoImplicit false

namespace Afos

open Lib

namespace FramebufferConsole

/-- A screen that is large enough, the cursor on it, and all of memory that was touched part of it. The cursor is on
    the screen with a whole line below it, so that a glyph has room downwards. -/
structure InBounds (c : FramebufferConsole) : Prop where
  wide : 80 ≤ c.width
  tall : lineHeight ≤ c.height
  pitched : 4 * c.width ≤ c.pitch
  cursorX_lt : c.cursorX < c.width
  cursorY_le : c.cursorY + lineHeight ≤ c.height
  memory : c.memory.Within (c.height * c.pitch)

variable {c : FramebufferConsole}

/-! ## Scrolling and clearing -/

theorem InBounds.clear (h : InBounds c) : InBounds c.clear where
  wide := h.wide
  tall := h.tall
  pitched := h.pitched
  cursorX_lt := lt_of_lt_of_le (show 0 < 80 by decide) h.wide
  cursorY_le := (Nat.zero_add _).le.trans h.tall
  memory := Raw.within_fill h.memory (Nat.zero_add _).le 0

/-- The part that is moved and the part that is cleared make up the screen, so scrolling writes to all of it and to
    nothing else. -/
theorem lines_add_line (h : lineHeight ≤ c.height) :
    (c.height - lineHeight) * c.pitch + lineHeight * c.pitch = c.height * c.pitch := by
  rw [← Nat.add_mul, Nat.sub_add_cancel h]

/-- A line feed moves the cursor down, or the text up if there is no line left. -/
theorem InBounds.lineFeed (h : InBounds c) : InBounds c.lineFeed := by
  rw [FramebufferConsole.lineFeed, ensureVisible]
  have hzero : 0 < c.width := lt_of_lt_of_le (by decide) h.wide
  split
  · rename_i hvisible
    exact ⟨h.wide, h.tall, h.pitched, hzero, hvisible, h.memory⟩
  · -- the cursor's line is not all on the screen: everything goes up, and the last line is cleared
    have hlines := lines_add_line h.tall
    refine ⟨h.wide, h.tall, h.pitched, hzero, (Nat.sub_add_cancel h.tall).le, ?_⟩
    refine Raw.within_fill (Raw.within_copy h.memory ?_ ?_) hlines.le 0
    · rw [Nat.add_comm]
      exact hlines.le
    · rw [Nat.zero_add]
      exact (Nat.le_add_right _ _).trans hlines.le

/-! ## Drawing -/

/-- The font fits the screen: its glyphs are no higher than a line, and no wider than the narrowest screen has room
    for. -/
def Fits (font : Font) : Prop :=
  ∀ character glyph, font character = some glyph → glyph.raster.length ≤ lineHeight ∧ glyph.width ≤ 78

/-- A pixel that is not clipped. Clipped ones are no accesses at all. -/
def OnScreen (c : FramebufferConsole) (p : Pixel) : Prop := p.x < c.width ∧ p.y < c.height

/-- Where the four bytes of a pixel are. The pitch is in bytes, and may be more than the pixels of a line need. -/
def pixelOffset (pitch : Nat) (p : Pixel) : Nat := p.y * pitch + p.x * 4

/-- The pixels are all in different places, so that none is drawn over by another. -/
def Scattered (pixels : List Pixel) : Prop := pixels.Pairwise fun p q => (p.x, p.y) ≠ (q.x, q.y)

theorem writePixel_onScreen {p : Pixel} (h : OnScreen c p) :
    c.writePixel p = { c with memory := c.memory.storeWord (pixelOffset c.pitch p) p.color } :=
  if_neg (not_or.mpr ⟨not_le.mpr h.1, not_le.mpr h.2⟩)

/-- A pixel ends before the next line begins, because the pitch has room for all the pixels of a line. -/
theorem InBounds.pixelOffset_add (h : InBounds c) {p : Pixel} (hp : OnScreen c p) :
    pixelOffset c.pitch p + 4 ≤ (p.y + 1) * c.pitch := by
  have hpitched := h.pitched
  have hx := hp.1
  calc p.y * c.pitch + p.x * 4 + 4 ≤ p.y * c.pitch + c.pitch := by omega
    _ = (p.y + 1) * c.pitch := (Nat.succ_mul _ _).symm

theorem InBounds.storePixel (h : InBounds c) {p : Pixel} (hp : OnScreen c p) :
    InBounds { c with memory := c.memory.storeWord (pixelOffset c.pitch p) p.color } := by
  refine ⟨h.wide, h.tall, h.pitched, h.cursorX_lt, h.cursorY_le, Raw.within_storeWord h.memory ?_ _⟩
  exact (h.pixelOffset_add hp).trans (Nat.mul_le_mul_right _ hp.2)

/-- Two pixels have no byte in common: they are in different lines, or apart within one. -/
theorem InBounds.pixels_apart (h : InBounds c) {p q : Pixel} (hp : OnScreen c p) (hq : OnScreen c q)
    (hne : (p.x, p.y) ≠ (q.x, q.y)) :
    pixelOffset c.pitch p + 4 ≤ pixelOffset c.pitch q ∨ pixelOffset c.pitch q + 4 ≤ pixelOffset c.pitch p := by
  rcases Nat.lt_trichotomy p.y q.y with hlt | heq | hgt
  · have hline := Nat.mul_le_mul_right c.pitch hlt
    exact Or.inl ((h.pixelOffset_add hp).trans (hline.trans (Nat.le_add_right _ _)))
  · have hx : p.x ≠ q.x := fun hx => hne (by rw [hx, heq])
    rw [pixelOffset, pixelOffset, heq]
    omega
  · have hline := Nat.mul_le_mul_right c.pitch hgt
    exact Or.inr ((h.pixelOffset_add hq).trans (hline.trans (Nat.le_add_right _ _)))

/-- Pixels on the screen are all drawn, with one store each, and nothing but memory changes. What an earlier one of
    them or any other pixel had stays where they are not. That pixels do not overlap is a matter of the pitch. -/
theorem InBounds.foldl_writePixel (h : InBounds c) {pixels : List Pixel} (hp : ∀ p ∈ pixels, OnScreen c p) :
    ∃ memory, pixels.foldl writePixel c = { c with memory } ∧ InBounds { c with memory } ∧
      memory.accesses = c.memory.accesses ++ pixels.map (fun p => ⟨true, pixelOffset c.pitch p, 4⟩) ∧
      ∀ q, OnScreen c q → (∀ p ∈ pixels, (q.x, q.y) ≠ (p.x, p.y)) →
        c.memory.Holds (pixelOffset c.pitch q) q.color → memory.Holds (pixelOffset c.pitch q) q.color := by
  -- by the pixels: each is on the screen, so that its store is made and is in bounds
  induction pixels generalizing c with
  | nil => exact ⟨c.memory, rfl, h, (List.append_nil _).symm, fun q _ _ hq => hq⟩
  | cons p pixels ih =>
    rw [List.forall_mem_cons] at hp
    obtain ⟨memory, hdrawn, hbounds, haccesses, hkept⟩ := ih (h.storePixel hp.1) hp.2
    refine ⟨memory, ?_, hbounds, ?_, fun q hscreen hapart hq => hkept q hscreen ?_ ?_⟩
    · rw [List.foldl_cons, writePixel_onScreen hp.1]
      exact hdrawn
    · rw [haccesses, List.map_cons]
      exact List.append_assoc _ _ _
    · exact fun r hr => hapart r (List.mem_cons_of_mem _ hr)
    · exact hq.storeWord (h.pixels_apart hscreen hp.1 (hapart p List.mem_cons_self)) _

/-- Pixels in different places are all there in the end, each with its color. -/
theorem InBounds.holds_foldl_writePixel (h : InBounds c) {pixels : List Pixel} (hp : ∀ p ∈ pixels, OnScreen c p)
    (hscattered : Scattered pixels) :
    ∀ p ∈ pixels, (pixels.foldl writePixel c).memory.Holds (pixelOffset c.pitch p) p.color := by
  induction pixels generalizing c with
  | nil => exact fun p hin => absurd hin List.not_mem_nil
  | cons p pixels ih =>
    rw [List.forall_mem_cons] at hp
    obtain ⟨hapart, hscattered⟩ := List.pairwise_cons.mp hscattered
    rw [List.foldl_cons, writePixel_onScreen hp.1, List.forall_mem_cons]
    refine ⟨?_, ih (h.storePixel hp.1) hp.2 hscattered⟩
    -- the first is stored, and the others go elsewhere
    obtain ⟨memory, hdrawn, -, -, hkept⟩ := (h.storePixel hp.1).foldl_writePixel hp.2
    rw [hdrawn]
    exact hkept p hp.1 hapart (Raw.holds_storeWord _ _ _)

/-- Before a glyph is drawn there is room for it, on this line or on the next. -/
theorem InBounds.wrapFor (h : InBounds c) {glyph : Glyph} (hglyph : glyph.width ≤ 78) :
    InBounds (c.wrapFor glyph) ∧ (c.wrapFor glyph).cursorX + glyph.width + 1 < (c.wrapFor glyph).width := by
  rw [FramebufferConsole.wrapFor]
  split
  · refine ⟨h.lineFeed, ?_⟩
    have hwide := h.lineFeed.wide
    -- a line feed leaves the cursor at the left edge, where there is room for any glyph of 78
    have hstart : c.lineFeed.cursorX = 0 := by
      rw [FramebufferConsole.lineFeed, ensureVisible]
      split
      · rfl
      · rfl
    omega
  · rename_i hroom
    exact ⟨h, not_le.mp hroom⟩

/-! ### The pixels of a glyph -/

/-- One store for each entry of a raster, row by row, with its upper left corner at a pixel of the screen. -/
def glyphStores (pitch left top : Nat) (glyph : Glyph) : List Access :=
  glyph.raster.zipIdx.flatMap fun row => row.1.zipIdx.map fun entry =>
    ⟨true, (top + row.2) * pitch + (left + entry.2) * 4, 4⟩

theorem map_glyphPixels (c : FramebufferConsole) (glyph : Glyph) :
    (c.glyphPixels glyph).map (fun p => (⟨true, pixelOffset c.pitch p, 4⟩ : Access)) =
      glyphStores c.pitch c.cursorX c.cursorY glyph := by
  rw [FramebufferConsole.glyphPixels, glyphStores, List.map_flatMap]
  simp only [List.map_map]
  rfl

theorem mem_glyphPixels {p : Pixel} {glyph : Glyph} :
    p ∈ c.glyphPixels glyph ↔ ∃ y row x intensity, glyph.raster[y]? = some row ∧ row[x]? = some intensity ∧
      p = ⟨c.cursorX + x, c.cursorY + y, c.pixelColor intensity⟩ := by
  constructor
  · intro hp
    obtain ⟨⟨row, y⟩, hrow, hp⟩ := List.mem_flatMap.mp hp
    obtain ⟨⟨intensity, x⟩, hentry, rfl⟩ := List.mem_map.mp hp
    exact ⟨y, row, x, intensity, List.mk_mem_zipIdx_iff_getElem?.mp hrow,
      List.mk_mem_zipIdx_iff_getElem?.mp hentry, rfl⟩
  · rintro ⟨y, row, x, intensity, hrow, hentry, rfl⟩
    exact List.mem_flatMap.mpr ⟨(row, y), List.mk_mem_zipIdx_iff_getElem?.mpr hrow,
      List.mem_map.mpr ⟨(intensity, x), List.mk_mem_zipIdx_iff_getElem?.mpr hentry, rfl⟩⟩

/-- Two entries of a raster differ in their column or in their row, so no pixel of a glyph draws over another. -/
theorem scattered_glyphPixels (c : FramebufferConsole) (glyph : Glyph) : Scattered (c.glyphPixels glyph) := by
  refine List.pairwise_flatMap.mpr ⟨fun row _ => ?_, ?_⟩
  · refine List.pairwise_map.mpr ((List.pairwise_map.mp (List.nodup_zipIdx_map_snd row.1)).imp fun hne heq => ?_)
    exact hne (Nat.add_left_cancel (Prod.mk.inj heq).1)
  · refine (List.pairwise_map.mp (List.nodup_zipIdx_map_snd glyph.raster)).imp fun hne p hp q hq heq => ?_
    obtain ⟨_, -, rfl⟩ := List.mem_map.mp hp
    obtain ⟨_, -, rfl⟩ := List.mem_map.mp hq
    exact hne (Nat.add_left_cancel (Prod.mk.inj heq).2)

/-- A glyph that has room on the line is on the screen with all its pixels, so none of them is clipped. -/
theorem InBounds.glyphPixels (h : InBounds c) {glyph : Glyph} (hroom : c.cursorX + glyph.width + 1 < c.width)
    (hrows : glyph.raster.length ≤ lineHeight) : ∀ p ∈ c.glyphPixels glyph, OnScreen c p := by
  intro p hp
  obtain ⟨y, row, x, intensity, hrow, hentry, rfl⟩ := mem_glyphPixels.mp hp
  obtain ⟨hy, rfl⟩ := List.getElem?_eq_some_iff.mp hrow
  obtain ⟨hx, -⟩ := List.getElem?_eq_some_iff.mp hentry
  have hwidth := glyph.row_width _ (List.getElem_mem hy)
  have hcursor := h.cursorY_le
  exact ⟨by show c.cursorX + x < c.width; omega, by show c.cursorY + y < c.height; omega⟩

/-- A glyph is drawn in bounds, all of it is on the screen, and it is there when it has been drawn. -/
theorem InBounds.drawGlyph (h : InBounds c) {glyph : Glyph} (hrows : glyph.raster.length ≤ lineHeight)
    (hglyph : glyph.width ≤ 78) : InBounds (c.drawGlyph glyph) ∧
      (∀ p ∈ (c.wrapFor glyph).glyphPixels glyph, OnScreen (c.wrapFor glyph) p ∧
        (c.drawGlyph glyph).memory.Holds (pixelOffset (c.wrapFor glyph).pitch p) p.color) ∧
      (c.drawGlyph glyph).memory.accesses = (c.wrapFor glyph).memory.accesses ++
        glyphStores (c.wrapFor glyph).pitch (c.wrapFor glyph).cursorX (c.wrapFor glyph).cursorY glyph := by
  obtain ⟨hwrapped, hroom⟩ := h.wrapFor hglyph
  -- the line is chosen first, so that every pixel of the glyph is on the screen
  have hpixels := hwrapped.glyphPixels hroom hrows
  have hholds := hwrapped.holds_foldl_writePixel hpixels (scattered_glyphPixels _ glyph)
  obtain ⟨memory, hdrawn, hbounds, haccesses, -⟩ := hwrapped.foldl_writePixel hpixels
  rw [map_glyphPixels] at haccesses
  rw [hdrawn] at hholds
  rw [FramebufferConsole.drawGlyph]
  dsimp only
  rw [hdrawn]
  exact ⟨⟨hbounds.wide, hbounds.tall, hbounds.pitched, hroom, hbounds.cursorY_le, hbounds.memory⟩,
    fun p hp => ⟨hpixels p hp, hholds p hp⟩, haccesses⟩

/-! ## The screen stays the same -/

/-- The size of the screen and of its lines, which is all that the bounds of an access depend on. -/
def screen (c : FramebufferConsole) : Nat × Nat × Nat := (c.width, c.height, c.pitch)

theorem screen_lineFeed (c : FramebufferConsole) : c.lineFeed.screen = c.screen := by
  rw [lineFeed, ensureVisible]
  split
  · rfl
  · rfl

theorem screen_writePixel (c : FramebufferConsole) (p : Pixel) : (c.writePixel p).screen = c.screen := by
  rw [writePixel]
  split
  · rfl
  · rfl

theorem screen_wrapFor (c : FramebufferConsole) (glyph : Glyph) : (c.wrapFor glyph).screen = c.screen := by
  rw [wrapFor]
  split
  · exact screen_lineFeed c
  · rfl

theorem screen_drawGlyph (c : FramebufferConsole) (glyph : Glyph) :
    (c.drawGlyph glyph).screen = c.screen := by
  have hpixels : ∀ (pixels : List Pixel) (c : FramebufferConsole),
      (pixels.foldl writePixel c).screen = c.screen := by
    intro pixels
    induction pixels with
    | nil => exact fun c => rfl
    | cons p pixels ih => exact fun c => (ih (c.writePixel p)).trans (screen_writePixel c p)
  exact (hpixels _ _).trans (screen_wrapFor c glyph)

/-! ## Every operation -/

section Font

variable (font : Font)

/-- What is done to the console: a character is written, or it is cleared. A text is a list of the first. -/
inductive ScreenOp where
  | put (character : Char)
  | clear

def apply (c : FramebufferConsole) : ScreenOp → FramebufferConsole
  | .put character => c.putChar font character
  | .clear => c.clear

variable {font}

theorem Fits.glyphOf (hfont : Fits font) {character : Char} {glyph : Glyph}
    (h : glyphOf font character = some glyph) : glyph.raster.length ≤ lineHeight ∧ glyph.width ≤ 78 := by
  rw [FramebufferConsole.glyphOf, Option.orElse_eq_some] at h
  rcases h with h | ⟨-, h⟩
  · exact hfont character glyph h
  · exact hfont '?' glyph h

/-- Every character keeps the screen in bounds, printable or not. The font only has to fit the line. -/
theorem InBounds.putChar (h : InBounds c) (hfont : Fits font) (character : Char) :
    InBounds (c.putChar font character) ∧ (c.putChar font character).screen = c.screen := by
  have hcursor : ∀ x, x ≤ c.cursorX → InBounds { c with cursorX := x } := fun x hx =>
    ⟨h.wide, h.tall, h.pitched, lt_of_le_of_lt hx h.cursorX_lt, h.cursorY_le, h.memory⟩
  -- line feed, carriage return, backspace, the other control characters, and a character without a glyph
  rw [FramebufferConsole.putChar]
  split
  · exact ⟨h.lineFeed, screen_lineFeed c⟩
  split
  · exact ⟨hcursor 0 (Nat.zero_le _), rfl⟩
  split
  · exact ⟨hcursor _ (Nat.sub_le _ _), rfl⟩
  split
  · exact ⟨h, rfl⟩
  split
  · exact ⟨h, rfl⟩
  · rename_i glyph hglyph
    obtain ⟨hrows, hwidth⟩ := hfont.glyphOf hglyph
    exact ⟨(h.drawGlyph hrows hwidth).1, screen_drawGlyph c glyph⟩

theorem InBounds.apply (h : InBounds c) (hfont : Fits font) (op : ScreenOp) :
    InBounds (c.apply font op) ∧ (c.apply font op).screen = c.screen := by
  cases op with
  | put character => exact h.putChar hfont character
  | clear => exact ⟨h.clear, rfl⟩

theorem inBounds_of_new {framebuffer : Framebuffer} (hpitch : 4 * framebuffer.width ≤ framebuffer.pitch)
    (h : new framebuffer = some c) : InBounds c ∧
      c.screen = (framebuffer.width, framebuffer.height, framebuffer.pitch) := by
  rw [new] at h
  split at h
  · cases h
  · rename_i hlarge
    rw [not_or, not_or, not_lt, not_lt] at hlarge
    obtain rfl := Option.some.inj h
    refine ⟨⟨hlarge.2.1, hlarge.2.2, hpitch, lt_of_lt_of_le (show 0 < 80 by decide) hlarge.2.1,
      (Nat.zero_add _).le.trans hlarge.2.2, ?_⟩, rfl⟩
    exact Raw.within_fill (fun access hin => (by cases hin)) (Nat.zero_add _).le 0

/-- A character that is no control character is drawn, if there is a glyph for it. -/
theorem putChar_of_glyph {character : Char} {glyph : Glyph} (hcontrol : isControl character = false)
    (hglyph : glyphOf font character = some glyph) (c : FramebufferConsole) :
    c.putChar font character = c.drawGlyph glyph := by
  have hne : ∀ control, isControl control = true → character ≠ control := by
    rintro control hc rfl
    cases hc.symm.trans hcontrol
  rw [putChar, if_neg (hne '\n' rfl), if_neg (hne '\r' rfl), if_neg (hne '\x08' rfl), hcontrol, hglyph]
  rfl

/-- **The console stays in bounds.** On every screen that it accepts, with a pitch of at least four bytes to a
    pixel, and with a font whose glyphs have at most 18 rows and 78 columns: after any characters and clears,
    the cursor is on the screen with its line, and every access was to the memory of the screen.

    Nothing of what is written next is clipped either. A character that is no control character is drawn where the
    cursor is, or at the beginning of the next line if there is no room on this one; writing it makes one store
    for each entry of its raster and no other, each entry is on the screen in its column and its row, and when the
    character has been written the color of the entry is there. -/
theorem console_stays_in_bounds (hfont : Fits font) (framebuffer : Framebuffer)
    (hpitch : 4 * framebuffer.width ≤ framebuffer.pitch) (hnew : new framebuffer = some c)
    (ops : List ScreenOp) {c' : FramebufferConsole} (hrun : c' = runFrom (apply font) c ops) :
    c'.cursorX < framebuffer.width ∧ c'.cursorY + 18 ≤ framebuffer.height ∧
      (∀ access ∈ c'.memory.accesses,
        access.offset + access.len ≤ framebuffer.height * framebuffer.pitch) ∧
      ∀ character glyph start, isControl character = false → glyphOf font character = some glyph →
        start = (if framebuffer.width ≤ c'.cursorX + glyph.width + 1 then c'.lineFeed else c') →
        (c'.putChar font character).memory.accesses =
            start.memory.accesses ++ glyphStores framebuffer.pitch start.cursorX start.cursorY glyph ∧
          ∀ y row x intensity, glyph.raster[y]? = some row → row[x]? = some intensity →
            start.cursorX + x < framebuffer.width ∧ start.cursorY + y < framebuffer.height ∧
              (c'.putChar font character).memory.Holds
                ((start.cursorY + y) * framebuffer.pitch + (start.cursorX + x) * 4) (start.pixelColor intensity) := by
  -- no operation changes the size of the screen
  have hinv : InBounds c' ∧ c'.screen = (framebuffer.width, framebuffer.height, framebuffer.pitch) := by
    rw [hrun]
    exact Along.invariant
      (fun c => InBounds c ∧ c.screen = (framebuffer.width, framebuffer.height, framebuffer.pitch))
      (fun c op h _ => ⟨(h.1.apply hfont op).1, (h.1.apply hfont op).2.trans h.2⟩)
      (Along.of_forall (fun _ _ => trivial) c ops) (inBounds_of_new hpitch hnew)
  obtain ⟨hbounds, hscreen⟩ := hinv
  obtain ⟨hwidth, hsize⟩ := Prod.mk.inj hscreen
  obtain ⟨hheight, hlines⟩ := Prod.mk.inj hsize
  refine ⟨hwidth ▸ hbounds.cursorX_lt, hheight ▸ hbounds.cursorY_le, ?_, ?_⟩
  · rw [← hheight, ← hlines]
    exact hbounds.memory
  · -- the pixels of the glyph, at the cursor that `wrapFor` leaves
    intro character glyph start hcontrol hglyph hstart
    rw [← hwidth] at hstart
    obtain rfl : start = c'.wrapFor glyph := hstart
    obtain ⟨hrows, hcolumns⟩ := hfont.glyphOf hglyph
    obtain ⟨-, hpixels, haccesses⟩ := hbounds.drawGlyph hrows hcolumns
    obtain ⟨hwidth', hsize'⟩ := Prod.mk.inj ((screen_wrapFor c' glyph).trans hscreen)
    obtain ⟨hheight', hlines'⟩ := Prod.mk.inj hsize'
    rw [putChar_of_glyph hcontrol hglyph, ← hlines', ← hwidth', ← hheight']
    refine ⟨haccesses, fun y row x intensity hrow hentry => ?_⟩
    obtain ⟨hon, hholds⟩ := hpixels _ (mem_glyphPixels.mpr ⟨y, row, x, intensity, hrow, hentry, rfl⟩)
    exact ⟨hon.1, hon.2, hholds⟩

end Font

/-- A font of one glyph, a square of two pixels each way, for every character. -/
def squareFont : Font := fun _ => some ⟨2, [[255, 0], [0, 255]], by decide⟩

theorem fits_squareFont : Fits squareFont := by
  intro character glyph h
  obtain rfl := Option.some.inj h
  decide

/-- The smallest screen, with four bytes to spare at the end of each line. -/
def smallFramebuffer : Framebuffer := ⟨fun _ => 7, 32, 80, 18, 324, 16, 8, 0⟩

/-- Two lines of text on a screen of one, and the two white pixels of a third character beside the second. -/
theorem small_screen_stays_in_bounds : ∃ c c', new smallFramebuffer = some c ∧
    c' = runFrom (apply squareFont) c [.put 'a', .put '\n', .put 'b'] ∧
    c'.cursorX < 80 ∧ c'.cursorY + 18 ≤ 18 ∧
      (∀ access ∈ c'.memory.accesses, access.offset + access.len ≤ 18 * 324) ∧
      (c'.putChar squareFont 'c').memory.Holds (3 * 4) 0xFFFFFF ∧
      (c'.putChar squareFont 'c').memory.Holds (324 + 4 * 4) 0xFFFFFF := by
  obtain ⟨hcolumn, hline, hwithin, hdrawn⟩ := console_stays_in_bounds fits_squareFont smallFramebuffer (by decide) rfl
    [.put 'a', .put '\n', .put 'b'] rfl
  obtain ⟨-, hpixels⟩ := hdrawn 'c' _ _ (by decide) rfl rfl
  exact ⟨_, _, rfl, rfl, hcolumn, hline, hwithin, (hpixels 0 [255, 0] 0 255 rfl rfl).2.2,
    (hpixels 1 [0, 255] 1 255 rfl rfl).2.2⟩

end FramebufferConsole

end Afos
