import Relocade.Vga.Pages
import Relocade.Vga.Timing

/-!
# `Vga.Layout` — packed pixel layouts

A layout places the visible image in video memory: bytes between rows, and the coordinates of the top-left pixel. The
arithmetic is checked, `none` where an unsigned 32-bit value would wrap. Layouts are changed piecewise, each change
validated against what the others leave room for.
-/

namespace Relocade.Vga

open Option (bind_eq_bind bind_some)

/-! ## Modes -/

/-- Pixel interpretation in packed VRAM. -/
inductive PixelFormat where
  | indexed8
  | rgb565
  | bgrx8888
  deriving DecidableEq, Repr

def PixelFormat.bitsPerPixel : PixelFormat → Nat
  | .indexed8 => 8
  | .rgb565 => 16
  | .bgrx8888 => 32

def PixelFormat.bytesPerPixel (format : PixelFormat) : Nat := format.bitsPerPixel / 8

/-- A device resolution and pixel format. -/
structure SvgaMode where
  resolution : SvgaResolution
  format : PixelFormat
  deriving DecidableEq, Repr

namespace SvgaMode

variable (mode : SvgaMode)

def resolutionOf (width height : BitVec 16) : Option SvgaResolution :=
  if width = 640 ∧ height = 480 then some .r640x480
  else if width = 800 ∧ height = 600 then some .r800x600
  else if width = 1024 ∧ height = 768 then some .r1024x768
  else none

def formatOf (bitsPerPixel : BitVec 16) : Option PixelFormat :=
  if bitsPerPixel = 8 then some .indexed8
  else if bitsPerPixel = 16 then some .rgb565
  else if bitsPerPixel = 32 then some .bgrx8888
  else none

def fromRegisters (width height bitsPerPixel : BitVec 16) : Option SvgaMode := do
  let resolution ← resolutionOf width height
  let format ← formatOf bitsPerPixel
  pure ⟨resolution, format⟩

def size : Nat × Nat := mode.resolution.size

/-- Bytes of a pixel. -/
def pixelBytes : Nat := mode.format.bytesPerPixel

/-- Largest whole-pixel byte stride that accommodates the visible height. -/
def maxPitch : Option Nat := do
  let rows ← Checked.div VIDEO_MEMORY_BYTES mode.size.2
  let pixels ← Checked.div rows mode.pixelBytes
  Checked.mul 32 pixels mode.pixelBytes

end SvgaMode

/-! ## Layouts -/

/-- A packed pixel layout. -/
structure SvgaLayout where
  mode : SvgaMode
  /-- Bytes between successive image rows. -/
  pitch : Nat
  /-- Top-left viewport coordinates, in pixels. -/
  origin : Nat × Nat
  deriving DecidableEq, Repr

def SvgaMode.layout (mode : SvgaMode) : Option SvgaLayout := do
  let pitch ← Checked.mul 32 mode.size.1 mode.pixelBytes
  pure ⟨mode, pitch, (0, 0)⟩

namespace SvgaLayout

variable (layout l : SvgaLayout)

/-- Physical VRAM byte containing the top-left pixel. -/
def displayStart : Option Nat := do
  let rows ← Checked.mul 32 layout.origin.2 layout.pitch
  let columns ← Checked.mul 32 layout.origin.1 layout.mode.pixelBytes
  Checked.add 32 rows columns

def virtualHeight : Option Nat := Checked.div VIDEO_MEMORY_BYTES layout.pitch

/-- Pixels in a complete logical row, including horizontal padding. -/
def virtualWidth : Option Nat := Checked.div layout.pitch layout.mode.pixelBytes

/-- Complete display pages, including the first page, independent of origin. -/
def imagePages : Option Nat := do
  let height ← layout.virtualHeight
  Checked.div height layout.mode.size.2

/-- Places the viewport within complete logical rows, without memory wrapping. -/
def withOrigin (origin : Nat × Nat) : Option (Option SvgaLayout) := do
  let width ← layout.virtualWidth
  let columns ← Checked.sub width layout.mode.size.1
  if origin.1 ≤ columns then do
    let height ← layout.virtualHeight
    let rows ← Checked.sub height layout.mode.size.2
    pure (if origin.2 ≤ rows then some { layout with origin } else none)
  else pure none

/-- Changes the byte stride while retaining the visible pixel coordinates. -/
def withPitch (pitch : Nat) : Option (Option SvgaLayout) :=
  if pitch % layout.mode.pixelBytes ≠ 0 then pure none
  else do
    let least ← Checked.mul 32 layout.mode.size.1 layout.mode.pixelBytes
    let most ← layout.mode.maxPitch
    -- The viewport must still fit in VRAM.
    if least ≤ pitch ∧ pitch ≤ most then withOrigin { layout with pitch } layout.origin else pure none

/-- Changes the logical row width in pixels, retaining the viewport origin. -/
def withVirtualWidth (pixels : Nat) : Option (Option SvgaLayout) :=
  match Checked.mul 32 pixels layout.mode.pixelBytes with
  | some pitch => layout.withPitch pitch
  | none => some none

/-- The bytes up to the end of the visible image. -/
def memoryBytes : Option Nat := do
  let start ← layout.displayStart
  let last ← Checked.sub layout.mode.size.2 1
  let rows ← Checked.mul 32 last layout.pitch
  let row ← Checked.add 32 start rows
  let width ← Checked.mul 32 layout.mode.size.1 layout.mode.pixelBytes
  Checked.add 32 row width

/-! ## What fits -/

/-- Rows of whole pixels that hold the visible ones, and as many as are visible in video memory. -/
structure PitchFits : Prop where
  whole : layout.pitch % layout.mode.pixelBytes = 0
  row : layout.mode.size.1 * layout.mode.pixelBytes ≤ layout.pitch
  rows : layout.mode.size.2 * layout.pitch ≤ VIDEO_MEMORY_BYTES

/-- The visible image lies inside video memory, each row of it in one logical row. -/
structure Fits : Prop extends PitchFits layout where
  column : (layout.origin.1 + layout.mode.size.1) * layout.mode.pixelBytes ≤ layout.pitch
  image : (layout.origin.2 + layout.mode.size.2) * layout.pitch ≤ VIDEO_MEMORY_BYTES

end SvgaLayout

/-! ## Bounds -/

theorem SvgaMode.bounds (mode : SvgaMode) : 640 ≤ mode.size.1 ∧ mode.size.1 ≤ 1024 ∧ 480 ≤ mode.size.2 ∧
    mode.size.2 ≤ 768 ∧ 0 < mode.pixelBytes ∧ mode.pixelBytes ≤ 4 := by
  obtain ⟨resolution, format⟩ := mode
  cases resolution <;> cases format <;> decide

/-- The largest stride is that of the rows that are visible in video memory. -/
theorem SvgaMode.maxPitch_spec (mode : SvgaMode) : ∃ most, mode.maxPitch = some most ∧
    ∀ pitch, pitch % mode.pixelBytes = 0 → (pitch ≤ most ↔ mode.size.2 * pitch ≤ VIDEO_MEMORY_BYTES) := by
  obtain ⟨-, -, hheight, -, hpixel, -⟩ := mode.bounds
  have hpositive : 0 < mode.size.2 := Nat.lt_of_lt_of_le (by decide) hheight
  have hle : VIDEO_MEMORY_BYTES / mode.size.2 / mode.pixelBytes * mode.pixelBytes ≤ VIDEO_MEMORY_BYTES :=
    (Nat.div_mul_le_self _ _).trans (Nat.div_le_self _ _)
  have hmem : VIDEO_MEMORY_BYTES < 2 ^ 32 := by decide
  refine ⟨VIDEO_MEMORY_BYTES / mode.size.2 / mode.pixelBytes * mode.pixelBytes, ?_, fun pitch hwhole => ?_⟩
  · rw [SvgaMode.maxPitch, Checked.div_eq hpositive]
    simp only [bind_eq_bind, bind_some, Checked.div_eq hpixel]
    exact Checked.mul_eq (Nat.lt_of_le_of_lt hle hmem)
  · obtain ⟨pixels, rfl⟩ := Nat.dvd_of_mod_eq_zero hwhole
    rw [Nat.mul_comm mode.pixelBytes pixels, Nat.mul_le_mul_right_iff hpixel, Nat.le_div_iff_mul_le hpixel,
      Nat.le_div_iff_mul_le hpositive, Nat.mul_comm (pixels * mode.pixelBytes)]

namespace SvgaLayout

variable {layout l : SvgaLayout}

theorem PitchFits.pitch_lt (h : l.PitchFits) : 640 ≤ l.pitch ∧ l.pitch < 2 ^ 14 := by
  obtain ⟨hwidth, -, hheight, -, hpixel, -⟩ := l.mode.bounds
  have hrow := Nat.mul_le_mul hwidth hpixel
  have hrows := Nat.mul_le_mul_right l.pitch hheight
  have hmem : VIDEO_MEMORY_BYTES = 4194304 := rfl
  have hfits := h.rows
  have hleast := h.row
  omega

theorem Fits.origin_lt (h : l.Fits) : l.origin.1 < 2 ^ 14 ∧ l.origin.2 < 2 ^ 14 := by
  obtain ⟨-, -, -, -, hpixel, -⟩ := l.mode.bounds
  obtain ⟨hpitch, hpitch'⟩ := h.pitch_lt
  have hcolumn := h.column
  have himage := h.image
  have hmem : VIDEO_MEMORY_BYTES = 4194304 := rfl
  have hx := Nat.le_mul_of_pos_right (l.origin.1 + l.mode.size.1) hpixel
  have hy := Nat.mul_le_mul_left (l.origin.2 + l.mode.size.2) hpitch
  constructor <;> omega

/-- Every byte of every visible pixel is inside video memory. -/
theorem Fits.pixel_lt (h : l.Fits) {x y byte : Nat} (hx : x < l.mode.size.1) (hy : y < l.mode.size.2)
    (hbyte : byte < l.mode.pixelBytes) :
    l.origin.2 * l.pitch + l.origin.1 * l.mode.pixelBytes + y * l.pitch +
      x * l.mode.pixelBytes + byte < VIDEO_MEMORY_BYTES := by
  have hcolumn : (l.origin.1 + x) * l.mode.pixelBytes + byte < l.pitch := by
    have hnext := Nat.mul_le_mul_right l.mode.pixelBytes
      (show l.origin.1 + x + 1 ≤ l.origin.1 + l.mode.size.1 by omega)
    rw [Nat.add_one_mul] at hnext
    have := h.column
    omega
  have hrow := Nat.mul_le_mul_right l.pitch
    (show l.origin.2 + y + 1 ≤ l.origin.2 + l.mode.size.2 by omega)
  rw [Nat.add_one_mul] at hrow
  have himage := h.image
  rw [Nat.add_mul] at hcolumn
  rw [Nat.add_mul l.origin.2 y] at hrow
  omega

/-! ## The computations on layouts that fit -/

theorem displayStart_eq (h : l.Fits) :
    l.displayStart = some (l.origin.2 * l.pitch + l.origin.1 * l.mode.pixelBytes) := by
  obtain ⟨hwidth, -, hheight, -, hpixel, -⟩ := l.mode.bounds
  have hst := h.pixel_lt (show 0 < l.mode.size.1 by omega) (show 0 < l.mode.size.2 by omega) hpixel
  have hmem : VIDEO_MEMORY_BYTES = 4194304 := rfl
  rw [displayStart, Checked.mul_eq (by omega)]
  simp only [bind_eq_bind, bind_some]
  rw [Checked.mul_eq (by omega)]
  exact Checked.add_eq (by omega)

theorem memoryBytes_eq (h : l.Fits) : ∃ bytes, l.memoryBytes = some bytes ∧ bytes ≤ VIDEO_MEMORY_BYTES := by
  obtain ⟨hwidth, -, hheight, -, hpixel, -⟩ := l.mode.bounds
  have hend := h.pixel_lt (show l.mode.size.1 - 1 < l.mode.size.1 by omega)
    (show l.mode.size.2 - 1 < l.mode.size.2 by omega)
    (show l.mode.pixelBytes - 1 < l.mode.pixelBytes by omega)
  have hlast : (l.mode.size.1 - 1) * l.mode.pixelBytes + l.mode.pixelBytes =
      l.mode.size.1 * l.mode.pixelBytes := by
    rw [← Nat.add_one_mul, Nat.sub_add_cancel (by omega)]
  have hmem : VIDEO_MEMORY_BYTES = 4194304 := rfl
  rw [memoryBytes, displayStart_eq h]
  simp only [bind_eq_bind, bind_some]
  rw [Checked.sub_eq (by omega), bind_some, Checked.mul_eq (by omega), bind_some,
    Checked.add_eq (by omega), bind_some, Checked.mul_eq (by omega), bind_some]
  exact ⟨_, Checked.add_eq (by omega), by omega⟩

theorem virtualWidth_eq (l : SvgaLayout) : l.virtualWidth = some (l.pitch / l.mode.pixelBytes) :=
  Checked.div_eq l.mode.bounds.2.2.2.2.1

theorem virtualHeight_eq (h : l.PitchFits) : l.virtualHeight = some (VIDEO_MEMORY_BYTES / l.pitch) :=
  Checked.div_eq (Nat.lt_of_lt_of_le (by decide) h.pitch_lt.1)

theorem imagePages_eq (h : l.PitchFits) : ∃ pages, l.imagePages = some pages := by
  have hheight := l.mode.bounds.2.2.1
  rw [imagePages, virtualHeight_eq h]
  exact ⟨_, Checked.div_eq (by omega)⟩

/-! ## Changes -/

/-- A change is made when its result fits. Nothing wraps on the way. -/
def Changes (change : Option (Option SvgaLayout)) (next : SvgaLayout) : Prop :=
  next.Fits ∧ change = some (some next) ∨ ¬ next.Fits ∧ change = some none

theorem withOrigin_spec (h : l.PitchFits) (origin : Nat × Nat) :
    Changes (l.withOrigin origin) { l with origin } := by
  obtain ⟨-, -, hheight, -, hpixel, -⟩ := l.mode.bounds
  have hpitch : 0 < l.pitch := Nat.lt_of_lt_of_le (by decide) h.pitch_lt.1
  have hcolumns : l.mode.size.1 ≤ l.pitch / l.mode.pixelBytes :=
    (Nat.le_div_iff_mul_le hpixel).mpr h.row
  have hrows : l.mode.size.2 ≤ VIDEO_MEMORY_BYTES / l.pitch := (Nat.le_div_iff_mul_le hpitch).mpr h.rows
  have hcolumn : origin.1 ≤ l.pitch / l.mode.pixelBytes - l.mode.size.1 ↔
      (origin.1 + l.mode.size.1) * l.mode.pixelBytes ≤ l.pitch := by
    rw [← Nat.le_div_iff_mul_le hpixel]
    omega
  have hrow : origin.2 ≤ VIDEO_MEMORY_BYTES / l.pitch - l.mode.size.2 ↔
      (origin.2 + l.mode.size.2) * l.pitch ≤ VIDEO_MEMORY_BYTES := by
    rw [← Nat.le_div_iff_mul_le hpitch]
    omega
  rw [Changes, withOrigin, virtualWidth_eq, virtualHeight_eq h]
  simp only [bind_eq_bind, bind_some, Checked.sub_eq hcolumns, Checked.sub_eq hrows]
  by_cases hx : origin.1 ≤ l.pitch / l.mode.pixelBytes - l.mode.size.1
  · rw [if_pos hx]
    by_cases hy : origin.2 ≤ VIDEO_MEMORY_BYTES / l.pitch - l.mode.size.2
    · rw [if_pos hy]
      exact Or.inl ⟨⟨⟨h.whole, h.row, h.rows⟩, hcolumn.mp hx, hrow.mp hy⟩, rfl⟩
    · rw [if_neg hy]
      exact Or.inr ⟨fun hfits => hy (hrow.mpr hfits.image), rfl⟩
  · rw [if_neg hx]
    exact Or.inr ⟨fun hfits => hx (hcolumn.mpr hfits.column), rfl⟩

theorem withPitch_spec (l : SvgaLayout) (pitch : Nat) : Changes (l.withPitch pitch) { l with pitch } := by
  obtain ⟨-, hwidth, -, -, -, hpixel⟩ := l.mode.bounds
  obtain ⟨most, hmost, hle⟩ := l.mode.maxPitch_spec
  rw [withPitch]
  by_cases hwhole : pitch % l.mode.pixelBytes = 0
  · have hleast := Nat.lt_of_le_of_lt (Nat.mul_le_mul hwidth hpixel) (by decide : 1024 * 4 < 2 ^ 32)
    rw [if_neg (not_not.mpr hwhole), Checked.mul_eq hleast, hmost]
    simp only [bind_eq_bind, bind_some]
    by_cases hrng : l.mode.size.1 * l.mode.pixelBytes ≤ pitch ∧ pitch ≤ most
    · rw [if_pos hrng]
      exact @withOrigin_spec { l with pitch } ⟨hwhole, hrng.1, (hle pitch hwhole).mp hrng.2⟩ l.origin
    · rw [if_neg hrng]
      exact Or.inr ⟨fun hfits => hrng ⟨hfits.row, (hle pitch hwhole).mpr hfits.rows⟩, rfl⟩
  · rw [if_pos hwhole]
    exact Or.inr ⟨fun hfits => hwhole hfits.whole, rfl⟩

theorem withVirtualWidth_spec (l : SvgaLayout) (pixels : Nat) :
    Changes (l.withVirtualWidth pixels) { l with pitch := pixels * l.mode.pixelBytes } := by
  rw [withVirtualWidth]
  by_cases hlt : pixels * l.mode.pixelBytes < 2 ^ 32
  · rw [Checked.mul_eq hlt]
    exact withPitch_spec l _
  · rw [Checked.mul, if_neg hlt]
    refine Or.inr ⟨fun hfits => hlt ?_, rfl⟩
    exact hfits.pitch_lt.2.trans (by decide)

end SvgaLayout

/-- The visible image lies inside video memory, and no computation on the layout wraps. -/
structure SvgaLayout.InMemory (layout : SvgaLayout) : Prop where
  pixel : ∃ start, layout.displayStart = some start ∧ ∀ x y byte, x < layout.mode.size.1 → y < layout.mode.size.2 →
    byte < layout.mode.pixelBytes → start + y * layout.pitch + x * layout.mode.pixelBytes + byte < VIDEO_MEMORY_BYTES
  extent : ∃ bytes, layout.memoryBytes = some bytes ∧ bytes ≤ VIDEO_MEMORY_BYTES
  dimensions : layout.virtualWidth.isSome ∧ layout.virtualHeight.isSome ∧ layout.imagePages.isSome
  origins : ∀ origin, (layout.withOrigin origin).isSome
  pitches : ∀ pitch, (layout.withPitch pitch).isSome
  widths : ∀ pixels, (layout.withVirtualWidth pixels).isSome

theorem SvgaLayout.Changes.isSome {change : Option (Option SvgaLayout)} {next : SvgaLayout} (h : Changes change next) :
    change.isSome := by
  rcases h with ⟨-, h⟩ | ⟨-, h⟩
  · rw [h]
    rfl
  · rw [h]
    rfl

theorem SvgaLayout.Fits.inMemory {l : SvgaLayout} (h : l.Fits) : l.InMemory where
  pixel := ⟨_, displayStart_eq h, fun _ _ _ hx hy hbyte => h.pixel_lt hx hy hbyte⟩
  extent := memoryBytes_eq h
  dimensions := by
    obtain ⟨pages, hpages⟩ := imagePages_eq h.toPitchFits
    rw [virtualWidth_eq, virtualHeight_eq h.toPitchFits, hpages]
    exact ⟨rfl, rfl, rfl⟩
  origins := fun origin => (withOrigin_spec h.toPitchFits origin).isSome
  pitches := fun pitch => (withPitch_spec l pitch).isSome
  widths := fun pixels => (withVirtualWidth_spec l pixels).isSome

theorem SvgaMode.layout_fits (mode : SvgaMode) : ∃ l, mode.layout = some l ∧ l.Fits ∧
    l.mode = mode ∧ l.origin = (0, 0) := by
  obtain ⟨resolution, format⟩ := mode
  cases resolution <;> cases format <;>
    exact ⟨_, rfl, ⟨⟨by decide, by decide, by decide⟩, by decide, by decide⟩, rfl, rfl⟩

end Relocade.Vga
