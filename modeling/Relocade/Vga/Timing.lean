import Mathlib.Data.Nat.Bitwise
import Relocade.Words.Checked

/-!
# `Vga.Timing` — decoded raster counts

Register values and fixed SVGA rasters supply the same counters. The arithmetic on them is checked: it is `none` where
a 64-bit or 128-bit value overflows or a conversion to 64 bits truncates. The counters of every programming are small
(`Programming.decoded`), so it never is, and each function is the exact one.
-/

namespace Relocade.Vga

open Option (bind_eq_bind bind_some)

/-! ## Registers -/

/-- The registers that timing is decoded from. -/
structure Registers where
  crtc : Nat → BitVec 8
  sequencer : Nat → BitVec 8
  miscellaneous : BitVec 8

def HORIZONTAL_TOTAL : Nat := 0x00
def HORIZONTAL_DISPLAY_END : Nat := 0x01
def HORIZONTAL_BLANK_END : Nat := 0x03
def VERTICAL_TOTAL : Nat := 0x06
def OVERFLOW : Nat := 0x07
def VERTICAL_RETRACE_START : Nat := 0x10
def VERTICAL_RETRACE_END : Nat := 0x11
def VERTICAL_DISPLAY_END : Nat := 0x12
def MODE_CONTROL : Nat := 0x17
def RESET : Nat := 0x00
def CLOCKING_MODE : Nat := 0x01
def RESET_RELEASED : BitVec 8 := 0x03

namespace Registers

variable (r : Registers)

def horizontalTotal : Nat := (r.crtc HORIZONTAL_TOTAL).toNat + 5

def horizontalDisplay : Nat := (r.crtc HORIZONTAL_DISPLAY_END).toNat + 1

def horizontalDisplaySkew : Nat := ((r.crtc HORIZONTAL_BLANK_END >>> 5) &&& 3).toNat

def verticalTotal : Nat :=
  (r.crtc VERTICAL_TOTAL).toNat + ((r.crtc OVERFLOW &&& 0x01).toNat <<< 8) + ((r.crtc OVERFLOW &&& 0x20).toNat <<< 4) + 2

def verticalDisplay : Nat :=
  (r.crtc VERTICAL_DISPLAY_END).toNat + ((r.crtc OVERFLOW &&& 0x02).toNat <<< 7) +
    ((r.crtc OVERFLOW &&& 0x40).toNat <<< 3) + 1

def verticalRetraceStart : Nat :=
  (r.crtc VERTICAL_RETRACE_START).toNat ||| ((r.crtc OVERFLOW &&& 0x04).toNat <<< 6) |||
    ((r.crtc OVERFLOW &&& 0x80).toNat <<< 2)

def verticalRetraceEndLowBits : Nat := (r.crtc VERTICAL_RETRACE_END &&& 0x0f).toNat

def scanlinesPerVerticalCount : Nat := if r.crtc MODE_CONTROL &&& 4 = 0 then 1 else 2

def syncEnabled : Bool := r.crtc MODE_CONTROL &&& 0x80 ≠ 0

def resetActive : Bool := r.sequencer RESET ≠ RESET_RELEASED

def dotsPerCharacter : Nat := if r.sequencer CLOCKING_MODE &&& 1 = 0 then 9 else 8

def dotClockDivisor : Nat := if r.sequencer CLOCKING_MODE &&& 8 = 0 then 1 else 2

/-- The external input (2) and the reserved selection (3) supply no clock. -/
def oscillatorHz : Nat :=
  if (r.miscellaneous >>> 2) &&& 3 = 0 then 25175000 else if (r.miscellaneous >>> 2) &&& 3 = 1 then 28322000 else 0

end Registers

/-! ## Timings -/

/-- Horizontal values count dot clocks; vertical values count increments of the vertical counter. -/
structure Timing where
  /-- Zero while reset holds the counters or the selected input is disconnected. -/
  oscillatorHz : Nat
  dotClockDivisor : Nat
  dotsPerHorizontalCount : Nat
  horizontalTotal : Nat
  horizontalDisplay : Nat
  horizontalDisplaySkew : Nat
  verticalTotal : Nat
  verticalDisplay : Nat
  scanlinesPerVerticalCount : Nat
  verticalRetraceStart : Nat
  verticalRetraceEnd : Nat
  /-- End of a pulse continuing from the preceding frame, or zero. -/
  wrappedRetraceEnd : Nat
  resetActive : Bool
  syncEnabled : Bool
  deriving DecidableEq, Repr

/-- The first match of the four low bits after the start. -/
def firstEnd (retraceStart endLowBits : Nat) : Nat :=
  retraceStart + ((((endLowBits + 2 ^ 64 - retraceStart) % 2 ^ 64 + 2 ^ 64 - 1) % 2 ^ 64 &&& 0x0f) + 1)

/-- The timing that the registers program. -/
def Timing.vga (r : Registers) : Timing where
  oscillatorHz := if r.resetActive then 0 else r.oscillatorHz
  dotClockDivisor := r.dotClockDivisor
  dotsPerHorizontalCount := r.dotsPerCharacter
  horizontalTotal := r.horizontalTotal * r.dotsPerCharacter
  horizontalDisplay := r.horizontalDisplay * r.dotsPerCharacter
  horizontalDisplaySkew := r.horizontalDisplaySkew * r.dotsPerCharacter
  verticalTotal := r.verticalTotal
  verticalDisplay := r.verticalDisplay
  scanlinesPerVerticalCount := r.scanlinesPerVerticalCount
  verticalRetraceStart := r.verticalRetraceStart
  verticalRetraceEnd := firstEnd r.verticalRetraceStart r.verticalRetraceEndLowBits
  wrappedRetraceEnd :=
    if r.verticalRetraceStart < r.verticalTotal ∧
        r.verticalTotal ≤ firstEnd r.verticalRetraceStart r.verticalRetraceEndLowBits then
      r.verticalRetraceEndLowBits
    else 0
  resetActive := r.resetActive
  syncEnabled := r.syncEnabled

inductive SvgaResolution where
  | r640x480
  | r800x600
  | r1024x768
  deriving DecidableEq, Repr

def SvgaResolution.size : SvgaResolution → Nat × Nat
  | .r640x480 => (640, 480)
  | .r800x600 => (800, 600)
  | .r1024x768 => (1024, 768)

/-- The VESA 60-Hz raster with the given oscillator, totals and retrace. -/
def Timing.dmt (size : Nat × Nat) (oscillatorHz horizontalTotal verticalTotal retraceStart retraceEnd : Nat) :
    Timing where
  oscillatorHz := oscillatorHz
  dotClockDivisor := 1
  dotsPerHorizontalCount := 1
  horizontalTotal := horizontalTotal
  horizontalDisplay := size.1
  horizontalDisplaySkew := 0
  verticalTotal := verticalTotal
  verticalDisplay := size.2
  scanlinesPerVerticalCount := 1
  verticalRetraceStart := retraceStart
  verticalRetraceEnd := retraceEnd
  wrappedRetraceEnd := 0
  resetActive := false
  syncEnabled := true

def Timing.svga (resolution : SvgaResolution) : Timing :=
  match resolution with
  | .r640x480 => Timing.dmt resolution.size 25175000 800 525 490 492
  | .r800x600 => Timing.dmt resolution.size 40000000 1056 628 601 605
  | .r1024x768 => Timing.dmt resolution.size 65000000 1344 806 771 777

/-- What a timing is decoded from. -/
inductive Programming where
  | vga (registers : Registers)
  | svga (resolution : SvgaResolution)

def Programming.timing : Programming → Timing
  | .vga registers => Timing.vga registers
  | .svga resolution => Timing.svga resolution

/-! ## Arithmetic -/

def NANOS_PER_SECOND : Nat := 1000000000

namespace Timing

variable (t : Timing)

def clockRunning : Bool := t.oscillatorHz ≠ 0

def frameDots : Option Nat := do
  let lines ← Checked.mul 64 t.horizontalTotal t.verticalTotal
  Checked.mul 64 lines t.scanlinesPerVerticalCount

/-- Internal retrace boundary used to sample display inputs. -/
def retraceDot : Option (Option Nat) := do
  let line ← Checked.mul 64 t.verticalRetraceStart t.scanlinesPerVerticalCount
  let dot ← Checked.mul 64 line t.horizontalTotal
  pure (if t.clockRunning ∧ t.verticalRetraceStart < t.verticalTotal then some dot else none)

/-- The fractional dot position is a numerator over this; a nanosecond adds `oscillatorHz` to the numerator. -/
def phaseDenominator : Option Nat := Checked.mul 64 NANOS_PER_SECOND t.dotClockDivisor

/-- Whole dot clocks and the fractional position after them. -/
def elapsedDots (elapsed remainder : Nat) : Option (Nat × Nat) := do
  let product ← Checked.mul 128 elapsed t.oscillatorHz
  let numerator ← Checked.add 128 product remainder
  let denominator ← t.phaseDenominator
  let rest ← Checked.mod numerator denominator
  let rest ← Checked.cast 64 rest
  let dots ← Checked.div numerator denominator
  pure (dots, rest)

/-- Preserves fractional dot position when clock division changes. -/
def rescaleRemainder (remainder : Nat) (old : Timing) : Option Nat := do
  let denominator ← t.phaseDenominator
  let product ← Checked.mul 128 remainder denominator
  let oldDenominator ← old.phaseDenominator
  let quotient ← Checked.div product oldDenominator
  Checked.cast 64 quotient

/-- Time represented by whole dot clocks plus fractional progress, rounded down. -/
def elapsedForDots (dots remainder : Nat) : Option Nat := do
  let denominator ← t.phaseDenominator
  let product ← Checked.mul 128 dots denominator
  let numerator ← Checked.add 128 product remainder
  let nanos ← Checked.div numerator t.oscillatorHz
  Checked.cast 64 nanos

/-- Time to a future dot boundary, rounded up. -/
def remainingForDots (dots remainder : Nat) : Option Nat := do
  let denominator ← t.phaseDenominator
  let product ← Checked.mul 128 dots denominator
  let numerator ← Checked.sub product remainder
  let nanos ← Checked.divCeil numerator t.oscillatorHz
  Checked.cast 64 nanos

/-! ## Bounds -/

/-- The counters that decoding can give. -/
structure Decoded : Prop where
  oscillator : t.oscillatorHz = 0 ∨ 25000000 ≤ t.oscillatorHz ∧ t.oscillatorHz ≤ 65000000
  divisor : 0 < t.dotClockDivisor ∧ t.dotClockDivisor ≤ 2
  dots : 0 < t.dotsPerHorizontalCount ∧ t.dotsPerHorizontalCount ≤ 9
  horizontal : 0 < t.horizontalTotal ∧ t.horizontalTotal ≤ 2340
  vertical : 0 < t.verticalTotal ∧ t.verticalTotal ≤ 1025
  scanlines : 0 < t.scanlinesPerVerticalCount ∧ t.scanlinesPerVerticalCount ≤ 2
  retrace : t.verticalRetraceStart < 1024

end Timing

theorem and_shift_le (value mask : BitVec 8) (shift : Nat) :
    (value &&& mask).toNat <<< shift ≤ mask.toNat * 2 ^ shift := by
  rw [BitVec.toNat_and, Nat.shiftLeft_eq]
  exact Nat.mul_le_mul_right _ Nat.and_le_right

theorem Programming.decoded (p : Programming) : p.timing.Decoded := by
  cases p with
  | vga r =>
    have hhorizontal := (r.crtc HORIZONTAL_TOTAL).isLt
    have hdots : 0 < r.dotsPerCharacter ∧ r.dotsPerCharacter ≤ 9 := by
      unfold Registers.dotsPerCharacter
      split <;> decide
    refine ⟨?_, ?_, hdots, ⟨?_, ?_⟩, ⟨?_, ?_⟩, ?_, ?_⟩
    · show (if r.resetActive then 0 else r.oscillatorHz) = 0 ∨ 25000000 ≤ (if r.resetActive then 0 else r.oscillatorHz) ∧
        (if r.resetActive then 0 else r.oscillatorHz) ≤ 65000000
      unfold Registers.oscillatorHz
      split
      · exact Or.inl rfl
      · split
        · exact Or.inr (by decide)
        · split
          · exact Or.inr (by decide)
          · exact Or.inl rfl
    · show 0 < r.dotClockDivisor ∧ r.dotClockDivisor ≤ 2
      unfold Registers.dotClockDivisor
      split <;> decide
    · exact Nat.mul_pos (Nat.succ_pos _) hdots.1
    · exact Nat.mul_le_mul (show r.horizontalTotal ≤ 260 by unfold Registers.horizontalTotal; omega) hdots.2
    · exact Nat.succ_pos _
    · show r.verticalTotal ≤ 1025
      have htotal := (r.crtc VERTICAL_TOTAL).isLt
      have hlow := and_shift_le (r.crtc OVERFLOW) 0x01 8
      have hhi := and_shift_le (r.crtc OVERFLOW) 0x20 4
      unfold Registers.verticalTotal
      have hone : (0x01 : BitVec 8).toNat * 2 ^ 8 = 256 := rfl
      have htwo : (0x20 : BitVec 8).toNat * 2 ^ 4 = 512 := rfl
      omega
    · show 0 < r.scanlinesPerVerticalCount ∧ r.scanlinesPerVerticalCount ≤ 2
      unfold Registers.scanlinesPerVerticalCount
      split <;> decide
    · show r.verticalRetraceStart < 2 ^ 10
      have hlow := and_shift_le (r.crtc OVERFLOW) 0x04 6
      have hhi := and_shift_le (r.crtc OVERFLOW) 0x80 2
      have hone : (0x04 : BitVec 8).toNat * 2 ^ 6 = 256 := rfl
      have htwo : (0x80 : BitVec 8).toNat * 2 ^ 2 = 512 := rfl
      have hst := (r.crtc VERTICAL_RETRACE_START).isLt
      exact Nat.or_lt_two_pow (Nat.or_lt_two_pow (by omega) (by omega)) (by omega)
  | svga resolution =>
    cases resolution <;> exact ⟨by decide, by decide, by decide, by decide, by decide, by decide, by decide⟩

/-! ## Values -/

namespace Timing

variable {t : Timing} {dots elapsed remainder : Nat}

/-- The dots of a frame. -/
def frame (t : Timing) : Nat := t.horizontalTotal * t.verticalTotal * t.scanlinesPerVerticalCount

def denominator (t : Timing) : Nat := NANOS_PER_SECOND * t.dotClockDivisor

/-- The dot of the retrace boundary, if the raster reaches one. -/
def retrace (t : Timing) : Option Nat :=
  if t.clockRunning ∧ t.verticalRetraceStart < t.verticalTotal then
    some (t.verticalRetraceStart * t.scanlinesPerVerticalCount * t.horizontalTotal)
  else none

variable (h : t.Decoded)

include h

theorem frame_pos : 0 < t.frame :=
  Nat.mul_pos (Nat.mul_pos h.horizontal.1 h.vertical.1) h.scanlines.1

theorem frame_le : t.frame ≤ 4797000 :=
  Nat.mul_le_mul (Nat.mul_le_mul h.horizontal.2 h.vertical.2) h.scanlines.2

theorem denominator_pos : 0 < t.denominator := Nat.mul_pos (Nat.succ_pos _) h.divisor.1

theorem denominator_le : t.denominator ≤ 2000000000 := Nat.mul_le_mul_left _ h.divisor.2

/-- A nanosecond is at most one dot. -/
theorem oscillator_le : t.oscillatorHz ≤ t.denominator := by
  have hpos := h.divisor.1
  have hosc := h.oscillator
  unfold denominator NANOS_PER_SECOND
  omega

theorem oscillator_pos (hrun : t.clockRunning) : 25000000 ≤ t.oscillatorHz := by
  have hne : t.oscillatorHz ≠ 0 := of_decide_eq_true hrun
  exact (h.oscillator.resolve_left hne).1

theorem retrace_lt {bnd : Nat} (hbound : bnd ∈ t.retrace) : bnd < t.frame := by
  unfold retrace at hbound
  split at hbound
  next hcond =>
    obtain rfl := Option.some.inj hbound
    calc t.verticalRetraceStart * t.scanlinesPerVerticalCount * t.horizontalTotal
        < t.verticalTotal * t.scanlinesPerVerticalCount * t.horizontalTotal :=
          Nat.mul_lt_mul_of_pos_right (Nat.mul_lt_mul_of_pos_right hcond.2 h.scanlines.1) h.horizontal.1
      _ = t.frame := by
          unfold frame
          rw [Nat.mul_comm, Nat.mul_assoc]
  next => cases hbound

theorem frameDots_eq : t.frameDots = some t.frame := by
  have hlines : t.horizontalTotal * t.verticalTotal ≤ 2340 * 1025 := Nat.mul_le_mul h.horizontal.2 h.vertical.2
  have hframe := frame_le h
  unfold frame at hframe
  rw [frameDots, Checked.mul_eq (by omega), bind_eq_bind, bind_some, Checked.mul_eq (by omega)]
  rfl

theorem phaseDenominator_eq : t.phaseDenominator = some t.denominator := by
  have hle := denominator_le h
  exact Checked.mul_eq (Nat.lt_of_le_of_lt hle (by decide))

theorem retraceDot_eq : t.retraceDot = some t.retrace := by
  have hline : t.verticalRetraceStart * t.scanlinesPerVerticalCount ≤ 1024 * 2 :=
    Nat.mul_le_mul (Nat.le_of_lt h.retrace) h.scanlines.2
  have hdot : t.verticalRetraceStart * t.scanlinesPerVerticalCount * t.horizontalTotal ≤ 1024 * 2 * 2340 :=
    Nat.mul_le_mul hline h.horizontal.2
  rw [retraceDot, Checked.mul_eq (by omega), bind_eq_bind, bind_some, Checked.mul_eq (by omega)]
  rfl

theorem elapsedDots_eq (helapsed : elapsed < 2 ^ 64) (hrem : remainder < t.denominator) :
    t.elapsedDots elapsed remainder = some ((elapsed * t.oscillatorHz + remainder) / t.denominator,
      (elapsed * t.oscillatorHz + remainder) % t.denominator) := by
  have hpos := denominator_pos h
  have hle := denominator_le h
  have hosc := oscillator_le h
  have hproduct : elapsed * t.oscillatorHz ≤ 2 ^ 64 * 2000000000 :=
    Nat.mul_le_mul (Nat.le_of_lt helapsed) (Nat.le_trans hosc hle)
  have hrest := Nat.mod_lt (elapsed * t.oscillatorHz + remainder) hpos
  rw [elapsedDots, phaseDenominator_eq h, Checked.mul_eq (by omega)]
  simp only [bind_eq_bind, bind_some]
  rw [Checked.add_eq (by omega), bind_some, Checked.mod_eq hpos, bind_some, Checked.cast_eq (by omega),
    bind_some, Checked.div_eq hpos]
  rfl

theorem rescaleRemainder_eq {old : Timing} (hold : old.Decoded) (hrem : remainder < old.denominator) :
    t.rescaleRemainder remainder old = some (remainder * t.denominator / old.denominator) ∧
      remainder * t.denominator / old.denominator < t.denominator := by
  have hpos := denominator_pos h
  have hle := denominator_le h
  have hle' := denominator_le hold
  have hproduct : remainder * t.denominator ≤ 2000000000 * 2000000000 :=
    Nat.mul_le_mul (Nat.le_trans (Nat.le_of_lt hrem) hle') hle
  have hlt : remainder * t.denominator / old.denominator < t.denominator := by
    rw [Nat.div_lt_iff_lt_mul (denominator_pos hold), Nat.mul_comm t.denominator]
    exact Nat.mul_lt_mul_of_pos_right hrem hpos
  refine ⟨?_, hlt⟩
  rw [rescaleRemainder, phaseDenominator_eq h, phaseDenominator_eq hold]
  simp only [bind_eq_bind, bind_some]
  rw [Checked.mul_eq (by omega), bind_some, Checked.div_eq (denominator_pos hold), bind_some,
    Checked.cast_eq (by omega)]

/-- A frame's dots and a fraction take less than a second. -/
theorem numerator_lt (hdots : dots ≤ t.frame) (hrem : remainder < t.denominator) :
    dots * t.denominator + remainder < 4797001 * 2000000000 := by
  have hle := denominator_le h
  have hproduct : dots * t.denominator ≤ 4797000 * 2000000000 :=
    Nat.mul_le_mul (Nat.le_trans hdots (frame_le h)) hle
  omega

theorem elapsedForDots_eq (hrun : t.clockRunning) (hdots : dots ≤ t.frame)
    (hrem : remainder < t.denominator) :
    t.elapsedForDots dots remainder = some ((dots * t.denominator + remainder) / t.oscillatorHz) := by
  have hlt := numerator_lt h hdots hrem
  have hpos := oscillator_pos h hrun
  have hquot := Nat.div_le_self (dots * t.denominator + remainder) t.oscillatorHz
  rw [elapsedForDots, phaseDenominator_eq h]
  simp only [bind_eq_bind, bind_some]
  rw [Checked.mul_eq (by omega), bind_some, Checked.add_eq (by omega), bind_some,
    Checked.div_eq (by omega), bind_some, Checked.cast_eq (by omega)]

/-- The deadline's delay is the least that reaches the boundary. -/
theorem remainingForDots_spec (hrun : t.clockRunning) (hpos : 0 < dots) (hdots : dots ≤ t.frame)
    (hrem : remainder < t.denominator) :
    ∃ delay, t.remainingForDots dots remainder = some delay ∧ delay < 2 ^ 54 ∧
      ∀ n, delay ≤ n ↔ dots * t.denominator ≤ n * t.oscillatorHz + remainder := by
  have hlt := numerator_lt h hdots hrem
  have hosc := oscillator_pos h hrun
  have hle : remainder ≤ dots * t.denominator :=
    Nat.le_trans (Nat.le_of_lt hrem) (Nat.le_mul_of_pos_left _ hpos)
  obtain ⟨delay, hdelay, hceil, hiff⟩ :=
    @Checked.divCeil_spec (dots * t.denominator - remainder) t.oscillatorHz (by omega)
  have hquot := Nat.div_le_self (dots * t.denominator - remainder) t.oscillatorHz
  refine ⟨delay, ?_, by omega, fun n => (hiff n).trans (by omega)⟩
  rw [remainingForDots, phaseDenominator_eq h]
  simp only [bind_eq_bind, bind_some]
  rw [Checked.mul_eq (by omega), bind_some, Checked.sub_eq hle, bind_some, hdelay, bind_some,
    Checked.cast_eq (by omega)]

end Timing

end Relocade.Vga
