import Relocade.Vga.Timing

/-!
# `Vga.Raster` — the raster's position and its retraces

The raster keeps its dot, a fractional dot in units of its timing and a count of retraces, and brings them up to a
clock time on demand. Clock times are nanoseconds. On a valid raster no value overflows and each operation is an exact
one: `updateTo` is `advance` (`updateTo_eq`), which composes over times (`advance_advance`).
-/

namespace Relocade.Vga

open Option (bind_eq_bind bind_some)

/-! ## Operations -/

/-- Raster position at `updated`. -/
structure Raster where
  timing : Timing
  updated : Nat
  dot : Nat
  /-- Fractional dot position in the units maintained by `Timing`. -/
  dotRemainder : Nat
  retraceCount : Nat
  deriving DecidableEq, Repr

/-- The nanoseconds that a duration can hold, and one more. -/
def DURATION_NANOS : Nat := 2 ^ 64 * NANOS_PER_SECOND

namespace Raster

def new (now : Nat) (timing : Timing) : Raster := ⟨timing, now, 0, 0, 0⟩

variable (r : Raster)

/-- The retraces of an update that passes a number of dots: the time of the latest and the new count. -/
def passRetraces (now dots frameDots remainder boundary : Nat) : Option (Option Nat × Nat) := do
  let ahead ← Checked.add 64 r.dot frameDots
  let ahead ← Checked.sub ahead boundary
  let sincePreviousBoundary ← Checked.mod ahead frameDots
  let advanced ← Checked.add 128 sincePreviousBoundary dots
  let frames ← Checked.div advanced frameDots
  if frames = 0 then
    pure (none, r.retraceCount)
  else
    let frames ← Checked.cast 64 frames
    let count ← Checked.add 64 r.retraceCount frames
    let sinceLatestBoundary ← Checked.mod advanced frameDots
    let sinceLatestBoundary ← Checked.cast 64 sinceLatestBoundary
    let ago ← r.timing.elapsedForDots sinceLatestBoundary remainder
    let time ← Checked.sub now ago
    pure (some time, count)

/-- The retraces of an update, if its timing has a boundary. -/
def countRetraces (now dots frameDots remainder : Nat) : Option (Option Nat × Nat) := do
  match ← r.timing.retraceDot with
  | none => pure (none, r.retraceCount)
  | some boundary => r.passRetraces now dots frameDots remainder boundary

/-- Update counters to `now`, returning the latest crossed retrace time. -/
def updateTo (now : Nat) : Option (Option Nat × Raster) :=
  if ¬ r.timing.clockRunning then
    some (none, { r with updated := now })
  else do
    let (dots, remainder) ← r.timing.elapsedDots (now - r.updated) r.dotRemainder
    let frameDots ← r.timing.frameDots
    let (completed, count) ← r.countRetraces now dots frameDots remainder
    let position ← Checked.add 128 r.dot dots
    let position ← Checked.mod position frameDots
    let dot ← Checked.cast 64 position
    pure (completed, { r with updated := now, dot := dot, dotRemainder := remainder, retraceCount := count })

/-- The line of a new timing for a line of an old one. -/
def remapLine (old new : Timing) (physicalLine : Nat) : Option Nat := do
  let verticalCount ← Checked.div physicalLine old.scanlinesPerVerticalCount
  let subline ← Checked.mod physicalLine old.scanlinesPerVerticalCount
  let lines ← Checked.mul 64 verticalCount new.scanlinesPerVerticalCount
  let sublines ← Checked.mul 64 subline new.scanlinesPerVerticalCount
  let sublines ← Checked.div sublines old.scanlinesPerVerticalCount
  Checked.add 64 lines sublines

/-- The position in a line of a new timing for one of an old one. -/
def remapHorizontal (old new : Timing) (horizontal : Nat) : Option Nat := do
  let characters ← Checked.div horizontal old.dotsPerHorizontalCount
  let characters ← Checked.mul 64 characters new.dotsPerHorizontalCount
  let dots ← Checked.mod horizontal old.dotsPerHorizontalCount
  let lastDot ← Checked.sub new.dotsPerHorizontalCount 1
  Checked.add 64 characters (min dots lastDot)

/-- The dot of a new timing at the place of the old one's. -/
def remapDot (new : Timing) : Option Nat := do
  let physicalLine ← Checked.div r.dot r.timing.horizontalTotal
  let line ← remapLine r.timing new physicalLine
  let horizontal ← Checked.mod r.dot r.timing.horizontalTotal
  let horizontal ← remapHorizontal r.timing new horizontal
  let start ← Checked.mul 64 line new.horizontalTotal
  let offset ← Checked.mod horizontal new.horizontalTotal
  let dot ← Checked.add 64 start offset
  let frameDots ← new.frameDots
  Checked.mod dot frameDots

/-- Returns whether the activity must replace its current deadline. -/
def setTiming (new : Timing) : Option (Bool × Raster) :=
  if r.timing = new then
    some (false, r)
  else if r.timing.resetActive ∨ new.resetActive then
    some (true, { r with timing := new, dot := 0, dotRemainder := 0 })
  else do
    let dot ← r.remapDot new
    let remainder ← new.rescaleRemainder r.dotRemainder r.timing
    pure (true, { r with timing := new, dot := dot, dotRemainder := remainder })

/-- Begin a new display mode at the already serviced clock time. -/
def restart (timing : Timing) : Raster := { r with timing := timing, dot := 0, dotRemainder := 0 }

def nextDotAt (boundary : Nat) : Option (Option Nat) := do
  let total ← r.timing.frameDots
  let ahead ← Checked.add 64 boundary total
  let ahead ← Checked.sub ahead r.dot
  let dots ← Checked.mod ahead total
  let delay ← r.timing.remainingForDots (if dots = 0 then total else dots) r.dotRemainder
  pure (if r.updated + delay < DURATION_NANOS then some (r.updated + delay) else none)

def nextRetraceAt : Option (Option Nat) := do
  match ← r.timing.retraceDot with
  | none => pure none
  | some boundary => r.nextDotAt boundary

/-! ## Validity -/

/-- The position is inside the frame. A retrace takes at least a nanosecond. -/
structure Valid : Prop where
  timing : r.timing.Decoded
  dot : r.dot < r.timing.frame
  remainder : r.dotRemainder < r.timing.denominator
  count : r.retraceCount ≤ r.updated

/-- The fractional dots after an update, in units of the fraction. -/
def numerator (now : Nat) : Nat := (now - r.updated) * r.timing.oscillatorHz + r.dotRemainder

/-- The whole dots of an update. -/
def dots (now : Nat) : Nat := r.numerator now / r.timing.denominator

/-- The dots from the last boundary at or before the position. -/
def sinceBoundary (boundary : Nat) : Nat := (r.dot + r.timing.frame - boundary) % r.timing.frame

/-- The retraces of an update. -/
def retraces (now : Nat) : Nat :=
  match r.timing.retrace with
  | none => 0
  | some boundary => (r.sinceBoundary boundary + r.dots now) / r.timing.frame

/-- The raster at a time, exactly. -/
def advance (now : Nat) : Raster :=
  if ¬ r.timing.clockRunning then
    { r with updated := now }
  else
    { r with
      updated := now
      dot := (r.dot + r.dots now) % r.timing.frame
      dotRemainder := r.numerator now % r.timing.denominator
      retraceCount := r.retraceCount + r.retraces now }

variable {r}

/-- A nanosecond passes at most one dot. -/
theorem dots_le (h : r.Valid) (now : Nat) : r.dots now ≤ now - r.updated := by
  have hpos := r.timing.denominator_pos h.timing
  have hosc : (now - r.updated) * r.timing.oscillatorHz ≤ (now - r.updated) * r.timing.denominator :=
    Nat.mul_le_mul_left _ (r.timing.oscillator_le h.timing)
  have hrem := h.remainder
  unfold dots numerator
  rw [← Nat.lt_succ_iff, Nat.div_lt_iff_lt_mul hpos, Nat.succ_mul]
  omega

theorem retraces_le (h : r.Valid) (now : Nat) : r.retraces now ≤ now - r.updated := by
  have hpos := r.timing.frame_pos h.timing
  have hdots := dots_le h now
  unfold retraces
  split
  next => exact Nat.zero_le _
  next bnd _ =>
    have hsince : r.sinceBoundary bnd < r.timing.frame := Nat.mod_lt _ hpos
    rw [← Nat.lt_succ_iff, Nat.div_lt_iff_lt_mul hpos, Nat.succ_mul]
    have hmul : now - r.updated ≤ (now - r.updated) * r.timing.frame := Nat.le_mul_of_pos_right _ hpos
    omega

theorem advance_valid (h : r.Valid) {now : Nat} (hle : r.updated ≤ now) : (r.advance now).Valid := by
  have hcnt := h.count
  have hretraces := retraces_le h now
  unfold advance
  split
  next => exact ⟨h.timing, h.dot, h.remainder, Nat.le_trans h.count hle⟩
  next =>
    refine ⟨h.timing, Nat.mod_lt _ (r.timing.frame_pos h.timing), Nat.mod_lt _ (r.timing.denominator_pos h.timing), ?_⟩
    show r.retraceCount + r.retraces now ≤ now
    omega

/-! ## Values -/

variable (r) in
/-- The time of the latest retrace of an update: the time since it is rounded down. -/
def latest (now : Nat) : Option Nat :=
  match r.timing.retrace with
  | none => none
  | some boundary =>
      if r.retraces now = 0 then none
      else
        some (now - ((r.sinceBoundary boundary + r.dots now) % r.timing.frame * r.timing.denominator +
          r.numerator now % r.timing.denominator) / r.timing.oscillatorHz)

theorem dots_mul (now : Nat) :
    r.dots now * r.timing.denominator + r.numerator now % r.timing.denominator = r.numerator now := by
  unfold dots
  rw [Nat.mul_comm]
  exact Nat.div_add_mod _ _

/-- The latest retrace of an update is after the update's start. -/
theorem since_latest_lt (h : r.Valid) {now bnd : Nat}
    (hretraces : (r.sinceBoundary bnd + r.dots now) / r.timing.frame ≠ 0) :
    (r.sinceBoundary bnd + r.dots now) % r.timing.frame * r.timing.denominator +
      r.numerator now % r.timing.denominator < (now - r.updated) * r.timing.oscillatorHz := by
  have hpos := r.timing.frame_pos h.timing
  have hsince : r.sinceBoundary bnd < r.timing.frame := Nat.mod_lt _ hpos
  have hdiv := Nat.div_add_mod (r.sinceBoundary bnd + r.dots now) r.timing.frame
  have hframes : r.timing.frame ≤ r.timing.frame * ((r.sinceBoundary bnd + r.dots now) / r.timing.frame) :=
    Nat.le_mul_of_pos_right _ (Nat.pos_of_ne_zero hretraces)
  have hmul : ((r.sinceBoundary bnd + r.dots now) % r.timing.frame + 1) * r.timing.denominator ≤
      r.dots now * r.timing.denominator := Nat.mul_le_mul_right _ (by omega)
  have hdots := @dots_mul r now
  have hrem := h.remainder
  rw [Nat.add_one_mul] at hmul
  unfold numerator at *
  omega

theorem passRetraces_eq (h : r.Valid) {now bnd : Nat} (hbound : bnd ∈ r.timing.retrace)
    (hle : r.updated ≤ now) (hnow : now < 2 ^ 64) :
    r.passRetraces now (r.dots now) r.timing.frame (r.numerator now % r.timing.denominator) bnd =
      some (r.latest now, r.retraceCount + r.retraces now) := by
  have hrun : r.timing.clockRunning := by
    unfold Timing.retrace at hbound
    split at hbound
    next hcond => exact hcond.1
    next => cases hbound
  have hlt := r.timing.retrace_lt h.timing hbound
  have hpos := r.timing.frame_pos h.timing
  have hframe := r.timing.frame_le h.timing
  have hdot := h.dot
  have hcnt := h.count
  have hdots := dots_le h now
  have hretraces := retraces_le h now
  have hretraces' : r.retraces now = (r.sinceBoundary bnd + r.dots now) / r.timing.frame := by
    unfold retraces
    rw [hbound]
  have hsince : r.sinceBoundary bnd < r.timing.frame := Nat.mod_lt _ hpos
  have hlatest := Nat.mod_lt (r.sinceBoundary bnd + r.dots now) hpos
  have hrem := Nat.mod_lt (r.numerator now) (r.timing.denominator_pos h.timing)
  unfold passRetraces
  simp only [bind_eq_bind]
  rw [Checked.add_eq (by omega), bind_some, Checked.sub_eq (by omega), bind_some, Checked.mod_eq hpos,
    bind_some]
  show (Checked.add 128 (r.sinceBoundary bnd) (r.dots now)).bind _ = _
  rw [Checked.add_eq (by omega), bind_some, Checked.div_eq hpos, bind_some, ← hretraces', latest,
    hbound]
  dsimp only
  by_cases hz : r.retraces now = 0
  · rw [if_pos hz, if_pos hz, hz]
    rfl
  · have hago := since_latest_lt h (hretraces' ▸ hz)
    have hosc := r.timing.oscillator_pos h.timing hrun
    have hago' : ((r.sinceBoundary bnd + r.dots now) % r.timing.frame * r.timing.denominator +
        r.numerator now % r.timing.denominator) / r.timing.oscillatorHz < now - r.updated := by
      rw [Nat.div_lt_iff_lt_mul (by omega)]
      exact hago
    rw [if_neg hz, if_neg hz, Checked.cast_eq (by omega), bind_some, Checked.add_eq (by omega),
      bind_some, Checked.mod_eq hpos, bind_some, Checked.cast_eq (by omega), bind_some,
      r.timing.elapsedForDots_eq h.timing hrun (Nat.le_of_lt hlatest) hrem, bind_some,
      Checked.sub_eq (by omega)]
    rfl

theorem countRetraces_eq (h : r.Valid) {now : Nat} (hle : r.updated ≤ now) (hnow : now < 2 ^ 64) :
    r.countRetraces now (r.dots now) r.timing.frame (r.numerator now % r.timing.denominator) =
      some (r.latest now, r.retraceCount + r.retraces now) := by
  rw [countRetraces, r.timing.retraceDot_eq h.timing, bind_eq_bind, bind_some]
  cases hretrace : r.timing.retrace with
  | none =>
    rw [latest, retraces, hretrace]
    rfl
  | some boundary => exact passRetraces_eq h hretrace hle hnow

/-- No value of an update overflows, and the update is exact. -/
theorem updateTo_eq (h : r.Valid) {now : Nat} (hle : r.updated ≤ now) (hnow : now < 2 ^ 64) :
    r.updateTo now = some (r.latest now, r.advance now) := by
  unfold updateTo advance
  by_cases hrun : ¬ r.timing.clockRunning
  · have hretrace : r.timing.retrace = none := by
      unfold Timing.retrace
      exact if_neg fun hcond => hrun hcond.1
    rw [if_pos hrun, if_pos hrun, latest, hretrace]
  · have hpos := r.timing.frame_pos h.timing
    have hframe := r.timing.frame_le h.timing
    have hdot := h.dot
    have hdots := dots_le h now
    have hlt := Nat.mod_lt (r.dot + r.dots now) hpos
    have helapsed : r.timing.elapsedDots (now - r.updated) r.dotRemainder =
        some (r.dots now, r.numerator now % r.timing.denominator) :=
      r.timing.elapsedDots_eq h.timing (by omega) h.remainder
    rw [if_neg hrun, if_neg hrun, helapsed, r.timing.frameDots_eq h.timing]
    simp only [bind_eq_bind, bind_some]
    rw [countRetraces_eq h hle hnow, bind_some, Checked.add_eq (by omega), bind_some,
      Checked.mod_eq hpos, bind_some, Checked.cast_eq (by omega)]
    rfl

/-! ## Advancing in steps -/

theorem advance_running (hrun : r.timing.clockRunning) (now : Nat) :
    r.advance now = ⟨r.timing, now, (r.dot + r.dots now) % r.timing.frame, r.numerator now % r.timing.denominator,
      r.retraceCount + r.retraces now⟩ := if_neg (not_not_intro hrun)

@[simp] theorem timing_advance (r : Raster) (now : Nat) : (r.advance now).timing = r.timing := by
  unfold advance
  split <;> rfl

@[simp] theorem updated_advance (r : Raster) (now : Nat) : (r.advance now).updated = now := by
  unfold advance
  split <;> rfl

section

variable (hrun : r.timing.clockRunning) {now later : Nat}

include hrun

/-- The fraction carries the elapsed time exactly. -/
theorem numerator_advance (hle : r.updated ≤ now) (hle' : now ≤ later) :
    r.numerator later = r.timing.denominator * r.dots now + (r.advance now).numerator later := by
  have hdots := @dots_mul r now
  rw [Nat.mul_comm] at hdots
  have helapsed : (later - r.updated) * r.timing.oscillatorHz =
      (now - r.updated) * r.timing.oscillatorHz + (later - now) * r.timing.oscillatorHz := by
    rw [← Nat.add_mul]
    congr 1
    omega
  rw [advance_running hrun]
  show (later - r.updated) * r.timing.oscillatorHz + r.dotRemainder = r.timing.denominator * r.dots now +
    ((later - now) * r.timing.oscillatorHz + r.numerator now % r.timing.denominator)
  have hnow : r.numerator now = (now - r.updated) * r.timing.oscillatorHz + r.dotRemainder := rfl
  omega

theorem dots_advance (h : r.Valid) (hle : r.updated ≤ now) (hle' : now ≤ later) :
    r.dots later = r.dots now + (r.advance now).dots later := by
  show r.numerator later / r.timing.denominator =
    r.dots now + (r.advance now).numerator later / (r.advance now).timing.denominator
  rw [timing_advance, numerator_advance hrun hle hle', Nat.mul_add_div (r.timing.denominator_pos h.timing)]

theorem sinceBoundary_advance {bnd : Nat} (hlt : bnd < r.timing.frame) :
    (r.advance now).sinceBoundary bnd = (r.sinceBoundary bnd + r.dots now) % r.timing.frame := by
  rw [advance_running hrun]
  show ((r.dot + r.dots now) % r.timing.frame + r.timing.frame - bnd) % r.timing.frame = _
  unfold sinceBoundary
  rw [Nat.add_sub_assoc (Nat.le_of_lt hlt), Nat.add_sub_assoc (Nat.le_of_lt hlt), Nat.mod_add_mod, Nat.mod_add_mod,
    Nat.add_right_comm]

theorem retraces_advance (h : r.Valid) (hle : r.updated ≤ now) (hle' : now ≤ later) :
    r.retraces later = r.retraces now + (r.advance now).retraces later := by
  unfold retraces
  rw [timing_advance]
  cases hretrace : r.timing.retrace with
  | none => rfl
  | some boundary =>
    dsimp only
    rw [sinceBoundary_advance hrun (r.timing.retrace_lt h.timing hretrace), dots_advance hrun h hle hle', ← Nat.add_assoc]
    conv_lhs => rw [← Nat.div_add_mod (r.sinceBoundary boundary + r.dots now) r.timing.frame]
    rw [Nat.add_assoc, Nat.mul_add_div (r.timing.frame_pos h.timing)]

end

/-- Advancing in two steps is advancing in one. -/
theorem advance_advance (h : r.Valid) {now later : Nat} (hle : r.updated ≤ now) (hle' : now ≤ later) :
    (r.advance now).advance later = r.advance later := by
  by_cases hrun : r.timing.clockRunning
  · have hrun' : (r.advance now).timing.clockRunning := by rwa [timing_advance]
    rw [advance_running hrun', advance_running hrun later, timing_advance, dots_advance hrun h hle hle',
      retraces_advance hrun h hle hle', numerator_advance hrun hle hle', Nat.mul_add_mod, advance_running hrun now]
    simp only [Nat.mod_add_mod, Nat.add_assoc]
  · have hstop : ∀ n, r.advance n = { r with updated := n } := fun n => if_pos hrun
    rw [hstop now, hstop later]
    exact if_pos hrun

/-! ## Reprogramming -/

section

variable {old new : Timing} (hold : old.Decoded) (hnew : new.Decoded)

include hold hnew

theorem remapLine_spec {physicalLine : Nat} (h : physicalLine ≤ 4797000) :
    ∃ line, remapLine old new physicalLine = some line ∧ line ≤ 4797000 * 2 + 4 := by
  have hscanlines := hold.scanlines.2
  obtain ⟨verticalCount, hcnt, hcountLe⟩ := Checked.div_le h hold.scanlines.1
  obtain ⟨subline, hsubline, hsublineLt⟩ := @Checked.mod_lt physicalLine _ hold.scanlines.1
  obtain ⟨lines, hlines, hlinesLe⟩ := @Checked.mul_le 64 _ _ _ _ hcountLe hnew.scanlines.2 (by decide)
  obtain ⟨sublines, hsublines, hsublinesLe⟩ :=
    @Checked.mul_le 64 _ _ _ _ (show subline ≤ 2 by omega) hnew.scanlines.2 (by decide)
  obtain ⟨rest, hrest, hrestLe⟩ := Checked.div_le hsublinesLe hold.scanlines.1
  rw [remapLine, hcnt, hsubline]
  simp only [bind_eq_bind, bind_some, hlines, hsublines, hrest]
  exact Checked.add_le hlinesLe hrestLe (by decide)

theorem remapHorizontal_spec {horizontal : Nat} (h : horizontal ≤ 2340) :
    ∃ place, remapHorizontal old new horizontal = some place := by
  have hdots := hnew.dots
  obtain ⟨characters, hcharacters, hcharactersLe⟩ := Checked.div_le h hold.dots.1
  obtain ⟨start, hst, hstartLe⟩ := @Checked.mul_le 64 _ _ _ _ hcharactersLe hnew.dots.2 (by decide)
  obtain ⟨dots, hrest, -⟩ := @Checked.mod_lt horizontal _ hold.dots.1
  have hmin := Nat.min_le_right dots (new.dotsPerHorizontalCount - 1)
  obtain ⟨place, hpl, -⟩ :=
    @Checked.add_le 64 _ _ _ _ hstartLe (show min dots (new.dotsPerHorizontalCount - 1) ≤ 9 by omega) (by decide)
  rw [remapHorizontal, hcharacters, hrest, Checked.sub_eq hdots.1]
  simp only [bind_eq_bind, bind_some, hst]
  exact ⟨place, hpl⟩

end

theorem remapDot_spec (h : r.Valid) {new : Timing} (hnew : new.Decoded) :
    ∃ dot, r.remapDot new = some dot ∧ dot < new.frame := by
  have hdot := Nat.le_trans (Nat.le_of_lt h.dot) (r.timing.frame_le h.timing)
  have htotal := h.timing.horizontal.2
  have htotal' := hnew.horizontal.2
  obtain ⟨physicalLine, hphys, hphysicalLe⟩ := Checked.div_le hdot h.timing.horizontal.1
  obtain ⟨line, hline, hlineLe⟩ := remapLine_spec h.timing hnew hphysicalLe
  obtain ⟨horizontal, hhorizontal, hhorizontalLt⟩ := @Checked.mod_lt r.dot _ h.timing.horizontal.1
  obtain ⟨place, hpl⟩ := remapHorizontal_spec h.timing hnew (show horizontal ≤ 2340 by omega)
  obtain ⟨start, hst, hstartLe⟩ := @Checked.mul_le 64 _ _ _ _ hlineLe hnew.horizontal.2 (by decide)
  obtain ⟨offset, hoff, hoffsetLt⟩ := @Checked.mod_lt place _ hnew.horizontal.1
  obtain ⟨dot, hdot', -⟩ := @Checked.add_le 64 _ _ _ _ hstartLe (show offset ≤ 2340 by omega) (by decide)
  rw [remapDot, hphys, hhorizontal, new.frameDots_eq hnew]
  simp only [bind_eq_bind, bind_some, hline, hpl, hst, hoff, hdot']
  exact Checked.mod_lt (new.frame_pos hnew)

theorem restart_valid (h : r.Valid) {new : Timing} (hnew : new.Decoded) : (r.restart new).Valid :=
  ⟨hnew, new.frame_pos hnew, new.denominator_pos hnew, h.count⟩

theorem setTiming_spec (h : r.Valid) {new : Timing} (hnew : new.Decoded) :
    ∃ changed r', r.setTiming new = some (changed, r') ∧ r'.Valid ∧ r'.updated = r.updated ∧
      r'.retraceCount = r.retraceCount ∧ r'.timing = new := by
  unfold setTiming
  split
  next heq => exact ⟨false, r, rfl, h, rfl, rfl, heq⟩
  next =>
    split
    next => exact ⟨true, _, rfl, restart_valid h hnew, rfl, rfl, rfl⟩
    next =>
      obtain ⟨dot, hremap, hdot⟩ := remapDot_spec h hnew
      obtain ⟨hrescale, hrem⟩ := new.rescaleRemainder_eq hnew h.timing h.remainder
      rw [hremap, hrescale]
      exact ⟨true, _, rfl, ⟨hnew, hdot, hrem, h.count⟩, rfl, rfl, rfl⟩

/-! ## Deadlines -/

/-- The deadline of a boundary is the first time whose update reaches it. -/
theorem nextDotAt_spec (h : r.Valid) (hrun : r.timing.clockRunning) {bnd : Nat} (hlt : bnd < r.timing.frame)
    (hupdated : r.updated < 2 ^ 64) : ∃ next, r.nextDotAt bnd = some (some next) ∧
      ∀ now, r.updated ≤ now → (next ≤ now ↔ 0 < (r.sinceBoundary bnd + r.dots now) / r.timing.frame) := by
  have hpos := r.timing.frame_pos h.timing
  have hframe := r.timing.frame_le h.timing
  have hdot := h.dot
  have hsince : r.sinceBoundary bnd < r.timing.frame := Nat.mod_lt _ hpos
  have hnext : (if (bnd + r.timing.frame - r.dot) % r.timing.frame = 0 then r.timing.frame
      else (bnd + r.timing.frame - r.dot) % r.timing.frame) = r.timing.frame - r.sinceBoundary bnd := by
    unfold sinceBoundary
    rcases Nat.lt_trichotomy r.dot bnd with hlt' | heq | hgt
    · rw [show bnd + r.timing.frame - r.dot = bnd - r.dot + r.timing.frame by omega, Nat.add_mod_right,
        Nat.mod_eq_of_lt (show bnd - r.dot < r.timing.frame by omega),
        Nat.mod_eq_of_lt (show r.dot + r.timing.frame - bnd < r.timing.frame by omega), if_neg (by omega)]
      omega
    · rw [heq, Nat.add_sub_cancel_left, Nat.mod_self, if_pos rfl, Nat.sub_zero]
    · rw [show r.dot + r.timing.frame - bnd = r.dot - bnd + r.timing.frame by omega, Nat.add_mod_right,
        Nat.mod_eq_of_lt (show r.dot - bnd < r.timing.frame by omega),
        Nat.mod_eq_of_lt (show bnd + r.timing.frame - r.dot < r.timing.frame by omega), if_neg (by omega)]
      omega
  obtain ⟨delay, hdelay, hsmall, hiff⟩ := r.timing.remainingForDots_spec h.timing hrun
    (show 0 < r.timing.frame - r.sinceBoundary bnd by omega) (Nat.sub_le _ _) h.remainder
  refine ⟨r.updated + delay, ?_, fun now hle => ?_⟩
  · have hnanos : DURATION_NANOS = 2 ^ 64 * 1000000000 := rfl
    rw [nextDotAt, r.timing.frameDots_eq h.timing]
    simp only [bind_eq_bind, bind_some]
    rw [Checked.add_eq (by omega), bind_some, Checked.sub_eq (by omega), bind_some, Checked.mod_eq hpos,
      bind_some, hnext, hdelay, bind_some, if_pos (by omega)]
    rfl
  · rw [Nat.div_pos_iff, show r.updated + delay ≤ now ↔ delay ≤ now - r.updated by omega, hiff (now - r.updated)]
    have hdots : r.timing.frame - r.sinceBoundary bnd ≤ r.dots now ↔
        (r.timing.frame - r.sinceBoundary bnd) * r.timing.denominator ≤ r.numerator now :=
      Nat.le_div_iff_mul_le (r.timing.denominator_pos h.timing)
    unfold numerator at hdots
    rw [← hdots]
    omega

/-- The deadline of the next retrace is the first time whose update counts it. -/
theorem nextRetraceAt_spec (h : r.Valid) (hupdated : r.updated < 2 ^ 64) : ∃ next, r.nextRetraceAt = some next ∧
    ∀ now, r.updated ≤ now → (0 < r.retraces now ↔ ∃ n ∈ next, n ≤ now) := by
  rw [nextRetraceAt, r.timing.retraceDot_eq h.timing, bind_eq_bind, bind_some]
  unfold retraces
  cases hretrace : r.timing.retrace with
  | none =>
    refine ⟨none, rfl, fun now _ => iff_of_false (Nat.lt_irrefl 0) ?_⟩
    rintro ⟨n, hn, -⟩
    cases hn
  | some boundary =>
    have hrun : r.timing.clockRunning := by
      unfold Timing.retrace at hretrace
      split at hretrace
      next hcond => exact hcond.1
      next => cases hretrace
    obtain ⟨next, hnext, hiff⟩ := nextDotAt_spec h hrun (r.timing.retrace_lt h.timing hretrace) hupdated
    refine ⟨some next, hnext, fun now hle => (hiff now hle).symm.trans ?_⟩
    exact ⟨fun hn => ⟨next, rfl, hn⟩, fun ⟨n, hn, hle⟩ => Option.some.inj hn ▸ hle⟩

end Raster

end Relocade.Vga
