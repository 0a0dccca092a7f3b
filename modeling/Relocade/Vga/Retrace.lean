import Mathlib.Algebra.Order.Archimedean.Basic
import Mathlib.Algebra.Order.Floor.Ring
import Mathlib.Data.Rat.Floor
import Mathlib.Data.Set.Card
import Mathlib.Order.Interval.Finset.Nat
import Mathlib.Tactic.FieldSimp
import Mathlib.Tactic.Linarith
import Relocade.Vga.Raster

/-!
# `Vga.Retrace` — retraces in real time

The raster's position as a rational function of time, counted on through later frames. A retrace is a time at which
the position is at the boundary of some frame. An update counts the retraces after the raster's time and up to the
clock's (`ncard_crossed`), and dates the latest at the first whole nanosecond at or after it (`latest_spec`).
-/

namespace Relocade.Vga.Raster

variable (r : Raster)

/-- The position in dots at a real time, if the timing stays. -/
def position (t : ℚ) : ℚ :=
  r.dot + (r.dotRemainder + (t - r.updated) * r.timing.oscillatorHz) / r.timing.denominator

/-- The retraces after the raster's time, up to another. -/
def crossed (now : Nat) : Set ℚ :=
  {t | r.updated < t ∧ t ≤ now ∧ ∃ boundary ∈ r.timing.retrace, ∃ n : ℕ, r.position t = boundary + n * r.timing.frame}

/-- The time at which the raster is at a dot, counted on through later frames. -/
def boundaryTime (dot : ℕ) : ℚ :=
  r.updated + ((dot - r.dot) * r.timing.denominator - r.dotRemainder) / r.timing.oscillatorHz

variable {r} {now dot boundary : Nat}

theorem clockRunning_of_retrace (h : boundary ∈ r.timing.retrace) : r.timing.clockRunning := by
  unfold Timing.retrace at h
  split at h
  next hcond => exact hcond.1
  next => cases h

section

variable (h : r.Valid) (hrun : r.timing.clockRunning)

include h hrun

theorem oscillator_cast_pos : (0 : ℚ) < r.timing.oscillatorHz := by
  have hosc := r.timing.oscillator_pos h.timing hrun
  exact_mod_cast (show 0 < r.timing.oscillatorHz by omega)

omit hrun in
theorem denominator_cast_pos : (0 : ℚ) < r.timing.denominator := by
  exact_mod_cast r.timing.denominator_pos h.timing

theorem position_eq_iff {t : ℚ} : r.position t = dot ↔ t = r.boundaryTime dot := by
  have hosc := oscillator_cast_pos h hrun
  have hden := denominator_cast_pos h
  unfold position boundaryTime
  constructor
  · intro heq
    field_simp at heq ⊢
    linarith
  · rintro rfl
    field_simp
    ring

theorem updated_lt_iff : r.updated < r.boundaryTime dot ↔ r.dot < dot := by
  have hosc := oscillator_cast_pos h hrun
  have hrem := h.remainder
  unfold boundaryTime
  rw [lt_add_iff_pos_right, div_pos_iff_of_pos_right hosc, sub_pos]
  constructor
  · intro hlt
    by_contra hle
    have hle' : (dot : ℚ) ≤ r.dot := by exact_mod_cast Nat.not_lt.mp hle
    have hmul := mul_nonpos_of_nonpos_of_nonneg (sub_nonpos.mpr hle') (denominator_cast_pos h).le
    have hnonneg : (0 : ℚ) ≤ r.dotRemainder := Nat.cast_nonneg _
    linarith
  · intro hlt
    have hone : (1 : ℚ) ≤ dot - r.dot := by
      have hle : (r.dot : ℚ) + 1 ≤ dot := by exact_mod_cast hlt
      linarith
    have hmul := mul_le_mul_of_nonneg_right hone (denominator_cast_pos h).le
    have hlt' : (r.dotRemainder : ℚ) < r.timing.denominator := by exact_mod_cast hrem
    linarith

theorem le_now_iff (hle : r.updated ≤ now) : r.boundaryTime dot ≤ now ↔ dot ≤ r.dot + r.dots now := by
  have hosc := oscillator_cast_pos h hrun
  have hpos := r.timing.denominator_pos h.timing
  have hdots : r.dot + r.dots now = (r.numerator now + r.timing.denominator * r.dot) / r.timing.denominator := by
    rw [Nat.add_mul_div_left _ _ hpos, Nat.add_comm]
    rfl
  obtain ⟨elapsed, rfl⟩ := Nat.exists_eq_add_of_le hle
  rw [hdots, Nat.le_div_iff_mul_le hpos]
  unfold boundaryTime numerator
  rw [Nat.cast_add, add_le_add_iff_left, div_le_iff₀ hosc, Nat.add_sub_cancel_left]
  have hcast : ((dot * r.timing.denominator : ℕ) : ℚ) ≤
      ((elapsed * r.timing.oscillatorHz + r.dotRemainder + r.timing.denominator * r.dot : ℕ) : ℚ) ↔
        dot * r.timing.denominator ≤ elapsed * r.timing.oscillatorHz + r.dotRemainder + r.timing.denominator * r.dot :=
    Nat.cast_le
  rw [← hcast]
  push_cast
  constructor
  · intro hx
    linarith
  · intro hx
    linarith

theorem boundaryTime_strictMono : StrictMono r.boundaryTime := by
  intro a b hab
  have hosc := oscillator_cast_pos h hrun
  have hcast : (a : ℚ) < b := by exact_mod_cast hab
  have hmul := mul_lt_mul_of_pos_right (sub_lt_sub_right hcast (r.dot : ℚ)) (denominator_cast_pos h)
  unfold boundaryTime
  rw [add_lt_add_iff_left, div_lt_div_iff_of_pos_right hosc]
  linarith

/-- The boundaries that an update passes are those of consecutive frames. -/
theorem crossed_eq (hbound : boundary ∈ r.timing.retrace) (hle : r.updated ≤ now) :
    r.crossed now = (fun n => r.boundaryTime (boundary + n * r.timing.frame)) ''
      {n | r.dot < boundary + n * r.timing.frame ∧ boundary + n * r.timing.frame ≤ r.dot + r.dots now} := by
  ext t
  constructor
  · rintro ⟨hlt, hnow, b, hb, n, hposition⟩
    obtain rfl := Option.some.inj (hb.symm.trans hbound)
    have ht : t = r.boundaryTime (b + n * r.timing.frame) := by
      rw [← position_eq_iff h hrun, hposition]
      push_cast
      rfl
    refine ⟨n, ⟨?_, ?_⟩, ht.symm⟩
    · rwa [ht, updated_lt_iff h hrun] at hlt
    · rwa [ht, le_now_iff h hrun hle] at hnow
  · rintro ⟨n, ⟨hlt, hnow⟩, rfl⟩
    refine ⟨(updated_lt_iff h hrun).mpr hlt, (le_now_iff h hrun hle).mpr hnow, boundary, hbound, n, ?_⟩
    have hposition := (position_eq_iff h hrun).mpr (rfl : r.boundaryTime (boundary + n * r.timing.frame) = _)
    dsimp only
    rw [hposition]
    push_cast
    rfl

end

/-- The frame of the first boundary after the position. -/
def firstFrame (r : Raster) (boundary : Nat) : Nat := if boundary ≤ r.dot then 1 else 0

theorem firstFrame_dot (h : r.Valid) (hlt : boundary < r.timing.frame) :
    boundary + r.firstFrame boundary * r.timing.frame + r.sinceBoundary boundary = r.dot + r.timing.frame := by
  have hdot := h.dot
  unfold firstFrame sinceBoundary
  split
  next hle =>
    rw [show r.dot + r.timing.frame - boundary = r.dot - boundary + r.timing.frame by omega, Nat.add_mod_right,
      Nat.mod_eq_of_lt (by omega)]
    omega
  next hle =>
    rw [Nat.mod_eq_of_lt (by omega)]
    omega

theorem frames_eq (h : r.Valid) (hlt : boundary < r.timing.frame) :
    {n | r.dot < boundary + n * r.timing.frame ∧ boundary + n * r.timing.frame ≤ r.dot + r.dots now} =
      ↑(Finset.Ico (r.firstFrame boundary)
        (r.firstFrame boundary + (r.sinceBoundary boundary + r.dots now) / r.timing.frame)) := by
  have hpos := r.timing.frame_pos h.timing
  have hfst := firstFrame_dot h hlt
  have hsince : r.sinceBoundary boundary < r.timing.frame := Nat.mod_lt _ hpos
  ext n
  rw [Finset.coe_Ico, Set.mem_Ico, Set.mem_ofPred_eq]
  refine and_congr ?_ ?_
  · constructor
    · intro hn
      by_contra hle
      have hmul : (n + 1) * r.timing.frame ≤ r.firstFrame boundary * r.timing.frame :=
        Nat.mul_le_mul_right _ (Nat.not_le.mp hle)
      rw [Nat.add_one_mul] at hmul
      omega
    · intro hn
      have hmul := Nat.mul_le_mul_right r.timing.frame hn
      omega
  · rcases Nat.lt_or_ge n (r.firstFrame boundary) with hn | hn
    · refine iff_of_true ?_ (Nat.lt_of_lt_of_le hn (Nat.le_add_right _ _))
      have hmul : (n + 1) * r.timing.frame ≤ r.firstFrame boundary * r.timing.frame := Nat.mul_le_mul_right _ hn
      rw [Nat.add_one_mul] at hmul
      omega
    · obtain ⟨k, rfl⟩ := Nat.exists_eq_add_of_le hn
      rw [Nat.add_lt_add_iff_left, ← Nat.succ_le_iff, Nat.le_div_iff_mul_le hpos, Nat.succ_mul, Nat.add_mul]
      omega

/-- An update counts the retraces it passes. -/
theorem ncard_crossed (h : r.Valid) (hle : r.updated ≤ now) : (r.crossed now).ncard = r.retraces now := by
  unfold retraces
  cases hretrace : r.timing.retrace with
  | none =>
    have hemp : r.crossed now = ∅ := by
      refine Set.eq_empty_of_forall_notMem fun t ht => ?_
      obtain ⟨-, -, boundary, hbound, -⟩ := ht
      cases hretrace ▸ hbound
    rw [hemp, Set.ncard_empty]
  | some boundary =>
    have hrun := clockRunning_of_retrace hretrace
    have hpos := r.timing.frame_pos h.timing
    have hinjective : Function.Injective fun n : ℕ => r.boundaryTime (boundary + n * r.timing.frame) := by
      intro a b hab
      have hdots := (boundaryTime_strictMono h hrun).injective hab
      exact Nat.eq_of_mul_eq_mul_right hpos (Nat.add_left_cancel hdots)
    rw [crossed_eq h hrun hretrace hle, Set.ncard_image_of_injective _ hinjective,
      frames_eq h (r.timing.retrace_lt h.timing hretrace), Set.ncard_coe_finset, Nat.card_Ico, Nat.add_sub_cancel_left]

theorem crossed_finite (h : r.Valid) (hle : r.updated ≤ now) : (r.crossed now).Finite := by
  cases hretrace : r.timing.retrace with
  | none =>
    refine Set.finite_empty.subset fun t ht => ?_
    obtain ⟨-, -, boundary, hbound, -⟩ := ht
    cases hretrace ▸ hbound
  | some boundary =>
    rw [crossed_eq h (clockRunning_of_retrace hretrace) hretrace hle,
      frames_eq h (r.timing.retrace_lt h.timing hretrace)]
    exact (Finset.finite_toSet _).image _

/-- The dot of the latest boundary that an update passes. -/
theorem latest_dot (h : r.Valid) (hlt : boundary < r.timing.frame) {frames : Nat}
    (hframes : (r.sinceBoundary boundary + r.dots now) / r.timing.frame = frames + 1) :
    boundary + (r.firstFrame boundary + frames) * r.timing.frame +
      (r.sinceBoundary boundary + r.dots now) % r.timing.frame = r.dot + r.dots now := by
  have hfst := firstFrame_dot h hlt
  have hdiv := Nat.div_add_mod (r.sinceBoundary boundary + r.dots now) r.timing.frame
  rw [hframes, Nat.mul_comm, Nat.add_one_mul] at hdiv
  rw [Nat.add_mul]
  omega

/-- The time since a boundary that an update passed. -/
theorem boundaryTime_eq (h : r.Valid) (hrun : r.timing.clockRunning) (hle : r.updated ≤ now) {since : Nat}
    (hdot : dot + since = r.dot + r.dots now) :
    r.boundaryTime dot = now - ((since * r.timing.denominator + r.numerator now % r.timing.denominator : ℕ) : ℚ) /
      r.timing.oscillatorHz := by
  have hosc := oscillator_cast_pos h hrun
  have hdots := @dots_mul r now
  obtain ⟨elapsed, rfl⟩ := Nat.exists_eq_add_of_le hle
  have hnum : r.numerator (r.updated + elapsed) = elapsed * r.timing.oscillatorHz + r.dotRemainder := by
    rw [numerator, Nat.add_sub_cancel_left]
  rw [hnum] at hdots ⊢
  have hcast := congrArg (fun n : ℕ => (n : ℚ)) hdots
  have hcast' := congrArg (fun n : ℕ => (n : ℚ)) hdot
  push_cast at hcast hcast' ⊢
  unfold boundaryTime
  rw [show (dot : ℚ) - r.dot = r.dots (r.updated + elapsed) - since by linarith]
  field_simp
  linarith

/-- A whole time less a fraction, rounded up. -/
theorem ceil_sub_div {a b : Nat} (hpos : 0 < b) (hle : a / b ≤ now) : ⌈(now : ℚ) - (a : ℚ) / b⌉ = ((now - a / b : ℕ) : ℤ) := by
  have hpos' : (0 : ℚ) < b := by exact_mod_cast hpos
  have hlow : ((a / b : ℕ) : ℚ) * b ≤ a := by exact_mod_cast Nat.div_mul_le_self a b
  have hhi : (a : ℚ) < ((a / b : ℕ) + 1) * b := by exact_mod_cast Nat.lt_mul_of_div_lt (Nat.lt_succ_self _) hpos
  have hle' := (le_div_iff₀ hpos').mpr hlow
  have hlt := (div_lt_iff₀ hpos').mpr hhi
  rw [Int.ceil_eq_iff, Int.cast_natCast, Nat.cast_sub hle]
  constructor
  · linarith
  · linarith

/-- An update dates the latest retrace at the first whole nanosecond at or after it. -/
theorem latest_spec (h : r.Valid) (hle : r.updated ≤ now) : (r.latest now = none ↔ r.crossed now = ∅) ∧
    ∀ date ∈ r.latest now, ∃ t, IsGreatest (r.crossed now) t ∧ ⌈t⌉ = (date : ℤ) := by
  have hcnt := ncard_crossed h hle
  have hemp : r.crossed now = ∅ ↔ r.retraces now = 0 := by
    rw [← hcnt, Set.ncard_eq_zero (crossed_finite h hle)]
  rw [hemp]
  unfold latest
  cases hretrace : r.timing.retrace with
  | none =>
    refine ⟨iff_of_true rfl ?_, fun date hdate => by cases hdate⟩
    rw [retraces, hretrace]
  | some boundary =>
    have hrun := clockRunning_of_retrace hretrace
    have hlt := r.timing.retrace_lt h.timing hretrace
    have hretraces : r.retraces now = (r.sinceBoundary boundary + r.dots now) / r.timing.frame := by
      rw [retraces, hretrace]
    dsimp only
    by_cases hz : r.retraces now = 0
    · rw [if_pos hz]
      exact ⟨iff_of_true rfl hz, fun date hdate => by cases hdate⟩
    · rw [if_neg hz]
      refine ⟨iff_of_false (fun hnone => by cases hnone) hz, fun date hdate => ?_⟩
      obtain rfl := Option.some.inj hdate
      obtain ⟨frames, hframes⟩ := Nat.exists_eq_succ_of_ne_zero hz
      rw [hretraces] at hframes
      have hdot := latest_dot h hlt hframes
      have hago := since_latest_lt h (hretraces ▸ hz)
      refine ⟨r.boundaryTime (boundary + (r.firstFrame boundary + frames) * r.timing.frame), ⟨?_, ?_⟩, ?_⟩
      · rw [crossed_eq h hrun hretrace hle, frames_eq h hlt, hframes]
        exact Set.mem_image_of_mem _ (by rw [Finset.coe_Ico, Set.mem_Ico]; omega)
      · intro t ht
        rw [crossed_eq h hrun hretrace hle, frames_eq h hlt, hframes] at ht
        obtain ⟨n, hn, rfl⟩ := ht
        rw [Finset.coe_Ico, Set.mem_Ico] at hn
        refine (boundaryTime_strictMono h hrun).monotone (Nat.add_le_add_left (Nat.mul_le_mul_right _ ?_) _)
        omega
      · rw [boundaryTime_eq h hrun hle hdot]
        have hosc := r.timing.oscillator_pos h.timing hrun
        refine ceil_sub_div (by omega) (Nat.div_le_of_le_mul ?_)
        have hmul := Nat.mul_le_mul_left r.timing.oscillatorHz (Nat.sub_le now r.updated)
        rw [Nat.mul_comm _ (now - r.updated)] at hmul
        omega

end Relocade.Vga.Raster
