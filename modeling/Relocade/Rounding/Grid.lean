import Mathlib.Data.Int.Log
import Mathlib.Tactic.Positivity
import Relocade.Rounding.Direction

/-!
# `Rounding.Grid` — rounding to a binary precision

A value is rounded to a multiple of a power of two that its own binade and the precision select, with or without a
smallest binade. A significand scaled by a power of two is rounded as the evidence of its shifted floor says
(`roundAt_scaled`).
-/

namespace Relocade.Rounding

variable {K : Type*} [Field K] [LinearOrder K] [IsStrictOrderedRing K] [FloorRing K]

/-! ## Grids -/

/-- The exponent of the grid on which a value has `precision` bits. -/
def quantum (precision : ℕ) (x : K) : ℤ := Int.log 2 |x| - (precision - 1)

/-- The same where binades below `2 ^ minimum` share its grid. -/
def quantumFrom (precision : ℕ) (minimum : ℤ) (x : K) : ℤ := max (quantum precision x) (minimum - (precision - 1))

/-- Rounds to a precision, with any exponent. -/
def Direction.roundUnbounded (d : Direction) (precision : ℕ) (x : K) : K := d.roundAt (quantum precision x) x

/-- Rounds to a precision, gradually losing it below `2 ^ minimum`. -/
def Direction.roundBounded (d : Direction) (precision : ℕ) (minimum : ℤ) (x : K) : K :=
  d.roundAt (quantumFrom precision minimum x) x

/-! ## Scaled significands -/

omit [FloorRing K] in
theorem abs_sign_mul (neg : Bool) {x : K} (hx : 0 ≤ x) : |sign K neg * x| = x := by
  cases neg with
  | false => rw [sign, if_neg Bool.false_ne_true, one_mul, abs_of_nonneg hx]
  | true => rw [sign, if_pos rfl, neg_one_mul, abs_neg, abs_of_nonneg hx]

variable {s : K} {k : ℕ} {e : ℤ}

/-- The binade of a scaled significand. -/
theorem log_scaled (hlow : 2 ^ k ≤ s) (hhi : s < 2 ^ (k + 1)) (neg : Bool) (e : ℤ) :
    Int.log 2 |sign K neg * (s * 2 ^ e)| = e + k := by
  have hs : 0 < s := lt_of_lt_of_le (by positivity) hlow
  have hpow : (0 : K) < 2 ^ e := zpow_pos two_pos e
  have hscaled : 0 < s * 2 ^ e := mul_pos hs hpow
  rw [abs_sign_mul neg hscaled.le]
  have hle : (2 : K) ^ (e + k) ≤ s * 2 ^ e := by
    rw [zpow_add₀ two_ne_zero, zpow_natCast, mul_comm]
    exact mul_le_mul_of_nonneg_right hlow hpow.le
  have hlt : s * 2 ^ e < (2 : K) ^ (e + k + 1) := by
    rw [add_assoc, zpow_add₀ two_ne_zero, mul_comm]
    exact mul_lt_mul_of_pos_left (by exact_mod_cast hhi) hpow
  have hlog := (Int.zpow_le_iff_le_log one_lt_two hscaled (x := e + k)).mp (by exact_mod_cast hle)
  have hlog' := (Int.lt_zpow_iff_log_lt one_lt_two hscaled (x := e + k + 1)).mp (by exact_mod_cast hlt)
  omega

/-- A value has one significand. -/
theorem scaled_unique {m n : ℕ} {e' : ℤ} (hm : 2 ^ k ≤ m) (hm' : m < 2 ^ (k + 1)) (hn : 2 ^ k ≤ n)
    (hn' : n < 2 ^ (k + 1)) (h : (m : K) * 2 ^ e = n * 2 ^ e') : m = n ∧ e = e' := by
  have hlog := log_scaled (K := K) (s := m) (by exact_mod_cast hm) (by exact_mod_cast hm') false e
  have hlog' := log_scaled (K := K) (s := n) (by exact_mod_cast hn) (by exact_mod_cast hn') false e'
  rw [h, hlog'] at hlog
  obtain rfl : e = e' := by omega
  exact ⟨by exact_mod_cast mul_right_cancel₀ (zpow_ne_zero e two_ne_zero) h, rfl⟩

omit [FloorRing K] in
/-- A longer significand of such a value ends in zeros. -/
theorem Fits.dvd {x : K} {prec zeros m : ℕ} (h : Fits prec x) (hx : |x| = m * 2 ^ e)
    (hm : 2 ^ (prec + zeros) ≤ 2 * m) : 2 ^ zeros ∣ m := by
  obtain ⟨n, e', hn, hx'⟩ := h
  rw [hx] at hx'
  rcases Int.le_total e' e with hle | hle
  · obtain ⟨j, hj⟩ := Int.eq_ofNat_of_zero_le (Int.sub_nonneg.mpr hle)
    have hscaled : m * 2 ^ j = n := by
      have hsplit : e = j + e' := by omega
      rw [hsplit, zpow_add₀ two_ne_zero (j : ℤ), zpow_natCast, ← mul_assoc] at hx'
      exact_mod_cast mul_right_cancel₀ (zpow_ne_zero e' two_ne_zero) hx'
    have hlt : 2 * m < 2 ^ (prec + 1) := by
      have hle := Nat.le_mul_of_pos_right m (Nat.two_pow_pos j)
      rw [pow_succ]
      omega
    have hzeros : zeros = 0 := by
      have := (Nat.pow_lt_pow_iff_right (show 1 < 2 by decide)).mp (hm.trans_lt hlt)
      omega
    rw [hzeros, pow_zero]
    exact one_dvd m
  · obtain ⟨j, hj⟩ := Int.eq_ofNat_of_zero_le (Int.sub_nonneg.mpr hle)
    have hscaled : m = n * 2 ^ j := by
      have hsplit : e' = j + e := by omega
      rw [hsplit, zpow_add₀ two_ne_zero (j : ℤ), zpow_natCast, ← mul_assoc] at hx'
      exact_mod_cast mul_right_cancel₀ (zpow_ne_zero e two_ne_zero) hx'
    have hlt : 2 * m < 2 ^ (prec + j + 1) := by
      rw [hscaled, pow_succ, pow_add, mul_comm 2]
      exact Nat.mul_lt_mul_of_pos_right (Nat.mul_lt_mul_of_pos_right hn (Nat.two_pow_pos j)) two_pos
    have hzeros : zeros ≤ j := by
      have := (Nat.pow_lt_pow_iff_right (show 1 < 2 by decide)).mp (hm.trans_lt hlt)
      omega
    rw [hscaled]
    exact Dvd.dvd.mul_left (Nat.pow_dvd_pow 2 hzeros) n

/-- A value on a grid stays there. -/
theorem Direction.roundAt_of_grid (d : Direction) {q : ℤ} {x : K} {n : ℤ} (h : x = n * 2 ^ q) : d.roundAt q x = x := by
  have hquot : x / 2 ^ q = n := by
    rw [h, mul_div_cancel_right₀ _ (zpow_ne_zero q two_ne_zero)]
  rw [roundAt, hquot, d.round_intCast, ← h]

/-- A value that fits a precision is on its own grid. -/
theorem Fits.roundUnbounded {x : K} {prec : ℕ} (h : Fits prec x) (d : Direction) :
    d.roundUnbounded prec x = x := by
  obtain ⟨m, e, hm, hx⟩ := h
  by_cases hz : x = 0
  · exact d.roundAt_of_grid (n := 0) (by rw [hz, Int.cast_zero, zero_mul])
  · have hlt : |x| < 2 ^ (e + prec) := by
      rw [hx, zpow_add₀ two_ne_zero e, zpow_natCast, mul_comm]
      exact mul_lt_mul_of_pos_left (by exact_mod_cast hm) (zpow_pos two_pos e)
    have hlog := (Int.lt_zpow_iff_log_lt one_lt_two (abs_pos.mpr hz)).mp (by exact_mod_cast hlt)
    have hle : quantum prec x ≤ e := by
      unfold quantum
      omega
    obtain ⟨j, hj⟩ := Int.eq_ofNat_of_zero_le (Int.sub_nonneg.mpr hle)
    have hgrid : |x| = ((m * 2 ^ j : ℕ) : ℤ) * 2 ^ quantum prec x := by
      have hsplit : e = j + quantum prec x := by omega
      rw [hx, hsplit, zpow_add₀ two_ne_zero (j : ℤ), zpow_natCast]
      push_cast
      ring
    rcases abs_choice x with habs | habs
    · rw [habs] at hgrid
      exact d.roundAt_of_grid hgrid
    · rw [habs] at hgrid
      refine d.roundAt_of_grid (n := -((m * 2 ^ j : ℕ) : ℤ)) ?_
      rw [Int.cast_neg, neg_mul, ← hgrid, neg_neg]

variable {floor : ℕ} {guard sticky : Bool}

/-- A scaled significand rounds as its shifted floor does. -/
theorem roundAt_scaled (h : Describes floor guard sticky (s / 2 ^ k)) (d : Direction) (neg : Bool) (e : ℤ) :
    d.roundAt (e + k) (sign K neg * (s * 2 ^ e)) =
      sign K neg *
        (((floor + (d.increments neg guard sticky (floor % 2 = 1)).toNat : ℕ) : K) * 2 ^ (e + k)) := by
  have hquot : sign K neg * (s * 2 ^ e) / 2 ^ (e + k) = sign K neg * (s / 2 ^ k) := by
    rw [zpow_add₀ two_ne_zero, zpow_natCast]
    field_simp
  have hsign : ((sign ℤ neg : ℤ) : K) = sign K neg := by
    cases neg with
    | false => simp [sign]
    | true => simp [sign]
  rw [Direction.roundAt, hquot, round_sign_mul h, Int.cast_mul, hsign, Int.cast_natCast, mul_assoc]

theorem Direction.inexact_of_increments {d : Direction} {neg odd : Bool}
    (h : d.increments neg guard sticky odd = true) : (guard || sticky) = true := by
  cases d with
  | nearest => exact Bool.or_eq_true_iff.mpr (Or.inl (Bool.and_eq_true_iff.mp h).1)
  | down => exact (Bool.and_eq_true_iff.mp h).1
  | up => exact (Bool.and_eq_true_iff.mp h).1
  | zero => exact (Bool.and_eq_true_iff.mp h).1

/-- A scaled significand on the grid of its shifted floor. -/
theorem Describes.scaled_eq (h : Describes floor guard sticky (s / 2 ^ k)) (e : ℤ) :
    s * 2 ^ e = (floor + Int.fract (s / 2 ^ k)) * 2 ^ (e + k) := by
  rw [← h.eq_floor_add_fract, zpow_add₀ two_ne_zero, zpow_natCast]
  field_simp

/-- A rounded value grows in magnitude when its floor is incremented. -/
theorem abs_lt_abs_roundAt_iff (h : Describes floor guard sticky (s / 2 ^ k)) (d : Direction) (neg : Bool)
    (e : ℤ) :
    |sign K neg * (s * 2 ^ e)| < |d.roundAt (e + k) (sign K neg * (s * 2 ^ e))| ↔
      d.increments neg guard sticky (floor % 2 = 1) = true := by
  have hpow : (0 : K) < 2 ^ (e + k) := zpow_pos two_pos _
  have hfract := Int.fract_nonneg (s / 2 ^ k)
  have hfract' := Int.fract_lt_one (s / 2 ^ k)
  have hscaled : 0 ≤ s * 2 ^ e := by
    rw [h.scaled_eq]
    exact mul_nonneg (add_nonneg (Nat.cast_nonneg _) hfract) hpow.le
  rw [roundAt_scaled h, abs_sign_mul neg hscaled,
    abs_sign_mul neg (mul_nonneg (Nat.cast_nonneg _) hpow.le), h.scaled_eq, mul_lt_mul_iff_left₀ hpow]
  cases d.increments neg guard sticky (floor % 2 = 1) with
  | false =>
    rw [Bool.toNat_false, Nat.add_zero]
    refine ⟨fun hlt => ?_, fun hfalse => absurd hfalse Bool.false_ne_true⟩
    linarith
  | true =>
    rw [Bool.toNat_true, Nat.cast_succ]
    refine ⟨fun _ => rfl, fun _ => ?_⟩
    linarith

/-- A rounded value differs when anything was discarded. -/
theorem roundAt_ne_iff (h : Describes floor guard sticky (s / 2 ^ k)) (d : Direction) (neg : Bool) (e : ℤ) :
    d.roundAt (e + k) (sign K neg * (s * 2 ^ e)) ≠ sign K neg * (s * 2 ^ e) ↔ (guard || sticky) = true := by
  have hpow : (2 : K) ^ (e + k) ≠ 0 := (zpow_pos two_pos _).ne'
  have hsign : sign K neg ≠ 0 := by
    cases neg with
    | false => exact one_ne_zero
    | true => exact neg_ne_zero.mpr one_ne_zero
  rw [roundAt_scaled h, h.scaled_eq, h.inexact_iff, ne_eq, mul_right_inj' hsign, mul_left_inj' hpow, Nat.cast_add,
    add_right_inj]
  have hfract := Int.fract_lt_one (s / 2 ^ k)
  cases hincs : d.increments neg guard sticky (floor % 2 = 1) with
  | false =>
    rw [Bool.toNat_false, Nat.cast_zero]
    exact not_congr eq_comm
  | true =>
    have hinex := h.inexact_iff.mp (Direction.inexact_of_increments hincs)
    rw [Bool.toNat_true, Nat.cast_one]
    exact ⟨fun _ => hinex, fun _ => hfract.ne'⟩

/-- The binade of a rounded significand, which may have reached the next one. -/
theorem zpow_le_rounded_iff {n p : ℕ} (hlow : 2 ^ p ≤ n) (hhi : n ≤ 2 ^ (p + 1)) (e c : ℤ) :
    (2 : K) ^ c ≤ n * 2 ^ (e - p) ↔ c ≤ e + if n = 2 ^ (p + 1) then 1 else 0 := by
  have hpow : (0 : K) < 2 ^ (e - p) := zpow_pos two_pos _
  have hbase : (2 : K) ^ e = 2 ^ p * 2 ^ (e - p) := by
    rw [← zpow_natCast, ← zpow_add₀ two_ne_zero]
    congr 1
    omega
  have hnext : (2 : K) ^ (e + 1) = 2 ^ (p + 1) * 2 ^ (e - p) := by
    rw [zpow_add_one₀ two_ne_zero, hbase, pow_succ]
    ring
  have hlow' : (2 : K) ^ e ≤ n * 2 ^ (e - p) := by
    rw [hbase]
    exact mul_le_mul_of_nonneg_right (by exact_mod_cast hlow) hpow.le
  split
  next hcarry =>
    have hn : (n : K) * 2 ^ (e - p) = 2 ^ (e + 1) := by
      rw [hnext, hcarry]
      push_cast
      rfl
    rw [hn]
    exact zpow_le_zpow_iff_right₀ one_lt_two
  next hcarry =>
    have hlt : (n : K) * 2 ^ (e - p) < 2 ^ (e + 1) := by
      rw [hnext]
      refine mul_lt_mul_of_pos_right ?_ hpow
      exact_mod_cast lt_of_le_of_ne hhi hcarry
    rw [add_zero]
    constructor
    · intro h
      exact Int.lt_add_one_iff.mp ((zpow_lt_zpow_iff_right₀ one_lt_two).mp (h.trans_lt hlt))
    · intro h
      exact ((zpow_le_zpow_iff_right₀ one_lt_two).mpr h).trans hlow'

end Relocade.Rounding
