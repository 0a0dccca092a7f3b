import Mathlib.Data.Rat.Floor
import Relocade.Floating.Rounding
import Relocade.Rounding.Grid

/-!
# `Floating.Finite` — finite magnitudes and binary rounding

A magnitude describes an exact rational. Rounding its significand at a distance is rounding that rational on a grid
(`round_shiftRight`), and `roundBinary` reports the value's rounding to the destination's precision with and without
its smallest binade (`roundBinary_roundsOnce`).
-/

namespace Relocade.Floating

open Rounding

/-! ## Magnitudes -/

/-- An unrounded finite value; the leading significand bit is bit 63. -/
structure FiniteMagnitude where
  significand : RoundingInput
  exponent : BitVec 32
  negative : Bool
  deriving DecidableEq, Repr

/-- An exact finite input with its leading bit at 63 (or an all-zero significand). -/
structure FiniteInput where
  significand : BitVec 64
  exponent : BitVec 32
  negative : Bool
  deriving DecidableEq, Repr

/-- The value of an input. -/
def FiniteInput.value (input : FiniteInput) : ℚ :=
  sign ℚ input.negative * (input.significand.toNat * 2 ^ (input.exponent.toInt - 63))

namespace FiniteMagnitude

variable (m : FiniteMagnitude)

/-- The leading bit is set. -/
def Normalized : Prop := 2 ^ 63 ≤ m.significand.integer.toNat

/-- The value of a magnitude whose significand describes `s`. -/
def value (s : ℚ) : ℚ := sign ℚ m.negative * (s * 2 ^ (m.exponent.toInt - 63))

end FiniteMagnitude

variable {m : FiniteMagnitude} {s : ℚ}

/-- A normalized significand lies in its binade. -/
theorem significand_bounds (hn : m.Normalized) (h : m.significand.Describes s) : 2 ^ 63 ≤ s ∧ s < 2 ^ (63 + 1) := by
  have hs := h.eq_floor_add_fract
  have hlow : (2 ^ 63 : ℚ) ≤ m.significand.integer.toNat := by exact_mod_cast hn
  have hhi : (m.significand.integer.toNat : ℚ) + 1 ≤ 2 ^ 64 := by
    exact_mod_cast Nat.succ_le_of_lt m.significand.integer.isLt
  have hfract := Int.fract_nonneg s
  have hfract' := Int.fract_lt_one s
  constructor
  · linarith
  · norm_num at hhi ⊢
    linarith

theorem abs_value_pos (hn : m.Normalized) (h : m.significand.Describes s) : 0 < |m.value s| := by
  obtain ⟨hlow, -⟩ := significand_bounds hn h
  have hs : 0 < s := lt_of_lt_of_le (by norm_num) hlow
  rw [FiniteMagnitude.value, abs_sign_mul _ (mul_pos hs (zpow_pos two_pos _)).le]
  exact mul_pos hs (zpow_pos two_pos _)

theorem log_value (hn : m.Normalized) (h : m.significand.Describes s) :
    Int.log 2 |m.value s| = m.exponent.toInt := by
  obtain ⟨hlow, hhi⟩ := significand_bounds hn h
  rw [FiniteMagnitude.value, log_scaled hlow hhi]
  omega

/-! ## Rounding at a distance -/

/-- The rounded integer before it wraps. -/
def roundedInteger (m : FiniteMagnitude) (rounding : RoundingMode) (distance : BitVec 32) : ℕ :=
  (m.significand.shiftRight distance).integer.toNat +
    (rounding.round (m.significand.shiftRight distance) m.negative).incremented.toNat

theorem toNat_round_integer (r : RoundingMode) (input : RoundingInput) (neg : Bool) :
    (r.round input neg).integer.toNat =
      (input.integer.toNat + (r.round input neg).incremented.toNat) % 2 ^ 64 := by
  show (input.integer + if (r.round input neg).incremented then 1 else 0).toNat = _
  rw [BitVec.toNat_add]
  cases (r.round input neg).incremented with
  | false => rfl
  | true => rfl

/-- Rounding a shifted significand is rounding the value on the grid that the shift leaves. -/
theorem round_shiftRight (h : m.significand.Describes s) (r : RoundingMode) (distance : BitVec 32) {q : ℤ}
    (hq : q = m.exponent.toInt - 63 + distance.toNat) :
    let rounded := r.round (m.significand.shiftRight distance) m.negative
    let y := r.direction.roundAt q (m.value s)
    y = sign ℚ m.negative * (roundedInteger m r distance * 2 ^ q) ∧
      (rounded.inexact = true ↔ y ≠ m.value s) ∧ (rounded.incremented = true ↔ |m.value s| < |y|) := by
  intro rounded y
  have hsh := shiftRight_describes h distance
  have hinc := r.round_incremented (m.significand.shiftRight distance) m.negative
  subst hq
  refine ⟨?_, ?_, ?_⟩
  · show r.direction.roundAt _ _ = _
    rw [FiniteMagnitude.value, roundAt_scaled hsh, roundedInteger, hinc]
  · exact (roundAt_ne_iff hsh _ _ _).symm
  · show (r.round _ _).incremented = true ↔ _
    rw [hinc]
    exact (abs_lt_abs_roundAt_iff hsh _ _ _).symm

/-- The exponent difference of a distance, in words. -/
theorem toNat_sub_of_toInt_le {x exp : BitVec 32} (h : exp.toInt ≤ x.toInt) :
    ((x - exp).toNat : ℤ) = x.toInt - exp.toInt := by
  have hx := x.isLt
  have hexp := exp.isLt
  rw [BitVec.toNat_sub]
  rw [BitVec.toInt_eq_toNat_cond, BitVec.toInt_eq_toNat_cond] at h ⊢
  omega

variable {p : ℕ} {distance : BitVec 32}

theorem roundedInteger_bounds (hn : m.Normalized) (r : RoundingMode) (hdist : distance.toNat + p = 63) :
    2 ^ p ≤ roundedInteger m r distance ∧ roundedInteger m r distance ≤ 2 ^ (p + 1) := by
  have hpow : 2 ^ p * 2 ^ distance.toNat = 2 ^ 63 := by rw [← pow_add, Nat.add_comm, hdist]
  have hlow : 2 ^ p ≤ m.significand.integer.toNat / 2 ^ distance.toNat := by
    rw [Nat.le_div_iff_mul_le (Nat.two_pow_pos _), hpow]
    exact hn
  have hhi : m.significand.integer.toNat / 2 ^ distance.toNat < 2 ^ (p + 1) := by
    rw [Nat.div_lt_iff_lt_mul (Nat.two_pow_pos _), pow_succ, Nat.mul_right_comm, hpow]
    exact m.significand.integer.isLt
  have hbit := Bool.toNat_le (r.round (m.significand.shiftRight distance) m.negative).incremented
  rw [roundedInteger, toNat_shiftRight_integer]
  omega

/-- Rounding with any exponent. -/
theorem unbounded_spec (hn : m.Normalized) (h : m.significand.Describes s) (r : RoundingMode)
    (hdist : distance.toNat + p = 63) :
    let rounded := r.round (m.significand.shiftRight distance) m.negative
    let y := r.direction.roundUnbounded (p + 1) (m.value s)
    y = sign ℚ m.negative * (roundedInteger m r distance * 2 ^ (m.exponent.toInt - p)) ∧
      (rounded.inexact = true ↔ y ≠ m.value s) ∧ (rounded.incremented = true ↔ |m.value s| < |y|) ∧
      ∀ c : ℤ, 2 ^ c ≤ |y| ↔
        c ≤ m.exponent.toInt + if roundedInteger m r distance = 2 ^ (p + 1) then 1 else 0 := by
  intro rounded y
  have hquantum : quantum (p + 1) (m.value s) = m.exponent.toInt - p := by
    rw [quantum, log_value hn h]
    push_cast
    ring
  obtain ⟨hy, hinex, hinc⟩ := round_shiftRight h r distance (q := m.exponent.toInt - p) (by omega)
  have hround : y = r.direction.roundAt (m.exponent.toInt - p) (m.value s) := by
    rw [← hquantum]
    rfl
  rw [hround]
  refine ⟨hy, hinex, hinc, fun c => ?_⟩
  obtain ⟨hlow, hhi⟩ := roundedInteger_bounds hn r hdist
  rw [hy, abs_sign_mul _ (mul_nonneg (Nat.cast_nonneg _) (zpow_pos two_pos _).le)]
  exact zpow_le_rounded_iff hlow hhi _ c

/-- Rounding with a smallest binade. -/
theorem bounded_spec (hn : m.Normalized) (h : m.significand.Describes s) (r : RoundingMode) {minimum : ℤ}
    (hdist : (distance.toNat : ℤ) + p = 63 + (max m.exponent.toInt minimum - m.exponent.toInt)) :
    let rounded := r.round (m.significand.shiftRight distance) m.negative
    let z := r.direction.roundBounded (p + 1) minimum (m.value s)
    z = sign ℚ m.negative *
        (roundedInteger m r distance * 2 ^ (max m.exponent.toInt minimum - p)) ∧
      (rounded.inexact = true ↔ z ≠ m.value s) ∧ (rounded.incremented = true ↔ |m.value s| < |z|) := by
  intro rounded z
  have hquantum : quantumFrom (p + 1) minimum (m.value s) = max m.exponent.toInt minimum - p := by
    rw [quantumFrom, quantum, log_value hn h]
    push_cast
    omega
  have hround : z = r.direction.roundAt (max m.exponent.toInt minimum - p) (m.value s) := by
    rw [← hquantum]
    rfl
  rw [hround]
  exact round_shiftRight h r distance (by omega)

/-- Below the smallest binade the rounded integer reaches it at most. -/
theorem roundedInteger_le (r : RoundingMode) (hdist : 63 < distance.toNat + p) :
    roundedInteger m r distance ≤ 2 ^ p := by
  have hpow : 2 ^ 64 ≤ 2 ^ p * 2 ^ distance.toNat := by
    rw [← pow_add]
    exact Nat.pow_le_pow_right Nat.two_pos (by omega)
  have hhi : m.significand.integer.toNat / 2 ^ distance.toNat < 2 ^ p := by
    rw [Nat.div_lt_iff_lt_mul (Nat.two_pow_pos _)]
    exact lt_of_lt_of_le m.significand.integer.isLt hpow
  have hbit := Bool.toNat_le (r.round (m.significand.shiftRight distance) m.negative).incremented
  rw [roundedInteger, toNat_shiftRight_integer]
  omega

/-! ## Binary formats -/

inductive BinaryFormat where
  | binary32
  | binary64
  deriving DecidableEq, Repr

namespace BinaryFormat

def fractionBits : BinaryFormat → ℕ
  | .binary32 => 23
  | .binary64 => 52

def exponentBits : BinaryFormat → ℕ
  | .binary32 => 8
  | .binary64 => 11

variable (format f : BinaryFormat)

def bias : ℕ := 2 ^ (format.exponentBits - 1) - 1

/-- The width of an encoding. -/
def width : ℕ := 1 + format.exponentBits + format.fractionBits

def infinity : BitVec 64 := BitVec.ofNat 64 ((2 ^ format.exponentBits - 1) <<< format.fractionBits)

/-- The value of an unsigned finite encoding. -/
def decode (bits : BitVec format.width) : ℚ :=
  let field := bits.toNat / 2 ^ format.fractionBits
  let fraction := bits.toNat % 2 ^ format.fractionBits
  if field = 0 then fraction * 2 ^ (1 - format.bias - format.fractionBits : ℤ)
  else (2 ^ format.fractionBits + fraction) * 2 ^ (field - format.bias - format.fractionBits : ℤ)

end BinaryFormat

/-- An unsigned encoding and raw rounding evidence. The magnitude is unused on overflow. -/
structure BinaryRounded (format : BinaryFormat) where
  magnitude : BitVec format.width
  overflow : Bool
  tiny : Bool
  boundedInexact : Bool
  boundedIncremented : Bool
  unboundedInexact : Bool

namespace BinaryFormat

variable (format f : BinaryFormat)

/-- The bits beyond the precision. -/
def shift : BitVec 32 := BitVec.ofNat 32 (64 - (format.fractionBits + 1))

/-- The least normal exponent. -/
def minimum : BitVec 32 := 1 - BitVec.ofNat 32 format.bias

/-- The exponent after rounding with any exponent. Only an increment of an all-ones retained significand carries into
it. -/
def unboundedExponent (m : FiniteMagnitude) (rounding : RoundingMode) : BitVec 32 :=
  let unbounded := rounding.round (m.significand.shiftRight format.shift) m.negative
  let carry :=
    unbounded.incremented && (BitVec.allOnes 64 <<< (64 - (format.fractionBits + 1))).ule m.significand.integer
  m.exponent + if carry then 1 else 0

/-- The shift that leaves the bits of the format's own grid. -/
def boundedDistance (exponent : BitVec 32) : BitVec 32 :=
  if exponent.slt format.minimum then format.minimum + format.shift - exponent else format.shift

end BinaryFormat

/-- Rounds once to a binary format. -/
def roundBinary (format : BinaryFormat) (m : FiniteMagnitude) (rounding : RoundingMode) (finite : Bool) :
    BinaryRounded format :=
  let unbounded := rounding.round (m.significand.shiftRight format.shift) m.negative
  let exponent := format.unboundedExponent m rounding
  let nonzero := m.significand.integer ≠ 0 || m.significand.guard || m.significand.sticky
  -- Never round an already precision-rounded value a second time.
  let bounded := rounding.round (m.significand.shiftRight (format.boundedDistance m.exponent)) m.negative
  let exponentField := if m.exponent.slt format.minimum then 0 else m.exponent - format.minimum
  { magnitude := (exponentField.setWidth 64).setWidth format.width <<< format.fractionBits +
      bounded.integer.setWidth format.width
    overflow := finite && (BitVec.ofNat 32 (format.bias + 1)).sle exponent
    tiny := finite && nonzero && exponent.slt format.minimum
    boundedInexact := bounded.inexact
    boundedIncremented := bounded.incremented
    unboundedInexact := unbounded.inexact }

/-- The masked overflow response is infinity or the largest finite magnitude. -/
def overflowMagnitude (format : BinaryFormat) (rounding : RoundingMode) (negative : Bool) : BitVec format.width :=
  if rounding.overflowToInfinity negative then format.infinity.setWidth format.width
  else (format.infinity - 1).setWidth format.width

/-! ## Results -/

namespace BinaryFormat

variable (format f : BinaryFormat)

theorem shift_add : f.shift.toNat + f.fractionBits = 63 := by cases f <;> rfl

theorem toInt_minimum : f.minimum.toInt = 1 - f.bias := by cases f <;> rfl

theorem toInt_minimum_add_shift : (f.minimum + f.shift).toInt = 1 - f.bias + f.shift.toNat := by
  cases f <;> rfl

theorem toInt_overflow : (BitVec.ofNat 32 (f.bias + 1)).toInt = f.bias + 1 := by cases f <;> rfl

/-- An increment reaches the end of `b` quotients exactly from the last of them. -/
theorem incremented_last_iff {incremented : Bool} {n q b : Nat} (hq : 0 < q) (hn : n < q * b) :
    incremented = true ∧ q * b - q ≤ n ↔ n / q + incremented.toNat = b := by
  have hlt : n / q < b := Nat.div_lt_of_lt_mul hn
  cases incremented with
  | false =>
    rw [Bool.toNat_false]
    exact ⟨fun h => absurd h.1 Bool.false_ne_true, fun h => absurd h (Nat.ne_of_lt hlt)⟩
  | true =>
    have hle : b - 1 ≤ n / q ↔ q * b - q ≤ n := by
      rw [Nat.le_div_iff_mul_le hq, Nat.sub_mul, Nat.one_mul, Nat.mul_comm b q]
    rw [Bool.toNat_true, ← hle]
    exact ⟨fun h => Nat.le_antisymm hlt (Nat.sub_le_iff_le_add.mp h.2), fun h => ⟨rfl, Nat.sub_le_iff_le_add.mpr h.ge⟩⟩

/-- An increment carries when every retained bit is set. -/
theorem carry_iff (r : RoundingMode) :
    ((r.round (m.significand.shiftRight f.shift) m.negative).incremented &&
        (BitVec.allOnes 64 <<< (64 - (f.fractionBits + 1))).ule m.significand.integer) = true ↔
      roundedInteger m r f.shift = 2 ^ (f.fractionBits + 1) := by
  have hint := m.significand.integer.isLt
  rw [roundedInteger, toNat_shiftRight_integer, Bool.and_eq_true, BitVec.ule, decide_eq_true_iff]
  generalize (r.round (m.significand.shiftRight f.shift) m.negative).incremented = incremented
  cases f with
  | binary32 => exact incremented_last_iff (q := 2 ^ 40) (b := 2 ^ 24) (by decide) hint
  | binary64 => exact incremented_last_iff (q := 2 ^ 11) (b := 2 ^ 53) (by decide) hint

end BinaryFormat

/-- The exponent after a carry, below the end of the words. -/
theorem toInt_add_carry {exp : BitVec 32} (h : exp.toInt < 2 ^ 31 - 1) (carry : Bool) :
    (exp + if carry then 1 else 0).toInt = exp.toInt + if carry then 1 else 0 := by
  have hexp := exp.isLt
  cases carry with
  | false =>
    rw [if_neg Bool.false_ne_true, if_neg Bool.false_ne_true, Int.add_zero]
    exact congrArg BitVec.toInt (BitVec.add_zero exp)
  | true =>
    have hone : (1 : BitVec 32).toNat = 1 := rfl
    rw [if_pos rfl, if_pos rfl]
    rw [BitVec.toInt_eq_toNat_cond] at h ⊢
    rw [BitVec.toInt_eq_toNat_cond, BitVec.toNat_add, hone]
    omega

namespace BinaryFormat

theorem toInt_unboundedExponent (hexp : m.exponent.toInt < 2 ^ 31 - 1) (r : RoundingMode)
    (f : BinaryFormat) :
    (f.unboundedExponent m r).toInt =
      m.exponent.toInt + if roundedInteger m r f.shift = 2 ^ (f.fractionBits + 1) then 1 else 0 := by
  rw [unboundedExponent, toInt_add_carry hexp]
  exact congrArg _ (if_congr (f.carry_iff r) rfl rfl)

theorem boundedDistance_spec (f : BinaryFormat) (exp : BitVec 32) :
    ((f.boundedDistance exp).toNat : ℤ) + f.fractionBits = 63 + (max exp.toInt (1 - f.bias) - exp.toInt) := by
  have hsh := f.shift_add
  have hminimum := f.toInt_minimum_add_shift
  rw [boundedDistance, BitVec.slt, f.toInt_minimum]
  split
  next h =>
    have hlt := of_decide_eq_true h
    rw [toNat_sub_of_toInt_le (by omega), hminimum]
    omega
  next h =>
    have hle := not_lt.mp fun hlt => h (decide_eq_true hlt)
    omega

/-- A field and a significand with its leading bit, added, encode the significand at the field's exponent. -/
theorem decode_add {f : BinaryFormat} {bits : BitVec f.width} {field n : ℕ}
    (hlow : field = 0 ∨ 2 ^ f.fractionBits ≤ n) (hhi : n ≤ 2 ^ (f.fractionBits + 1))
    (hbits : bits.toNat = field * 2 ^ f.fractionBits + n) :
    f.decode bits = n * 2 ^ (field + (1 - f.bias) - f.fractionBits : ℤ) := by
  have hpos := Nat.two_pow_pos f.fractionBits
  rw [pow_succ] at hhi
  unfold decode
  rcases Nat.lt_or_ge n (2 ^ f.fractionBits) with hn | hn
  · obtain rfl : field = 0 := hlow.resolve_right (Nat.not_le.mpr hn)
    rw [Nat.zero_mul, Nat.zero_add] at hbits
    rw [hbits, Nat.div_eq_of_lt hn, Nat.mod_eq_of_lt hn, if_pos rfl, Nat.cast_zero, zero_add]
  · rcases Nat.lt_or_eq_of_le hhi with hlt | heq
    · obtain ⟨fraction, rfl⟩ := Nat.exists_eq_add_of_le hn
      have hfrac : fraction < 2 ^ f.fractionBits := by omega
      have hbits' : bits.toNat = fraction + 2 ^ f.fractionBits * (field + 1) := by
        rw [hbits]
        ring
      rw [hbits', Nat.add_mul_div_left _ _ hpos, Nat.add_mul_mod_self_left, Nat.div_eq_of_lt hfrac,
        Nat.mod_eq_of_lt hfrac, Nat.zero_add, if_neg (Nat.succ_ne_zero field)]
      push_cast
      congr 2
      ring
    · have hbits' : bits.toNat = 2 ^ f.fractionBits * (field + 2) := by
        rw [hbits, heq]
        ring
      rw [hbits', Nat.mul_div_cancel_left _ hpos, Nat.mul_mod_right, if_neg (Nat.succ_ne_zero _), heq]
      have hexp : ((field + 2 : ℕ) - f.bias - f.fractionBits : ℤ) = field + (1 - f.bias) - f.fractionBits + 1 := by
        push_cast
        ring
      rw [hexp, zpow_add_one₀ two_ne_zero]
      push_cast
      ring

theorem toNat_magnitude {f : BinaryFormat} {field : BitVec 32} {integer : BitVec 64}
    (h : field.toNat * 2 ^ f.fractionBits + integer.toNat < 2 ^ f.width) :
    ((field.setWidth 64).setWidth f.width <<< f.fractionBits + integer.setWidth f.width).toNat =
      field.toNat * 2 ^ f.fractionBits + integer.toNat := by
  have hfield64 : field.toNat < 2 ^ 64 := Nat.lt_trans field.isLt (by decide)
  have hshd : field.toNat * 2 ^ f.fractionBits < 2 ^ f.width := by omega
  have hfld : field.toNat < 2 ^ f.width :=
    Nat.lt_of_le_of_lt (Nat.le_mul_of_pos_right _ (Nat.two_pow_pos _)) hshd
  rw [BitVec.toNat_add, BitVec.toNat_shiftLeft, BitVec.toNat_setWidth, BitVec.toNat_setWidth, BitVec.toNat_setWidth,
    Nat.shiftLeft_eq, Nat.mod_eq_of_lt hfield64, Nat.mod_eq_of_lt hfld, Nat.mod_eq_of_lt hshd,
    Nat.mod_eq_of_lt (show integer.toNat < 2 ^ f.width by omega), Nat.mod_eq_of_lt h]

end BinaryFormat

/-- In range, the magnitude is a field and a rounded integer that together stay below infinity. -/
theorem magnitude_fields (hn : m.Normalized) (r : RoundingMode) (f : BinaryFormat) (finite : Bool)
    (hrng : (m.exponent.toInt + if roundedInteger m r f.shift = 2 ^ (f.fractionBits + 1) then 1 else 0) ≤ f.bias) :
    ∃ field : ℕ,
      (roundBinary f m r finite).magnitude.toNat =
          field * 2 ^ f.fractionBits + roundedInteger m r (f.boundedDistance m.exponent) ∧
        (field = 0 ∨ 2 ^ f.fractionBits ≤ roundedInteger m r (f.boundedDistance m.exponent)) ∧
        roundedInteger m r (f.boundedDistance m.exponent) ≤ 2 ^ (f.fractionBits + 1) ∧
        (field + (1 - f.bias) : ℤ) = max m.exponent.toInt (1 - f.bias) ∧
        field * 2 ^ f.fractionBits + roundedInteger m r (f.boundedDistance m.exponent) < f.infinity.toNat := by
  have hwrap : 2 ^ (f.fractionBits + 1) < 2 ^ 64 := by cases f <;> decide
  have hinfinity : f.infinity.toNat = 2 * (f.bias * 2 ^ f.fractionBits) + 2 ^ f.fractionBits := by
    cases f <;> decide
  have hwidth : f.infinity.toNat < 2 ^ f.width := by cases f <;> decide
  have hbias : 2 ^ f.fractionBits ≤ f.bias * 2 ^ f.fractionBits :=
    Nat.le_mul_of_pos_left _ (by cases f <;> decide)
  have hpos := Nat.two_pow_pos f.fractionBits
  have hdouble : 2 ^ (f.fractionBits + 1) = 2 * 2 ^ f.fractionBits := by ring
  have hdist := f.boundedDistance_spec m.exponent
  have hint := toNat_round_integer r (m.significand.shiftRight (f.boundedDistance m.exponent)) m.negative
  -- The magnitude, given the field's word.
  have hbits (field : BitVec 32)
      (hfld : (if m.exponent.slt f.minimum then 0 else m.exponent - f.minimum) = field)
      (hle : roundedInteger m r (f.boundedDistance m.exponent) ≤ 2 ^ (f.fractionBits + 1))
      (hlt : field.toNat * 2 ^ f.fractionBits + roundedInteger m r (f.boundedDistance m.exponent) <
        f.infinity.toNat) :
      (roundBinary f m r finite).magnitude.toNat = field.toNat * 2 ^ f.fractionBits +
        roundedInteger m r (f.boundedDistance m.exponent) := by
    have hrounded :
        (r.round (m.significand.shiftRight (f.boundedDistance m.exponent)) m.negative).integer.toNat =
          roundedInteger m r (f.boundedDistance m.exponent) := by
      rw [hint]
      exact Nat.mod_eq_of_lt (Nat.lt_of_le_of_lt hle hwrap)
    rw [← hrounded] at hlt ⊢
    rw [← BinaryFormat.toNat_magnitude (Nat.lt_trans hlt hwidth), ← hfld]
    rfl
  rw [BitVec.slt, f.toInt_minimum] at hbits
  by_cases hbelow : m.exponent.toInt < 1 - f.bias
  · have hle := roundedInteger_le (m := m) r
      (show 63 < (f.boundedDistance m.exponent).toNat + f.fractionBits by omega)
    have hzero := hbits 0 (if_pos (decide_eq_true hbelow)) (by omega) (by
      show 0 * _ + _ < _
      rw [Nat.zero_mul]
      omega)
    refine ⟨0, hzero, Or.inl rfl, by omega, by push_cast; omega, ?_⟩
    rw [Nat.zero_mul]
    omega
  · have hsh : f.boundedDistance m.exponent = f.shift := by
      rw [BinaryFormat.boundedDistance, BitVec.slt, f.toInt_minimum]
      exact if_neg fun h => hbelow (of_decide_eq_true h)
    rw [hsh] at hbits hint ⊢
    obtain ⟨hlow, hhi⟩ := roundedInteger_bounds hn r f.shift_add
    have hfld : ((m.exponent - f.minimum).toNat : ℤ) = m.exponent.toInt - (1 - f.bias) := by
      have hminimum := f.toInt_minimum
      rw [toNat_sub_of_toInt_le (by omega), hminimum]
    have hlt : (m.exponent - f.minimum).toNat * 2 ^ f.fractionBits + roundedInteger m r f.shift <
        f.infinity.toNat := by
      by_cases hcarry : roundedInteger m r f.shift = 2 ^ (f.fractionBits + 1)
      · rw [if_pos hcarry] at hrng
        have hmul := Nat.mul_le_mul_right (2 ^ f.fractionBits)
          (show (m.exponent - f.minimum).toNat + 2 ≤ 2 * f.bias by omega)
        rw [Nat.add_mul, Nat.mul_assoc] at hmul
        omega
      · rw [if_neg hcarry] at hrng
        have hmul := Nat.mul_le_mul_right (2 ^ f.fractionBits)
          (show (m.exponent - f.minimum).toNat + 1 ≤ 2 * f.bias by omega)
        rw [Nat.add_mul, Nat.mul_assoc] at hmul
        omega
    refine ⟨_, hbits _ (if_neg fun h => hbelow (of_decide_eq_true h)) hhi hlt, Or.inr hlow, hhi, ?_, hlt⟩
    omega

/-- A binary result gives the single rounding of an exact value: with any exponent for the range, on the format's own
grid for the encoding. Other operands leave no range evidence. -/
structure RoundsOnce (format : BinaryFormat) (rounded : BinaryRounded format) (d : Direction) (finite : Bool) (x : ℚ) :
    Prop where
  overflow_iff : rounded.overflow = true ↔
    finite = true ∧ (2 : ℚ) ^ (format.bias + 1 : ℤ) ≤ |d.roundUnbounded (format.fractionBits + 1) x|
  tiny_iff : rounded.tiny = true ↔
    finite = true ∧ |d.roundUnbounded (format.fractionBits + 1) x| < (2 : ℚ) ^ (1 - format.bias : ℤ)
  unbounded_inexact : rounded.unboundedInexact = true ↔ d.roundUnbounded (format.fractionBits + 1) x ≠ x
  bounded_inexact : rounded.boundedInexact = true ↔ d.roundBounded (format.fractionBits + 1) (1 - format.bias) x ≠ x
  bounded_incremented : rounded.boundedIncremented = true ↔
    |x| < |d.roundBounded (format.fractionBits + 1) (1 - format.bias) x|
  magnitude : |d.roundUnbounded (format.fractionBits + 1) x| < (2 : ℚ) ^ (format.bias + 1 : ℤ) →
    rounded.magnitude.toNat < format.infinity.toNat ∧
      format.decode rounded.magnitude = |d.roundBounded (format.fractionBits + 1) (1 - format.bias) x|

/-- Below the largest exponent of the words, binary rounding is a single rounding. -/
theorem roundBinary_roundsOnce (hn : m.Normalized) (h : m.significand.Describes s)
    (hexp : m.exponent.toInt < 2 ^ 31 - 1) (r : RoundingMode) (f : BinaryFormat) (finite : Bool) :
    RoundsOnce f (roundBinary f m r finite) r.direction finite (m.value s) := by
  obtain ⟨-, hyinexact, -, hbinade⟩ := unbounded_spec hn h r f.shift_add
  obtain ⟨hz, hzinexact, hzincremented⟩ := bounded_spec hn h r (f.boundedDistance_spec m.exponent)
  have hrounded := BinaryFormat.toInt_unboundedExponent hexp r f
  refine ⟨?_, ?_, hyinexact, hzinexact, hzincremented, ?_⟩
  · show (finite && BitVec.sle _ _) = true ↔ _
    rw [Bool.and_eq_true, BitVec.sle, decide_eq_true_iff, f.toInt_overflow, hrounded, ← hbinade]
  · show (finite && _ && BitVec.slt _ _) = true ↔ _
    have hnonzero : m.significand.integer ≠ 0 := by
      rintro hzero
      have := hn
      rw [FiniteMagnitude.Normalized, hzero] at this
      exact absurd this (by decide)
    rw [decide_eq_true hnonzero, Bool.true_or, Bool.true_or, Bool.and_true, Bool.and_eq_true, BitVec.slt,
      decide_eq_true_iff, f.toInt_minimum, hrounded, ← not_le, ← hbinade, not_le]
  · intro hrng
    have habs : |r.direction.roundBounded (f.fractionBits + 1) (1 - f.bias) (m.value s)| =
        roundedInteger m r (f.boundedDistance m.exponent) *
        2 ^ (max m.exponent.toInt (1 - f.bias) - f.fractionBits : ℤ) := by
      rw [hz, abs_sign_mul _ (mul_nonneg (Nat.cast_nonneg _) (zpow_pos two_pos _).le)]
    have hcarry := mt (hbinade (f.bias + 1)).mpr (not_le.mpr hrng)
    obtain ⟨field, hbits, hlow, hhi, hfld, hlt⟩ :=
      magnitude_fields hn r f finite (Int.lt_add_one_iff.mp (not_le.mp hcarry))
    refine ⟨?_, ?_⟩
    · rw [hbits]
      exact hlt
    · rw [habs, BinaryFormat.decode_add hlow hhi hbits, hfld]

/-- The overflow response is infinity or encodes the largest value of the format. -/
theorem overflowMagnitude_spec (f : BinaryFormat) (r : RoundingMode) (neg : Bool) :
    if r.direction.overflowToInfinity neg then
      (overflowMagnitude f r neg).toNat = f.infinity.toNat
    else
      (overflowMagnitude f r neg).toNat < f.infinity.toNat ∧
        f.decode (overflowMagnitude f r neg) =
          (2 ^ (f.fractionBits + 1) - 1) * 2 ^ (f.bias - f.fractionBits : ℤ) := by
  rw [overflowMagnitude, r.overflowToInfinity_eq]
  split
  next => cases f <;> decide
  next =>
    have hpos := Nat.one_le_two_pow (n := f.fractionBits)
    have hbits : ((f.infinity - 1).setWidth f.width).toNat =
        (2 * f.bias - 1) * 2 ^ f.fractionBits + (2 ^ (f.fractionBits + 1) - 1) := by
      cases f <;> decide
    have hlow : 2 ^ f.fractionBits ≤ 2 ^ (f.fractionBits + 1) - 1 := by
      rw [pow_succ]
      omega
    have hexp : ((2 * f.bias - 1 : ℕ) + (1 - f.bias) - f.fractionBits : ℤ) = f.bias - f.fractionBits := by
      have hbias : 0 < f.bias := by cases f <;> decide
      omega
    refine ⟨by cases f <;> decide, ?_⟩
    rw [BinaryFormat.decode_add (Or.inr hlow) (Nat.sub_le _ _) hbits, hexp, Nat.cast_pred (Nat.two_pow_pos _)]
    push_cast
    rfl

end Relocade.Floating
