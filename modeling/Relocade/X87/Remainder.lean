import Mathlib.Algebra.Order.Archimedean.Basic
import Mathlib.Tactic.LinearCombination
import Relocade.Floating.Division
import Relocade.X87.Operand

/-!
# `X87.Remainder` — partial remainders

One application reduces the dividend by at least 32 bits, or finishes with the quotient truncated or rounded to
nearest. Every result is exact and congruent to the dividend, and repeating the operation on its own result ends at
the remainder of the first dividend (`remainder_repeats`).
-/

namespace Relocade.X87

open Rounding Floating

/-! ## The operation -/

inductive QuotientRounding where
  | truncate
  | nearestEven
  deriving DecidableEq, Repr

structure Remainder where
  arithmetic : ArithmeticResult
  /-- The quotient magnitude, independently of operand signs. -/
  quotient : BitVec 64
  incomplete : Bool
  /-- The in-range value is assumed to have a significand of 53 bits. -/
  precision53 : Bool

/-- A quotient with its remainder. -/
structure Reduced where
  quotient : BitVec 64
  remainder : BitVec 64
  exponent : BitVec 32
  negative : Bool

namespace Reduced

/-- The remainder, normalized. -/
def magnitude (reduced : Reduced) : FiniteMagnitude :=
  let normalization : BitVec 32 := reduced.remainder.clz.setWidth 32
  { significand := RoundingInput.exact (shl reduced.remainder normalization)
    exponent := reduced.exponent - normalization
    negative := reduced.negative }

/-- Remainders are exact on the grid, so neither precision nor rounding control applies. -/
def arithmetic (reduced : Reduced) (leftNegative : Bool) : ArithmeticResult :=
  let zero : Bool := reduced.remainder = 0
  let signedZero := RoundedValue.zero leftNegative
  let arithmetic := (round reduced.magnitude 3 (RoundingMode.new 0)).replaceWhen zero signedZero
  { arithmetic with
    inRange :=
      { valid := zero || arithmetic.inRange.valid
        rounded := if zero then signedZero else arithmetic.inRange.rounded } }

end Reduced

namespace BinaryOperands

variable (native : Native) (operands : BinaryOperands)

/-- The exponent gap. Zero and a finite dividend modulo infinity are already reduced. -/
def difference : BitVec 32 :=
  if operands.left.zero || operands.right.infinity then -2
  else operands.left.normalized.2 - operands.right.normalized.2

def incomplete : Bool := (64 : BitVec 32).sle operands.difference

/-- The truncated quotient, by a step of 32 bits where the gap is larger. -/
def reduce : Reduced :=
  let numerator := operands.left.normalized
  let denominator := operands.right.normalized.1
  let shift := if operands.incomplete then 32 else operands.difference
  if operands.difference.slt 1 then
    let subtract := operands.difference = 0 && denominator.ule numerator.1
    { quotient := if subtract then 1 else 0
      remainder := numerator.1 - if subtract then denominator else 0
      exponent := numerator.2
      negative := operands.left.bits.negative }
  else
    let division := Division.integerDivision native numerator.1 denominator shift operands.right.precision53Significand
    { quotient := division.quotient
      remainder := division.remainder
      exponent := numerator.2 - shift
      negative := operands.left.bits.negative }

/-- The quotient rounds up. With an exponent gap of -1 the truncated one is zero, but the nearest is one when the
normalized numerator is larger. -/
def increments (reduced : Reduced) : Bool :=
  let numerator := operands.left.normalized.1
  let denominator := operands.right.normalized.1
  -- Comparing the remainder with its complement does not overflow as doubling it does.
  let complement := denominator - reduced.remainder
  let aboveHalf := complement.ult reduced.remainder
  let oddTie := reduced.remainder = complement && reduced.quotient &&& 1 ≠ 0
  let halfExponent : Bool := operands.difference = -1
  ((0 : BitVec 32).sle operands.difference && (aboveHalf || oddTie) || halfExponent && denominator.ult numerator) &&
    !operands.incomplete

/-- The remainder of the next quotient, on the other side. -/
def complement (reduced : Reduced) : BitVec 64 :=
  let numerator := operands.left.normalized.1
  let denominator := operands.right.normalized.1
  if operands.difference = -1 then denominator <<< 1 - numerator else denominator - reduced.remainder

/-- The nearest quotient. -/
def nearest (reduced : Reduced) : Reduced :=
  let increment := operands.increments reduced
  { quotient := reduced.quotient + if increment then 1 else 0
    remainder := if increment then operands.complement reduced else reduced.remainder
    exponent := reduced.exponent
    negative := reduced.negative ^^ increment }

/-- The quotient in its rounding. -/
def rounded : QuotientRounding → Reduced
  | .truncate => operands.reduce native
  | .nearestEven => operands.nearest (operands.reduce native)

/-- The remainder, or the response to its operands. -/
def remainder (rounding : QuotientRounding) : Remainder :=
  let reduced := operands.rounded native rounding
  let nan := operands.left.nan || operands.right.nan
  let invalid := !nan && (operands.left.infinity || operands.right.zero)
  let arithmetic := operands.finish (reduced.arithmetic operands.left.bits.negative) invalid
  let numerical := !(arithmetic.invalid || nan)
  { arithmetic
    quotient := if numerical then reduced.quotient else 0
    incomplete := numerical && operands.incomplete
    precision53 := operands.left.precision53Significand && operands.right.precision53Significand }

end BinaryOperands

/-! ## Exact results -/

/-- Every response holds a value exactly, except that the unmasked response to an underflow is scaled. -/
structure ExactResult (result : ArithmeticResult) (negative : Bool) (value : ℚ) : Prop where
  masked : Encodes result.masked.value negative value
  masked_exact : result.masked.inexact = false ∧ result.masked.incremented = false
  valid_iff : result.inRange.valid = true ↔ value = 0 ∨ (2 : ℚ) ^ (-16382 : ℤ) ≤ |value|
  inRange : result.inRange.valid = true → Encodes result.inRange.rounded.value negative value
  inRange_exact : result.inRange.rounded.inexact = false ∧ result.inRange.rounded.incremented = false
  overflow : result.overflow = false
  tiny_iff : result.tiny = true ↔ value ≠ 0 ∧ |value| < (2 : ℚ) ^ (-16382 : ℤ)
  adjusted : Encodes result.adjusted.value negative (value * 2 ^ (if result.tiny then 24576 else 0 : ℤ))
  adjusted_exact : result.adjusted.inexact = false ∧ result.adjusted.incremented = false

/-- The value of a remainder. -/
def Reduced.value (reduced : Reduced) : ℚ :=
  sign ℚ reduced.negative * (reduced.remainder.toNat * 2 ^ (reduced.exponent.toInt - 63))

theorem zero_encodes (negative : Bool) : Encodes (RoundedValue.zero negative).value negative 0 := by
  have henc := encodes_fields negative 0 0 (by decide) (iff_of_false (by decide) (by decide))
  rw [show (0 : BitVec 64).toNat = 0 from rfl, Nat.cast_zero, zero_mul, mul_zero] at henc
  have hbits : (signBits negative ||| 0).setWidth 16 = if negative then 0x8000 else 0 := by
    cases negative with
    | false => rfl
    | true => rfl
  rw [hbits] at henc
  exact henc

theorem zero_exact (r : Reduced) (leftNegative : Bool) (hz : r.remainder = 0) :
    ExactResult (r.arithmetic leftNegative) leftNegative 0 := by
  have hval := zero_encodes leftNegative
  have harithmetic : r.arithmetic leftNegative =
      { round r.magnitude 3 (RoundingMode.new 0) with
        masked := RoundedValue.zero leftNegative
        adjusted := RoundedValue.zero leftNegative
        overflow := false
        tiny := false
        inRange := ⟨true, RoundedValue.zero leftNegative⟩ } := by
    unfold Reduced.arithmetic ArithmeticResult.replaceWhen
    dsimp only
    rw [decide_eq_true hz]
    rfl
  rw [harithmetic]
  refine ⟨hval, ⟨rfl, rfl⟩, iff_of_true rfl (Or.inl rfl), fun _ => hval, ⟨rfl, rfl⟩, rfl, ?_, ?_, ⟨rfl, rfl⟩⟩
  · exact iff_of_false Bool.false_ne_true fun h => h.1 rfl
  · rw [zero_mul]
    exact hval

/-- The magnitude of a nonzero remainder is normalized, and has its value. -/
theorem Reduced.magnitude_spec {r : Reduced} (hne : r.remainder ≠ 0)
    (hlow : -16445 ≤ r.exponent.toInt) (hhi : r.exponent.toInt ≤ 16383) :
    r.magnitude.Normalized ∧ r.magnitude.exponent.toInt ≤ 16383 ∧
      r.magnitude.value (r.magnitude.significand.integer.toNat : ℚ) = r.value := by
  obtain ⟨hsh, hword, hlead⟩ := normalize_spec hne
  unfold magnitude value FiniteMagnitude.value
  dsimp only [RoundingInput.exact]
  generalize r.remainder.clz.setWidth 32 = shift at *
  have hexp : (r.exponent - shift).toInt = r.exponent.toInt - shift.toNat := by
    have hsh' := toInt_of_toNat_lt (x := shift) (by omega)
    rw [toInt_sub_of_fits (by omega) (by omega), hsh']
  refine ⟨hlead, ?_, ?_⟩
  · omega
  · have hexps : r.exponent.toInt - 63 = shift.toNat + (r.exponent.toInt - shift.toNat - 63) := by ring
    rw [hexp, hword, hexps, zpow_add₀ two_ne_zero (shift.toNat : ℤ), zpow_natCast, Nat.cast_mul, Nat.cast_pow,
      Nat.cast_two, mul_assoc]

/-- A remainder on the grid of the smallest encoding is exact in every response. -/
theorem Reduced.arithmetic_exact {r : Reduced} (leftNegative : Bool)
    (hlow : -16445 ≤ r.exponent.toInt) (hhi : r.exponent.toInt ≤ 16383)
    (hgrid : ∃ n : ℤ, r.value = n * 2 ^ (-16445 : ℤ)) :
    ExactResult (r.arithmetic leftNegative)
      (if r.remainder = 0 then leftNegative else r.negative) r.value := by
  by_cases hz : r.remainder = 0
  · have hval : r.value = 0 := by
      rw [value, hz, show (0 : BitVec 64).toNat = 0 from rfl, Nat.cast_zero, zero_mul, mul_zero]
    rw [if_pos hz, hval]
    exact zero_exact r leftNegative hz
  · obtain ⟨hn, hexp, hval⟩ := magnitude_spec hz hlow hhi
    obtain ⟨n, hn'⟩ := hgrid
    have hdesc : r.magnitude.significand.Describes (r.magnitude.significand.integer.toNat : ℚ) :=
      exact_describes _
    have hrounds := round_roundsOnce hn hdesc (by omega) 3 (RoundingMode.new 0)
    have hpos := abs_value_pos hn hdesc
    have hlog := log_value hn hdesc
    rw [hval] at hrounds hpos hlog
    rw [if_neg hz]
    have harithmetic : r.arithmetic leftNegative = round r.magnitude 3 (RoundingMode.new 0) := by
      unfold Reduced.arithmetic ArithmeticResult.replaceWhen
      dsimp only
      rw [decide_eq_false hz]
      rfl
    rw [harithmetic]
    generalize round r.magnitude 3 (RoundingMode.new 0) = result at *
    have hbinade : r.value =
        (sign ℤ r.negative * r.magnitude.significand.integer.toNat : ℤ) *
          2 ^ (r.magnitude.exponent.toInt - 63) := by
      have hsign : ((sign ℤ r.negative : ℤ) : ℚ) = sign ℚ r.negative := by
        cases r.negative with
        | false => exact Int.cast_one
        | true => exact Int.cast_neg 1
      rw [← hval, FiniteMagnitude.value, Int.cast_mul, hsign, Int.cast_natCast, mul_assoc]
      rfl
    have hquantum : quantum 64 r.value = r.magnitude.exponent.toInt - 63 := by
      rw [quantum, hlog]
      norm_num
    have hunbounded : Direction.nearest.roundUnbounded 64 r.value = r.value :=
      Direction.roundAt_of_grid _ (hquantum ▸ hbinade)
    have hbounded : Direction.nearest.roundBounded 64 (-16382) r.value = r.value := by
      rw [Direction.roundBounded, quantumFrom, hquantum]
      rcases max_choice (r.magnitude.exponent.toInt - 63) (-16382 - ((64 : ℕ) - 1)) with hmax | hmax
      · rw [hmax]
        exact Direction.roundAt_of_grid _ hbinade
      · rw [hmax]
        exact Direction.roundAt_of_grid _ hn'
    have hbelow : |r.value| < (2 : ℚ) ^ (16384 : ℤ) :=
      (Int.lt_zpow_iff_log_lt one_lt_two hpos).mpr (by rw [hlog]; omega)
    have habove : (2 : ℚ) ^ (-16445 : ℤ) ≤ |r.value| := by
      have hne : n ≠ 0 := by
        rintro rfl
        rw [Int.cast_zero, zero_mul] at hn'
        exact absurd hn' (abs_pos.mp hpos)
      have hone : (1 : ℚ) ≤ |(n : ℚ)| := by exact_mod_cast Int.one_le_abs hne
      rw [hn', abs_mul, abs_of_pos (zpow_pos (two_pos (α := ℚ)) _)]
      exact le_mul_of_one_le_left (zpow_pos two_pos _).le hone
    rw [show (RoundingMode.new 0).direction = .nearest from rfl, show precisionBits 3 = 64 from rfl] at hrounds
    have hne : r.value ≠ 0 := abs_pos.mp hpos
    have hov : result.overflow = false := by
      rw [← Bool.not_eq_true, hrounds.overflow_iff, hunbounded]
      exact not_le.mpr hbelow
    have htiny := hrounds.tiny_iff
    obtain ⟨hmasked, hmasked', hmasked''⟩ := hrounds.masked hov
    have hvalid := hrounds.valid_iff
    have hinRange := hrounds.inRange
    have hadjusted := hrounds.adjusted
    have hinex := hrounds.inRange_inexact
    have hincremented := hrounds.inRange_incremented
    have hinex' := hrounds.adjusted_inexact
    have hincremented' := hrounds.adjusted_incremented
    rw [hunbounded] at htiny hvalid hinRange hadjusted hinex hincremented hinex' hincremented'
    rw [hbounded] at hmasked hmasked' hmasked''
    have hexact {flag : Bool} (h : flag = true ↔ r.value ≠ r.value) : flag = false :=
      Bool.eq_false_iff.mpr fun hflag => h.mp hflag rfl
    have hexact' {flag : Bool} (h : flag = true ↔ |r.value| < |r.value|) : flag = false :=
      Bool.eq_false_iff.mpr fun hflag => lt_irrefl _ (h.mp hflag)
    refine ⟨hmasked, ⟨hexact hmasked', hexact' hmasked''⟩, ?_, hinRange, ⟨hexact hinex, hexact' hincremented⟩,
      hov, ?_, ?_, ⟨hexact hinex', hexact' hincremented'⟩⟩
    · rw [hvalid]
      exact ⟨fun h => Or.inr h.1, fun h => ⟨h.resolve_left hne, hbelow⟩⟩
    · rw [htiny]
      exact ⟨fun h => ⟨hne, h⟩, fun h => h.2⟩
    · rw [hov, if_neg Bool.false_ne_true] at hadjusted
      have hpower (scale : ℤ) : |r.value * 2 ^ scale| = |r.value| * 2 ^ scale := by
        rw [abs_mul, abs_of_pos (zpow_pos (two_pos (α := ℚ)) scale)]
      have hscale : (0 : ℚ) < 2 ^ (24576 : ℤ) := zpow_pos two_pos _
      dsimp only at hadjusted
      rw [hpower] at hadjusted
      cases hunderflow : result.tiny with
      | true =>
        rw [hunderflow] at htiny hadjusted
        refine hadjusted ?_ ?_
        · calc (2 : ℚ) ^ (-16382 : ℤ) ≤ 2 ^ (-16445 + 24576 : ℤ) := zpow_le_zpow_right₀ one_le_two (by decide)
            _ = 2 ^ (-16445 : ℤ) * 2 ^ (24576 : ℤ) := zpow_add₀ two_ne_zero _ _
            _ ≤ |r.value| * 2 ^ (24576 : ℤ) := mul_le_mul_of_nonneg_right habove hscale.le
        · calc |r.value| * 2 ^ (24576 : ℤ) < 2 ^ (-16382 : ℤ) * 2 ^ (24576 : ℤ) :=
                mul_lt_mul_of_pos_right (htiny.mp rfl) hscale
            _ = 2 ^ (-16382 + 24576 : ℤ) := (zpow_add₀ two_ne_zero _ _).symm
            _ ≤ 2 ^ (16384 : ℤ) := zpow_le_zpow_right₀ one_le_two (by decide)
      | false =>
        rw [hunderflow] at htiny hadjusted
        rw [if_neg Bool.false_ne_true, zpow_zero, mul_one] at hadjusted ⊢
        rw [mul_one] at hadjusted
        exact hadjusted (not_lt.mp fun h => Bool.false_ne_true (htiny.mpr h)) hbelow

/-! ## One reduction -/

def BinaryOperands.new (left right : ExtendedBits) (leftPrecision53 rightPrecision53 : Bool) : BinaryOperands where
  left := Operand.new left leftPrecision53
  right := Operand.new right rightPrecision53

/-- A representation of 53 bits has no others, and native division of its significand is correctly rounded. -/
structure Precise (native : Native) (y : ExtendedBits) : Prop where
  trailing : (Operand.new y true).normalized.1.toNat % 2 ^ 11 = 0
  divides : ∀ n : BitVec 64, 2 ^ 52 ≤ n.toNat → n.toNat < 2 ^ 53 →
    Division.DividesHeads native n ((Operand.new y true).normalized.1 >>> 11)

namespace BinaryOperands

variable {native : Native} {x y : ExtendedBits} {p q : Bool}

theorem difference_of_zero (h : x.zero = true) : (new x y p q).difference.toInt = -2 := by
  have hdiff : (new x y p q).difference = -2 := if_pos (by rw [show (new x y p q).left.zero = true from h]; rfl)
  rw [hdiff]
  decide

section

variable (hx : x.Finite) (hx0 : x.significand ≠ 0) (hy : y.Finite) (hy0 : y.significand ≠ 0)

include hx hx0 hy hy0

theorem difference_spec : (new x y p q).difference.toInt =
    (Operand.new x p).normalized.2.toInt - (Operand.new y q).normalized.2.toInt := by
  obtain ⟨-, -, hlow, hhi⟩ := Operand.normalized_spec p hx hx0
  obtain ⟨-, -, hlow', hhi'⟩ := Operand.normalized_spec q hy hy0
  have hz : x.zero = false := Bool.eq_false_iff.mpr fun h => hx0 (hx.zero_iff.mp h)
  have hdiff : (new x y p q).difference = (Operand.new x p).normalized.2 - (Operand.new y q).normalized.2 := by
    refine if_neg ?_
    show ¬ (x.zero || y.infinity) = true
    rw [hz, hy.not_infinity]
    exact Bool.false_ne_true
  rw [hdiff, toInt_sub_of_fits (by omega) (by omega)]

/-- The exponent gap covered by one reduction. -/
def shiftOf (difference : ℤ) : ℕ := if 64 ≤ difference then 32 else difference.toNat

/-- From an exponent gap of zero on, a reduction divides the shifted significand. -/
theorem reduce_spec (hprec : q = true → Precise native y) (h : 0 ≤ (new x y p q).difference.toInt) :
    let numerator := (Operand.new x p).normalized
    let denominator := (Operand.new y q).normalized.1
    let shift := shiftOf (new x y p q).difference.toInt
    let r := (new x y p q).reduce native
    r.quotient.toNat = numerator.1.toNat * 2 ^ shift / denominator.toNat ∧
      r.remainder.toNat = numerator.1.toNat * 2 ^ shift % denominator.toNat ∧
      r.exponent.toInt = numerator.2.toInt - shift ∧ r.negative = x.negative := by
  intro numerator denominator shift r
  obtain ⟨hnum, -, hlow, hhi⟩ : 2 ^ 63 ≤ numerator.1.toNat ∧ _ ∧ -16445 ≤ numerator.2.toInt ∧
    numerator.2.toInt ≤ 16383 := Operand.normalized_spec p hx hx0
  obtain ⟨hden, -, -, -⟩ : 2 ^ 63 ≤ denominator.toNat ∧ _ := Operand.normalized_spec q hy hy0
  have hword := numerator.1.isLt
  by_cases hz : (new x y p q).difference.toInt = 0
  · have hdiff : (new x y p q).difference = 0 := BitVec.eq_of_toInt_eq hz
    have hsh : shift = 0 := by
      show shiftOf (new x y p q).difference.toInt = 0
      rw [hz]
      rfl
    have hreduced : r =
        { quotient := if denominator.ule numerator.1 then 1 else 0
          remainder := numerator.1 - if denominator.ule numerator.1 then denominator else 0
          exponent := numerator.2
          negative := x.negative } := by
      show reduce native (new x y p q) = _
      unfold reduce
      rw [hdiff]
      rfl
    rw [hreduced, hsh, pow_zero, Nat.mul_one, BitVec.ule]
    by_cases hle : denominator.toNat ≤ numerator.1.toNat
    · have hone : numerator.1.toNat / denominator.toNat = 1 := Nat.div_eq_of_lt_le (by omega) (by omega)
      have hrest : numerator.1.toNat % denominator.toNat = numerator.1.toNat - denominator.toNat := by
        rw [Nat.mod_eq_sub_mod hle]
        exact Nat.mod_eq_of_lt (by omega)
      rw [decide_eq_true hle, hone, hrest, if_pos rfl, if_pos rfl]
      exact ⟨rfl, BitVec.toNat_sub_of_le (BitVec.le_def.mpr hle), (Int.sub_zero _).symm, rfl⟩
    · rw [decide_eq_false hle, Nat.div_eq_of_lt (Nat.lt_of_not_le hle), Nat.mod_eq_of_lt (Nat.lt_of_not_le hle),
        if_neg Bool.false_ne_true, if_neg Bool.false_ne_true]
      exact ⟨rfl, congrArg BitVec.toNat (BitVec.sub_zero _), (Int.sub_zero _).symm, rfl⟩
  · have hslt : (new x y p q).difference.slt 1 = false := by
      rw [BitVec.slt, show (1 : BitVec 32).toInt = 1 from rfl]
      exact decide_eq_false (by omega)
    have hpart : (new x y p q).incomplete = decide (64 ≤ (new x y p q).difference.toInt) := rfl
    have hdiff := difference_spec hx hx0 hy hy0 (p := p) (q := q)
    obtain ⟨hword', hexp⟩ : (if (new x y p q).incomplete then 32 else (new x y p q).difference).toNat = shift ∧
        shift < 64 := by
      show _ ∧ shiftOf (new x y p q).difference.toInt < 64
      unfold shiftOf
      rw [hpart, show shift = shiftOf (new x y p q).difference.toInt from rfl, shiftOf]
      have hnonneg := BitVec.toInt_eq_toNat_cond (new x y p q).difference
      by_cases hlarge : 64 ≤ (new x y p q).difference.toInt
      · rw [decide_eq_true hlarge, if_pos rfl, if_pos hlarge]
        exact ⟨rfl, by decide⟩
      · rw [decide_eq_false hlarge, if_neg Bool.false_ne_true, if_neg hlarge]
        split at hnonneg
        next => exact ⟨by omega, by omega⟩
        next => omega
    have hprec' : q = true → Division.Precision53 native numerator.1 denominator := by
      intro hp
      refine ⟨(hprec hp).trailing, (hprec hp).divides _ ?_ ?_⟩
      · rw [BitVec.toNat_ushiftRight, Nat.shiftRight_eq_div_pow]
        omega
      · rw [BitVec.toNat_ushiftRight, Nat.shiftRight_eq_div_pow]
        omega
    have hreduced : r =
        { quotient := (Division.integerDivision native numerator.1 denominator
            (if (new x y p q).incomplete then 32 else (new x y p q).difference) q).quotient
          remainder := (Division.integerDivision native numerator.1 denominator
            (if (new x y p q).incomplete then 32 else (new x y p q).difference) q).remainder
          exponent := numerator.2 - if (new x y p q).incomplete then 32 else (new x y p q).difference
          negative := x.negative } := by
      show reduce native (new x y p q) = _
      unfold reduce
      dsimp only
      rw [hslt]
      rfl
    rw [hreduced]
    generalize (if (new x y p q).incomplete then 32 else (new x y p q).difference) = count at *
    obtain ⟨hquot, hrem⟩ := Division.integerDivision_exact hnum hden hprec' (by omega : count.toNat < 64)
    rw [hword'] at hquot hrem
    refine ⟨hquot, hrem, ?_, rfl⟩
    have hcnt := toInt_of_toNat_lt (x := count) (by omega)
    show (numerator.2 - count).toInt = _
    rw [toInt_sub_of_fits (by omega) (by omega), hcnt, hword']

end

/-- Below, there is nothing to subtract. -/
theorem reduce_below (h : (new x y p q).difference.toInt < 0) :
    (new x y p q).reduce native =
      ⟨0, (Operand.new x p).normalized.1, (Operand.new x p).normalized.2, x.negative⟩ := by
  have hslt : (new x y p q).difference.slt 1 = true := by
    rw [BitVec.slt, show (1 : BitVec 32).toInt = 1 from rfl]
    exact decide_eq_true (by omega)
  have hne : ¬ (new x y p q).difference = 0 := by
    intro hz
    rw [hz] at h
    exact absurd h (by decide)
  unfold reduce
  dsimp only
  rw [hslt, decide_eq_false hne, if_pos rfl, Bool.false_and, if_neg Bool.false_ne_true, if_neg Bool.false_ne_true]
  exact congrArg (fun word => (⟨0, word, _, _⟩ : Reduced)) (BitVec.sub_zero _)

/-- The direction of a quotient rounding. -/
def directionOf : QuotientRounding → Direction
  | .truncate => .zero
  | .nearestEven => .nearest

/-- A whole reduction: the signed remainder of the rounded quotient, and the quotient's low bits. -/
structure Complete (x y : ExtendedBits) (rounding : QuotientRounding) (reduced : Reduced) : Prop where
  value : reduced.value = sign ℚ x.negative *
    (x.magnitude - (directionOf rounding).round (x.magnitude / y.magnitude) * y.magnitude)
  quotient : (reduced.quotient.toNat : ℤ) % 8 = (directionOf rounding).round (x.magnitude / y.magnitude) % 8
  exponent_ge : -16445 ≤ reduced.exponent.toInt
  exponent_le : reduced.exponent.toInt ≤ 16383

theorem round_zero_div {X Y rest : ℚ} {q : ℕ} (hX : X = q * Y + rest) (hrest : 0 ≤ rest) (hlt : rest < Y) :
    Direction.zero.round (X / Y) = q := by
  have hY := hrest.trans_lt hlt
  have hquot : X / Y = (q : ℤ) + rest / Y := by
    rw [hX, add_div, mul_div_cancel_right₀ _ hY.ne', Int.cast_natCast]
  have hnonneg : 0 ≤ rest / Y := div_nonneg hrest hY.le
  have hfloor : ⌊X / Y⌋ = q := by
    rw [hquot, Int.floor_intCast_add, Int.floor_eq_zero_iff.mpr ⟨hnonneg, (div_lt_one hY).mpr hlt⟩, add_zero]
  rw [Direction.round, if_pos, hfloor]
  rw [hX]
  positivity

variable {reduced r : Reduced}

theorem complete_of_truncated {x y : ExtendedBits} (hX : x.magnitude = r.quotient.toNat * y.magnitude +
      r.remainder.toNat * 2 ^ (r.exponent.toInt - 63))
    (hlt : r.remainder.toNat * 2 ^ (r.exponent.toInt - 63) < y.magnitude)
    (hneg : r.negative = x.negative) (hge : -16445 ≤ r.exponent.toInt)
    (hle : r.exponent.toInt ≤ 16383) : Complete x y .truncate r := by
  have hrest : (0 : ℚ) ≤ r.remainder.toNat * 2 ^ (r.exponent.toInt - 63) :=
    mul_nonneg (Nat.cast_nonneg _) (zpow_pos two_pos _).le
  have hround := round_zero_div hX hrest hlt
  refine ⟨?_, ?_, hge, hle⟩
  · rw [directionOf, hround, Reduced.value, hneg, hX, Int.cast_natCast]
    ring
  · rw [directionOf, hround]

/-- What a reduction from a gap of zero leaves, in units of its last bit. -/
structure InUnits (x y : ExtendedBits) (denominator : BitVec 64) (k : ℕ) (reduced : Reduced) : Prop where
  dividend : x.magnitude = (reduced.quotient.toNat * denominator.toNat + reduced.remainder.toNat) *
    2 ^ (reduced.exponent.toInt - 63)
  divisor : denominator.toNat * 2 ^ (reduced.exponent.toInt - 63) = 2 ^ k * y.magnitude
  remainder_lt : reduced.remainder.toNat < denominator.toNat
  negative : reduced.negative = x.negative
  exponent_ge : -16445 ≤ reduced.exponent.toInt
  exponent_le : reduced.exponent.toInt ≤ 16383

section

variable (hx : x.Finite) (hx0 : x.significand ≠ 0) (hy : y.Finite) (hy0 : y.significand ≠ 0)

include hx hx0 hy hy0

theorem reduce_inUnits (hprec : q = true → Precise native y) (h : 0 ≤ (new x y p q).difference.toInt) :
    InUnits x y (Operand.new y q).normalized.1
      ((new x y p q).difference.toInt.toNat - shiftOf (new x y p q).difference.toInt)
      ((new x y p q).reduce native) := by
  obtain ⟨hquot, hrem, hexp, hneg⟩ := reduce_spec hx hx0 hy hy0 hprec h
  have hdiff := difference_spec hx hx0 hy hy0 (p := p) (q := q)
  obtain ⟨-, hX, hlow, hhi⟩ := Operand.normalized_spec p hx hx0
  obtain ⟨hden, hY, hlow', hhi'⟩ := Operand.normalized_spec q hy hy0
  have hsh : (shiftOf (new x y p q).difference.toInt : ℤ) ≤ (new x y p q).difference.toInt := by
    unfold shiftOf
    split <;> omega
  generalize (new x y p q).reduce native = r at *
  generalize shiftOf (new x y p q).difference.toInt = shift at *
  generalize (new x y p q).difference.toInt = difference at *
  generalize (Operand.new x p).normalized = numerator at *
  generalize (Operand.new y q).normalized = denominator at *
  have hsplit : r.quotient.toNat * denominator.1.toNat + r.remainder.toNat = numerator.1.toNat * 2 ^ shift := by
    rw [hquot, hrem]
    exact Nat.div_add_mod' _ _
  refine ⟨?_, ?_, ?_, hneg, ?_, ?_⟩
  · have hsplit' : (r.quotient.toNat * denominator.1.toNat + r.remainder.toNat : ℚ) =
        numerator.1.toNat * 2 ^ shift := by exact_mod_cast hsplit
    have hexps : numerator.2.toInt - 63 = shift + (r.exponent.toInt - 63) := by omega
    rw [hsplit', hX, hexps, zpow_add₀ two_ne_zero (shift : ℤ), zpow_natCast, mul_assoc]
  · have hexps : r.exponent.toInt - 63 =
        ((difference.toNat - shift : ℕ) : ℤ) + (denominator.2.toInt - 63) := by omega
    rw [hY, hexps, zpow_add₀ two_ne_zero ((difference.toNat - shift : ℕ) : ℤ), zpow_natCast]
    ring
  · rw [hrem]
    exact Nat.mod_lt _ (by omega)
  · omega
  · omega

end

/-- A dividend below the divisor is its own remainder. -/
theorem below_value (hx : x.Finite) (h : (new x y p q).difference.toInt < 0) :
    let r := (new x y p q).reduce native
    r.quotient = 0 ∧ r.negative = x.negative ∧
      r.remainder.toNat * (2 : ℚ) ^ (r.exponent.toInt - 63) = x.magnitude ∧
      -16445 ≤ r.exponent.toInt ∧ r.exponent.toInt ≤ 16383 := by
  intro r
  obtain ⟨hX, hlow, hhi⟩ := Operand.normalized_value p hx
  have hreduced : r = _ := reduce_below h
  rw [hreduced]
  exact ⟨rfl, rfl, hX.symm, hlow, hhi⟩

/-- Below, the gap bounds the dividend. -/
theorem below_lt (hx : x.Finite) (hy : y.Finite) (hy0 : y.significand ≠ 0)
    (h : (new x y p q).difference.toInt < 0) :
    x.magnitude < y.magnitude ∧ ((new x y p q).difference.toInt < -1 → 2 * x.magnitude < y.magnitude) := by
  by_cases hx0 : x.significand = 0
  · have hpos := y.magnitude_pos hy0
    have hz : x.magnitude = 0 := by
      rw [ExtendedBits.magnitude, hx0, show (0 : BitVec 64).toNat = 0 from rfl, Nat.cast_zero, zero_mul]
    rw [hz, mul_zero]
    exact ⟨hpos, fun _ => hpos⟩
  · have hdiff := difference_spec hx hx0 hy hy0 (p := p) (q := q)
    have hhi := (Operand.magnitude_bounds p hx hx0).2
    have hlow := (Operand.magnitude_bounds q hy hy0).1
    refine ⟨?_, fun hfar => ?_⟩
    · exact hhi.trans_le ((zpow_le_zpow_right₀ one_le_two (by omega)).trans hlow)
    · calc 2 * x.magnitude < 2 * 2 ^ ((Operand.new x p).normalized.2.toInt + 1) :=
            mul_lt_mul_of_pos_left hhi two_pos
        _ = 2 ^ ((Operand.new x p).normalized.2.toInt + 1 + 1) := by
            rw [zpow_add_one₀ two_ne_zero ((Operand.new x p).normalized.2.toInt + 1), mul_comm]
        _ ≤ 2 ^ (Operand.new y q).normalized.2.toInt := zpow_le_zpow_right₀ one_le_two (by omega)
        _ ≤ y.magnitude := hlow

/-- Half a divisor's exponent below it, the divisor is twice its significand. -/
theorem half_divisor (hx : x.Finite) (hx0 : x.significand ≠ 0) (hy : y.Finite) (hy0 : y.significand ≠ 0)
    (h : (new x y p q).difference.toInt = -1) :
    2 * (Operand.new y q).normalized.1.toNat * (2 : ℚ) ^ ((Operand.new x p).normalized.2.toInt - 63) =
      y.magnitude := by
  have hdiff := difference_spec hx hx0 hy hy0 (p := p) (q := q)
  have hexps : (Operand.new y q).normalized.2.toInt - 63 =
      (Operand.new x p).normalized.2.toInt - 63 + 1 := by omega
  rw [(Operand.normalized_spec q hy hy0).2.1, hexps, zpow_add_one₀ two_ne_zero]
  ring

/-! ## Rounding the quotient -/

theorem not_zero_of_difference (hx : x.Finite) (h : -1 ≤ (new x y p q).difference.toInt) : x.significand ≠ 0 := by
  intro hz
  rw [difference_of_zero (hx.zero_iff.mpr hz)] at h
  omega

/-- The reduction of a dividend without a step to go is whole when truncated. -/
theorem truncate_complete (hx : x.Finite) (hy : y.Finite) (hy0 : y.significand ≠ 0)
    (hprec : q = true → Precise native y) (hpart : (new x y p q).incomplete = false) :
    Complete x y .truncate ((new x y p q).reduce native) := by
  have hgap : ¬ 64 ≤ (new x y p q).difference.toInt := of_decide_eq_false hpart
  rcases lt_or_ge (new x y p q).difference.toInt 0 with hbelow | hnonneg
  · obtain ⟨hquot, hneg, hval, hge, hle⟩ := @below_value native x y p q hx hbelow
    refine complete_of_truncated ?_ ?_ hneg hge hle
    · rw [hquot, hval, show (0 : BitVec 64).toNat = 0 from rfl, Nat.cast_zero, zero_mul, zero_add]
    · rw [hval]
      exact (below_lt hx hy hy0 hbelow).1
  · have hx0 := not_zero_of_difference hx (show -1 ≤ (new x y p q).difference.toInt by omega)
    have hunits := reduce_inUnits hx hx0 hy hy0 hprec hnonneg
    rw [shiftOf, if_neg hgap, Nat.sub_self] at hunits
    have hdiv := hunits.divisor
    rw [pow_zero, one_mul] at hdiv
    refine complete_of_truncated ?_ ?_ hunits.negative hunits.exponent_ge hunits.exponent_le
    · rw [← hdiv, hunits.dividend]
      ring
    · rw [← hdiv]
      exact mul_lt_mul_of_pos_right (by exact_mod_cast hunits.remainder_lt) (zpow_pos two_pos _)

theorem complete_of_nearest {operands : BinaryOperands} {Y : ℚ}
    (hX : x.magnitude = r.quotient.toNat * Y + r.remainder.toNat * 2 ^ (r.exponent.toInt - 63))
    (hY : Y = y.magnitude) (hlt : r.remainder.toNat * 2 ^ (r.exponent.toInt - 63) < Y)
    (hincs : operands.increments r = true ↔
      Y < 2 * (r.remainder.toNat * 2 ^ (r.exponent.toInt - 63)) ∨
        2 * (r.remainder.toNat * 2 ^ (r.exponent.toInt - 63)) = Y ∧ ¬ Even (r.quotient.toNat : ℤ))
    (hcompl : operands.increments r = true → (operands.complement r).toNat *
      2 ^ (r.exponent.toInt - 63) = Y - r.remainder.toNat * 2 ^ (r.exponent.toInt - 63))
    (hneg : r.negative = x.negative) (hge : -16445 ≤ r.exponent.toInt)
    (hle : r.exponent.toInt ≤ 16383) : Complete x y .nearestEven (operands.nearest r) := by
  subst hY
  have hrest : (0 : ℚ) ≤ r.remainder.toNat * 2 ^ (r.exponent.toInt - 63) :=
    mul_nonneg (Nat.cast_nonneg _) (zpow_pos two_pos _).le
  have hX' : x.magnitude = ((r.quotient.toNat : ℤ) : ℚ) * y.magnitude +
      r.remainder.toNat * 2 ^ (r.exponent.toInt - 63) := by
    rw [Int.cast_natCast]
    exact hX
  have hround := roundEven_div (hrest.trans_lt hlt) hX' hrest hlt
  rw [if_congr hincs.symm rfl rfl] at hround
  cases hinc : operands.increments r with
  | true =>
    rw [hinc, if_pos rfl] at hround
    have hnearest : operands.nearest r = ⟨r.quotient + 1, operands.complement r, r.exponent, !r.negative⟩ := by
      unfold nearest
      dsimp only
      rw [hinc, Bool.xor_true]
      rfl
    rw [hnearest]
    refine ⟨?_, ?_, hge, hle⟩
    · show sign ℚ (!r.negative) * (_ * 2 ^ (r.exponent.toInt - 63)) =
        _ * (_ - (roundEven (x.magnitude / y.magnitude) : ℚ) * _)
      rw [hcompl hinc, hround, hneg, sign_not, Int.cast_add, Int.cast_natCast, Int.cast_one]
      linear_combination (-sign ℚ x.negative) * hX
    · show ((r.quotient + 1).toNat : ℤ) % 8 = roundEven (x.magnitude / y.magnitude) % 8
      rw [hround, BitVec.toNat_add, show (1 : BitVec 64).toNat = 1 from rfl]
      omega
  | false =>
    rw [hinc, if_neg Bool.false_ne_true] at hround
    have hnearest : operands.nearest r = ⟨r.quotient + 0, r.remainder, r.exponent, r.negative⟩ := by
      unfold nearest
      dsimp only
      rw [hinc, Bool.xor_false]
      rfl
    rw [hnearest, show r.quotient + 0 = r.quotient from BitVec.add_zero _]
    refine ⟨?_, ?_, hge, hle⟩
    · show sign ℚ r.negative * (_ * 2 ^ (r.exponent.toInt - 63)) =
        _ * (_ - (roundEven (x.magnitude / y.magnitude) : ℚ) * _)
      rw [hround, hneg, Int.cast_natCast]
      linear_combination (-sign ℚ x.negative) * hX
    · show (r.quotient.toNat : ℤ) % 8 = roundEven (x.magnitude / y.magnitude) % 8
      rw [hround]

/-- Whether a complete reduction's quotient rounds up, by its exponent gap. -/
theorem increments_eq {operands : BinaryOperands} (hpart : operands.incomplete = false) (r : Reduced) :
    operands.increments r = true ↔
      (0 ≤ operands.difference.toInt ∧
        ((operands.right.normalized.1 - r.remainder).toNat < r.remainder.toNat ∨
          r.remainder = operands.right.normalized.1 - r.remainder ∧ r.quotient.toNat % 2 = 1)) ∨
      (operands.difference.toInt = -1 ∧ operands.right.normalized.1.toNat < operands.left.normalized.1.toNat) := by
  have hodd : r.quotient &&& 1 ≠ 0 ↔ r.quotient.toNat % 2 = 1 := by
    have hbit := and_one_ne_zero r.quotient 0
    rw [BitVec.ushiftRight_zero, Nat.testBit_zero, decide_eq_true_iff] at hbit
    exact hbit
  have hhalf : operands.difference = -1 ↔ operands.difference.toInt = -1 := by
    rw [← BitVec.toInt_inj]
    exact Iff.rfl
  unfold increments
  dsimp only
  rw [hpart, Bool.not_false, Bool.and_true, Bool.or_eq_true, Bool.and_eq_true, Bool.and_eq_true, Bool.or_eq_true,
    Bool.and_eq_true, BitVec.sle, BitVec.ult, BitVec.ult, decide_eq_true_iff, decide_eq_true_iff, decide_eq_true_iff,
    decide_eq_true_iff, decide_eq_true_iff, decide_eq_true_iff, hodd, hhalf]
  exact Iff.rfl

section

variable (hx : x.Finite) (hy : y.Finite) (hy0 : y.significand ≠ 0) (h : (new x y p q).difference.toInt = -1)

include hx hy hy0 h

/-- Half an exponent below the divisor, the larger significand is above its half. -/
theorem half_lt_iff :
    y.magnitude < 2 * x.magnitude ↔
      (Operand.new y q).normalized.1.toNat < (Operand.new x p).normalized.1.toNat := by
  have hx0 := not_zero_of_difference hx h.ge
  have hpos : (0 : ℚ) < 2 ^ ((Operand.new x p).normalized.2.toInt - 63) := zpow_pos two_pos _
  rw [← half_divisor hx hx0 hy hy0 h, (Operand.normalized_spec p hx hx0).2.1, mul_assoc,
    mul_lt_mul_iff_right₀ two_pos, mul_lt_mul_iff_left₀ hpos, Nat.cast_lt]

theorem half_complement (hlarger : (Operand.new y q).normalized.1.toNat < (Operand.new x p).normalized.1.toNat) :
    ((new x y p q).complement ((new x y p q).reduce native)).toNat *
        (2 : ℚ) ^ (((new x y p q).reduce native).exponent.toInt - 63) = y.magnitude - x.magnitude := by
  have hx0 := not_zero_of_difference hx h.ge
  obtain ⟨hnum, hX, -, -⟩ := Operand.normalized_spec p hx hx0
  obtain ⟨hden, -, -, -⟩ := Operand.normalized_spec q hy hy0
  have hcompl : (new x y p q).complement ((new x y p q).reduce native) =
      (Operand.new y q).normalized.1 <<< 1 - (Operand.new x p).normalized.1 := by
    refine if_pos ?_
    rw [← BitVec.toInt_inj]
    exact h
  have hword := (Operand.new x p).normalized.1.isLt
  have hexact : ((Operand.new y q).normalized.1 <<< 1 - (Operand.new x p).normalized.1).toNat +
      (Operand.new x p).normalized.1.toNat = 2 * (Operand.new y q).normalized.1.toNat := by
    rw [BitVec.toNat_sub, BitVec.toNat_shiftLeft, Nat.shiftLeft_eq]
    omega
  have hexact' : (((Operand.new y q).normalized.1 <<< 1 - (Operand.new x p).normalized.1).toNat : ℚ) =
      2 * (Operand.new y q).normalized.1.toNat - (Operand.new x p).normalized.1.toNat := by
    rw [eq_sub_iff_add_eq]
    exact_mod_cast hexact
  rw [hcompl, hexact', reduce_below (by omega), ← half_divisor hx hx0 hy hy0 h, hX]
  ring

end

theorem near_complement {denominator remainder : BitVec 64} (h : remainder.toNat < denominator.toNat) :
    (denominator - remainder).toNat = denominator.toNat - remainder.toNat :=
  BitVec.toNat_sub_of_le (BitVec.le_def.mpr h.le)

/-- Comparing a remainder with its complement compares its double with the divisor. -/
theorem nearest_iff {denominator remainder quot : BitVec 64} {u : ℚ} (hu : 0 < u)
    (h : remainder.toNat < denominator.toNat) :
    ((denominator - remainder).toNat < remainder.toNat ∨
        remainder = denominator - remainder ∧ quot.toNat % 2 = 1) ↔
      denominator.toNat * u < 2 * (remainder.toNat * u) ∨
        2 * (remainder.toNat * u) = denominator.toNat * u ∧ ¬ Even (quot.toNat : ℤ) := by
  have hcompl := near_complement h
  have habove : (denominator.toNat : ℚ) < 2 * remainder.toNat ↔ denominator.toNat < 2 * remainder.toNat := by
    exact_mod_cast Iff.rfl
  have htie : 2 * (remainder.toNat : ℚ) = denominator.toNat ↔ 2 * remainder.toNat = denominator.toNat := by
    exact_mod_cast Iff.rfl
  rw [← mul_assoc, mul_lt_mul_iff_left₀ hu, mul_left_inj' hu.ne', habove, htie, Int.even_coe_nat, Nat.even_iff,
    ← BitVec.toNat_inj, hcompl]
  refine or_congr ?_ (and_congr ?_ ?_)
  · omega
  · omega
  · omega

theorem nearest_complete (hx : x.Finite) (hy : y.Finite) (hy0 : y.significand ≠ 0)
    (hprec : q = true → Precise native y) (hpart : (new x y p q).incomplete = false) :
    Complete x y .nearestEven ((new x y p q).nearest ((new x y p q).reduce native)) := by
  have hgap : ¬ 64 ≤ (new x y p q).difference.toInt := of_decide_eq_false hpart
  have hincs := increments_eq hpart ((new x y p q).reduce native)
  rcases lt_or_ge (new x y p q).difference.toInt 0 with hbelow | hnonneg
  · obtain ⟨hquot, hneg, hval, hge, hle⟩ := @below_value native x y p q hx hbelow
    obtain ⟨hlt, hfar⟩ := below_lt hx hy hy0 hbelow
    refine complete_of_nearest ?_ rfl ?_ ?_ ?_ hneg hge hle
    · rw [hquot, hval, show (0 : BitVec 64).toNat = 0 from rfl, Nat.cast_zero, zero_mul, zero_add]
    · rw [hval]
      exact hlt
    · rw [hincs, hval, hquot]
      by_cases hhalf : (new x y p q).difference.toInt = -1
      · rw [half_lt_iff hx hy hy0 hhalf]
        refine ⟨fun h => ?_, fun h => ?_⟩
        · exact Or.inl (h.resolve_left fun h => absurd h.1 (by omega)).2
        · exact Or.inr ⟨hhalf, h.resolve_right fun h => h.2 (by decide)⟩
      · have hbound := hfar (by omega)
        refine iff_of_false ?_ ?_
        · rintro (h | h)
          · exact absurd h.1 (by omega)
          · exact hhalf h.1
        · rintro (h | h)
          · exact h.not_gt hbound
          · exact h.1.not_lt hbound
    · intro h
      rw [hincs] at h
      obtain ⟨hhalf, hlarger⟩ := h.resolve_left fun h => absurd h.1 (by omega)
      rw [hval]
      exact half_complement hx hy hy0 hhalf hlarger
  · have hx0 := not_zero_of_difference hx (show -1 ≤ (new x y p q).difference.toInt by omega)
    have hunits := reduce_inUnits hx hx0 hy hy0 hprec hnonneg
    rw [shiftOf, if_neg hgap, Nat.sub_self] at hunits
    have hdiv := hunits.divisor
    have hpos : (0 : ℚ) < 2 ^ (((new x y p q).reduce native).exponent.toInt - 63) := zpow_pos two_pos _
    rw [pow_zero, one_mul] at hdiv
    refine complete_of_nearest ?_ hdiv ?_ ?_ ?_ hunits.negative hunits.exponent_ge hunits.exponent_le
    · rw [hunits.dividend]
      ring
    · exact mul_lt_mul_of_pos_right (by exact_mod_cast hunits.remainder_lt) (zpow_pos two_pos _)
    · rw [hincs, ← nearest_iff hpos hunits.remainder_lt]
      refine ⟨fun h => (h.resolve_right fun h => absurd h.1 (by omega)).2, fun h => Or.inl ⟨hnonneg, h⟩⟩
    · intro hinc
      have hne : (new x y p q).difference ≠ -1 := by
        intro h
        rw [h] at hnonneg
        exact absurd hnonneg (by decide)
      have hcompl : (new x y p q).complement ((new x y p q).reduce native) =
          (Operand.new y q).normalized.1 - ((new x y p q).reduce native).remainder := if_neg hne
      rw [hcompl, near_complement hunits.remainder_lt, Nat.cast_sub hunits.remainder_lt.le]
      ring

/-- A reduction that is not whole only truncates. -/
theorem rounded_of_incomplete (operands : BinaryOperands) (hpart : operands.incomplete = true)
    (rounding : QuotientRounding) : operands.rounded native rounding = operands.reduce native := by
  cases rounding with
  | truncate => rfl
  | nearestEven =>
    have hincs : operands.increments (operands.reduce native) = false := by
      unfold increments
      dsimp only
      rw [hpart, Bool.not_true, Bool.and_false]
    show operands.nearest (operands.reduce native) = _
    unfold nearest
    dsimp only
    rw [hincs, Bool.xor_false, if_neg Bool.false_ne_true, if_neg Bool.false_ne_true,
      show (operands.reduce native).quotient + 0 = (operands.reduce native).quotient from BitVec.add_zero _]

/-- A step that is not whole: some divisors are gone, in a multiple that leaves the quotient's low bits alone. -/
structure Partial (x y : ExtendedBits) (reduced : Reduced) : Prop where
  exists_multiple : ∃ M : ℕ, 8 ∣ M ∧ 0 < M ∧
    x.magnitude = M * y.magnitude + reduced.remainder.toNat * 2 ^ (reduced.exponent.toInt - 63)
  negative : reduced.negative = x.negative
  exponent_ge : -16445 ≤ reduced.exponent.toInt
  exponent_le : reduced.exponent.toInt ≤ 16383

theorem rounded_partial (hx : x.Finite) (hy : y.Finite) (hy0 : y.significand ≠ 0)
    (hprec : q = true → Precise native y) (hpart : (new x y p q).incomplete = true)
    (rounding : QuotientRounding) : Partial x y ((new x y p q).rounded native rounding) := by
  have hgap : 64 ≤ (new x y p q).difference.toInt := of_decide_eq_true hpart
  have hx0 := not_zero_of_difference hx (show -1 ≤ (new x y p q).difference.toInt by omega)
  have hunits := reduce_inUnits hx hx0 hy hy0 hprec (show 0 ≤ (new x y p q).difference.toInt by omega)
  have hdiff := difference_spec hx hx0 hy hy0 (p := p) (q := q)
  have hlow := (Operand.magnitude_bounds p hx hx0).1
  have hhi := (Operand.magnitude_bounds q hy hy0).2
  rw [rounded_of_incomplete _ hpart]
  rw [shiftOf, if_pos hgap] at hunits
  generalize (new x y p q).reduce native = r at *
  obtain ⟨k, hk⟩ : ∃ k, (new x y p q).difference.toInt.toNat - 32 = k + 32 :=
    ⟨(new x y p q).difference.toInt.toNat - 64, by omega⟩
  rw [hk] at hunits
  have hpos : (0 : ℚ) < 2 ^ (r.exponent.toInt - 63) := zpow_pos two_pos _
  have hX : x.magnitude = (r.quotient.toNat * 2 ^ (k + 32) : ℕ) * y.magnitude +
      r.remainder.toNat * 2 ^ (r.exponent.toInt - 63) := by
    rw [hunits.dividend, Nat.cast_mul, Nat.cast_pow, Nat.cast_two, mul_assoc, ← hunits.divisor]
    ring
  refine ⟨⟨r.quotient.toNat * 2 ^ (k + 32), ?_, ?_, hX⟩, hunits.negative, hunits.exponent_ge, hunits.exponent_le⟩
  · exact Dvd.dvd.mul_left (Nat.pow_dvd_pow 2 (show 3 ≤ k + 32 by omega)) _
  · refine Nat.mul_pos (Nat.pos_of_ne_zero fun hz => ?_) (Nat.two_pow_pos _)
    rw [hz, Nat.zero_mul, Nat.cast_zero, zero_mul, zero_add] at hX
    have hlt : x.magnitude < 2 ^ (k + 32) * y.magnitude := by
      rw [hX, ← hunits.divisor]
      exact mul_lt_mul_of_pos_right (by exact_mod_cast hunits.remainder_lt) hpos
    have hle : 2 ^ (k + 32) * y.magnitude ≤ 2 ^ (Operand.new x p).normalized.2.toInt := by
      calc 2 ^ (k + 32) * y.magnitude ≤ 2 ^ (k + 32) * 2 ^ ((Operand.new y q).normalized.2.toInt + 1) :=
            mul_le_mul_of_nonneg_left hhi.le (by positivity)
        _ = 2 ^ (((k + 32 : ℕ) : ℤ) + ((Operand.new y q).normalized.2.toInt + 1)) := by
            rw [zpow_add₀ two_ne_zero ((k + 32 : ℕ) : ℤ), zpow_natCast]
        _ ≤ 2 ^ (Operand.new x p).normalized.2.toInt := zpow_le_zpow_right₀ one_le_two (by omega)
    exact absurd hlow (not_le.mpr (hlt.trans_le hle))

/-! ## One application -/

/-- Finite encodings are multiples of the smallest one. -/
theorem magnitude_grid (bits : ExtendedBits) : ∃ n : ℕ, bits.magnitude = n * 2 ^ (-16445 : ℤ) := by
  obtain ⟨k, hk⟩ : ∃ k : ℕ, max bits.exponentField.toNat 1 = k + 1 := ⟨max bits.exponentField.toNat 1 - 1, by omega⟩
  have hexps : ((max bits.exponentField.toNat 1 : ℕ) : ℤ) - 16383 - 63 = (k : ℤ) + -16445 := by omega
  refine ⟨bits.significand.toNat * 2 ^ k, ?_⟩
  rw [ExtendedBits.magnitude, hexps, zpow_add₀ two_ne_zero (k : ℤ), zpow_natCast, Nat.cast_mul, Nat.cast_pow,
    Nat.cast_two, mul_assoc]

/-- A whole number of divisors away from the dividend, a value is on the same grid. -/
theorem congruent_grid (x y : ExtendedBits) (negative : Bool) (n : ℤ) :
    ∃ m : ℤ, sign ℚ negative * (x.magnitude - n * y.magnitude) = m * 2 ^ (-16445 : ℤ) := by
  obtain ⟨a, ha⟩ := magnitude_grid x
  obtain ⟨b, hb⟩ := magnitude_grid y
  refine ⟨sign ℤ negative * (a - n * b), ?_⟩
  have hsign : ((sign ℤ negative : ℤ) : ℚ) = sign ℚ negative := by
    cases negative with
    | false => exact Int.cast_one
    | true => exact Int.cast_neg 1
  rw [ha, hb, Int.cast_mul, hsign]
  generalize (2 : ℚ) ^ (-16445 : ℤ) = unit
  push_cast
  ring

/-- Finite operands and a nonzero divisor raise nothing but a denormal operand. -/
theorem remainder_eq (hx : x.Finite) (hy : y.Finite) (hy0 : y.significand ≠ 0) (rounding : QuotientRounding) :
    (new x y p q).remainder native rounding =
      { arithmetic :=
          { ((new x y p q).rounded native rounding).arithmetic x.negative with
            invalid := false
            denormal := x.denormal || y.denormal
            zeroDivide := false }
        quotient := ((new x y p q).rounded native rounding).quotient
        incomplete := (new x y p q).incomplete
        precision53 := p && q } := by
  have hnan : (new x y p q).left.nan = false := hx.not_nan
  have hnan' : (new x y p q).right.nan = false := hy.not_nan
  have hsignaling : (new x y p q).left.signalingNan = false := hx.not_signalingNan
  have hsignaling' : (new x y p q).right.signalingNan = false := hy.not_signalingNan
  have hsupported : (new x y p q).left.unsupported = false := hx.not_unsupported
  have hsupported' : (new x y p q).right.unsupported = false := hy.not_unsupported
  have hinfinity : (new x y p q).left.infinity = false := hx.not_infinity
  have hz : (new x y p q).right.zero = false := Bool.eq_false_iff.mpr fun h => hy0 (hy.zero_iff.mp h)
  unfold remainder finish ArithmeticResult.replaceWhen
  simp only [hnan, hnan', hsignaling, hsignaling', hsupported, hsupported', hinfinity, hz, Bool.or_false,
    Bool.and_false, Bool.not_false, Bool.true_and, Bool.false_eq_true, if_false, if_true]
  rfl

theorem Partial.value (h : Partial x y r) : ∃ M : ℕ, 8 ∣ M ∧ 0 < M ∧
    r.value = sign ℚ x.negative * (x.magnitude - M * y.magnitude) := by
  obtain ⟨M, hdvd, hpos, hX⟩ := h.exists_multiple
  refine ⟨M, hdvd, hpos, ?_⟩
  rw [Reduced.value, h.negative, hX]
  ring

section

variable (hx : x.Finite) (hy : y.Finite) (hy0 : y.significand ≠ 0) (hprec : q = true → Precise native y)
  (rounding : QuotientRounding)

include hx hy hy0 hprec

/-- What an application reduces: the whole quotient, or a part of it. -/
theorem rounded_spec :
    if (new x y p q).incomplete then Partial x y ((new x y p q).rounded native rounding)
    else Complete x y rounding ((new x y p q).rounded native rounding) := by
  split
  next hpart => exact rounded_partial hx hy hy0 hprec hpart rounding
  next hpart =>
    rw [Bool.not_eq_true] at hpart
    cases rounding with
    | truncate => exact truncate_complete hx hy hy0 hprec hpart
    | nearestEven => exact nearest_complete hx hy hy0 hprec hpart

/-- Each application's result is exact, and a whole number of divisors away from its dividend. -/
theorem remainder_exact :
    let r := (new x y p q).rounded native rounding
    let result := ((new x y p q).remainder native rounding).arithmetic
    ExactResult result (if r.remainder = 0 then x.negative else r.negative) r.value ∧
      result.invalid = false ∧ result.zeroDivide = false := by
  intro r result
  have hspec := rounded_spec hx hy hy0 hprec rounding (p := p)
  have hres : result = _ := congrArg Remainder.arithmetic (remainder_eq hx hy hy0 rounding)
  obtain ⟨hge, hle, hgrid⟩ : -16445 ≤ r.exponent.toInt ∧ r.exponent.toInt ≤ 16383 ∧
      ∃ n : ℤ, r.value = n * 2 ^ (-16445 : ℤ) := by
    split at hspec
    next =>
      obtain ⟨M, -, -, hval⟩ := hspec.value
      obtain ⟨n, hn⟩ := congruent_grid x y x.negative M
      refine ⟨hspec.exponent_ge, hspec.exponent_le, n, ?_⟩
      rw [Int.cast_natCast] at hn
      exact hval.trans hn
    next =>
      obtain ⟨n, hn⟩ := congruent_grid x y x.negative ((directionOf rounding).round (x.magnitude / y.magnitude))
      exact ⟨hspec.exponent_ge, hspec.exponent_le, n, hspec.value.trans hn⟩
  have hexact := Reduced.arithmetic_exact x.negative hge hle hgrid
  rw [hres]
  exact ⟨⟨hexact.masked, hexact.masked_exact, hexact.valid_iff, hexact.inRange, hexact.inRange_exact, hexact.overflow,
    hexact.tiny_iff, hexact.adjusted, hexact.adjusted_exact⟩, rfl, rfl⟩

end

end BinaryOperands

variable {result : ArithmeticResult}

variable {negative : Bool}

/-- An exact masked response is a finite encoding of the value. -/
theorem ExactResult.masked_finite {value : ℚ}
    (h : ExactResult result negative value) :
    result.masked.value.Finite ∧ result.masked.value.negative = negative ∧ result.masked.value.decode = value ∧
      result.masked.value.magnitude = |value| := by
  have henc := h.masked
  have hsign := henc.sign_eq
  rw [← ExtendedBits.negative_eq] at hsign
  refine ⟨⟨henc.finite, ?_⟩, hsign, henc.decode_eq, ?_⟩
  · by_cases hfld : result.masked.value.exponentField = 0
    · exact Or.inl hfld
    · exact Or.inr (henc.canonical.mpr hfld)
  · rw [← henc.decode_eq, ExtendedBits.decode_eq, abs_sign_mul _ result.masked.value.magnitude_nonneg]

/-! ## Significant bits -/

namespace BinaryOperands

variable {native : Native} {x y : ExtendedBits} {p q : Bool}

/-- An operand of 53 bits has none below them when normalized. -/
theorem trailing_of_fits {bits : ExtendedBits} (precision53Significand : Bool) (h : bits.Finite)
    (hfits : Fits 53 bits.magnitude) :
    2 ^ 11 ∣ (Operand.new bits precision53Significand).normalized.1.toNat := by
  by_cases hz : bits.significand = 0
  · have hclass : bits.normalOrZero = true := by
      rw [ExtendedBits.normalOrZero, h.zero_iff.mpr hz, Bool.or_true]
    rw [Operand.normalized_ordinary _ hclass, hz]
    exact dvd_zero _
  · obtain ⟨hlead, hval, -, -⟩ := Operand.normalized_spec precision53Significand h hz
    have hnonneg : (0 : ℚ) ≤ bits.magnitude := (bits.magnitude_pos hz).le
    refine hfits.dvd (by rw [abs_of_nonneg hnonneg, hval]) ?_
    rw [show 53 + 11 = 63 + 1 from rfl, pow_succ]
    omega

theorem reduce_trailing (hx : x.Finite) (hy : y.Finite) (hy0 : y.significand ≠ 0)
    (hprec : q = true → Precise native y) (hnumerator : 2 ^ 11 ∣ (Operand.new x p).normalized.1.toNat)
    (hdenominator : 2 ^ 11 ∣ (Operand.new y q).normalized.1.toNat) :
    2 ^ 11 ∣ ((new x y p q).reduce native).remainder.toNat := by
  rcases lt_or_ge (new x y p q).difference.toInt 0 with hbelow | hnonneg
  · rw [reduce_below hbelow]
    exact hnumerator
  · have hx0 := not_zero_of_difference hx (show -1 ≤ (new x y p q).difference.toInt by omega)
    rw [(reduce_spec hx hx0 hy hy0 hprec hnonneg).2.1]
    exact (Nat.dvd_mod_iff hdenominator).mpr (Dvd.dvd.mul_right hnumerator _)

theorem trailing_sub {a b : BitVec 64} (ha : 2 ^ 11 ∣ a.toNat) (hb : 2 ^ 11 ∣ b.toNat) : 2 ^ 11 ∣ (a - b).toNat := by
  rw [BitVec.toNat_sub]
  omega

theorem complement_trailing {operands : BinaryOperands} {r : Reduced}
    (hnumerator : 2 ^ 11 ∣ operands.left.normalized.1.toNat)
    (hdenominator : 2 ^ 11 ∣ operands.right.normalized.1.toNat) (hreduced : 2 ^ 11 ∣ r.remainder.toNat) :
    2 ^ 11 ∣ (operands.complement r).toNat := by
  unfold complement
  dsimp only
  split
  next =>
    refine trailing_sub ?_ hnumerator
    rw [BitVec.toNat_shiftLeft, Nat.shiftLeft_eq]
    omega
  next => exact trailing_sub hdenominator hreduced

/-- A remainder of operands of 53 bits has no more. -/
theorem rounded_fits (hx : x.Finite) (hy : y.Finite) (hy0 : y.significand ≠ 0)
    (hprec : q = true → Precise native y) (hfits : Fits 53 x.magnitude) (hfits' : Fits 53 y.magnitude)
    (rounding : QuotientRounding) : Fits 53 ((new x y p q).rounded native rounding).value := by
  have hnumerator := trailing_of_fits p hx hfits
  have hdenominator := trailing_of_fits q hy hfits'
  have hreduce := reduce_trailing hx hy hy0 hprec hnumerator hdenominator
  have htrailing : 2 ^ 11 ∣ ((new x y p q).rounded native rounding).remainder.toNat := by
    cases rounding with
    | truncate => exact hreduce
    | nearestEven =>
      show 2 ^ 11 ∣ (if (new x y p q).increments ((new x y p q).reduce native) then
        (new x y p q).complement ((new x y p q).reduce native)
        else ((new x y p q).reduce native).remainder).toNat
      split
      next => exact complement_trailing hnumerator hdenominator hreduce
      next => exact hreduce
  generalize (new x y p q).rounded native rounding = r at *
  have hword := r.remainder.isLt
  obtain ⟨m, hm⟩ := htrailing
  refine ⟨m, r.exponent.toInt - 63 + 11, by omega, ?_⟩
  rw [Reduced.value, abs_sign_mul _ (mul_nonneg (Nat.cast_nonneg _) (zpow_pos two_pos _).le), hm,
    zpow_add₀ two_ne_zero (r.exponent.toInt - 63)]
  push_cast
  ring

end BinaryOperands

/-- In range, a result of 53 bits has a significand that is zero or normalized, without bits below them. -/
theorem ExactResult.inRange_fits {value : ℚ}
    (h : ExactResult result negative value) (hfits : Fits 53 value) (hvalid : result.inRange.valid = true) :
    (result.inRange.rounded.value.significand = 0 ∨
      2 ^ 63 ≤ result.inRange.rounded.value.significand.toNat) ∧
      2 ^ 11 ∣ result.inRange.rounded.value.significand.toNat := by
  have henc := h.inRange hvalid
  have hval : |value| = result.inRange.rounded.value.significand.toNat *
      2 ^ (max result.inRange.rounded.value.exponentField.toNat 1 - 16383 - 63 : ℤ) := by
    rw [← henc.decode_eq, ExtendedBits.decode_eq]
    exact abs_sign_mul _ result.inRange.rounded.value.magnitude_nonneg
  generalize result.inRange.rounded.value = bits at *
  by_cases hlead : 2 ^ 63 ≤ bits.significand.toNat
  · refine ⟨Or.inr hlead, hfits.dvd hval ?_⟩
    rw [show 53 + 11 = 63 + 1 from rfl, pow_succ]
    omega
  · have hfld : bits.exponentField = 0 := not_not.mp fun hne => hlead (henc.canonical.mpr hne)
    have hpos : (0 : ℚ) < 2 ^ (1 - 16383 - 63 : ℤ) := zpow_pos two_pos _
    have hsmall : |value| < 2 ^ (-16382 : ℤ) := by
      have hsplit : (2 : ℚ) ^ (-16382 : ℤ) = 2 ^ 63 * 2 ^ (1 - 16383 - 63 : ℤ) := by
        rw [← zpow_natCast (2 : ℚ) 63, ← zpow_add₀ two_ne_zero]
        rfl
      rw [hval, hfld, hsplit]
      refine mul_lt_mul_of_pos_right ?_ hpos
      exact_mod_cast Nat.lt_of_not_le hlead
    have hz : value = 0 := (h.valid_iff.mp hvalid).resolve_right (not_le.mpr hsmall)
    rw [hz, abs_zero] at hval
    have hword := (mul_eq_zero.mp hval.symm).resolve_right (zpow_ne_zero _ two_ne_zero)
    have hsig : bits.significand = 0 := BitVec.eq_of_toNat_eq (Nat.cast_eq_zero.mp hword)
    rw [hsig]
    exact ⟨Or.inl rfl, dvd_zero _⟩

/-! ## Repetition -/

namespace BinaryOperands

variable (native : Native) (rounding : QuotientRounding)

/-- The masked result becomes the dividend. Its representation proves 53 bits where the in-range value is it. -/
def next (operands : BinaryOperands) : BinaryOperands :=
  let result := operands.remainder native rounding
  { left := Operand.new result.arithmetic.masked.value (result.precision53 && result.arithmetic.inRange.valid)
    right := operands.right }

/-- The operands of each application. -/
def after : Nat → BinaryOperands → BinaryOperands
  | 0, operands => operands
  | k + 1, operands => after k (operands.next native rounding)

/-- The result of each application. -/
def applied (k : Nat) (operands : BinaryOperands) : Remainder :=
  (operands.after native rounding k).remainder native rounding

variable {native rounding} {x y : ExtendedBits} {p q : Bool}

/-- Even multiples of the divisor pass through the rounding of a quotient. -/
theorem round_add_even (rounding : QuotientRounding) {t : ℚ} (ht : 0 ≤ t) {M : ℕ} (hM : 2 ∣ M) :
    (directionOf rounding).round (t + M) = (directionOf rounding).round t + M := by
  cases rounding with
  | truncate =>
    show (if 0 ≤ t + M then _ else _) = (if 0 ≤ t then _ else _) + (M : ℤ)
    rw [if_pos ht, if_pos (add_nonneg ht (Nat.cast_nonneg M))]
    exact Int.floor_add_natCast t M
  | nearestEven =>
    have heven : Even (M : ℤ) := by
      rw [Int.even_coe_nat, even_iff_two_dvd]
      exact hM
    have hround := roundEven_add_even t heven
    rw [Int.cast_natCast] at hround
    exact hround

/-- An exact result a whole number of divisors away from the dividend, with no more bits than the operands. -/
structure Step (x y : ExtendedBits) (result : ArithmeticResult) (negative : Bool) (value : ℚ) : Prop
    extends ExactResult result negative value where
  invalid : result.invalid = false
  zeroDivide : result.zeroDivide = false
  congruent : ∃ j : ℤ, x.decode - value = j * y.decode
  fits : Fits 53 x.magnitude → Fits 53 y.magnitude → Fits 53 value

/-- All applications but the last are incomplete, and the last one is the remainder of the rounded quotient. -/
structure Ends (native : Native) (rounding : QuotientRounding) (operands : BinaryOperands) (x y : ExtendedBits)
    (K : Nat) : Prop where
  incomplete : ∀ k < K, (operands.applied native rounding k).incomplete = true
  complete : (operands.applied native rounding K).incomplete = false
  steps : ∀ k ≤ K, ∃ negative value, Step x y (operands.applied native rounding k).arithmetic negative value
  last : ∃ negative value, ExactResult (operands.applied native rounding K).arithmetic negative value ∧
    value = sign ℚ x.negative *
      (x.magnitude - (directionOf rounding).round (x.magnitude / y.magnitude) * y.magnitude) ∧
    (value = 0 → negative = x.negative)
  quotient : ((operands.applied native rounding K).quotient.toNat : ℤ) % 8 =
    (directionOf rounding).round (x.magnitude / y.magnitude) % 8

/-- A multiple of the divisor's magnitude, under any sign of the dividend. -/
theorem congruent_of_magnitude (x y : ExtendedBits) (n : ℤ) :
    ∃ j : ℤ, x.decode - sign ℚ x.negative * (x.magnitude - n * y.magnitude) = j * y.decode := by
  refine ⟨sign ℤ x.negative * sign ℤ y.negative * n, ?_⟩
  rw [x.decode_eq, y.decode_eq]
  cases x.negative with
  | false =>
    cases y.negative with
    | false => simp only [sign, Bool.false_eq_true, if_false]; push_cast; ring
    | true => simp only [sign, Bool.false_eq_true, if_false, if_true]; push_cast; ring
  | true =>
    cases y.negative with
    | false => simp only [sign, Bool.false_eq_true, if_false, if_true]; push_cast; ring
    | true => simp only [sign, if_true]; push_cast; ring

section

variable (hx : x.Finite) (hy : y.Finite) (hy0 : y.significand ≠ 0) (hprec : q = true → Precise native y)
  (rounding : QuotientRounding)

include hx hy hy0 hprec

theorem remainder_step : ∃ negative value,
    Step x y ((new x y p q).remainder native rounding).arithmetic negative value ∧
      value = ((new x y p q).rounded native rounding).value ∧ (value = 0 → negative = x.negative) ∧
      (((new x y p q).rounded native rounding).negative = x.negative → negative = x.negative) := by
  have hspec := rounded_spec hx hy hy0 hprec rounding (p := p)
  obtain ⟨hexact, hinv, hzeroDivide⟩ := remainder_exact hx hy hy0 hprec rounding (p := p)
  refine ⟨_, _, ⟨hexact, hinv, hzeroDivide, ?_, fun hfits hfits' => ?_⟩, rfl, fun hz => if_pos ?_, ?_⟩
  · split at hspec
    next =>
      obtain ⟨M, -, -, hval⟩ := hspec.value
      rw [hval]
      exact_mod_cast congruent_of_magnitude x y M
    next =>
      rw [hspec.value]
      exact congruent_of_magnitude x y _
  · exact rounded_fits hx hy hy0 hprec hfits hfits' rounding
  · rcases mul_eq_zero.mp hz with hsign | hmag
    · exact absurd hsign (sign_ne_zero _)
    · have hword := (mul_eq_zero.mp hmag).resolve_right (zpow_ne_zero _ two_ne_zero)
      exact BitVec.eq_of_toNat_eq (Nat.cast_eq_zero.mp hword)
  · intro hneg
    rw [hneg, ite_self]

theorem ends_of_complete (hpart : (new x y p q).incomplete = false) :
    Ends native rounding (new x y p q) x y 0 := by
  have hspec := rounded_spec hx hy hy0 hprec rounding (p := p)
  rw [hpart, if_neg Bool.false_ne_true] at hspec
  obtain ⟨negative, value, hstep, hval, hz, -⟩ := remainder_step hx hy hy0 hprec rounding (p := p)
  have hres : (new x y p q).applied native rounding 0 = _ := remainder_eq hx hy hy0 rounding
  refine ⟨fun k hk => absurd hk (Nat.not_lt_zero k), ?_, fun k hk => ?_, ?_, ?_⟩
  · rw [hres]
    exact hpart
  · obtain rfl := Nat.le_zero.mp hk
    exact ⟨negative, value, hstep⟩
  · exact ⟨negative, value, hstep.toExactResult, hval.trans hspec.value, hz⟩
  · rw [hres]
    exact hspec.quotient

/-- After an incomplete application the masked result is what a multiple of the divisor leaves. -/
theorem masked_of_incomplete (hpart : (new x y p q).incomplete = true) :
    let masked := ((new x y p q).remainder native rounding).arithmetic.masked.value
    masked.Finite ∧ masked.negative = x.negative ∧
      (∃ M : ℕ, 8 ∣ M ∧ 0 < M ∧ x.magnitude = M * y.magnitude + masked.magnitude) ∧
      (Fits 53 x.magnitude → Fits 53 y.magnitude → Fits 53 masked.magnitude) := by
  intro masked
  have hspec := rounded_spec hx hy hy0 hprec rounding (p := p)
  rw [hpart, if_pos rfl] at hspec
  obtain ⟨negative, value, hstep, hval, -, hneg⟩ := remainder_step hx hy hy0 hprec rounding (p := p)
  obtain ⟨hfinite, hsign, -, hmag⟩ := hstep.toExactResult.masked_finite
  obtain ⟨M, hdvd, hpos, hX⟩ := hspec.exists_multiple
  refine ⟨hfinite, hsign.trans (hneg hspec.negative), ⟨M, hdvd, hpos, ?_⟩, fun hfits hfits' => ?_⟩
  · show x.magnitude = M * y.magnitude + ExtendedBits.magnitude _
    rw [hX, hmag, hval, Reduced.value, abs_sign_mul _ (mul_nonneg (Nat.cast_nonneg _) (zpow_pos two_pos _).le)]
  · obtain ⟨m, e, hm, habs⟩ := hstep.fits hfits hfits'
    refine ⟨m, e, hm, ?_⟩
    show |ExtendedBits.magnitude _| = _
    rw [hmag, abs_abs, habs]

/-- What repetition does with the masked result, it does with the dividend. -/
theorem ends_of_incomplete (hpart : (new x y p q).incomplete = true) {p'' : Bool} {K : Nat}
    (hnext : (new x y p q).next native rounding =
      new ((new x y p q).remainder native rounding).arithmetic.masked.value y p'' q)
    (h : Ends native rounding
      (new ((new x y p q).remainder native rounding).arithmetic.masked.value y p'' q)
      ((new x y p q).remainder native rounding).arithmetic.masked.value y K) :
    Ends native rounding (new x y p q) x y (K + 1) := by
  obtain ⟨hfinite, hneg, ⟨M, hdvd, hpos, hX⟩, hfits⟩ := masked_of_incomplete hx hy hy0 hprec rounding hpart
  obtain ⟨negative, value, hstep, -, -, -⟩ := remainder_step hx hy hy0 hprec rounding (p := p)
  have hres : (new x y p q).applied native rounding 0 = _ := remainder_eq hx hy hy0 rounding
  have hsucc (k : Nat) : (new x y p q).applied native rounding (k + 1) = _ :=
    congrArg (fun operands => BinaryOperands.applied native rounding k operands) hnext
  generalize ((new x y p q).remainder native rounding).arithmetic.masked.value = masked at *
  have hpositive := y.magnitude_pos hy0
  have hquot : x.magnitude / y.magnitude = masked.magnitude / y.magnitude + M := by
    rw [hX, add_div, mul_div_cancel_right₀ _ hpositive.ne', add_comm]
  have hround := round_add_even rounding (div_nonneg masked.magnitude_nonneg hpositive.le) ((show 2 ∣ 8 by decide).trans hdvd)
  rw [← hquot] at hround
  refine ⟨fun k hk => ?_, ?_, fun k hk => ?_, ?_, ?_⟩
  · cases k with
    | zero =>
      rw [hres]
      exact hpart
    | succ k =>
      rw [hsucc]
      exact h.incomplete k (by omega)
  · rw [hsucc]
    exact h.complete
  · cases k with
    | zero => exact ⟨negative, value, hstep⟩
    | succ k =>
      obtain ⟨negative, value, hexact, hinv, hzeroDivide, ⟨j, hj⟩, hfits'⟩ := h.steps k (by omega)
      rw [hsucc]
      refine ⟨negative, value, hexact, hinv, hzeroDivide, ?_, fun hf hf' => hfits' (hfits hf hf') hf'⟩
      obtain ⟨i, hi⟩ := congruent_of_magnitude x y M
      refine ⟨i + j, ?_⟩
      have hdecode : masked.decode = sign ℚ x.negative * (x.magnitude - (M : ℤ) * y.magnitude) := by
        rw [masked.decode_eq, hneg, hX, Int.cast_natCast]
        ring
      rw [Int.cast_add]
      linear_combination hi + hj - hdecode
  · obtain ⟨negative, value, hexact, hval, hsign⟩ := h.last
    rw [hsucc]
    refine ⟨negative, value, hexact, ?_, fun hz => (hsign hz).trans hneg⟩
    rw [hval, hneg, hround, hX, Int.cast_add, Int.cast_natCast]
    ring
  · rw [hsucc, h.quotient, hround]
    omega

end

/-- Every incomplete application takes away divisors, so one completes. -/
theorem exists_ends (hy : y.Finite) (hy0 : y.significand ≠ 0) (hprec : q = true → Precise native y)
    (rounding : QuotientRounding) (n : Nat) (hx : x.Finite) (hn : x.magnitude < n * y.magnitude) :
    ∃ K, Ends native rounding (new x y p q) x y K := by
  induction n generalizing x p with
  | zero =>
    rw [Nat.cast_zero, zero_mul] at hn
    exact absurd hn (not_lt.mpr x.magnitude_nonneg)
  | succ n ih =>
    cases hpart : (new x y p q).incomplete with
    | false => exact ⟨0, ends_of_complete hx hy hy0 hprec rounding hpart⟩
    | true =>
      obtain ⟨hfinite, -, ⟨M, -, hpos, hX⟩, -⟩ := masked_of_incomplete hx hy hy0 hprec rounding hpart
      have hone : (1 : ℚ) ≤ M := by exact_mod_cast hpos
      have hle := mul_le_mul_of_nonneg_right hone (y.magnitude_pos hy0).le
      obtain ⟨K, hK⟩ := ih (p := _) hfinite (by push_cast at hn; linarith)
      exact ⟨K + 1, ends_of_incomplete hx hy hy0 hprec rounding hpart rfl hK⟩

theorem round_neg (rounding : QuotientRounding) (t : ℚ) :
    (directionOf rounding).round (-t) = -(directionOf rounding).round t := by
  cases rounding with
  | truncate =>
    show (if 0 ≤ -t then ⌊-t⌋ else ⌈-t⌉) = -(if 0 ≤ t then ⌊t⌋ else ⌈t⌉)
    rw [Int.floor_neg, Int.ceil_neg]
    rcases lt_trichotomy t 0 with h | rfl | h
    · rw [if_pos (by linarith), if_neg (by linarith)]
    · rw [neg_zero, if_pos le_rfl, if_pos le_rfl, Int.floor_zero, Int.ceil_zero]
    · rw [if_neg (by linarith), if_pos h.le]
  | nearestEven => exact roundEven_neg t

theorem round_nonneg (rounding : QuotientRounding) {t : ℚ} (ht : 0 ≤ t) : 0 ≤ (directionOf rounding).round t := by
  cases rounding with
  | truncate =>
    show 0 ≤ if 0 ≤ t then ⌊t⌋ else ⌈t⌉
    rw [if_pos ht]
    exact Int.floor_nonneg.mpr ht
  | nearestEven => exact roundEven_nonneg ht

/-- The rounded quotient of the operands is that of their magnitudes, under both signs. -/
theorem round_decode (rounding : QuotientRounding) (x y : ExtendedBits) :
    (directionOf rounding).round (x.decode / y.decode) =
      sign ℤ x.negative * sign ℤ y.negative * (directionOf rounding).round (x.magnitude / y.magnitude) := by
  rw [x.decode_eq, y.decode_eq]
  cases x.negative with
  | false =>
    cases y.negative with
    | false => simp only [sign, Bool.false_eq_true, if_false, one_mul]
    | true => simp only [sign, Bool.false_eq_true, if_false, if_true, one_mul, neg_mul, div_neg, round_neg]
  | true =>
    cases y.negative with
    | false => simp only [sign, Bool.false_eq_true, if_false, if_true, one_mul, mul_one, neg_mul, neg_div, round_neg]
    | true => simp only [sign, if_true, one_mul, neg_mul, neg_div_neg_eq, neg_neg]

theorem natAbs_sign_mul (negative negative' : Bool) (n : ℤ) :
    (sign ℤ negative * sign ℤ negative' * n).natAbs = n.natAbs := by
  cases negative with
  | false =>
    cases negative' with
    | false => simp [sign]
    | true => simp [sign]
  | true =>
    cases negative' with
    | false => simp [sign]
    | true => simp [sign]

end BinaryOperands

theorem fits_decode {bits : ExtendedBits} (h : Fits 53 bits.decode) : Fits 53 bits.magnitude := by
  obtain ⟨m, e, hm, hval⟩ := h
  refine ⟨m, e, hm, ?_⟩
  rw [← hval, bits.decode_eq, abs_sign_mul _ bits.magnitude_nonneg, abs_of_nonneg bits.magnitude_nonneg]

/-- The values of an exact result are those of its masked response. -/
theorem ExactResult.of_masked {value : ℚ}
    (h : ExactResult result negative value) :
    ExactResult result result.masked.value.negative result.masked.value.decode := by
  obtain ⟨-, hneg, hval, -⟩ := h.masked_finite
  rw [hneg, hval]
  exact h

/-- Repeating a partial remainder on its own result ends at the remainder of the rounded quotient. Every result on the
way is exact and congruent to the dividend, and has no more than 53 bits where the operands have not. -/
theorem remainder_repeats (native : Native) (x y : ExtendedBits) (p q : Bool) (rounding : QuotientRounding)
    (hx : x.Finite) (hy : y.Finite) (hy0 : y.significand ≠ 0) (hprecise : q = true → Precise native y) :
    let result := fun k => (BinaryOperands.new x y p q).applied native rounding k
    let value := fun k => (result k).arithmetic.masked.value
    let n := (BinaryOperands.directionOf rounding).round (x.decode / y.decode)
    ∃ K, (∀ k < K, (result k).incomplete = true) ∧ (result K).incomplete = false ∧
      (∀ k ≤ K, ExactResult (result k).arithmetic (value k).negative (value k).decode ∧
        (result k).arithmetic.invalid = false ∧ (result k).arithmetic.zeroDivide = false ∧
        (∃ j : ℤ, x.decode - (value k).decode = j * y.decode) ∧
        (Fits 53 x.decode → Fits 53 y.decode → Fits 53 (value k).decode ∧
          ((result k).arithmetic.inRange.valid = true →
            let significand := (result k).arithmetic.inRange.rounded.value.significand
            (significand = 0 ∨ 2 ^ 63 ≤ significand.toNat) ∧ 2 ^ 11 ∣ significand.toNat))) ∧
      (value K).decode = x.decode - n * y.decode ∧ ((value K).decode = 0 → (value K).negative = x.negative) ∧
      (result K).quotient.toNat % 8 = n.natAbs % 8 := by
  intro result value n
  have hpos := y.magnitude_pos hy0
  obtain ⟨m, hm⟩ := exists_nat_gt (x.magnitude / y.magnitude)
  obtain ⟨K, hends⟩ := BinaryOperands.exists_ends hy hy0 hprecise rounding m hx ((div_lt_iff₀ hpos).mp hm) (p := p)
  have hn : n = _ := BinaryOperands.round_decode rounding x y
  refine ⟨K, hends.incomplete, hends.complete, fun k hk => ?_, ?_⟩
  · obtain ⟨negative, v, hstep⟩ := hends.steps k hk
    have hvalue : (value k).decode = v := hstep.toExactResult.masked_finite.2.2.1
    refine ⟨hstep.toExactResult.of_masked, hstep.invalid, hstep.zeroDivide, ?_, fun hfits hfits' => ?_⟩
    · rw [hvalue]
      exact hstep.congruent
    · have hfit := hstep.fits (fits_decode hfits) (fits_decode hfits')
      rw [hvalue]
      exact ⟨hfit, hstep.toExactResult.inRange_fits hfit⟩
  · obtain ⟨negative, v, hexact, hvalue, hzero⟩ := hends.last
    obtain ⟨-, hsign, hdecode, -⟩ := hexact.masked_finite
    have hquotient := hends.quotient
    have hnonneg := BinaryOperands.round_nonneg rounding (div_nonneg x.magnitude_nonneg hpos.le)
    refine ⟨?_, fun h => hsign.trans (hzero (hdecode.symm.trans h)), ?_⟩
    · show ExtendedBits.decode _ = _
      rw [hdecode, hvalue, hn, x.decode_eq, y.decode_eq]
      generalize (BinaryOperands.directionOf rounding).round (x.magnitude / y.magnitude) = r
      cases y.negative with
      | false => cases x.negative with
        | false => simp only [sign, Bool.false_eq_true, if_false]; push_cast; ring
        | true => simp only [sign, Bool.false_eq_true, if_false, if_true]; push_cast; ring
      | true => cases x.negative with
        | false => simp only [sign, Bool.false_eq_true, if_false, if_true]; push_cast; ring
        | true => simp only [sign, if_true]; push_cast; ring
    · rw [hn, BinaryOperands.natAbs_sign_mul]
      show ((BinaryOperands.new x y p q).applied native rounding K).quotient.toNat % 8 = _
      omega

/-- Half of three, with the nearest quotient two: the remainder of one is minus one half. -/
theorem three_halves_remainder :
    let native : Native := ⟨fun x _ => x, fun x _ => x, fun x _ => x, fun x _ => x, fun x => x⟩
    let result := fun k =>
      (BinaryOperands.new ⟨0xc000000000000000, 0x3fff⟩ ⟨0x8000000000000000, 0x3fff⟩ true true).applied native
        .nearestEven k
    ∃ K, (result K).incomplete = false ∧ (result K).arithmetic.masked.value.decode = -1 / 2 := by
  intro native result
  have hprecise : Precise native ⟨0x8000000000000000, 0x3fff⟩ := by
    refine ⟨by decide, fun n hlow hhigh => ?_⟩
    have hone : ((Operand.new ⟨0x8000000000000000, 0x3fff⟩ true).normalized.1 >>> 11).toNat = 2 ^ 52 := by decide
    have hfits : Fits 53 ((n.toNat : ℚ) / 2 ^ 52) := by
      refine ⟨n.toNat, -52, hhigh, ?_⟩
      rw [abs_of_nonneg (div_nonneg (Nat.cast_nonneg _) (pow_nonneg two_pos.le _)), zpow_neg, div_eq_mul_inv]
      rfl
    have hrounded := hfits.roundUnbounded .nearest
    have hdivisor : ((2 : ℚ) ^ 52) = (2 ^ 52 : ℕ) := (Nat.cast_pow 2 52).symm
    rw [hdivisor, ← hone] at hrounded
    rw [Division.DividesHeads, hrounded, hone, ← hdivisor]
    exact Division.decode_head hlow hhigh
  have hx : ExtendedBits.decode ⟨0xc000000000000000, 0x3fff⟩ = 3 / 2 := by
    show sign ℚ false * ((0xc000000000000000 : ℕ) * 2 ^ (max (0x3fff : ℕ) 1 - 16383 - 63 : ℤ)) = _
    norm_num [sign]
  have hy : ExtendedBits.decode ⟨0x8000000000000000, 0x3fff⟩ = 1 := by
    show sign ℚ false * ((0x8000000000000000 : ℕ) * 2 ^ (max (0x3fff : ℕ) 1 - 16383 - 63 : ℤ)) = _
    norm_num [sign]
  obtain ⟨K, -, hcomplete, -, hvalue, -⟩ := remainder_repeats native ⟨0xc000000000000000, 0x3fff⟩
    ⟨0x8000000000000000, 0x3fff⟩ true true .nearestEven ⟨by decide, Or.inr (by decide)⟩ ⟨by decide, Or.inr (by decide)⟩
    (by decide) fun _ => hprecise
  refine ⟨K, hcomplete, hvalue.trans ?_⟩
  have hround : (BinaryOperands.directionOf .nearestEven).round (3 / 2 / 1 : ℚ) = 2 := by
    show roundEven (3 / 2 / 1 : ℚ) = 2
    have hfloor : ⌊(3 / 2 / 1 : ℚ)⌋ = 1 := by norm_num
    have hfract : 2 * Int.fract (3 / 2 / 1 : ℚ) = 1 := by
      rw [Int.fract, hfloor]
      norm_num
    rw [roundEven, hfract, hfloor]
    decide
  rw [hx, hy, hround]
  norm_num

end Relocade.X87
