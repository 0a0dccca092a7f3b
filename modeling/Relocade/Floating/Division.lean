import Relocade.Floating.Addition
import Relocade.Floating.Native
import Relocade.Words.LongDivision

/-!
# `Floating.Division` — wide division

The quotient of two normalized significands by two radix digits, or by a native estimate of its first 53 bits where
the divisor has no more. Both leave the exact floor with evidence of the remainder, and so do divisions of a shifted
numerator (`division_exact`).
-/

namespace Relocade.Floating

open Rounding Words
open Nat (two_pow_pos mod_lt shiftLeft_eq shiftRight_eq_div_pow zero_lt_of_lt mod_eq_of_lt cast_mul)
open BitVec (toNat_sub_of_le toNat_ushiftRight toNat_udiv toNat_mul toNat_sub toNat_shiftLeft eq_of_toNat_eq)

/-! ## The algorithms -/

namespace Division

def RADIX : BitVec 64 := BitVec.ofNat 64 (2 ^ 32)

structure IntegerDivision where
  quotient : BitVec 64
  remainder : BitVec 64
  deriving DecidableEq, Repr

/-- Compares `r` with `B - r`, which does not overflow as `2 * r` does. -/
def roundingInput (integer remainder divisor : BitVec 64) : RoundingInput :=
  let complement := divisor - remainder
  { integer
    guard := complement.ule remainder
    sticky := remainder ≠ 0 && remainder ≠ complement }

/-- A normalized two-digit divisor. -/
structure Divisor where
  significand : BitVec 64
  high : BitVec 64
  low : BitVec 64
  deriving DecidableEq, Repr

namespace Divisor

def new (significand : BitVec 64) : Divisor where
  significand
  high := significand >>> 32
  low := significand &&& (RADIX - 1)

variable (divisor : Divisor) (high low : BitVec 64)

def estimate : BitVec 64 := high / divisor.high

def lowProduct : BitVec 64 := divisor.estimate high * divisor.low

def partialDividend : BitVec 64 := (high - divisor.estimate high * divisor.high) <<< 32 ||| low

/-- Divides `high * RADIX + low`. The remainder preserves the bound on `high`. -/
def digit : IntegerDivision :=
  let partialDividend := divisor.partialDividend high low
  let lowProduct := divisor.lowProduct high
  let excess := lowProduct - partialDividend
  let tooLarge := partialDividend.ult lowProduct
  let needsSecond := tooLarge && divisor.significand.ult excess
  let quotient := divisor.estimate high - (if tooLarge then 1 else 0) - if needsSecond then 1 else 0
  { quotient, remainder := (high <<< 32 ||| low) - quotient * divisor.significand }

/-- The two digits of `numerator << (63 + below_one)`. -/
def quotient (numerator : BitVec 64) (belowOne : Bool) : RoundingInput :=
  let high := if belowOne then numerator else numerator >>> 1
  let low : BitVec 64 := if belowOne then 0 else (numerator &&& 1) <<< 31
  let upper := divisor.digit high low
  let lower := divisor.digit upper.remainder 0
  roundingInput (upper.quotient <<< 32 ||| lower.quotient) lower.remainder divisor.significand

end Divisor

/-- The first 53 bits of the normalized quotient and its exact residual, against the divisor without its eleven
trailing zero bits. -/
structure NativePrefix where
  integer : BitVec 64
  remainder : BitVec 64
  divisor : BitVec 64
  deriving DecidableEq, Repr

def NativePrefix.increment (head : NativePrefix) : NativePrefix :=
  let increment := head.divisor.ule head.remainder
  { integer := head.integer + if increment then 1 else 0
    remainder := head.remainder - if increment then head.divisor else 0
    divisor := head.divisor }

/-- A 53-bit integer as the encoding of a number in the first binade. -/
def head (integer : BitVec 64) : BitVec 64 := integer ||| exponentField 0

def estimate (native : Native) (numerator divisor : BitVec 64) : BitVec 64 :=
  native.div (head (numerator >>> 11)) (head divisor) &&& fractionMask ||| hiddenBit

/-- The residual of an estimate, as a signed word. -/
def residual (numerator divisor estimate : BitVec 64) (belowOne : Bool) : BitVec 64 :=
  (numerator <<< if belowOne then 42 else 41) - estimate * divisor

/-- A prefix of the quotient by native division, corrected. -/
def nativePrefix (native : Native) (numerator denominator : BitVec 64) (belowOne : Bool) : NativePrefix :=
  let divisor := denominator >>> 11
  let quotient := estimate native numerator divisor
  let remainder := residual numerator divisor quotient belowOne
  let negative := remainder.slt 0
  -- One decrement or at most two increments restore a floor/remainder pair.
  NativePrefix.increment (NativePrefix.increment
    { integer := quotient - if negative then 1 else 0
      remainder := remainder + if negative then divisor else 0
      divisor })

/-- Requires the normalized denominator's low eleven bits to be zero. -/
def narrow (native : Native) (numerator denominator : BitVec 64) (belowOne : Bool) : RoundingInput :=
  let head := nativePrefix native numerator denominator belowOne
  let numerator := head.remainder <<< 11
  let low := numerator / head.divisor
  roundingInput (head.integer <<< 11 ||| low) (numerator - low * head.divisor) head.divisor

structure Quotient where
  significand : RoundingInput
  belowOne : Bool
  deriving DecidableEq, Repr

def calculate (native : Native) (numerator denominator : BitVec 64) (divisorPrecision53 : Bool) : Quotient :=
  let denominator := denominator ||| LEADING
  let belowOne := numerator.ult denominator
  let significand :=
    if divisorPrecision53 then narrow native numerator denominator belowOne
    else (Divisor.new denominator).quotient numerator belowOne
  { significand, belowOne }

/-- The floor of the native prefix, shifted. -/
def shiftedPrefix (native : Native) (numerator denominator : BitVec 64) (shift : BitVec 32) : BitVec 64 :=
  let belowOne := numerator.ult denominator
  let head := nativePrefix native numerator denominator belowOne
  let distance := (if belowOne then 53 else 52) - shift
  if (0 : BitVec 32).sle distance then shr head.integer distance
  else
    -- Only large quotients need the final one to eleven bits.
    let extra := 0 - distance
    shl head.integer extra ||| shl head.remainder extra / head.divisor

/-- The two digits of `numerator << shift`. -/
def shiftedDigits (numerator denominator : BitVec 64) (shift : BitVec 32) : BitVec 64 :=
  let divisor := Divisor.new denominator
  let high := if shift = 0 then 0 else shr numerator (64 - shift)
  let low := shl numerator shift
  let upper := divisor.digit high (low >>> 32)
  let lower := divisor.digit upper.remainder (low &&& (RADIX - 1))
  upper.quotient <<< 32 ||| lower.quotient

/-- Divides `numerator << shift`. -/
def integerDivision (native : Native) (numerator denominator : BitVec 64) (shift : BitVec 32)
    (denominatorPrecision53 : Bool) : IntegerDivision :=
  let denominator := denominator ||| LEADING
  let quotient :=
    if denominatorPrecision53 then shiftedPrefix native numerator denominator shift
    else shiftedDigits numerator denominator shift
  { quotient, remainder := shl numerator shift - quotient * denominator }

/-! ## Evidence -/

/-- A floor with its remainder describes the exact quotient. -/
theorem roundingInput_describes {X : Nat} {integer remainder divisor : BitVec 64} (hd : 0 < divisor.toNat)
    (hint : integer.toNat = X / divisor.toNat) (hrem : remainder.toNat = X % divisor.toNat) :
    (roundingInput integer remainder divisor).Describes ((X : ℚ) / divisor.toNat) := by
  have hlt := mod_lt X hd
  have hpos : (0 : ℚ) < divisor.toNat := by exact_mod_cast hd
  have hfloor : ⌊(X : ℚ) / divisor.toNat⌋ = (X / divisor.toNat : ℕ) := Rat.floor_natCast_div_natCast X divisor.toNat
  have hfract : Int.fract ((X : ℚ) / divisor.toNat) = remainder.toNat / divisor.toNat := by
    have hsplit : (X : ℚ) = (X % divisor.toNat : ℕ) + divisor.toNat * (X / divisor.toNat : ℕ) := by
      exact_mod_cast (Nat.mod_add_div X divisor.toNat).symm
    rw [Int.fract, hfloor, hrem, Int.cast_natCast, sub_eq_iff_eq_add, div_add' _ _ _ hpos.ne', mul_comm, ← hsplit]
  have hle : remainder ≤ divisor := by
    rw [BitVec.le_def, hrem]
    exact hlt.le
  have hcompl : (divisor - remainder).toNat = divisor.toNat - remainder.toNat := toNat_sub_of_le hle
  rw [BitVec.le_def] at hle
  refine ⟨?_, ?_, ?_⟩
  · rw [hfloor]
    exact_mod_cast hint.symm
  · show (divisor - remainder).ule remainder = true ↔ _
    rw [BitVec.ule, decide_eq_true_iff, hcompl, hfract, ← mul_div_assoc, le_div_iff₀ hpos, one_mul]
    constructor
    · intro h
      exact_mod_cast (show divisor.toNat ≤ 2 * remainder.toNat by omega)
    · intro h
      have hnat : divisor.toNat ≤ 2 * remainder.toNat := by exact_mod_cast h
      omega
  · show (decide (remainder ≠ 0) && decide (remainder ≠ divisor - remainder)) = true ↔ _
    rw [Bool.and_eq_true, decide_eq_true_iff, decide_eq_true_iff, ne_zero_iff_toNat, ne_eq remainder, ← BitVec.toNat_inj,
      hcompl, hfract, ← mul_div_assoc, ne_eq (_ / _) (0 : ℚ), div_eq_zero_iff, ne_eq (_ / _) (1 : ℚ),
      div_eq_one_iff_eq hpos.ne', Nat.cast_eq_zero]
    refine and_congr ?_ ?_
    · rw [not_or]
      exact ⟨fun h => ⟨h, hpos.ne'⟩, fun h => h.1⟩
    · refine not_congr ⟨fun h => ?_, fun h => ?_⟩
      · exact_mod_cast (show 2 * remainder.toNat = divisor.toNat by omega)
      · have hnat : 2 * remainder.toNat = divisor.toNat := by exact_mod_cast h
        omega

/-! ## Radix digits -/

theorem toNat_and_below_RADIX (word : BitVec 64) : (word &&& (RADIX - 1)).toNat = word.toNat % 2 ^ 32 := by
  rw [BitVec.toNat_and, show (RADIX - 1).toNat = 2 ^ 32 - 1 from rfl, Nat.and_two_pow_sub_one_eq_mod]

namespace Divisor

/-- A normalized significand in its two digits. -/
structure Normalized (divisor : Divisor) : Prop where
  digits : divisor.significand.toNat = divisor.high.toNat * 2 ^ 32 + divisor.low.toNat
  leading : 2 ^ 31 ≤ divisor.high.toNat
  low_lt : divisor.low.toNat < 2 ^ 32

theorem normalized_new {sig : BitVec 64} (h : 2 ^ 63 ≤ sig.toNat) : (new sig).Normalized := by
  have hhi : (new sig).high.toNat = sig.toNat / 2 ^ 32 := by
    show (sig >>> 32).toNat = _
    rw [toNat_ushiftRight, shiftRight_eq_div_pow]
  have hlow : (new sig).low.toNat = sig.toNat % 2 ^ 32 := toNat_and_below_RADIX sig
  refine ⟨?_, ?_, ?_⟩
  · rw [hhi, hlow]
    exact (Nat.div_add_mod' _ _).symm
  · rw [hhi]
    omega
  · rw [hlow]
    exact mod_lt _ (by decide)

variable {d : Divisor} {high low : BitVec 64}

/-- The estimate and its products fit their words. -/
structure DigitFits (divisor : Divisor) (high low : BitVec 64) : Prop where
  divisor_ne_zero : divisor.high ≠ 0
  estimate : (divisor.estimate high).toNat = high.toNat / divisor.high.toNat
  estimate_le : (divisor.estimate high).toNat ≤ 2 ^ 32 + 1
  highProduct : (divisor.estimate high * divisor.high).toNat = (divisor.estimate high).toNat * divisor.high.toNat
  highRemainder : (high - divisor.estimate high * divisor.high).toNat = high.toNat % divisor.high.toNat
  lowProduct : (divisor.lowProduct high).toNat = (divisor.estimate high).toNat * divisor.low.toNat
  partialDividend : (divisor.partialDividend high low).toNat = high.toNat % divisor.high.toNat * 2 ^ 32 + low.toNat

theorem Normalized.digitFits (h : d.Normalized) (hhi : high.toNat < d.significand.toNat)
    (hlow : low.toNat < 2 ^ 32) : d.DigitFits high low := by
  have hlead := h.leading
  have hword := high.isLt
  rw [h.digits] at hhi
  have hestimate : (d.estimate high).toNat = high.toNat / d.high.toNat := toNat_udiv
  have hle := LongDivision.estimate_le (by omega) h.low_lt hhi
  have hlt := LongDivision.estimate_mul_lt (by omega) h.low_lt hhi
  have hproduct : (d.estimate high * d.high).toNat = (d.estimate high).toNat * d.high.toNat := by
    rw [toNat_mul, hestimate]
    exact mod_eq_of_lt (Nat.lt_of_le_of_lt (Nat.div_mul_le_self _ _) hword)
  have hrem : (high - d.estimate high * d.high).toNat = high.toNat % d.high.toNat := by
    rw [toNat_sub_of_le, hproduct, hestimate, Nat.mul_comm, ← Nat.mod_eq_sub]
    rw [BitVec.le_def, hproduct, hestimate]
    exact Nat.div_mul_le_self _ _
  refine ⟨?_, hestimate, ?_, hproduct, hrem, ?_, ?_⟩
  · rw [ne_zero_iff_toNat]
    omega
  · rw [hestimate]
    exact hle
  · rw [Divisor.lowProduct, toNat_mul, hestimate]
    exact mod_eq_of_lt hlt
  · have hmod := mod_lt high.toNat (show 0 < d.high.toNat by omega)
    have hdigit := d.significand.isLt
    rw [h.digits] at hdigit
    have hshd := Nat.mul_lt_mul_of_pos_right hmod (two_pow_pos 32)
    rw [Divisor.partialDividend, Wide.toNat_shiftLeft_or hlow, hrem]
    rw [hrem]
    exact Nat.lt_trans hshd (Nat.lt_of_le_of_lt (Nat.le_add_right _ _) hdigit)

/-- A digit is the exact quotient. -/
theorem Normalized.digit_quotient (h : d.Normalized) (hhi : high.toNat < d.significand.toNat)
    (hlow : low.toNat < 2 ^ 32) :
    (d.digit high low).quotient.toNat = (high.toNat * 2 ^ 32 + low.toNat) / d.significand.toNat := by
  have hfits := h.digitFits hhi hlow
  have hlead := h.leading
  have hdigits := h.digits
  have hdigit := LongDivision.digit_eq (by omega) h.low_lt (h.digits ▸ hhi) hlow
  rw [← h.digits] at hdigit
  have hexcess : (d.partialDividend high low).ult (d.lowProduct high) = true →
      (d.lowProduct high - d.partialDividend high low).toNat =
        (d.lowProduct high).toNat - (d.partialDividend high low).toNat := by
    intro hlt
    rw [BitVec.ult, decide_eq_true_iff] at hlt
    exact toNat_sub_of_le (BitVec.le_def.mpr hlt.le)
  have hdividend := LongDivision.dividend_add (2 ^ 32) d.high.toNat d.low.toNat high.toNat low.toNat
  rw [← hdigit]
  unfold LongDivision.digit
  dsimp only
  unfold LongDivision.rest at hdividend ⊢
  rw [← h.digits, ← hfits.partialDividend, ← hfits.estimate, ← hfits.lowProduct] at hdividend ⊢
  unfold Divisor.digit
  dsimp only
  generalize d.partialDividend high low = rest at *
  generalize d.lowProduct high = lowProduct at *
  generalize d.estimate high = estimate at *
  have hestimate := estimate.isLt
  by_cases hlarge : rest.ult lowProduct = true
  · have hsub := hexcess hlarge
    have hlt : rest.toNat < lowProduct.toNat := of_decide_eq_true hlarge
    have hpos : 1 ≤ estimate.toNat := by
      refine Nat.pos_of_ne_zero fun hz => ?_
      rw [hz, Nat.zero_mul] at hdividend
      omega
    rw [hlarge, if_pos rfl, if_pos hlt, Bool.true_and, BitVec.ult, hsub]
    by_cases hsnd : d.significand.toNat < lowProduct.toNat - rest.toNat
    · have hpos' : 2 ≤ estimate.toNat := by
        by_contra hone
        have hmul := Nat.mul_le_mul_right d.significand.toNat (show estimate.toNat ≤ 1 by omega)
        omega
      rw [if_pos (decide_eq_true hsnd), if_pos ⟨hlt, hsnd⟩, toNat_sub, toNat_sub,
        show (1 : BitVec 64).toNat = 1 from rfl]
      omega
    · rw [if_neg fun h => hsnd (of_decide_eq_true h), if_neg fun h => hsnd h.2, toNat_sub,
        toNat_sub, show (1 : BitVec 64).toNat = 1 from rfl, show (0 : BitVec 64).toNat = 0 from rfl]
      omega
  · have hle : ¬ rest.toNat < lowProduct.toNat := fun hlt => hlarge (decide_eq_true hlt)
    rw [Bool.not_eq_true] at hlarge
    rw [hlarge, Bool.false_and, if_neg Bool.false_ne_true, if_neg hle, if_neg fun h => hle h.1]
    exact congrArg BitVec.toNat (BitVec.sub_zero (estimate - 0) |>.trans (BitVec.sub_zero estimate))

/-- The residual of an exact quotient, from low words. -/
theorem toNat_low_residual {x q d : BitVec 64} {X : Nat} (hx : x.toNat = X % 2 ^ 64)
    (hq : q.toNat = X / d.toNat) (hd : 0 < d.toNat) : (x - q * d).toNat = X % d.toNat := by
  have hlt := mod_lt X hd
  have hword := d.isLt
  have hsplit := Nat.div_add_mod' X d.toNat
  rw [toNat_sub, toNat_mul, hx, hq]
  omega

theorem Normalized.digit_remainder (h : d.Normalized) (hhi : high.toNat < d.significand.toNat)
    (hlow : low.toNat < 2 ^ 32) :
    (d.digit high low).remainder.toNat = (high.toNat * 2 ^ 32 + low.toNat) % d.significand.toNat := by
  refine toNat_low_residual ?_ (h.digit_quotient hhi hlow) (zero_lt_of_lt hhi)
  have hsh : high.toNat * 2 ^ 32 % 2 ^ 64 = (high.toNat % 2 ^ 32) <<< 32 := by
    rw [shiftLeft_eq]
    omega
  rw [BitVec.toNat_or, toNat_shiftLeft, shiftLeft_eq, hsh, ← Nat.shiftLeft_add_eq_or_of_lt hlow, ← hsh]
  omega

/-! ## Two digits -/

variable {num : BitVec 64}

/-- Two digits in turn divide what they are taken from. -/
theorem Normalized.twoDigits {a b c : BitVec 64} (h : d.Normalized) (ha : a.toNat < d.significand.toNat)
    (hb : b.toNat < 2 ^ 32) (hc : c.toNat < 2 ^ 32) :
    let upper := d.digit a b
    let lower := d.digit upper.remainder c
    let X := (a.toNat * 2 ^ 32 + b.toNat) * 2 ^ 32 + c.toNat
    upper.remainder.toNat < d.significand.toNat ∧
      (upper.quotient <<< 32 ||| lower.quotient).toNat = X / d.significand.toNat ∧
      lower.remainder.toNat = X % d.significand.toNat := by
  intro upper lower X
  have hpos := zero_lt_of_lt ha
  have hquot := h.digit_quotient ha hb
  have hrem := h.digit_remainder ha hb
  have hlt : upper.remainder.toNat < d.significand.toNat := by
    rw [hrem]
    exact mod_lt _ hpos
  have hlower := h.digit_quotient hlt hc
  have hrest := h.digit_remainder hlt hc
  rw [hrem] at hlower hrest
  refine ⟨hlt, ?_, ?_⟩
  · have hword := LongDivision.append_div_lt ha hb
    have hdigit := LongDivision.append_div_lt (mod_lt (a.toNat * 2 ^ 32 + b.toNat) hpos) hc
    rw [Wide.toNat_shiftLeft_or, hlower, hquot]
    · exact (LongDivision.append_div hpos _ _).symm
    · rw [hlower]
      exact hdigit
    · rw [hquot]
      exact Nat.mul_lt_mul_of_pos_right hword (two_pow_pos 32)
  · rw [hrest]
    exact (LongDivision.append_mod _ _).symm

/-- The words of a normalized numerator's digits. -/
theorem toNat_digits (num : BitVec 64) (belowOne : Bool) :
    let high := if belowOne then num else num >>> 1
    let low : BitVec 64 := if belowOne then 0 else (num &&& 1) <<< 31
    low.toNat < 2 ^ 32 ∧
      (high.toNat * 2 ^ 32 + low.toNat) * 2 ^ 32 = num.toNat * 2 ^ (63 + belowOne.toNat) := by
  intro high low
  cases belowOne with
  | true =>
    refine ⟨two_pow_pos 32, ?_⟩
    show (num.toNat * 2 ^ 32 + 0) * 2 ^ 32 = num.toNat * 2 ^ 64
    omega
  | false =>
    have hbit : (num &&& 1).toNat = num.toNat % 2 := by
      rw [BitVec.toNat_and]
      exact Nat.and_one_is_mod _
    have hlow : ((num &&& 1) <<< 31).toNat = num.toNat % 2 * 2 ^ 31 := by
      rw [toNat_shiftLeft, hbit, shiftLeft_eq]
      omega
    have hhi : (num >>> 1).toNat = num.toNat / 2 := by
      rw [toNat_ushiftRight, shiftRight_eq_div_pow]
    show ((num &&& 1) <<< 31).toNat < 2 ^ 32 ∧
      ((num >>> 1).toNat * 2 ^ 32 + ((num &&& 1) <<< 31).toNat) * 2 ^ 32 = num.toNat * 2 ^ 63
    rw [hlow, hhi]
    omega

theorem high_lt {den : BitVec 64} (hd : 2 ^ 63 ≤ den.toNat) :
    (if num.ult den then num else num >>> 1).toNat < den.toNat := by
  have hword := num.isLt
  split
  next hbelow => exact of_decide_eq_true hbelow
  next =>
    rw [toNat_ushiftRight, shiftRight_eq_div_pow]
    omega

/-- The two digits of a quotient are its floor with evidence. -/
theorem Normalized.quotient_describes (h : d.Normalized)
    (hd : 2 ^ 63 ≤ d.significand.toNat) :
    let belowOne := num.ult d.significand
    let X := num.toNat * 2 ^ (63 + belowOne.toNat)
    (d.quotient num belowOne).integer.toNat = X / d.significand.toNat ∧
      (d.quotient num belowOne).Describes ((X : ℚ) / d.significand.toNat) := by
  intro belowOne X
  obtain ⟨hlow, hX⟩ := toNat_digits num belowOne
  have hhi : (if belowOne then num else num >>> 1).toNat < d.significand.toNat := high_lt hd
  obtain ⟨-, hquot, hrem⟩ := h.twoDigits hhi hlow (c := 0) (two_pow_pos 32)
  rw [show (0 : BitVec 64).toNat = 0 from rfl, Nat.add_zero, hX] at hquot hrem
  exact ⟨hquot, roundingInput_describes (by omega) hquot hrem⟩

end Divisor

variable {num den : BitVec 64} {shift : BitVec 32}

/-- A shifted numerator in two words. -/
theorem toNat_shifted (hsh : shift.toNat < 64) :
    (if shift = 0 then 0 else shr num (64 - shift) : BitVec 64).toNat * 2 ^ 64 + (shl num shift).toNat =
      num.toNat * 2 ^ shift.toNat := by
  rw [shl_of_lt num hsh]
  by_cases hz : shift = 0
  · subst hz
    rw [if_pos rfl, show (0 : BitVec 32).toNat = 0 from rfl, BitVec.shiftLeft_zero, pow_zero, Nat.mul_one,
      show (0 : BitVec 64).toNat = 0 from rfl, Nat.zero_mul, Nat.zero_add]
  · have hpos : shift.toNat ≠ 0 := fun h => hz (eq_of_toNat_eq h)
    have hcnt : (64 - shift).toNat = 64 - shift.toNat := by
      rw [toNat_sub, show (64 : BitVec 32).toNat = 64 from rfl]
      omega
    have hword := Wide.toNat_shiftLeft num hsh.le
    unfold Wide.toNat at hword
    dsimp only at hword
    rw [if_neg hz, shr_of_lt num (by omega), hcnt, ← hword, Nat.add_comm, Nat.mul_comm]

theorem toNat_shl (num : BitVec 64) (hsh : shift.toNat < 64) :
    (shl num shift).toNat = num.toNat * 2 ^ shift.toNat % 2 ^ 64 := by
  rw [shl_of_lt num hsh, toNat_shiftLeft, shiftLeft_eq]

theorem shifted_high_lt (hsh : shift.toNat < 64) :
    (if shift = 0 then 0 else shr num (64 - shift) : BitVec 64).toNat < 2 ^ 63 := by
  have hshd := @toNat_shifted num shift hsh
  have hnum : num.toNat * 2 ^ shift.toNat < 2 ^ 64 * 2 ^ 63 :=
    Nat.mul_lt_mul_of_lt_of_le num.isLt (Nat.pow_le_pow_right (by decide) (by omega)) (two_pow_pos _)
  refine Nat.lt_of_mul_lt_mul_left (a := 2 ^ 64) (Nat.lt_of_le_of_lt ?_ hnum)
  rw [← hshd, Nat.mul_comm]
  exact Nat.le_add_right _ _

/-- The two digits of a shifted numerator's quotient are its floor. -/
theorem toNat_shiftedDigits (hd : 2 ^ 63 ≤ den.toNat) (hsh : shift.toNat < 64) :
    (shiftedDigits num den shift).toNat = num.toNat * 2 ^ shift.toNat / den.toNat := by
  have hnormd := Divisor.normalized_new hd
  have hshd := @toNat_shifted num shift hsh
  have hhi := @shifted_high_lt num shift hsh
  have hlow := (shl num shift).isLt
  unfold shiftedDigits
  dsimp only
  generalize (if shift = 0 then 0 else shr num (64 - shift) : BitVec 64) = high at *
  generalize shl num shift = low at *
  have hupper : (low >>> 32).toNat = low.toNat / 2 ^ 32 := by
    rw [toNat_ushiftRight, shiftRight_eq_div_pow]
  have hlower := toNat_and_below_RADIX low
  have hwords : (high.toNat * 2 ^ 32 + low.toNat / 2 ^ 32) * 2 ^ 32 + low.toNat % 2 ^ 32 =
      high.toNat * 2 ^ 64 + low.toNat := by
    have hlow' := Nat.div_add_mod' low.toNat (2 ^ 32)
    rw [Nat.add_mul, Nat.mul_assoc, Nat.add_assoc, hlow']
    rfl
  obtain ⟨-, hquot, -⟩ := hnormd.twoDigits (a := high) (b := low >>> 32) (c := low &&& (RADIX - 1))
    (Nat.lt_of_lt_of_le hhi hd) (by omega) (by omega)
  rw [hquot, hupper, hlower]
  show _ / den.toNat = _
  rw [hwords, hshd]

/-! ## Native estimates -/

end Division

/-- A normal encoding has the fraction of its value. -/
theorem BinaryFormat.decode_fraction {format : BinaryFormat} {bits : BitVec format.width} {n : ℕ} {e : ℤ}
    (hlow : 2 ^ format.fractionBits ≤ n) (hhi : n < 2 ^ (format.fractionBits + 1))
    (he : 1 - format.bias - format.fractionBits ≤ e) (h : format.decode bits = n * 2 ^ e) :
    2 ^ format.fractionBits + bits.toNat % 2 ^ format.fractionBits = n := by
  have hfrac := mod_lt bits.toNat (two_pow_pos format.fractionBits)
  have hlow' : (2 : ℚ) ^ format.fractionBits ≤ n := by exact_mod_cast hlow
  have hhi' : (n : ℚ) < 2 ^ (format.fractionBits + 1) := by exact_mod_cast hhi
  unfold decode at h
  dsimp only at h
  split at h
  next =>
    have hpow : (2 : ℚ) ^ (1 - format.bias - format.fractionBits : ℤ) ≤ 2 ^ e :=
      zpow_le_zpow_right₀ one_le_two he
    have hlt : ((bits.toNat % 2 ^ format.fractionBits : ℕ) : ℚ) < 2 ^ format.fractionBits := by exact_mod_cast hfrac
    have hmul : ((bits.toNat % 2 ^ format.fractionBits : ℕ) : ℚ) * 2 ^ (1 - format.bias - format.fractionBits : ℤ) <
        n * 2 ^ e := mul_lt_mul_of_lt_of_le_of_nonneg_of_pos (hlt.trans_le hlow') hpow (Nat.cast_nonneg _)
          (zpow_pos two_pos _)
    exact absurd h hmul.ne
  next =>
    have hmantissa : (2 : ℚ) ^ format.fractionBits + (bits.toNat % 2 ^ format.fractionBits : ℕ) =
        (2 ^ format.fractionBits + bits.toNat % 2 ^ format.fractionBits : ℕ) := by
      push_cast
      rfl
    rw [hmantissa] at h
    exact (scaled_unique (Nat.le_add_right _ _) (by rw [pow_succ]; omega) hlow hhi h).1

namespace Division

/-- A head's fraction is its integer's. -/
theorem toNat_head {integer : BitVec 64} (hlow : 2 ^ 52 ≤ integer.toNat) (hhi : integer.toNat < 2 ^ 53) :
    (head integer).toNat = 1023 * 2 ^ 52 + (integer.toNat - 2 ^ 52) := by
  obtain ⟨fraction, hfrac⟩ := Nat.exists_eq_add_of_le hlow
  have hlt : fraction < 2 ^ 52 := by omega
  have hint : integer.toNat = 1 <<< 52 ||| fraction := by
    rw [← Nat.shiftLeft_add_eq_or_of_lt hlt]
    exact hfrac
  have hexp : (exponentField 0).toNat = 1023 <<< 52 := rfl
  rw [head, BitVec.toNat_or, hexp, hint, Nat.or_assoc, Nat.or_comm fraction, ← Nat.or_assoc,
    show 1 <<< 52 ||| 1023 <<< 52 = 1023 <<< 52 from rfl, ← Nat.shiftLeft_add_eq_or_of_lt hlt, ← Nat.shiftLeft_add_eq_or_of_lt hlt,
    shiftLeft_eq, shiftLeft_eq, Nat.one_mul, Nat.add_sub_cancel_left]

theorem decode_head {integer : BitVec 64} (hlow : 2 ^ 52 ≤ integer.toNat) (hhi : integer.toNat < 2 ^ 53) :
    BinaryFormat.binary64.decode (head integer) = integer.toNat / 2 ^ 52 := by
  have hword := toNat_head hlow hhi
  have hfld : (head integer).toNat / 2 ^ 52 = 1023 := by omega
  have hfrac : (head integer).toNat % 2 ^ 52 = integer.toNat - 2 ^ 52 := by omega
  show (if (head integer).toNat / 2 ^ 52 = 0 then _
    else ((2 : ℚ) ^ 52 + ((head integer).toNat % 2 ^ 52 : ℕ)) *
      2 ^ (((head integer).toNat / 2 ^ 52 : ℕ) - (1023 : ℕ) - (52 : ℕ) : ℤ)) = _
  rw [hfld, hfrac, if_neg (by decide), Nat.cast_sub hlow]
  norm_num
  ring

/-- Native division of two 53-bit heads: their quotient, rounded to nearest. -/
def DividesHeads (native : Native) (numerator divisor : BitVec 64) : Prop :=
  BinaryFormat.binary64.decode (native.div (head numerator) (head divisor)) =
    Direction.nearest.roundUnbounded 53 ((numerator.toNat : ℚ) / divisor.toNat)

variable {native : Native} {num den divisor : BitVec 64} {shift : BitVec 32}

/-- The scaled quotient of two heads has 53 bits, and rounds without a carry. -/
theorem scaled_bounds {n d : Nat} (hn : 2 ^ 52 ≤ n) (hn' : n < 2 ^ 53) (hd : 2 ^ 52 ≤ d) (hd' : d < 2 ^ 53) :
    2 ^ 52 * d ≤ n * 2 ^ (52 + (decide (n < d)).toNat) ∧
      n * 2 ^ (52 + (decide (n < d)).toNat) ≤ (2 ^ 53 - 1) * d := by
  by_cases hbelow : n < d
  · rw [decide_eq_true hbelow, Bool.toNat_true]
    omega
  · rw [decide_eq_false hbelow, Bool.toNat_false]
    omega

/-- A correctly rounded native quotient is within a half of the exact one. -/
theorem estimate_near {n X : Nat} (hn : n = num.toNat / 2 ^ 11)
    (hX : X = n * 2 ^ (52 + (decide (n < divisor.toNat)).toNat)) (hnorm : 2 ^ 63 ≤ num.toNat)
    (hd : 2 ^ 52 ≤ divisor.toNat) (hd' : divisor.toNat < 2 ^ 53)
    (h : DividesHeads native (num >>> 11) divisor) :
    (2 ^ 52 ≤ (estimate native num divisor).toNat ∧ (estimate native num divisor).toNat < 2 ^ 53) ∧
      2 * X ≤ 2 * ((estimate native num divisor).toNat * divisor.toNat) + divisor.toNat ∧
      2 * ((estimate native num divisor).toNat * divisor.toNat) ≤ 2 * X + divisor.toNat := by
  have hword := num.isLt
  obtain ⟨hlow, hhi⟩ := scaled_bounds (n := n) (d := divisor.toNat) (by omega) (by omega) hd hd'
  have hhead : (num >>> 11).toNat = n := by rw [hn, toNat_ushiftRight, shiftRight_eq_div_pow]
  unfold DividesHeads at h
  rw [hhead] at h
  have hb := Bool.toNat_le (decide (n < divisor.toNat))
  generalize (decide (n < divisor.toNat)).toNat = b at *
  rw [← hX] at hlow hhi
  have hpos : (0 : ℚ) < divisor.toNat := by exact_mod_cast (show 0 < divisor.toNat by omega)
  have hlowY : (2 : ℚ) ^ 52 ≤ X / divisor.toNat := by
    rw [le_div_iff₀ hpos]
    exact_mod_cast hlow
  have hhighY : (X : ℚ) / divisor.toNat ≤ (2 ^ 53 - 1 : ℤ) := by
    rw [div_le_iff₀ hpos]
    push_cast
    exact_mod_cast hhi
  have hscaled : (n : ℚ) / divisor.toNat = sign ℚ false * (X / divisor.toNat * 2 ^ (-(52 + b : ℕ) : ℤ)) := by
    rw [hX, cast_mul, Nat.cast_pow, Nat.cast_two, zpow_neg, zpow_natCast, sign, if_neg Bool.false_ne_true, one_mul]
    field_simp
  have hquantum : quantum 53 ((n : ℚ) / divisor.toNat) = -(52 + b : ℕ) := by
    have hlog := log_scaled hlowY (lt_of_le_of_lt hhighY (by norm_num)) false (-(52 + b : ℕ))
    rw [quantum, hscaled, hlog]
    push_cast
    omega
  -- The integer that the encoding holds.
  obtain ⟨hfloor, hceil⟩ := roundEven_bounds ((X : ℚ) / divisor.toNat)
  have hfloor' : (2 ^ 52 : ℤ) ≤ ⌊(X : ℚ) / divisor.toNat⌋ := Int.le_floor.mpr (by exact_mod_cast hlowY)
  have hceil' := Int.ceil_le.mpr hhighY
  obtain ⟨hnear, hnear'⟩ := roundEven_near ((X : ℚ) / divisor.toNat)
  obtain ⟨N, hN⟩ := Int.eq_ofNat_of_zero_le (show 0 ≤ roundEven ((X : ℚ) / divisor.toNat) by omega)
  have hround : BinaryFormat.binary64.decode (native.div (head (num >>> 11)) (head divisor)) =
      N * 2 ^ (-(52 + b : ℕ) : ℤ) := by
    have hquot : (n : ℚ) / divisor.toNat / 2 ^ (-(52 + b : ℕ) : ℤ) = X / divisor.toNat := by
      rw [hscaled, sign, if_neg Bool.false_ne_true, one_mul, mul_div_cancel_right₀ _ (zpow_ne_zero _ two_ne_zero)]
    rw [h, Direction.roundUnbounded, hquantum, Direction.roundAt, hquot, Direction.round, hN]
    push_cast
    rfl
  have hestimate : (estimate native num divisor).toNat = N := by
    rw [estimate, toNat_hidden]
    exact @BinaryFormat.decode_fraction .binary64 _ N _ (show 2 ^ 52 ≤ N by omega) (show N < 2 ^ 53 by omega)
      (show (1 - 1023 - 52 : ℤ) ≤ -(52 + b : ℕ) by omega) hround
  rw [hN, Int.cast_natCast] at hnear hnear'
  have hquot : (X : ℚ) / divisor.toNat * divisor.toNat = X := div_mul_cancel₀ _ hpos.ne'
  have hmul := mul_le_mul_of_nonneg_right hnear hpos.le
  have hmul' := mul_le_mul_of_nonneg_right hnear' hpos.le
  rw [add_mul, one_mul, mul_assoc, mul_assoc, hquot] at hmul hmul'
  rw [hestimate]
  exact ⟨⟨by omega, by omega⟩, by exact_mod_cast hmul, by exact_mod_cast hmul'⟩

/-! ## Correcting an estimate -/

variable {S : Nat} {d : BitVec 64}

/-- A prefix is exact up to whole divisors left in its remainder. -/
structure Restores (S : Nat) (d : BitVec 64) (k : Nat) (head : NativePrefix) : Prop where
  divisor : head.divisor = d
  exact : head.integer.toNat * d.toNat + head.remainder.toNat = S
  below : head.remainder.toNat < (k + 1) * d.toNat
  fits : head.integer.toNat + k < 2 ^ 64

/-- An increment takes one divisor, if it is there. -/
theorem Restores.increment {k : Nat} {head : NativePrefix} (h : Restores S d (k + 1) head) :
    Restores S d k head.increment := by
  have hexact := h.exact
  have hbelow := h.below
  have hfits := h.fits
  rw [Nat.add_one_mul] at hbelow
  unfold NativePrefix.increment
  dsimp only
  rw [h.divisor, BitVec.ule]
  by_cases hle : d.toNat ≤ head.remainder.toNat
  · rw [decide_eq_true hle, if_pos rfl, if_pos rfl]
    have hint : (head.integer + 1).toNat = head.integer.toNat + 1 := by
      rw [BitVec.toNat_add, show (1 : BitVec 64).toNat = 1 from rfl]
      omega
    have hrem : (head.remainder - d).toNat = head.remainder.toNat - d.toNat :=
      toNat_sub_of_le (BitVec.le_def.mpr hle)
    refine ⟨rfl, ?_, ?_, ?_⟩
    · dsimp only
      rw [hint, hrem, Nat.add_one_mul]
      omega
    · dsimp only
      rw [hrem]
      omega
    · dsimp only
      rw [hint]
      omega
  · rw [decide_eq_false hle, if_neg Bool.false_ne_true, if_neg Bool.false_ne_true]
    have hint : head.integer + 0 = head.integer := BitVec.add_zero _
    have hrem : head.remainder - 0 = head.remainder := BitVec.sub_zero _
    rw [hint, hrem]
    refine ⟨rfl, hexact, ?_, ?_⟩
    · dsimp only
      rw [Nat.add_one_mul]
      omega
    · dsimp only
      omega

theorem slt_zero_iff (word : BitVec 64) : word.slt 0 = true ↔ 2 ^ 63 ≤ word.toNat := by
  have hword := word.isLt
  rw [BitVec.slt, decide_eq_true_iff, BitVec.toInt_eq_toNat_cond, show (0 : BitVec 64).toInt = 0 from rfl]
  split
  · omega
  · omega

/-- The numerator that a prefix divides. -/
def scaledNumerator (numerator : BitVec 64) (belowOne : Bool) : Nat := numerator.toNat * 2 ^ (41 + belowOne.toNat)

/-- The native estimate is off by one below, or two above. -/
theorem residual_bounds {n : Nat} (hn : n = num.toNat / 2 ^ 11) (hnorm : 2 ^ 63 ≤ num.toNat)
    (hd : 2 ^ 52 ≤ divisor.toNat) (hd' : divisor.toNat < 2 ^ 53)
    (h : DividesHeads native (num >>> 11) divisor) :
    let P := (estimate native num divisor).toNat * divisor.toNat
    let S := scaledNumerator num (decide (n < divisor.toNat))
    2 * P ≤ 2 * S + divisor.toNat ∧ 2 * S < 2 * P + 5 * divisor.toNat := by
  intro P S
  obtain ⟨-, hnear, hnear'⟩ := estimate_near hn rfl hnorm hd hd' h
  show 2 * P ≤ 2 * (num.toNat * _) + _ ∧ 2 * (num.toNat * _) < _
  generalize hP : P = p
  rw [show (estimate native num divisor).toNat * divisor.toNat = p from hP] at hnear hnear'
  cases hbelow : decide (n < divisor.toNat) with
  | true =>
    rw [hbelow, Bool.toNat_true] at hnear hnear'
    rw [Bool.toNat_true]
    omega
  | false =>
    rw [hbelow, Bool.toNat_false] at hnear hnear'
    rw [Bool.toNat_false]
    omega

/-- The residual is exact in one signed word. -/
theorem residual_spec {belowOne : Bool} {Q : BitVec 64} (hd' : divisor.toNat < 2 ^ 53)
    (hlow : 2 * (Q.toNat * divisor.toNat) ≤ 2 * scaledNumerator num belowOne + divisor.toNat)
    (hhi : 2 * scaledNumerator num belowOne < 2 * (Q.toNat * divisor.toNat) + 5 * divisor.toNat) :
    ((residual num divisor Q belowOne).toInt : ℤ) =
      scaledNumerator num belowOne - (Q.toNat * divisor.toNat : ℕ) := by
  have hsh : (num <<< if belowOne then 42 else 41).toNat = scaledNumerator num belowOne % 2 ^ 64 := by
    unfold scaledNumerator
    cases belowOne with
    | false => rw [toNat_shiftLeft, shiftLeft_eq]; rfl
    | true => rw [toNat_shiftLeft, shiftLeft_eq]; rfl
  have hword : (residual num divisor Q belowOne).toNat =
      (2 ^ 64 - Q.toNat * divisor.toNat % 2 ^ 64 + scaledNumerator num belowOne % 2 ^ 64) % 2 ^ 64 := by
    rw [residual, toNat_sub, toNat_mul, hsh]
  rw [BitVec.toInt_eq_toNat_cond, hword]
  generalize Q.toNat * divisor.toNat = P at *
  generalize scaledNumerator num belowOne = S at *
  clear hword hsh
  split
  next => omega
  next => omega

/-- The corrected prefix is the floor, with its remainder. -/
theorem nativePrefix_spec {belowOne : Bool} (hnorm : 2 ^ 63 ≤ num.toNat) (hd : 2 ^ 63 ≤ den.toNat)
    (hbelow : belowOne = decide (num.toNat / 2 ^ 11 < (den >>> 11).toNat))
    (h : DividesHeads native (num >>> 11) (den >>> 11)) :
    Restores (scaledNumerator num belowOne) (den >>> 11) 0
      (nativePrefix native num den belowOne) := by
  have hword := den.isLt
  have hdiv : (den >>> 11).toNat = den.toNat / 2 ^ 11 := by
    rw [toNat_ushiftRight, shiftRight_eq_div_pow]
  have hd52 : 2 ^ 52 ≤ (den >>> 11).toNat := by omega
  have hd53 : (den >>> 11).toNat < 2 ^ 53 := by omega
  obtain ⟨⟨hlow, hhi⟩, -, -⟩ := estimate_near rfl rfl hnorm hd52 hd53 h
  obtain ⟨hbelow', habove⟩ := residual_bounds rfl hnorm hd52 hd53 h
  rw [← hbelow] at hbelow' habove
  have hresidual := residual_spec hd53 hbelow' habove
  unfold nativePrefix
  dsimp only
  refine Restores.increment (Restores.increment ?_)
  generalize estimate native num (den >>> 11) = Q at *
  generalize residual num (den >>> 11) Q belowOne = R at *
  generalize scaledNumerator num belowOne = S at *
  generalize den >>> 11 = d at *
  have hR := R.isLt
  rw [BitVec.toInt_eq_toNat_cond] at hresidual
  by_cases hneg : R.slt 0 = true
  · rw [hneg, if_pos rfl, if_pos rfl]
    rw [slt_zero_iff] at hneg
    have hint : (Q - 1).toNat = Q.toNat - 1 := by
      rw [toNat_sub, show (1 : BitVec 64).toNat = 1 from rfl]
      omega
    have hmul : (Q.toNat - 1) * d.toNat = Q.toNat * d.toNat - d.toNat := Nat.sub_one_mul _ _
    have hle : d.toNat ≤ Q.toNat * d.toNat := Nat.le_mul_of_pos_left _ (by omega)
    generalize Q.toNat * d.toNat = P at *
    rw [if_neg (by omega)] at hresidual
    have hrem : (R + d).toNat = R.toNat + d.toNat - 2 ^ 64 := by
      rw [BitVec.toNat_add]
      omega
    refine ⟨rfl, ?_, ?_, ?_⟩
    · dsimp only
      rw [hint, hrem, hmul]
      omega
    · dsimp only
      rw [hrem]
      omega
    · dsimp only
      rw [hint]
      omega
  · rw [if_neg hneg, if_neg hneg, show Q - 0 = Q from BitVec.sub_zero Q, show R + 0 = R from BitVec.add_zero R]
    rw [slt_zero_iff] at hneg
    generalize hP : Q.toNat * d.toNat = P at *
    rw [if_pos (by omega)] at hresidual
    refine ⟨rfl, ?_, ?_, ?_⟩
    · dsimp only
      rw [hP]
      omega
    · dsimp only
      omega
    · dsimp only
      omega

/-! ## Results -/

/-- A 53-bit divisor without its trailing bits. -/
structure Precision53 (native : Native) (numerator denominator : BitVec 64) : Prop where
  trailing : denominator.toNat % 2 ^ 11 = 0
  divides : DividesHeads native (numerator >>> 11) (denominator >>> 11)

theorem or_LEADING {word : BitVec 64} (h : 2 ^ 63 ≤ word.toNat) : word ||| LEADING = word := by
  have hbit : word.getLsbD 63 = true := by
    have hlt := word.isLt
    rw [BitVec.getLsbD, Nat.testBit_eq_decide_div_mod_eq, decide_eq_true_iff]
    omega
  refine BitVec.eq_of_getLsbD_eq fun i hi => ?_
  have hlead : LEADING.getLsbD i = decide (63 = i) := by
    rw [BitVec.getLsbD, show LEADING.toNat = 2 ^ 63 from rfl, Nat.testBit_two_pow]
  rw [BitVec.getLsbD_or, hlead]
  by_cases h63 : 63 = i
  · rw [← h63, hbit, Bool.true_or]
  · rw [decide_eq_false h63, Bool.or_false]

/-- The prefix of a 53-bit divisor. -/
theorem Precision53.head_spec (h : Precision53 native num den) (hn : 2 ^ 63 ≤ num.toNat)
    (hd : 2 ^ 63 ≤ den.toNat) :
    let head := nativePrefix native num den (num.ult den)
    let S := scaledNumerator num (num.ult den)
    let d := den.toNat / 2 ^ 11
    head.divisor.toNat = d ∧ head.integer.toNat = S / d ∧ head.remainder.toNat = S % d := by
  intro head S d
  have htrailing := h.trailing
  have hdiv : (den >>> 11).toNat = d := by rw [toNat_ushiftRight, shiftRight_eq_div_pow]
  have hbelow : num.ult den = decide (num.toNat / 2 ^ 11 < (den >>> 11).toNat) := by
    rw [BitVec.ult, hdiv]
    refine decide_eq_decide.mpr ?_
    show num.toNat < den.toNat ↔ num.toNat / 2 ^ 11 < den.toNat / 2 ^ 11
    omega
  have hspec := nativePrefix_spec hn hd hbelow h.divides
  have hexact := hspec.exact
  have hlt := hspec.below
  rw [Nat.zero_add, Nat.one_mul, hdiv] at hlt
  rw [hdiv] at hexact
  have hdivmod := (Nat.div_mod_unique (zero_lt_of_lt hlt)).mpr
    ⟨(Nat.add_comm _ _).trans ((congrArg (· + _) (Nat.mul_comm _ _)).trans hexact), hlt⟩
  exact ⟨(congrArg BitVec.toNat hspec.divisor).trans hdiv, hdivmod.1.symm, hdivmod.2.symm⟩

/-- A word below a 53-bit divisor has room for eleven more bits. -/
theorem toNat_shiftLeft_of_lt {word : BitVec 64} {k : Nat} (h : word.toNat < 2 ^ 53) (hk : k ≤ 11) :
    (word <<< k).toNat = word.toNat * 2 ^ k := by
  have hlt : word.toNat * 2 ^ k < 2 ^ 53 * 2 ^ 11 :=
    Nat.mul_lt_mul_of_lt_of_le h (Nat.pow_le_pow_right (by decide) hk) (two_pow_pos 11)
  rw [toNat_shiftLeft, shiftLeft_eq]
  exact mod_eq_of_lt hlt

/-- A prefix with the bits that its remainder still has. -/
theorem toNat_extended {head : NativePrefix} {S d k : Nat} (hdiv : head.divisor.toNat = d)
    (hint : head.integer.toNat = S / d) (hrem : head.remainder.toNat = S % d) (hd : 0 < d) (hd' : d < 2 ^ 53)
    (hS : S < 2 ^ 53 * d) (hk : k ≤ 11) :
    (head.remainder <<< k / head.divisor).toNat < 2 ^ k ∧
      (head.integer <<< k ||| head.remainder <<< k / head.divisor).toNat = S * 2 ^ k / d := by
  have hlt : head.remainder.toNat < d := by
    rw [hrem]
    exact mod_lt S hd
  have hquot : head.integer.toNat < 2 ^ 53 := by
    rw [hint]
    exact Nat.div_lt_of_lt_mul (by rw [Nat.mul_comm]; exact hS)
  have hlow : (head.remainder <<< k / head.divisor).toNat = (S % d * 2 ^ k + 0) / d := by
    rw [toNat_udiv, toNat_shiftLeft_of_lt (Nat.lt_trans hlt hd') hk, hdiv, hrem, Nat.add_zero]
  have hdigit : (head.remainder <<< k / head.divisor).toNat < 2 ^ k := by
    rw [hlow]
    exact LongDivision.append_div_lt (mod_lt S hd) (two_pow_pos k)
  refine ⟨hdigit, ?_⟩
  have hfits : head.integer.toNat * 2 ^ k < 2 ^ 64 := by
    calc head.integer.toNat * 2 ^ k < 2 ^ 53 * 2 ^ 11 :=
          Nat.mul_lt_mul_of_lt_of_le hquot (Nat.pow_le_pow_right (by decide) hk) (two_pow_pos 11)
      _ = 2 ^ 64 := by decide
  rw [Wide.toNat_shiftLeft_or hdigit hfits, hlow, hint, ← LongDivision.append_div hd, Nat.add_zero]

/-- What a native division computes on its way: the residual is exact as a signed word, the prefix is a floor with its
remainder, and nothing after it overflows. -/
structure NativeFits (native : Native) (numerator denominator : BitVec 64) : Prop where
  divisor_ne_zero : denominator >>> 11 ≠ 0
  residual :
    let quotient := estimate native numerator (denominator >>> 11)
    (residual numerator (denominator >>> 11) quotient (numerator.ult denominator)).toInt =
      scaledNumerator numerator (numerator.ult denominator) -
        (quotient.toNat * (denominator >>> 11).toNat : ℕ)
  exact :
    let head := nativePrefix native numerator denominator (numerator.ult denominator)
    head.divisor = denominator >>> 11 ∧
      head.integer.toNat = scaledNumerator numerator (numerator.ult denominator) / head.divisor.toNat ∧
      head.remainder.toNat = scaledNumerator numerator (numerator.ult denominator) % head.divisor.toNat
  shifted : ∀ k ≤ 11,
    let head := nativePrefix native numerator denominator (numerator.ult denominator)
    (head.remainder <<< k).toNat = head.remainder.toNat * 2 ^ k ∧ (head.remainder <<< k / head.divisor).toNat < 2 ^ k
  product :
    let head := nativePrefix native numerator denominator (numerator.ult denominator)
    let low := head.remainder <<< 11 / head.divisor
    (low * head.divisor).toNat = low.toNat * head.divisor.toNat

/-- What a radix digit computes on its way, and the digit. -/
structure Divisor.DigitExact (divisor : Divisor) (high low : BitVec 64) : Prop extends divisor.DigitFits high low where
  quotient : (divisor.digit high low).quotient.toNat = (high.toNat * 2 ^ 32 + low.toNat) / divisor.significand.toNat
  remainder : (divisor.digit high low).remainder.toNat = (high.toNat * 2 ^ 32 + low.toNat) % divisor.significand.toNat

theorem Divisor.Normalized.digitExact {divisor : Divisor} {high low : BitVec 64} (h : divisor.Normalized)
    (hhi : high.toNat < divisor.significand.toNat) (hlow : low.toNat < 2 ^ 32) : divisor.DigitExact high low :=
  { h.digitFits hhi hlow with
    quotient := h.digit_quotient hhi hlow
    remainder := h.digit_remainder hhi hlow }

theorem Precision53.scaled_lt (h : Precision53 native num den) (hd : 2 ^ 63 ≤ den.toNat) :
    scaledNumerator num (num.ult den) < 2 ^ 53 * (den.toNat / 2 ^ 11) := by
  have htrailing := h.trailing
  have hword := num.isLt
  unfold scaledNumerator
  cases hbelow : num.ult den with
  | true =>
    have hlt : num.toNat < den.toNat := of_decide_eq_true hbelow
    rw [Bool.toNat_true]
    omega
  | false =>
    rw [Bool.toNat_false]
    omega

section

variable (h : Precision53 native num den) (hn : 2 ^ 63 ≤ num.toNat)

include h hn

theorem Precision53.nativeFits
    (hd : 2 ^ 63 ≤ den.toNat) : NativeFits native num den := by
  have hhead := h.head_spec hn hd
  have hS := h.scaled_lt hd
  have htrailing := h.trailing
  have hword := den.isLt
  have hdiv : (den >>> 11).toNat = den.toNat / 2 ^ 11 := by
    rw [toNat_ushiftRight, shiftRight_eq_div_pow]
  have hd52 : 2 ^ 52 ≤ (den >>> 11).toNat := by omega
  have hd53 : (den >>> 11).toNat < 2 ^ 53 := by omega
  have hbelow : num.ult den = decide (num.toNat / 2 ^ 11 < (den >>> 11).toNat) := by
    rw [BitVec.ult, hdiv]
    refine decide_eq_decide.mpr ?_
    show num.toNat < den.toNat ↔ num.toNat / 2 ^ 11 < den.toNat / 2 ^ 11
    omega
  obtain ⟨hlow, hhi⟩ := residual_bounds rfl hn hd52 hd53 h.divides
  rw [← hbelow] at hlow hhi
  have hspec := nativePrefix_spec hn hd hbelow h.divides
  have htaken := hspec.divisor
  rw [← hdiv] at hhead hS
  obtain ⟨-, hint, hrem⟩ := hhead
  have hlt : (nativePrefix native num den (num.ult den)).remainder.toNat < (den >>> 11).toNat := by
    rw [hrem]
    exact mod_lt _ (by omega)
  refine ⟨?_, residual_spec hd53 hlow hhi, ⟨htaken, ?_, ?_⟩, ?_, ?_⟩
  · rw [ne_zero_iff_toNat]
    omega
  · rw [htaken]
    exact hint
  · rw [htaken]
    exact hrem
  · intro k hk
    refine ⟨toNat_shiftLeft_of_lt (by omega) hk, ?_⟩
    exact (toNat_extended (congrArg BitVec.toNat htaken) hint hrem (by omega) hd53 hS hk).1
  · intro head low
    rw [toNat_mul]
    refine mod_eq_of_lt (Nat.lt_of_le_of_lt ?_ (head.remainder <<< 11).isLt)
    rw [show low = head.remainder <<< 11 / head.divisor from rfl, toNat_udiv]
    exact Nat.div_mul_le_self _ _

/-- The quotient by the native path. -/
theorem Precision53.narrow_describes
    (hd : 2 ^ 63 ≤ den.toNat) :
    let belowOne := num.ult den
    let N := num.toNat * 2 ^ (63 + belowOne.toNat)
    (narrow native num den belowOne).integer.toNat = N / den.toNat ∧
      (narrow native num den belowOne).Describes ((N : ℚ) / den.toNat) := by
  intro belowOne N
  have htrailing := h.trailing
  have hword := den.isLt
  have hS := h.scaled_lt hd
  obtain ⟨hdiv, hint, hrem⟩ := h.head_spec hn hd
  have hfits := h.nativeFits hn hd
  have hproduct := hfits.product
  obtain ⟨hshd, -⟩ := hfits.shifted 11 (Nat.le_refl 11)
  obtain ⟨d, hd'⟩ : ∃ d, den.toNat = d * 2 ^ 11 := ⟨den.toNat / 2 ^ 11, by omega⟩
  have hN : N = scaledNumerator num (num.ult den) * 2 ^ 11 * 2 ^ 11 := by
    show num.toNat * 2 ^ (63 + belowOne.toNat) = num.toNat * 2 ^ (41 + belowOne.toNat) * 2 ^ 11 * 2 ^ 11
    rw [show 63 + belowOne.toNat = 41 + belowOne.toNat + 11 + 11 by omega, Nat.pow_add, Nat.pow_add _ _ 11, Nat.mul_assoc,
      Nat.mul_assoc, Nat.mul_assoc]
  rw [hd', Nat.mul_div_cancel _ (two_pow_pos 11)] at hdiv hint hrem hS
  have hquot := (toNat_extended hdiv hint hrem (by omega) (by omega) hS (Nat.le_refl 11)).2
  unfold narrow
  dsimp only
  generalize nativePrefix native num den (num.ult den) = head at *
  generalize scaledNumerator num (num.ult den) = S at *
  have hresidual : (head.remainder <<< 11 - head.remainder <<< 11 / head.divisor * head.divisor).toNat =
      S * 2 ^ 11 % head.divisor.toNat := by
    have hle : head.remainder <<< 11 / head.divisor * head.divisor ≤ head.remainder <<< 11 := by
      rw [BitVec.le_def, hproduct, toNat_udiv]
      exact Nat.div_mul_le_self _ _
    have hmod := LongDivision.append_mod (D := d) (R := 2 ^ 11) S 0
    rw [Nat.add_zero, Nat.add_zero] at hmod
    rw [toNat_sub_of_le hle, hproduct, toNat_udiv, Nat.mul_comm, ← Nat.mod_eq_sub, hshd, hdiv,
      hrem, ← hmod]
  rw [hN, hd', Nat.mul_div_mul_right _ _ (two_pow_pos 11)]
  refine ⟨hquot, ?_⟩
  rw [← hdiv] at hquot
  have hdesc := roundingInput_describes (by omega) hquot hresidual
  rw [hdiv] at hdesc
  have hcast : ((S * 2 ^ 11 * 2 ^ 11 : ℕ) : ℚ) / (d * 2 ^ 11 : ℕ) = (S * 2 ^ 11 : ℕ) / d := by
    rw [cast_mul, cast_mul d]
    exact mul_div_mul_right _ _ (Nat.cast_ne_zero.mpr (two_pow_pos 11).ne')
  rw [hcast]
  exact hdesc

/-- The floor of a shifted numerator by the native path. -/
theorem Precision53.toNat_shiftedPrefix
    (hd : 2 ^ 63 ≤ den.toNat) (hsh : shift.toNat < 64) :
    (shiftedPrefix native num den shift).toNat = num.toNat * 2 ^ shift.toNat / den.toNat := by
  have htrailing := h.trailing
  have hword := den.isLt
  have hS := h.scaled_lt hd
  obtain ⟨hdiv, hint, hrem⟩ := h.head_spec hn hd
  obtain ⟨d, hd'⟩ : ∃ d, den.toNat = d * 2 ^ 11 := ⟨den.toNat / 2 ^ 11, by omega⟩
  rw [hd', Nat.mul_div_cancel _ (two_pow_pos 11)] at hdiv hint hrem hS
  unfold shiftedPrefix
  dsimp only
  have hS' : scaledNumerator num (num.ult den) = num.toNat * 2 ^ (41 + (num.ult den).toNat) := rfl
  generalize nativePrefix native num den (num.ult den) = head at *
  generalize scaledNumerator num (num.ult den) = S at *
  have hone := Bool.toNat_le (num.ult den)
  have hposition : (if num.ult den then 53 else 52 : BitVec 32).toNat = 52 + (num.ult den).toNat := by
    cases num.ult den with
    | true => rfl
    | false => rfl
  generalize (if num.ult den then 53 else 52 : BitVec 32) = position at *
  generalize (num.ult den).toNat = b at *
  have hsigned : (position - shift).toInt = (52 + b : ℤ) - shift.toNat := by
    have hposition' := toInt_of_toNat_lt (x := position) (by omega)
    have hsh' := toInt_of_toNat_lt (x := shift) (by omega)
    rw [toInt_sub_of_fits (by omega) (by omega)]
    omega
  rw [BitVec.sle, show (0 : BitVec 32).toInt = 0 from rfl, hsigned, hd']
  by_cases hnonneg : (0 : ℤ) ≤ (52 + b : ℤ) - shift.toNat
  · obtain ⟨k, hk⟩ : ∃ k, k + shift.toNat = 52 + b := ⟨52 + b - shift.toNat, by omega⟩
    have hcnt : (position - shift).toNat = k := by
      rw [toNat_sub_of_le (BitVec.le_def.mpr (by omega))]
      omega
    rw [if_pos (decide_eq_true hnonneg), shr_of_lt _ (by omega), hcnt, toNat_ushiftRight,
      shiftRight_eq_div_pow, hint, Nat.div_div_eq_div_mul]
    have hpowers : 2 ^ k * 2 ^ shift.toNat = 2 ^ 11 * 2 ^ (41 + b) := by
      rw [← Nat.pow_add, ← Nat.pow_add, hk]
      congr 1
      omega
    calc S / (d * 2 ^ k) = S * 2 ^ shift.toNat / (d * 2 ^ k * 2 ^ shift.toNat) :=
          (Nat.mul_div_mul_right _ _ (two_pow_pos _)).symm
      _ = num.toNat * 2 ^ shift.toNat * 2 ^ (41 + b) / (d * 2 ^ 11 * 2 ^ (41 + b)) := by
          rw [hS', Nat.mul_right_comm, Nat.mul_assoc d, hpowers, Nat.mul_assoc d]
      _ = num.toNat * 2 ^ shift.toNat / (d * 2 ^ 11) := Nat.mul_div_mul_right _ _ (two_pow_pos _)
  · obtain ⟨k, hk⟩ : ∃ k, shift.toNat = 52 + b + k := ⟨shift.toNat - (52 + b), by omega⟩
    have hcnt : (0 - (position - shift)).toNat = k := by
      rw [toNat_sub, toNat_sub, show (0 : BitVec 32).toNat = 0 from rfl]
      omega
    have hextended := (toNat_extended hdiv hint hrem (by omega) (by omega) hS (show k ≤ 11 by omega)).2
    rw [if_neg fun h => hnonneg (of_decide_eq_true h), shl_of_lt _ (by omega), shl_of_lt _ (by omega), hcnt, hextended]
    calc S * 2 ^ k / d = S * 2 ^ k * 2 ^ 11 / (d * 2 ^ 11) := (Nat.mul_div_mul_right _ _ (two_pow_pos _)).symm
      _ = num.toNat * 2 ^ shift.toNat / (d * 2 ^ 11) := by
          rw [hS', hk, Nat.mul_assoc, Nat.mul_assoc, ← Nat.pow_add, ← Nat.pow_add]
          congr 3
          omega

end

/-- The digits that a quotient computes. -/
structure DigitsFit (numerator denominator : BitVec 64) : Prop where
  upper :
    let high := if numerator.ult denominator then numerator else numerator >>> 1
    let low : BitVec 64 := if numerator.ult denominator then 0 else (numerator &&& 1) <<< 31
    (Divisor.new denominator).DigitExact high low
  lower :
    let high := if numerator.ult denominator then numerator else numerator >>> 1
    let low : BitVec 64 := if numerator.ult denominator then 0 else (numerator &&& 1) <<< 31
    (Divisor.new denominator).DigitExact ((Divisor.new denominator).digit high low).remainder 0

/-- The digits that a shifted numerator's quotient computes. -/
structure ShiftedDigitsFit (numerator denominator : BitVec 64) (shift : BitVec 32) : Prop where
  upper :
    let high := if shift = 0 then 0 else shr numerator (64 - shift)
    (Divisor.new denominator).DigitExact high (shl numerator shift >>> 32)
  lower :
    let high := if shift = 0 then 0 else shr numerator (64 - shift)
    (Divisor.new denominator).DigitExact
      ((Divisor.new denominator).digit high (shl numerator shift >>> 32)).remainder
      (shl numerator shift &&& (RADIX - 1))

theorem digitsFit (hd : 2 ^ 63 ≤ den.toNat) : DigitsFit num den := by
  have hnormd := Divisor.normalized_new hd
  obtain ⟨hlow, -⟩ := Divisor.toNat_digits num (num.ult den)
  have hhi : (if num.ult den then num else num >>> 1).toNat < den.toNat :=
    Divisor.high_lt hd
  have hrem := hnormd.digit_remainder hhi hlow
  refine ⟨hnormd.digitExact hhi hlow, hnormd.digitExact ?_ (two_pow_pos 32)⟩
  rw [hrem]
  exact mod_lt _ (zero_lt_of_lt hhi)

theorem shiftedDigitsFit (hd : 2 ^ 63 ≤ den.toNat) (hsh : shift.toNat < 64) : ShiftedDigitsFit num den shift := by
  have hnormd := Divisor.normalized_new hd
  have hhi := Nat.lt_of_lt_of_le (@shifted_high_lt num shift hsh) hd
  have hword := (shl num shift).isLt
  have hupper : (shl num shift >>> 32).toNat < 2 ^ 32 := by
    rw [toNat_ushiftRight, shiftRight_eq_div_pow]
    omega
  have hlower : (shl num shift &&& (RADIX - 1)).toNat < 2 ^ 32 := by
    rw [toNat_and_below_RADIX]
    exact mod_lt _ (two_pow_pos 32)
  have hrem := hnormd.digit_remainder hhi hupper
  refine ⟨hnormd.digitExact hhi hupper, hnormd.digitExact ?_ hlower⟩
  rw [hrem]
  exact mod_lt _ (zero_lt_of_lt hhi)

/-- The quotient of either path. -/
theorem calculate_describes (hn : 2 ^ 63 ≤ num.toNat) (hd : 2 ^ 63 ≤ den.toNat) {precision53 : Bool}
    (h53 : precision53 = true → Precision53 native num den) :
    let N := num.toNat * 2 ^ (63 + (num.ult den).toNat)
    let result := calculate native num den precision53
    result.belowOne = num.ult den ∧ result.significand.integer.toNat = N / den.toNat ∧
      result.significand.Describes ((N : ℚ) / den.toNat) := by
  intro N result
  have hres : result = ⟨if precision53 then narrow native num den (num.ult den)
      else (Divisor.new den).quotient num (num.ult den), num.ult den⟩ := by
    show calculate native num den precision53 = _
    unfold calculate
    rw [or_LEADING hd]
  rw [hres]
  refine ⟨rfl, ?_⟩
  cases precision53 with
  | true => exact (h53 rfl).narrow_describes hn hd
  | false => exact (Divisor.normalized_new hd).quotient_describes hd

/-- The division of a shifted numerator by either path. -/
theorem integerDivision_exact (hn : 2 ^ 63 ≤ num.toNat) (hd : 2 ^ 63 ≤ den.toNat) {precision53 : Bool}
    (h53 : precision53 = true → Precision53 native num den) (hsh : shift.toNat < 64) :
    let X := num.toNat * 2 ^ shift.toNat
    let result := integerDivision native num den shift precision53
    result.quotient.toNat = X / den.toNat ∧ result.remainder.toNat = X % den.toNat := by
  intro X result
  have hquot : result.quotient.toNat = X / den.toNat := by
    show (if precision53 then shiftedPrefix native num (den ||| LEADING) shift
      else shiftedDigits num (den ||| LEADING) shift).toNat = _
    rw [or_LEADING hd]
    cases precision53 with
    | true => exact (h53 rfl).toNat_shiftedPrefix hn hd hsh
    | false => exact toNat_shiftedDigits hd hsh
  refine ⟨hquot, ?_⟩
  have hrem : result.remainder = shl num shift - result.quotient * den := by
    show shl num shift - result.quotient * (den ||| LEADING) = _
    rw [or_LEADING hd]
  rw [hrem]
  exact Divisor.toNat_low_residual (toNat_shl num hsh) hquot (by omega)

theorem IntegerDivision.eq_of_toNat {x y : IntegerDivision} (hquot : x.quotient.toNat = y.quotient.toNat)
    (hrem : x.remainder.toNat = y.remainder.toNat) : x = y := by
  obtain ⟨quotient, remainder⟩ := x
  obtain ⟨quotient', remainder'⟩ := y
  exact congr (congrArg IntegerDivision.mk (eq_of_toNat_eq hquot)) (eq_of_toNat_eq hrem)

theorem Quotient.eq_of_parts {x y : Quotient} (hsig : x.significand = y.significand)
    (hbelow : x.belowOne = y.belowOne) : x = y := by
  obtain ⟨significand, belowOne⟩ := x
  obtain ⟨significand', belowOne'⟩ := y
  exact congr (congrArg Quotient.mk hsig) hbelow

end Division

/-- A value has one evidence. -/
theorem RoundingInput.Describes.eq {x y : RoundingInput} {s : ℚ} (hx : x.Describes s) (hy : y.Describes s) : x = y := by
  obtain ⟨hint, hguard, hsticky⟩ := Rounding.Describes.unique hx hy
  obtain ⟨integer, guard, sticky⟩ := x
  obtain ⟨integer', guard', sticky'⟩ := y
  exact congr (congr (congrArg RoundingInput.mk (eq_of_toNat_eq hint)) hguard) hsticky

open Division

/-- Wide division is exact. A quotient is the normalized floor with evidence of the remainder, whichever path computes
it, and a shifted numerator is divided to its floor and remainder. Estimates, remainders and the products they come
from fit their words, except where only the low word of a difference is taken, which is exact. -/
theorem division_exact (native : Native) (numerator denominator : BitVec 64) (hn : 2 ^ 63 ≤ numerator.toNat)
    (hd : 2 ^ 63 ≤ denominator.toNat) (precision53 : Bool)
    (h53 : precision53 = true → Precision53 native numerator denominator) :
    let belowOne := numerator.ult denominator
    let N := numerator.toNat * 2 ^ (63 + belowOne.toNat)
    let result := calculate native numerator denominator precision53
    (result.belowOne = belowOne ∧ result.significand.integer.toNat = N / denominator.toNat ∧
        2 ^ 63 ≤ result.significand.integer.toNat ∧ result.significand.Describes ((N : ℚ) / denominator.toNat)) ∧
      (∀ shift : BitVec 32, shift.toNat ≤ 63 →
        let division := integerDivision native numerator denominator shift precision53
        division.quotient.toNat = numerator.toNat * 2 ^ shift.toNat / denominator.toNat ∧
          division.remainder.toNat = numerator.toNat * 2 ^ shift.toNat % denominator.toNat ∧
          division = integerDivision native numerator denominator shift false ∧
          ShiftedDigitsFit numerator denominator shift) ∧
      result = calculate native numerator denominator false ∧ DigitsFit numerator denominator ∧
      (precision53 = true → NativeFits native numerator denominator) := by
  intro belowOne N result
  obtain ⟨hbelow, hinteger, hdescribes⟩ := calculate_describes hn hd h53
  obtain ⟨hbelow', hinteger', hdescribes'⟩ := @calculate_describes native _ _ hn hd false
    fun h => absurd h Bool.false_ne_true
  refine ⟨⟨hbelow, hinteger, ?_, hdescribes⟩, fun shift hshift => ?_, ?_, digitsFit hd, fun h => (h53 h).nativeFits hn hd⟩
  · have hword := numerator.isLt
    have hword' := denominator.isLt
    rw [hinteger, Nat.le_div_iff_mul_le (by omega)]
    show 2 ^ 63 * denominator.toNat ≤ numerator.toNat * 2 ^ (63 + (numerator.ult denominator).toNat)
    cases hlt : numerator.ult denominator with
    | true => exact Nat.mul_le_mul hn hword'.le
    | false =>
        rw [Nat.mul_comm]
        exact Nat.mul_le_mul_right _ (Nat.le_of_not_lt fun h => Bool.false_ne_true (hlt.symm.trans (decide_eq_true h)))
  · have hlt := Nat.lt_succ_of_le hshift
    obtain ⟨hquotient, hremainder⟩ := integerDivision_exact hn hd h53 hlt
    obtain ⟨hquotient', hremainder'⟩ := @integerDivision_exact native _ _ shift hn hd false
      (fun h => absurd h Bool.false_ne_true) hlt
    intro division
    refine ⟨hquotient, hremainder, ?_, shiftedDigitsFit hd hlt⟩
    exact IntegerDivision.eq_of_toNat (hquotient.trans hquotient'.symm) (hremainder.trans hremainder'.symm)
  · exact Quotient.eq_of_parts (hdescribes.eq hdescribes') (hbelow.trans hbelow'.symm)

/-- The product of a digit and the whole divisor takes more than a word. -/
theorem digit_product_overflows :
    let divisor := Divisor.new LEADING
    let quotient := (divisor.digit (LEADING >>> 1) 0).quotient
    (quotient * divisor.significand).toNat ≠ quotient.toNat * divisor.significand.toNat := by
  decide

/-- One divided by one, in whole digits and by a native division that gives one. -/
theorem division_one :
    let native : Native := ⟨fun x _ => x, fun x _ => x, fun x _ => x, fun x _ => x, fun x => x⟩
    let result := calculate native LEADING LEADING true
    result.significand.integer.toNat = 2 ^ 63 * 2 ^ 63 / 2 ^ 63 ∧ result = calculate native LEADING LEADING false := by
  intro native result
  have hdivides : DividesHeads native (LEADING >>> 11) (LEADING >>> 11) := by
    have hone : BinaryFormat.binary64.decode (BitVec.ofNat 64 (1023 * 2 ^ 52)) = 1 := by
      show (if 1023 = 0 then ((0 : ℕ) : ℚ) * 2 ^ (1 - (1023 : ℕ) - (52 : ℕ) : ℤ) else ((2 : ℚ) ^ 52 + (0 : ℕ)) * 2 ^ ((1023 : ℕ) - (1023 : ℕ) - (52 : ℕ) : ℤ)) = 1
      norm_num
    have hquantum : quantum 53 (1 : ℚ) = -52 := by
      rw [quantum, abs_one, Int.log_one_right]
      rfl
    have hround : Direction.nearest.roundUnbounded 53 (1 : ℚ) = 1 := by
      rw [Direction.roundUnbounded, hquantum, Direction.roundAt, Direction.round,
        show (1 : ℚ) / 2 ^ (-52 : ℤ) = ((2 ^ 52 : ℤ) : ℚ) by norm_num, roundEven_intCast]
      norm_num
    show BinaryFormat.binary64.decode (head (LEADING >>> 11)) = _
    have hhead : ((LEADING >>> 11).toNat : ℚ) ≠ 0 := Nat.cast_ne_zero.mpr (by decide)
    rw [div_self hhead, hround]
    exact hone
  have hexact := division_exact native LEADING LEADING (Nat.le_refl _) (Nat.le_refl _) true
    fun _ => ⟨by decide, hdivides⟩
  exact ⟨hexact.1.2.1, hexact.2.2.1⟩

end Relocade.Floating
