import Mathlib.Data.Nat.Bitwise
import Relocade.Floating.Finite
import Relocade.X87.File

/-!
# `X87.Rounding` — rounding to extended precision

`round` gives three roundings of one magnitude: with any exponent, on the grid of the smallest binade, and with its
exponent adjusted. Each encodes the single rounding of the exact value (`round_spec`).
-/

namespace Relocade.X87

open Rounding Floating

/-! ## Responses -/

structure RoundedValue where
  value : ExtendedBits
  inexact : Bool
  incremented : Bool

structure ArithmeticCandidate where
  valid : Bool
  rounded : RoundedValue

/-- The result in each response, with what it signals. -/
structure ArithmeticResult where
  inRange : ArithmeticCandidate
  invalid : Bool
  denormal : Bool
  zeroDivide : Bool
  overflow : Bool
  tiny : Bool
  masked : RoundedValue
  adjusted : RoundedValue

def LEADING : BitVec 64 := 1 <<< 63

/-- The bits beyond the precision. The reserved encoding follows the full-precision policy. -/
def discardedBits (precision : BitVec 8) : BitVec 32 :=
  let precision := precision &&& 3
  if precision = 0 then 40 else if precision = 2 then 11 else 0

/-- The sign bit of a magnitude, over an exponent field. -/
def signBits (negative : Bool) : BitVec 32 := if negative then 0x8000 else 0

/-- The shift that leaves the bits of the subnormal grid. -/
def storedDistance (discarded exponent : BitVec 32) : BitVec 32 :=
  if exponent.slt (-16382) then discarded + (-16382 - exponent) else discarded

/-- The rounded significand at its place, zero where rounding carried out of it. -/
def shiftedSignificand (m : FiniteMagnitude) (precision : BitVec 8) (rounding : RoundingMode) : BitVec 64 :=
  let discarded := discardedBits precision
  shl (rounding.round (m.significand.shiftRight discarded) m.negative).integer discarded

/-- Rounding carries out of the significand. -/
def carry (m : FiniteMagnitude) (precision : BitVec 8) (rounding : RoundingMode) : Bool :=
  shiftedSignificand m precision rounding = 0

def exponentWord (m : FiniteMagnitude) (precision : BitVec 8) (rounding : RoundingMode) : BitVec 32 :=
  m.exponent + if carry m precision rounding then 1 else 0

def significandWord (m : FiniteMagnitude) (precision : BitVec 8) (rounding : RoundingMode) : BitVec 64 :=
  if carry m precision rounding then LEADING else shiftedSignificand m precision rounding

/-- The original magnitude on the subnormal grid, never the precision-rounded significand. -/
def stored (m : FiniteMagnitude) (precision : BitVec 8) (rounding : RoundingMode) : Rounded :=
  rounding.round (m.significand.shiftRight (storedDistance (discardedBits precision) m.exponent)) m.negative

def subnormalWord (m : FiniteMagnitude) (precision : BitVec 8) (rounding : RoundingMode) : BitVec 64 :=
  shl (stored m precision rounding).integer (discardedBits precision)

/-- Rounds a magnitude once for every response. -/
def round (m : FiniteMagnitude) (precision : BitVec 8) (rounding : RoundingMode) : ArithmeticResult :=
  let rounded := rounding.round (m.significand.shiftRight (discardedBits precision)) m.negative
  let exponent := exponentWord m precision rounding
  let significand := significandWord m precision rounding
  let overflow := (16384 : BitVec 32).sle exponent
  let tiny := exponent.slt (-16382)
  let sign := signBits m.negative
  let belowNormal := m.exponent.slt (-16382)
  let subnormal := subnormalWord m precision rounding
  let storedExponent := if belowNormal then (if subnormal &&& LEADING ≠ 0 then 1 else 0) else exponent + 16383
  let toInfinity := rounding.overflowToInfinity m.negative
  let saturated := if toInfinity then LEADING else shl (BitVec.allOnes 64) (discardedBits precision)
  let adjustment := if overflow then -24576 else if tiny then 24576 else 0
  { inRange :=
      { valid := !(belowNormal || overflow)
        rounded :=
          { value := ⟨significand, (sign ||| (exponent + 16383)).setWidth 16⟩
            inexact := rounded.inexact
            incremented := rounded.incremented } }
    invalid := false
    denormal := false
    zeroDivide := false
    overflow := overflow
    tiny := tiny
    masked :=
      { value :=
          ⟨if overflow then saturated else if belowNormal then subnormal else significand,
            (sign ||| if overflow then (if toInfinity then 0x7fff else 0x7ffe) else storedExponent).setWidth 16⟩
        inexact := overflow || (stored m precision rounding).inexact
        incremented := if overflow then toInfinity else (stored m precision rounding).incremented }
    adjusted :=
      { value := ⟨significand, (sign ||| (exponent + 16383 + adjustment)).setWidth 16⟩
        inexact := rounded.inexact
        incremented := rounded.incremented } }

/-! ## Encodings -/

/-- The value of a finite encoding. -/
def ExtendedBits.decode (bits : ExtendedBits) : ℚ :=
  sign ℚ (bits.signExponent.msb) *
    (bits.significand.toNat * 2 ^ (max bits.exponentField.toNat 1 - 16383 - 63 : ℤ))

/-- A finite encoding of a value, with its sign, and its leading bit set exactly at a field of one or more. -/
structure Encodes (bits : ExtendedBits) (negative : Bool) (value : ℚ) : Prop where
  decode_eq : bits.decode = value
  sign_eq : bits.signExponent.msb = negative
  finite : bits.exponentField ≠ 0x7fff
  canonical : 2 ^ 63 ≤ bits.significand.toNat ↔ bits.exponentField ≠ 0

/-! ## Fields -/

/-- A sign over a field. -/
theorem signExponent_fields (neg : Bool) {field : BitVec 32} (h : field.toNat < 2 ^ 15) :
    ((signBits neg ||| field).setWidth 16).msb = neg ∧
      ((signBits neg ||| field).setWidth 16 &&& 0x7fff).toNat = field.toNat := by
  have hor : (signBits neg ||| field).toNat = neg.toNat * 2 ^ 15 + field.toNat := by
    rw [BitVec.toNat_or]
    cases neg with
    | false =>
      show 0 ||| field.toNat = 0 * 2 ^ 15 + field.toNat
      rw [Nat.zero_or, Nat.zero_mul, Nat.zero_add]
    | true => exact (Nat.two_pow_add_eq_or_of_lt h 1).symm
  have hbit := Bool.toNat_le neg
  have hword : ((signBits neg ||| field).setWidth 16).toNat = neg.toNat * 2 ^ 15 + field.toNat := by
    rw [BitVec.toNat_setWidth, hor]
    omega
  constructor
  · rw [BitVec.msb_eq_decide, hword]
    cases neg with
    | false => exact decide_eq_false (by rw [Bool.toNat_false]; omega)
    | true => exact decide_eq_true (by rw [Bool.toNat_true]; omega)
  · rw [BitVec.toNat_and, hword]
    show (neg.toNat * 2 ^ 15 + field.toNat) &&& (2 ^ 15 - 1) = _
    rw [Nat.and_two_pow_sub_one_eq_mod]
    omega

/-- A significand under a sign and a field encodes its value. -/
theorem encodes_fields (neg : Bool) (sig : BitVec 64) (field : BitVec 32) (h : field.toNat < 0x7fff)
    (hcanonical : 2 ^ 63 ≤ sig.toNat ↔ field.toNat ≠ 0) :
    Encodes ⟨sig, (signBits neg ||| field).setWidth 16⟩ neg
      (sign ℚ neg * (sig.toNat * 2 ^ (max field.toNat 1 - 16383 - 63 : ℤ))) := by
  obtain ⟨hsign, hfld⟩ := signExponent_fields neg (show field.toNat < 2 ^ 15 by omega)
  have hfld' : (ExtendedBits.mk sig ((signBits neg ||| field).setWidth 16)).exponentField.toNat =
      field.toNat := hfld
  constructor
  · rw [ExtendedBits.decode, hfld', hsign]
  · exact hsign
  · intro hspec
    rw [hspec] at hfld'
    exact absurd hfld' (show (0x7fff : Nat) ≠ _ by omega)
  · rw [hcanonical, ← hfld', ne_eq, ne_eq, ← BitVec.toNat_inj]
    rfl

variable {m : FiniteMagnitude} {s : ℚ}

/-- The precision that a control leaves, less one. -/
def retainedBits (precision : BitVec 8) : ℕ := 63 - (discardedBits precision).toNat

theorem discardedBits_add (p : BitVec 8) : (discardedBits p).toNat + retainedBits p = 63 := by
  have hle : (discardedBits p).toNat ≤ 63 := by
    unfold discardedBits
    dsimp only
    split
    next => decide
    next => split <;> decide
  exact Nat.add_sub_cancel' hle

/-- Rounding carries out of the significand. -/
def carried (m : FiniteMagnitude) (precision : BitVec 8) (rounding : RoundingMode) : Prop :=
  roundedInteger m rounding (discardedBits precision) = 2 ^ (retainedBits precision + 1)

instance (m : FiniteMagnitude) (precision : BitVec 8) (rounding : RoundingMode) :
    Decidable (carried m precision rounding) := inferInstanceAs (Decidable (_ = _))

/-- The exponent after rounding. -/
def roundedExponent (m : FiniteMagnitude) (precision : BitVec 8) (rounding : RoundingMode) : ℤ :=
  m.exponent.toInt + if carried m precision rounding then 1 else 0

theorem toNat_shl (value : BitVec 64) {count : BitVec 32} (h : count.toNat < 64) :
    (shl value count).toNat = value.toNat * 2 ^ count.toNat % 2 ^ 64 := by
  rw [shl_of_lt _ h, BitVec.toNat_shiftLeft, Nat.shiftLeft_eq]

/-- The rounded integer at its place. -/
theorem shiftedSignificand_spec (hn : m.Normalized) (p : BitVec 8) (r : RoundingMode) :
    (shiftedSignificand m p r = 0 ↔ carried m p r) ∧
      (¬ carried m p r → 2 ^ 63 ≤ (shiftedSignificand m p r).toNat ∧
        (shiftedSignificand m p r).toNat =
          roundedInteger m r (discardedBits p) * 2 ^ (discardedBits p).toNat) := by
  have hadd := discardedBits_add p
  obtain ⟨hlow, hhi⟩ := roundedInteger_bounds hn r hadd
  have hpl : 2 ^ retainedBits p * 2 ^ (discardedBits p).toNat = 2 ^ 63 := by
    rw [← pow_add, Nat.add_comm, hadd]
  have hpl' : 2 ^ (retainedBits p + 1) * 2 ^ (discardedBits p).toNat = 2 ^ 64 := by
    rw [pow_succ, Nat.mul_right_comm, hpl]
    rfl
  have hshd : (shiftedSignificand m p r).toNat =
      roundedInteger m r (discardedBits p) * 2 ^ (discardedBits p).toNat % 2 ^ 64 := by
    unfold shiftedSignificand
    rw [toNat_shl _ (by omega), toNat_round_integer]
    exact Nat.mod_mul_mod _ _ _
  have hge := Nat.mul_le_mul_right (2 ^ (discardedBits p).toNat) hlow
  rw [hpl] at hge
  by_cases hcarry : carried m p r
  · refine ⟨iff_of_true (BitVec.eq_of_toNat_eq ?_) hcarry, fun h => absurd hcarry h⟩
    rw [hshd, show roundedInteger _ _ _ = _ from hcarry, hpl']
    rfl
  · have hlt := Nat.mul_lt_mul_of_pos_right (lt_of_le_of_ne hhi hcarry) (Nat.two_pow_pos (discardedBits p).toNat)
    rw [hpl'] at hlt
    rw [Nat.mod_eq_of_lt hlt] at hshd
    refine ⟨iff_of_false (fun hzero => ?_) hcarry, fun _ => ⟨by omega, hshd⟩⟩
    rw [hzero] at hshd
    exact absurd hshd (show (0 : Nat) ≠ _ by omega)

/-- The exponent and the significand after rounding. -/
theorem significand_value (hn : m.Normalized) (hexponent : m.exponent.toInt < 2 ^ 31 - 1) (p : BitVec 8)
    (r : RoundingMode) :
    (exponentWord m p r).toInt = roundedExponent m p r ∧
      2 ^ 63 ≤ (significandWord m p r).toNat ∧
      (roundedInteger m r (discardedBits p) * 2 ^ (m.exponent.toInt - retainedBits p) : ℚ) =
        (significandWord m p r).toNat * 2 ^ (roundedExponent m p r - 63) := by
  obtain ⟨hzero, hpl⟩ := shiftedSignificand_spec hn p r
  have hadd := discardedBits_add p
  have hexp : (exponentWord m p r).toInt = roundedExponent m p r := by
    rw [exponentWord, toInt_add_carry hexponent]
    exact congrArg _ (if_congr (decide_eq_true_iff.trans hzero) rfl rfl)
  refine ⟨hexp, ?_⟩
  unfold roundedExponent
  by_cases hcarry : carried m p r
  · have hsig : significandWord m p r = LEADING := if_pos (decide_eq_true (hzero.mpr hcarry))
    have hpower : (2 : ℚ) ^ (m.exponent.toInt - retainedBits p) * 2 ^ (retainedBits p + 1) =
        2 ^ 63 * 2 ^ (m.exponent.toInt + 1 - 63) := by
      rw [← zpow_natCast, ← zpow_natCast, ← zpow_add₀ two_ne_zero, ← zpow_add₀ two_ne_zero]
      congr 1
      push_cast
      ring
    rw [hsig, if_pos hcarry, show roundedInteger _ _ _ = _ from hcarry]
    refine ⟨by decide, ?_⟩
    rw [Nat.cast_pow, Nat.cast_two, mul_comm, hpower]
    rfl
  · obtain ⟨hle, hval⟩ := hpl hcarry
    have hsig : significandWord m p r = shiftedSignificand m p r :=
      if_neg fun h => hcarry (hzero.mp (of_decide_eq_true h))
    have hpower : (2 : ℚ) ^ (m.exponent.toInt - retainedBits p) =
        2 ^ (discardedBits p).toNat * 2 ^ (m.exponent.toInt - 63) := by
      rw [← zpow_natCast, ← zpow_add₀ two_ne_zero]
      congr 1
      omega
    rw [hsig, if_neg hcarry, add_zero, hval]
    refine ⟨hval ▸ hle, ?_⟩
    rw [Nat.cast_mul, Nat.cast_pow, Nat.cast_two, mul_assoc, hpower]

/-- A field word adds exponents. -/
theorem toNat_field {exp a b : BitVec 32} (hlow : 0 ≤ exp.toInt + a.toInt + b.toInt)
    (hhi : exp.toInt + a.toInt + b.toInt < 2 ^ 32) :
    ((exp + a + b).toNat : ℤ) = exp.toInt + a.toInt + b.toInt := by
  have hexponent := exp.isLt
  have ha := a.isLt
  have hb := b.isLt
  rw [BitVec.toNat_add, BitVec.toNat_add]
  rw [BitVec.toInt_eq_toNat_cond, BitVec.toInt_eq_toNat_cond, BitVec.toInt_eq_toNat_cond] at hlow hhi ⊢
  omega

/-- A normalized significand at a normal exponent. -/
theorem encodes_normal (neg : Bool) {sig : BitVec 64} (hsig : 2 ^ 63 ≤ sig.toNat)
    {field : BitVec 32} {exp : ℤ} (hlow : -16382 ≤ exp) (hhi : exp < 16384)
    (hfld : (field.toNat : ℤ) = exp + 16383) :
    Encodes ⟨sig, (signBits neg ||| field).setWidth 16⟩ neg
      (sign ℚ neg * (sig.toNat * 2 ^ (exp - 63))) := by
  have henc := encodes_fields neg sig field (by omega)
    (iff_of_true hsig (by omega))
  have hmax : (max field.toNat 1 - 16383 - 63 : ℤ) = exp - 63 := by omega
  rw [hmax] at henc
  exact henc

/-- Every retained bit. -/
theorem toNat_saturated (p : BitVec 8) :
    (shl (BitVec.allOnes 64) (discardedBits p)).toNat =
      (2 ^ (retainedBits p + 1) - 1) * 2 ^ (discardedBits p).toNat := by
  unfold retainedBits discardedBits
  dsimp only
  split
  next => decide
  next => split <;> decide

theorem toInt_least : (-16382 : BitVec 32).toInt = -16382 := by decide

/-- The distance of the subnormal grid. -/
theorem storedDistance_spec (p : BitVec 8) (exp : BitVec 32) :
    ((storedDistance (discardedBits p) exp).toNat : ℤ) + retainedBits p =
      63 + (max exp.toInt (-16382) - exp.toInt) := by
  have hadd := discardedBits_add p
  have hrng := BitVec.le_toInt exp
  unfold storedDistance
  rw [BitVec.slt, toInt_least]
  split
  next hbelow =>
    have hlt := of_decide_eq_true hbelow
    have hsub := toNat_sub_of_toInt_le (show exp.toInt ≤ (-16382 : BitVec 32).toInt by rw [toInt_least]; omega)
    rw [toInt_least] at hsub
    rw [BitVec.toNat_add]
    omega
  next hbelow =>
    have hle := not_lt.mp fun hlt => hbelow (decide_eq_true hlt)
    omega

theorem and_leading_ne_zero (sig : BitVec 64) : sig &&& LEADING ≠ 0 ↔ 2 ^ 63 ≤ sig.toNat := by
  have hsig := sig.isLt
  have hand : (sig &&& LEADING).toNat = (sig.toNat.testBit 63).toNat * 2 ^ 63 := by
    rw [BitVec.toNat_and]
    exact Nat.and_two_pow _ 63
  rw [ne_zero_iff_toNat, hand, Nat.testBit_eq_decide_div_mod_eq]
  by_cases hbit : sig.toNat / 2 ^ 63 % 2 = 1
  · rw [decide_eq_true hbit]
    exact iff_of_true (by decide) (by omega)
  · rw [decide_eq_false hbit]
    exact iff_of_false (by decide) (by omega)

/-! ## The three roundings -/

/-- On overflow the masked result is infinity or the largest value of the precision. -/
theorem round_masked_overflow (m : FiniteMagnitude) (p : BitVec 8) (r : RoundingMode) :
    let result := round m p r
    result.overflow = true →
      result.masked.inexact = true ∧
        result.masked.incremented = r.direction.overflowToInfinity m.negative ∧
        if r.direction.overflowToInfinity m.negative then
          result.masked.value = ⟨LEADING, if m.negative then 0xffff else 0x7fff⟩
        else
          Encodes result.masked.value m.negative
            (sign ℚ m.negative *
              ((2 ^ (retainedBits p + 1) - 1) * 2 ^ (16383 - retainedBits p : ℤ))) := by
  intro result hov
  have hsle : (16384 : BitVec 32).sle (exponentWord m p r) = true := hov
  have hval : result.masked =
      { value :=
          ⟨if r.overflowToInfinity m.negative then LEADING
            else shl (BitVec.allOnes 64) (discardedBits p),
            (signBits m.negative ||| if r.overflowToInfinity m.negative then 0x7fff else 0x7ffe).setWidth 16⟩
        inexact := true
        incremented := r.overflowToInfinity m.negative } := by
    simp only [result, round, hsle, if_true, Bool.true_or]
  rw [hval, r.overflowToInfinity_eq]
  refine ⟨rfl, rfl, ?_⟩
  cases r.direction.overflowToInfinity m.negative with
  | true =>
    cases m.negative with
    | false => rfl
    | true => rfl
  | false =>
    have hadd := discardedBits_add p
    have hword := toNat_saturated p
    have hpl : 2 ^ retainedBits p * 2 ^ (discardedBits p).toNat = 2 ^ 63 := by
      rw [← pow_add, Nat.add_comm, hadd]
    have hret := Nat.one_le_two_pow (n := retainedBits p)
    have hlead : 2 ^ 63 ≤ (shl (BitVec.allOnes 64) (discardedBits p)).toNat := by
      rw [hword, ← hpl]
      refine Nat.mul_le_mul_right _ ?_
      rw [pow_succ]
      omega
    have hfld : ((0x7ffe : BitVec 32).toNat : ℤ) = 16383 + 16383 := by decide
    have henc := encodes_normal m.negative hlead (by decide) (by decide) hfld
    have hpower : (2 : ℚ) ^ (16383 - retainedBits p : ℤ) = 2 ^ (discardedBits p).toNat * 2 ^ (16383 - 63 : ℤ) := by
      rw [← zpow_natCast, ← zpow_add₀ two_ne_zero]
      congr 1
      omega
    have hval : ((2 ^ (retainedBits p + 1) - 1) * 2 ^ (16383 - retainedBits p : ℤ) : ℚ) =
        (shl (BitVec.allOnes 64) (discardedBits p)).toNat * 2 ^ (16383 - 63 : ℤ) := by
      rw [hword, hpower, Nat.cast_mul, Nat.cast_pred (Nat.two_pow_pos _), Nat.cast_pow, Nat.cast_pow, Nat.cast_two,
        mul_assoc]
    rw [hval]
    exact henc

section Results

variable (hn : m.Normalized) (h : m.significand.Describes s) (hexponent : m.exponent.toInt < 2 ^ 31 - 1)
  (precision p : BitVec 8) (r : RoundingMode)

include hn h

/-- The value rounded with any exponent, at its binade. -/
theorem unbounded_value :
    let y := r.direction.roundUnbounded (retainedBits p + 1) (m.value s)
    y = sign ℚ m.negative *
        (roundedInteger m r (discardedBits p) * 2 ^ (m.exponent.toInt - retainedBits p)) ∧
      ∀ c : ℤ, 2 ^ c ≤ |y| ↔ c ≤ roundedExponent m p r := by
  obtain ⟨hy, -, -, hbinade⟩ := unbounded_spec hn h r (discardedBits_add p)
  exact ⟨hy, hbinade⟩

/-- Below the smallest binade, the subnormal grid holds the value. -/
theorem encodes_subnormal (hbelow : m.exponent.toInt < -16382) :
    Encodes
      ⟨subnormalWord m p r,
        (signBits m.negative ||| if subnormalWord m p r &&& LEADING ≠ 0 then 1 else 0).setWidth 16⟩
      m.negative (r.direction.roundBounded (retainedBits p + 1) (-16382) (m.value s)) := by
  have hadd := discardedBits_add p
  have hdist := storedDistance_spec p m.exponent
  rw [max_eq_right hbelow.le] at hdist
  have hle := roundedInteger_le (m := m) (p := retainedBits p) r
    (show 63 < (storedDistance (discardedBits p) m.exponent).toNat + retainedBits p by omega)
  have hpl := Nat.mul_le_mul_right (2 ^ (discardedBits p).toNat) hle
  rw [← pow_add, Nat.add_comm (retainedBits p), hadd] at hpl
  have hword : (subnormalWord m p r).toNat =
      roundedInteger m r (storedDistance (discardedBits p) m.exponent) *
        2 ^ (discardedBits p).toNat := by
    unfold subnormalWord stored
    rw [toNat_shl _ (by omega), toNat_round_integer, Nat.mod_mul_mod]
    exact Nat.mod_eq_of_lt (Nat.lt_of_le_of_lt hpl (by decide))
  have hval : r.direction.roundBounded (retainedBits p + 1) (-16382) (m.value s) =
      sign ℚ m.negative * ((subnormalWord m p r).toNat * 2 ^ (1 - 16383 - 63 : ℤ)) := by
    have hpower : (2 : ℚ) ^ (-16382 - retainedBits p : ℤ) =
        2 ^ (discardedBits p).toNat * 2 ^ (1 - 16383 - 63 : ℤ) := by
      rw [← zpow_natCast, ← zpow_add₀ two_ne_zero]
      congr 1
      omega
    rw [(bounded_spec hn h r (storedDistance_spec p m.exponent)).1, max_eq_right hbelow.le, hword, hpower,
      Nat.cast_mul, Nat.cast_pow, Nat.cast_two, mul_assoc]
  rw [hval]
  by_cases hlead : 2 ^ 63 ≤ (subnormalWord m p r).toNat
  · rw [if_pos ((and_leading_ne_zero _).mpr hlead)]
    exact encodes_fields m.negative _ 1 (by decide) (iff_of_true hlead (by decide))
  · rw [if_neg (mt (and_leading_ne_zero _).mp hlead)]
    exact encodes_fields m.negative _ 0 (by decide) (iff_of_false hlead (by decide))

include hexponent

/-- The value scaled into the range has the rounded significand at its exponent. -/
theorem encodes_scaled {a : BitVec 32} {scale : ℤ} (ha : a.toInt = scale)
    (hlow : -16382 ≤ roundedExponent m p r + scale)
    (hhi : roundedExponent m p r + scale < 16384) :
    Encodes
      ⟨significandWord m p r, (signBits m.negative ||| (exponentWord m p r + 16383 + a)).setWidth 16⟩
      m.negative (r.direction.roundUnbounded (retainedBits p + 1) (m.value s) * 2 ^ scale) := by
  obtain ⟨hexp, hsig, hval⟩ := significand_value hn hexponent p r
  have hbias : (16383 : BitVec 32).toInt = 16383 := by decide
  have hfld : ((exponentWord m p r + 16383 + a).toNat : ℤ) = roundedExponent m p r + scale + 16383 := by
    rw [toNat_field (by rw [hexp]; omega) (by rw [hexp]; omega), hexp, hbias, ha]
    ring
  have henc := encodes_normal m.negative hsig hlow hhi hfld
  have hscaled : r.direction.roundUnbounded (retainedBits p + 1) (m.value s) * 2 ^ scale =
      sign ℚ m.negative *
        ((significandWord m p r).toNat * 2 ^ (roundedExponent m p r + scale - 63)) := by
    rw [(unbounded_value hn h p r).1, hval, mul_assoc, mul_assoc, ← zpow_add₀ two_ne_zero]
    congr 3
    ring
  rw [hscaled]
  exact henc

/-- The value in the range has the rounded significand at its own exponent. -/
theorem encodes_inRange (hlow : -16382 ≤ m.exponent.toInt) (hhi : roundedExponent m p r < 16384) :
    Encodes
      ⟨significandWord m p r, (signBits m.negative ||| (exponentWord m p r + 16383)).setWidth 16⟩
      m.negative (r.direction.roundUnbounded (retainedBits p + 1) (m.value s)) := by
  have hcarry : m.exponent.toInt ≤ roundedExponent m p r := by
    unfold roundedExponent
    split <;> omega
  have henc := encodes_scaled hn h hexponent p r (show (0 : BitVec 32).toInt = 0 from rfl)
    (by omega) (by omega)
  have hfld : exponentWord m p r + 16383 + 0 = exponentWord m p r + 16383 :=
    BitVec.add_zero _
  rw [zpow_zero, mul_one, hfld] at henc
  exact henc

/-- Range evidence is about the value rounded with any exponent. -/
theorem round_range :
    let result := round m p r
    let y := r.direction.roundUnbounded (retainedBits p + 1) (m.value s)
    (result.overflow = true ↔ (2 : ℚ) ^ (16384 : ℤ) ≤ |y|) ∧ (result.tiny = true ↔ |y| < (2 : ℚ) ^ (-16382 : ℤ)) := by
  intro result y
  obtain ⟨hexp, -, -⟩ := significand_value hn hexponent p r
  have hbinade := (unbounded_value hn h p r).2
  constructor
  · show BitVec.sle _ _ = true ↔ _
    rw [BitVec.sle, decide_eq_true_iff, hexp]
    exact (hbinade 16384).symm
  · show BitVec.slt _ _ = true ↔ _
    rw [BitVec.slt, decide_eq_true_iff, hexp, toInt_least, ← not_le, ← not_le]
    exact not_congr (hbinade (-16382)).symm

/-- The in-range candidate is the rounded value where neither end of the range is met. -/
theorem round_inRange :
    let result := round m p r
    let x := m.value s
    let y := r.direction.roundUnbounded (retainedBits p + 1) x
    (result.inRange.valid = true ↔ (2 : ℚ) ^ (-16382 : ℤ) ≤ |x| ∧ |y| < (2 : ℚ) ^ (16384 : ℤ)) ∧
      (result.inRange.valid = true → Encodes result.inRange.rounded.value m.negative y) ∧
      (result.inRange.rounded.inexact = true ↔ y ≠ x) ∧ (result.inRange.rounded.incremented = true ↔ |x| < |y|) := by
  intro result x y
  obtain ⟨-, hinex, hinc, -⟩ := unbounded_spec hn h r (discardedBits_add p)
  obtain ⟨hov, -⟩ := round_range hn h hexponent p r
  have hbinade := (unbounded_value hn h p r).2
  have hlog := Int.zpow_le_iff_le_log one_lt_two (abs_value_pos hn h) (x := -16382)
  rw [log_value hn h] at hlog
  have hvalid : result.inRange.valid = true ↔ (2 : ℚ) ^ (-16382 : ℤ) ≤ |x| ∧ |y| < (2 : ℚ) ^ (16384 : ℤ) := by
    show (!(BitVec.slt _ _ || result.overflow)) = true ↔ _
    rw [Bool.not_eq_true', Bool.or_eq_false_iff, ← Bool.not_eq_true, ← Bool.not_eq_true, hov, not_le, BitVec.slt,
      decide_eq_true_iff, toInt_least, not_lt, ← hlog]
    rfl
  refine ⟨hvalid, fun hin => ?_, hinex, hinc⟩
  obtain ⟨hlow, hhi⟩ := hvalid.mp hin
  have hlow' := hlog.mp hlow
  have hhi' := mt (hbinade 16384).mpr (not_le.mpr hhi)
  exact encodes_inRange hn h hexponent p r hlow' (not_le.mp hhi')

/-- The masked result rounds on the grid of the smallest binade. -/
theorem round_masked :
    let result := round m p r
    let x := m.value s
    let z := r.direction.roundBounded (retainedBits p + 1) (-16382) x
    result.overflow = false →
      Encodes result.masked.value m.negative z ∧ (result.masked.inexact = true ↔ z ≠ x) ∧
        (result.masked.incremented = true ↔ |x| < |z|) := by
  intro result x z hov
  obtain ⟨hz, hinex, hinc⟩ := bounded_spec hn h r (storedDistance_spec p m.exponent)
  have hval : result.masked =
      { value :=
          ⟨if m.exponent.slt (-16382) then subnormalWord m p r else significandWord m p r,
            (signBits m.negative |||
              if m.exponent.slt (-16382) then (if subnormalWord m p r &&& LEADING ≠ 0 then 1 else 0)
              else exponentWord m p r + 16383).setWidth 16⟩
        inexact := (stored m p r).inexact
        incremented := (stored m p r).incremented } := by
    have hnot : (16384 : BitVec 32).sle (exponentWord m p r) = false := hov
    simp only [result, round, hnot, Bool.false_eq_true, if_false, Bool.false_or]
  rw [hval]
  refine ⟨?_, hinex, hinc⟩
  have hrng : ¬ 16384 ≤ roundedExponent m p r := by
    rw [← (significand_value hn hexponent p r).1]
    exact of_decide_eq_false hov
  by_cases hbelow : m.exponent.toInt < -16382
  · have hslt : m.exponent.slt (-16382) = true := decide_eq_true (toInt_least ▸ hbelow)
    rw [hslt]
    exact encodes_subnormal hn h p r hbelow
  · have hslt : m.exponent.slt (-16382) = false := decide_eq_false (toInt_least ▸ hbelow)
    have hdist : storedDistance (discardedBits p) m.exponent = discardedBits p :=
      if_neg (Bool.eq_false_iff.mp hslt)
    have hzy : z = r.direction.roundUnbounded (retainedBits p + 1) (m.value s) := by
      show r.direction.roundBounded _ _ _ = _
      rw [hz, hdist, max_eq_left (not_lt.mp hbelow), (unbounded_value hn h p r).1]
    rw [hslt, hzy]
    exact encodes_inRange hn h hexponent p r (not_lt.mp hbelow) (not_le.mp hrng)

/-- The adjusted result is the rounded value scaled into the range. -/
theorem round_adjusted :
    let res := round m p r
    let x := m.value s
    let y := r.direction.roundUnbounded (retainedBits p + 1) x
    let adjusted := y * 2 ^ (if res.overflow then -24576 else if res.tiny then 24576 else 0 : ℤ)
    ((2 : ℚ) ^ (-16382 : ℤ) ≤ |adjusted| → |adjusted| < (2 : ℚ) ^ (16384 : ℤ) →
        Encodes res.adjusted.value m.negative adjusted) ∧
      (res.adjusted.inexact = true ↔ y ≠ x) ∧ (res.adjusted.incremented = true ↔ |x| < |y|) := by
  intro res x y adjusted
  obtain ⟨-, hinex, hinc, -⟩ := unbounded_spec hn h r (discardedBits_add p)
  have hbinade := (unbounded_value hn h p r).2
  refine ⟨fun hlow hhi => ?_, hinex, hinc⟩
  have hadjustment : (if res.overflow then -24576 else if res.tiny then 24576 else 0 : BitVec 32).toInt =
      if res.overflow then -24576 else if res.tiny then 24576 else 0 := by
    generalize res.overflow = overflow
    generalize res.tiny = tiny
    revert overflow tiny
    decide
  have hscaled (scale : ℤ) : |y * 2 ^ scale| = |y| * 2 ^ scale := by
    rw [abs_mul, abs_of_pos (zpow_pos (two_pos (α := ℚ)) scale)]
  have hsh (c scale : ℤ) : (2 : ℚ) ^ c ≤ |y| * 2 ^ scale ↔ c ≤ roundedExponent m p r + scale := by
    have hpower : (2 : ℚ) ^ c = 2 ^ (c - scale) * 2 ^ scale := by
      rw [← zpow_add₀ two_ne_zero]
      congr 1
      ring
    rw [hpower, mul_le_mul_iff_left₀ (zpow_pos two_pos scale), hbinade]
    omega
  rw [hscaled] at hlow hhi
  exact encodes_scaled hn h hexponent p r hadjustment ((hsh _ _).mp hlow)
    (not_le.mp fun hle => not_le.mpr hhi ((hsh _ _).mpr hle))

end Results

/-! ## Single rounding -/

/-- The bits of a precision control. -/
def precisionBits (precision : BitVec 8) : ℕ :=
  if precision &&& 3 = 0 then 24 else if precision &&& 3 = 2 then 53 else 64

theorem retainedBits_succ (p : BitVec 8) : retainedBits p + 1 = precisionBits p := by
  unfold retainedBits precisionBits discardedBits
  dsimp only
  split
  next => rfl
  next => split <;> rfl

/-- A result gives the single rounding of an exact value: with any exponent for the range and its candidate, on the
grid of the smallest binade for the masked response, and scaled for the unmasked one. -/
structure RoundsOnce (result : ArithmeticResult) (d : Direction) (bits : ℕ) (negative : Bool) (x : ℚ) : Prop where
  overflow_iff : result.overflow = true ↔ (2 : ℚ) ^ (16384 : ℤ) ≤ |d.roundUnbounded bits x|
  tiny_iff : result.tiny = true ↔ |d.roundUnbounded bits x| < (2 : ℚ) ^ (-16382 : ℤ)
  valid_iff : result.inRange.valid = true ↔
    (2 : ℚ) ^ (-16382 : ℤ) ≤ |x| ∧ |d.roundUnbounded bits x| < (2 : ℚ) ^ (16384 : ℤ)
  inRange : result.inRange.valid = true → Encodes result.inRange.rounded.value negative (d.roundUnbounded bits x)
  inRange_inexact : result.inRange.rounded.inexact = true ↔ d.roundUnbounded bits x ≠ x
  inRange_incremented : result.inRange.rounded.incremented = true ↔ |x| < |d.roundUnbounded bits x|
  masked : result.overflow = false →
    Encodes result.masked.value negative (d.roundBounded bits (-16382) x) ∧
      (result.masked.inexact = true ↔ d.roundBounded bits (-16382) x ≠ x) ∧
      (result.masked.incremented = true ↔ |x| < |d.roundBounded bits (-16382) x|)
  masked_overflow : result.overflow = true →
    result.masked.inexact = true ∧ result.masked.incremented = d.overflowToInfinity negative ∧
      if d.overflowToInfinity negative then result.masked.value = ⟨LEADING, if negative then 0xffff else 0x7fff⟩
      else
        Encodes result.masked.value negative (sign ℚ negative * ((2 ^ bits - 1) * 2 ^ (16384 - bits : ℤ)))
  adjusted :
    let scaled := d.roundUnbounded bits x *
      2 ^ (if result.overflow then -24576 else if result.tiny then 24576 else 0 : ℤ)
    (2 : ℚ) ^ (-16382 : ℤ) ≤ |scaled| → |scaled| < (2 : ℚ) ^ (16384 : ℤ) →
      Encodes result.adjusted.value negative scaled
  adjusted_inexact : result.adjusted.inexact = true ↔ d.roundUnbounded bits x ≠ x
  adjusted_incremented : result.adjusted.incremented = true ↔ |x| < |d.roundUnbounded bits x|

theorem round_roundsOnce (hn : m.Normalized) (h : m.significand.Describes s)
    (hexponent : m.exponent.toInt < 2 ^ 31 - 1) (p : BitVec 8) (r : RoundingMode) :
    RoundsOnce (round m p r) r.direction (precisionBits p) m.negative (m.value s) := by
  obtain ⟨hov, htiny⟩ := round_range hn h hexponent p r
  obtain ⟨hvalid, hinRange, hinex, hinc⟩ := round_inRange hn h hexponent p r
  obtain ⟨hadjusted, hadjusted', hadjusted''⟩ := round_adjusted hn h hexponent p r
  have hlargest : (16384 - precisionBits p : ℤ) = 16383 - retainedBits p := by
    rw [← retainedBits_succ]
    push_cast
    ring
  have hmasked := round_masked_overflow m p r
  rw [← hlargest] at hmasked
  have hstored := round_masked hn h hexponent p r
  rw [retainedBits_succ] at *
  exact ⟨hov, htiny, hvalid, hinRange, hinex, hinc, hstored, hmasked, hadjusted, hadjusted', hadjusted''⟩

/-- Below the largest exponent of the words, every rounding of a normalized magnitude is single and correct, and
shifted evidence describes the exact quotient. -/
theorem rounded_once {m : FiniteMagnitude} {s : ℚ} (hn : m.Normalized) (h : m.significand.Describes s)
    (hexponent : m.exponent.toInt < 2 ^ 31 - 1) (rounding : RoundingMode) :
    (∀ distance, (m.significand.shiftRight distance).Describes (s / 2 ^ distance.toNat)) ∧
      (∀ precision, RoundsOnce (round m precision rounding) rounding.direction (precisionBits precision) m.negative
        (m.value s)) ∧
      ∀ format,
        Floating.RoundsOnce format (roundBinary format m rounding true) rounding.direction true (m.value s) ∧
        if rounding.direction.overflowToInfinity m.negative then
          (overflowMagnitude format rounding m.negative).toNat = format.infinity.toNat
        else
          (overflowMagnitude format rounding m.negative).toNat < format.infinity.toNat ∧
            format.decode (overflowMagnitude format rounding m.negative) =
              (2 ^ (format.fractionBits + 1) - 1) * 2 ^ (format.bias - format.fractionBits : ℤ) :=
  ⟨shiftRight_describes h, fun precision => round_roundsOnce hn h hexponent precision rounding, fun format =>
    ⟨roundBinary_roundsOnce hn h hexponent rounding format true, overflowMagnitude_spec format rounding m.negative⟩⟩

/-- A value just below the next binade. -/
def belowBinade (exponent : BitVec 32) : FiniteMagnitude := ⟨⟨BitVec.allOnes 64, true, false⟩, exponent, false⟩

theorem belowBinade_describes (exponent : BitVec 32) :
    (belowBinade exponent).significand.Describes ((2 ^ 65 - 1 : ℕ) / 2 ^ (0 + 1) : ℚ) := by
  have hint : (BitVec.allOnes 64).toNat = (2 ^ 65 - 1) / 2 ^ (0 + 1) := by decide
  show Describes (BitVec.allOnes 64).toNat true false _
  rw [hint]
  exact Describes.div_pow (Describes.exact (2 ^ 65 - 1)) 0

/-- The guard carries a value at an exponent of zero into the next binade. -/
theorem belowBinade_rounded :
    RoundsOnce (round (belowBinade 0) 3 (RoundingMode.new 0)) (RoundingMode.new 0).direction (precisionBits 3) false
      ((belowBinade 0).value ((2 ^ 65 - 1 : ℕ) / 2 ^ (0 + 1) : ℚ)) ∧
      (round (belowBinade 0) 3 (RoundingMode.new 0)).inRange.rounded = ⟨⟨LEADING, 0x4000⟩, true, true⟩ :=
  ⟨(rounded_once (m := belowBinade 0) (show 2 ^ 63 ≤ (belowBinade 0).significand.integer.toNat by decide)
    (belowBinade_describes 0) (by decide) (RoundingMode.new 0)).2.1 3, rfl⟩

/-- At the largest exponent that a word holds. -/
def largest : FiniteMagnitude := belowBinade 0x7fffffff

/-- There the carry leaves the words, and an overflow is not seen. -/
theorem largest_overflow_missed :
    ¬ ∀ (m : FiniteMagnitude) (s : ℚ), m.Normalized → m.significand.Describes s →
      ∀ (precision : BitVec 8) (rounding : RoundingMode),
        RoundsOnce (round m precision rounding) rounding.direction (precisionBits precision) m.negative (m.value s) := by
  intro hall
  have hn : largest.Normalized := show 2 ^ 63 ≤ largest.significand.integer.toNat by decide
  have hround := (hall largest _ hn (belowBinade_describes _) 3 (RoundingMode.new 0)).overflow_iff
  have hbinade := (unbounded_value hn (belowBinade_describes _) 3 (RoundingMode.new 0)).2 16384
  rw [retainedBits_succ] at hbinade
  have hexponent : roundedExponent largest 3 (RoundingMode.new 0) = 2 ^ 31 := by decide
  have hmissed : (round largest 3 (RoundingMode.new 0)).overflow = false := by decide
  rw [hmissed, hbinade, hexponent] at hround
  exact Bool.false_ne_true (hround.mpr (by decide))

end Relocade.X87
