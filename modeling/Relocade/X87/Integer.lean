import Mathlib.Data.Nat.Cast.Order.Field
import Relocade.X87.Value

/-!
# `X87.Integer` — exact integer expansion and bounded rounding

An integer expands to a normal value or a zero of its own magnitude. A value is rounded to a magnitude once, and its
range is judged after that (`toIntegerMagnitude_spec`), so that the asymmetric limits of a signed destination are met
exactly (`toSignedInteger_spec`).
-/

namespace Relocade.X87

open Rounding Floating

/-! ## Results -/

/-- Result bits and the conditions found in converting to a destination's format. -/
structure ConversionResult (Bits : Type) where
  bits : Bits
  invalid : Bool
  overflow : Bool
  tiny : Bool
  inexact : Bool
  incremented : Bool

/-- Changes the destination encoding without changing exception evidence. -/
def ConversionResult.mapBits {Bits Encoded : Type} (result : ConversionResult Bits) (encode : Bits → Encoded) :
    ConversionResult Encoded :=
  { result with bits := encode result.bits }

/-! ## Integers -/

inductive MemoryInt where
  | i8
  | i16
  | i32
  | i64
  deriving DecidableEq, Repr

namespace MemoryInt

def bytes : MemoryInt → ℕ
  | .i8 => 1
  | .i16 => 2
  | .i32 => 4
  | .i64 => 8

def width (type : MemoryInt) : ℕ := type.bytes * 8

def signBit (type : MemoryInt) : BitVec 64 := (1 : BitVec 64) <<< (type.bytes * 8 - 1)

theorem width_le (type : MemoryInt) : 0 < type.width ∧ type.width ≤ 64 := by cases type <;> decide

end MemoryInt

/-- Exact integer expansion keeps a separate sign, so that decimal −0 survives. -/
def ExtendedBits.fromIntegerMagnitude (magnitude : BitVec 64) (negative : Bool) : ExtendedBits :=
  let shift := magnitude.clz.setWidth 32
  let exponent := if magnitude = 0 then 0 else 16383 + 63 - shift
  { significand := shl magnitude shift
    signExponent := ((if negative then 0x8000 else 0) ||| exponent).setWidth 16 }

/-- E=0 uses the same exponent as E=1, including pseudo-denormals. -/
def ExtendedBits.effectiveExponent (bits : ExtendedBits) : BitVec 32 :=
  if bits.exponentField.setWidth 32 = (0 : BitVec 32) then 1 else bits.exponentField.setWidth 32

namespace RepresentedValue

/-- The magnitude of a signed integer. Wrapping negation preserves that of the least one. -/
def signedMagnitude (integer : BitVec 64) : BitVec 64 := if integer.slt 0 then 0 - integer else integer

def fromSignedInteger {type : MemoryInt} (integer : BitVec type.width) : RepresentedValue :=
  let integer := integer.signExtend 64
  let negative := integer.slt 0
  let bits := ExtendedBits.fromIntegerMagnitude (signedMagnitude integer) negative
  (fromBits bits).assumeClass (if integer = 0 then .zero else .normal)

variable (value : RepresentedValue) (rounding : RoundingMode)

/-- Checks the rounded magnitude against the destination's limit. -/
def toIntegerMagnitude (limit : BitVec 64) : ConversionResult (BitVec 64) :=
  let unsupported := value.classification.unsupported
  let bits := value.bits
  let exponent := bits.effectiveExponent
  let tooLarge := (16383 + 64 : BitVec 32).ule exponent
  let distance := if tooLarge then 0 else 16383 + 63 - exponent
  let rounded := rounding.round ((RoundingInput.exact bits.significand).shiftRight distance) bits.negative
  -- A fractional input can cross the limit.
  let invalid := unsupported || tooLarge || limit.ult rounded.integer
  { bits := rounded.integer
    invalid
    overflow := false
    tiny := false
    inexact := !invalid && rounded.inexact
    incremented := !invalid && rounded.incremented }

def toSignedInteger (type : MemoryInt) : ConversionResult (BitVec 64) :=
  let negative := value.bits.negative
  let limit := if negative then type.signBit else type.signBit - 1
  let result := value.toIntegerMagnitude rounding limit
  result.mapBits fun magnitude =>
    let integer := if negative then 0 - magnitude else magnitude
    if result.invalid then type.signBit else integer

end RepresentedValue

/-! ## Expanded integers -/

/-- An expanded magnitude is a normal value or a zero. -/
theorem fromIntegerMagnitude_spec (mag : BitVec 64) (neg : Bool) :
    let bits := ExtendedBits.fromIntegerMagnitude mag neg
    bits.negative = neg ∧ bits.magnitude = mag.toNat ∧ bits.Finite ∧
      Classification.extended bits = .known (if mag = 0 then .zero else .normal) := by
  intro bits
  by_cases hz : mag = 0
  · subst hz
    have hsig : bits.significand = 0 := by
      show shl 0 ((0 : BitVec 64).clz.setWidth 32) = 0
      decide
    obtain ⟨hsign, hfld⟩ := @signExponent_fields neg 0 (by decide)
    have hfld : bits.exponentField = 0 := BitVec.eq_of_toNat_eq hfld
    rw [if_pos rfl]
    refine ⟨?_, ?_, ⟨?_, Or.inl hfld⟩, Classification.extended_zero hsig hfld⟩
    · rw [ExtendedBits.negative_eq]
      exact hsign
    · rw [ExtendedBits.magnitude, hsig]
      exact zero_mul _
    · rw [hfld]
      decide
  · obtain ⟨hsh, hword, hlead⟩ := normalize_spec hz
    have hbits : bits = ⟨shl mag (mag.clz.setWidth 32),
        (signBits neg ||| (16383 + 63 - mag.clz.setWidth 32)).setWidth 16⟩ := by
      show ExtendedBits.mk _ (BitVec.setWidth 16 ((if neg then 0x8000 else 0) |||
        if mag = 0 then 0 else 16383 + 63 - mag.clz.setWidth 32)) = _
      rw [if_neg hz]
      rfl
    generalize mag.clz.setWidth 32 = shift at *
    have hexp : (16383 + 63 - shift : BitVec 32).toNat = 16446 - shift.toNat := by
      have hconst : (16383 + 63 : BitVec 32).toNat = 16446 := by decide
      rw [BitVec.toNat_sub_of_le, hconst]
      rw [BitVec.le_def, hconst]
      omega
    obtain ⟨hsign, hfld⟩ := @signExponent_fields neg (16383 + 63 - shift) (by omega)
    have hfld : bits.exponentField.toNat = 16446 - shift.toNat := by
      rw [hbits, ← hexp]
      exact hfld
    have hsig : bits.significand = shl mag shift := by rw [hbits]
    have hne : bits.exponentField ≠ 0 := by
      intro h
      rw [h] at hfld
      exact absurd hfld (show (0 : ℕ) ≠ _ by omega)
    have hspec : bits.exponentField ≠ 0x7fff := by
      intro h
      rw [h] at hfld
      exact absurd hfld (show (0x7fff : ℕ) ≠ _ by omega)
    have hlead' : 2 ^ 63 ≤ bits.significand.toNat := by rwa [hsig]
    rw [if_neg hz]
    refine ⟨?_, ?_, ⟨hspec, Or.inr hlead'⟩, Classification.extended_normal hlead' hne hspec⟩
    · rw [ExtendedBits.negative_eq, hbits]
      exact hsign
    · have hmax : (max bits.exponentField.toNat 1 - 16383 - 63 : ℤ) = -(shift.toNat : ℤ) := by omega
      rw [ExtendedBits.magnitude, hmax, hsig, hword, zpow_neg, zpow_natCast, Nat.cast_mul, Nat.cast_pow,
        Nat.cast_two, mul_inv_cancel_right₀ (pow_ne_zero _ two_ne_zero)]

theorem toNat_signedMagnitude (integer : BitVec 64) :
    (RepresentedValue.signedMagnitude integer).toNat = integer.toInt.natAbs := by
  have hint := integer.isLt
  unfold RepresentedValue.signedMagnitude
  rw [BitVec.slt, show (0 : BitVec 64).toInt = 0 from rfl]
  split
  next hnegative =>
    have hlt := of_decide_eq_true hnegative
    rw [BitVec.toNat_sub, show (0 : BitVec 64).toNat = 0 from rfl]
    rw [BitVec.toInt_eq_toNat_cond] at hlt ⊢
    omega
  next hnegative =>
    have hge := not_lt.mp fun hlt => hnegative (decide_eq_true hlt)
    rw [BitVec.toInt_eq_toNat_cond] at hge ⊢
    omega

/-- A signed value is its sign and its magnitude. -/
theorem sign_mul_natAbs (n : ℤ) : sign ℚ (decide (n < 0)) * n.natAbs = n := by
  by_cases hneg : n < 0
  · rw [decide_eq_true hneg, sign, if_pos rfl, neg_one_mul, ← Int.cast_natCast, ← Int.cast_neg,
      Int.ofNat_natAbs_of_nonpos hneg.le, neg_neg]
  · rw [decide_eq_false hneg, sign, if_neg Bool.false_ne_true, one_mul, ← Int.cast_natCast,
      Int.natAbs_of_nonneg (not_lt.mp hneg)]

/-- An expanded integer has its own value, and the class that is assumed for it. -/
theorem fromSignedInteger_spec {type : MemoryInt} (integer : BitVec type.width) :
    (RepresentedValue.fromSignedInteger integer).Sound ∧ (RepresentedValue.fromSignedInteger integer).bits.Finite ∧
      (RepresentedValue.fromSignedInteger integer).bits.decode = integer.toInt := by
  obtain ⟨hsign, hmag, hfinite, hclass⟩ :=
    fromIntegerMagnitude_spec (RepresentedValue.signedMagnitude (integer.signExtend 64)) ((integer.signExtend 64).slt 0)
  have hval : (integer.signExtend 64).toInt = integer.toInt := BitVec.toInt_signExtend_of_le type.width_le.2
  have hz : RepresentedValue.signedMagnitude (integer.signExtend 64) = 0 ↔ integer.signExtend 64 = 0 := by
    rw [← BitVec.toNat_inj, toNat_signedMagnitude, ← BitVec.toInt_inj]
    exact Int.natAbs_eq_zero
  refine ⟨?_, hfinite, ?_⟩
  · show Classification.known _ = Classification.extended _
    rw [← if_congr hz rfl rfl]
    exact hclass.symm
  · rw [ExtendedBits.decode_eq]
    show sign ℚ (ExtendedBits.fromIntegerMagnitude _ _).negative * (ExtendedBits.fromIntegerMagnitude _ _).magnitude = _
    rw [hsign, hmag, toNat_signedMagnitude, hval, BitVec.slt, hval]
    exact sign_mul_natAbs integer.toInt

/-! ## Rounding to a magnitude -/

theorem toNat_effectiveExponent (bits : ExtendedBits) :
    bits.effectiveExponent.toNat = max bits.exponentField.toNat 1 := by
  have hlt := bits.exponentField_lt
  have hword : (bits.exponentField.setWidth 32).toNat = bits.exponentField.toNat := by
    rw [BitVec.toNat_setWidth]
    exact Nat.mod_eq_of_lt (by omega)
  unfold ExtendedBits.effectiveExponent
  split
  next hz =>
    rw [hz] at hword
    rw [← hword]
    rfl
  next hz =>
    have hne : bits.exponentField.toNat ≠ 0 := fun heq => hz (BitVec.eq_of_toNat_eq (hword.trans heq))
    rw [hword]
    omega

theorem roundAt_zero (d : Direction) (x : ℚ) : d.roundAt 0 x = d.round x := by
  rw [Direction.roundAt, zpow_zero, div_one, mul_one]

theorem natAbs_sign_mul (neg : Bool) (n : ℕ) : (sign ℤ neg * n).natAbs = n := by
  cases neg with
  | false => rw [sign, if_neg Bool.false_ne_true, one_mul, Int.natAbs_natCast]
  | true => rw [sign, if_pos rfl, neg_one_mul, Int.natAbs_neg, Int.natAbs_natCast]

theorem cast_sign (neg : Bool) : ((sign ℤ neg : ℤ) : ℚ) = sign ℚ neg := by
  cases neg <;> rfl

/-- The largest shift leaves every integer place, and rounding does not wrap. -/
theorem roundedInteger_lt (bits : ExtendedBits) (rounding : RoundingMode) (dist : BitVec 32) (neg : Bool) :
    ((RoundingInput.exact bits.significand).shiftRight dist).integer.toNat +
        (rounding.round ((RoundingInput.exact bits.significand).shiftRight dist) neg).incremented.toNat <
      2 ^ 64 := by
  have hlt := bits.significand.isLt
  have hbit := Bool.toNat_le
    (rounding.round ((RoundingInput.exact bits.significand).shiftRight dist) neg).incremented
  by_cases hz : dist = 0
  · rw [hz, shiftRight_zero, rounding.round_incremented]
    have hincs : rounding.direction.increments neg false false
        (decide (bits.significand.toNat % 2 = 1)) = false :=
      Bool.eq_false_iff.mpr fun h => absurd (Direction.inexact_of_increments h) Bool.false_ne_true
    rw [show (RoundingInput.exact bits.significand).guard = false from rfl,
      show (RoundingInput.exact bits.significand).sticky = false from rfl,
      show (RoundingInput.exact bits.significand).integer = bits.significand from rfl, hincs]
    exact hlt
  · have hpos : dist.toNat ≠ 0 := fun h => hz (BitVec.eq_of_toNat_eq h)
    have hhalf : bits.significand.toNat / 2 ^ dist.toNat ≤ bits.significand.toNat / 2 :=
      Nat.div_le_div_left (Nat.le_self_pow hpos 2) two_pos
    have hint := toNat_shiftRight_integer (RoundingInput.exact bits.significand) dist
    rw [show (RoundingInput.exact bits.significand).integer = bits.significand from rfl] at hint
    omega

/-- The encoding's own significand over its own exponent. -/
def ExtendedBits.unrounded (bits : ExtendedBits) : FiniteMagnitude where
  significand := .exact bits.significand
  exponent := bits.effectiveExponent - 16383
  negative := bits.negative

theorem toInt_unrounded_exponent (bits : ExtendedBits) :
    bits.unrounded.exponent.toInt = max bits.exponentField.toNat 1 - 16383 := by
  have hlt := bits.exponentField_lt
  have hexp := toNat_effectiveExponent bits
  have hsmall := toInt_of_toNat_lt (x := bits.effectiveExponent) (by omega)
  have hbias : (16383 : BitVec 32).toInt = 16383 := by decide
  show (bits.effectiveExponent - 16383).toInt = _
  rw [toInt_sub_of_fits (by omega) (by omega), hbias, hsmall, hexp]

theorem unrounded_value (bits : ExtendedBits) : bits.unrounded.value bits.significand.toNat = bits.decode := by
  rw [FiniteMagnitude.value, toInt_unrounded_exponent, ExtendedBits.decode_eq, ExtendedBits.magnitude]
  rfl

variable {value : RepresentedValue}

/-- Rounding an encoding at the units of an integer. -/
theorem round_units (bits : ExtendedBits) (rounding : RoundingMode) {dist : BitVec 32}
    (hdist : dist.toNat + max bits.exponentField.toNat 1 = 16446) :
    let rounded := rounding.round ((RoundingInput.exact bits.significand).shiftRight dist) bits.negative
    let y := rounding.direction.round bits.decode
    y = sign ℤ bits.negative * rounded.integer.toNat ∧ (rounded.inexact = true ↔ (y : ℚ) ≠ bits.decode) ∧
      (rounded.incremented = true ↔ |bits.decode| < |(y : ℚ)|) := by
  intro rounded y
  have hexp := toInt_unrounded_exponent bits
  have hunits : (0 : ℤ) = bits.unrounded.exponent.toInt - 63 + dist.toNat := by
    rw [hexp]
    omega
  obtain ⟨hy, hinex, hinc⟩ :=
    round_shiftRight (m := bits.unrounded) (exact_describes bits.significand) rounding dist hunits
  rw [unrounded_value, roundAt_zero] at hy hinex hinc
  rw [zpow_zero, mul_one] at hy
  have hint : rounded.integer.toNat = roundedInteger bits.unrounded rounding dist := by
    show (rounding.round _ _).integer.toNat = _
    rw [toNat_round_integer]
    exact Nat.mod_eq_of_lt (roundedInteger_lt bits rounding dist bits.negative)
  refine ⟨?_, hinex, hinc⟩
  rw [hint]
  have hcast : ((sign ℤ bits.negative * (roundedInteger bits.unrounded rounding dist : ℤ) : ℤ) : ℚ) = (y : ℚ) := by
    rw [Int.cast_mul, cast_sign, Int.cast_natCast]
    exact hy.symm
  exact_mod_cast hcast.symm

/-- An exponent of `2 ^ 64` or more makes an integer that no destination contains. -/
theorem round_tooLarge {bits : ExtendedBits} (h : bits.Finite) (hlarge : 16447 ≤ max bits.exponentField.toNat 1)
    (d : Direction) : 2 ^ 64 ≤ (d.round bits.decode).natAbs := by
  have hfld : bits.exponentField ≠ 0 := by
    intro hz
    rw [hz] at hlarge
    exact absurd hlarge (by decide)
  have hlead := h.supported.resolve_left hfld
  obtain ⟨j, hj⟩ := Nat.exists_eq_add_of_le hlarge
  have hexp : (max bits.exponentField.toNat 1 - 16383 - 63 : ℤ) = ((j + 1 : ℕ) : ℤ) := by omega
  have hint : bits.decode =
      ((sign ℤ bits.negative * ((bits.significand.toNat * 2 ^ (j + 1) : ℕ) : ℤ) : ℤ) : ℚ) := by
    rw [ExtendedBits.decode_eq, ExtendedBits.magnitude, hexp, zpow_natCast, Int.cast_mul, cast_sign]
    push_cast
    rfl
  rw [hint, d.round_intCast, natAbs_sign_mul]
  calc 2 ^ 64 = 2 ^ 63 * 2 ^ 1 := rfl
    _ ≤ bits.significand.toNat * 2 ^ (j + 1) :=
      Nat.mul_le_mul hlead (Nat.pow_le_pow_right two_pos (Nat.succ_le_succ (Nat.zero_le j)))

/-- Below that, the distance to the units is what is left of the exponent. -/
theorem toIntegerMagnitude_eq (hlarge : (16383 + 64 : BitVec 32).ule value.bits.effectiveExponent = false)
    (rounding : RoundingMode) (limit : BitVec 64) :
    value.toIntegerMagnitude rounding limit =
      let rounded := rounding.round ((RoundingInput.exact value.bits.significand).shiftRight
        (16383 + 63 - value.bits.effectiveExponent)) value.bits.negative
      let invalid := value.classification.unsupported || limit.ult rounded.integer
      { bits := rounded.integer
        invalid
        overflow := false
        tiny := false
        inexact := !invalid && rounded.inexact
        incremented := !invalid && rounded.incremented } := by
  unfold RepresentedValue.toIntegerMagnitude
  dsimp only
  rw [hlarge, if_neg Bool.false_ne_true, Bool.or_false]

/-- A finite number is rounded once, and is invalid when its rounded magnitude is over the limit. -/
theorem toIntegerMagnitude_spec (h : value.Sound) (rounding : RoundingMode) (limit : BitVec 64) :
    let result := value.toIntegerMagnitude rounding limit
    let y := rounding.direction.round value.bits.decode
    (result.invalid = true ↔
        value.bits.unsupported = true ∨ value.bits.specialExponent = true ∨ limit.toNat < y.natAbs) ∧
      (result.invalid = false → y = sign ℤ value.bits.negative * result.bits.toNat) ∧
      (result.inexact = true ↔ result.invalid = false ∧ (y : ℚ) ≠ value.bits.decode) ∧
      (result.incremented = true ↔ result.invalid = false ∧ |value.bits.decode| < |(y : ℚ)|) := by
  intro result y
  have hexp := toNat_effectiveExponent value.bits
  have hlt := value.bits.exponentField_lt
  have hlimit : (16383 + 64 : BitVec 32).toNat = 16447 := by decide
  have hunsupported : value.classification.unsupported = value.bits.unsupported := congrArg Classification.unsupported h
  by_cases htooLarge : 16447 ≤ max value.bits.exponentField.toNat 1
  · have hlarge : (16383 + 64 : BitVec 32).ule value.bits.effectiveExponent = true := by
      rw [BitVec.ule, hexp, hlimit]
      exact decide_eq_true htooLarge
    have hinv : result.invalid = true := by
      show (_ || (16383 + 64 : BitVec 32).ule value.bits.effectiveExponent || _) = true
      rw [hlarge, Bool.or_true, Bool.true_or]
    have hnot : result.invalid ≠ false := by rw [hinv]; exact Bool.true_eq_false.mp
    refine ⟨iff_of_true hinv ?_, fun h => absurd h hnot, ?_, ?_⟩
    · by_cases hspec : value.bits.specialExponent = true
      · exact Or.inr (Or.inl hspec)
      · by_cases hsupported : value.bits.unsupported = true
        · exact Or.inl hsupported
        · have hfinite :=
            ExtendedBits.finite_of_class (Bool.eq_false_iff.mpr hspec) (Bool.eq_false_iff.mpr hsupported)
          exact Or.inr (Or.inr (limit.isLt.trans_le (round_tooLarge hfinite htooLarge _)))
    · refine iff_of_false ?_ fun h => hnot h.1
      show ¬ (!result.invalid && _) = true
      rw [hinv]
      exact Bool.false_ne_true
    · refine iff_of_false ?_ fun h => hnot h.1
      show ¬ (!result.invalid && _) = true
      rw [hinv]
      exact Bool.false_ne_true
  · have hlarge : (16383 + 64 : BitVec 32).ule value.bits.effectiveExponent = false := by
      rw [BitVec.ule, hexp, hlimit]
      exact decide_eq_false htooLarge
    have hdist :
        (16383 + 63 - value.bits.effectiveExponent).toNat + max value.bits.exponentField.toNat 1 = 16446 := by
      have hconst : (16383 + 63 : BitVec 32).toNat = 16446 := by decide
      rw [BitVec.toNat_sub_of_le, hconst, hexp]
      · omega
      · rw [BitVec.le_def, hconst, hexp]
        omega
    obtain ⟨hy, hinex, hinc⟩ := round_units value.bits rounding hdist
    have hspec : value.bits.specialExponent = false := by
      refine decide_eq_false fun hspec => htooLarge ?_
      rw [hspec]
      decide
    have hres : result = _ := toIntegerMagnitude_eq hlarge rounding limit
    rw [hunsupported] at hres
    generalize rounding.round ((RoundingInput.exact value.bits.significand).shiftRight
      (16383 + 63 - value.bits.effectiveExponent)) value.bits.negative = rounded at *
    have hnatAbs : y.natAbs = rounded.integer.toNat := by
      show (rounding.direction.round value.bits.decode).natAbs = _
      rw [hy, natAbs_sign_mul]
    rw [hres]
    refine ⟨?_, fun _ => hy, ?_, ?_⟩
    · show (value.bits.unsupported || limit.ult rounded.integer) = true ↔ _
      rw [Bool.or_eq_true, hspec, BitVec.ult, decide_eq_true_iff, hnatAbs]
      exact or_congr Iff.rfl (by rw [or_iff_right Bool.false_ne_true])
    · show (!(value.bits.unsupported || limit.ult rounded.integer) && rounded.inexact) = true ↔ _
      rw [Bool.and_eq_true, Bool.not_eq_true', hinex]
    · show (!(value.bits.unsupported || limit.ult rounded.integer) && rounded.incremented) = true ↔ _
      rw [Bool.and_eq_true, Bool.not_eq_true', hinc]

/-! ## Signed destinations -/

theorem toNat_signBit (type : MemoryInt) :
    type.signBit.toNat = 2 ^ (type.width - 1) ∧ (type.signBit - 1).toNat = 2 ^ (type.width - 1) - 1 := by
  cases type <;> decide

theorem two_pow_width {w : ℕ} (hw : 0 < w) : 2 ^ w = 2 * 2 ^ (w - 1) := by
  rw [← pow_succ', Nat.sub_add_cancel hw]

theorem toInt_setWidth_of_lt {w : ℕ} (hw : 0 < w) {n : BitVec 64} (h : n.toNat < 2 ^ (w - 1)) :
    (n.setWidth w).toInt = n.toNat := by
  have hpower := two_pow_width hw
  have hword : (n.setWidth w).toNat = n.toNat := by
    rw [BitVec.toNat_setWidth]
    exact Nat.mod_eq_of_lt (by omega)
  rw [BitVec.toInt_eq_toNat_of_lt (by omega), hword]

/-- Wrapping negation reaches the least integer. -/
theorem toInt_setWidth_neg {w : ℕ} (hw : 0 < w ∧ w ≤ 64) {n : BitVec 64} (h : n.toNat ≤ 2 ^ (w - 1)) :
    ((0 - n).setWidth w).toInt = -n.toNat := by
  have hpower := two_pow_width hw.1
  have hpos := Nat.two_pow_pos (w - 1)
  by_cases hz : n.toNat = 0
  · have hn : n = 0 := BitVec.eq_of_toNat_eq hz
    rw [hz, hn]
    exact toInt_setWidth_of_lt (n := 0) hw.1 hpos
  · have hlt := n.isLt
    have hsplit : 2 ^ w * 2 ^ (64 - w) = 2 ^ 64 := by rw [← pow_add, Nat.add_sub_cancel' hw.2]
    obtain ⟨k, hk⟩ := Nat.exists_eq_add_one_of_ne_zero (Nat.two_pow_pos (64 - w)).ne'
    have hword : ((0 - n).setWidth w).toNat = 2 ^ w - n.toNat := by
      have hsub : (0 - n : BitVec 64).toNat = 2 ^ w * k + (2 ^ w - n.toNat) := by
        rw [hk, Nat.mul_succ] at hsplit
        rw [BitVec.toNat_sub, show (0 : BitVec 64).toNat = 0 from rfl, ← hsplit]
        rw [Nat.mod_eq_of_lt (by omega)]
        omega
      rw [BitVec.toNat_setWidth, hsub, Nat.mul_add_mod, Nat.mod_eq_of_lt (by omega)]
    rw [BitVec.toInt_eq_toNat_cond, hword, if_neg (by omega)]
    omega

/-- A rounded value keeps its sign. -/
theorem round_sign (d : Direction) (neg : Bool) {x : ℚ} (hx : 0 ≤ x) :
    d.round (sign ℚ neg * x) = sign ℤ neg * (d.round (sign ℚ neg * x)).natAbs := by
  have hdesc : Describes ⌊x⌋.toNat (decide (1 ≤ 2 * Int.fract x))
      (decide (Int.fract x ≠ 0 ∧ 2 * Int.fract x ≠ 1)) x :=
    ⟨(Int.toNat_of_nonneg (Int.floor_nonneg.mpr hx)).symm, decide_eq_true_iff, decide_eq_true_iff⟩
  rw [round_sign_mul hdesc, natAbs_sign_mul]

/-- A conversion to a signed integer is invalid exactly outside the destination's range, and otherwise gives the
rounded value. -/
theorem toSignedInteger_spec (h : value.Sound) (rounding : RoundingMode) (type : MemoryInt) :
    let result := value.toSignedInteger rounding type
    let y := rounding.direction.round value.bits.decode
    (result.invalid = true ↔ value.bits.unsupported = true ∨ value.bits.specialExponent = true ∨
        ¬ (-2 ^ (type.width - 1) ≤ y ∧ y < 2 ^ (type.width - 1))) ∧
      (result.invalid = false → (result.bits.setWidth type.width).toInt = y) ∧
      (result.inexact = true ↔ result.invalid = false ∧ (y : ℚ) ≠ value.bits.decode) ∧
      (result.incremented = true ↔ result.invalid = false ∧ |value.bits.decode| < |(y : ℚ)|) := by
  intro result y
  obtain ⟨hinv, hval, hinex, hinc⟩ := toIntegerMagnitude_spec h rounding
    (if value.bits.negative then type.signBit else type.signBit - 1)
  obtain ⟨hbit, hmask⟩ := toNat_signBit type
  have hpos := Nat.two_pow_pos (type.width - 1)
  have hsign : y = sign ℤ value.bits.negative * y.natAbs := by
    show rounding.direction.round value.bits.decode = _ * ((rounding.direction.round value.bits.decode).natAbs : ℤ)
    rw [ExtendedBits.decode_eq]
    exact round_sign _ _ value.bits.magnitude_nonneg
  -- The limit is that of the value's own sign.
  have hrng : (if value.bits.negative then type.signBit else type.signBit - 1).toNat < y.natAbs ↔
      ¬ (-2 ^ (type.width - 1) ≤ y ∧ y < 2 ^ (type.width - 1)) := by
    have hpower : ((2 ^ (type.width - 1) : ℕ) : ℤ) = 2 ^ (type.width - 1) := by push_cast; rfl
    rw [← hpower]
    cases hnegative : value.bits.negative with
    | false =>
      rw [hnegative, sign, if_neg Bool.false_ne_true, one_mul] at hsign
      rw [if_neg Bool.false_ne_true, hmask]
      omega
    | true =>
      rw [hnegative, sign, if_pos rfl, neg_one_mul] at hsign
      rw [if_pos rfl, hbit]
      omega
  refine ⟨hinv.trans (or_congr Iff.rfl (or_congr Iff.rfl hrng)), fun hvalid => ?_, hinex, hinc⟩
  have hy := hval hvalid
  have hlimit := not_lt.mp fun hlt => Bool.eq_false_iff.mp hvalid (hinv.mpr (Or.inr (Or.inr hlt)))
  have hbits : result.bits =
      if value.bits.negative then
        0 - (value.toIntegerMagnitude rounding (if value.bits.negative then type.signBit else type.signBit - 1)).bits
      else (value.toIntegerMagnitude rounding (if value.bits.negative then type.signBit else type.signBit - 1)).bits :=
    if_neg (Bool.eq_false_iff.mp hvalid)
  have hnatAbs := congrArg Int.natAbs hy
  rw [natAbs_sign_mul] at hnatAbs
  rw [hnatAbs] at hlimit
  rw [hbits]
  generalize (value.toIntegerMagnitude rounding _).bits = magnitude at hy hlimit ⊢
  show _ = rounding.direction.round value.bits.decode
  rw [hy]
  cases hnegative : value.bits.negative with
  | false =>
    rw [hnegative, if_neg Bool.false_ne_true, hmask] at hlimit
    rw [if_neg Bool.false_ne_true, sign, if_neg Bool.false_ne_true, one_mul]
    exact toInt_setWidth_of_lt type.width_le.1 (by omega)
  | true =>
    rw [hnegative, if_pos rfl, hbit] at hlimit
    rw [if_pos rfl, sign, if_pos rfl, neg_one_mul]
    exact toInt_setWidth_neg type.width_le hlimit

end Relocade.X87
