import Relocade.Floating.Addition
import Relocade.X87.Rounding

/-!
# `X87.Operand` — operands and their classes

The classes of an encoding, the normalized significand and exponent of a finite operand (`normalized_spec`), and the
responses to special operands.
-/

namespace Relocade.X87

open Rounding Floating

/-! ## Classes -/

namespace ExtendedBits

variable (bits : ExtendedBits)

def negative : Bool := bits.signExponent &&& 0x8000 ≠ 0

def normalOrZero : Bool := bits.normal || bits.zero

def specialExponent : Bool := bits.exponentField = 0x7fff

def infinity : Bool := bits.specialExponent && bits.significand &&& 0x7fffffffffffffff = 0

def nan : Bool := bits.specialExponent && bits.significand &&& 0x7fffffffffffffff ≠ 0

def signalingNan : Bool := bits.nan && bits.significand &&& 0x4000000000000000 = 0

def denormal : Bool := bits.exponentField = 0 && bits.significand ≠ 0

def unsupported : Bool := bits.exponentField ≠ 0 && bits.significand &&& 0x8000000000000000 = 0

def orIndefinite (invalid : Bool) : ExtendedBits where
  significand := if invalid then 0xc000000000000000 else bits.significand
  signExponent := if invalid then 0xffff else bits.signExponent

/-- The magnitude of a finite encoding. -/
def magnitude : ℚ := bits.significand.toNat * 2 ^ (max bits.exponentField.toNat 1 - 16383 - 63 : ℤ)

/-- A number: neither special nor unsupported. -/
structure Finite (bits : ExtendedBits) : Prop where
  exponent : bits.exponentField ≠ 0x7fff
  supported : bits.exponentField = 0 ∨ 2 ^ 63 ≤ bits.significand.toNat

end ExtendedBits

/-! ## Operands -/

/-- An operand with its classes. Its representation may prove a significand of 53 bits. -/
structure Operand where
  bits : ExtendedBits
  precision53Significand : Bool
  normalOrZero : Bool
  zero : Bool
  infinity : Bool
  nan : Bool
  signalingNan : Bool
  denormal : Bool
  unsupported : Bool

namespace Operand

/-- An operand with its predicates. -/
def new (bits : ExtendedBits) (precision53Significand : Bool) : Operand where
  bits
  precision53Significand
  normalOrZero := bits.normalOrZero
  zero := bits.zero
  infinity := bits.infinity
  nan := bits.nan
  signalingNan := bits.signalingNan
  denormal := bits.denormal
  unsupported := bits.unsupported

/-- Normal and zero inputs retain their significands. -/
def normalized (operand : Operand) : BitVec 64 × BitVec 32 :=
  let shift := if operand.normalOrZero then 0 else operand.bits.significand.clz.setWidth 32
  let exponent := if operand.normalOrZero then operand.bits.exponentField.setWidth 32 else 1
  (shl operand.bits.significand shift, exponent - 16383 - shift)

end Operand

structure BinaryOperands where
  left : Operand
  right : Operand

/-! ## Special responses -/

namespace RoundedValue

def exact (value : ExtendedBits) : RoundedValue := ⟨value, false, false⟩

def zero (negative : Bool) : RoundedValue := exact ⟨0, if negative then 0x8000 else 0⟩

end RoundedValue

/-- Exact zero and special operands replace the final range responses. -/
def ArithmeticResult.replaceWhen (result : ArithmeticResult) (condition : Bool) (rounded : RoundedValue) :
    ArithmeticResult :=
  { result with
    masked := if condition then rounded else result.masked
    adjusted := if condition then rounded else result.adjusted
    overflow := !condition && result.overflow
    tiny := !condition && result.tiny }

/-- Resolves NaNs and operand exceptions. A quiet NaN wins over a signaling one, and within a class the larger
significand. -/
def BinaryOperands.finish (operands : BinaryOperands) (result : ArithmeticResult) (invalidOperation : Bool) :
    ArithmeticResult :=
  let left := operands.left
  let right := operands.right
  let indefinite := left.unsupported || right.unsupported || invalidOperation
  let invalid := indefinite || left.signalingNan || right.signalingNan
  let nan := left.nan || right.nan
  let leftNan := left.nan && (!right.nan || right.bits.significand.ule left.bits.significand)
  let nanSignificand := if leftNan then left.bits.significand else right.bits.significand
  let nanSign := if leftNan then left.bits.signExponent else right.bits.signExponent
  let special := RoundedValue.exact
    (ExtendedBits.orIndefinite ⟨nanSignificand ||| 0x4000000000000000, nanSign⟩ indefinite)
  let result := result.replaceWhen (nan || indefinite) special
  let zeroDivide := !(invalid || nan) && result.zeroDivide
  { result with
    zeroDivide
    denormal := !(invalid || nan || zeroDivide) && (left.denormal || right.denormal)
    invalid }

/-! ## Finite operands -/

namespace ExtendedBits

variable {bits : ExtendedBits}

theorem negative_eq (bits : ExtendedBits) : bits.negative = bits.signExponent.msb := by
  have hpos : BitVec.twoPow 16 15 ≠ 0 := by decide
  unfold negative
  rw [show (0x8000 : BitVec 16) = BitVec.twoPow 16 15 from rfl, BitVec.and_twoPow, BitVec.msb_eq_getLsbD_last]
  cases bits.signExponent.getLsbD (16 - 1) with
  | false => exact decide_eq_false (not_not.mpr rfl)
  | true => exact decide_eq_true hpos

theorem decode_eq (bits : ExtendedBits) : bits.decode = sign ℚ bits.negative * bits.magnitude := by
  rw [negative_eq]
  rfl

theorem integer_bit_ne_zero (bits : ExtendedBits) :
    bits.significand &&& 0x8000000000000000 ≠ 0 ↔ 2 ^ 63 ≤ bits.significand.toNat :=
  and_leading_ne_zero bits.significand

theorem exponentField_lt (bits : ExtendedBits) : bits.exponentField.toNat < 2 ^ 15 := by
  rw [exponentField, BitVec.toNat_and, show (0x7fff : BitVec 16).toNat = 2 ^ 15 - 1 from rfl,
    Nat.and_two_pow_sub_one_eq_mod]
  exact Nat.mod_lt _ (by decide)

namespace Finite

variable (h : bits.Finite)

include h

theorem not_special : bits.specialExponent = false := decide_eq_false h.exponent

theorem not_unsupported : bits.unsupported = false := by
  unfold unsupported
  rw [Bool.and_eq_false_iff, decide_eq_false_iff_not, decide_eq_false_iff_not, not_not]
  exact h.supported.imp id (integer_bit_ne_zero bits).mpr

theorem not_nan : bits.nan = false := by rw [nan, h.not_special, Bool.false_and]

theorem not_signalingNan : bits.signalingNan = false := by rw [signalingNan, h.not_nan, Bool.false_and]

theorem not_infinity : bits.infinity = false := by rw [infinity, h.not_special, Bool.false_and]

/-- The only finite number without bits is zero. -/
theorem zero_iff : bits.zero = true ↔ bits.significand = 0 := by
  unfold zero
  rw [decide_eq_true_iff]
  refine ⟨fun hz => hz.2, fun hz => ⟨h.supported.resolve_right fun hle => ?_, hz⟩⟩
  rw [hz] at hle
  exact absurd hle (by decide)

theorem exponent_lt : bits.exponentField.toNat < 0x7fff := by
  have hlt := bits.exponentField_lt
  have hne : bits.exponentField.toNat ≠ 0x7fff := fun heq => h.exponent (BitVec.eq_of_toNat_eq heq)
  omega

end Finite

end ExtendedBits

namespace Operand

variable {bits : ExtendedBits} (precision53Significand : Bool)

theorem normalized_ordinary (h : bits.normalOrZero = true) :
    (new bits precision53Significand).normalized = (bits.significand, bits.exponentField.setWidth 32 - 16383) := by
  have hnorm : (new bits precision53Significand).normalOrZero = true := h
  unfold normalized
  dsimp only
  rw [if_pos hnorm, if_pos hnorm, shl_of_lt _ (by decide)]
  exact congrArg₂ Prod.mk (BitVec.shiftLeft_zero _) (BitVec.sub_zero _)

theorem normalized_denormal (h : bits.normalOrZero = false) :
    (new bits precision53Significand).normalized =
      (shl bits.significand (bits.significand.clz.setWidth 32), 1 - 16383 - bits.significand.clz.setWidth 32) := by
  have hnorm : ¬ (new bits precision53Significand).normalOrZero = true := Bool.eq_false_iff.mp h
  unfold normalized
  dsimp only
  rw [if_neg hnorm, if_neg hnorm]
  rfl

/-- A finite operand's magnitude has its leading bit at 63. -/
theorem normalized_spec (h : bits.Finite) (hne : bits.significand ≠ 0) :
    let normalized := (new bits precision53Significand).normalized
    2 ^ 63 ≤ normalized.1.toNat ∧ bits.magnitude = normalized.1.toNat * 2 ^ (normalized.2.toInt - 63) ∧
      -16445 ≤ normalized.2.toInt ∧ normalized.2.toInt ≤ 16383 := by
  have hlt := h.exponent_lt
  have hz : bits.zero = false := Bool.eq_false_iff.mpr fun hz => hne (h.zero_iff.mp hz)
  have hnorm : bits.normalOrZero = true ↔ bits.exponentField ≠ 0 := by
    unfold ExtendedBits.normalOrZero ExtendedBits.normal
    rw [hz, Bool.or_false, decide_eq_true_iff]
    refine ⟨fun hnorm => hnorm.1, fun hfld => ⟨hfld, h.exponent, ?_⟩⟩
    exact bits.integer_bit_ne_zero.mpr (h.supported.resolve_left hfld)
  have hfield0 : bits.exponentField = 0 ↔ bits.exponentField.toNat = 0 := BitVec.toNat_inj.symm
  unfold ExtendedBits.magnitude
  by_cases hfld : bits.exponentField = 0
  · rw [normalized_denormal _ (Bool.eq_false_iff.mpr fun hn => hnorm.mp hn hfld)]
    obtain ⟨hsh, hword, hlead⟩ := normalize_spec hne
    generalize bits.significand.clz.setWidth 32 = shift at *
    have hexp : (1 - 16383 - shift : BitVec 32).toInt = -16382 - shift.toNat := by
      have hsh' := toInt_of_toNat_lt (x := shift) (by omega)
      have hleast : (1 - 16383 : BitVec 32).toInt = -16382 := by decide
      generalize (1 - 16383 : BitVec 32) = least at *
      rw [toInt_sub_of_fits (by omega) (by omega), hleast, hsh']
    dsimp only
    rw [hexp, hword, hfield0.mp hfld]
    refine ⟨hword ▸ hlead, ?_, by omega, by omega⟩
    have hexps : ((max 0 1 : ℕ) : ℤ) - 16383 - 63 = shift.toNat + (-16382 - (shift.toNat : ℤ) - 63) := by omega
    rw [hexps, zpow_add₀ two_ne_zero (shift.toNat : ℤ), zpow_natCast, Nat.cast_mul, Nat.cast_pow, Nat.cast_two,
      mul_assoc]
  · rw [normalized_ordinary _ (hnorm.mpr hfld)]
    have hexp : (bits.exponentField.setWidth 32 - 16383).toInt = bits.exponentField.toNat - 16383 := by
      have hword : (bits.exponentField.setWidth 32).toNat = bits.exponentField.toNat := by
        rw [BitVec.toNat_setWidth]
        exact Nat.mod_eq_of_lt (by omega)
      have hfld' := toInt_of_toNat_lt (x := bits.exponentField.setWidth 32) (by omega)
      have hbias : (16383 : BitVec 32).toInt = 16383 := by decide
      rw [toInt_sub_of_fits (by omega) (by omega), hbias, hfld', hword]
    have hpos := mt hfield0.mpr hfld
    dsimp only
    rw [hexp, max_eq_left (by omega)]
    exact ⟨h.supported.resolve_left hfld, rfl, by omega, by omega⟩

/-- The exponent is the magnitude's binade. -/
theorem magnitude_bounds (h : bits.Finite) (hne : bits.significand ≠ 0) :
    let exp := (new bits precision53Significand).normalized.2.toInt
    2 ^ exp ≤ bits.magnitude ∧ bits.magnitude < 2 ^ (exp + 1) := by
  intro exp
  obtain ⟨hlead, hval, -, -⟩ := normalized_spec precision53Significand h hne
  have hword := (new bits precision53Significand).normalized.1.isLt
  have hlow : (2 : ℚ) ^ 63 ≤ (new bits precision53Significand).normalized.1.toNat := by exact_mod_cast hlead
  have hhi : ((new bits precision53Significand).normalized.1.toNat : ℚ) < 2 ^ 64 := by exact_mod_cast hword
  have hpos : (0 : ℚ) < 2 ^ (exp - 63) := zpow_pos two_pos _
  rw [hval]
  constructor
  · calc (2 : ℚ) ^ exp = 2 ^ 63 * 2 ^ (exp - 63) := by
          rw [← zpow_natCast (2 : ℚ) 63, ← zpow_add₀ two_ne_zero]
          congr 1
          push_cast
          ring
      _ ≤ _ := mul_le_mul_of_nonneg_right hlow hpos.le
  · calc _ < (2 : ℚ) ^ 64 * 2 ^ (exp - 63) := mul_lt_mul_of_pos_right hhi hpos
      _ = 2 ^ (exp + 1) := by
          rw [← zpow_natCast (2 : ℚ) 64, ← zpow_add₀ two_ne_zero]
          congr 1
          push_cast
          ring

/-- A zero has no significand and an exponent in the same range. -/
theorem normalized_value (h : bits.Finite) :
    let normalized := (new bits precision53Significand).normalized
    bits.magnitude = normalized.1.toNat * 2 ^ (normalized.2.toInt - 63) ∧
      -16445 ≤ normalized.2.toInt ∧ normalized.2.toInt ≤ 16383 := by
  by_cases hz : bits.significand = 0
  · have hclass := h.zero_iff.mpr hz
    have hfld : bits.exponentField = 0 := (of_decide_eq_true hclass).1
    rw [normalized_ordinary _ (by rw [ExtendedBits.normalOrZero, hclass, Bool.or_true]), ExtendedBits.magnitude, hfld, hz]
    refine ⟨?_, by decide, by decide⟩
    rw [show (0 : BitVec 64).toNat = 0 from rfl, Nat.cast_zero, zero_mul, zero_mul]
  · exact (normalized_spec _ h hz).2

end Operand

theorem ExtendedBits.magnitude_nonneg (bits : ExtendedBits) : 0 ≤ bits.magnitude :=
  mul_nonneg (Nat.cast_nonneg _) (zpow_pos two_pos _).le

/-- A number without bits is the only one of magnitude zero. -/
theorem ExtendedBits.magnitude_pos {bits : ExtendedBits} (h : bits.significand ≠ 0) : 0 < bits.magnitude := by
  have hpos : 0 < bits.significand.toNat := Nat.pos_of_ne_zero ((ne_zero_iff_toNat _).mp h)
  exact mul_pos (Nat.cast_pos.mpr hpos) (zpow_pos two_pos _)

end Relocade.X87
