import Relocade.X87.Bcd

/-!
# `X87.Binary` — narrowing to binary32 and binary64

Values that were expanded from a narrow encoding return to it: numbers lie on the destination's own grid, so rounding
leaves them (`roundBinary_own`), and special encodings keep their payload with its quiet bit set (`encode_expand`).
With the integer and decimal destinations, conversions are exact inverses within range (`conversions_exact`).
-/

namespace Relocade.X87

open Rounding Floating

/-! ## Narrowing -/

/-- Rounds the extended value directly to the destination. -/
def encodeRounded (format : BinaryFormat) (value : RepresentedValue) (rounding : RoundingMode) :
    ConversionResult (BitVec 64) :=
  let unsupported := value.classification.unsupported
  let special := value.classification.specialExponent
  let nan := value.classification.nan
  let signalingNan := value.classification.signalingNan
  let bits := value.bits
  let sign := if bits.negative then format.signBit else 0
  let finite := !(unsupported || special)
  let rounded := roundBinary format bits.unrounded rounding finite
  let overflow := rounded.overflow
  let magnitude := if overflow then overflowMagnitude format rounding bits.negative else rounded.magnitude
  let nanBits := bits.significand >>> (63 - format.fractionBits) &&&
    (BitVec.ofNat 64 (1 <<< format.fractionBits) - 1) ||| format.quietBit
  let specialBits := (if nan then nanBits else 0) ||| format.infinity
  { bits :=
      if unsupported then format.signBit ||| format.infinity ||| format.quietBit
      else (if special then specialBits else magnitude.setWidth 64) ||| sign
    invalid := unsupported || signalingNan
    overflow
    tiny := rounded.tiny
    inexact := finite && (overflow || rounded.boundedInexact)
    incremented :=
      finite && (if overflow then rounding.overflowToInfinity bits.negative else rounded.boundedIncremented) }

/-- An exact subnormal still raises underflow when its exception is unmasked. -/
def encodeExact (format : BinaryFormat) (bits : BitVec 64) (kind : Option KnownClass) :
    ConversionResult (BitVec 64) where
  bits
  invalid := false
  overflow := false
  tiny := kind.isNone && format.denormalClass bits
  inexact := false
  incremented := false

/-- A value kept in the destination's format is exact. -/
def RepresentedValue.exactConversion (value : RepresentedValue) (format : BinaryFormat) :
    Option (ConversionResult (BitVec 64)) :=
  match value.representation with
  | .binary source bits nativeClass => if source = format then some (encodeExact format bits nativeClass) else none
  | .extended _ => none

def encode (format : BinaryFormat) (value : RepresentedValue) (rounding : RoundingMode) : ConversionResult (BitVec 64) :=
  (value.exactConversion format).getD (encodeRounded format value rounding)

/-! ## Expanded numbers -/

section

variable {f : BinaryFormat} {bits : BitVec 64} {negative : Bool} {field fraction : ℕ}
  (h : f.HasFields bits negative field fraction)

include h

/-- A narrow number expands to a number of its own value, with its leading bit unless it is zero. -/
theorem expand_value (hfld : field ≠ 2 ^ f.exponentBits - 1) :
    (expand f bits).negative = negative ∧ (expand f bits).Finite ∧
      (expand f bits).magnitude = f.units field fraction * 2 ^ (1 - f.bias - f.fractionBits : ℤ) ∧
      ((expand f bits).significand = 0 ∧ field = 0 ∧ fraction = 0 ∨
        2 ^ 63 ≤ (expand f bits).significand.toNat) := by
  have hbits : f.fractionBits ≤ 63 ∧ f.bias ≤ 1023 := by cases f <;> decide
  by_cases hz : field = 0
  · by_cases hfrac : fraction = 0
    · obtain ⟨hsign, hexp, hsig⟩ := expand_zero h hz hfrac
      have hexp' : (expand f bits).exponentField = 0 := BitVec.eq_of_toNat_eq hexp
      refine ⟨hsign, ⟨?_, Or.inl hexp'⟩, ?_, Or.inl ⟨hsig, hz, hfrac⟩⟩
      · rw [hexp']
        decide
      · rw [ExtendedBits.magnitude, hsig, BinaryFormat.units, if_pos hz, hfrac]
        exact (zero_mul _).trans (zero_mul _).symm
    · obtain ⟨hsign, shift, hsh, hexp, hval, hlead⟩ := expand_denormal h hz hfrac
      refine ⟨hsign, ⟨?_, Or.inr hlead⟩, ?_, Or.inr hlead⟩
      · intro hspecial
        rw [hspecial] at hexp
        exact absurd hexp (show (0x7fff : ℕ) ≠ _ by omega)
      · have hexps : (max (expand f bits).exponentField.toNat 1 - 16383 - 63 : ℤ) =
            -((63 - f.fractionBits : ℕ) : ℤ) - (shift : ℤ) + (1 - f.bias - f.fractionBits) := by
          omega
        rw [ExtendedBits.magnitude, hval, hexps, zpow_add₀ two_ne_zero, zpow_sub₀ two_ne_zero, zpow_neg,
          zpow_natCast, zpow_natCast, BinaryFormat.units, if_pos hz]
        push_cast
        field_simp
  · obtain ⟨hsign, hexp, hval⟩ := expand_leading h hz
    rw [if_neg hfld] at hexp
    have hlt := h.field_lt
    have hbias : 2 ^ f.exponentBits = 2 * f.bias + 2 := by cases f <;> rfl
    have hlead : 2 ^ 63 ≤ (expand f bits).significand.toNat := by
      rw [hval]
      exact Nat.le_add_right _ _
    refine ⟨hsign, ⟨?_, Or.inr hlead⟩, ?_, Or.inr hlead⟩
    · intro hspecial
      rw [hspecial] at hexp
      exact absurd hexp (show (0x7fff : ℕ) ≠ _ by omega)
    · obtain ⟨k, rfl⟩ := Nat.exists_eq_add_one_of_ne_zero hz
      have hexps : (max (expand f bits).exponentField.toNat 1 - 16383 - 63 : ℤ) =
          (k : ℤ) - ((63 - f.fractionBits : ℕ) : ℤ) + (1 - f.bias - f.fractionBits) := by
        omega
      have hscaled : (expand f bits).significand.toNat =
          (2 ^ f.fractionBits + fraction) * 2 ^ (63 - f.fractionBits) := by
        rw [hval, Nat.add_mul, ← pow_add, Nat.add_sub_cancel' hbits.1]
      rw [ExtendedBits.magnitude, hscaled, hexps, zpow_add₀ two_ne_zero, zpow_sub₀ two_ne_zero, zpow_natCast,
        zpow_natCast, BinaryFormat.units, if_neg hz, Nat.add_sub_cancel]
      push_cast
      field_simp

end

variable {f : BinaryFormat}

/-- A value on a format's own grid, below its largest binade, is not changed by rounding to it. -/
theorem round_own {field fraction : ℕ} {x : ℚ} (hfrac : fraction < 2 ^ f.fractionBits)
    (hx : |x| = f.units field fraction * 2 ^ (1 - f.bias - f.fractionBits : ℤ)) (d : Direction) :
    d.roundUnbounded (f.fractionBits + 1) x = x ∧
      d.roundBounded (f.fractionBits + 1) (1 - f.bias) x = x := by
  have hfits : Fits (f.fractionBits + 1) x := by
    by_cases hz : field = 0
    · refine ⟨fraction, 1 - f.bias - f.fractionBits,
        hfrac.trans (Nat.pow_lt_pow_right (by decide) (Nat.lt_succ_self _)), ?_⟩
      rw [BinaryFormat.units, if_pos hz] at hx
      exact hx
    · obtain ⟨k, rfl⟩ := Nat.exists_eq_add_one_of_ne_zero hz
      refine ⟨2 ^ f.fractionBits + fraction, k + (1 - f.bias - f.fractionBits), ?_, ?_⟩
      · rw [pow_succ]
        omega
      · rw [hx, BinaryFormat.units, if_neg hz, Nat.add_sub_cancel, zpow_add₀ two_ne_zero, zpow_natCast]
        push_cast
        ring
  refine ⟨hfits.roundUnbounded d, ?_⟩
  have hleast : (1 - f.bias : ℤ) - ((f.fractionBits + 1 : ℕ) - 1) = 1 - f.bias - f.fractionBits := by
    push_cast
    ring
  rw [Direction.roundBounded, quantumFrom, hleast]
  rcases max_choice (quantum (f.fractionBits + 1) x) (1 - f.bias - f.fractionBits) with hmax | hmax
  · rw [hmax]
    exact hfits.roundUnbounded d
  · rw [hmax]
    rcases abs_choice x with habs | habs
    · rw [habs] at hx
      exact d.roundAt_of_grid (n := f.units field fraction) (by rw [hx, Int.cast_natCast])
    · rw [habs] at hx
      refine d.roundAt_of_grid (n := -(f.units field fraction : ℤ)) ?_
      rw [Int.cast_neg, neg_mul, Int.cast_natCast, ← hx, neg_neg]

variable {bits : ExtendedBits}

/-- So binary rounding returns its own fields. -/
theorem roundBinary_own {field fraction : ℕ}
    (hfld : field < 2 ^ f.exponentBits - 1) (hfrac : fraction < 2 ^ f.fractionBits)
    (hlead : 2 ^ 63 ≤ bits.significand.toNat)
    (hmag : bits.magnitude = f.units field fraction * 2 ^ (1 - f.bias - f.fractionBits : ℤ)) (rnd : RoundingMode) :
    let rounded := roundBinary f bits.unrounded rnd true
    rounded.overflow = false ∧ rounded.boundedInexact = false ∧ rounded.boundedIncremented = false ∧
      rounded.magnitude.toNat = field * 2 ^ f.fractionBits + fraction := by
  intro rounded
  have hlt := bits.exponentField_lt
  have hexp := toInt_unrounded_exponent bits
  have hx : |bits.decode| = f.units field fraction * 2 ^ (1 - f.bias - f.fractionBits : ℤ) := by
    rw [ExtendedBits.decode_eq, abs_sign_mul _ bits.magnitude_nonneg, hmag]
  have hspec : Floating.RoundsOnce f rounded rnd.direction true bits.decode := by
    rw [← unrounded_value]
    exact roundBinary_roundsOnce (m := bits.unrounded) hlead (exact_describes bits.significand) (by omega) rnd
      f true
  obtain ⟨hunbounded, hbounded⟩ := round_own hfrac hx rnd.direction
  have hbias : 2 ^ f.exponentBits = 2 * f.bias + 2 := by cases f <;> rfl
  have hrng : |bits.decode| < (2 : ℚ) ^ (f.bias + 1 : ℤ) := by
    have hunits : (f.units field fraction : ℚ) < 2 ^ (f.fractionBits + 2 * f.bias : ℕ) := by
      have hpow : 2 ^ f.fractionBits * 2 ^ field ≤ 2 ^ (f.fractionBits + 2 * f.bias) := by
        rw [← pow_add]
        exact Nat.pow_le_pow_right two_pos (by omega)
      exact_mod_cast (BinaryFormat.units_lt_pow hfrac).trans_le hpow
    have hexps : (f.bias + 1 : ℤ) = ((f.fractionBits + 2 * f.bias : ℕ) : ℤ) + (1 - f.bias - f.fractionBits) := by
      push_cast
      ring
    rw [hx, hexps, zpow_add₀ two_ne_zero, zpow_natCast]
    exact mul_lt_mul_of_pos_right hunits (zpow_pos two_pos _)
  have hown : field * 2 ^ f.fractionBits + fraction < 2 ^ f.width := by
    have hmul := Nat.mul_le_mul_right (2 ^ f.fractionBits)
      (show field + 1 ≤ 2 ^ f.exponentBits by omega)
    have hwidth : 2 ^ f.width = 2 * (2 ^ f.exponentBits * 2 ^ f.fractionBits) := by
      cases f <;> rfl
    rw [Nat.add_mul, Nat.one_mul] at hmul
    omega
  refine ⟨?_, ?_, ?_, ?_⟩
  · refine Bool.eq_false_iff.mpr fun hov => ?_
    have hle := (hspec.overflow_iff.mp hov).2
    rw [hunbounded] at hle
    exact hle.not_gt hrng
  · exact Bool.eq_false_iff.mpr fun hinex => hspec.bounded_inexact.mp hinex hbounded
  · refine Bool.eq_false_iff.mpr fun hinc => ?_
    have hless := hspec.bounded_incremented.mp hinc
    rw [hbounded] at hless
    exact lt_irrefl _ hless
  · have hdecode := (hspec.magnitude (by rw [hunbounded]; exact hrng)).2
    have hbits : rounded.magnitude = BitVec.ofNat f.width (field * 2 ^ f.fractionBits + fraction) := by
      apply BinaryFormat.decode_injective
      rw [hdecode, hbounded, hx, BinaryFormat.decode_eq_units, BitVec.toNat_ofNat, Nat.mod_eq_of_lt hown,
        Nat.mul_comm field, Nat.mul_add_div (Nat.two_pow_pos _), Nat.div_eq_of_lt hfrac, Nat.add_zero,
        Nat.mul_add_mod, Nat.mod_eq_of_lt hfrac]
    rw [hbits, BitVec.toNat_ofNat, Nat.mod_eq_of_lt hown]

/-! ## Zeros -/

theorem shiftRight_exact_zero (dist : BitVec 32) : (RoundingInput.exact 0).shiftRight dist = .exact 0 := by
  have hshd := shiftRight_describes (exact_describes (K := ℚ) 0) dist
  have hz : (((0 : BitVec 64).toNat : ℚ) / 2 ^ dist.toNat) = ((0 : ℕ) : ℚ) := by
    show ((0 : ℕ) : ℚ) / _ = _
    rw [Nat.cast_zero, zero_div]
  unfold RoundingInput.Describes at hshd
  rw [hz] at hshd
  obtain ⟨hint, hguard, hsticky⟩ := hshd.unique (Describes.exact 0)
  generalize (RoundingInput.exact 0).shiftRight dist = shifted at *
  obtain ⟨integer, guard, sticky⟩ := shifted
  rw [RoundingInput.exact, RoundingInput.mk.injEq]
  exact ⟨BitVec.eq_of_toNat_eq hint, hguard, hsticky⟩

theorem round_exact_zero (rnd : RoundingMode) (negative : Bool) :
    rnd.round (.exact 0) negative = ⟨0, false, false⟩ := by
  unfold RoundingMode.round RoundingInput.exact
  dsimp only
  split
  · rfl
  · rfl

/-- A zero rounds to a zero. -/
theorem roundBinary_zero (hsig : bits.significand = 0)
    (hfld : bits.exponentField = 0) (rnd : RoundingMode) :
    let rounded := roundBinary f bits.unrounded rnd true
    rounded.overflow = false ∧ rounded.boundedInexact = false ∧ rounded.boundedIncremented = false ∧
      rounded.magnitude.toNat = 0 := by
  intro rounded
  have hrounded (distance : BitVec 32) :
      rnd.round (bits.unrounded.significand.shiftRight distance) bits.unrounded.negative = ⟨0, false, false⟩ := by
    rw [ExtendedBits.unrounded, hsig, shiftRight_exact_zero, round_exact_zero]
  have hexp : bits.unrounded.exponent = 1 - 16383 := by
    show bits.effectiveExponent - 16383 = _
    rw [ExtendedBits.effectiveExponent, hfld]
    rfl
  have hunbounded : f.unboundedExponent bits.unrounded rnd = 1 - 16383 := by
    unfold BinaryFormat.unboundedExponent
    dsimp only
    rw [hrounded, hexp]
    rfl
  refine ⟨?_, ?_, ?_, ?_⟩
  · show (true && (BitVec.ofNat 32 (f.bias + 1)).sle (f.unboundedExponent bits.unrounded rnd)) = false
    rw [hunbounded]
    cases f <;> decide
  · exact congrArg Rounded.inexact (hrounded (f.boundedDistance bits.unrounded.exponent))
  · exact congrArg Rounded.incremented (hrounded (f.boundedDistance bits.unrounded.exponent))
  · show (BitVec.setWidth f.width (BitVec.setWidth 64 (if bits.unrounded.exponent.slt f.minimum then 0
      else bits.unrounded.exponent - f.minimum)) <<< f.fractionBits +
        (rnd.round (bits.unrounded.significand.shiftRight _) bits.unrounded.negative).integer.setWidth
          f.width).toNat = 0
    rw [hrounded, hexp]
    cases f <;> decide

/-! ## Returning to a narrow format -/

/-- A single bit of a word. -/
theorem and_twoPow_eq_zero (word : BitVec 64) {i : ℕ} (h : i < 64) :
    word &&& BitVec.twoPow 64 i = 0 ↔ word.toNat / 2 ^ i % 2 = 0 := by
  have hne : BitVec.twoPow 64 i ≠ 0 := by
    rw [ne_zero_iff_toNat, BitVec.toNat_twoPow, Nat.mod_eq_of_lt (Nat.pow_lt_pow_right (by decide) h)]
    exact (Nat.two_pow_pos i).ne'
  have hbit : word.getLsbD i = decide (word.toNat / 2 ^ i % 2 = 1) := by
    rw [BitVec.getLsbD, Nat.testBit_eq_decide_div_mod_eq]
  rw [BitVec.and_twoPow, hbit]
  by_cases hone : word.toNat / 2 ^ i % 2 = 1
  · rw [decide_eq_true hone, if_pos rfl]
    exact iff_of_false hne (by omega)
  · rw [decide_eq_false hone, if_neg Bool.false_ne_true]
    exact iff_of_true rfl (by omega)

theorem or_twoPow_of_bit {word : BitVec 64} {i : ℕ} (hbit : word &&& BitVec.twoPow 64 i ≠ 0) :
    word ||| BitVec.twoPow 64 i = word := by
  have hset : word.getLsbD i = true := by
    by_contra hclear
    rw [BitVec.and_twoPow, if_neg hclear] at hbit
    exact hbit rfl
  apply BitVec.eq_of_getLsbD_eq
  intro j hj
  rw [BitVec.getLsbD_or, BitVec.getLsbD_twoPow]
  by_cases hij : i = j
  · rw [← hij, hset, Bool.true_or]
  · rw [decide_eq_false hij, Bool.and_false, Bool.or_false]

section

variable {f : BinaryFormat} {bits : BitVec 64} {negative : Bool} {field fraction : ℕ}
  (h : f.HasFields bits negative field fraction)

include h

/-- The sign over a magnitude. -/
theorem magnitude_or_sign {mag : BitVec 64}
    (hmag : mag.toNat = field * 2 ^ f.fractionBits + fraction) :
    mag ||| (if negative then f.signBit else 0) = bits := by
  apply BitVec.eq_of_toNat_eq
  rw [BitVec.toNat_or, h.toNat_eq, hmag]
  cases negative with
  | false =>
    rw [if_neg Bool.false_ne_true, Bool.toNat_false, Nat.zero_mul, Nat.zero_add]
    exact Nat.or_zero _
  | true =>
    rw [if_pos rfl, BinaryFormat.toNat_signBit, Bool.toNat_true, Nat.one_mul, Nat.or_comm]
    have hor := Nat.two_pow_add_eq_or_of_lt h.magnitude_lt 1
    rw [Nat.mul_one] at hor
    exact hor.symm

/-- The payload of a special encoding. -/
theorem special_expand (hfld : field = 2 ^ f.exponentBits - 1) :
    (expand f bits).negative = negative ∧ (expand f bits).specialExponent = true ∧
      2 ^ 63 ≤ (expand f bits).significand.toNat ∧ (expand f bits).exponentField ≠ 0 ∧
      (expand f bits).nan = f.nanClass bits ∧
      (expand f bits).signalingNan = f.signalingNanClass bits ∧
      ((expand f bits).significand >>> (63 - f.fractionBits) &&&
        (BitVec.ofNat 64 (1 <<< f.fractionBits) - 1)).toNat = fraction := by
  have hpos : field ≠ 0 := by
    rw [hfld]
    cases f <;> decide
  have hfrac := h.fraction_lt
  obtain ⟨hsign, hexp, hval⟩ := expand_leading h hpos
  rw [if_pos hfld] at hexp
  have hexp' : (expand f bits).exponentField = 0x7fff := BitVec.eq_of_toNat_eq hexp
  have hspecial : (expand f bits).specialExponent = true := decide_eq_true hexp'
  have hlt : fraction * 2 ^ (63 - f.fractionBits) < 2 ^ 63 := by
    calc fraction * 2 ^ (63 - f.fractionBits) < 2 ^ f.fractionBits * 2 ^ (63 - f.fractionBits) :=
          Nat.mul_lt_mul_of_pos_right hfrac (Nat.two_pow_pos _)
      _ = 2 ^ 63 := by cases f <;> rfl
  have hnan : (expand f bits).nan = f.nanClass bits := by
    have hmask : (expand f bits).significand &&& 0x7fffffffffffffff ≠ 0 ↔ fraction ≠ 0 := by
      have hmod := Nat.and_two_pow_sub_one_eq_mod (expand f bits).significand.toNat 63
      have hword : ((expand f bits).significand &&& 0x7fffffffffffffff).toNat =
          fraction * 2 ^ (63 - f.fractionBits) := by
        rw [BitVec.toNat_and]
        refine hmod.trans ?_
        rw [hval]
        omega
      rw [ne_zero_iff_toNat, hword, Nat.mul_ne_zero_iff]
      exact and_iff_left (Nat.two_pow_pos _).ne'
    rw [ExtendedBits.nan, hspecial, Bool.true_and, Bool.eq_iff_iff, decide_eq_true_iff, hmask, h.nanClass_iff]
    exact (and_iff_right hfld).symm
  have hquiet : (expand f bits).significand &&& 0x4000000000000000 = 0 ↔ bits &&& f.quietBit = 0 := by
    have hbit : f.quietBit = BitVec.twoPow 64 (f.fractionBits - 1) := by cases f <;> rfl
    rw [hbit, show (0x4000000000000000 : BitVec 64) = BitVec.twoPow 64 62 from rfl,
      and_twoPow_eq_zero _ (show 62 < 64 by decide),
      and_twoPow_eq_zero _ (show f.fractionBits - 1 < 64 by cases f <;> decide), hval, h.toNat_eq]
    cases f with
    | binary32 =>
      show (2 ^ 63 + fraction * 2 ^ 40) / 2 ^ 62 % 2 = 0 ↔
        (negative.toNat * 2 ^ 31 + (field * 2 ^ 23 + fraction)) / 2 ^ 22 % 2 = 0
      have hlt : fraction < 2 ^ 23 := hfrac
      omega
    | binary64 =>
      show (2 ^ 63 + fraction * 2 ^ 11) / 2 ^ 62 % 2 = 0 ↔
        (negative.toNat * 2 ^ 63 + (field * 2 ^ 52 + fraction)) / 2 ^ 51 % 2 = 0
      have hlt : fraction < 2 ^ 52 := hfrac
      omega
  refine ⟨hsign, hspecial, hval ▸ Nat.le_add_right _ _, ?_, hnan, ?_, ?_⟩
  · rw [hexp']
    decide
  · rw [ExtendedBits.signalingNan, hnan, BinaryFormat.signalingNanClass, decide_eq_decide.mpr hquiet]
  · have hmask : (BitVec.ofNat 64 (1 <<< f.fractionBits) - 1).toNat = 2 ^ f.fractionBits - 1 := by
      cases f <;> rfl
    have hscaled : 2 ^ 63 + fraction * 2 ^ (63 - f.fractionBits) =
        2 ^ (63 - f.fractionBits) * (2 ^ f.fractionBits + fraction) := by
      rw [Nat.mul_add, ← pow_add, show 63 - f.fractionBits + f.fractionBits = 63 by cases f <;> rfl,
        Nat.mul_comm fraction]
    rw [BitVec.toNat_and, hmask, Nat.and_two_pow_sub_one_eq_mod, BitVec.toNat_ushiftRight, Nat.shiftRight_eq_div_pow,
      hval, hscaled, Nat.mul_div_cancel_left _ (Nat.two_pow_pos _), Nat.add_mod_left, Nat.mod_eq_of_lt hfrac]

/-- A special encoding keeps its payload, quieted. -/
theorem encode_special (hfld : field = 2 ^ f.exponentBits - 1) (rnd : RoundingMode) :
    let result := encode f (.fromBits (expand f bits)) rnd
    result.bits = (bits ||| if f.signalingNanClass bits then f.quietBit else 0) ∧
      result.invalid = f.signalingNanClass bits ∧ result.overflow = false ∧ result.inexact = false ∧
      result.incremented = false := by
  intro result
  obtain ⟨hsign, hspecial, hlead, hne, hnan, hsignaling, hpay⟩ := special_expand h hfld
  have hclass : (RepresentedValue.fromBits (expand f bits)).classification = _ :=
    Classification.extended_leading hlead hne
  have hres : result = encodeRounded f (.fromBits (expand f bits)) rnd := rfl
  have hinfinity : f.infinity.toNat = field * 2 ^ f.fractionBits := by
    rw [BinaryFormat.toNat_infinity, hfld]
  -- The payload, or nothing, under the sign.
  have hbits : result.bits =
      ((if f.nanClass bits then
        ((expand f bits).significand >>> (63 - f.fractionBits) &&&
          (BitVec.ofNat 64 (1 <<< f.fractionBits) - 1)) ||| f.quietBit else 0) ||| f.infinity) |||
        (if negative then f.signBit else 0) := by
    rw [hres]
    unfold encodeRounded
    rw [hclass]
    dsimp only
    rw [show (RepresentedValue.fromBits (expand f bits)).bits = expand f bits from rfl, hspecial, hnan, hsign]
    rfl
  have hfinite : result.overflow = false ∧ result.inexact = false ∧ result.incremented = false ∧
      result.invalid = f.signalingNanClass bits := by
    rw [hres]
    unfold encodeRounded
    rw [hclass]
    dsimp only
    rw [hspecial, hsignaling]
    exact ⟨rfl, rfl, rfl, rfl⟩
  refine ⟨?_, hfinite.2.2.2, hfinite.1, hfinite.2.1, hfinite.2.2.1⟩
  rw [hbits]
  generalize (expand f bits).significand >>> (63 - f.fractionBits) &&&
    (BitVec.ofNat 64 (1 <<< f.fractionBits) - 1) = payload at *
  have hor : (payload ||| f.infinity) ||| (if negative then f.signBit else 0) = bits := by
    refine magnitude_or_sign h ?_
    have hdisj := Nat.two_pow_add_eq_or_of_lt h.fraction_lt field
    rw [BitVec.toNat_or, hpay, hinfinity, Nat.or_comm, Nat.mul_comm, hdisj]
  cases hclass' : f.nanClass bits with
  | false =>
    have hz : fraction = 0 := by
      by_contra hne
      exact Bool.false_ne_true (hclass'.symm.trans (h.nanClass_iff.mpr ⟨hfld, hne⟩))
    have hpay' : payload = 0 := BitVec.eq_of_toNat_eq (hpay.trans hz)
    rw [hpay'] at hor
    rw [if_neg Bool.false_ne_true, hor, BinaryFormat.signalingNanClass, hclass', Bool.false_and,
      if_neg Bool.false_ne_true]
    exact (BitVec.or_zero).symm
  | true =>
    have hquiet : (payload ||| f.quietBit ||| f.infinity) ||| (if negative then f.signBit else 0) =
        bits ||| f.quietBit := by
      rw [← hor]
      simp only [BitVec.or_assoc]
      rw [BitVec.or_comm f.quietBit, BitVec.or_assoc]
    rw [if_pos rfl, hquiet, BinaryFormat.signalingNanClass, hclass', Bool.true_and]
    by_cases hclear : bits &&& f.quietBit = 0
    · rw [decide_eq_true hclear, if_pos rfl]
    · have hbit : f.quietBit = BitVec.twoPow 64 (f.fractionBits - 1) := by cases f <;> rfl
      rw [hbit] at hclear ⊢
      rw [or_twoPow_of_bit hclear, decide_eq_false hclear, if_neg Bool.false_ne_true]
      exact (BitVec.or_zero).symm

/-- A number returns to its own encoding. -/
theorem encode_number (hfld : field ≠ 2 ^ f.exponentBits - 1) (rnd : RoundingMode) :
    let result := encode f (.fromBits (expand f bits)) rnd
    result.bits = (bits ||| if f.signalingNanClass bits then f.quietBit else 0) ∧
      result.invalid = f.signalingNanClass bits ∧ result.overflow = false ∧ result.inexact = false ∧
      result.incremented = false := by
  intro result
  obtain ⟨hsign, hfinite, hmag, hcases⟩ := expand_value h hfld
  have hres : result = encodeRounded f (.fromBits (expand f bits)) rnd := rfl
  have hsignaling : f.signalingNanClass bits = false := by
    rw [BinaryFormat.signalingNanClass, Bool.eq_false_iff.mpr fun hnan => hfld (h.nanClass_iff.mp hnan).1,
      Bool.false_and]
  have hlt := h.field_lt
  obtain ⟨hov, hinex, hinc, hown⟩ :
      let rounded := roundBinary f (expand f bits).unrounded rnd true
      rounded.overflow = false ∧ rounded.boundedInexact = false ∧ rounded.boundedIncremented = false ∧
        rounded.magnitude.toNat = field * 2 ^ f.fractionBits + fraction := by
    rcases hcases with ⟨hz, rfl, rfl⟩ | hlead
    · have hfld' := (expand_zero h rfl rfl).2.1
      rw [Nat.zero_mul]
      exact roundBinary_zero hz (BitVec.eq_of_toNat_eq hfld') rnd
    · exact roundBinary_own (by omega) h.fraction_lt hlead hmag rnd
  have hfields : result.bits =
      (roundBinary f (expand f bits).unrounded rnd true).magnitude.setWidth 64 |||
        (if negative then f.signBit else 0) ∧ result.invalid = false ∧ result.overflow = false ∧
      result.inexact = false ∧ result.incremented = false := by
    rw [hres]
    unfold encodeRounded
    rw [show (RepresentedValue.fromBits (expand f bits)).classification = .extended (expand f bits) from rfl]
    unfold Classification.extended
    dsimp only
    rw [show (RepresentedValue.fromBits (expand f bits)).bits = expand f bits from rfl, hfinite.not_unsupported,
      hfinite.not_special, hfinite.not_signalingNan, hsign]
    rw [Bool.or_false, Bool.not_false, hov, hinex, hinc]
    exact ⟨rfl, rfl, rfl, rfl, rfl⟩
  obtain ⟨hbits, hinv, hov', hinex', hinc'⟩ := hfields
  have hword : ((roundBinary f (expand f bits).unrounded rnd true).magnitude.setWidth 64).toNat =
      field * 2 ^ f.fractionBits + fraction := by
    rw [BitVec.toNat_setWidth, hown]
    refine Nat.mod_eq_of_lt (h.magnitude_lt.trans_le (Nat.pow_le_pow_right two_pos ?_))
    cases f <;> decide
  rw [hbits, hinv, hsignaling, magnitude_or_sign h hword, if_neg Bool.false_ne_true]
  exact ⟨(BitVec.or_zero).symm, rfl, hov', hinex', hinc'⟩

/-- Any encoding returns to itself, a signaling NaN quieted. -/
theorem encode_expand (rnd : RoundingMode) :
    let result := encode f (.fromBits (expand f bits)) rnd
    result.bits = (bits ||| if f.signalingNanClass bits then f.quietBit else 0) ∧
      result.invalid = f.signalingNanClass bits ∧ result.overflow = false ∧ result.inexact = false ∧
      result.incremented = false := by
  by_cases hfld : field = 2 ^ f.exponentBits - 1
  · exact encode_special h hfld rnd
  · exact encode_number h hfld rnd

/-- A loaded value's classes, computed from the narrow encoding, are those of its expansion. -/
theorem loadedBinary_eq (hquiet : f.signalingNanClass bits = false) :
    Classification.loadedBinary f bits = .extended (expand f bits) := by
  by_cases hfld : field = 2 ^ f.exponentBits - 1
  · obtain ⟨-, hspecial, hlead, hne, hnan, hsignaling, -⟩ := special_expand h hfld
    have hfinite : f.finiteClass bits = false :=
      Bool.eq_false_iff.mpr fun hfinite => h.finiteClass_iff.mp hfinite hfld
    have hinfinity : (expand f bits).infinity = f.infinityClass bits := by
      have hinfinity' : (expand f bits).infinity = !(expand f bits).nan := by
        rw [ExtendedBits.infinity, ExtendedBits.nan, hspecial, Bool.true_and, Bool.true_and, ← decide_not,
          decide_eq_decide, not_not]
      rw [hinfinity', hnan, Bool.eq_iff_iff, Bool.not_eq_true', ← Bool.not_eq_true, h.nanClass_iff, h.infinityClass_iff]
      refine ⟨fun hnot => ⟨hfld, ?_⟩, fun hz hnot => hnot.2 hz.2⟩
      by_contra hfrac
      exact hnot ⟨hfld, hfrac⟩
    have hnonzero : f.zeroClass bits = false := by
      refine Bool.eq_false_iff.mpr fun hz => ?_
      rw [(h.zeroClass_iff.mp hz).1] at hfld
      revert hfld
      cases f <;> decide
    rw [Classification.extended_leading hlead hne, hspecial, hnan, hsignaling, hinfinity, hquiet,
      Classification.loadedBinary, hfinite, hnonzero, Bool.and_false]
    rfl
  · have hfinite := h.finiteClass_iff.mpr hfld
    have hnan : f.nanClass bits = false := Bool.eq_false_iff.mpr fun hnan => hfld (h.nanClass_iff.mp hnan).1
    have hinfinity : f.infinityClass bits = false :=
      Bool.eq_false_iff.mpr fun hinfinity => hfld (h.infinityClass_iff.mp hinfinity).1
    obtain ⟨-, hnumber, -, hcases⟩ := expand_value h hfld
    rcases hcases with ⟨hz, hfld', hfrac⟩ | hlead
    · have hexp : (expand f bits).exponentField = 0 := BitVec.eq_of_toNat_eq (expand_zero h hfld' hfrac).2.1
      rw [Classification.extended_zero hz hexp, Classification.loadedBinary, hfinite, hnan, hinfinity,
        h.zeroClass_iff.mpr ⟨hfld', hfrac⟩]
      rfl
    · have hnonzero : f.zeroClass bits = false := by
        refine Bool.eq_false_iff.mpr fun hz => ?_
        obtain ⟨hfld', hfrac⟩ := h.zeroClass_iff.mp hz
        rw [(expand_zero h hfld' hfrac).2.2] at hlead
        exact absurd hlead (by decide)
      have hexp : (expand f bits).exponentField ≠ 0 := by
        by_cases hfld' : field = 0
        · have hfrac : fraction ≠ 0 := fun hfrac =>
            Bool.false_ne_true (hnonzero.symm.trans (h.zeroClass_iff.mpr ⟨hfld', hfrac⟩))
          obtain ⟨-, shift, hsh, hexp, -⟩ := expand_denormal h hfld' hfrac
          have hbias : f.bias ≤ 1023 := by cases f <;> decide
          intro hz
          rw [hz] at hexp
          exact absurd hexp (show (0 : ℕ) ≠ _ by omega)
        · obtain ⟨-, hexp, -⟩ := expand_leading h hfld'
          rw [if_neg hfld] at hexp
          intro hz
          rw [hz] at hexp
          exact absurd hexp (show (0 : ℕ) ≠ _ by omega)
      rw [Classification.extended_normal hlead hexp hnumber.exponent, Classification.loadedBinary, hfinite,
        hnan, hinfinity, hnonzero]
      rfl

end

theorem loadedBinary_eq_one : Classification.loadedBinary .binary32 0x3f800000 =
    .extended (expand .binary32 0x3f800000) := by
  obtain ⟨_, _, _, h⟩ : ∃ negative field fraction, BinaryFormat.HasFields .binary32 0x3f800000 negative field fraction :=
    BinaryFormat.exists_fields (by decide)
  exact loadedBinary_eq h (by decide)

/-- An encoding with its signaling NaN quieted. -/
def quieted (format : BinaryFormat) (bits : BitVec 64) : BitVec 64 :=
  bits ||| if format.signalingNanClass bits then format.quietBit else 0

/-! ## Exact inverses -/

theorem special_iff : bits.specialExponent = true ↔ bits.infinity = true ∨ bits.nan = true := by
  unfold ExtendedBits.infinity ExtendedBits.nan
  rw [Bool.and_eq_true, Bool.and_eq_true, decide_eq_true_iff, decide_eq_true_iff, ← and_or_left]
  exact (and_iff_left (em _)).symm

/-- A rounded value that a conversion leaves out of its destination. -/
def Excluded (bits : ExtendedBits) (range : Prop) : Prop :=
  bits.unsupported = true ∨ bits.infinity = true ∨ bits.nan = true ∨ ¬ range

/-- Signed integers survive the extended format. -/
theorem toSignedInteger_fromSignedInteger {type : MemoryInt} (integer : BitVec type.width) (rnd : RoundingMode) :
    let result := (RepresentedValue.fromSignedInteger integer).toSignedInteger rnd type
    result.bits.setWidth type.width = integer ∧ result.invalid = false ∧ result.inexact = false ∧
      result.incremented = false := by
  intro result
  obtain ⟨hsound, hfinite, hdecode⟩ := fromSignedInteger_spec integer
  obtain ⟨hinv, hval, hinex, hinc⟩ := toSignedInteger_spec hsound rnd type
  have hround : rnd.direction.round (RepresentedValue.fromSignedInteger integer).bits.decode = integer.toInt := by
    rw [hdecode, Direction.round_intCast]
  rw [hround] at hinv hval hinex hinc
  rw [hdecode] at hinex hinc
  rw [hfinite.not_unsupported, hfinite.not_special] at hinv
  have hlow := BitVec.le_toInt integer
  have hhi := @BitVec.toInt_lt type.width integer
  have hvalid : result.invalid = false := by
    refine Bool.eq_false_iff.mpr fun hinv' => ?_
    rcases hinv.mp hinv' with hfalse | hfalse | hrng
    · exact Bool.false_ne_true hfalse
    · exact Bool.false_ne_true hfalse
    · exact hrng ⟨hlow, hhi⟩
  refine ⟨BitVec.eq_of_toInt_eq (hval hvalid), hvalid,
    Bool.eq_false_iff.mpr fun hinex' => (hinex.mp hinex').2 rfl,
    Bool.eq_false_iff.mpr fun hinc' => lt_irrefl _ (hinc.mp hinc').2⟩

/-- Conversions are exact inverses within range. Integers, decimal digits and narrow encodings return unchanged from the
extended format under any rounding, a signaling NaN quieted and the reserved decimal bits clear; and any encoding is
invalid for an integer or decimal destination exactly when it is not a number or rounds out of range, and otherwise
gives its rounded value. -/
theorem conversions_exact (rounding : RoundingMode) :
    (∀ (type : MemoryInt) (integer : BitVec type.width),
      let result := (RepresentedValue.fromSignedInteger integer).toSignedInteger rounding type
      result.bits.setWidth type.width = integer ∧ result.invalid = false ∧ result.inexact = false ∧
        result.incremented = false) ∧
    (∀ bcd : PackedBcd, bcd.ValidDigits →
      let result := bcd.decode.toPackedBcd rounding
      result.bits = ⟨bcd.low, bcd.high &&& 0x80ff⟩ ∧ result.invalid = false ∧ result.inexact = false ∧
        result.incremented = false) ∧
    (∀ (format : BinaryFormat) (bits : BitVec 64), bits.toNat < 2 ^ format.width →
      (∀ kind, Established format bits kind →
        let result := encode format (.fromBits (expandClassified format bits kind)) rounding
        result.bits = quieted format bits ∧ result.invalid = format.signalingNanClass bits ∧ result.inexact = false ∧
          result.incremented = false) ∧
      let result := encode format (loadedValue format bits) rounding
      result.bits = quieted format bits ∧ result.invalid = false ∧ result.inexact = false ∧
        result.incremented = false) ∧
    (∀ (bits : ExtendedBits) (type : MemoryInt),
      let result := (RepresentedValue.fromBits bits).toSignedInteger rounding type
      let y := rounding.direction.round bits.decode
      (result.invalid = true ↔ Excluded bits (-2 ^ (type.width - 1) ≤ y ∧ y < 2 ^ (type.width - 1))) ∧
        (result.invalid = false → (result.bits.setWidth type.width).toInt = y) ∧
        (result.inexact = true ↔ result.invalid = false ∧ (y : ℚ) ≠ bits.decode) ∧
        (result.incremented = true ↔ result.invalid = false ∧ |bits.decode| < |(y : ℚ)|)) ∧
    (∀ bits : ExtendedBits,
      let result := (RepresentedValue.fromBits bits).toPackedBcd rounding
      let y := rounding.direction.round bits.decode
      (result.invalid = true ↔ Excluded bits (y.natAbs < 10 ^ 18)) ∧
        (result.invalid = false → result.bits.ValidDigits ∧ result.bits.reserved = 0 ∧
          result.bits.negative = bits.negative ∧ y = sign ℤ result.bits.negative * result.bits.magnitude.toNat) ∧
        (result.inexact = true ↔ result.invalid = false ∧ (y : ℚ) ≠ bits.decode) ∧
        (result.incremented = true ↔ result.invalid = false ∧ |bits.decode| < |(y : ℚ)|)) := by
  refine ⟨fun type integer => toSignedInteger_fromSignedInteger integer rounding,
    fun bcd h => toPackedBcd_decode h rounding, fun format bits h => ⟨fun kind hkind => ?_, ?_⟩, fun bits type => ?_,
    fun bits => ?_⟩
  · obtain ⟨negative, field, fraction, hfields⟩ := BinaryFormat.exists_fields h
    rw [expandClassified_established hfields hkind]
    obtain ⟨hbits, hinvalid, -, hinexact, hincremented⟩ := encode_expand hfields rounding
    exact ⟨hbits, hinvalid, hinexact, hincremented⟩
  · have hexact : encode format (loadedValue format bits) rounding = encodeExact format (quieted format bits) none := by
      show (if format = format then some _ else none).getD _ = _
      rw [if_pos rfl]
      rfl
    rw [hexact]
    exact ⟨rfl, rfl, rfl, rfl⟩
  · obtain ⟨hinvalid, hvalue⟩ := toSignedInteger_spec (RepresentedValue.sound_fromBits bits) rounding type
    refine ⟨hinvalid.trans ?_, hvalue⟩
    rw [special_iff, or_assoc]
    rfl
  · obtain ⟨hinvalid, hvalue⟩ := toPackedBcd_spec (RepresentedValue.sound_fromBits bits) rounding
    refine ⟨hinvalid.trans ?_, hvalue⟩
    rw [special_iff, or_assoc, ← not_lt]
    rfl

/-- Decimal −99 returns under rounding to nearest. -/
theorem minus_ninety_nine :
    (PackedBcd.mk 0x99 0x8000).ValidDigits ∧
      ((PackedBcd.mk 0x99 0x8000).decode.toPackedBcd (.new 0)).bits = ⟨0x99, 0x8000⟩ := by
  have hvalid : (PackedBcd.mk 0x99 0x8000).ValidDigits := by
    unfold PackedBcd.ValidDigits
    decide
  exact ⟨hvalid, ((conversions_exact (.new 0)).2.1 _ hvalid).1⟩

/-- A reserved bit is not kept. -/
theorem reserved_bit_lost :
    ¬ ∀ (bcd : PackedBcd) (rounding : RoundingMode), bcd.ValidDigits →
      (bcd.decode.toPackedBcd rounding).bits = bcd := by
  intro hall
  have hvalid : (PackedBcd.mk 0 0x100).ValidDigits := by
    unfold PackedBcd.ValidDigits
    decide
  have hkept := hall ⟨0, 0x100⟩ (.new 0) hvalid
  rw [(toPackedBcd_decode hvalid (.new 0)).1] at hkept
  exact absurd hkept (by decide)

end Relocade.X87
