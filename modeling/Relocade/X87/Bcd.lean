import Relocade.Words.Recode
import Relocade.X87.Integer

/-!
# `X87.Bcd` — packed decimal

Eighteen digits, two to a byte, and a separate sign. Reading the digits is recoding them from base 16 to base 10
(`magnitude_eq`) and writing them is recoding back (`encode_eq`), so a value of valid digits is unchanged
(`encode_decode`) and a rounded value is written digit by digit (`toPackedBcd_spec`).
-/

namespace Relocade.X87

open Rounding Floating

/-! ## Operations -/

/-- Sixteen low digits; two high digits in bits 0–7 and the sign in bit 15. -/
@[ext]
structure PackedBcd where
  low : BitVec 64
  high : BitVec 16
  deriving DecidableEq, Repr

namespace PackedBcd

variable (bcd : PackedBcd)

def digit (index : ℕ) : BitVec 64 :=
  if index < 16 then bcd.low >>> (index * 4) &&& 0xf else (bcd.high >>> ((index - 16) * 4) &&& 0xf).setWidth 64

/-- The loop of `decode`, from the highest digit. Malformed digits are not checked. -/
def magnitude : BitVec 64 := (List.range 18).reverse.foldl (fun magnitude index => magnitude * 10 + bcd.digit index) 0

def negative : Bool := bcd.high &&& 0x8000 ≠ 0

def decode : RepresentedValue :=
  (RepresentedValue.fromBits (.fromIntegerMagnitude bcd.magnitude bcd.negative)).assumeClass
    (if bcd.magnitude = 0 then .zero else .normal)

/-- What the loop of `encode` has left and has written. -/
structure Encoding where
  magnitude : BitVec 64
  low : BitVec 64
  high : BitVec 16

/-- Two digits of a byte. -/
def digits (pair : BitVec 32) : BitVec 32 := (pair / 10) <<< 4 ||| pair % 10

def Encoding.byte (e : Encoding) (byte : ℕ) : Encoding :=
  let digits := digits ((e.magnitude % 100).setWidth 32)
  { magnitude := e.magnitude / 100
    low := if byte < 8 then e.low ||| digits.setWidth 64 <<< (byte * 8) else e.low
    high := if byte < 8 then e.high else e.high ||| digits.setWidth 16 }

def encode (magnitude : BitVec 64) (negative : Bool) : PackedBcd :=
  let e := (List.range 9).foldl Encoding.byte ⟨magnitude, 0, if negative then 0x8000 else 0⟩
  ⟨e.low, e.high⟩

end PackedBcd

/-- A value that the eighteen digits do not hold is the decimal indefinite. -/
def RepresentedValue.toPackedBcd (value : RepresentedValue) (rounding : RoundingMode) : ConversionResult PackedBcd :=
  let negative := value.bits.negative
  let result := value.toIntegerMagnitude rounding 999999999999999999
  result.mapBits fun magnitude =>
    let bcd := PackedBcd.encode magnitude negative
    { low := if result.invalid then 0xc000000000000000 else bcd.low
      high := if result.invalid then 0xffff else bcd.high }

/-! ## Digits as one number -/

namespace PackedBcd

open Words

/-- Every digit is decimal. -/
def ValidDigits (bcd : PackedBcd) : Prop := ∀ index < 18, (bcd.digit index).toNat < 10

/-- The eighteen digits in base 16. -/
def packed (bcd : PackedBcd) : ℕ := bcd.low.toNat + 2 ^ 64 * (bcd.high.toNat % 2 ^ 8)

variable {bcd : PackedBcd}

theorem packed_lt (bcd : PackedBcd) : bcd.packed < 16 ^ 18 := by
  have hlow := bcd.low.isLt
  have hhi := Nat.mod_lt bcd.high.toNat (show 0 < 2 ^ 8 by decide)
  unfold packed
  omega

theorem toNat_digit {index : ℕ} (h : index < 18) : (bcd.digit index).toNat = bcd.packed / 16 ^ index % 16 := by
  have hmask {w : ℕ} (word : BitVec w) (mask : BitVec w) (hmask : mask.toNat = 2 ^ 4 - 1) (k : ℕ) :
      (word >>> (k * 4) &&& mask).toNat = word.toNat / 16 ^ k % 16 := by
    rw [BitVec.toNat_and, hmask, Nat.and_two_pow_sub_one_eq_mod, BitVec.toNat_ushiftRight, Nat.shiftRight_eq_div_pow,
      Nat.mul_comm, pow_mul]
    rfl
  unfold digit packed
  by_cases hlow : index < 16
  · obtain ⟨k, hk⟩ := Nat.exists_eq_add_of_lt hlow
    have hpower : 2 ^ 64 = 16 ^ index * (16 * 16 ^ k) := by
      rw [← pow_succ', ← pow_add, show index + (k + 1) = 16 by omega]
      rfl
    rw [if_pos hlow, hmask _ _ rfl, hpower, Nat.mul_assoc, Nat.add_mul_div_left _ _ (by positivity), Nat.mul_assoc,
      Nat.add_mul_mod_self_left]
  · rw [if_neg hlow, BitVec.toNat_setWidth, hmask _ _ rfl]
    have hword := bcd.low.isLt
    rcases (show index = 16 ∨ index = 17 by omega) with rfl | rfl
    · norm_num
      omega
    · norm_num
      omega

theorem validDigits_iff : bcd.ValidDigits ↔ DigitsFit 16 10 18 bcd.packed :=
  forall₂_congr fun index h => by rw [toNat_digit h]

/-- The loop of `decode` recodes the digits. -/
theorem fold_digits (bcd : PackedBcd) {k : ℕ} (hk : k ≤ 18) (acc : ℕ) :
    (List.range k).reverse.foldl (fun magnitude index => magnitude * 10 + bcd.digit index) (BitVec.ofNat 64 acc) =
      BitVec.ofNat 64 (acc * 10 ^ k + recode 16 10 k bcd.packed) := by
  induction k generalizing acc with
  | zero => rw [pow_zero, Nat.mul_one]; rfl
  | succ k ih =>
    have hdigit : bcd.digit k = BitVec.ofNat 64 (bcd.packed / 16 ^ k % 16) := by
      rw [← toNat_digit (Nat.lt_of_succ_le hk), BitVec.ofNat_toNat, BitVec.setWidth_eq]
    have hstep : BitVec.ofNat 64 acc * 10 + bcd.digit k = BitVec.ofNat 64 (acc * 10 + bcd.packed / 16 ^ k % 16) := by
      rw [hdigit, BitVec.ofNat_add, BitVec.ofNat_mul]
      rfl
    rw [List.range_succ, List.reverse_concat, List.foldl_cons, hstep, ih (Nat.le_of_succ_le hk), recode_add 16 10 k 1]
    congr 1
    show (acc * 10 + bcd.packed / 16 ^ k % 16) * 10 ^ k + recode 16 10 k bcd.packed =
      acc * 10 ^ (k + 1) + (recode 16 10 k bcd.packed + 10 ^ k * (bcd.packed / 16 ^ k % 16 + 10 * 0))
    ring

theorem toNat_magnitude (h : bcd.ValidDigits) : bcd.magnitude.toNat = recode 16 10 18 bcd.packed := by
  have hlt := recode_lt (validDigits_iff.mp h)
  have hfold := fold_digits bcd (Nat.le_refl 18) 0
  rw [Nat.zero_mul, Nat.zero_add] at hfold
  rw [magnitude]
  refine (congrArg BitVec.toNat hfold).trans ?_
  rw [BitVec.toNat_ofNat]
  exact Nat.mod_eq_of_lt (by omega)

variable (magnitude : BitVec 64)

/-- Two digits of a byte, recoded. -/
theorem toNat_digits : (digits ((magnitude % 100).setWidth 32)).toNat = recode 10 16 2 magnitude.toNat := by
  have hpair : ((magnitude % 100).setWidth 32).toNat = magnitude.toNat % 100 := by
    rw [BitVec.toNat_setWidth, BitVec.toNat_umod]
    show magnitude.toNat % 100 % 2 ^ 32 = _
    omega
  have hhi : (((magnitude % 100).setWidth 32 / 10) <<< 4).toNat = 2 ^ 4 * (magnitude.toNat % 100 / 10) := by
    rw [BitVec.toNat_shiftLeft, BitVec.toNat_udiv, hpair, Nat.shiftLeft_eq]
    show magnitude.toNat % 100 / 10 * 2 ^ 4 % 2 ^ 32 = _
    omega
  have hlow : ((magnitude % 100).setWidth 32 % 10).toNat = magnitude.toNat % 100 % 10 := by
    rw [BitVec.toNat_umod, hpair]
    rfl
  rw [digits, BitVec.toNat_or, hhi, hlow, ← Nat.two_pow_add_eq_or_of_lt (by omega)]
  show _ = magnitude.toNat % 10 + 16 * (magnitude.toNat / 10 % 10 + 16 * 0)
  omega

/-- The first eight bytes write sixteen digits. -/
theorem fold_bytes (sign : BitVec 16) {k : ℕ} (hk : k ≤ 8) :
    let e := (List.range k).foldl Encoding.byte ⟨magnitude, 0, sign⟩
    e.magnitude.toNat = magnitude.toNat / 10 ^ (2 * k) ∧ e.low.toNat = recode 10 16 (2 * k) magnitude.toNat ∧
      e.high = sign := by
  induction k with
  | zero => exact ⟨(Nat.div_one _).symm, rfl, rfl⟩
  | succ k ih =>
    obtain ⟨hmag, hlow, hhi⟩ := ih (Nat.le_of_succ_le hk)
    rw [List.range_succ, List.foldl_concat]
    generalize (List.range k).foldl Encoding.byte ⟨magnitude, 0, sign⟩ = e at *
    have hbyte : k < 8 := hk
    have hpower : 2 ^ (k * 8) = 16 ^ (2 * k) := by
      rw [show k * 8 = 4 * (2 * k) by omega, pow_mul]
      rfl
    have hlt : e.low.toNat < 2 ^ (k * 8) := by
      rw [hlow, hpower]
      exact recode_lt (digitsFit_of_le (by decide) (by decide) _ _)
    have hdigits := toNat_digits e.magnitude
    have hdigits' : recode 10 16 2 e.magnitude.toNat < 2 ^ 8 :=
      recode_lt (c := 16) (k := 2) (digitsFit_of_le (by decide) (by decide) _ _)
    have hshd : ((digits ((e.magnitude % 100).setWidth 32)).setWidth 64 <<< (k * 8)).toNat =
        2 ^ (k * 8) * recode 10 16 2 e.magnitude.toNat := by
      have hle : 2 ^ (k * 8) * recode 10 16 2 e.magnitude.toNat < 2 ^ 64 := by
        calc 2 ^ (k * 8) * recode 10 16 2 e.magnitude.toNat < 2 ^ (k * 8) * 2 ^ 8 :=
              Nat.mul_lt_mul_of_pos_left hdigits' (Nat.two_pow_pos _)
          _ ≤ 2 ^ 64 := by
              rw [← pow_add]
              exact Nat.pow_le_pow_right two_pos (by omega)
      rw [BitVec.toNat_shiftLeft, BitVec.toNat_setWidth, hdigits,
        Nat.mod_eq_of_lt (show recode 10 16 2 e.magnitude.toNat < 2 ^ 64 by omega), Nat.shiftLeft_eq, Nat.mul_comm,
        Nat.mod_eq_of_lt hle]
    refine ⟨?_, ?_, ?_⟩
    · show (e.magnitude / 100).toNat = _
      rw [BitVec.toNat_udiv, hmag]
      show magnitude.toNat / 10 ^ (2 * k) / 100 = magnitude.toNat / 10 ^ (2 * k + 2)
      rw [Nat.div_div_eq_div_mul, pow_add]
      rfl
    · show (if k < 8 then e.low ||| (digits ((e.magnitude % 100).setWidth 32)).setWidth 64 <<< (k * 8)
        else e.low).toNat = recode 10 16 (2 * k + 2) magnitude.toNat
      rw [if_pos hbyte, BitVec.toNat_or, hshd, Nat.or_comm, ← Nat.two_pow_add_eq_or_of_lt hlt, hlow, hmag,
        recode_add, hpower, Nat.add_comm]
    · show (if k < 8 then e.high else _) = sign
      rw [if_pos hbyte, hhi]

/-- Writing a magnitude recodes it. -/
theorem encode_eq (neg : Bool) :
    (encode magnitude neg).low.toNat = recode 10 16 16 magnitude.toNat ∧
      (encode magnitude neg).high.toNat = neg.toNat * 2 ^ 15 + recode 10 16 2 (magnitude.toNat / 10 ^ 16) := by
  obtain ⟨hmag, hlow, hhi⟩ := fold_bytes magnitude (if neg then 0x8000 else 0) (Nat.le_refl 8)
  unfold encode
  rw [show List.range 9 = List.range 8 ++ [8] from rfl, List.foldl_concat]
  generalize (List.range 8).foldl Encoding.byte ⟨magnitude, 0, if neg then 0x8000 else 0⟩ = e at *
  refine ⟨hlow, ?_⟩
  have hdigits := toNat_digits e.magnitude
  have hdigits' : recode 10 16 2 e.magnitude.toNat < 2 ^ 8 :=
    recode_lt (c := 16) (k := 2) (digitsFit_of_le (by decide) (by decide) _ _)
  have hword : ((digits ((e.magnitude % 100).setWidth 32)).setWidth 16).toNat = recode 10 16 2 e.magnitude.toNat := by
    rw [BitVec.toNat_setWidth, hdigits, Nat.mod_eq_of_lt (by omega)]
  show (e.high ||| (digits ((e.magnitude % 100).setWidth 32)).setWidth 16).toNat = _
  rw [BitVec.toNat_or, hword, hhi, ← hmag]
  cases neg with
  | false =>
    show 0 ||| recode 10 16 2 e.magnitude.toNat = 0 * 2 ^ 15 + recode 10 16 2 e.magnitude.toNat
    rw [Nat.zero_or, Nat.zero_mul, Nat.zero_add]
  | true => exact (Nat.two_pow_add_eq_or_of_lt (show recode 10 16 2 e.magnitude.toNat < 2 ^ 15 by omega) 1).symm

/-- Bits 8–14. -/
def reserved (bcd : PackedBcd) : BitVec 7 := bcd.high.extractLsb' 8 7

theorem negative_eq (bcd : PackedBcd) : bcd.negative = bcd.high.msb := ExtendedBits.negative_eq ⟨0, bcd.high⟩

/-- A written magnitude reads back. -/
theorem encode_spec {magnitude : BitVec 64} (h : magnitude.toNat < 10 ^ 18) (neg : Bool) :
    (encode magnitude neg).ValidDigits ∧ (encode magnitude neg).magnitude = magnitude ∧
      (encode magnitude neg).negative = neg ∧ (encode magnitude neg).reserved = 0 := by
  obtain ⟨hlow, hhi⟩ := encode_eq magnitude neg
  have hlast : recode 10 16 2 (magnitude.toNat / 10 ^ 16) < 2 ^ 8 :=
    recode_lt (c := 16) (k := 2) (digitsFit_of_le (by decide) (by decide) _ _)
  have hpacked : (encode magnitude neg).packed = recode 10 16 18 magnitude.toNat := by
    rw [packed, hlow, hhi, show 18 = 16 + 2 from rfl, recode_add]
    show _ + 2 ^ 64 * _ = _ + 2 ^ 64 * _
    omega
  have hvalid : (encode magnitude neg).ValidDigits := by
    rw [validDigits_iff, hpacked]
    exact digitsFit_recode (by decide) (digitsFit_of_le (by decide) (by decide) _ _)
  refine ⟨hvalid, BitVec.eq_of_toNat_eq ?_, ?_, BitVec.eq_of_toNat_eq ?_⟩
  · rw [toNat_magnitude hvalid, hpacked, recode_recode (digitsFit_of_le (by decide) (by decide) _ _),
      Nat.mod_eq_of_lt h]
  · rw [negative_eq, BitVec.msb_eq_decide, hhi]
    cases neg with
    | false => exact decide_eq_false (by rw [Bool.toNat_false]; omega)
    | true => exact decide_eq_true (by rw [Bool.toNat_true]; omega)
  · have hbit := Bool.toNat_le neg
    rw [reserved, BitVec.extractLsb'_toNat, hhi, Nat.shiftRight_eq_div_pow]
    show _ = 0
    omega

/-- A value of decimal digits is written as it was read, its reserved bits clear. -/
theorem encode_decode (h : bcd.ValidDigits) :
    encode bcd.magnitude bcd.negative = ⟨bcd.low, bcd.high &&& 0x80ff⟩ := by
  obtain ⟨hlow, hhi⟩ := encode_eq bcd.magnitude bcd.negative
  have hword := bcd.low.isLt
  have hwords := recode_add 10 16 16 2 bcd.magnitude.toNat
  have hpacked : recode 10 16 18 bcd.magnitude.toNat = bcd.packed := by
    rw [toNat_magnitude h, recode_recode (validDigits_iff.mp h), Nat.mod_eq_of_lt bcd.packed_lt]
  have hfst : recode 10 16 16 bcd.magnitude.toNat < 2 ^ 64 :=
    recode_lt (c := 16) (k := 16) (digitsFit_of_le (by decide) (by decide) _ _)
  rw [show 16 + 2 = 18 from rfl, hpacked] at hwords
  have hwords' : bcd.low.toNat + 2 ^ 64 * (bcd.high.toNat % 2 ^ 8) =
      recode 10 16 16 bcd.magnitude.toNat + 2 ^ 64 * recode 10 16 2 (bcd.magnitude.toNat / 10 ^ 16) := hwords
  have hmask : (bcd.high &&& 0x80ff).toNat = bcd.negative.toNat * 2 ^ 15 + bcd.high.toNat % 2 ^ 8 := by
    have hsplit : bcd.high &&& 0x80ff = bcd.high &&& 0x8000 ||| bcd.high &&& 0xff := by
      rw [← BitVec.and_or_distrib_left]
      rfl
    have hdigits : (bcd.high &&& 0xff).toNat = bcd.high.toNat % 2 ^ 8 := by
      rw [BitVec.toNat_and]
      exact Nat.and_two_pow_sub_one_eq_mod _ 8
    have hsign : (bcd.high &&& 0x8000).toNat = 2 ^ 15 * bcd.negative.toNat := by
      rw [show (0x8000 : BitVec 16) = BitVec.twoPow 16 15 from rfl, BitVec.and_twoPow, negative_eq,
        BitVec.msb_eq_getLsbD_last]
      cases bcd.high.getLsbD (16 - 1) <;> rfl
    rw [hsplit, BitVec.toNat_or, hdigits, hsign, ← Nat.two_pow_add_eq_or_of_lt (by omega), Nat.mul_comm]
  ext1
  · apply BitVec.eq_of_toNat_eq
    show _ = bcd.low.toNat
    rw [hlow]
    omega
  · apply BitVec.eq_of_toNat_eq
    rw [hhi, hmask]
    omega

/-! ## Conversions -/

/-- A decoded value has the value of its digits. -/
theorem decode_spec (bcd : PackedBcd) :
    bcd.decode.Sound ∧ bcd.decode.bits.negative = bcd.negative ∧
      bcd.decode.bits.decode = ((sign ℤ bcd.negative * bcd.magnitude.toNat : ℤ) : ℚ) ∧ bcd.decode.bits.Finite := by
  obtain ⟨hsign, hmag, hfinite, hclass⟩ := fromIntegerMagnitude_spec bcd.magnitude bcd.negative
  refine ⟨hclass.symm, hsign, ?_, hfinite⟩
  rw [ExtendedBits.decode_eq, Int.cast_mul, cast_sign, Int.cast_natCast]
  exact congrArg₂ _ (congrArg _ hsign) hmag

end PackedBcd

variable {value : RepresentedValue}

/-- A conversion to packed decimal is invalid exactly outside eighteen digits, and otherwise writes the rounded value
with its own sign. -/
theorem toPackedBcd_spec (h : value.Sound) (rnd : RoundingMode) :
    let result := value.toPackedBcd rnd
    let y := rnd.direction.round value.bits.decode
    (result.invalid = true ↔
        value.bits.unsupported = true ∨ value.bits.specialExponent = true ∨ 10 ^ 18 ≤ y.natAbs) ∧
      (result.invalid = false → result.bits.ValidDigits ∧ result.bits.reserved = 0 ∧
        result.bits.negative = value.bits.negative ∧ y = sign ℤ result.bits.negative * result.bits.magnitude.toNat) ∧
      (result.inexact = true ↔ result.invalid = false ∧ (y : ℚ) ≠ value.bits.decode) ∧
      (result.incremented = true ↔ result.invalid = false ∧ |value.bits.decode| < |(y : ℚ)|) := by
  intro result y
  obtain ⟨hinv, hval, hinex, hinc⟩ := toIntegerMagnitude_spec h rnd 999999999999999999
  refine ⟨hinv, fun hvalid => ?_, hinex, hinc⟩
  have hy := hval hvalid
  have hlimit : y.natAbs < 10 ^ 18 :=
    Nat.lt_succ_of_le (not_lt.mp fun hlt => Bool.eq_false_iff.mp hvalid (hinv.mpr (Or.inr (Or.inr hlt))))
  have hnatAbs := congrArg Int.natAbs hy
  rw [natAbs_sign_mul] at hnatAbs
  have hbits : result.bits =
      PackedBcd.encode (value.toIntegerMagnitude rnd 999999999999999999).bits value.bits.negative := by
    show PackedBcd.mk (if result.invalid then _ else _) (if result.invalid then _ else _) = _
    rw [hvalid, if_neg Bool.false_ne_true, if_neg Bool.false_ne_true]
  obtain ⟨hdigits, hmag, hneg, hresv⟩ :=
    @PackedBcd.encode_spec (value.toIntegerMagnitude rnd 999999999999999999).bits
      (hnatAbs ▸ hlimit) value.bits.negative
  rw [hbits]
  refine ⟨hdigits, hresv, hneg, ?_⟩
  rw [hneg, hmag]
  exact hy

/-- Decimal digits survive the extended format under any rounding. -/
theorem toPackedBcd_decode {bcd : PackedBcd} (h : bcd.ValidDigits) (rnd : RoundingMode) :
    let result := bcd.decode.toPackedBcd rnd
    result.bits = ⟨bcd.low, bcd.high &&& 0x80ff⟩ ∧ result.invalid = false ∧ result.inexact = false ∧
      result.incremented = false := by
  intro result
  obtain ⟨hsound, hsign, hdecode, hfinite⟩ := bcd.decode_spec
  obtain ⟨hinv, -, hinex, hinc⟩ := toPackedBcd_spec hsound rnd
  obtain ⟨-, hval, -, -⟩ := toIntegerMagnitude_spec hsound rnd 999999999999999999
  have hlt : bcd.magnitude.toNat < 10 ^ 18 := by
    rw [PackedBcd.toNat_magnitude h]
    exact Words.recode_lt (PackedBcd.validDigits_iff.mp h)
  have hround : rnd.direction.round bcd.decode.bits.decode = sign ℤ bcd.negative * bcd.magnitude.toNat := by
    rw [hdecode, Direction.round_intCast]
  rw [hround, natAbs_sign_mul, hfinite.not_unsupported, hfinite.not_special] at hinv
  have hvalid : result.invalid = false := by
    refine Bool.eq_false_iff.mpr fun hinv' => ?_
    rcases hinv.mp hinv' with hfalse | hfalse | hle
    · exact Bool.false_ne_true hfalse
    · exact Bool.false_ne_true hfalse
    · exact absurd hlt (not_lt.mpr hle)
  have hmag : (bcd.decode.toIntegerMagnitude rnd 999999999999999999).bits = bcd.magnitude := by
    have hnatAbs := congrArg Int.natAbs (hval hvalid)
    rw [hround, natAbs_sign_mul, natAbs_sign_mul] at hnatAbs
    exact BitVec.eq_of_toNat_eq hnatAbs.symm
  have hbits : result.bits = PackedBcd.encode (bcd.decode.toIntegerMagnitude rnd 999999999999999999).bits
      bcd.decode.bits.negative := by
    show PackedBcd.mk (if result.invalid then _ else _) (if result.invalid then _ else _) = _
    rw [hvalid, if_neg Bool.false_ne_true, if_neg Bool.false_ne_true]
  rw [hround, hdecode] at hinex hinc
  refine ⟨?_, hvalid, Bool.eq_false_iff.mpr fun hinex' => (hinex.mp hinex').2 rfl,
    Bool.eq_false_iff.mpr fun hinc' => lt_irrefl _ (hinc.mp hinc').2⟩
  rw [hbits, hmag, hsign, PackedBcd.encode_decode h]

end Relocade.X87
