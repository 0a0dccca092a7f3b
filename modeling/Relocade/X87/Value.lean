import Relocade.Floating.Classification
import Relocade.X87.Operand

/-!
# `X87.Value` — extended values and their representations

A value keeps the representation that it was built with, and may carry an established class. Both are evidence only: a
value is sound when its classification is that of its 80 bits (`Sound`). A narrow encoding expands as its fields say,
with or without an established class (`expandClassified_established`).
-/

namespace Relocade.X87

open Rounding Floating

/-! ## Classes -/

inductive KnownClass where
  | normal
  | zero
  | quietNan
  deriving DecidableEq, Repr

/-- What a value is known to be. -/
@[ext]
structure Classification where
  normal : Bool
  normalOrZero : Bool
  zero : Bool
  specialExponent : Bool
  infinity : Bool
  nan : Bool
  signalingNan : Bool
  denormal : Bool
  unsupported : Bool
  deriving DecidableEq, Repr

namespace Classification

def known (kind : KnownClass) : Classification where
  normal := kind = .normal
  normalOrZero := kind ≠ .quietNan
  zero := kind = .zero
  specialExponent := kind = .quietNan
  infinity := false
  nan := kind = .quietNan
  signalingNan := false
  denormal := false
  unsupported := false

/-- Loading normalizes narrow subnormals and quiets NaNs. -/
def loadedBinary (format : BinaryFormat) (bits : BitVec 64) : Classification where
  normal := !format.zeroClass bits && format.finiteClass bits
  normalOrZero := format.finiteClass bits
  zero := format.zeroClass bits
  specialExponent := !format.finiteClass bits
  infinity := format.infinityClass bits
  nan := format.nanClass bits
  signalingNan := false
  denormal := false
  unsupported := false

def extended (bits : ExtendedBits) : Classification where
  normal := bits.normal
  normalOrZero := bits.normalOrZero
  zero := bits.zero
  specialExponent := bits.specialExponent
  infinity := bits.infinity
  nan := bits.nan
  signalingNan := bits.signalingNan
  denormal := bits.denormal
  unsupported := bits.unsupported

end Classification

/-! ## Expansion -/

def exponentMask (format : BinaryFormat) : BitVec 64 := BitVec.ofNat 64 (1 <<< format.exponentBits) - 1

def narrowExponent (format : BinaryFormat) (bits : BitVec 64) : BitVec 64 :=
  bits >>> format.fractionBits &&& exponentMask format

/-- The fraction below an integer bit at 63. -/
def shiftedFraction (format : BinaryFormat) (bits : BitVec 64) : BitVec 64 :=
  (bits &&& (BitVec.ofNat 64 (1 <<< format.fractionBits) - 1)) <<< (63 - format.fractionBits)

/-- Expands an encoding exactly. An established class leaves out the cases that it excludes. -/
def expandClassified (format : BinaryFormat) (bits : BitVec 64) (kind : Option KnownClass) : ExtendedBits :=
  let exponent := narrowExponent format bits
  let sign := (bits >>> (format.fractionBits + format.exponentBits)).setWidth 16 <<< 15
  let zeroExponent :=
    match kind with
    | some kind => (Classification.known kind).zero
    | none => exponent = 0
  let special :=
    match kind with
    | some kind => (Classification.known kind).specialExponent
    | none => exponent = exponentMask format
  let denormal :=
    match kind with
    | some _ => false
    | none => format.denormalClass bits
  let fraction := shiftedFraction format bits
  -- Narrow subnormals are normal extended values.
  let shift := fraction.clz
  let significand :=
    if denormal then shl fraction (shift.setWidth 32) else fraction ||| (if zeroExponent then 0 else LEADING)
  let finiteExponent :=
    if denormal then BitVec.ofNat 64 (16384 - format.bias) - shift
    else if zeroExponent then 0
    else exponent + BitVec.ofNat 64 (16383 - format.bias)
  { significand
    signExponent := sign ||| (if special then 0x7fff else finiteExponent).setWidth 16 }

def expand (format : BinaryFormat) (bits : BitVec 64) : ExtendedBits := expandClassified format bits none

/-- What an established class says of the narrow encoding. -/
def Established (format : BinaryFormat) (bits : BitVec 64) : Option KnownClass → Prop
  | none => True
  | some .normal => format.finiteClass bits = true ∧ format.zeroClass bits = false ∧ format.denormalClass bits = false
  | some .zero => format.zeroClass bits = true
  | some .quietNan => format.nanClass bits = true ∧ format.signalingNanClass bits = false

/-! ## Values -/

/-- How a value was built. A significand of 53 bits is kept beside its extended encoding, which stands for it here. -/
inductive Representation where
  | extended (bits : ExtendedBits)
  | binary (format : BinaryFormat) (bits : BitVec 64) (nativeClass : Option KnownClass)

/-- `ExtendedValue`, with the representation it was built with. -/
structure RepresentedValue where
  representation : Representation
  kind : Option KnownClass

namespace RepresentedValue

def fromBits (bits : ExtendedBits) : RepresentedValue := ⟨.extended bits, none⟩

def fromBinary (format : BinaryFormat) (bits : BitVec 64) : RepresentedValue := ⟨.binary format bits none, none⟩

def assumeClass (value : RepresentedValue) (kind : KnownClass) : RepresentedValue := { value with kind := some kind }

variable (value : RepresentedValue)

def bits : ExtendedBits :=
  match value.representation with
  | .extended bits => bits
  | .binary format bits nativeClass => expandClassified format bits nativeClass

def classification : Classification :=
  match value.kind with
  | some kind => .known kind
  | none =>
      match value.representation with
      | .extended bits => .extended bits
      | .binary format bits _ => .loadedBinary format bits

/-- The value's evidence agrees with its encoding. -/
def Sound : Prop := value.classification = .extended value.bits

theorem sound_fromBits (bits : ExtendedBits) : (fromBits bits).Sound := rfl

end RepresentedValue

/-- A binary operand, quieted when it is loaded. -/
def loadedValue (format : BinaryFormat) (bits : BitVec 64) : RepresentedValue :=
  .fromBinary format (bits ||| if format.signalingNanClass bits then format.quietBit else 0)

/-! ## Classes of fields -/

namespace Classification

variable {bits : ExtendedBits}

/-- The class of a zero. -/
theorem extended_zero (hsig : bits.significand = 0) (hfld : bits.exponentField = 0) :
    extended bits = known .zero := by
  have hspec : bits.specialExponent = false := by
    rw [ExtendedBits.specialExponent, hfld]
    rfl
  have hnan : bits.nan = false := by rw [ExtendedBits.nan, hspec, Bool.false_and]
  have hz : bits.zero = true := decide_eq_true ⟨hfld, hsig⟩
  have hnorm : bits.normal = false := decide_eq_false fun h => h.1 hfld
  ext1
  · exact hnorm
  · show (bits.normal || bits.zero) = true
    rw [hz, Bool.or_true]
  · exact hz
  · exact hspec
  · show bits.infinity = false
    rw [ExtendedBits.infinity, hspec, Bool.false_and]
  · exact hnan
  · show bits.signalingNan = false
    rw [ExtendedBits.signalingNan, hnan, Bool.false_and]
  · show bits.denormal = false
    rw [ExtendedBits.denormal, hsig]
    exact Bool.and_false _
  · show bits.unsupported = false
    rw [ExtendedBits.unsupported, hfld]
    rfl

/-- The class of an encoding with its integer bit. -/
theorem extended_leading (hlead : 2 ^ 63 ≤ bits.significand.toNat) (hfld : bits.exponentField ≠ 0) :
    extended bits =
      { normal := !bits.specialExponent
        normalOrZero := !bits.specialExponent
        zero := false
        specialExponent := bits.specialExponent
        infinity := bits.infinity
        nan := bits.nan
        signalingNan := bits.signalingNan
        denormal := false
        unsupported := false } := by
  have hz : bits.zero = false := decide_eq_false fun h => hfld h.1
  have hbit := bits.integer_bit_ne_zero.mpr hlead
  have hnorm : bits.normal = !bits.specialExponent := by
    rw [ExtendedBits.normal, ExtendedBits.specialExponent, ← decide_not, decide_eq_decide]
    exact ⟨fun h => h.2.1, fun h => ⟨hfld, h, hbit⟩⟩
  ext1
  · exact hnorm
  · show (bits.normal || bits.zero) = _
    rw [hz, Bool.or_false, hnorm]
  · exact hz
  · rfl
  · rfl
  · rfl
  · rfl
  · show bits.denormal = false
    rw [ExtendedBits.denormal, decide_eq_false hfld, Bool.false_and]
  · show bits.unsupported = false
    rw [ExtendedBits.unsupported, decide_eq_false hbit, Bool.and_false]

theorem extended_normal (hlead : 2 ^ 63 ≤ bits.significand.toNat) (hfld : bits.exponentField ≠ 0)
    (hspec : bits.exponentField ≠ 0x7fff) : extended bits = known .normal := by
  have hnot : bits.specialExponent = false := decide_eq_false hspec
  have hnan : bits.nan = false := by rw [ExtendedBits.nan, hnot, Bool.false_and]
  rw [extended_leading hlead hfld, ExtendedBits.signalingNan, ExtendedBits.infinity, hnan, hnot]
  rfl

end Classification

/-- A number is neither special nor unsupported. -/
theorem ExtendedBits.finite_of_class {bits : ExtendedBits} (hspec : bits.specialExponent = false)
    (hsupported : bits.unsupported = false) : bits.Finite where
  exponent := of_decide_eq_false hspec
  supported := by
    rw [unsupported, Bool.and_eq_false_iff, decide_eq_false_iff_not, decide_eq_false_iff_not, not_not] at hsupported
    exact hsupported.imp id bits.integer_bit_ne_zero.mp

/-! ## Fields of an expanded encoding -/

/-- A sign over a field. -/
theorem sign_or_field (negative : Bool) {word : BitVec 64} (h : word.toNat < 2 ^ 15) :
    ((if negative then 0x8000 else 0 : BitVec 16) ||| word.setWidth 16).msb = negative ∧
      (((if negative then 0x8000 else 0 : BitVec 16) ||| word.setWidth 16) &&& 0x7fff).toNat = word.toNat := by
  have hword : (word.setWidth 32).toNat = word.toNat := by
    rw [BitVec.toNat_setWidth]
    exact Nat.mod_eq_of_lt (by omega)
  have hor : (if negative then 0x8000 else 0 : BitVec 16) ||| word.setWidth 16 =
      (signBits negative ||| word.setWidth 32).setWidth 16 := by
    rw [BitVec.setWidth_or, BitVec.setWidth_setWidth_of_le word (show 16 ≤ 32 by decide)]
    cases negative <;> rfl
  obtain ⟨hsign, hfld⟩ := @signExponent_fields negative (word.setWidth 32) (by omega)
  rw [hor, ← hword]
  exact ⟨hsign, hfld⟩

section

variable {f : BinaryFormat} {bits : BitVec 64} {negative : Bool} {field fraction : ℕ}
  (h : f.HasFields bits negative field fraction)

include h

theorem fraction_word : (bits &&& (BitVec.ofNat 64 (1 <<< f.fractionBits) - 1)).toNat = fraction := by
  have hmask : (BitVec.ofNat 64 (1 <<< f.fractionBits) - 1).toNat = 2 ^ f.fractionBits - 1 := by
    cases f <;> rfl
  rw [BitVec.toNat_and, hmask, Nat.and_two_pow_sub_one_eq_mod, h.toNat_eq, pow_add,
    show negative.toNat * (2 ^ f.fractionBits * 2 ^ f.exponentBits) +
      (field * 2 ^ f.fractionBits + fraction) =
        2 ^ f.fractionBits * (negative.toNat * 2 ^ f.exponentBits + field) + fraction by ring,
    Nat.mul_add_mod, Nat.mod_eq_of_lt h.fraction_lt]

theorem field_word : (narrowExponent f bits).toNat = field := by
  have hmask : (exponentMask f).toNat = 2 ^ f.exponentBits - 1 := by
    cases f <;> rfl
  rw [narrowExponent, BitVec.toNat_and, hmask, Nat.and_two_pow_sub_one_eq_mod, BitVec.toNat_ushiftRight,
    Nat.shiftRight_eq_div_pow, h.toNat_eq, pow_add,
    show negative.toNat * (2 ^ f.fractionBits * 2 ^ f.exponentBits) +
      (field * 2 ^ f.fractionBits + fraction) =
        2 ^ f.fractionBits * (2 ^ f.exponentBits * negative.toNat + field) + fraction by ring,
    Nat.mul_add_div (Nat.two_pow_pos _), Nat.div_eq_of_lt h.fraction_lt, Nat.add_zero, Nat.mul_add_mod,
    Nat.mod_eq_of_lt h.field_lt]

theorem sign_word : (bits >>> (f.fractionBits + f.exponentBits)).setWidth 16 <<< 15 =
    (if negative then 0x8000 else 0 : BitVec 16) := by
  have hword : bits >>> (f.fractionBits + f.exponentBits) = BitVec.ofNat 64 negative.toNat := by
    apply BitVec.eq_of_toNat_eq
    have hbit := Bool.toNat_le negative
    rw [BitVec.toNat_ushiftRight, Nat.shiftRight_eq_div_pow, h.toNat_eq, Nat.mul_comm,
      Nat.mul_add_div (Nat.two_pow_pos _), Nat.div_eq_of_lt h.magnitude_lt, Nat.add_zero, BitVec.toNat_ofNat,
      Nat.mod_eq_of_lt (by omega)]
  rw [hword]
  cases negative <;> rfl

theorem shifted_word : (shiftedFraction f bits).toNat = fraction * 2 ^ (63 - f.fractionBits) := by
  have hfrac := h.fraction_lt
  have hlt : fraction * 2 ^ (63 - f.fractionBits) < 2 ^ 63 := by
    calc fraction * 2 ^ (63 - f.fractionBits) < 2 ^ f.fractionBits * 2 ^ (63 - f.fractionBits) :=
          Nat.mul_lt_mul_of_pos_right hfrac (Nat.two_pow_pos _)
      _ = 2 ^ 63 := by cases f <;> rfl
  rw [shiftedFraction, BitVec.toNat_shiftLeft, fraction_word h, Nat.shiftLeft_eq, Nat.mod_eq_of_lt (by omega)]

theorem exponentField_zero_iff : narrowExponent f bits = 0 ↔
    field = 0 := by
  rw [← BitVec.toNat_inj, field_word h]
  rfl

theorem exponentField_special_iff :
    narrowExponent f bits = exponentMask f ↔ field = 2 ^ f.exponentBits - 1 := by
  have hmask : (exponentMask f).toNat = 2 ^ f.exponentBits - 1 := by
    cases f <;> rfl
  rw [← BitVec.toNat_inj, field_word h, hmask]

/-- An established class takes the branch that the encoding's own fields would. -/
theorem expandClassified_established {kind : Option KnownClass} (hkind : Established f bits kind) :
    expandClassified f bits kind = expand f bits := by
  have hz := exponentField_zero_iff h
  have hspec := exponentField_special_iff h
  have hdenormal := h.denormalClass_iff
  have hpos : 2 ^ f.exponentBits - 1 ≠ 0 := by cases f <;> decide
  cases kind with
  | none => rfl
  | some kind =>
    unfold expand expandClassified
    dsimp only
    cases kind with
    | normal =>
      obtain ⟨hfinite, hnonzero, hnot⟩ := hkind
      have hfld : field ≠ 0 := by
        rintro hfld
        by_cases hfrac : fraction = 0
        · exact Bool.false_ne_true (hnonzero.symm.trans (h.zeroClass_iff.mpr ⟨hfld, hfrac⟩))
        · exact Bool.false_ne_true (hnot.symm.trans (hdenormal.mpr ⟨hfld, hfrac⟩))
      rw [hnot, decide_eq_false (mt hz.mp hfld), decide_eq_false (mt hspec.mp (h.finiteClass_iff.mp hfinite))]
      rfl
    | zero =>
      obtain ⟨hfld, hfrac⟩ := h.zeroClass_iff.mp hkind
      have hnot : f.denormalClass bits = false := Bool.eq_false_iff.mpr fun h => (hdenormal.mp h).2 hfrac
      rw [hnot, decide_eq_true (hz.mpr hfld), decide_eq_false (mt hspec.mp fun heq => hpos (heq.symm.trans hfld))]
      rfl
    | quietNan =>
      have hfld := (h.nanClass_iff.mp hkind.1).1
      have hne : field ≠ 0 := fun heq => hpos (hfld.symm.trans heq)
      have hnot : f.denormalClass bits = false := Bool.eq_false_iff.mpr fun h => hne (hdenormal.mp h).1
      rw [hnot, decide_eq_false (mt hz.mp hne), decide_eq_true (hspec.mpr hfld)]
      rfl

/-- The sign is kept, and the exponent field is a word below `2 ^ 15`. -/
theorem expand_sign_field {word : BitVec 64} (hword : word.toNat < 2 ^ 15)
    (hse : (expand f bits).signExponent =
      (bits >>> (f.fractionBits + f.exponentBits)).setWidth 16 <<< 15 ||| word.setWidth 16) :
    (expand f bits).negative = negative ∧ (expand f bits).exponentField.toNat = word.toNat := by
  rw [sign_word h] at hse
  obtain ⟨hsign, hfld⟩ := sign_or_field negative hword
  rw [ExtendedBits.negative_eq, ExtendedBits.exponentField, hse]
  exact ⟨hsign, hfld⟩

theorem expand_zero (hfld : field = 0) (hfrac : fraction = 0) :
    (expand f bits).negative = negative ∧ (expand f bits).exponentField.toNat = 0 ∧
      (expand f bits).significand = 0 := by
  have hnot : f.denormalClass bits = false :=
    Bool.eq_false_iff.mpr fun hdenormal => (h.denormalClass_iff.mp hdenormal).2 hfrac
  have hz := decide_eq_true ((exponentField_zero_iff h).mpr hfld)
  have hspec := decide_eq_false (mt (exponentField_special_iff h).mp (show field ≠ _ by
    rw [hfld]
    cases f <;> decide))
  have hsig : (expand f bits).significand = shiftedFraction f bits ||| 0 := by
    unfold expand expandClassified
    dsimp only
    rw [hnot, hz]
    rfl
  have hse : (expand f bits).signExponent =
      (bits >>> (f.fractionBits + f.exponentBits)).setWidth 16 <<< 15 ||| (0 : BitVec 64).setWidth 16 := by
    unfold expand expandClassified
    dsimp only
    rw [hnot, hz, hspec]
    rfl
  obtain ⟨hsign, hexp⟩ := expand_sign_field h (by decide) hse
  refine ⟨hsign, hexp, ?_⟩
  rw [hsig]
  apply BitVec.eq_of_toNat_eq
  rw [BitVec.toNat_or, shifted_word h, hfrac, Nat.zero_mul]
  rfl

/-- A narrow subnormal is normalized. -/
theorem expand_denormal (hfld : field = 0) (hfrac : fraction ≠ 0) :
    (expand f bits).negative = negative ∧
      ∃ shift ≤ 63, (expand f bits).exponentField.toNat = 16384 - f.bias - shift ∧
        (expand f bits).significand.toNat = fraction * 2 ^ (63 - f.fractionBits) * 2 ^ shift ∧
          2 ^ 63 ≤ (expand f bits).significand.toNat := by
  have hdenormal := h.denormalClass_iff.mpr ⟨hfld, hfrac⟩
  have hspec := decide_eq_false (mt (exponentField_special_iff h).mp (show field ≠ _ by
    rw [hfld]
    cases f <;> decide))
  have hshd := shifted_word h
  have hword : shiftedFraction f bits ≠ 0 := by
    rw [ne_zero_iff_toNat, hshd]
    exact Nat.mul_ne_zero hfrac (Nat.two_pow_pos _).ne'
  have hclz := BitVec.clz_lt_iff_ne_zero.mpr hword
  obtain ⟨-, hval, hlead⟩ := normalize_spec hword
  have hcnt : (BitVec.setWidth 32 (BitVec.clz (shiftedFraction f bits))).toNat =
      (BitVec.clz (shiftedFraction f bits)).toNat := by
    rw [BitVec.toNat_setWidth]
    exact Nat.mod_eq_of_lt (Nat.lt_trans hclz (by decide))
  rw [hcnt, hshd] at hval
  have hsig : (expand f bits).significand =
      shl (shiftedFraction f bits)
        (BitVec.setWidth 32 (BitVec.clz (shiftedFraction f bits))) := by
    unfold expand expandClassified
    dsimp only
    rw [hdenormal]
    rfl
  have hse : (expand f bits).signExponent =
      (bits >>> (f.fractionBits + f.exponentBits)).setWidth 16 <<< 15 |||
        (BitVec.ofNat 64 (16384 - f.bias) - BitVec.clz (shiftedFraction f bits)).setWidth 16 := by
    unfold expand expandClassified
    dsimp only
    rw [hdenormal, hspec]
    rfl
  generalize BitVec.clz (shiftedFraction f bits) = count at *
  have hbias : 64 ≤ 16384 - f.bias ∧ 16384 - f.bias < 2 ^ 15 := by cases f <;> decide
  have hlt : count.toNat < 64 := hclz
  have hexp : (BitVec.ofNat 64 (16384 - f.bias) - count).toNat = 16384 - f.bias - count.toNat := by
    have hconst : (BitVec.ofNat 64 (16384 - f.bias)).toNat = 16384 - f.bias := by cases f <;> rfl
    rw [BitVec.toNat_sub_of_le, hconst]
    rw [BitVec.le_def, hconst]
    omega
  obtain ⟨hsign, hfld'⟩ := expand_sign_field h (by rw [hexp]; omega) hse
  rw [hsig]
  exact ⟨hsign, count.toNat, by omega, hfld'.trans hexp, hval, hlead⟩

/-- Any other encoding gains its integer bit. -/
theorem expand_leading (hfld : field ≠ 0) :
    (expand f bits).negative = negative ∧
      (expand f bits).exponentField.toNat =
        (if field = 2 ^ f.exponentBits - 1 then 0x7fff else field + (16383 - f.bias)) ∧
      (expand f bits).significand.toNat = 2 ^ 63 + fraction * 2 ^ (63 - f.fractionBits) := by
  have hnot : f.denormalClass bits = false :=
    Bool.eq_false_iff.mpr fun hdenormal => hfld (h.denormalClass_iff.mp hdenormal).1
  have hz := decide_eq_false (mt (exponentField_zero_iff h).mp hfld)
  have hsig : (expand f bits).significand = shiftedFraction f bits ||| LEADING := by
    unfold expand expandClassified
    dsimp only
    rw [hnot, hz]
    rfl
  have hshd := shifted_word h
  have hlt : fraction * 2 ^ (63 - f.fractionBits) < 2 ^ 63 := by
    calc fraction * 2 ^ (63 - f.fractionBits) < 2 ^ f.fractionBits * 2 ^ (63 - f.fractionBits) :=
          Nat.mul_lt_mul_of_pos_right h.fraction_lt (Nat.two_pow_pos _)
      _ = 2 ^ 63 := by cases f <;> rfl
  have hval : (expand f bits).significand.toNat = 2 ^ 63 + fraction * 2 ^ (63 - f.fractionBits) := by
    rw [hsig, BitVec.toNat_or, hshd, Nat.or_comm]
    exact (Nat.two_pow_add_eq_or_of_lt hlt 1).symm
  by_cases hmask : field = 2 ^ f.exponentBits - 1
  · have hse : (expand f bits).signExponent =
        (bits >>> (f.fractionBits + f.exponentBits)).setWidth 16 <<< 15 ||| (0x7fff : BitVec 64).setWidth 16 := by
      unfold expand expandClassified
      dsimp only
      rw [decide_eq_true ((exponentField_special_iff h).mpr hmask)]
      rfl
    obtain ⟨hsign, hfld'⟩ := expand_sign_field h (by decide) hse
    rw [if_pos hmask]
    exact ⟨hsign, hfld', hval⟩
  · have hse : (expand f bits).signExponent =
        (bits >>> (f.fractionBits + f.exponentBits)).setWidth 16 <<< 15 |||
          ((narrowExponent f bits) + BitVec.ofNat 64 (16383 - f.bias)).setWidth 16 := by
      unfold expand expandClassified
      dsimp only
      rw [hnot, hz, decide_eq_false (mt (exponentField_special_iff h).mp hmask)]
      rfl
    have hbound : field + (16383 - f.bias) < 2 ^ 15 := by
      have hfld' := h.field_lt
      cases f with
      | binary32 => exact Nat.lt_trans (Nat.add_lt_add_right hfld' _) (by decide)
      | binary64 => exact Nat.lt_trans (Nat.add_lt_add_right hfld' _) (by decide)
    have hword : ((narrowExponent f bits) +
        BitVec.ofNat 64 (16383 - f.bias)).toNat = field + (16383 - f.bias) := by
      have hconst : (BitVec.ofNat 64 (16383 - f.bias)).toNat = 16383 - f.bias := by cases f <;> rfl
      rw [BitVec.toNat_add, field_word h, hconst, Nat.mod_eq_of_lt (by omega)]
    obtain ⟨hsign, hfld'⟩ := expand_sign_field h (by rw [hword]; exact hbound) hse
    rw [if_neg hmask]
    exact ⟨hsign, hfld'.trans hword, hval⟩

end

end Relocade.X87
