import Relocade.Floating.Finite

/-!
# `Floating.Classification` — predicates over binary32 and binary64 encodings

An encoding is a sign over an exponent field over a fraction (`HasFields`). The predicates compare its magnitude with
infinity, and each says what it should of the fields.
-/

namespace Relocade.Floating

open Rounding

namespace BinaryFormat

variable (format : BinaryFormat)

/-! ## Predicates -/

def quietBit : BitVec 64 := BitVec.ofNat 64 (1 <<< (format.fractionBits - 1))

def signBit : BitVec 64 := BitVec.ofNat 64 (1 <<< (format.fractionBits + format.exponentBits))

def classMagnitude (bits : BitVec 64) : BitVec 64 := bits &&& (format.signBit - 1)

def finiteClass (bits : BitVec 64) : Bool := (format.classMagnitude bits).ult format.infinity

def zeroClass (bits : BitVec 64) : Bool := format.classMagnitude bits = 0

def infinityClass (bits : BitVec 64) : Bool := format.classMagnitude bits = format.infinity

def nanClass (bits : BitVec 64) : Bool := (format.infinity + 1).ule (format.classMagnitude bits)

def signalingNanClass (bits : BitVec 64) : Bool := format.nanClass bits && bits &&& format.quietBit = 0

def denormalClass (bits : BitVec 64) : Bool :=
  format.classMagnitude bits ≠ 0 && (format.classMagnitude bits).ult (BitVec.ofNat 64 (1 <<< format.fractionBits))

/-! ## Fields -/

/-- A sign over an exponent field over a fraction. -/
structure HasFields (bits : BitVec 64) (negative : Bool) (field fraction : ℕ) : Prop where
  toNat_eq : bits.toNat =
    negative.toNat * 2 ^ (format.fractionBits + format.exponentBits) + (field * 2 ^ format.fractionBits + fraction)
  field_lt : field < 2 ^ format.exponentBits
  fraction_lt : fraction < 2 ^ format.fractionBits

variable {f : BinaryFormat} {bits : BitVec 64} {negative : Bool} {field fraction : ℕ}

theorem exists_fields (h : bits.toNat < 2 ^ f.width) :
    ∃ negative field fraction, f.HasFields bits negative field fraction := by
  have hmag := Nat.mod_lt bits.toNat (Nat.two_pow_pos (f.fractionBits + f.exponentBits))
  have hsign : bits.toNat / 2 ^ (f.fractionBits + f.exponentBits) < 2 := by
    rw [Nat.div_lt_iff_lt_mul (Nat.two_pow_pos _), ← pow_succ']
    rw [width] at h
    rwa [show f.fractionBits + f.exponentBits + 1 = 1 + f.exponentBits + f.fractionBits by ring]
  refine ⟨decide (bits.toNat / 2 ^ (f.fractionBits + f.exponentBits) = 1),
    bits.toNat % 2 ^ (f.fractionBits + f.exponentBits) / 2 ^ f.fractionBits,
    bits.toNat % 2 ^ (f.fractionBits + f.exponentBits) % 2 ^ f.fractionBits, ?_, ?_,
    Nat.mod_lt _ (Nat.two_pow_pos _)⟩
  · have hdecide : (decide (bits.toNat / 2 ^ (f.fractionBits + f.exponentBits) = 1)).toNat =
        bits.toNat / 2 ^ (f.fractionBits + f.exponentBits) := by
      rcases Nat.lt_or_ge (bits.toNat / 2 ^ (f.fractionBits + f.exponentBits)) 1 with hlt | hge
      · rw [Nat.lt_one_iff.mp hlt]
        rfl
      · rw [show bits.toNat / 2 ^ (f.fractionBits + f.exponentBits) = 1 by omega]
        rfl
    rw [hdecide, Nat.div_add_mod', Nat.div_add_mod']
  · rw [Nat.div_lt_iff_lt_mul (Nat.two_pow_pos _), ← pow_add, Nat.add_comm f.exponentBits]
    exact hmag

theorem toNat_infinity (f : BinaryFormat) :
    f.infinity.toNat = (2 ^ f.exponentBits - 1) * 2 ^ f.fractionBits := by cases f <;> rfl

theorem toNat_signBit (f : BinaryFormat) :
    f.signBit.toNat = 2 ^ (f.fractionBits + f.exponentBits) := by cases f <;> rfl

namespace HasFields

variable (h : f.HasFields bits negative field fraction)

include h

theorem magnitude_lt : field * 2 ^ f.fractionBits + fraction < 2 ^ (f.fractionBits + f.exponentBits) := by
  have hmul := Nat.mul_le_mul_right (2 ^ f.fractionBits) (Nat.succ_le_of_lt h.field_lt)
  have hfrac := h.fraction_lt
  rw [← pow_add, Nat.add_comm f.exponentBits, Nat.succ_mul] at hmul
  omega

theorem toNat_classMagnitude : (f.classMagnitude bits).toNat = field * 2 ^ f.fractionBits + fraction := by
  have hmask : (f.signBit - 1).toNat = 2 ^ (f.fractionBits + f.exponentBits) - 1 := by
    cases f <;> rfl
  rw [classMagnitude, BitVec.toNat_and, hmask, Nat.and_two_pow_sub_one_eq_mod, h.toNat_eq, Nat.mul_comm negative.toNat,
    Nat.mul_add_mod, Nat.mod_eq_of_lt h.magnitude_lt]

/-- The magnitude is below infinity with any lesser field. -/
theorem lt_infinity_iff : field * 2 ^ f.fractionBits + fraction < f.infinity.toNat ↔
    field ≠ 2 ^ f.exponentBits - 1 := by
  have hfld := h.field_lt
  have hfrac := h.fraction_lt
  rw [toNat_infinity]
  constructor
  · rintro hlt rfl
    omega
  · intro hne
    have hmul := Nat.mul_le_mul_right (2 ^ f.fractionBits)
      (show field + 1 ≤ 2 ^ f.exponentBits - 1 by omega)
    rw [Nat.succ_mul] at hmul
    omega

theorem finiteClass_iff : f.finiteClass bits = true ↔ field ≠ 2 ^ f.exponentBits - 1 := by
  rw [finiteClass, BitVec.ult, decide_eq_true_iff, h.toNat_classMagnitude, h.lt_infinity_iff]

theorem zeroClass_iff : f.zeroClass bits = true ↔ field = 0 ∧ fraction = 0 := by
  have hmag := h.toNat_classMagnitude
  have hpos := Nat.two_pow_pos f.fractionBits
  rw [zeroClass, decide_eq_true_iff, ← BitVec.toNat_inj, hmag]
  show _ = 0 ↔ _
  rw [Nat.add_eq_zero_iff, Nat.mul_eq_zero]
  omega

theorem infinityClass_iff : f.infinityClass bits = true ↔ field = 2 ^ f.exponentBits - 1 ∧ fraction = 0 := by
  rw [infinityClass, decide_eq_true_iff, ← BitVec.toNat_inj, h.toNat_classMagnitude]
  constructor
  · intro heq
    have hfld := not_not.mp (mt h.lt_infinity_iff.mpr heq.not_lt)
    rw [toNat_infinity, hfld] at heq
    exact ⟨hfld, by omega⟩
  · rintro ⟨rfl, rfl⟩
    rw [toNat_infinity, Nat.add_zero]

theorem nanClass_iff : f.nanClass bits = true ↔ field = 2 ^ f.exponentBits - 1 ∧ fraction ≠ 0 := by
  have hsucc : (f.infinity + 1).toNat = f.infinity.toNat + 1 := by cases f <;> rfl
  rw [nanClass, BitVec.ule, decide_eq_true_iff, h.toNat_classMagnitude, hsucc, Nat.succ_le_iff]
  constructor
  · intro hlt
    have hfld := not_not.mp (mt h.lt_infinity_iff.mpr hlt.not_gt)
    rw [toNat_infinity, hfld] at hlt
    exact ⟨hfld, by omega⟩
  · rintro ⟨rfl, hfrac⟩
    rw [toNat_infinity]
    omega

theorem denormalClass_iff : f.denormalClass bits = true ↔ field = 0 ∧ fraction ≠ 0 := by
  have hone : (BitVec.ofNat 64 (1 <<< f.fractionBits)).toNat = 2 ^ f.fractionBits := by
    cases f <;> rfl
  have hfrac := h.fraction_lt
  have hpos := Nat.two_pow_pos f.fractionBits
  rw [denormalClass, Bool.and_eq_true, decide_eq_true_iff, BitVec.ult, decide_eq_true_iff, hone, ne_zero_iff_toNat,
    h.toNat_classMagnitude]
  constructor
  · rintro ⟨hne, hlt⟩
    have hfld : field = 0 := by
      by_contra hfld
      have hmul := Nat.le_mul_of_pos_left (2 ^ f.fractionBits) (Nat.pos_of_ne_zero hfld)
      omega
    rw [hfld, Nat.zero_mul, Nat.zero_add] at hne
    exact ⟨hfld, hne⟩
  · rintro ⟨rfl, hne⟩
    rw [Nat.zero_mul, Nat.zero_add]
    exact ⟨hne, hfrac⟩

end HasFields

/-! ## Units -/

/-- The value of a field over a fraction, in units of the least subnormal. -/
def units (format : BinaryFormat) (field fraction : ℕ) : ℕ :=
  if field = 0 then fraction else (2 ^ format.fractionBits + fraction) * 2 ^ (field - 1)

variable {format}

theorem decode_eq_units (bits : BitVec f.width) :
    f.decode bits =
      units f (bits.toNat / 2 ^ f.fractionBits) (bits.toNat % 2 ^ f.fractionBits) *
        2 ^ (1 - f.bias - f.fractionBits : ℤ) := by
  unfold decode units
  dsimp only
  split
  next => rfl
  next hfld =>
    obtain ⟨field, hsucc⟩ := Nat.exists_eq_add_one_of_ne_zero hfld
    have hexp : ((field + 1 : ℕ) - f.bias - f.fractionBits : ℤ) = (field : ℤ) + (1 - f.bias - f.fractionBits) := by
      push_cast
      ring
    rw [hsucc, Nat.add_sub_cancel, hexp, zpow_add₀ two_ne_zero (field : ℤ), zpow_natCast]
    push_cast
    ring

theorem units_lt_pow {field fraction : ℕ} (hfrac : fraction < 2 ^ f.fractionBits) :
    units f field fraction < 2 ^ f.fractionBits * 2 ^ field := by
  unfold units
  split
  next hz => rw [hz, pow_zero, Nat.mul_one]; exact hfrac
  next hne =>
    obtain ⟨j, rfl⟩ := Nat.exists_eq_add_one_of_ne_zero hne
    calc (2 ^ f.fractionBits + fraction) * 2 ^ j
        < (2 ^ f.fractionBits + 2 ^ f.fractionBits) * 2 ^ j :=
          Nat.mul_lt_mul_of_pos_right (Nat.add_lt_add_left hfrac _) (Nat.two_pow_pos j)
      _ = 2 ^ f.fractionBits * 2 ^ (j + 1) := by ring

/-- A larger encoding has more units. -/
theorem units_lt {field fraction field' frac' : ℕ} (hfrac : fraction < 2 ^ f.fractionBits)
    (h : field < field' ∨ field = field' ∧ fraction < frac') :
    units f field fraction < units f field' frac' := by
  rcases h with hfld | ⟨rfl, hlt⟩
  · obtain ⟨k, rfl⟩ := Nat.exists_eq_add_of_lt hfld
    calc units f field fraction < 2 ^ f.fractionBits * 2 ^ field := units_lt_pow hfrac
      _ ≤ (2 ^ f.fractionBits + frac') * 2 ^ (field + k) :=
        Nat.mul_le_mul (Nat.le_add_right _ _) (Nat.pow_le_pow_right two_pos (Nat.le_add_right _ _))
      _ = units f (field + k + 1) frac' := by
        rw [units, if_neg (Nat.succ_ne_zero _), Nat.add_sub_cancel]
  · unfold units
    split
    next => exact hlt
    next => exact Nat.mul_lt_mul_of_pos_right (Nat.add_lt_add_left hlt _) (Nat.two_pow_pos _)

/-- Encodings of one value are equal. -/
theorem decode_injective {bits bits' : BitVec f.width} (h : f.decode bits = f.decode bits') : bits = bits' := by
  have hpower : (2 : ℚ) ^ (1 - f.bias - f.fractionBits : ℤ) ≠ 0 := zpow_ne_zero _ two_ne_zero
  have hpos := Nat.two_pow_pos f.fractionBits
  rw [decode_eq_units, decode_eq_units] at h
  have hunits := Nat.cast_injective (mul_right_cancel₀ hpower h)
  have hlt {a b : ℕ} (hab : a < b) : units f (a / 2 ^ f.fractionBits) (a % 2 ^ f.fractionBits) <
      units f (b / 2 ^ f.fractionBits) (b % 2 ^ f.fractionBits) := by
    refine units_lt (Nat.mod_lt _ hpos) ?_
    rcases (Nat.div_le_div_right hab.le : a / 2 ^ f.fractionBits ≤ b / 2 ^ f.fractionBits).lt_or_eq with
      hfld | hfld
    · exact Or.inl hfld
    · have ha := Nat.div_add_mod a (2 ^ f.fractionBits)
      have hb := Nat.div_add_mod b (2 ^ f.fractionBits)
      rw [hfld] at ha
      exact Or.inr ⟨hfld, by omega⟩
  apply BitVec.eq_of_toNat_eq
  rcases Nat.lt_trichotomy bits.toNat bits'.toNat with hless | heq | hless
  · exact absurd hunits (hlt hless).ne
  · exact heq
  · exact absurd hunits (hlt hless).ne'

end BinaryFormat

end Relocade.Floating
