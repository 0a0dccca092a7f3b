import Relocade.Rounding.Direction

/-!
# `Floating.Rounding` — rounding evidence of 64-bit significands

Rounding evidence keeps describing the exact quotient under shifts by any distance (`shiftRight_describes`), and
rounding it increments as its direction says (`round_incremented`).
-/

namespace Relocade.Floating

open Rounding

/-! ## Shifts -/

/-- Counts are modulo the width. -/
def shl (value : BitVec 64) (count : BitVec 32) : BitVec 64 := value <<< (count.toNat % 64)

def shr (value : BitVec 64) (count : BitVec 32) : BitVec 64 := value >>> (count.toNat % 64)

theorem shl_of_lt (value : BitVec 64) {count : BitVec 32} (h : count.toNat < 64) :
    shl value count = value <<< count.toNat := by
  rw [shl, Nat.mod_eq_of_lt h]

theorem shr_of_lt (value : BitVec 64) {count : BitVec 32} (h : count.toNat < 64) :
    shr value count = value >>> count.toNat := by
  rw [shr, Nat.mod_eq_of_lt h]

/-! ## Evidence -/

/-- An integer floor and its fractional remainder, described by the first discarded bit and whether any lower bit is
nonzero. -/
structure RoundingInput where
  integer : BitVec 64
  guard : Bool
  sticky : Bool
  deriving DecidableEq, Repr

namespace RoundingInput

/-- An integer without a fraction. -/
def exact (integer : BitVec 64) : RoundingInput := ⟨integer, false, false⟩

variable (input : RoundingInput)

/-- Divides the unrounded magnitude by `2 ^ distance`, retaining earlier fractional evidence. -/
def shiftRight (distance : BitVec 32) : RoundingInput :=
  let value := input.integer
  let shifted : Bool := distance ≠ 0
  let belowWord : Bool := distance.ult 64
  let lowerMask := shl 1 (distance - 1) - 1
  { integer := if belowWord then shr value distance else 0
    guard := (shifted && distance.ult 65 && shr value (distance - 1) &&& 1 ≠ 0) || (!shifted && input.guard)
    sticky := input.sticky ||
      (shifted && (input.guard || if (65 : BitVec 32).ule distance then value ≠ 0 else value &&& lowerMask ≠ 0)) }

/-- The evidence of a magnitude. -/
def Describes {K : Type*} [Field K] [LinearOrder K] [FloorRing K] (s : K) : Prop :=
  Rounding.Describes input.integer.toNat input.guard input.sticky s

end RoundingInput

/-! ## Shifted evidence -/

theorem toNat_sub_one {dist : BitVec 32} {k : Nat} (h : dist.toNat = k + 1) : (dist - 1).toNat = k := by
  have hlt := dist.isLt
  rw [BitVec.toNat_sub_of_le]
  · rw [h]
    rfl
  · rw [BitVec.le_def, h]
    exact Nat.succ_le_succ (Nat.zero_le k)

theorem ne_zero_iff_toNat (value : BitVec 64) : value ≠ 0 ↔ value.toNat ≠ 0 := by
  rw [ne_eq, ne_eq, ← BitVec.toNat_inj]
  rfl

theorem and_one_ne_zero (value : BitVec 64) (k : Nat) : value >>> k &&& 1 ≠ 0 ↔ value.toNat.testBit k = true := by
  have hone : (value >>> k &&& 1).toNat = value.toNat / 2 ^ k % 2 := by
    rw [BitVec.toNat_and, BitVec.toNat_ushiftRight, Nat.shiftRight_eq_div_pow]
    exact Nat.and_one_is_mod _
  rw [ne_zero_iff_toNat, hone, Nat.testBit_eq_decide_div_mod_eq, decide_eq_true_iff]
  omega

theorem and_mask_ne_zero (value : BitVec 64) {k : Nat} (h : k < 64) :
    value &&& ((1 : BitVec 64) <<< k - 1) ≠ 0 ↔ value.toNat % 2 ^ k ≠ 0 := by
  have hpow : 2 ^ k < 2 ^ 64 := Nat.pow_lt_pow_right (by decide) h
  have hpos := Nat.two_pow_pos k
  have hbit : ((1 : BitVec 64) <<< k).toNat = 2 ^ k := by
    rw [BitVec.toNat_shiftLeft, Nat.shiftLeft_eq, Nat.mod_eq_of_lt]
    · exact Nat.one_mul _
    · exact lt_of_eq_of_lt (Nat.one_mul _) hpow
  have hmask : ((1 : BitVec 64) <<< k - 1).toNat = 2 ^ k - 1 := by
    rw [BitVec.toNat_sub_of_le]
    · rw [hbit]
      rfl
    · rw [BitVec.le_def, hbit]
      exact hpos
  rw [ne_zero_iff_toNat, BitVec.toNat_and, hmask, Nat.and_two_pow_sub_one_eq_mod]

variable {K : Type*} [Field K] [LinearOrder K] [IsStrictOrderedRing K] [FloorRing K]

theorem exact_describes (integer : BitVec 64) : (RoundingInput.exact integer).Describes (integer.toNat : K) :=
  Rounding.Describes.exact integer.toNat

theorem shiftRight_zero (input : RoundingInput) : input.shiftRight 0 = input := by
  obtain ⟨integer, guard, sticky⟩ := input
  simp [RoundingInput.shiftRight, shr]

/-- A shift by `k + 1`, in terms of the bits of the floor. -/
theorem shiftRight_succ (input : RoundingInput) {dist : BitVec 32} {k : Nat} (h : dist.toNat = k + 1) :
    (input.shiftRight dist).integer.toNat = input.integer.toNat / 2 ^ (k + 1) ∧
      (input.shiftRight dist).guard = input.integer.toNat.testBit k ∧
      (input.shiftRight dist).sticky =
        (input.sticky || input.guard || decide (input.integer.toNat % 2 ^ k ≠ 0)) := by
  have hshd : decide (dist ≠ 0) = true := by
    rw [decide_eq_true_iff]
    rintro rfl
    cases h
  have hfloor := input.integer.isLt
  have hpred := toNat_sub_one h
  have hbound : (65 : BitVec 32).toNat = 65 := rfl
  have hlarge (hk : 64 ≤ k) : input.integer.toNat < 2 ^ k :=
    Nat.lt_of_lt_of_le hfloor (Nat.pow_le_pow_right (by decide) hk)
  refine ⟨?_, ?_, ?_⟩
  · show (if dist.ult 64 then shr input.integer dist else 0).toNat = _
    by_cases hk : k + 1 < 64
    · have hbelow : dist.ult 64 = true := by
        rw [BitVec.ult, h]
        exact decide_eq_true hk
      rw [if_pos hbelow, shr_of_lt _ (by omega), BitVec.toNat_ushiftRight, Nat.shiftRight_eq_div_pow, h]
    · have hbelow : ¬ dist.ult 64 = true := by
        rw [BitVec.ult, h]
        exact fun hlt => hk (of_decide_eq_true hlt)
      have hpow : 2 ^ 64 ≤ 2 ^ (k + 1) := Nat.pow_le_pow_right (by decide) (Nat.le_of_not_lt hk)
      rw [if_neg hbelow, Nat.div_eq_of_lt (Nat.lt_of_lt_of_le hfloor hpow)]
      rfl
  · show (decide (dist ≠ 0) && dist.ult 65 && decide (shr input.integer (dist - 1) &&& 1 ≠ 0) ||
        !decide (dist ≠ 0) && input.guard) = _
    rw [hshd, Bool.true_and, Bool.not_true, Bool.false_and, Bool.or_false, BitVec.ult, h, hbound]
    by_cases hk : k < 64
    · have hbit := and_one_ne_zero input.integer k
      rw [← hpred, ← shr_of_lt input.integer (by omega), hpred] at hbit
      rw [decide_eq_true (show k + 1 < 65 by omega), Bool.true_and, Bool.eq_iff_iff, decide_eq_true_iff]
      exact hbit
    · rw [decide_eq_false (show ¬ k + 1 < 65 by omega), Bool.false_and,
        Nat.testBit_lt_two_pow (hlarge (Nat.le_of_not_lt hk))]
  · show (input.sticky || (decide (dist ≠ 0) && (input.guard ||
        if (65 : BitVec 32).ule dist then decide (input.integer ≠ 0)
        else decide (input.integer &&& (shl 1 (dist - 1) - 1) ≠ 0)))) = _
    rw [hshd, Bool.true_and, Bool.or_assoc, BitVec.ule, h, hbound]
    by_cases hk : k < 64
    · have hmask := and_mask_ne_zero input.integer hk
      rw [← hpred, ← shl_of_lt 1 (by omega), hpred] at hmask
      rw [if_neg (by rw [decide_eq_true_iff]; exact fun hle => absurd hle (by omega)), decide_eq_decide.mpr hmask]
    · rw [decide_eq_true (show 65 ≤ k + 1 by omega), if_pos rfl, Nat.mod_eq_of_lt (hlarge (Nat.le_of_not_lt hk)),
        decide_eq_decide.mpr (ne_zero_iff_toNat input.integer)]

theorem toNat_shiftRight_integer (input : RoundingInput) (dist : BitVec 32) :
    (input.shiftRight dist).integer.toNat = input.integer.toNat / 2 ^ dist.toNat := by
  cases hdist : dist.toNat with
  | zero =>
    obtain rfl : dist = 0 := BitVec.eq_of_toNat_eq hdist
    rw [pow_zero, Nat.div_one, shiftRight_zero]
  | succ k => exact (shiftRight_succ input hdist).1

/-- Shifted evidence describes the exact quotient, whatever the distance. -/
theorem shiftRight_describes {input : RoundingInput} {s : K} (h : input.Describes s) (dist : BitVec 32) :
    (input.shiftRight dist).Describes (s / 2 ^ dist.toNat) := by
  cases hdist : dist.toNat with
  | zero =>
    obtain rfl : dist = 0 := BitVec.eq_of_toNat_eq hdist
    rw [pow_zero, div_one, shiftRight_zero]
    exact h
  | succ k =>
    obtain ⟨hint, hguard, hsticky⟩ := shiftRight_succ input hdist
    unfold RoundingInput.Describes
    rw [hint, hguard, hsticky]
    exact Rounding.Describes.div_pow h k

/-! ## Rounding -/

structure Rounded where
  /-- Wrapping; consumers own exponent adjustment on carry. -/
  integer : BitVec 64
  inexact : Bool
  incremented : Bool
  deriving DecidableEq, Repr

/-- The rounding control. -/
structure RoundingMode where
  control : BitVec 8

namespace RoundingMode

/-- Two bits of the control word. -/
def new (control : BitVec 8) : RoundingMode := ⟨control &&& 3⟩

variable (rounding : RoundingMode)

def awayFromZero (negative : Bool) : Bool :=
  (rounding.control = 1 && negative) || (rounding.control = 2 && !negative)

def overflowToInfinity (negative : Bool) : Bool := rounding.control = 0 || rounding.awayFromZero negative

def round (input : RoundingInput) (negative : Bool) : Rounded :=
  let inexact := input.guard || input.sticky
  let nearest := input.guard && (input.sticky || input.integer &&& 1 ≠ 0)
  let incremented := if rounding.control = 0 then nearest else inexact && rounding.awayFromZero negative
  { integer := input.integer + if incremented then 1 else 0
    inexact
    incremented }

/-- The direction that the control names. -/
def direction : Direction :=
  if rounding.control = 0 then .nearest
  else if rounding.control = 1 then .down
  else if rounding.control = 2 then .up
  else .zero

theorem awayFromZero_eq (neg : Bool) : rounding.awayFromZero neg = rounding.direction.awayFromZero neg := by
  unfold awayFromZero direction
  split
  next h0 =>
    rw [h0]
    rfl
  next =>
    split
    next h1 =>
      rw [h1]
      exact Bool.or_false neg
    next h1 =>
      rw [decide_eq_false h1]
      split
      next h2 =>
        rw [decide_eq_true h2]
        rfl
      next h2 =>
        rw [decide_eq_false h2]
        rfl

theorem overflowToInfinity_eq (neg : Bool) :
    rounding.overflowToInfinity neg = rounding.direction.overflowToInfinity neg := by
  have hnearest : rounding.direction = .nearest ↔ rounding.control = 0 := by
    unfold direction
    split
    next h => exact iff_of_true rfl h
    next h =>
      refine iff_of_false ?_ h
      split
      next => exact Direction.noConfusion
      next => split <;> exact Direction.noConfusion
  rw [overflowToInfinity, Direction.overflowToInfinity, awayFromZero_eq, decide_eq_decide.mpr hnearest]

/-- Rounding increments as its direction says. -/
theorem round_incremented (input : RoundingInput) (neg : Bool) :
    (rounding.round input neg).incremented =
      rounding.direction.increments neg input.guard input.sticky (input.integer.toNat % 2 = 1) := by
  show (if rounding.control = 0 then input.guard && (input.sticky || decide (input.integer &&& 1 ≠ 0))
    else (input.guard || input.sticky) && rounding.awayFromZero neg) = _
  have hodd : input.integer &&& 1 ≠ 0 ↔ input.integer.toNat % 2 = 1 := by
    have hbit := and_one_ne_zero input.integer 0
    rw [BitVec.ushiftRight_zero, Nat.testBit_zero, decide_eq_true_iff] at hbit
    exact hbit
  rw [awayFromZero_eq, decide_eq_decide.mpr hodd]
  unfold direction
  split
  next => rfl
  next h0 =>
    split
    next => rfl
    next => split <;> rfl

end RoundingMode

end Relocade.Floating
