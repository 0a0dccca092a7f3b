import Mathlib.Data.Nat.Bitwise
import Mathlib.Data.Nat.Log
import Mathlib.Tactic

/-!
# `Words.Bits` — low masks and bit tests on natural numbers

Machine words are natural numbers here, so a mask of the low `b` bits is a remainder modulo `2 ^ b` and a
statement about single bits is one about `Nat.testBit`. This file relates the two views.
-/

namespace Words

/-! ## Low bits -/

/-- Two words agree on their low `b` bits exactly when they agree on every bit below `b`. -/
theorem mod_two_pow_eq_iff {x y b : Nat} : x % 2 ^ b = y % 2 ^ b ↔ ∀ i < b, x.testBit i = y.testBit i := by
  constructor
  · intro h i hi
    have hx := Nat.testBit_mod_two_pow x b i
    have hy := Nat.testBit_mod_two_pow y b i
    rw [h, hy] at hx
    simpa [hi] using hx.symm
  · intro h
    apply Nat.eq_of_testBit_eq
    intro i
    rw [Nat.testBit_mod_two_pow, Nat.testBit_mod_two_pow]
    by_cases hi : i < b
    · simp [hi, h i hi]
    · simp [hi]

variable {x a b : Nat}

/-- A remainder modulo a larger power of two does not disturb a smaller one. -/
theorem mod_mod_two_pow (h : b ≤ a) : x % 2 ^ a % 2 ^ b = x % 2 ^ b :=
  Nat.mod_mod_of_dvd x (pow_dvd_pow 2 h)

/-- Reducing first at the smaller width makes the larger one redundant. -/
theorem mod_mod_two_pow' (h : b ≤ a) : x % 2 ^ b % 2 ^ a = x % 2 ^ b :=
  Nat.mod_eq_of_lt ((Nat.mod_lt x (Nat.two_pow_pos b)).trans_le (Nat.pow_le_pow_right (by decide) h))

/-- A word that fits in `b` bits is its own remainder at any width from `b` on. -/
theorem mod_two_pow_of_lt (hx : x < 2 ^ b) (h : b ≤ a) : x % 2 ^ a = x :=
  Nat.mod_eq_of_lt (hx.trans_le (Nat.pow_le_pow_right (by decide) h))

theorem lt_two_pow_mono (hx : x < 2 ^ b) (h : b ≤ a) : x < 2 ^ a :=
  hx.trans_le (Nat.pow_le_pow_right (by decide) h)

theorem lt_two_pow_max_left {a b x : Nat} (h : x < 2 ^ a) : x < 2 ^ max a b :=
  lt_two_pow_mono h (Nat.le_max_left a b)

theorem lt_two_pow_max_right {a b x : Nat} (h : x < 2 ^ b) : x < 2 ^ max a b :=
  lt_two_pow_mono h (Nat.le_max_right a b)

theorem lt_two_pow_min {a b x : Nat} (ha : x < 2 ^ a) (hb : x < 2 ^ b) : x < 2 ^ min a b := by
  rcases Nat.le_total a b with h | h
  · rwa [Nat.min_eq_left h]
  · rwa [Nat.min_eq_right h]

/-- Bits at or above the width of a word are clear. -/
theorem testBit_of_lt {x b i : Nat} (hx : x < 2 ^ b) (h : b ≤ i) : x.testBit i = false :=
  Nat.testBit_lt_two_pow (lt_two_pow_mono hx h)

/-- The mask of the low `b` bits. -/
def lowMask (b : Nat) : Nat := 2 ^ b - 1

theorem lowMask_lt (b : Nat) : lowMask b < 2 ^ b := Nat.sub_lt (Nat.two_pow_pos b) (by decide)

@[simp] theorem testBit_lowMask (b i : Nat) : (lowMask b).testBit i = decide (i < b) :=
  Nat.testBit_two_pow_sub_one b i

theorem and_lowMask (x b : Nat) : x &&& lowMask b = x % 2 ^ b := Nat.and_two_pow_sub_one_eq_mod x b

/-! ## Disjoint masks -/

theorem testBit_of_mod_eq_zero {x b i : Nat} (h : x % 2 ^ b = 0) (hi : i < b) : x.testBit i = false := by
  simpa using mod_two_pow_eq_iff.mp (h.trans (Nat.zero_mod _).symm) i hi

/-- An operand with no low bits leaves the low bits of a disjunction to the other operand. -/
theorem or_mod_of_mod_eq_zero {x y b : Nat} (h : x % 2 ^ b = 0) : (x ||| y) % 2 ^ b = y % 2 ^ b :=
  mod_two_pow_eq_iff.mpr (fun i hi => by simp [testBit_of_mod_eq_zero h hi])

/-- An operand with no low bits leaves the low bits of an exclusive or to the other operand. -/
theorem xor_mod_of_mod_eq_zero {x y b : Nat} (h : x % 2 ^ b = 0) : (x ^^^ y) % 2 ^ b = y % 2 ^ b :=
  mod_two_pow_eq_iff.mpr (fun i hi => by simp [testBit_of_mod_eq_zero h hi])

/-- A word under a mask disjoint from the low `b` bits has no low bits. -/
theorem and_mod_eq_zero_of_disjoint {x m b : Nat} (h : m &&& lowMask b = 0) : (x &&& m) % 2 ^ b = 0 := by
  rw [← and_lowMask, Nat.and_assoc, h, Nat.and_zero]

/-- A mask whose low `b` bits are all set is invisible below `b`. -/
theorem and_mod_of_ones {x m b : Nat} (h : ∀ i < b, m.testBit i = true) : (x &&& m) % 2 ^ b = x % 2 ^ b :=
  mod_two_pow_eq_iff.mpr (fun i hi => by simp [h i hi])

/-! ## Runs of ones -/

/-- The length of the run of ones at the bottom of a word, counting at most `n` bits. -/
def trailingOnes : Nat → Nat → Nat
  | 0, _ => 0
  | n + 1, m => if m % 2 = 1 then trailingOnes n (m / 2) + 1 else 0

/-- Every bit inside the run is set. -/
theorem testBit_of_lt_trailingOnes {n m i : Nat} (h : i < trailingOnes n m) : m.testBit i = true := by
  induction n generalizing m i with
  | zero => exact absurd h (Nat.not_lt_zero _)
  | succ n ih =>
    unfold trailingOnes at h
    split at h
    next hodd =>
      cases i with
      | zero => simpa [Nat.testBit_zero] using hodd
      | succ i =>
        rw [Nat.testBit_succ]
        exact ih (Nat.lt_of_succ_lt_succ h)
    next => exact absurd h (Nat.not_lt_zero _)

/-! ## Bit length -/

/-- The number of bits up to the highest set one. -/
def bitLength (x : Nat) : Nat := if x = 0 then 0 else Nat.log 2 x + 1

theorem lt_two_pow_bitLength (x : Nat) : x < 2 ^ bitLength x := by
  unfold bitLength
  split
  next h => simp [h]
  next h => exact Nat.lt_pow_succ_log_self (by decide) x

theorem bitLength_le_iff {x b : Nat} : bitLength x ≤ b ↔ x < 2 ^ b := by
  constructor
  · intro h
    exact lt_two_pow_mono (lt_two_pow_bitLength x) h
  · intro h
    unfold bitLength
    split
    next => exact Nat.zero_le _
    next hx => exact Nat.succ_le_of_lt (Nat.log_lt_of_lt_pow hx h)

theorem bitLength_mono {x y : Nat} (h : x ≤ y) : bitLength x ≤ bitLength y :=
  bitLength_le_iff.mpr (h.trans_lt (lt_two_pow_bitLength y))

end Words
