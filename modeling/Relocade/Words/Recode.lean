import Mathlib.Algebra.Order.Ring.Nat
import Mathlib.Tactic.Ring

/-!
# `Words.Recode` — the digits of one base read in another

`recode b c k n` takes the low `k` digits of `n` in base `b` and reads them in base `c`. Recoding may be done in pieces
(`recode_add`), and where the digits fit both bases it is undone by recoding back (`recode_recode`).
-/

namespace Words

/-- The low digits in one base, read in another. -/
def recode (b c : ℕ) : ℕ → ℕ → ℕ
  | 0, _ => 0
  | k + 1, n => n % b + c * recode b c k (n / b)

variable {b c : ℕ}

/-- The low digits come first. -/
theorem recode_add (b c j k n : ℕ) : recode b c (j + k) n = recode b c j n + c ^ j * recode b c k (n / b ^ j) := by
  induction j generalizing n with
  | zero =>
    rw [Nat.zero_add, pow_zero, pow_zero, Nat.div_one, Nat.one_mul]
    exact (Nat.zero_add _).symm
  | succ j ih =>
    rw [Nat.succ_add]
    show n % b + c * recode b c (j + k) (n / b) = n % b + c * recode b c j (n / b) + _
    rw [ih, Nat.div_div_eq_div_mul, ← pow_succ', pow_succ']
    ring

/-- The low digits are digits of the base that they are read in. -/
def DigitsFit (b c k n : ℕ) : Prop := ∀ i < k, n / b ^ i % b < c

variable {k n : ℕ}

theorem DigitsFit.head (h : DigitsFit b c (k + 1) n) : n % b < c := by
  have h0 := h 0 (Nat.succ_pos k)
  rwa [pow_zero, Nat.div_one] at h0

theorem DigitsFit.tail (h : DigitsFit b c (k + 1) n) : DigitsFit b c k (n / b) := by
  intro i hi
  have hdigit := h (i + 1) (Nat.succ_lt_succ hi)
  rwa [pow_succ', ← Nat.div_div_eq_div_mul] at hdigit

/-- Digits of a smaller base fit. -/
theorem digitsFit_of_le (hb : 0 < b) (hbc : b ≤ c) (k n : ℕ) : DigitsFit b c k n :=
  fun _ _ => Nat.lt_of_lt_of_le (Nat.mod_lt _ hb) hbc

theorem recode_lt (h : DigitsFit b c k n) : recode b c k n < c ^ k := by
  induction k generalizing n with
  | zero => exact Nat.one_pos
  | succ k ih =>
    have hhead := h.head
    have htail := Nat.mul_le_mul_left c (Nat.succ_le_of_lt (ih h.tail))
    show n % b + c * recode b c k (n / b) < c ^ (k + 1)
    rw [pow_succ']
    rw [Nat.mul_succ] at htail
    omega

/-- Recoding keeps every digit. -/
theorem digit_recode {k n i : ℕ} (h : DigitsFit b c k n) (hi : i < k) : recode b c k n / c ^ i % c = n / b ^ i % b := by
  induction k generalizing n i with
  | zero => exact absurd hi (Nat.not_lt_zero i)
  | succ k ih =>
    have hhead := h.head
    show (n % b + c * recode b c k (n / b)) / c ^ i % c = _
    cases i with
    | zero => rw [pow_zero, pow_zero, Nat.div_one, Nat.div_one, Nat.add_mul_mod_self_left, Nat.mod_eq_of_lt hhead]
    | succ i =>
      rw [pow_succ', ← Nat.div_div_eq_div_mul, Nat.add_mul_div_left _ _ (Nat.zero_lt_of_lt hhead),
        Nat.div_eq_of_lt hhead, Nat.zero_add, ih h.tail (Nat.lt_of_succ_lt_succ hi), Nat.div_div_eq_div_mul,
        ← pow_succ']

/-- Recoding back gives the low digits. -/
theorem recode_recode (h : DigitsFit b c k n) : recode c b k (recode b c k n) = n % b ^ k := by
  induction k generalizing n with
  | zero => rw [pow_zero, Nat.mod_one]; rfl
  | succ k ih =>
    have hhead := h.head
    have hmod : recode b c (k + 1) n % c = n % b := by
      show (n % b + c * recode b c k (n / b)) % c = _
      rw [Nat.add_mul_mod_self_left, Nat.mod_eq_of_lt hhead]
    have hdiv : recode b c (k + 1) n / c = recode b c k (n / b) := by
      show (n % b + c * recode b c k (n / b)) / c = _
      rw [Nat.add_mul_div_left _ _ (Nat.zero_lt_of_lt hhead), Nat.div_eq_of_lt hhead, Nat.zero_add]
    show recode b c (k + 1) n % c + b * recode c b k (recode b c (k + 1) n / c) = _
    rw [hmod, hdiv, ih h.tail, pow_succ', Nat.mod_mul]

/-- A recoded number fits the base that it came from. -/
theorem digitsFit_recode (hb : 0 < b) (h : DigitsFit b c k n) : DigitsFit c b k (recode b c k n) := by
  intro i hi
  rw [digit_recode h hi]
  exact Nat.mod_lt _ hb

end Words
