import Mathlib.Algebra.Group.Nat.Defs

/-!
# `Words.Checked` — unsigned arithmetic that fails

Operations on unsigned values of a width, over naturals. An operation is `none` where the exact result does not fit or
does not exist; where it is defined it is the exact result.
-/

namespace Checked

variable {w a b : Nat}

def add (w a b : Nat) : Option Nat := if a + b < 2 ^ w then some (a + b) else none

def sub (a b : Nat) : Option Nat := if b ≤ a then some (a - b) else none

def mul (w a b : Nat) : Option Nat := if a * b < 2 ^ w then some (a * b) else none

def div (a b : Nat) : Option Nat := if b = 0 then none else some (a / b)

def mod (a b : Nat) : Option Nat := if b = 0 then none else some (a % b)

def divCeil (a b : Nat) : Option Nat := if b = 0 then none else some (if a % b = 0 then a / b else a / b + 1)

/-- A conversion to a width; `none` where it would truncate. -/
def cast (w a : Nat) : Option Nat := if a < 2 ^ w then some a else none

theorem add_eq (h : a + b < 2 ^ w) : add w a b = some (a + b) := if_pos h

theorem sub_eq (h : b ≤ a) : sub a b = some (a - b) := if_pos h

theorem mul_eq (h : a * b < 2 ^ w) : mul w a b = some (a * b) := if_pos h

theorem div_eq (h : 0 < b) : div a b = some (a / b) := if_neg (Nat.ne_of_gt h)

theorem mod_eq (h : 0 < b) : mod a b = some (a % b) := if_neg (Nat.ne_of_gt h)

theorem cast_eq (h : a < 2 ^ w) : cast w a = some a := if_pos h

/-! ## Bounds -/

section

variable {A B : Nat}

theorem add_le (ha : a ≤ A) (hb : b ≤ B) (h : A + B < 2 ^ w) : ∃ c, add w a b = some c ∧ c ≤ A + B :=
  ⟨_, add_eq (Nat.lt_of_le_of_lt (Nat.add_le_add ha hb) h), Nat.add_le_add ha hb⟩

theorem mul_le (ha : a ≤ A) (hb : b ≤ B) (h : A * B < 2 ^ w) : ∃ c, mul w a b = some c ∧ c ≤ A * B :=
  ⟨_, mul_eq (Nat.lt_of_le_of_lt (Nat.mul_le_mul ha hb) h), Nat.mul_le_mul ha hb⟩

theorem div_le (ha : a ≤ A) (h : 0 < b) : ∃ c, div a b = some c ∧ c ≤ A :=
  ⟨_, div_eq h, Nat.le_trans (Nat.div_le_self a b) ha⟩

theorem mod_lt (h : 0 < b) : ∃ c, mod a b = some c ∧ c < b := ⟨_, mod_eq h, Nat.mod_lt a h⟩

end

/-- The quotient rounded up is the least whose multiple reaches the value. -/
theorem divCeil_spec (h : 0 < b) : ∃ q, divCeil a b = some q ∧ q ≤ a / b + 1 ∧ ∀ n, q ≤ n ↔ a ≤ n * b := by
  have hdiv := Nat.div_add_mod a b
  refine ⟨_, if_neg (Nat.ne_of_gt h), by split <;> omega, fun n => ?_⟩
  split
  next hmod =>
    have hexact : a = a / b * b := (Nat.div_mul_cancel (Nat.dvd_of_mod_eq_zero hmod)).symm
    constructor
    · intro hle
      rw [hexact]
      exact Nat.mul_le_mul_right b hle
    · intro hle
      rw [hexact] at hle
      exact Nat.le_of_mul_le_mul_right hle h
  next hmod =>
    rw [Nat.succ_le_iff, Nat.div_lt_iff_lt_mul h]
    constructor
    · exact Nat.le_of_lt
    · intro hle
      refine Nat.lt_of_le_of_ne hle fun heq => hmod ?_
      rw [heq, Nat.mul_mod_left]

end Checked
