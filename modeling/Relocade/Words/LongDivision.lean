import Mathlib.Algebra.Order.Ring.Nat
import Mathlib.Tactic.Ring

/-!
# `Words.LongDivision` — long division with estimated digits

A dividend is divided digit by digit, each digit estimated by the divisor's leading digit alone. In a radix `R` a
divisor that reaches half of `R ^ 2` makes the estimate at most two too large (`digit_eq`).
-/

namespace Words.LongDivision

/-! ## Digits -/

variable {D R : Nat}

theorem append_split (D x y : Nat) : x * R + y = x % D * R + y + D * (x / D * R) := by
  calc x * R + y = (x % D + D * (x / D)) * R + y := by rw [Nat.mod_add_div]
    _ = x % D * R + y + D * (x / D * R) := by ring

/-- Another digit of the dividend, after the quotient so far. -/
theorem append_div (hD : 0 < D) (x y : Nat) : (x * R + y) / D = x / D * R + (x % D * R + y) / D := by
  rw [append_split D, Nat.add_mul_div_left _ _ hD, Nat.add_comm]

theorem append_mod (x y : Nat) : (x * R + y) % D = (x % D * R + y) % D := by
  rw [append_split D, Nat.add_mul_mod_self_left]

theorem append_lt {r y : Nat} (hr : r < D) (hy : y < R) : r * R + y < D * R := by
  calc r * R + y < r * R + R := Nat.add_lt_add_left hy _
    _ = (r + 1) * R := (Nat.succ_mul r R).symm
    _ ≤ D * R := Nat.mul_le_mul_right R hr

/-- The next digit stays below the radix. -/
theorem append_div_lt {r y : Nat} (hr : r < D) (hy : y < R) : (r * R + y) / D < R :=
  Nat.div_lt_of_lt_mul (append_lt hr hy)

/-! ## Estimates -/

variable {dh dl high low : Nat}

/-- A leading digit of at least half the radix bounds the estimate. -/
theorem estimate_le (hlead : R ≤ 2 * dh) (hdl : dl < R) (hhi : high < dh * R + dl) : high / dh ≤ R + 1 := by
  have hlt : high < dh * (R + 2) := by
    calc high < dh * R + dl := hhi
      _ ≤ dh * R + 2 * dh := by omega
      _ = dh * (R + 2) := by ring
  exact Nat.le_of_lt_succ (Nat.div_lt_of_lt_mul hlt)

theorem estimate_mul_lt (hlead : R ≤ 2 * dh) (hdl : dl < R) (hhi : high < dh * R + dl) :
    high / dh * dl < R * R := by
  obtain ⟨n, rfl⟩ : ∃ n, R = n + 1 := ⟨R - 1, by omega⟩
  calc high / dh * dl ≤ (n + 1 + 1) * n := Nat.mul_le_mul (estimate_le hlead hdl hhi) (Nat.le_of_lt_succ hdl)
    _ < (n + 1) * (n + 1) := by
      rw [show (n + 1 + 1) * n = n * n + 2 * n by ring, show (n + 1) * (n + 1) = n * n + 2 * n + 1 by ring]
      exact Nat.lt_succ_self _

/-- What the estimate's product with the leading digit leaves of the dividend. -/
def rest (R dh high low : Nat) : Nat := high % dh * R + low

theorem rest_lt (hdh : 0 < dh) (hlow : low < R) : rest R dh high low < dh * R :=
  append_lt (Nat.mod_lt high hdh) hlow

/-- The dividend against its estimate. -/
theorem dividend_add (R dh dl high low : Nat) :
    high * R + low + high / dh * dl = high / dh * (dh * R + dl) + rest R dh high low := by
  calc high * R + low + high / dh * dl = (high % dh + dh * (high / dh)) * R + low + high / dh * dl := by
        rw [Nat.mod_add_div]
    _ = high / dh * (dh * R + dl) + (high % dh * R + low) := by ring

/-- An estimate with at most two corrections. -/
def digit (R dh dl high low : Nat) : Nat :=
  let estimate := high / dh
  let lowProduct := estimate * dl
  let rest := rest R dh high low
  estimate - (if rest < lowProduct then 1 else 0) -
    if rest < lowProduct ∧ dh * R + dl < lowProduct - rest then 1 else 0

/-- The corrected estimate is the digit. -/
theorem digit_eq (hlead : R ≤ 2 * dh) (hdl : dl < R) (hhi : high < dh * R + dl) (hlow : low < R) :
    digit R dh dl high low = (high * R + low) / (dh * R + dl) := by
  have hdividend := dividend_add R dh dl high low
  have hproduct := estimate_mul_lt hlead hdl hhi
  have hrest := @rest_lt R dh high low (show 0 < dh by omega) hlow
  have hhalf : R * R ≤ 2 * (dh * R) := by
    calc R * R ≤ 2 * dh * R := Nat.mul_le_mul_right R hlead
      _ = 2 * (dh * R) := Nat.mul_assoc 2 dh R
  unfold digit
  dsimp only
  generalize rest R dh high low = rest at *
  generalize high / dh * dl = lowProduct at *
  generalize high / dh = estimate at *
  generalize hD : dh * R + dl = D at *
  have hexact {q : Nat} (hle : q * D ≤ high * R + low) (hlt : high * R + low < (q + 1) * D) :
      q = (high * R + low) / D := (Nat.div_eq_of_lt_le hle hlt).symm
  by_cases hlarge : rest < lowProduct
  · rw [if_pos hlarge]
    have hpos : 0 < estimate := by
      refine Nat.pos_of_ne_zero ?_
      rintro rfl
      omega
    obtain ⟨q, rfl⟩ : ∃ q, estimate = q + 1 := ⟨estimate - 1, by omega⟩
    rw [Nat.add_mul, Nat.one_mul] at hdividend
    by_cases hsnd : D < lowProduct - rest
    · rw [if_pos ⟨hlarge, hsnd⟩]
      have hpos' : 0 < q := by
        refine Nat.pos_of_ne_zero ?_
        rintro rfl
        omega
      obtain ⟨p, rfl⟩ : ∃ p, q = p + 1 := ⟨q - 1, by omega⟩
      rw [Nat.add_mul, Nat.one_mul] at hdividend
      refine hexact ?_ ?_
      · rw [Nat.add_sub_cancel, Nat.add_sub_cancel]
        omega
      · rw [Nat.add_sub_cancel, Nat.add_sub_cancel, Nat.add_mul, Nat.one_mul]
        omega
    · rw [if_neg fun h => hsnd h.2, Nat.sub_zero, Nat.add_sub_cancel]
      refine hexact ?_ ?_
      · omega
      · rw [Nat.add_mul, Nat.one_mul]
        omega
  · rw [if_neg hlarge, if_neg fun h => hlarge h.1, Nat.sub_zero, Nat.sub_zero]
    refine hexact ?_ ?_
    · omega
    · rw [Nat.add_mul, Nat.one_mul]
      omega

end Words.LongDivision
