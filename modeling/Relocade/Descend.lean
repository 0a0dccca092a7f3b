import Mathlib.Data.Nat.Basic

/-!
# `Descend` — loops that walk down a well-founded chain

`run step n a` follows a partial step at most `n` times. Facts about the value it stops at come from what one step
preserves; when a measure falls at every step and starts below `n`, the loop stops because no step is left.
-/

namespace Descend

variable {α : Type}

/-- Follow `step` at most `n` times. -/
def run (step : α → Option α) : Nat → α → α
  | 0, a => a
  | n + 1, a =>
      match step a with
      | some b => run step n b
      | none => a

variable {step : α → Option α} {P : α → Prop} {a : α} {n : Nat}

theorem run_invariant (hstep : ∀ a b, P a → step a = some b → P b) (ha : P a) : P (run step n a) := by
  induction n generalizing a with
  | zero => exact ha
  | succ n ih =>
    unfold run
    split
    · next b hb => exact ih (hstep a b ha hb)
    · exact ha

/-- Steps that agree wherever the loop can be make the same loop. -/
theorem run_congr {step' : α → Option α} (hstep : ∀ a b, P a → step a = some b → P b)
    (heq : ∀ a, P a → step' a = step a) (ha : P a) : run step' n a = run step n a := by
  induction n generalizing a with
  | zero => rfl
  | succ n ih =>
    unfold run
    rw [heq a ha]
    split
    · next b hb => exact ih (hstep a b ha hb)
    · rfl

/-- A loop whose measure starts below its bound stops at a value without a step. -/
theorem run_stuck (μ : α → Nat) (hstep : ∀ a b, P a → step a = some b → P b ∧ μ b < μ a) (ha : P a)
    (hn : μ a < n) : step (run step n a) = none := by
  induction n generalizing a with
  | zero => exact absurd hn (Nat.not_lt_zero _)
  | succ n ih =>
    unfold run
    split
    · next b hb =>
        obtain ⟨hb', hlt⟩ := hstep a b ha hb
        exact ih hb' (by omega)
    · next hnone => exact hnone

end Descend
