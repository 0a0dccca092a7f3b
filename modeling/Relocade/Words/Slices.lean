import Mathlib.Data.List.OfFn
import Mathlib.Logic.Function.Basic
import Relocade.Memory

/-!
# `Words.Slices` — records of a fixed layout

Parts of a list by their place, and tables that are filled entry by entry.
-/

namespace Slices

variable {α : Type} {n : Nat}

/-! ## Parts -/

def slice (xs : List α) (start count : Nat) : List α := (xs.drop start).take count

theorem slice_front {front back : List α} {count : Nat} (h : front.length = count) :
    slice (front ++ back) 0 count = front := by
  rw [slice, List.drop_zero, List.take_left' h]

theorem slice_all {xs : List α} {count : Nat} (h : xs.length = count) : slice xs 0 count = xs := by
  rw [slice, List.drop_zero, ← h, List.take_length]

/-- A part behind another one. -/
theorem slice_skip {front back : List α} {skipped : Nat} (h : front.length = skipped) (start count : Nat) :
    slice (front ++ back) (skipped + start) count = slice back start count := by
  rw [slice, slice, ← h, List.drop_length_add_append]

/-- The entries of a table in a list. -/
def table (default : α) (n : Nat) (xs : List α) : Fin n → α := fun i => xs.getD i.val default

theorem table_ofFn (default : α) (f : Fin n → α) : table default n (List.ofFn f) = f := by
  funext i
  have hlt : i.val < (List.ofFn f).length := by rw [List.length_ofFn]; exact i.isLt
  rw [table, List.getD_eq_getElem?_getD, List.getElem?_eq_getElem hlt, Option.getD_some, List.getElem_ofFn]

theorem ofFn_table (default : α) {xs : List α} (h : xs.length = n) : List.ofFn (table default n xs) = xs := by
  refine List.ext_getElem (by rw [List.length_ofFn, h]) fun i hi hi' => ?_
  rw [List.getElem_ofFn, table, List.getD_eq_getElem?_getD, List.getElem?_eq_getElem hi', Option.getD_some]

/-! ## Words -/

def words (count : Nat) (bytes : List (BitVec 8)) : List (BitVec 16) :=
  (List.range count).map fun i => Memory.ofBytes 16 (slice bytes (2 * i) 2)

theorem words_succ (count : Nat) (low high : BitVec 8) (bytes : List (BitVec 8)) :
    words (count + 1) (low :: high :: bytes) = Memory.ofBytes 16 [low, high] :: words count bytes := by
  rw [words, words, List.range_succ_eq_map, List.map_cons, List.map_map]
  rfl

theorem words_flatMap (values : List (BitVec 16)) :
    words values.length (values.flatMap (Memory.lowBytes 2)) = values := by
  induction values with
  | nil => rfl
  | cons value values ih =>
    have hbytes : Memory.lowBytes 2 value = [value.setWidth 8, (value >>> 8).setWidth 8] := rfl
    have hword := @Memory.ofBytes_lowBytes 16 2 value rfl
    rw [hbytes] at hword
    rw [List.flatMap_cons, hbytes, List.cons_append, List.cons_append, List.nil_append, List.length_cons, words_succ,
      hword, ih]

theorem flatMap_words (count : Nat) {bytes : List (BitVec 8)} (h : bytes.length = 2 * count) :
    (words count bytes).flatMap (Memory.lowBytes 2) = bytes := by
  induction count generalizing bytes with
  | zero => rw [List.length_eq_zero_iff.mp h]; rfl
  | succ count ih =>
    match bytes with
    | [] => cases h
    | [_] => exact absurd h (by simp; omega)
    | low :: high :: bytes =>
      have hbytes := @Memory.lowBytes_ofBytes 16 [low, high] (Nat.le_refl 16)
      rw [words_succ, List.flatMap_cons, ih (by simpa [Nat.mul_add_one] using h)]
      exact congrArg (· ++ bytes) hbytes

/-! ## Loops over tables -/

/-- What holds before the first entry and is kept by each holds after the last. -/
theorem foldl_finRange {σ : Type} {P : Nat → σ → Prop} {step : σ → Fin n → σ} {start : σ} (hst : P 0 start)
    (hstep : ∀ (i : Fin n) (s : σ), P i.val s → P (i.val + 1) (step s i)) :
    P n ((List.finRange n).foldl step start) := by
  induction n with
  | zero => exact hst
  | succ n ih =>
    rw [List.finRange_succ_last, List.foldl_append, List.foldl_map]
    exact hstep (Fin.last n) _ (ih fun i s h => hstep i.castSucc s h)

end Slices
