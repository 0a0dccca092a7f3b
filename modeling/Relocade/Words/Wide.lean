import Mathlib.Algebra.Order.Ring.Nat
import Mathlib.Tactic.Ring

/-!
# `Words.Wide` — numbers of two words

A pair of 64-bit words and its value. Each operation on the words computes the operation on the values, as long as the
result fits two words.
-/

namespace Words

/-- Two words, the low one first. -/
structure Wide where
  low : BitVec 64
  high : BitVec 64
  deriving DecidableEq, Repr

namespace Wide

def toNat (w : Wide) : Nat := w.low.toNat + 2 ^ 64 * w.high.toNat

/-- The low and high halves of a full product. -/
def mul (x y : BitVec 64) : Wide := ⟨x * y, BitVec.ofNat 64 (x.toNat * y.toNat / 2 ^ 64)⟩

variable (w v : Wide)

def addWord (x : BitVec 64) : Wide :=
  let low := w.low + x
  ⟨low, w.high + if low < w.low then 1 else 0⟩

def subWord (x : BitVec 64) : Wide := ⟨w.low - x, w.high - if w.low < x then 1 else 0⟩

def sub : Wide := ⟨w.low - v.low, w.high - v.high - if w.low < v.low then 1 else 0⟩

def atLeast : Bool := v.high < w.high || (w.high = v.high && v.low ≤ w.low)

variable {w v}

theorem toNat_lt : w.toNat < 2 ^ 128 := by
  have hlow := w.low.isLt
  have hhi := w.high.isLt
  unfold toNat
  omega

theorem toNat_mul (x y : BitVec 64) : (mul x y).toNat = x.toNat * y.toNat := by
  have hlt : x.toNat * y.toNat < 2 ^ 64 * 2 ^ 64 := Nat.mul_lt_mul'' x.isLt y.isLt
  unfold mul toNat
  rw [BitVec.toNat_mul, BitVec.toNat_ofNat, Nat.mod_eq_of_lt (Nat.div_lt_of_lt_mul hlt)]
  exact Nat.mod_add_div _ _

theorem toNat_addWord {x : BitVec 64} (h : w.toNat + x.toNat < 2 ^ 128) : (w.addWord x).toNat = w.toNat + x.toNat := by
  have hlow := w.low.isLt
  have hhi := w.high.isLt
  have hx := x.isLt
  unfold addWord toNat at *
  dsimp only
  split
  next hcarry =>
    rw [BitVec.lt_def, BitVec.toNat_add] at hcarry
    rw [BitVec.toNat_add, BitVec.toNat_add, show (1 : BitVec 64).toNat = 1 from rfl]
    omega
  next hcarry =>
    rw [BitVec.lt_def, BitVec.toNat_add] at hcarry
    rw [BitVec.toNat_add, BitVec.toNat_add, show (0 : BitVec 64).toNat = 0 from rfl]
    omega

theorem toNat_sub (h : v.toNat ≤ w.toNat) : (w.sub v).toNat = w.toNat - v.toNat := by
  have hlow := w.low.isLt
  have hhi := w.high.isLt
  have hlow' := v.low.isLt
  have hhi' := v.high.isLt
  unfold sub toNat at *
  dsimp only
  split
  next hborrow =>
    rw [BitVec.lt_def] at hborrow
    rw [BitVec.toNat_sub, BitVec.toNat_sub, BitVec.toNat_sub, show (1 : BitVec 64).toNat = 1 from rfl]
    omega
  next hborrow =>
    rw [BitVec.lt_def] at hborrow
    rw [BitVec.toNat_sub, BitVec.toNat_sub, BitVec.toNat_sub, show (0 : BitVec 64).toNat = 0 from rfl]
    omega

theorem toNat_subWord {x : BitVec 64} (h : x.toNat ≤ w.toNat) : (w.subWord x).toNat = w.toNat - x.toNat := by
  have hz : (⟨x, 0⟩ : Wide).toNat = x.toNat := rfl
  have hsub : w.subWord x = w.sub ⟨x, 0⟩ := by
    unfold subWord sub
    dsimp only
    rw [show w.high - 0 = w.high from BitVec.sub_zero w.high]
  rw [hsub, toNat_sub (by rw [hz]; exact h), hz]

theorem atLeast_iff : w.atLeast v = true ↔ v.toNat ≤ w.toNat := by
  have hlow := w.low.isLt
  have hlow' := v.low.isLt
  unfold atLeast toNat
  rw [Bool.or_eq_true, Bool.and_eq_true, decide_eq_true_iff, decide_eq_true_iff, decide_eq_true_iff, BitVec.lt_def,
    BitVec.le_def, ← BitVec.toNat_inj]
  omega

/-! ## Shifts -/

/-- A word shifted into two. -/
theorem toNat_shiftLeft (x : BitVec 64) {k : Nat} (h : k ≤ 64) :
    (⟨x <<< k, x >>> (64 - k)⟩ : Wide).toNat = x.toNat * 2 ^ k := by
  have hpow : 2 ^ 64 = 2 ^ k * 2 ^ (64 - k) := by rw [← pow_add, Nat.add_sub_cancel' h]
  unfold toNat
  dsimp only
  rw [BitVec.toNat_shiftLeft, BitVec.toNat_ushiftRight, Nat.shiftLeft_eq, Nat.shiftRight_eq_div_pow, hpow,
    Nat.mul_comm x.toNat, Nat.mul_mod_mul_left, Nat.mul_assoc, ← Nat.mul_add, Nat.mod_add_div]

/-- A shifted word with a digit in its low bits. -/
theorem toNat_shiftLeft_or {x y : BitVec 64} {k : Nat} (hy : y.toNat < 2 ^ k) (hx : x.toNat * 2 ^ k < 2 ^ 64) :
    (x <<< k ||| y).toNat = x.toNat * 2 ^ k + y.toNat := by
  rw [BitVec.toNat_or, BitVec.toNat_shiftLeft, Nat.shiftLeft_eq, Nat.mod_eq_of_lt hx, ← Nat.shiftLeft_eq,
    ← Nat.shiftLeft_add_eq_or_of_lt hy, Nat.shiftLeft_eq]

def shiftLeft (w : Wide) (k : Nat) : Wide := ⟨w.low <<< k, w.high <<< k ||| w.low >>> (64 - k)⟩

theorem toNat_shiftLeft' {k : Nat} (hk : k ≤ 64) (h : w.toNat * 2 ^ k < 2 ^ 128) :
    (w.shiftLeft k).toNat = w.toNat * 2 ^ k := by
  have hword := toNat_shiftLeft w.low hk
  have hpow : 2 ^ 64 = 2 ^ k * 2 ^ (64 - k) := by rw [← pow_add, Nat.add_sub_cancel' hk]
  have hlow : (w.low >>> (64 - k)).toNat < 2 ^ k := by
    rw [BitVec.toNat_ushiftRight, Nat.shiftRight_eq_div_pow]
    refine Nat.div_lt_of_lt_mul ?_
    rw [Nat.mul_comm, ← hpow]
    exact w.low.isLt
  unfold toNat at h hword
  have hhi : w.high.toNat * 2 ^ k < 2 ^ 64 := by
    rw [Nat.add_mul, Nat.mul_assoc] at h
    omega
  unfold shiftLeft toNat
  dsimp only at hword ⊢
  rw [toNat_shiftLeft_or hlow hhi, Nat.mul_add, Nat.add_comm (2 ^ 64 * _), ← Nat.add_assoc, hword, Nat.add_mul,
    Nat.mul_assoc]

end Wide

end Words
