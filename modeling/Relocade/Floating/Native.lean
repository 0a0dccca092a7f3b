import Mathlib.Data.Nat.Bitwise

/-!
# `Floating.Native` — native binary64 arithmetic

The host's binary64 operations as functions of encodings, and the fields of an encoding.
-/

namespace Relocade.Floating

/-- Native binary64 arithmetic, on encodings. -/
structure Native where
  add : BitVec 64 → BitVec 64 → BitVec 64
  sub : BitVec 64 → BitVec 64 → BitVec 64
  mul : BitVec 64 → BitVec 64 → BitVec 64
  div : BitVec 64 → BitVec 64 → BitVec 64
  sqrt : BitVec 64 → BitVec 64

/-- The fraction field of a binary64 encoding. -/
def fractionMask : BitVec 64 := BitVec.ofNat 64 (2 ^ 52 - 1)

/-- The leading bit that an encoding leaves out. -/
def hiddenBit : BitVec 64 := BitVec.ofNat 64 (2 ^ 52)

/-- The exponent field of the binade of an integer power of two. -/
def exponentField (exponent : Nat) : BitVec 64 := BitVec.ofNat 64 ((1023 + exponent) * 2 ^ 52)

/-- A significand with its fraction from an encoding. -/
theorem toNat_hidden (x : BitVec 64) : ((x &&& fractionMask) ||| hiddenBit).toNat = 2 ^ 52 + x.toNat % 2 ^ 52 := by
  have hmask : (x &&& fractionMask).toNat = x.toNat % 2 ^ 52 := by
    rw [BitVec.toNat_and]
    exact Nat.and_two_pow_sub_one_eq_mod _ 52
  have hlt : x.toNat % 2 ^ 52 < 2 ^ 52 := Nat.mod_lt _ (by decide)
  rw [BitVec.or_comm, BitVec.toNat_or, hmask, show hiddenBit.toNat = 1 <<< 52 from rfl,
    ← Nat.shiftLeft_add_eq_or_of_lt hlt]
  rfl

end Relocade.Floating
