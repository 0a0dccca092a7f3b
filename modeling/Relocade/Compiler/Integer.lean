import Relocade.Words.Signed
import Relocade.Compiler.Types

/-!
# `Compiler.Integer` — integer and bitwise operations on 64-bit encodings

The operations of `integer.rs` and `bitwise.rs`. Encodings are natural numbers below `2 ^ 64`; the logical type
chooses the width at which signs, shift counts and rotations are read.
-/

namespace Relocade.Compiler

open Words

namespace Integer

inductive BinaryOp where
  | add | sub | mul | divUnsigned | divSigned | remUnsigned | remSigned
  deriving DecidableEq

inductive ShiftOp where
  | left | rightUnsigned | rightSigned
  deriving DecidableEq

inductive RotateOp where
  | left | right
  deriving DecidableEq

inductive BitCountOp where
  | ones | leadingZeros | trailingZeros
  deriving DecidableEq

inductive CompareOp where
  | eq | ne | ltUnsigned | geUnsigned | ltSigned | geSigned
  deriving DecidableEq

/-- The logical value as a signed integer: `(bits << shift) as i64 >> shift`. -/
def signedValue (ty : Ty) (x : Nat) : Int := signed ty.bits x

def shiftCount (ty : Ty) (count : Nat) : Nat := count % (if ty = .i64 then 64 else 32)

def rotateCount (ty : Ty) (count : Nat) : Nat := count % ty.bits

/-- `None` leaves an operation without a native numeric result in the expression. -/
def binary (ty : Ty) (operator : BinaryOp) (left right : Nat) : Option Nat :=
  match operator with
  | .add => some ((left + right) % 2 ^ 64)
  | .sub => some ((left + (2 ^ 64 - right % 2 ^ 64)) % 2 ^ 64)
  | .mul => some (left * right % 2 ^ 64)
  | .divUnsigned => if right = 0 then none else some (left / right)
  | .remUnsigned => if right = 0 then none else some (left % right)
  | .divSigned =>
      let left := signedValue ty left
      let right := signedValue ty right
      if ty = .i32 ∧ left = -2 ^ 31 ∧ right = -1 then none
      else if right = 0 ∨ (left = -2 ^ 63 ∧ right = -1) then none
      else some (word 64 (left.tdiv right))
  | .remSigned =>
      let left := signedValue ty left
      let right := signedValue ty right
      if left = -2 ^ 63 ∧ right = -1 then some 0
      else if right = 0 then none
      else some (word 64 (left.tmod right))

def compare (ty : Ty) (operator : CompareOp) (left right : Nat) : Bool :=
  match operator with
  | .eq => left = right
  | .ne => left ≠ right
  | .ltUnsigned => left < right
  | .geUnsigned => right ≤ left
  | .ltSigned => signedValue ty left < signedValue ty right
  | .geSigned => signedValue ty right ≤ signedValue ty left

def shift (ty : Ty) (operator : ShiftOp) (value count : Nat) : Nat :=
  let count := shiftCount ty count
  match operator with
  | .left => (value <<< count) % 2 ^ 64
  | .rightUnsigned => value >>> count
  | .rightSigned => word 64 (signedValue ty value >>> count)

def rotate (ty : Ty) (operator : RotateOp) (value count : Nat) : Nat :=
  let count := rotateCount ty count
  if count = 0 then value
  else
    let remaining := ty.bits - count
    match operator with
    | .left => (value <<< count) % 2 ^ 64 ||| value >>> remaining
    | .right => value >>> count ||| (value <<< remaining) % 2 ^ 64

/-- Trailing zero bits of a word of `n` bits. -/
def trailingZeros : Nat → Nat → Nat
  | 0, _ => 0
  | n + 1, x => if x % 2 = 1 then 0 else trailingZeros n (x / 2) + 1

/-- Set bits of a word of `n` bits. -/
def countOnes : Nat → Nat → Nat
  | 0, _ => 0
  | n + 1, x => x % 2 + countOnes n (x / 2)

def bitCount (ty : Ty) (operator : BitCountOp) (value : Nat) : Nat :=
  match operator with
  | .ones => countOnes 64 value
  | .leadingZeros => 64 - bitLength value - (64 - ty.bits)
  | .trailingZeros => min (trailingZeros 64 value) ty.bits

/-- The two integer carriers read shift counts modulo their own width, as every type they carry does. -/
theorem shiftCount_carrier (ty : Ty) (count : Nat) : shiftCount ty.carrier count = shiftCount ty count := by
  cases ty <;> rfl

theorem shiftCount_eq_mod {ty : Ty} (h : ty.isInteger = true) (count : Nat) :
    shiftCount ty count = count % ty.carrier.bits := by
  cases ty <;> first | rfl | exact absurd h (by decide)

theorem shiftCount_lt_carrier {ty : Ty} (h : ty.isInteger = true) (count : Nat) :
    shiftCount ty.carrier count < ty.carrier.bits := by
  rw [shiftCount_carrier, shiftCount_eq_mod h]
  exact Nat.mod_lt _ ty.carrier.bits_pos

@[simp] theorem shiftCount_shiftCount (ty : Ty) (count : Nat) :
    shiftCount ty (shiftCount ty count) = shiftCount ty count :=
  Nat.mod_mod _ _

theorem countOnes_le {n x b : Nat} (h : x < 2 ^ b) : countOnes n x ≤ b := by
  induction n generalizing x b with
  | zero => exact Nat.zero_le _
  | succ n ih =>
    unfold countOnes
    cases b with
    | zero =>
      have hx : x = 0 := by simpa using h
      subst hx
      simpa using ih (x := 0) (b := 0) (by decide)
    | succ b =>
      have := ih (x := x / 2) (b := b) (by rw [pow_succ] at h; omega)
      omega

end Integer

/-- Bitwise operations shared by integer and vector encodings. -/
inductive BitwiseOp where
  | and | or | xor
  deriving DecidableEq

def BitwiseOp.apply : BitwiseOp → Nat → Nat → Nat
  | .and, left, right => left &&& right
  | .or, left, right => left ||| right
  | .xor, left, right => left ^^^ right

/-- A bitwise operation stays inside any width that both operands fit. -/
theorem BitwiseOp.apply_lt {o : BitwiseOp} {left right b : Nat} (hl : left < 2 ^ b) (hr : right < 2 ^ b) :
    o.apply left right < 2 ^ b := by
  cases o with
  | and => exact Nat.and_lt_two_pow left hr
  | or => exact Nat.or_lt_two_pow hl hr
  | xor => exact Nat.xor_lt_two_pow hl hr

end Relocade.Compiler
