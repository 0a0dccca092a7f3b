import Relocade.Words.Bits

/-!
# `Compiler.Types` — logical value types and literals

A value has a logical type; WebAssembly stores it in the type's *carrier*, which may be wider. `I1`, `I8` and
`I16` live in 32-bit carriers and `V64` in a 128-bit one, so a carrier can hold bits that do not belong to the
logical value. A literal is the natural number its two 64-bit words spell.
-/

namespace Relocade.Compiler

open Words

/-- Logical value types used by values and function signatures. -/
inductive Ty where
  | i1 | i8 | i16 | i32 | i64 | f64 | v64 | v128
  deriving DecidableEq

namespace Ty

/-- The Wasm type carrying this logical value. -/
def carrier : Ty → Ty
  | i1 | i8 | i16 | i32 => i32
  | v64 => v128
  | i64 => i64
  | f64 => f64
  | v128 => v128

def isInteger : Ty → Bool
  | i1 | i8 | i16 | i32 | i64 => true
  | f64 | v64 | v128 => false

/-- Scalar encodings fit in one 64-bit word, including the raw bits of F64. -/
def isScalar : Ty → Bool
  | i1 | i8 | i16 | i32 | i64 | f64 => true
  | v64 | v128 => false

def bits : Ty → Nat
  | i1 => 1
  | i8 => 8
  | i16 => 16
  | i32 => 32
  | i64 | f64 | v64 => 64
  | v128 => 128

/-- The logical bit mask of an encoding. -/
def mask (ty : Ty) : Nat := lowMask ty.bits

/-- Keep the logical bits of an encoding. `Type::normalize` and `Literal::normalize` both mask to the width of
    the type; a vector literal already has at most 128 bits. -/
def normalize (ty : Ty) (x : Nat) : Nat := x % 2 ^ ty.bits

/-- Integer lane widths of a vector. -/
def isLane : Ty → Bool
  | i8 | i16 | i32 | i64 => true
  | i1 | f64 | v64 | v128 => false

@[simp] theorem carrier_i1 : i1.carrier = i32 := rfl
@[simp] theorem carrier_i32 : i32.carrier = i32 := rfl
@[simp] theorem carrier_i64 : i64.carrier = i64 := rfl
@[simp] theorem carrier_v128 : v128.carrier = v128 := rfl
@[simp] theorem carrier_carrier (ty : Ty) : ty.carrier.carrier = ty.carrier := by cases ty <;> rfl
@[simp] theorem isInteger_carrier (ty : Ty) : ty.carrier.isInteger = ty.isInteger := by cases ty <;> rfl
@[simp] theorem isScalar_carrier (ty : Ty) : ty.carrier.isScalar = ty.isScalar := by cases ty <;> rfl

theorem bits_le_carrier (ty : Ty) : ty.bits ≤ ty.carrier.bits := by cases ty <;> decide
theorem bits_pos (ty : Ty) : 0 < ty.bits := by cases ty <;> decide
theorem bits_le (ty : Ty) : ty.bits ≤ 128 := by cases ty <;> decide

variable {ty : Ty}

theorem bits_le_of_isScalar (h : ty.isScalar = true) : ty.bits ≤ 64 := by
  cases ty <;> first | decide | exact absurd h (by decide)

theorem isScalar_of_isInteger (h : ty.isInteger = true) : ty.isScalar = true := by
  cases ty <;> first | rfl | exact absurd h (by decide)

theorem carrier_of_isLane (h : ty.isLane = true) : ty.isInteger = true := by
  cases ty <;> first | rfl | exact absurd h (by decide)

theorem carrier_ne_f64 (h : ty.isInteger = true) : ty.carrier ≠ .f64 := by
  revert h
  cases ty <;> decide

theorem normalize_lt (ty : Ty) (x : Nat) : ty.normalize x < 2 ^ ty.bits := Nat.mod_lt _ (Nat.two_pow_pos _)

theorem normalize_of_lt {x : Nat} (h : x < 2 ^ ty.bits) : ty.normalize x = x := Nat.mod_eq_of_lt h

/-- An integer carrier has 32 or 64 bits. -/
theorem carrier_cases_of_isInteger (h : ty.isInteger = true) : ty.carrier = i32 ∨ ty.carrier = i64 := by
  cases ty <;> first | exact Or.inl rfl | exact Or.inr rfl | exact absurd h (by decide)

/-- Only `I64` itself is carried as `I64`. -/
theorem eq_i64_of_carrier (h : ty.carrier = i64) : ty = i64 := by
  cases ty <;> first | rfl | exact absurd h (by decide)

theorem eq_f64_of_carrier (h : ty.carrier = f64) : ty = f64 := by
  cases ty <;> first | rfl | exact absurd h (by decide)

end Ty

/-- The value of a literal in a scalar type, `None` for vectors. -/
def Literal.scalar (ty : Ty) (x : Nat) : Option Nat := if ty.isScalar then some (x % 2 ^ 64) else none

end Relocade.Compiler
