import Relocade.Compiler.Floating

/-!
# `Compiler.Expression` — pure expressions and their operators

Operation semantics are independent of the expression's operand storage, so an expression is generic in its
operands: value identifiers in a table, types while checking, literals while evaluating.
-/

namespace Relocade.Compiler

open Words

/-- Sixteen byte indices into two vectors. -/
abbrev ShuffleMask := Vector (Fin 32) 16

/-- Byte `i` of a shuffle's routing. -/
def ShuffleMask.index (mask : ShuffleMask) (i : Nat) : Nat := (mask[i]?.map Fin.val).getD 0

theorem ShuffleMask.index_lt (mask : ShuffleMask) (i : Nat) : mask.index i < 32 := by
  unfold ShuffleMask.index
  cases mask[i]? with
  | none => decide
  | some x => exact x.isLt

/-- The routing with byte `i` taken from `f i`; `ShuffleMask::new` asserts that every index is in range. -/
def ShuffleMask.ofIndices (f : Nat → Nat) : ShuffleMask := Vector.ofFn (fun i => ⟨f i.val % 32, Nat.mod_lt _ (by decide)⟩)

theorem ShuffleMask.index_ofIndices (f : Nat → Nat) {i : Nat} (hi : i < 16) :
    (ShuffleMask.ofIndices f).index i = f i % 32 := by
  simp [ShuffleMask.index, ShuffleMask.ofIndices, hi]

/-- One-input operations. -/
inductive UnaryOp where
  | float (operator : Floating.UnaryOp)
  | floatConvert (operator : Floating.ConvertOp)
  | floatVector (operator : Floating.UnaryOp) (format : Floating.Format)
  | floatVectorConvert (operator : Floating.VectorConvertOp)
  | bitCount (operator : Integer.BitCountOp) (inputType : Ty)
  | extractLane (lane : Nat)
  | bitmask (laneType : Ty)
  | splat (laneType : Ty)
  | pairwiseAddUnsigned (laneType : Ty)
  | reinterpret
  | signExtend (inputType : Ty)
  | zeroTest (nonzero : Bool)
  | convert
  | lowBits (bits : Nat)
  deriving DecidableEq

inductive CompareOp where
  | integer (operator : Integer.CompareOp)
  | float (operator : Floating.CompareOp)
  deriving DecidableEq

inductive LaneBinaryOp where
  | add | sub | mul
  | wideningMulLow (isSigned : Bool)
  | wideningMulHigh (isSigned : Bool)
  | dotI16Signed | eq | gtSigned | minSigned | minUnsigned | maxSigned | maxUnsigned | averageUnsigned
  | addSatSigned | addSatUnsigned | subSatSigned | subSatUnsigned
  deriving DecidableEq

/-- Operations with two operands. -/
inductive BinaryOp where
  | bitwise (operator : BitwiseOp)
  | compare (operator : CompareOp)
  | shuffleImmediate (mask : ShuffleMask)
  | swizzle (inputType : Ty)
  | replaceLane (laneType : Ty) (lane : Nat)
  | integer (operator : Integer.BinaryOp)
  | float (operator : Floating.BinaryOp)
  | floatVector (operator : Floating.BinaryOp) (format : Floating.Format)
  | floatVectorCompare (operator : Floating.CompareOp) (format : Floating.Format)
  | vector (operator : LaneBinaryOp) (laneType : Ty)
  | narrow (isSigned : Bool) (resultLane : Ty)
  deriving DecidableEq

/-- Three-input operations, with operands in Wasm stack order. -/
inductive TernaryOp where
  /-- Selects the first or second value using the third input's I1 predicate. -/
  | select
  /-- Selects bits from the first or second vector using the third input's mask. -/
  | bitselect
  /-- Selects bytes from the first two vectors using the third input's indices. -/
  | shuffle (inputType : Ty)
  deriving DecidableEq

inductive ShiftOp where
  | scalar (operator : Integer.ShiftOp)
  | rotate (operator : Integer.RotateOp)
  | lanes (operator : Integer.ShiftOp) (laneType : Ty)
  deriving DecidableEq

inductive Expression (V : Type) where
  | unary (operator : UnaryOp) (input : V)
  | binary (operator : BinaryOp) (left right : V)
  | shift (operator : ShiftOp) (value count : V)
  | ternary (operator : TernaryOp) (first second third : V)
  | multiplyWide (isSigned : Bool) (left right : V)
  deriving DecidableEq

namespace Expression

variable {V U : Type}

/-- Logical result types in their declared order. -/
def resultTypes (e : Expression V) (ty : Ty) : List Ty :=
  match e with
  | multiplyWide .. => [.i64, .i64]
  | _ => [ty]

/-- Inputs in execution and Wasm stack order: select's condition comes last. -/
@[simp] def inputs : Expression V → List V
  | unary _ input => [input]
  | binary _ left right => [left, right]
  | shift _ value count => [value, count]
  | ternary _ first second third => [first, second, third]
  | multiplyWide _ left right => [left, right]

def map (f : V → U) : Expression V → Expression U
  | unary o input => unary o (f input)
  | binary o left right => binary o (f left) (f right)
  | shift o value count => shift o (f value) (f count)
  | ternary o first second third => ternary o (f first) (f second) (f third)
  | multiplyWide s left right => multiplyWide s (f left) (f right)

/-- Visit each input in Wasm stack order, stopping at the first failure. -/
def tryMap (f : V → Option U) : Expression V → Option (Expression U)
  | unary o input => do return unary o (← f input)
  | binary o left right => do return binary o (← f left) (← f right)
  | shift o value count => do return shift o (← f value) (← f count)
  | ternary o first second third => do return ternary o (← f first) (← f second) (← f third)
  | multiplyWide s left right => do return multiplyWide s (← f left) (← f right)

@[simp] theorem inputs_map (f : V → U) (e : Expression V) : (e.map f).inputs = e.inputs.map f := by
  cases e <;> rfl

variable {e : Expression V}

theorem map_congr {f g : V → U} (h : ∀ v ∈ e.inputs, f v = g v) : e.map f = e.map g := by
  cases e <;> simp_all [map, inputs]

theorem tryMap_congr {f g : V → Option U} (h : ∀ v ∈ e.inputs, f v = g v) : e.tryMap f = e.tryMap g := by
  cases e <;> simp_all [tryMap, inputs]

/-- A successful visit maps every input. -/
theorem tryMap_eq_some_iff {f : V → Option U} {e' : Expression U} :
    e.tryMap f = some e' ↔ e.map f = e'.map some := by
  cases e <;> cases e' <;>
    simp only [tryMap, map, Option.bind_eq_bind, Option.bind_eq_some_iff, Option.pure_def, Option.some.injEq,
      reduceCtorEq, iff_false, not_exists, not_and, unary.injEq, binary.injEq, shift.injEq, ternary.injEq,
      multiplyWide.injEq] <;>
    aesop

/-- Every expression has at least one result, and the first has the declared type. -/
theorem length_resultTypes_pos (e : Expression V) (ty : Ty) : 0 < (e.resultTypes ty).length := by
  cases e <;> simp [resultTypes]

end Expression

/-! ## Well-typed expressions

An operation is well typed when WebAssembly has an instruction for it on the carriers of its operands and of its
result: emission accepts exactly these shapes, after the lowering of narrow counts and byte routing. -/

namespace UnaryOp

def wellTyped (operator : UnaryOp) (input result : Ty) : Bool :=
  match operator with
  | .float _ => input.carrier = .f64 && result.carrier = .f64
  | .floatConvert .promoteBinary32 => input.carrier = .i32 && result.carrier = .f64
  | .floatConvert .demoteBinary32 => input.carrier = .f64 && result.carrier = .i32
  | .floatConvert .fromSignedInteger => input.isInteger && result.carrier = .f64
  | .floatConvert .fromUnsignedInteger => input.isInteger && result.carrier = .f64
  | .floatConvert .truncateSaturatingI32 => input.carrier = .f64 && result.carrier = .i32
  | .floatVector _ _ => input.carrier = .v128 && result.carrier = .v128
  | .floatVectorConvert _ => input.carrier = .v128 && result.carrier = .v128
  | .bitCount _ inputType => inputType.isInteger && input.carrier = inputType.carrier &&
      result.carrier = inputType.carrier
  | .extractLane lane => input.carrier = .v128 && result.isLane && (lane + 1) * result.bits ≤ 128
  | .bitmask laneType => laneType.isLane && input.carrier = .v128 && result.carrier = .i32
  | .splat laneType => laneType.isLane && input.carrier = laneType.carrier && result.carrier = .v128
  | .pairwiseAddUnsigned laneType => (laneType = .i8 || laneType = .i16) && input.carrier = .v128 &&
      result.carrier = .v128
  | .reinterpret =>
      (input.carrier = .i64 && result.carrier = .f64) || (input.carrier = .f64 && result.carrier = .i64) ||
      (input.carrier = .i64 && result = .v64) || (input.carrier = .v128 && result.carrier = .i64)
  | .signExtend inputType => inputType.carrier = .i32 && input.carrier = .i32 && result.isInteger
  | .zeroTest _ => input.isInteger && result.carrier = .i32
  | .convert => (input.isInteger && result.isInteger) || (input.carrier = .v128 && result.carrier = .v128)
  | .lowBits bits => input.isInteger && input.carrier = result.carrier && bits ≤ result.carrier.bits

end UnaryOp

/-- Lane widths for which the packed operation exists. -/
def LaneBinaryOp.supports (operator : LaneBinaryOp) (laneType : Ty) : Bool :=
  match operator with
  | .add | .sub | .eq | .gtSigned => laneType.isLane
  | .mul => laneType = .i16 || laneType = .i32 || laneType = .i64
  | .wideningMulLow _ | .wideningMulHigh _ => laneType = .i8 || laneType = .i16 || laneType = .i32
  | .dotI16Signed => laneType = .i16
  | .minSigned | .minUnsigned | .maxSigned | .maxUnsigned => laneType = .i8 || laneType = .i16 || laneType = .i32
  | .averageUnsigned | .addSatSigned | .addSatUnsigned | .subSatSigned | .subSatUnsigned =>
      laneType = .i8 || laneType = .i16

theorem LaneBinaryOp.isLane_of_supports {operator : LaneBinaryOp} {laneType : Ty}
    (h : operator.supports laneType = true) : laneType.isLane = true := by
  cases operator <;> cases laneType <;> simp_all [LaneBinaryOp.supports, Ty.isLane]

namespace BinaryOp

def wellTyped (operator : BinaryOp) (left right result : Ty) : Bool :=
  match operator with
  | .bitwise _ => left.carrier = result.carrier && right.carrier = result.carrier && result.carrier ≠ .f64
  | .compare (.integer _) => left.isInteger && left.carrier = right.carrier && result.carrier = .i32
  | .compare (.float _) => left.carrier = .f64 && right.carrier = .f64 && result.carrier = .i32
  | .shuffleImmediate _ => left.carrier = .v128 && right.carrier = .v128 && result.carrier = .v128
  | .swizzle inputType => inputType.carrier = .v128 && left.carrier = .v128 && right.carrier = .v128 &&
      result.carrier = .v128
  | .replaceLane laneType lane => laneType.isLane && left.carrier = .v128 && right.carrier = laneType.carrier &&
      result.carrier = .v128 && (lane + 1) * laneType.bits ≤ 128
  | .integer _ => result.isInteger && left.carrier = result.carrier && right.carrier = result.carrier
  | .float _ => left.carrier = .f64 && right.carrier = .f64 && result.carrier = .f64
  | .floatVector _ _ | .floatVectorCompare _ _ =>
      left.carrier = .v128 && right.carrier = .v128 && result.carrier = .v128
  | .vector operator laneType => operator.supports laneType && left.carrier = .v128 && right.carrier = .v128 &&
      result.carrier = .v128
  | .narrow _ resultLane => (resultLane = .i8 || resultLane = .i16) && left.carrier = .v128 &&
      right.carrier = .v128 && result.carrier = .v128

end BinaryOp

namespace ShiftOp

def wellTyped (operator : ShiftOp) (value count result : Ty) : Bool :=
  match operator with
  | .scalar _ | .rotate _ => result.isInteger && value.carrier = result.carrier && count.isInteger
  | .lanes _ laneType => laneType.isLane && value.carrier = .v128 && result.carrier = .v128 && count.isInteger

end ShiftOp

namespace TernaryOp

def wellTyped (operator : TernaryOp) (first second third result : Ty) : Bool :=
  match operator with
  | .select => first.carrier = result.carrier && second.carrier = result.carrier && third.carrier = .i32
  | .bitselect => first.carrier = .v128 && second.carrier = .v128 && third.carrier = .v128 &&
      result.carrier = .v128
  | .shuffle inputType => inputType.carrier = .v128 && first.carrier = .v128 && second.carrier = .v128 &&
      third.carrier = .v128 && result.carrier = .v128

end TernaryOp

/-- Whether the operand types and the result type admit the operation. -/
def Expression.wellTyped (e : Expression Ty) (result : Ty) : Bool :=
  match e with
  | .unary operator input => operator.wellTyped input result
  | .binary operator left right => operator.wellTyped left right result
  | .shift operator value count => operator.wellTyped value count result
  | .ternary operator first second third => operator.wellTyped first second third result
  | .multiplyWide _ left right => left.carrier = .i64 && right.carrier = .i64 && result.carrier = .i64

end Relocade.Compiler
