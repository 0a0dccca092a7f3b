import Relocade.Compiler.Expression

/-!
# `Compiler.Evaluate` — literal evaluation

`constantResult` evaluates an operation on typed literals at its logical types. `carrierResult` evaluates the same
operation as WebAssembly does, on full carriers. Evaluation is undefined where the operation traps, and where a
floating-point primitive has no committed encoding.
-/

namespace Relocade.Compiler

open Words

structure TypedLiteral where
  ty : Ty
  value : Nat
  deriving DecidableEq

/-- The scalar encoding of a typed literal. -/
def TypedLiteral.scalar (x : TypedLiteral) : Option Nat := Literal.scalar x.ty x.value

/-- A literal as its full carrier. -/
def TypedLiteral.toCarrier (x : TypedLiteral) : TypedLiteral := ⟨x.ty.carrier, x.ty.carrier.normalize x.value⟩

/-! ## Packed integer operations

Literal SIMD operations use full vector encodings and logical lane widths. -/

namespace Packed

/-- One lane of a packed operation; `pack` keeps its low bits. -/
def laneResult (operator : LaneBinaryOp) (laneType : Ty) (left right : Nat) : Nat :=
  let l := Integer.signedValue laneType left
  let r := Integer.signedValue laneType right
  let limit : Int := 2 ^ (laneType.bits - 1)
  match operator with
  | .add => left + right
  | .sub => left + (2 ^ 64 - right)
  | .mul => left * right
  | .minUnsigned => min left right
  | .maxUnsigned => max left right
  | .averageUnsigned => (left + right + 1) >>> 1
  | .minSigned => word 64 (min l r)
  | .maxSigned => word 64 (max l r)
  | .eq => if left = right then laneType.mask else 0
  | .gtSigned => if l > r then laneType.mask else 0
  | .addSatUnsigned => min (left + right) laneType.mask
  | .subSatUnsigned => left - right
  | .addSatSigned => word 64 (max (-limit) (min (l + r) (limit - 1)))
  | .subSatSigned => word 64 (max (-limit) (min (l - r) (limit - 1)))
  -- width-changing operations are evaluated in `binary`
  | .wideningMulLow _ | .wideningMulHigh _ | .dotI16Signed => 0

/-- Products in lanes of twice the width. -/
def wideningMul (laneType : Ty) (left right : Nat) (isSigned : Bool) : Nat :=
  pack (laneType.bits * 2)
    (fun i =>
      let left := lane laneType.bits i left
      let right := lane laneType.bits i right
      if isSigned then word 64 (Integer.signedValue laneType left * Integer.signedValue laneType right)
      else left * right)
    (64 / laneType.bits)

def dotI16Pairs (left right : Nat) : Nat :=
  let product := fun i => Integer.signedValue .i16 (lane 16 i left) * Integer.signedValue .i16 (lane 16 i right)
  pack 32 (fun i => word 32 (product (2 * i) + product (2 * i + 1))) 4

def binary (operator : LaneBinaryOp) (laneType : Ty) (left right : Nat) : Nat :=
  match operator with
  | .wideningMulLow isSigned => wideningMul laneType left right isSigned
  | .wideningMulHigh isSigned => wideningMul laneType (left >>> 64) (right >>> 64) isSigned
  | .dotI16Signed => dotI16Pairs left right
  | operator =>
      pack laneType.bits
        (fun i => laneResult operator laneType (lane laneType.bits i left) (lane laneType.bits i right))
        (128 / laneType.bits)

def shift (operator : Integer.ShiftOp) (laneType : Ty) (value count : Nat) : Nat :=
  let count := count % laneType.bits
  pack laneType.bits
    (fun i =>
      let x := lane laneType.bits i value
      match operator with
      | .left => x <<< count
      | .rightUnsigned => x >>> count
      | .rightSigned => word 64 (Integer.signedValue laneType x >>> count))
    (128 / laneType.bits)

def pairwiseAddUnsigned (laneType : Ty) (input : Nat) : Nat :=
  pack (laneType.bits * 2)
    (fun i => lane laneType.bits (2 * i) input + lane laneType.bits (2 * i + 1) input)
    (128 / (laneType.bits * 2))

/-- Byte `k` of two vectors laid end to end. -/
def routed (left right k : Nat) : Nat := lane 8 (k % 16) (if k / 16 = 0 then left else right)

def shuffle (left right : Nat) (mask : ShuffleMask) : Nat :=
  pack 8 (fun i => routed left right (mask.index i)) 16

/-- A byte of two inputs of `width` bytes each, selected by a dynamic index. -/
def selected (width left right index : Nat) : Nat :=
  if index < width then lane 8 index left
  else if index < width * 2 then lane 8 (index - width) right
  else 0

def swizzle (inputType : Ty) (input indices : Nat) : Nat :=
  pack 8 (fun i => if lane 8 i indices < inputType.bits / 8 then lane 8 (lane 8 i indices) input else 0) 16

def shuffleBytes (inputType : Ty) (left right indices : Nat) : Nat :=
  pack 8 (fun i => selected (inputType.bits / 8) left right (lane 8 i indices)) 16

/-- Lanes of half the width, saturated. -/
def narrow (isSigned : Bool) (resultLane : Ty) (left right : Nat) : Nat :=
  let input := resultLane.bits * 2
  let limit : Int := 2 ^ (resultLane.bits - 1)
  let minimum : Int := if isSigned then -limit else 0
  let maximum : Int := if isSigned then limit - 1 else resultLane.mask
  let lanes := 128 / input
  pack resultLane.bits
    (fun i =>
      let value := signed input (lane input (i % lanes) (if i / lanes = 0 then left else right))
      word 64 (max minimum (min value maximum)))
    (lanes * 2)

/-- Every lane holds the low bits of a scalar. -/
def splat (laneType : Ty) (x : Nat) : Nat := pack laneType.bits (fun _ => x) (128 / laneType.bits)

/-- The top bit of every lane. -/
def bitmask (laneType : Ty) (x : Nat) : Nat :=
  pack 1 (fun i => x >>> ((i + 1) * laneType.bits - 1)) (128 / laneType.bits)

/-- Component `c` of a 128-bit product of 64-bit factors. -/
def multiplyWide (isSigned : Bool) (left right component : Nat) : Nat :=
  let product := if isSigned then word 128 (signed 64 left * signed 64 right) else left * right
  product >>> (component * 64) % 2 ^ 64

end Packed

/-! ## Scalar and vector operations -/

namespace Evaluate

variable (F : Floating)

/-- The carrier of a result with a literal operand. -/
def unary (operator : UnaryOp) (input : TypedLiteral) (result : Ty) : Option Nat :=
  match operator with
  | .floatVector operator format => F.vectorUnary format operator input.value
  | .floatVectorConvert operator => F.vectorConvert operator input.value
  | .pairwiseAddUnsigned laneType => some (result.normalize (Packed.pairwiseAddUnsigned laneType input.value))
  | .splat laneType => do return result.normalize (Packed.splat laneType (← input.scalar))
  | .reinterpret =>
      if result.isScalar then
        if input.ty.isScalar then do return result.normalize (← input.scalar)
        else some (result.normalize (input.value % 2 ^ 64))
      else do return result.normalize (Packed.splat .i64 (← input.scalar))
  | .convert =>
      if input.ty.isScalar then do return result.normalize (← input.scalar)
      else some (result.normalize input.value)
  | .bitmask laneType => some (result.normalize (Packed.bitmask laneType input.value))
  | .extractLane index => some (result.normalize (input.value >>> (index * result.bits) % 2 ^ 64))
  | .float operator => do return result.normalize (← F.unary .binary64 operator (← input.scalar))
  | .floatConvert operator => do return result.normalize (← F.convert operator input.ty (← input.scalar))
  | .bitCount operator inputType => do
      return result.normalize (Integer.bitCount inputType operator (inputType.normalize (← input.scalar)))
  | .signExtend inputType => do
      return result.normalize (word 64 (Integer.signedValue inputType (← input.scalar)))
  | .zeroTest nonzero => do return result.normalize (if decide ((← input.scalar) ≠ 0) = nonzero then 1 else 0)
  | .lowBits bits => do return result.normalize ((← input.scalar) &&& lowMask bits)

def binary (operator : BinaryOp) (left right : TypedLiteral) (result : Ty) : Option Nat :=
  match operator with
  | .floatVector operator format => F.vectorBinary format operator left.value right.value
  | .floatVectorCompare operator format => some (F.vectorCompare format operator left.value right.value)
  | .swizzle inputType => some (result.normalize (Packed.swizzle inputType left.value right.value))
  | .bitwise operator => some (result.normalize (operator.apply left.value right.value))
  | .vector operator laneType => some (result.normalize (Packed.binary operator laneType left.value right.value))
  | .narrow isSigned resultLane =>
      some (result.normalize (Packed.narrow isSigned resultLane left.value right.value))
  | .shuffleImmediate mask => some (result.normalize (Packed.shuffle left.value right.value mask))
  | .replaceLane laneType index => do
      return result.normalize (replace 128 laneType.bits index left.value (← right.scalar))
  | .integer operator => do
      return result.normalize (← Integer.binary left.ty operator (← left.scalar) (← right.scalar))
  | .float operator => do
      return result.normalize (← F.binary .binary64 operator (← left.scalar) (← right.scalar))
  | .compare (.integer operator) => do
      return result.normalize (Integer.compare left.ty operator (← left.scalar) (← right.scalar)).toNat
  | .compare (.float operator) => do
      return result.normalize (F.compare .binary64 operator (← left.scalar) (← right.scalar)).toNat

def shift (operator : ShiftOp) (value count : TypedLiteral) (result : Ty) : Option Nat := do
  let count ← count.scalar
  match operator with
  | .lanes operator laneType => return result.normalize (Packed.shift operator laneType value.value (count % 2 ^ 32))
  | .scalar operator => return result.normalize (Integer.shift value.ty operator (← value.scalar) (count % 2 ^ 32))
  | .rotate operator => return result.normalize (Integer.rotate value.ty operator (← value.scalar) (count % 2 ^ 32))

def ternary (operator : TernaryOp) (first second third : TypedLiteral) (result : Ty) : Option Nat :=
  match operator with
  | .select => do return result.normalize (if (← third.scalar) ≠ 0 then first.value else second.value)
  | .bitselect =>
      some (result.normalize
        (first.value &&& third.value ||| second.value &&& (third.value ^^^ lowMask 128)))
  | .shuffle inputType =>
      some (result.normalize (Packed.shuffleBytes inputType first.value second.value third.value))

end Evaluate

namespace Expression

variable (F : Floating)

/-- The value of an operation on literals read at their logical types. -/
def constantResult (e : Expression TypedLiteral) (result : Ty) (component : Nat) : Option Nat :=
  match e with
  | .unary operator input => Evaluate.unary F operator input result
  | .binary operator left right => Evaluate.binary F operator left right result
  | .shift operator value count => Evaluate.shift operator value count result
  | .ternary operator first second third => Evaluate.ternary operator first second third result
  | .multiplyWide isSigned left right => do
      return result.normalize (Packed.multiplyWide isSigned (← left.scalar) (← right.scalar) component)

/-- The value of an operation on full carriers. Extraction's result type determines its lane width; other
    width-sensitive operations carry their interpretation in the opcode. -/
def carrierResult (e : Expression TypedLiteral) (result : Ty) (component : Nat) : Option Nat :=
  match e with
  | .unary (.extractLane _) _ => e.constantResult F result component
  | _ => (e.map TypedLiteral.toCarrier).constantResult F result.carrier component

end Expression

end Relocade.Compiler
