import Relocade.Descend
import Relocade.Compiler.Evaluate

/-!
# `Compiler.Values` — stored values, deduplication and physical representation facts

A function owns one table of values. Each value records a logical type and a definition; definitions name other
values by position. Beside every value the table keeps `BitBounds`: how many bits of its carrier an unsigned, and
a signed, reading needs.
-/

namespace Relocade.Compiler

open Words

/-- A producer handle; placing it in a block schedules that execution. -/
inductive BlockItem where
  | evaluate (value : Nat)
  | effect (effect : Nat)
  deriving DecidableEq

inductive ValueDefinition where
  | literal (bits : Nat)
  | expression (expression : Expression Nat)
  | parameter (block component : Nat)
  | result (producer : BlockItem) (component : Nat)
  deriving DecidableEq

structure Value where
  ty : Ty
  definition : ValueDefinition
  deriving DecidableEq

namespace Value

def scalarLiteral (v : Value) : Option Nat :=
  match v.definition with
  | .literal bits => Literal.scalar v.ty bits
  | _ => none

/-- A parameter or the result of an effect: a value no pure operation computes. -/
def isLeaf (v : Value) : Bool :=
  match v.definition with
  | .parameter .. | .result (.effect _) _ => true
  | _ => false

/-- A sign extension widens its carrier. -/
def Widens (v : Value) : Prop :=
  ∀ inputType input, v.definition = .expression (.unary (.signExtend inputType) input) →
    inputType.bits < v.ty.carrier.bits

end Value

/-- Conservative widths of a physical encoding. -/
structure BitBounds where
  /-- An unsigned value fits in this many bits; all higher bits are zero. -/
  unsigned : Nat
  /-- A signed value fits in this many bits; all higher bits repeat its sign. -/
  signed : Nat
  deriving DecidableEq

structure ValueTable where
  values : List Value
  bounds : List BitBounds
  /-- Positions of the values that deduplication may return. -/
  interned : List Nat

namespace ValueTable

def empty : ValueTable := ⟨[], [], []⟩

def size (t : ValueTable) : Nat := t.values.length

/-- The value at a position. Indexing outside the table panics in the compiler; here it reads a default. -/
def value (t : ValueTable) (id : Nat) : Value := t.values.getD id ⟨.i32, .literal 0⟩

def ty (t : ValueTable) (id : Nat) : Ty := (t.value id).ty

def definition (t : ValueTable) (id : Nat) : ValueDefinition := (t.value id).definition

def boundsOf (t : ValueTable) (id : Nat) : BitBounds := t.bounds.getD id ⟨0, 0⟩

def scalarLiteral (t : ValueTable) (id : Nat) : Option Nat := (t.value id).scalarLiteral

end ValueTable

/-! ## Conservative widths -/

namespace BitBounds

/-- The narrowest signed width of a literal, over its full carrier. -/
def literalSigned (carrier bits : Nat) : Nat :=
  let signed := Words.signed (if carrier = 64 then 64 else 32) bits
  let magnitude := if signed < 0 then (-signed - 1).toNat else signed.toNat
  bitLength magnitude + 1

/-- `unsigned_bits` of a one-input operation. -/
def unsignedUnary (t : ValueTable) (ty : Ty) (operator : UnaryOp) (input : Nat) : Nat :=
  let carrier := ty.carrier.bits
  match operator with
  | .bitCount operator inputType =>
      let maximum := match operator with
        | .ones => (t.boundsOf input).unsigned
        | .leadingZeros | .trailingZeros => inputType.bits
      bitLength maximum
  | .lowBits bits => min (t.boundsOf input).unsigned bits
  -- I64 -> V64 lowers to a splat. The unused upper half is not zero.
  | .reinterpret => if ty = .v64 then carrier else min (t.boundsOf input).unsigned carrier
  | .convert => min (t.boundsOf input).unsigned carrier
  | .zeroTest _ => 1
  | .bitmask laneType => 128 / laneType.bits
  | .extractLane _ => ty.bits
  | _ => carrier

/-- `unsigned_bits` of a two-input operation. -/
def unsignedBinary (t : ValueTable) (ty : Ty) (operator : BinaryOp) (left right : Nat) : Nat :=
  let carrier := ty.carrier.bits
  let l := (t.boundsOf left).unsigned
  let r := (t.boundsOf right).unsigned
  match operator with
  | .integer .add => min (max l r + 1) carrier
  -- Underflow can set every carrier bit, including above a narrow type.
  | .integer .sub => carrier
  | .integer .mul => min (l + r) carrier
  | .integer .divUnsigned | .integer .remUnsigned => ty.bits
  | .integer .divSigned | .integer .remSigned => carrier
  | .bitwise .and => min l r
  | .bitwise .or | .bitwise .xor => max l r
  | .compare _ => 1
  | _ => carrier

/-- `unsigned_bits` of a shift. -/
def unsignedShift (t : ValueTable) (ty : Ty) (operator : ShiftOp) (input count : Nat) : Nat :=
  let carrier := ty.carrier.bits
  let u := (t.boundsOf input).unsigned
  match operator with
  | .scalar operator =>
      match t.scalarLiteral count with
      | some bits =>
          let count := Integer.shiftCount ty (bits % 2 ^ 32)
          match operator with
          | .left => min (u + count) carrier
          | .rightUnsigned => u - count
          | .rightSigned => carrier
      | none =>
          match operator with
          | .left => carrier
          | .rightUnsigned => u
          | .rightSigned => carrier
  | .rotate _ | .lanes _ _ => carrier

/-- The width that holds a value without a sign. -/
def unsignedBits (t : ValueTable) (v : Value) : Nat :=
  let carrier := v.ty.carrier.bits
  match v.definition with
  -- Backedges may carry wider intermediate bits than their initial values.
  | .parameter .. => carrier
  | .literal bits => bitLength bits
  | .result (.effect _) _ => v.ty.bits
  | .result (.evaluate _) _ => carrier
  | .expression (.unary operator input) => unsignedUnary t v.ty operator input
  | .expression (.binary operator left right) => unsignedBinary t v.ty operator left right
  | .expression (.shift operator input count) => unsignedShift t v.ty operator input count
  | .expression (.ternary .select whenTrue whenFalse _) =>
      max (t.boundsOf whenTrue).unsigned (t.boundsOf whenFalse).unsigned
  | .expression (.ternary ..) | .expression (.multiplyWide ..) => carrier

/-- The width that holds a value with its sign. -/
def signedBits (t : ValueTable) (v : Value) : Nat :=
  let carrier := v.ty.carrier.bits
  -- A zero-extended value needs one more bit for a nonnegative sign. At full carrier width no narrower
  -- signed representation is established.
  let fallback := min (unsignedBits t v + 1) carrier
  match v.definition with
  | .literal bits =>
      match Literal.scalar v.ty bits with
      | some bits => literalSigned carrier bits
      | none => fallback
  | .expression (.unary (.signExtend inputType) input) => min (t.boundsOf input).signed inputType.bits
  | .expression (.unary .convert input) =>
      -- Widening is unsigned, including for negative i32 carriers, whose upper half becomes zero in i64.
      if v.ty = .i64 ∧ t.ty input ≠ .i64 then min ((t.boundsOf input).unsigned + 1) carrier
      else min (t.boundsOf input).signed carrier
  | .expression (.binary (.integer .mul) left right) =>
      min ((t.boundsOf left).signed + (t.boundsOf right).signed) carrier
  | _ => fallback

/-- The widths construction records for a new value. -/
def forValue (t : ValueTable) (v : Value) : BitBounds := ⟨unsignedBits t v, signedBits t v⟩

end BitBounds

namespace ValueTable

/-! ## Storage -/

/-- Append one slot. -/
def append (t : ValueTable) (v : Value) (b : BitBounds) : ValueTable :=
  { t with values := t.values ++ [v], bounds := t.bounds ++ [b] }

/-- Append a slot with the widths its definition implies. -/
def appendValue (t : ValueTable) (v : Value) : ValueTable := t.append v (BitBounds.forValue t v)

/-- The projections stored after a multi-result expression, one for each result but the first. -/
def projections (producer : Nat) (v : Value) : List Value :=
  match v.definition with
  | .expression e =>
      ((e.resultTypes v.ty).zipIdx.drop 1).map fun (ty, component) => ⟨ty, .result (.evaluate producer) component⟩
  | _ => []

/-- Store a value; pure results are allocated together, with the expression in the first slot. -/
def pushWithBounds (t : ValueTable) (v : Value) (b : BitBounds) : Nat × ValueTable :=
  (t.size, (projections t.size v).foldl appendValue (t.append v b))

def push (t : ValueTable) (v : Value) : Nat × ValueTable := t.pushWithBounds v (BitBounds.forValue t v)

/-- Find an equal interned value, or store a new one. -/
def intern (t : ValueTable) (v : Value) : Nat × ValueTable :=
  match t.interned.find? (fun id => t.value id = v) with
  | some id => (id, t)
  | none =>
      let (id, t) := t.push v
      (id, { t with interned := t.interned ++ [id] })

/-- Store a lowered result without discarding bits above its logical width. -/
def carrierLiteral (t : ValueTable) (ty : Ty) (bits : Nat) : Nat × ValueTable :=
  t.intern ⟨ty, .literal (ty.carrier.normalize bits)⟩

def literal (t : ValueTable) (ty : Ty) (bits : Nat) : Nat × ValueTable := t.carrierLiteral ty (ty.normalize bits)

/-! ## Physical facts -/

/-- The position of one result of a stored expression. -/
def expressionResult (t : ValueTable) (producer component : Nat) : Option Nat :=
  match t.definition producer with
  | .expression e => if component < (e.resultTypes (t.ty producer)).length then some (producer + component) else none
  | _ => none

/-- The input of a conversion that keeps the carrier type, and with it every physical bit. -/
def convertInput (t : ValueTable) (id : Nat) : Option Nat :=
  match t.definition id with
  | .expression (.unary .convert input) => if (t.ty id).carrier = (t.ty input).carrier then some input else none
  | _ => none

/-- The value under the conversions that preserve all physical bits; each of them names an earlier value. -/
def representation (t : ValueTable) (id : Nat) : Nat := Descend.run t.convertInput (id + 1) id

end ValueTable

end Relocade.Compiler
