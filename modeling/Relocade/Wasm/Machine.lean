import Mathlib.Algebra.Group.Nat.Defs
import Mathlib.Logic.Function.Basic

/-!
# `Wasm.Machine` — operand stack machine

Instructions take their operands from a stack, the last one on top, and keep locals beside it. The tokens of a
structured instruction up to its `end` are the lists of its arms. A branch leaves with the depth of its label.
-/

namespace Relocade.Wasm

inductive Operand where
  | i32 (value : BitVec 32)
  | i64 (value : BitVec 64)
  deriving DecidableEq, Repr

inductive Instruction where
  | localGet (slot : Nat)
  | localSet (slot : Nat)
  | localTee (slot : Nat)
  | i32Const (value : BitVec 32)
  | i64Const (value : BitVec 64)
  | i32Sub
  | i32Eq
  | i32LtU
  | i64Add
  | i64Sub
  | i64Mul
  | i64And
  | i64Or
  | i64Shl
  | i64ShrU
  | i64ShrS
  | i64MulWideS
  | i64MulWideU
  /-- A condition with arms that leave one result. -/
  | ifElse (taken otherwise : List Instruction)
  | br (depth : Nat)
  | brTable (targets : List Nat) (default : Nat)

structure State where
  stack : List Operand
  locals : Nat → Operand

/-- Code runs to its end, or branches to a label outside. -/
inductive Outcome where
  | next (s : State)
  | branch (depth : Nat) (s : State)

/-- The exact product of two 64-bit operands. -/
def product (isSigned : Bool) (left right : BitVec 64) : BitVec 128 :=
  if isSigned then BitVec.ofInt 128 (left.toInt * right.toInt) else BitVec.ofNat 128 (left.toNat * right.toNat)

/-- The low or the high 64 bits of a product. -/
def half (value : BitVec 128) (component : Nat) : BitVec 64 := value.extractLsb' (64 * component) 64

namespace State

variable (s : State)

def push (value : Operand) : State := { s with stack := value :: s.stack }

def set (slot : Nat) (value : Operand) : State := { s with locals := Function.update s.locals slot value }

/-- An operation on two 64-bit operands, when it has a result. -/
def binary (op : BitVec 64 → BitVec 64 → Option (BitVec 64)) : Option Outcome :=
  match s.stack with
  | .i64 right :: .i64 left :: stack => (op left right).map fun result => .next ⟨.i64 result :: stack, s.locals⟩
  | _ => none

/-- An operation on two 32-bit operands. -/
def binary32 (op : BitVec 32 → BitVec 32 → BitVec 32) : Option Outcome :=
  match s.stack with
  | .i32 right :: .i32 left :: stack => some (.next ⟨.i32 (op left right) :: stack, s.locals⟩)
  | _ => none

/-- A product of two 64-bit operands, its high half above its low half. -/
def wide (product : BitVec 64 → BitVec 64 → BitVec 128) : Option Outcome :=
  match s.stack with
  | .i64 right :: .i64 left :: stack =>
      some (.next ⟨.i64 (half (product left right) 1) :: .i64 (half (product left right) 0) :: stack, s.locals⟩)
  | _ => none

end State

/-- A result, unless it is checked and does not fit. -/
def carry (checked : Bool) (exact : Nat) (result : BitVec 64) : Option (BitVec 64) :=
  if checked ∧ 2 ^ 64 ≤ exact then none else some result

/-- What leaves an arm that keeps one result. -/
def leave (stack : List Operand) : Outcome → Outcome
  | .next s => .next s
  | .branch 0 s => .next { s with stack := s.stack.take 1 ++ stack }
  | .branch (depth + 1) s => .branch depth s

mutual

/-- Run an instruction. When `checked`, sums and products that do not fit do not return either. -/
def Instruction.exec (checked : Bool) : Instruction → State → Option Outcome
  | .localGet slot, s => some (.next (s.push (s.locals slot)))
  | .localSet slot, s =>
      match s.stack with
      | value :: stack => some (.next ({ s with stack } |>.set slot value))
      | [] => none
  | .localTee slot, s =>
      match s.stack with
      | value :: _ => some (.next (s.set slot value))
      | [] => none
  | .i32Const value, s => some (.next (s.push (.i32 value)))
  | .i64Const value, s => some (.next (s.push (.i64 value)))
  | .i32Sub, s => s.binary32 fun left right => left - right
  | .i32Eq, s => s.binary32 fun left right => if left = right then 1 else 0
  | .i32LtU, s => s.binary32 fun left right => if left.toNat < right.toNat then 1 else 0
  | .i64Add, s => s.binary fun left right => carry checked (left.toNat + right.toNat) (left + right)
  | .i64Sub, s => s.binary fun left right => some (left - right)
  | .i64Mul, s => s.binary fun left right => carry checked (left.toNat * right.toNat) (left * right)
  | .i64And, s => s.binary fun left right => some (left &&& right)
  | .i64Or, s => s.binary fun left right => some (left ||| right)
  | .i64Shl, s => s.binary fun left right => some (left <<< (right.toNat % 64))
  | .i64ShrU, s => s.binary fun left right => some (left >>> (right.toNat % 64))
  | .i64ShrS, s => s.binary fun left right => some (left.sshiftRight (right.toNat % 64))
  | .i64MulWideS, s => s.wide (product true)
  | .i64MulWideU, s => s.wide (product false)
  | .ifElse taken otherwise, s =>
      match s.stack with
      | .i32 condition :: stack =>
          if condition = 0 then (exec checked otherwise { s with stack }).map (leave stack)
          else (exec checked taken { s with stack }).map (leave stack)
      | _ => none
  | .br depth, s => some (.branch depth s)
  | .brTable targets default, s =>
      match s.stack with
      | .i32 index :: stack => some (.branch (targets.getD index.toNat default) { s with stack })
      | _ => none

/-- Run instructions in order, up to a branch. -/
def exec (checked : Bool) : List Instruction → State → Option Outcome
  | [], s => some (.next s)
  | instruction :: code, s =>
      match instruction.exec checked s with
      | some (.next s) => exec checked code s
      | outcome => outcome

end

variable {checked : Bool}

theorem exec_cons {instr : Instruction} {code : List Instruction} {s s' : State}
    (h : instr.exec checked s = some (.next s')) :
    exec checked (instr :: code) s = exec checked code s' := by
  rw [exec, h]

/-- Code that runs to its end hands over to the code after it. -/
theorem exec_append {code rest : List Instruction} {s s' : State} (h : exec checked code s = some (.next s')) :
    exec checked (code ++ rest) s = exec checked rest s' := by
  induction code generalizing s with
  | nil =>
    rw [exec] at h
    cases h
    rfl
  | cons instruction code ih =>
    rw [exec] at h
    cases hstep : instruction.exec checked s with
    | none =>
      rw [hstep] at h
      cases h
    | some outcome =>
      rw [hstep] at h
      cases outcome with
      | next s₁ =>
        rw [List.cons_append, exec_cons hstep]
        exact ih h
      | branch depth s₁ => cases h

end Relocade.Wasm
