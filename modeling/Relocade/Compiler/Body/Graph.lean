import Relocade.Compiler.Values

/-!
# `Compiler.Body.Graph` — typed values, effects and explicit control edges owned by one function

Blocks name their effects and calculations by position, and pass values along the edges of their exits. Wasm nesting
references the blocks of the graph; it owns no effects or operands.
-/

namespace Relocade.Compiler

/-! ## Effects -/

/-- Memory attributes independent of the address supplied by an operation. -/
structure MemoryAccess where
  memory : Nat
  offset : Nat
  bytes : Nat
  deriving DecidableEq

inductive AtomicUpdate where
  | add | subtract | and | or | xor | exchange
  deriving DecidableEq

inductive AtomicKind where
  | load | store | compareExchange
  | update (operator : AtomicUpdate)
  deriving DecidableEq

/-- What an effect does. -/
inductive OperationKind where
  | load (access : MemoryAccess)
  | store (access : MemoryAccess)
  | memoryFill (memory : Nat)
  | memoryCopy (destinationMemory sourceMemory : Nat)
  | call (target : Nat)
  | atomic (access : MemoryAccess) (operator : AtomicKind)
  | fence
  deriving DecidableEq

/-- Operations keep their attributes separate from ordered value inputs. -/
structure Operation where
  kind : OperationKind
  /-- Inputs follow Wasm stack order, with the address first for memory accesses. -/
  inputs : List Nat
  deriving DecidableEq

structure Effect where
  results : List Nat
  operation : Operation
  deriving DecidableEq

/-! ## Control -/

structure Edge where
  target : Nat
  arguments : List Nat
  deriving DecidableEq

/-- How control leaves a block. -/
inductive Exit where
  /-- The exit of a block that is not complete. -/
  | openEnd
  | jump (edge : Edge)
  | ifElse (condition : Nat) (taken otherwise : Edge)
  | switch (selector : Nat) (cases : List (Nat × Edge)) (default : Edge)
  | ret (values : List Nat)
  | tailCall (target : Nat) (arguments : List Nat)
  | tailCallIndirect (table slot : Nat) (arguments : List Nat)
  | trap

structure Block where
  parameters : List Nat
  items : List BlockItem
  /-- Ordinary-call targets. -/
  callees : List Nat
  exit : Exit

/-- Wasm nesting references the graph's blocks; it owns no effects or operands. -/
inductive Layout where
  | block (block : Nat)
  | scope (preheader : Nat) (body : List Layout) (after : Nat)
  | ifElse (branch : Nat) (taken otherwise : List Layout) (join : Nat)
  | loop (preheader header : Nat) (body : List Layout) (after : Nat)
  | switch (branch : Nat) (cases : List (Nat × List Layout)) (default : List Layout) (join : Nat)

structure FunctionGraph where
  values : ValueTable
  effects : List Effect
  blocks : List Block
  layout : List Layout
  entry : Nat

namespace Exit

/-- The sole executable edge when a conditional exit has a constant selector. -/
def constantEdgeIndex (values : ValueTable) : Exit → Option Nat
  | .ifElse condition _ _ => (values.scalarLiteral condition).map fun bits => if bits = 0 then 1 else 0
  | .switch selector cases _ => (values.scalarLiteral selector).map fun bits => cases.findIdx fun case => case.1 = bits
  | _ => none

/-- The edges of an exit, in order. -/
def edges : Exit → List Edge
  | .jump edge => [edge]
  | .ifElse _ taken otherwise => [taken, otherwise]
  | .switch _ cases default => cases.map Prod.snd ++ [default]
  | _ => []

def inputs : Exit → List Nat
  | .ret arguments | .tailCall _ arguments => arguments
  | .tailCallIndirect _ slot arguments => arguments ++ [slot]
  | .ifElse condition taken otherwise => condition :: [taken, otherwise].flatMap Edge.arguments
  | .switch selector cases default => selector :: (cases.map Prod.snd ++ [default]).flatMap Edge.arguments
  | .jump edge => edge.arguments
  | .openEnd | .trap => []

end Exit

namespace FunctionGraph

variable (graph : FunctionGraph)

/-- A block. Indexing outside the graph panics in the compiler; here it reads a block that traps. -/
def block (block : Nat) : Block := graph.blocks.getD block ⟨[], [], [], .trap⟩

def effect (effect : Nat) : Effect := graph.effects.getD effect ⟨[], ⟨.fence, []⟩⟩

def outgoing (block : Nat) : List Edge :=
  match (graph.block block).exit.constantEdgeIndex graph.values with
  | some index => (graph.block block).exit.edges[index]?.toList
  | none => (graph.block block).exit.edges

/-- Inputs in execution and Wasm stack order. -/
def inputs : BlockItem → List Nat
  | .evaluate value =>
      match graph.values.definition value with
      | .expression e => e.inputs
      | _ => []
  | .effect effect => (graph.effect effect).operation.inputs

/-- Pure results are allocated together, with the expression in the first slot. -/
def expressionResults (producer : Nat) : List Nat :=
  match graph.values.definition producer with
  | .expression e => List.range' producer (e.resultTypes (graph.values.ty producer)).length
  | _ => []

/-- Results in their declared order, before instruction selection covers them. -/
def results : BlockItem → List Nat
  | .evaluate value => graph.expressionResults value
  | .effect effect => (graph.effect effect).results

end FunctionGraph

end Relocade.Compiler
