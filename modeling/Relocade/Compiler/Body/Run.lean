import Relocade.Compiler.Body.Graph
import Relocade.Compiler.Denote

/-!
# `Compiler.Body.Run` — runs of a function graph

A run shows the blocks it enters, the values it branches on, and the observable operations with their operands. What an
operation answers depends on its kind, its operands and what the run has shown before, so operations that are not
observable influence nothing but their own results.
-/

namespace Relocade.Compiler

/-- What a run shows. -/
inductive Event where
  | enter (block : Nat)
  /-- The value that an exit without a constant selector branches on. -/
  | branch (value : Nat)
  | operation (kind : OperationKind) (operands : List Nat)
  deriving DecidableEq

inductive Ending where
  | openEnd | trap
  | ret (values : List Nat)
  | tailCall (target : Nat) (arguments : List Nat)
  | tailCallIndirect (table slot : Nat) (arguments : List Nat)
  deriving DecidableEq

/-- Why a run stops: it ends after what it has shown, or a calculation or an operation that is not observable traps. -/
inductive Halt where
  | ended (ending : Ending) (history : List Event)
  | unobserved
  deriving DecidableEq

/-- A run at the start of a block. What it has shown comes last first. -/
structure Execution where
  block : Nat
  env : Nat → Nat
  history : List Event

/-- The results or the trap of an operation, given what was shown before. -/
abbrev Answers := List Event → OperationKind → List Nat → Option (List Nat)

def assign (env : Nat → Nat) (ids values : List Nat) : Nat → Nat :=
  (ids.zip values).foldl (fun env pair => Function.update env pair.1 pair.2) env

/-- The value that an exit branches on. -/
def Exit.selector : Exit → Option Nat
  | .ifElse condition _ _ => some condition
  | .switch selector _ _ => some selector
  | _ => none

/-- The edge that a value selects; the carrier of a selector has at most 64 bits. -/
def Exit.index (value : Nat) : Exit → Nat
  | .ifElse .. => if value % 2 ^ 64 = 0 then 1 else 0
  | .switch _ cases _ => cases.findIdx fun case => case.1 = value % 2 ^ 64
  | _ => 0

namespace FunctionGraph

variable (F : Floating) (answers : Answers) (observable : Operation → Bool) (graph : FunctionGraph)

def read (env : Nat → Nat) (value : Nat) : Nat :=
  match graph.values.definition value with
  | .literal bits => bits
  | _ => env value

/-- The results of a calculation. -/
def calculate (env : Nat → Nat) (producer : Nat) : Option (List Nat) :=
  match graph.values.definition producer with
  | .expression e => (graph.expressionResults producer).zipIdx.mapM fun (id, component) =>
      evalExpr F graph.values (fun value => some (graph.read env value)) (graph.values.ty id) e component
  | _ => none

/-- Runs an item of a block. -/
def perform (x : Execution) : BlockItem → Except Halt Execution
  | .evaluate producer =>
      match graph.calculate F x.env producer with
      | some results => .ok { x with env := assign x.env (graph.results (.evaluate producer)) results }
      | none => .error .unobserved
  | .effect effect =>
      let operation := (graph.effect effect).operation
      let operands := operation.inputs.map (graph.read x.env)
      let history :=
        if observable operation then .operation operation.kind operands :: x.history else x.history
      match answers x.history operation.kind operands with
      | some results => .ok { x with env := assign x.env (graph.results (.effect effect)) results, history := history }
      | none => .error (if observable operation then .ended .trap history else .unobserved)

/-- Control passes along an edge, and the parameters of its target receive the arguments simultaneously. -/
def follow (x : Execution) (edge : Edge) : Execution where
  block := edge.target
  env := assign x.env (graph.block edge.target).parameters (edge.arguments.map (graph.read x.env))
  history := .enter edge.target :: x.history

/-- The edge that the value of the selector selects. -/
def branch (x : Execution) (exit : Exit) : Except Halt Execution :=
  let value := exit.selector.map (graph.read x.env)
  let shown := if (exit.constantEdgeIndex graph.values).isSome then none else value
  match exit.edges[exit.index (value.getD 0)]? with
  | some edge => .ok (graph.follow { x with history := (shown.map .branch).toList ++ x.history } edge)
  | none => .error .unobserved

/-- Takes the exit of a block. -/
def leave (x : Execution) : Exit → Except Halt Execution
  | .openEnd => .error (.ended .openEnd x.history)
  | .trap => .error (.ended .trap x.history)
  | .ret values => .error (.ended (.ret (values.map (graph.read x.env))) x.history)
  | .tailCall target arguments => .error (.ended (.tailCall target (arguments.map (graph.read x.env))) x.history)
  | .tailCallIndirect table slot arguments =>
      .error (.ended (.tailCallIndirect table (graph.read x.env slot) (arguments.map (graph.read x.env))) x.history)
  | exit => graph.branch x exit

/-- One block and its exit. -/
def step (x : Execution) : Except Halt Execution := do
  let x ← (graph.block x.block).items.foldlM (graph.perform F answers observable) x
  graph.leave x (graph.block x.block).exit

/-- At most a number of blocks. -/
def run : Nat → Execution → Except Halt Execution
  | 0, x => .ok x
  | n + 1, x => graph.step F answers observable x >>= run n

/-- The start of a call. Locals start at zero. -/
def start (arguments : List Nat) : Execution where
  block := graph.entry
  env := assign (fun _ => 0) (graph.block graph.entry).parameters arguments
  history := []

end FunctionGraph

/-- What a run shows of its state. -/
def Execution.shown (x : Execution) : Nat × List Event := (x.block, x.history)

end Relocade.Compiler
