import Mathlib.Algebra.Group.Nat.Defs
import Mathlib.Data.Fintype.Basic
import Mathlib.Data.List.FinRange

/-!
# `Compiler.Place.Dominance` — the dominator tree of a graph

Immediate dominators are found by walking a provisional tree in reverse postorder until no parent changes. Intervals of
a walk over the finished tree, and tables of ancestors at powers of two, then answer without walking.
-/

namespace Relocade.Compiler.Place

/-- Step until no step is left, at most as often as the fuel allows. -/
def repeatWhile {σ : Type} (step : σ → Option σ) : Nat → σ → Option σ
  | 0, _ => none
  | fuel + 1, s =>
      match step s with
      | none => some s
      | some s' => repeatWhile step fuel s'

/-- The rank of nodes that are not reached. -/
def UNREACHED : Nat := 2 ^ 64 - 1

variable {n : Nat}

/-! ## The depth-first walk -/

structure Walk (n : Nat) where
  seen : Fin n → Bool
  /-- Nodes that were left, the last one first. -/
  postorder : List (Fin n)
  /-- Nodes that were entered, with the next of their successors. -/
  work : List (Fin n × Nat)

def Walk.start (root : Fin n) : Walk n := ⟨Function.update (fun _ => false) root true, [], [(root, 0)]⟩

/-- Visits the next successor, or ends a node. -/
def Walk.step (successors : Fin n → List (Fin n)) (walk : Walk n) : Option (Walk n) :=
  match walk.work with
  | [] => none
  | (node, next) :: work =>
      match (successors node)[next]? with
      | none => some { walk with postorder := node :: walk.postorder, work := work }
      | some successor =>
          if walk.seen successor then some { walk with work := (node, next + 1) :: work }
          else some { walk with
            seen := Function.update walk.seen successor true
            work := (successor, 0) :: (node, next + 1) :: work }

/-- Nodes in reverse postorder. -/
def postorder (fuel : Nat) (root : Fin n) (successors : Fin n → List (Fin n)) : Option (List (Fin n)) :=
  (repeatWhile (Walk.step successors) fuel (.start root)).map Walk.postorder

/-! ## The tree -/

/-- Immediate dominators in reverse postorder. Missing entries are unreachable from the chosen root. -/
structure Dominators (n : Nat) where
  parent : Fin n → Option (Fin n)
  rank : Fin n → Nat
  interval : Fin n → Nat × Nat
  ancestors : List (Fin n → Fin n)

namespace Dominators

def encloses (tree : Dominators n) (a b : Fin n) : Bool :=
  (tree.interval a).1 ≤ (tree.interval b).1 ∧ (tree.interval b).1 < (tree.interval a).2

/-- Cooper's construction still walks its provisional parent tree. -/
def climb (tree : Dominators n) : Nat → Fin n → Fin n → Option (Fin n)
  | 0, _, _ => none
  | fuel + 1, a, b =>
      if a = b then some a
      else if tree.rank b < tree.rank a then
        match tree.parent a with
        | none => none
        | some a => tree.climb fuel a b
      else
        match tree.parent b with
        | none => none
        | some b => tree.climb fuel a b

/-- The highest ancestor found by halving steps that does not enclose the other node. -/
def lift (tree : Dominators n) (b a : Fin n) : Fin n :=
  tree.ancestors.reverse.foldl (fun a ancestors =>
    let ancestor := ancestors a
    if tree.encloses ancestor b then a else ancestor) a

def common (tree : Dominators n) (fuel : Nat) (a b : Fin n) : Option (Fin n) :=
  if (tree.parent a).isNone ∨ (tree.parent b).isNone then none
  else if tree.ancestors.isEmpty then tree.climb fuel a b
  else if tree.encloses a b then some a
  else if tree.encloses b a then some b
  else tree.parent (tree.lift b a)

def dominates (tree : Dominators n) (a b : Fin n) : Bool :=
  (tree.parent a).isSome ∧ (tree.parent b).isSome ∧ tree.encloses a b

/-- Ordering key that keeps each dominator subtree contiguous. -/
def preorder (tree : Dominators n) (block : Fin n) : Nat := (tree.interval block).1

/-! ## Immediate dominators -/

/-- The common ancestor with one more predecessor. A missing common ancestor panics. -/
def meetStep (tree : Dominators n) (fuel : Nat) (common : Option (Fin n)) (predecessor : Fin n) :
    Option (Option (Fin n)) :=
  if (tree.parent predecessor).isSome then
    match common with
    | none => some (some predecessor)
    | some previous => (tree.common fuel previous predecessor).map some
  else some common

/-- The common ancestor of the predecessors that have a parent. -/
def meet (tree : Dominators n) (fuel : Nat) (predecessors : List (Fin n)) : Option (Option (Fin n)) :=
  predecessors.foldlM (tree.meetStep fuel) none

/-- Replaces the parent of a node by what its predecessors have in common. -/
def process (fuel : Nat) (predecessors : Fin n → List (Fin n)) (state : Dominators n × Bool) (node : Fin n) :
    Option (Dominators n × Bool) :=
  match state.1.meet fuel (predecessors node) with
  | none => none
  | some common =>
      if state.1.parent node ≠ common then
        some ({ state.1 with parent := Function.update state.1.parent node common }, true)
      else some state

/-- One round over the nodes after the root. -/
def pass (fuel : Nat) (predecessors : Fin n → List (Fin n)) (order : List (Fin n)) (tree : Dominators n) :
    Option (Dominators n × Bool) :=
  order.tail.foldlM (process fuel predecessors) (tree, false)

/-- Rounds until nothing changes. -/
def solve (fuel : Nat) (predecessors : Fin n → List (Fin n)) (order : List (Fin n)) :
    Nat → Dominators n → Option (Dominators n)
  | 0, _ => none
  | rounds + 1, tree =>
      match pass fuel predecessors order tree with
      | none => none
      | some (tree, changed) => if changed then solve fuel predecessors order rounds tree else some tree

/-! ## Intervals and ancestors -/

structure Numbering (n : Nat) where
  interval : Fin n → Nat × Nat
  /-- Nodes to enter, or to leave. -/
  work : List (Fin n × Bool)
  clock : Nat

def children (tree : Dominators n) (parent : Fin n) : List (Fin n) :=
  (List.finRange n).filter fun node => tree.parent node = some parent ∧ node ≠ parent

/-- Enters or leaves a node of the tree. -/
def Numbering.step (tree : Dominators n) (numbering : Numbering n) : Option (Numbering n) :=
  match numbering.work with
  | [] => none
  | (node, true) :: work =>
      some { numbering with
        interval := Function.update numbering.interval node ((numbering.interval node).1, numbering.clock)
        work := work }
  | (node, false) :: work =>
      some {
        interval := Function.update numbering.interval node (numbering.clock, (numbering.interval node).2)
        work := (tree.children node).map (fun child => (child, false)) ++ (node, true) :: work
        clock := numbering.clock + 1 }

/-- The next table goes twice as far. -/
def double (ancestors : List (Fin n → Fin n)) : Option (List (Fin n → Fin n)) :=
  if 2 ^ ancestors.length < n then
    ancestors.getLast?.map fun previous => ancestors ++ [fun node => previous (previous node)]
  else none

/-- A tree without a root panics. -/
def index (fuel : Nat) (tree : Dominators n) : Option (Dominators n) :=
  match ((List.finRange n).filter fun node => tree.parent node = some node).getLast? with
  | none => none
  | some root =>
      match repeatWhile (Numbering.step tree) fuel ⟨fun _ => (UNREACHED, UNREACHED), [(root, false)], 0⟩,
          repeatWhile double fuel [fun node => (tree.parent node).getD node] with
      | some numbering, some ancestors =>
          some { tree with interval := numbering.interval, ancestors := ancestors }
      | _, _ => none

/-! ## The construction -/

/-- The positions of the nodes in an order. -/
def ranks (order : List (Fin n)) : Fin n → Nat :=
  order.zipIdx.foldl (fun rank entry => Function.update rank entry.1 entry.2) fun _ => UNREACHED

def new (fuel : Nat) (root : Fin n) (successors predecessors : Fin n → List (Fin n)) : Option (Dominators n) :=
  match postorder fuel root successors with
  | none => none
  | some order =>
      match solve fuel predecessors order fuel
          ⟨Function.update (fun _ => none) root (some root), ranks order, fun _ => (0, 0), []⟩ with
      | none => none
      | some tree => tree.index fuel

end Dominators

end Relocade.Compiler.Place
