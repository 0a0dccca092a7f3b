import Mathlib.Data.List.Destutter
import Mathlib.Data.List.Sort
import Relocade.Compiler.Place.Dominance

/-!
# `Compiler.Place.Demand` — where downstream demands permit a shared calculation

Every calculation collects the blocks that need its results. It is shared at a block that dominates them when every path
from there goes on to need it, and its inputs are then needed where it was shared.
-/

namespace Relocade.Compiler.Place

open Function (update)

/-! ## Graphs -/

/-- How a value is defined, in a graph of `n` blocks, `m` values and `e` effects. -/
inductive Definition (n m e : Nat) where
  | literal
  | parameter (block : Fin n)
  | effect (producer : Fin e)
  /-- Another result of an expression. -/
  | evaluate (producer : Fin m)
  | expression (inputs : List (Fin m)) (results : Nat)
  deriving DecidableEq

variable {n m e : Nat}

/-- The expression of a value, with the value that stores it. -/
def expressionOf (values : Fin m → Definition n m e) (value : Fin m) : Option (Fin m × List (Fin m)) :=
  match values value with
  | .expression inputs _ => some (value, inputs)
  | .evaluate producer =>
      match values producer with
      | .expression inputs _ => some (producer, inputs)
      | _ => none
  | _ => none

/-- The results of an expression, with the expression in the first slot. -/
def resultsOf (values : Fin m → Definition n m e) (producer : Fin m) : List (Fin m) :=
  match values producer with
  | .expression _ results =>
      (List.finRange m).filter fun value => producer.val ≤ value.val ∧ value.val < producer.val + results
  | _ => []

/-- A reduced graph: what blocks use, and where control goes. -/
structure FunctionGraph (n m e : Nat) where
  entry : Fin n
  /-- The effects of a block, in order. -/
  items : Fin n → List (Fin e)
  /-- The values that the exit of a block uses. -/
  exit : Fin n → List (Fin m)
  /-- The targets of the edges that a block's exit may take. -/
  outgoing : Fin n → List (Fin n)
  /-- The values that an effect uses. -/
  operation : Fin e → List (Fin m)
  values : Fin m → Definition n m e
  /-- Pure results are allocated together. -/
  together : ∀ producer, ∀ value ∈ resultsOf values producer, (expressionOf values value).map Prod.fst = some producer

namespace FunctionGraph

variable (graph : FunctionGraph n m e)

def expression (value : Fin m) : Option (Fin m × List (Fin m)) := expressionOf graph.values value

def expressionResults (producer : Fin m) : List (Fin m) := resultsOf graph.values producer

structure Search (n : Nat) where
  seen : Fin n → Bool
  pending : List (Fin n)

def Search.step (outgoing : Fin n → List (Fin n)) (search : Search n) : Option (Search n) :=
  match search.pending with
  | [] => none
  | block :: pending =>
      if search.seen block then some { search with pending := pending }
      else some ⟨update search.seen block true, (outgoing block).reverse ++ pending⟩

/-- The blocks that are reached from the entry. -/
def reachable (fuel : Nat) : Option (Fin n → Bool) :=
  (repeatWhile (Search.step graph.outgoing) fuel ⟨fun _ => false, [graph.entry]⟩).map Search.seen

def successors (reachable : Fin n → Bool) (block : Fin n) : List (Fin n) :=
  if reachable block then graph.outgoing block else []

def predecessors (reachable : Fin n → Bool) (block : Fin n) : List (Fin n) :=
  (List.finRange n).filter fun source => (graph.successors reachable source).contains block

end FunctionGraph

/-! ## Demands -/

structure Demand (n : Nat) where
  commonBlock : Option (Fin n)
  multipleBlocks : Bool
  requiredSites : Fin n → Bool
  retainedInput : Bool

namespace Demand

def default : Demand n := ⟨none, false, fun _ => false, false⟩

def «at» (block : Fin n) : Demand n := ⟨some block, false, fun site => site = block, false⟩

/-- The common block of two demands, and whether they are at more than one. A missing common block panics. -/
def join (dominators : Dominators n) (demand : Demand n) (block : Fin n) : Option (Fin n × Bool) :=
  match demand.commonBlock with
  | none => some (block, false)
  | some previous => (dominators.common 0 previous block).map fun common => (common, decide (previous ≠ block))

/-- Adds another demand, at the common block. -/
def merge (demand other : Demand n) (retained : Bool) (dominators : Dominators n) : Option (Demand n) :=
  match other.commonBlock with
  | none => some demand
  | some block =>
      (demand.join dominators block).map fun (common, multiple) => {
        commonBlock := some common
        multipleBlocks := demand.multipleBlocks || other.multipleBlocks || multiple
        requiredSites := fun site => demand.requiredSites site || retained && other.requiredSites site
        retainedInput := demand.retainedInput }

/-- A node of the compact dominator tree of required sites and their common ancestors. -/
structure Group (n : Nat) where
  block : Fin n
  parent : Option Nat
  requiredCount : Nat
  hasWitness : Bool

/-- Required sites and their common ancestors in preorder, avoiding repeated scans of sites through nested bypasses. -/
def compact (demand : Demand n) (dominators : Dominators n) : Option (List (Fin n)) :=
  let sites := ((List.finRange n).filter demand.requiredSites).insertionSort fun a b =>
    dominators.preorder a ≤ dominators.preorder b
  ((sites.zip sites.tail).mapM fun (a, b) => dominators.common 0 a b).map fun common =>
    ((sites ++ common).insertionSort fun a b => dominators.preorder a ≤ dominators.preorder b).destutter (· ≠ ·)

/-- Add a block below its nearest ancestor among the groups. -/
def addGroup (demand : Demand n) (dominators : Dominators n) (state : List (Group n) × List Nat) (block : Fin n) :
    List (Group n) × List Nat :=
  let (groups, ancestors) := state
  let ancestors := ancestors.dropWhile fun parent =>
    (groups[parent]?).all fun group => !dominators.dominates group.block block
  (groups ++ [⟨block, ancestors.head?, if demand.requiredSites block then 1 else 0, demand.requiredSites block⟩],
    groups.length :: ancestors)

/-- A child's witness also covers its parent exactly when every path from the parent reaches that child first. -/
def cover (postdominates : Fin n → Fin n → Bool) (groups : List (Group n)) (index : Nat) : List (Group n) :=
  match groups[index]? with
  | none => groups
  | some group =>
      match group.parent with
      | none => groups
      | some parent =>
          groups.modify parent fun above => { above with
            requiredCount := above.requiredCount + group.requiredCount
            hasWitness := above.hasWitness || group.hasWitness && postdominates group.block above.block }

structure Placing (n : Nat) where
  covering : Option (Fin n)
  placements : List (Fin n)
  requiredSites : Fin n → Bool

/-- A retained consumer elsewhere cannot justify a group. -/
def placeGroup (required : Fin n) (dominators : Dominators n) (placing : Placing n) (group : Group n) : Placing n :=
  if placing.covering.any fun parent => dominators.dominates parent group.block then
    { placing with requiredSites := update placing.requiredSites group.block false }
  else if 1 < group.requiredCount ∧ group.hasWitness ∧ dominators.dominates required group.block then
    { covering := some group.block
      placements := placing.placements ++ [group.block]
      requiredSites := update placing.requiredSites group.block true }
  else { placing with covering := none }

/-- Blocks that share the calculation among some of its sites, with the required sites they leave. -/
def branchPlacements (demand : Demand n) (required : Fin n) (dominators : Dominators n)
    (postdominates : Fin n → Fin n → Bool) : Option (Demand n × List (Fin n)) :=
  if ((List.finRange n).filter demand.requiredSites).length < 2 then some (demand, [])
  else
    (demand.compact dominators).map fun blocks =>
      let groups := (blocks.foldl (demand.addGroup dominators) ([], [])).1
      let groups := (List.range groups.length).reverse.foldl (cover postdominates) groups
      let placing := groups.foldl (placeGroup required dominators) ⟨none, [], demand.requiredSites⟩
      ({ demand with requiredSites := placing.requiredSites }, placing.placements)

end Demand

/-! ## Roots -/

/-- Actual residual uses prove execution requirements. Equivalent original recipes only offer reuse. -/
structure Roots (m : Nat) where
  required : List (Fin m)
  reusable : List (Fin m)

namespace FunctionGraph

variable (graph : FunctionGraph n m e)

def requiredRoots (reachable : Fin n → Bool) (block : Fin n) : List (Fin m) :=
  if reachable block then graph.exit block ++ (graph.items block).flatMap graph.operation else []

/-- The values that some block uses, later values first. -/
def usedValues (reachable : Fin n → Bool) : Fin m → Bool :=
  (List.finRange m).reverse.foldl (fun used id =>
    if used id then
      match graph.expression id with
      | some (_, inputs) => inputs.foldl (fun used input => update used input true) used
      | none => used
    else used) fun value => (List.finRange n).any fun block => (graph.requiredRoots reachable block).contains value

/-- Retain an original recipe as a reuse option only while it is still executed somewhere in the reduced function. -/
def roots (recipes : Fin n → Fin m → List (Fin m)) (reachable : Fin n → Bool) (block : Fin n) : Roots m :=
  { required := graph.requiredRoots reachable block
    reusable :=
      if reachable block then
        (graph.requiredRoots reachable block).flatMap fun root =>
          if (graph.expression root).isSome then
            (recipes block root).filter fun recipe => recipe ≠ root ∧ graph.usedValues reachable recipe
          else []
      else [] }

end FunctionGraph

/-! ## Coverage -/

/-- The targets of blocks, those that leave the function or go around a loop followed by the synthetic exit. -/
def exits (graph : FunctionGraph n m e) (reachable : Fin n → Bool) (dominators : Dominators n) (source : Fin (n + 1)) :
    List (Fin (n + 1)) :=
  if h : source.val < n then
    let source : Fin n := ⟨source.val, h⟩
    let targets := graph.successors reachable source
    targets.map Fin.castSucc ++
      if reachable source ∧ (targets = [] ∨ targets.any fun target => dominators.dominates target source) then
        [Fin.last n]
      else []
  else []

def reversed (successors : Fin n → List (Fin n)) (target : Fin n) : List (Fin n) :=
  (List.finRange n).flatMap fun source => ((successors source).filter (· = target)).map fun _ => source

/-- Visit marks are reused so that each query neither clears nor copies the whole graph. -/
structure Coverage (n : Nat) where
  visited : Fin (n + 1) → Nat
  generation : Nat

/-- The synthetic exit is no site. -/
def isSite (sites : Fin n → Bool) (block : Fin (n + 1)) : Bool :=
  if h : block.val < n then sites ⟨block.val, h⟩ else false

/-- Walk only as far as the first demand on each path. -/
def Coverage.walk (successors : Fin (n + 1) → List (Fin (n + 1))) (sites : Fin n → Bool) (generation : Nat) :
    Nat → (Fin (n + 1) → Nat) → List (Fin (n + 1)) → Option ((Fin (n + 1) → Nat) × Bool)
  | 0, _, _ => none
  | _ + 1, visited, [] => some (visited, true)
  | fuel + 1, visited, block :: pending =>
      if isSite sites block ∨ visited block = generation then
        Coverage.walk successors sites generation fuel visited pending
      else if block = Fin.last n then some (visited, false)
      else
        Coverage.walk successors sites generation fuel (update visited block generation)
          ((successors block).reverse ++ pending)

/-- Whether every path from the candidate reaches one of the sites. -/
def Coverage.allPathsReach (coverage : Coverage n) (fuel : Nat) (successors : Fin (n + 1) → List (Fin (n + 1)))
    (candidate : Fin n) (sites : Fin n → Bool) : Option (Coverage n × Bool) :=
  (Coverage.walk successors sites (coverage.generation + 1) fuel coverage.visited [candidate.castSucc]).map
    fun (visited, covered) => (⟨visited, coverage.generation + 1⟩, covered)

/-! ## Requirements -/

namespace FunctionGraph

variable (graph : FunctionGraph n m e)

/-- The last block that has an effect. -/
def location (effect : Fin e) : Option (Fin n) :=
  ((List.finRange n).filter fun block => (graph.items block).contains effect).getLast?

/-- The lower of two blocks where one dominates the other. -/
def lower (dominators : Dominators n) : Option (Fin n) → Option (Fin n) → Option (Fin n)
  | some a, some b => if dominators.dominates a b then some b else if dominators.dominates b a then some a else none
  | _, _ => none

/-- The block where the inputs of a value are defined, from those of the values before it. -/
def requirement (dominators : Dominators n) (requirements : Fin m → Option (Fin n)) (id : Fin m) : Option (Fin n) :=
  match graph.values id with
  | .literal => some graph.entry
  | .parameter block => some block
  | .effect producer => graph.location producer
  | .evaluate producer => requirements producer
  | .expression inputs _ =>
      inputs.foldl (fun requirement input => lower dominators requirement (requirements input)) (some graph.entry)

def requirements (dominators : Dominators n) : Fin m → Option (Fin n) :=
  (List.finRange m).foldl (fun requirements id =>
    update requirements id (graph.requirement dominators requirements id)) fun _ => none

end FunctionGraph

/-! ## The schedule -/

/-- Sites from all components accumulate at their producer, while each result keeps its own use bit. -/
structure ResultDemand (n : Nat) where
  sites : Demand n
  used : Bool

structure Scheduler (n m : Nat) where
  demands : Fin m → ResultDemand n
  coverage : Coverage n
  schedules : Fin n → List (Fin m)

/-- What scheduling is given. -/
structure Situation (n m e : Nat) where
  graph : FunctionGraph n m e
  dominators : Dominators n
  postdominators : Dominators (n + 1)
  successors : Fin (n + 1) → List (Fin (n + 1))
  requirements : Fin m → Option (Fin n)
  fuel : Nat

namespace Situation

variable (situation : Situation n m e)

/-- Demand a value at the sites of another demand. -/
def demand (value : Fin m) (sites : Demand n) (retained : Bool) (demands : Fin m → ResultDemand n) :
    Option (Fin m → ResultDemand n) :=
  match situation.graph.expression value with
  | none => some demands
  | some (producer, _) =>
      let demands := update demands value
        { demands value with used := (demands value).used || sites.commonBlock.isSome }
      ((demands producer).sites.merge sites retained situation.dominators).map fun merged =>
        update demands producer { demands producer with sites := merged }

/-- Demand what a block requires, and offer what it may reuse. -/
def demandRoots (reachable : Fin n → Bool) (roots : Fin n → Roots m) (demands : Fin m → ResultDemand n)
    (block : Fin n) : Option (Fin m → ResultDemand n) :=
  if reachable block then
    ((roots block).required.foldlM (fun demands input => situation.demand input (.at block) true demands) demands).bind
      fun demands =>
        (roots block).reusable.foldlM (fun demands input => situation.demand input (.at block) false demands) demands
  else some demands

def postdominates (a b : Fin n) : Bool := situation.postdominators.dominates a.castSucc b.castSucc

/-- Whether a calculation may be shared at its candidate. Collective coverage is limited to retained calculation
    inputs, to avoid hoisting final publication values across branch decisions. -/
def permits (coverage : Coverage n) (id : Fin m) (candidate : Fin n) (sites : Demand n) : Option (Coverage n × Bool) :=
  if (situation.requirements id).any fun required => situation.dominators.dominates required candidate then
    if (List.finRange n).any fun site => sites.requiredSites site && situation.postdominates site candidate then
      some (coverage, true)
    else if sites.retainedInput then
      coverage.allPathsReach situation.fuel situation.successors candidate sites.requiredSites
    else some (coverage, false)
  else some (coverage, false)

/-- Put the used results of a calculation into the schedule of a block. -/
def schedule (demands : Fin m → ResultDemand n) (id : Fin m) (schedules : Fin n → List (Fin m)) (block : Fin n) :
    Fin n → List (Fin m) :=
  update schedules block
    (schedules block ++ (situation.graph.expressionResults id).filter fun result => (demands result).used)

/-- Share a calculation with its sites taken, and give the sites where its inputs are needed. -/
def share (scheduler : Scheduler n m) (id : Fin m) (sites : Demand n) : Option (Scheduler n m × Demand n) :=
  if sites.multipleBlocks then
    match sites.commonBlock with
    | none => none
    | some candidate =>
        match situation.permits scheduler.coverage id candidate sites with
        | none => none
        | some (coverage, true) =>
            some ({ scheduler with
              coverage := coverage
              schedules := situation.schedule scheduler.demands id scheduler.schedules candidate }, .at candidate)
        | some (coverage, false) =>
            match situation.requirements id with
            | none => some ({ scheduler with coverage := coverage }, sites)
            | some required =>
                (sites.branchPlacements required situation.dominators situation.postdominates).map
                  fun (sites, placements) => ({ scheduler with
                    coverage := coverage
                    schedules := placements.foldl (situation.schedule scheduler.demands id) scheduler.schedules },
                    sites)
  else some (scheduler, sites)

/-- Every input still present is required when its result is used. -/
def demandInput (sites : Demand n) (demands : Fin m → ResultDemand n) (input : Fin m) :
    Option (Fin m → ResultDemand n) :=
  let demands :=
    match situation.graph.expression input with
    | none => demands
    | some (producer, _) =>
        update demands producer { demands producer with
          sites := { (demands producer).sites with
            retainedInput := (demands producer).sites.retainedInput || sites.commonBlock.isSome } }
  situation.demand input sites true demands

/-- Shares a calculation where it is demanded, and demands its inputs. -/
def visit (scheduler : Scheduler n m) (id : Fin m) : Option (Scheduler n m) :=
  match situation.graph.values id with
  | .expression inputs _ =>
      let sites := (scheduler.demands id).sites
      let taken := { scheduler with
        demands := update scheduler.demands id { scheduler.demands id with sites := .default } }
      (situation.share taken id sites).bind fun (scheduler, sites) =>
        (inputs.foldlM (situation.demandInput sites) scheduler.demands).map fun demands =>
          { scheduler with demands := demands }
  | _ => some scheduler

end Situation

def scheduleRoots (fuel : Nat) (graph : FunctionGraph n m e) (reachable : Fin n → Bool) (dominators : Dominators n)
    (roots : Fin n → Roots m) : Option (Fin n → List (Fin m)) :=
  let successors := exits graph reachable dominators
  (Dominators.new fuel (Fin.last n) (reversed successors) successors).bind fun postdominators =>
    let situation : Situation n m e :=
      ⟨graph, dominators, postdominators, successors, graph.requirements dominators, fuel⟩
    ((List.finRange n).foldlM (situation.demandRoots reachable roots) fun _ => ⟨.default, false⟩).bind fun demands =>
      ((List.finRange m).reverse.foldlM situation.visit ⟨demands, ⟨fun _ => 0, 0⟩, fun _ => []⟩).map
        fun scheduler block => (scheduler.schedules block).reverse

/-- The schedules of a graph. -/
def schedules (fuel : Nat) (graph : FunctionGraph n m e) (recipes : Fin n → Fin m → List (Fin m)) :
    Option (Fin n → List (Fin m)) :=
  (graph.reachable fuel).bind fun reachable =>
    (Dominators.new fuel graph.entry (graph.successors reachable) (graph.predecessors reachable)).bind
      fun dominators => scheduleRoots fuel graph reachable dominators (graph.roots recipes reachable)

end Relocade.Compiler.Place
