import Relocade.Graphs.Paths
import Relocade.Graphs.Worklist
import Relocade.Compiler.Body.Run

/-!
# `Compiler.Body.Prune` — remove unneeded executions and parameters

Liveness runs backwards from what exits and observable operations read, through producers and through the arguments of
live parameters along executable edges. Items and parameters that are not live are removed, and so is the argument of a
removed parameter on every edge, so a run shows what it showed before.
-/

namespace Relocade.Compiler

open Function (update update_self update_of_ne)
open List (mem_of_getElem? mem_cons_self mem_cons_of_mem mem_append_left mem_singleton_self not_mem_nil
  getD_eq_getElem?_getD map_congr_left forall_mem_nil)
open Graphs

/-! ## Pruning -/

/-- What an exit needs, whatever its target. -/
def Exit.demands : Exit → List Nat
  | .ret values | .tailCall _ values => values
  | .tailCallIndirect _ slot arguments => arguments ++ [slot]
  | exit => exit.selector.toList

def Exit.mapEdges (f : Edge → Edge) : Exit → Exit
  | .jump edge => .jump (f edge)
  | .ifElse condition taken otherwise => .ifElse condition (f taken) (f otherwise)
  | .switch selector cases default => .switch selector (cases.map fun case => (case.1, f case.2)) (f default)
  | exit => exit

/-- Liveness of referenced values and required executions. -/
structure Marks where
  values : Nat → Bool
  calculations : Nat → Bool
  effects : Nat → Bool

def Marks.item (marks : Marks) : BlockItem → Bool
  | .evaluate root => marks.calculations root
  | .effect effect => marks.effects effect

def Marks.require (marks : Marks) : BlockItem → Marks
  | .evaluate root => { marks with calculations := update marks.calculations root true }
  | .effect effect => { marks with effects := update marks.effects effect true }

def ValueTable.define (t : ValueTable) (id : Nat) (definition : ValueDefinition) : ValueTable :=
  { t with values := t.values.modify id fun value => { value with definition := definition } }

namespace FunctionGraph

variable (observable : Operation → Bool) (graph : FunctionGraph)

def visitBlock (seen : Nat → Bool) (block : Nat) : (Nat → Bool) × List Nat :=
  if seen block then (seen, [])
  else (update seen block true, ((graph.outgoing block).map Edge.target).reverse)

/-- The blocks that control can reach. -/
def reachable (n : Nat) : Option (Nat → Bool) := drain graph.visitBlock n (fun _ => false) [graph.entry]

/-- The defining operation, independently of whether it has been placed. -/
def producerOf (value : Nat) : Option BlockItem :=
  match graph.values.definition value with
  | .expression _ => some (.evaluate value)
  | .result producer _ => some producer
  | _ => none

section Liveness

variable (reachable : Nat → Bool)

def live : List Nat := (List.range graph.blocks.length).filter reachable

/-- The arguments of a parameter. -/
def incoming (parameter : Nat) : List Nat :=
  (graph.live reachable).flatMap fun block => (graph.outgoing block).flatMap fun edge =>
    (((graph.block edge.target).parameters.zip edge.arguments).filter fun pair => pair.1 = parameter).map Prod.snd

def observed : BlockItem → Bool
  | .effect effect => observable (graph.effect effect).operation
  | .evaluate _ => false

/-- What exits and observable operations read. -/
def roots : List Nat :=
  (graph.live reachable).flatMap fun block => (graph.block block).exit.demands ++
    ((graph.block block).items.filter (graph.observed observable)).flatMap graph.inputs

def firstMarks : Marks where
  values := fun _ => false
  calculations := fun _ => false
  effects := fun effect => (graph.live reachable).any fun block =>
    ((graph.block block).items.filter (graph.observed observable)).contains (.effect effect)

/-- Marks a value, and gives what its producer reads. -/
def visit (marks : Marks) (value : Nat) : Marks × List Nat :=
  if marks.values value then (marks, [])
  else
    let marks := { marks with values := update marks.values value true }
    match graph.producerOf value with
    | some producer =>
        if marks.item producer then (marks, []) else (marks.require producer, (graph.inputs producer).reverse)
    | none =>
        match graph.values.definition value with
        | .parameter .. => (marks, (graph.incoming reachable value).reverse)
        | _ => (marks, [])

def marks (n : Nat) : Option Marks :=
  drain (graph.visit reachable) n (graph.firstMarks observable reachable) (graph.roots observable reachable).reverse

end Liveness

section Removal

variable (marks : Marks)

/-- The parameters of the entry belong to the signature of the function. -/
def keep (block parameter : Nat) : Bool := block = graph.entry || marks.values parameter

def trim (edge : Edge) : Edge :=
  { edge with
    arguments := (((graph.block edge.target).parameters.zip edge.arguments).filter fun pair =>
      graph.keep marks edge.target pair.1).map Prod.snd }

def pruneBlock (id : Nat) (block : Block) : Block :=
  { block with
    parameters := block.parameters.filter (graph.keep marks id)
    items := block.items.filter marks.item
    exit := block.exit.mapEdges (graph.trim marks) }

/-- The parameters of blocks, with their positions. -/
def positions (blocks : List Block) : List (Nat × Nat × Nat) :=
  blocks.zipIdx.flatMap fun (block, id) =>
    if id = graph.entry then []
    else block.parameters.zipIdx.map fun (parameter, component) => (parameter, id, component)

/-- The parameters that are left take their new positions. -/
def renumber (t : ValueTable) (blocks : List Block) : ValueTable :=
  (graph.positions blocks).foldl (fun t position => t.define position.1 (.parameter position.2.1 position.2.2)) t

def pruned : FunctionGraph :=
  let blocks := graph.blocks.zipIdx.map fun (block, id) => graph.pruneBlock marks id block
  { graph with blocks := blocks, values := graph.renumber graph.values blocks }

end Removal

/-- Remove unused executions and result channels, preserving all value and effect ids. -/
def pruneUnused (n : Nat) (reachable : Nat → Bool) : Option FunctionGraph :=
  (graph.marks observable reachable n).map graph.pruned

end FunctionGraph

/-! ## Reachable blocks -/

/-- Items and parameters are the producers and the components their values name, edges pass one argument for each
    parameter of their target, and everything named is there. -/
structure FunctionGraph.WellFormed (graph : FunctionGraph) : Prop where
  entry : graph.entry < graph.blocks.length
  target : ∀ block, ∀ edge ∈ (graph.block block).exit.edges, edge.target < graph.blocks.length
  arity : ∀ block, ∀ edge ∈ (graph.block block).exit.edges,
    edge.arguments.length = (graph.block edge.target).parameters.length
  parameter : ∀ block component parameter, (graph.block block).parameters[component]? = some parameter →
    parameter < graph.values.size ∧ graph.values.definition parameter = .parameter block component
  result : ∀ block, ∀ item ∈ (graph.block block).items, ∀ result ∈ graph.results item,
    graph.producerOf result = some item
  demands : ∀ block, ∀ value ∈ (graph.block block).exit.demands, value < graph.values.size
  arguments : ∀ block, ∀ edge ∈ (graph.block block).exit.edges, ∀ value ∈ edge.arguments, value < graph.values.size
  inputs : ∀ item, ∀ value ∈ graph.inputs item, value < graph.values.size

namespace FunctionGraph

variable {F : Floating} {answers : Answers} {obs : Operation → Bool} {g : FunctionGraph}
  {reachable : Nat → Bool} {marks : Marks}

abbrev successors (g : FunctionGraph) (block : Nat) : List Nat := (g.outgoing block).map Edge.target

theorem mem_outgoing {block : Nat} {edge : Edge} (h : edge ∈ g.outgoing block) :
    edge ∈ (g.block block).exit.edges := by
  rw [outgoing] at h
  split at h
  · exact mem_of_getElem? (Option.mem_toList.mp h)
  · exact h

theorem WellFormed.lt_of_reachable (hg : g.WellFormed) {block : Nat}
    (h : Reachable g.successors g.entry block) : block < g.blocks.length := by
  obtain ⟨nodes, h⟩ := h
  cases h with
  | root => exact hg.entry
  | step _ hedge =>
    obtain ⟨edge, hmem, rfl⟩ := List.mem_map.mp hedge
    exact hg.target _ edge (mem_outgoing hmem)

/-- The loop over pending blocks. -/
structure Seen (g : FunctionGraph) (seen : Nat → Bool) (pending : List Nat) : Prop where
  entry : seen g.entry = true ∨ g.entry ∈ pending
  closed : ∀ a, seen a = true → ∀ b ∈ g.successors a, seen b = true ∨ b ∈ pending
  reachable : ∀ b, seen b = true ∨ b ∈ pending → Reachable g.successors g.entry b

theorem Seen.visit (hg : g.WellFormed) {seen : Nat → Bool} {block : Nat} {pending : List Nat}
    (h : Seen g seen (block :: pending)) :
    Seen g (g.visitBlock seen block).1 ((g.visitBlock seen block).2 ++ pending) ∧
      (unmarked (g.visitBlock seen block).1 g.blocks.length < unmarked seen g.blocks.length ∨
        (g.visitBlock seen block).1 = seen ∧ (g.visitBlock seen block).2 = []) := by
  have hself := h.reachable block (Or.inr mem_cons_self)
  rw [visitBlock]
  split
  · next hblock =>
      have hpop : ∀ b, seen b = true ∨ b ∈ block :: pending → seen b = true ∨ b ∈ pending := by
        rintro b (h | h)
        · exact Or.inl h
        · rcases List.mem_cons.mp h with rfl | h
          · exact Or.inl hblock
          · exact Or.inr h
      exact ⟨⟨hpop _ h.entry, fun a ha b hb => hpop b (h.closed a ha b hb),
        fun b hb => h.reachable b (hb.imp_right (mem_cons_of_mem _))⟩, Or.inr ⟨rfl, rfl⟩⟩
  · next hblock =>
      have hpop : ∀ b, seen b = true ∨ b ∈ block :: pending → update seen block true b = true ∨
          b ∈ (g.successors block).reverse ++ pending := by
        intro b h
        by_cases heq : b = block
        · exact Or.inl (by rw [heq, update_self])
        · rw [update_of_ne heq, List.mem_append]
          exact h.imp_right fun h => Or.inr ((List.mem_cons.mp h).resolve_left heq)
      refine ⟨⟨hpop _ h.entry, fun a ha b hb => ?_, fun b hb => ?_⟩,
        Or.inl (unmarked_update (hg.lt_of_reachable hself) (Bool.eq_false_iff.mpr hblock))⟩
      · by_cases heq : a = block
        · exact Or.inr (mem_append_left _ (List.mem_reverse.mpr (heq ▸ hb)))
        · exact hpop b (h.closed a (update_of_ne heq true seen ▸ ha) b hb)
      · by_cases heq : b = block
        · exact heq ▸ hself
        · dsimp only at hb
          rw [update_of_ne heq, List.mem_append, List.mem_reverse] at hb
          rcases hb with hb | hb | hb
          · exact h.reachable b (Or.inl hb)
          · exact hself.step hb
          · exact h.reachable b (Or.inr (mem_cons_of_mem _ hb))

/-- The blocks that the loop sees are those that paths of executable edges lead to. -/
theorem reachable_spec (hg : g.WellFormed) :
    ∃ seen, (∀ block, seen block = true ↔ Reachable g.successors g.entry block) ∧
      ∃ n, ∀ m, n ≤ m → g.reachable m = some seen := by
  have hfirst : Seen g (fun _ => false) [g.entry] := by
    refine ⟨Or.inr (mem_singleton_self _), fun _ h => absurd h Bool.false_ne_true, fun b h => ?_⟩
    rw [List.mem_singleton.mp (h.resolve_left Bool.false_ne_true)]
    exact Reachable.refl
  obtain ⟨seen, hseen, hends⟩ := drain_spec (fun seen => unmarked seen g.blocks.length)
    (fun _ _ _ h => h.visit hg) hfirst
  refine ⟨seen, fun block => ⟨fun h => hseen.reachable block (Or.inl h), fun h => ?_⟩, hends⟩
  obtain ⟨nodes, hpath⟩ := h
  induction hpath with
  | root => exact hseen.entry.resolve_right not_mem_nil
  | step _ hedge ih => exact (hseen.closed _ ih _ hedge).resolve_right not_mem_nil

/-! ## Liveness -/

/-- What a run needs to show what it shows. -/
inductive Needed (g : FunctionGraph) (obs : Operation → Bool) (reachable : Nat → Bool) : Nat → Prop
  | root {value : Nat} (h : value ∈ g.roots obs reachable) : Needed g obs reachable value
  | input {value input : Nat} {item : BlockItem} (h : Needed g obs reachable value)
      (hitem : g.producerOf value = some item) (hinput : input ∈ g.inputs item) :
      Needed g obs reachable input
  | argument {value argument block component : Nat} (h : Needed g obs reachable value)
      (hvalue : g.values.definition value = .parameter block component)
      (hargument : argument ∈ g.incoming reachable value) : Needed g obs reachable argument

/-- The loop over pending values. -/
structure Live (g : FunctionGraph) (obs : Operation → Bool) (reachable : Nat → Bool) (marks : Marks)
    (pending : List Nat) : Prop where
  root : ∀ value ∈ g.roots obs reachable, marks.values value = true ∨ value ∈ pending
  observed : ∀ item, (g.firstMarks obs reachable).item item = true → marks.item item = true
  inputs : ∀ item, marks.item item = true → ∀ input ∈ g.inputs item, marks.values input = true ∨ input ∈ pending
  producer : ∀ value, marks.values value = true → ∀ item, g.producerOf value = some item →
    marks.item item = true
  arguments : ∀ value, marks.values value = true → ∀ block component,
    g.values.definition value = .parameter block component →
    ∀ argument ∈ g.incoming reachable value, marks.values argument = true ∨ argument ∈ pending
  needed : ∀ value, marks.values value = true ∨ value ∈ pending → Needed g obs reachable value
  used : ∀ item, marks.item item = true → (g.firstMarks obs reachable).item item = true ∨
    ∃ value, marks.values value = true ∧ g.producerOf value = some item

theorem require_item (marks : Marks) (item other : BlockItem) :
    (marks.require item).item other = true ↔ marks.item other = true ∨ other = item := by
  cases item <;> cases other <;> simp [Marks.require, Marks.item, Function.update_apply, or_comm]

/-- A value becomes live: its producer and the producer's inputs follow, or its arguments do. -/
theorem Live.extend {marks' : Marks} {value : Nat} {pending added : List Nat}
    (h : Live g obs reachable marks (value :: pending))
    (hvalues : marks'.values = update marks.values value true)
    (hmono : ∀ item, marks.item item = true → marks'.item item = true)
    (hitem : ∀ item, marks'.item item = true → marks.item item = true ∨
      g.producerOf value = some item ∧ ∀ input ∈ g.inputs item, input ∈ added)
    (hprod : ∀ item, g.producerOf value = some item → marks'.item item = true)
    (harguments : ∀ block component, g.values.definition value = .parameter block component →
      ∀ argument ∈ g.incoming reachable value, argument ∈ added)
    (hadded : ∀ w ∈ added, Needed g obs reachable w) :
    Live g obs reachable marks' (added ++ pending) := by
  have hself : marks'.values value = true := by rw [hvalues, update_self]
  have hold : ∀ v, marks.values v = true → marks'.values v = true := by
    intro v hv
    by_cases heq : v = value
    · exact heq ▸ hself
    · rwa [hvalues, update_of_ne heq]
  have hnew : ∀ v, v ≠ value → marks'.values v = true → marks.values v = true := by
    intro v heq hv
    rwa [hvalues, update_of_ne heq] at hv
  have hpop : ∀ v, marks.values v = true ∨ v ∈ value :: pending → marks'.values v = true ∨ v ∈ added ++ pending := by
    rintro v (hv | hv)
    · exact Or.inl (hold v hv)
    · rcases List.mem_cons.mp hv with rfl | hv
      · exact Or.inl hself
      · exact Or.inr (List.mem_append_right _ hv)
  refine ⟨fun v hv => hpop v (h.root v hv), fun item hi => hmono item (h.observed item hi), fun item hi input hv => ?_,
    fun v hv item hi => ?_, fun v hv block component hd argument ha => ?_, fun v hv => ?_, fun item hi => ?_⟩
  · rcases hitem item hi with hi | ⟨-, hall⟩
    · exact hpop input (h.inputs item hi input hv)
    · exact Or.inr (mem_append_left _ (hall input hv))
  · by_cases heq : v = value
    · exact hprod item (heq ▸ hi)
    · exact hmono item (h.producer v (hnew v heq hv) item hi)
  · by_cases heq : v = value
    · subst heq
      exact Or.inr (mem_append_left _ (harguments block component hd argument ha))
    · exact hpop argument (h.arguments v (hnew v heq hv) block component hd argument ha)
  · rw [List.mem_append] at hv
    rcases hv with hv | hv | hv
    · by_cases heq : v = value
      · exact h.needed v (Or.inr (heq ▸ mem_cons_self))
      · exact h.needed v (Or.inl (hnew v heq hv))
    · exact hadded v hv
    · exact h.needed v (Or.inr (mem_cons_of_mem _ hv))
  · rcases hitem item hi with hi | ⟨hvalue, -⟩
    · exact (h.used item hi).imp_right fun ⟨v, hv, hp⟩ => ⟨v, hold v hv, hp⟩
    · exact Or.inr ⟨value, hself, hvalue⟩

theorem Live.visit {value : Nat} {pending : List Nat} (h : Live g obs reachable marks (value :: pending))
    (hlt : value < g.values.size) :
    Live g obs reachable (g.visit reachable marks value).1
        ((g.visit reachable marks value).2 ++ pending) ∧
      (unmarked (g.visit reachable marks value).1.values g.values.size < unmarked marks.values g.values.size ∨
        (g.visit reachable marks value).1 = marks ∧ (g.visit reachable marks value).2 = []) := by
  have hneeded := h.needed value (Or.inr mem_cons_self)
  rw [FunctionGraph.visit]
  split
  · next hvalue =>
      have hpop : ∀ v, marks.values v = true ∨ v ∈ value :: pending → marks.values v = true ∨ v ∈ pending := by
        rintro v (hv | hv)
        · exact Or.inl hv
        · rcases List.mem_cons.mp hv with rfl | hv
          · exact Or.inl hvalue
          · exact Or.inr hv
      exact ⟨⟨fun v hv => hpop v (h.root v hv), h.observed, fun item hi v hv => hpop v (h.inputs item hi v hv),
        h.producer, fun v hv block component hd a ha => hpop a (h.arguments v hv block component hd a ha),
        fun v hv => h.needed v (hv.imp_right (mem_cons_of_mem _)), h.used⟩, Or.inr ⟨rfl, rfl⟩⟩
  · next hvalue =>
      have hless : unmarked (update marks.values value true) g.values.size <
          unmarked marks.values g.values.size := unmarked_update hlt (Bool.eq_false_iff.mpr hvalue)
      have hsame : ∀ item, ({ marks with values := update marks.values value true } : Marks).item item =
          marks.item item := fun item => by cases item <;> rfl
      dsimp only
      split
      · next producer hprod =>
          have hnone : ∀ block component, g.values.definition value ≠ .parameter block component := by
            intro block component hd
            rw [producerOf, hd] at hprod
            cases hprod
          split
          · next hlive =>
              refine ⟨h.extend rfl (fun item hi => hsame item ▸ hi) (fun item hi => Or.inl (hsame item ▸ hi))
                (fun item hi => ?_) (fun block component hd => absurd hd (hnone block component))
                fun w hw => absurd hw not_mem_nil, Or.inl hless⟩
              cases hprod.symm.trans hi
              exact hlive
          · refine ⟨h.extend (by cases producer <;> rfl)
              (fun item hi => (require_item _ _ _).mpr (Or.inl ((hsame item).trans hi))) (fun item hi => ?_)
              (fun item hi => ?_) (fun block component hd => absurd hd (hnone block component))
              fun w hw => hneeded.input hprod (List.mem_reverse.mp hw), Or.inl ?_⟩
            · rcases (require_item _ _ _).mp hi with hi | rfl
              · exact Or.inl ((hsame item).symm.trans hi)
              · exact Or.inr ⟨hprod, fun input hv => List.mem_reverse.mpr hv⟩
            · cases hprod.symm.trans hi
              exact (require_item _ _ _).mpr (Or.inr rfl)
            · cases producer <;> exact hless
      · next hprod =>
          have hnone : ∀ item, g.producerOf value ≠ some item := fun item hi => by
            rw [hprod] at hi
            cases hi
          split
          · next block component hd =>
              exact ⟨h.extend rfl (fun item hi => hsame item ▸ hi) (fun item hi => Or.inl (hsame item ▸ hi))
                (fun item hi => absurd hi (hnone item)) (fun _ _ _ a ha => List.mem_reverse.mpr ha)
                fun w hw => hneeded.argument hd (List.mem_reverse.mp hw), Or.inl hless⟩
          · next hd =>
              exact ⟨h.extend rfl (fun item hi => hsame item ▸ hi) (fun item hi => Or.inl (hsame item ▸ hi))
                (fun item hi => absurd hi (hnone item)) (fun block component h => absurd h (hd block component))
                fun w hw => absurd hw not_mem_nil, Or.inl hless⟩

theorem firstMarks_item {item : BlockItem} (h : (g.firstMarks obs reachable).item item = true) :
    ∃ block ∈ g.live reachable, item ∈ (g.block block).items ∧ g.observed obs item = true := by
  cases item with
  | evaluate root => cases h
  | effect effect =>
    obtain ⟨block, hblock, hmem⟩ := List.any_eq_true.mp h
    obtain ⟨hitem, hobs⟩ := List.mem_filter.mp (List.contains_iff_mem.mp hmem)
    exact ⟨block, hblock, hitem, hobs⟩

theorem firstMarks_of_mem {block : Nat} {item : BlockItem} (hblock : block ∈ g.live reachable)
    (hitem : item ∈ (g.block block).items) (hobs : g.observed obs item = true) :
    (g.firstMarks obs reachable).item item = true := by
  cases item with
  | evaluate root => cases hobs
  | effect effect =>
    exact List.any_eq_true.mpr ⟨block, hblock, List.contains_iff_mem.mpr (List.mem_filter.mpr ⟨hitem, hobs⟩)⟩

/-- Everything needed is there. -/
theorem WellFormed.needed_lt (hg : g.WellFormed) {value : Nat} (h : Needed g obs reachable value) :
    value < g.values.size := by
  cases h with
  | root h =>
    obtain ⟨block, -, h⟩ := List.mem_flatMap.mp h
    rcases List.mem_append.mp h with h | h
    · exact hg.demands block value h
    · obtain ⟨item, -, h⟩ := List.mem_flatMap.mp h
      exact hg.inputs item value h
  | input _ _ h => exact hg.inputs _ value h
  | argument _ _ h =>
    obtain ⟨block, -, h⟩ := List.mem_flatMap.mp h
    obtain ⟨edge, hedge, h⟩ := List.mem_flatMap.mp h
    obtain ⟨pair, hpair, rfl⟩ := List.mem_map.mp h
    exact hg.arguments block edge (mem_outgoing hedge) _ (List.of_mem_zip (List.mem_filter.mp hpair).1).2

/-- The loop marks exactly what is needed. -/
theorem marks_spec (hg : g.WellFormed) (obs : Operation → Bool) (reachable : Nat → Bool) :
    ∃ marks, Live g obs reachable marks [] ∧
      (∀ value, marks.values value = true ↔ Needed g obs reachable value) ∧
      ∃ n, ∀ m, n ≤ m → g.marks obs reachable m = some marks := by
  have hfirst : Live g obs reachable (g.firstMarks obs reachable)
      (g.roots obs reachable).reverse := by
    refine ⟨fun value h => Or.inr (List.mem_reverse.mpr h), fun _ h => h, fun item hi input hv => ?_,
      fun _ h => absurd h Bool.false_ne_true, fun _ h => absurd h Bool.false_ne_true, fun value h => ?_,
      fun _ h => Or.inl h⟩
    · obtain ⟨block, hblock, hitem, hobs⟩ := firstMarks_item hi
      exact Or.inr (List.mem_reverse.mpr (List.mem_flatMap.mpr ⟨block, hblock, List.mem_append_right _
        (List.mem_flatMap.mpr ⟨item, List.mem_filter.mpr ⟨hitem, hobs⟩, hv⟩)⟩))
    · exact .root (List.mem_reverse.mp (h.resolve_left Bool.false_ne_true))
  obtain ⟨marks, hmarks, hends⟩ := drain_spec (fun marks : Marks => unmarked marks.values g.values.size)
    (fun _ value _ h => h.visit (hg.needed_lt (h.needed value (Or.inr mem_cons_self)))) hfirst
  refine ⟨marks, hmarks, fun value => ⟨fun h => hmarks.needed value (Or.inl h), fun h => ?_⟩, hends⟩
  induction h with
  | root h => exact (hmarks.root _ h).resolve_right not_mem_nil
  | input _ hitem hinput ih =>
    exact (hmarks.inputs _ (hmarks.producer _ ih _ hitem) _ hinput).resolve_right not_mem_nil
  | argument _ hvalue hargument ih =>
    exact (hmarks.arguments _ ih _ _ hvalue _ hargument).resolve_right not_mem_nil

/-! ## What is left -/

theorem define_value (t : ValueTable) (id v : Nat) (definition : ValueDefinition) : (t.define id definition).value v =
    if v = id ∧ v < t.size then { t.value v with definition := definition } else t.value v := by
  rw [ValueTable.value, ValueTable.value, ValueTable.define, getD_eq_getElem?_getD, getD_eq_getElem?_getD,
    List.getElem?_modify, ValueTable.size]
  by_cases hlt : v < t.values.length
  · rw [List.getElem?_eq_getElem hlt]
    by_cases heq : v = id
    · subst heq
      simp [hlt]
    · simp [heq, Ne.symm heq]
  · rw [List.getElem?_eq_none (Nat.not_lt.mp hlt), if_neg fun h => hlt h.2]
    rfl

theorem foldl_define {x : Nat × Nat} {v : Nat} (l : List (Nat × Nat × Nat)) (hv : ∀ entry ∈ l, entry.1 = v → entry.2 = x)
    (t : ValueTable) (hlt : v < t.size) :
    (l.foldl (fun t position => t.define position.1 (.parameter position.2.1 position.2.2)) t).value v =
      if v ∈ l.map Prod.fst then { t.value v with definition := .parameter x.1 x.2 } else t.value v := by
  induction l generalizing t with
  | nil => rfl
  | cons entry l ih =>
    have hsize : (t.define entry.1 (.parameter entry.2.1 entry.2.2)).size = t.size := List.length_modify ..
    rw [List.foldl_cons, ih (fun other hother => hv other (mem_cons_of_mem _ hother)) _ (hsize ▸ hlt),
      define_value, List.map_cons]
    by_cases heq : v = entry.1
    · rw [hv entry mem_cons_self heq.symm, if_pos (show v = entry.1 ∧ v < t.size from ⟨heq, hlt⟩),
        if_pos (show v ∈ entry.1 :: l.map Prod.fst from heq ▸ mem_cons_self)]
      exact ite_self _
    · simp only [heq, false_and, if_false, List.mem_cons, false_or]

theorem foldl_define_size (l : List (Nat × Nat × Nat)) (t : ValueTable) :
    (l.foldl (fun t position => t.define position.1 (.parameter position.2.1 position.2.2)) t).size = t.size := by
  induction l generalizing t with
  | nil => rfl
  | cons entry l ih => exact (ih _).trans (List.length_modify ..)

theorem pruned_block (g : FunctionGraph) (marks : Marks) (block : Nat) :
    (g.pruned marks).block block = g.pruneBlock marks block (g.block block) := by
  rw [FunctionGraph.block, FunctionGraph.block, pruned, getD_eq_getElem?_getD, getD_eq_getElem?_getD,
    List.getElem?_map, List.getElem?_zipIdx]
  cases g.blocks[block]? with
  | none => rfl
  | some b =>
    show g.pruneBlock marks (0 + block) b = _
    rw [Nat.zero_add]
    rfl

theorem WellFormed.parameters_nodup (hg : g.WellFormed) (block : Nat) : (g.block block).parameters.Nodup := by
  rw [List.nodup_iff_getElem?_ne_getElem?]
  intro i j hij hj heq
  obtain ⟨parameter, hparam⟩ : ∃ parameter, (g.block block).parameters[j]? = some parameter :=
    ⟨_, List.getElem?_eq_getElem hj⟩
  have hi := (hg.parameter block i parameter (heq.trans hparam)).2
  have hj := (hg.parameter block j parameter hparam).2
  rw [hi] at hj
  injection hj
  omega

/-- A position that is left belongs to a parameter of its block. -/
theorem mem_positions {entry : Nat × Nat × Nat} :
    entry ∈ g.positions (g.pruned marks).blocks ↔ entry.2.1 ≠ g.entry ∧
      ((g.pruned marks).block entry.2.1).parameters[entry.2.2]? = some entry.1 := by
  obtain ⟨parameter, block, component⟩ := entry
  simp only [positions, List.mem_flatMap, Prod.exists, List.mem_zipIdx_iff_getElem?]
  constructor
  · rintro ⟨b, id, hb, hmem⟩
    split at hmem
    · cases hmem
    · next hne =>
        obtain ⟨pair, hpair, heq⟩ := List.mem_map.mp hmem
        cases heq
        refine ⟨hne, ?_⟩
        rw [FunctionGraph.block, getD_eq_getElem?_getD, hb]
        exact List.mem_zipIdx_iff_getElem?.mp hpair
  · rintro ⟨hne, hparam⟩
    rw [FunctionGraph.block, getD_eq_getElem?_getD] at hparam
    cases hb : (g.pruned marks).blocks[block]? with
    | none =>
      rw [hb] at hparam
      cases hparam
    | some b =>
      rw [hb] at hparam
      refine ⟨b, block, hb, ?_⟩
      rw [if_neg hne]
      exact List.mem_map.mpr ⟨(parameter, component), List.mem_zipIdx_iff_getElem?.mpr hparam, rfl⟩

theorem positions_unique (hg : g.WellFormed) {parameter block component block' component' : Nat}
    (h : (parameter, block, component) ∈ g.positions (g.pruned marks).blocks)
    (h' : (parameter, block', component') ∈ g.positions (g.pruned marks).blocks) :
    (block', component') = (block, component) := by
  have hmem : ((g.pruned marks).block block).parameters[component]? = some parameter := (mem_positions.mp h).2
  have hmem' : ((g.pruned marks).block block').parameters[component']? = some parameter :=
    (mem_positions.mp h').2
  rw [pruned_block] at hmem hmem'
  obtain ⟨c, hc⟩ := List.mem_iff_getElem?.mp (List.mem_filter.mp (mem_of_getElem? hmem)).1
  obtain ⟨c', hc'⟩ := List.mem_iff_getElem?.mp (List.mem_filter.mp (mem_of_getElem? hmem')).1
  have hd := (hg.parameter _ _ _ hc').2
  rw [(hg.parameter _ _ _ hc).2] at hd
  injection hd with hblock _
  subst hblock
  have hnodup : (g.pruneBlock marks block (g.block block)).parameters.Nodup :=
    (hg.parameters_nodup block).filter _
  rw [(List.getElem?_inj (List.getElem?_eq_some_iff.mp hmem').1 hnodup).mp (hmem'.trans hmem.symm)]

/-- Pruning renumbers parameters, and leaves every other value as it is. -/
theorem pruned_value (hg : g.WellFormed) (marks : Marks) (v : Nat) :
    (g.pruned marks).values.value v = g.values.value v ∨
      ∃ block component, block ≠ g.entry ∧
        ((g.pruned marks).block block).parameters[component]? = some v ∧
        (g.pruned marks).values.value v = { g.values.value v with definition := .parameter block component } := by
  by_cases hmem : v ∈ (g.positions (g.pruned marks).blocks).map Prod.fst
  · obtain ⟨⟨parameter, block, component⟩, hentry, hv⟩ := List.mem_map.mp hmem
    obtain rfl : parameter = v := hv
    obtain ⟨hne, hparam⟩ := mem_positions.mp hentry
    have hlt : parameter < g.values.size := by
      rw [pruned_block] at hparam
      obtain ⟨c, hc⟩ := List.mem_iff_getElem?.mp (List.mem_filter.mp (mem_of_getElem? hparam)).1
      exact (hg.parameter _ _ _ hc).1
    refine Or.inr ⟨block, component, hne, hparam, ?_⟩
    refine (foldl_define (x := (block, component)) _ (fun other hother heq => ?_) g.values hlt).trans (if_pos hmem)
    obtain ⟨_, block', component'⟩ := other
    subst heq
    exact positions_unique hg hentry hother
  · refine Or.inl ?_
    by_cases hlt : v < g.values.size
    · refine (foldl_define (x := (0, 0)) _ (fun other hother heq => ?_) g.values hlt).trans (if_neg hmem)
      exact absurd (heq ▸ List.mem_map_of_mem hother) hmem
    · have hsize : (g.pruned marks).values.size = g.values.size := foldl_define_size ..
      have hle : (g.pruned marks).values.size ≤ v := hsize ▸ Nat.not_lt.mp hlt
      exact (List.getD_eq_default _ _ hle).trans (List.getD_eq_default _ _ (Nat.not_lt.mp hlt)).symm

theorem pruned_ty (hg : g.WellFormed) (marks : Marks) (v : Nat) :
    (g.pruned marks).values.ty v = g.values.ty v := by
  rw [ValueTable.ty, ValueTable.ty]
  rcases pruned_value hg marks v with h | ⟨_, _, _, _, h⟩
  · rw [h]
  · rw [h]

/-- Definitions are as they were, up to the positions of parameters. -/
theorem pruned_definition (hg : g.WellFormed) (marks : Marks) (v : Nat) :
    (g.pruned marks).values.definition v = g.values.definition v ∨
      ∃ block component component', g.values.definition v = .parameter block component ∧
        (g.pruned marks).values.definition v = .parameter block component' := by
  rw [ValueTable.definition, ValueTable.definition]
  rcases pruned_value hg marks v with h | ⟨block, component, _, hparam, h⟩
  · exact Or.inl (by rw [h])
  · rw [pruned_block] at hparam
    obtain ⟨c, hc⟩ := List.mem_iff_getElem?.mp (List.mem_filter.mp (mem_of_getElem? hparam)).1
    exact Or.inr ⟨block, c, component, (hg.parameter _ _ _ hc).2, by rw [h]⟩

/-! ## Runs -/

/-- Runs at a block that show the same, with the same live values. -/
structure Agree (g : FunctionGraph) (reachable : Nat → Bool) (marks : Marks) (block : Nat) (x x' : Execution) :
    Prop where
  source : x.block = block
  target : x'.block = block
  history : x'.history = x.history
  env : ∀ value, marks.values value = true → x'.env value = x.env value
  live : block ∈ g.live reachable

/-- The pruned g stops where the g does, except where nobody observes it. -/
inductive Follows (R : Execution → Execution → Prop) : Except Halt Execution → Except Halt Execution → Prop
  | unobserved (y : Except Halt Execution) : Follows R (.error .unobserved) y
  | halt (halt : Halt) : Follows R (.error halt) (.error halt)
  | ok {x x' : Execution} (h : R x x') : Follows R (.ok x) (.ok x')

theorem Follows.bind {R S : Execution → Execution → Prop} {a b : Except Halt Execution}
    {f k : Execution → Except Halt Execution} (h : Follows R a b) (hnext : ∀ x x', R x x' → Follows S (f x) (k x')) :
    Follows S (a >>= f) (b >>= k) := by
  cases h with
  | unobserved y => exact .unobserved _
  | halt halt => exact .halt halt
  | ok h => exact hnext _ _ h

theorem assign_eq_foldl (env f : Nat → Nat) (ids arguments : List Nat) : assign env ids (arguments.map f) =
    (ids.zip arguments).foldl (fun env pair => update env pair.1 (f pair.2)) env := by
  rw [assign, List.zip_map_right, List.foldl_map]
  rfl

/-- Simultaneous assignments agree on live values where the pairs left out name none. -/
theorem foldl_update_filter (keep : Nat → Bool) {f k env env' : Nat → Nat} (l : List (Nat × Nat))
    (hkeep : ∀ v, marks.values v = true → keep v = true)
    (hval : ∀ pair ∈ l, marks.values pair.1 = true → k pair.2 = f pair.2)
    (henv : ∀ v, marks.values v = true → env' v = env v) {v : Nat} (hv : marks.values v = true) :
    (l.filter fun pair => keep pair.1).foldl (fun env pair => update env pair.1 (k pair.2)) env' v =
      l.foldl (fun env pair => update env pair.1 (f pair.2)) env v := by
  induction l generalizing env env' with
  | nil => exact henv v hv
  | cons pair l ih =>
    have hrest := fun other hother => hval other (mem_cons_of_mem pair hother)
    rw [List.filter_cons, List.foldl_cons]
    split
    · refine ih hrest fun w hw => ?_
      dsimp only
      rw [Function.update_apply, Function.update_apply]
      split
      · next heq => exact hval pair mem_cons_self (heq ▸ hw)
      · exact henv w hw
    · next hdrop =>
        refine ih hrest fun w hw => (henv w hw).trans (update_of_ne (fun heq : w = pair.1 => ?_) ..).symm
        exact hdrop (hkeep _ (heq ▸ hw))

theorem assign_agree {env env' : Nat → Nat} (ids values : List Nat)
    (henv : ∀ v, marks.values v = true → env' v = env v) {v : Nat} (hv : marks.values v = true) :
    assign env' ids values v = assign env ids values v := by
  have h := foldl_update_filter (fun _ => true) (f := id) (k := id) (ids.zip values) (fun _ _ => rfl)
    (fun _ _ _ => rfl) henv hv
  rwa [List.filter_true] at h

theorem assign_of_not_mem {env : Nat → Nat} {ids values : List Nat} {v : Nat} (h : v ∉ ids) :
    assign env ids values v = env v := by
  rw [assign]
  induction ids generalizing env values with
  | nil => rfl
  | cons id ids ih =>
    rw [List.mem_cons, not_or] at h
    cases values with
    | nil => rfl
    | cons w values => exact (ih h.2).trans (update_of_ne h.1 ..)

@[simp] theorem mapEdges_selector (f : Edge → Edge) (exit : Exit) : (exit.mapEdges f).selector = exit.selector := by
  cases exit <;> rfl

theorem mapEdges_edges (f : Edge → Edge) (exit : Exit) : (exit.mapEdges f).edges = exit.edges.map f := by
  cases exit with
  | switch selector cases default =>
    simp only [Exit.mapEdges, Exit.edges, List.map_map, List.map_append, List.map_singleton]
    rfl
  | _ => rfl

theorem findIdx_mapEdges (f : Edge → Edge) (cases : List (Nat × Edge)) (bits : Nat) :
    (cases.map fun case => (case.1, f case.2)).findIdx (fun case => case.1 = bits) =
      cases.findIdx fun case => case.1 = bits := List.findIdx_map ..

theorem mapEdges_index (f : Edge → Edge) (exit : Exit) (value : Nat) :
    (exit.mapEdges f).index value = exit.index value := by
  cases exit with
  | switch selector cases default => exact findIdx_mapEdges f cases _
  | _ => rfl

theorem mapEdges_constantEdgeIndex (f : Edge → Edge) (exit : Exit) (t : ValueTable) :
    (exit.mapEdges f).constantEdgeIndex t = exit.constantEdgeIndex t := by
  cases exit with
  | switch selector cases default =>
    exact congrArg (Option.map · (t.scalarLiteral selector)) (funext fun bits => findIdx_mapEdges f cases bits)
  | _ => rfl

theorem constantEdgeIndex_congr {t t' : ValueTable} {exit : Exit} (h : ∀ v, t'.scalarLiteral v = t.scalarLiteral v) :
    exit.constantEdgeIndex t' = exit.constantEdgeIndex t := by
  cases exit with
  | ifElse condition taken otherwise => rw [Exit.constantEdgeIndex, Exit.constantEdgeIndex, h]
  | switch selector cases default => rw [Exit.constantEdgeIndex, Exit.constantEdgeIndex, h]
  | _ => rfl

theorem pruned_scalarLiteral (hg : g.WellFormed) (marks : Marks) (v : Nat) :
    (g.pruned marks).values.scalarLiteral v = g.values.scalarLiteral v := by
  have hty := pruned_ty hg marks v
  have hd := pruned_definition hg marks v
  rw [ValueTable.ty, ValueTable.ty] at hty
  rw [ValueTable.definition, ValueTable.definition] at hd
  rw [ValueTable.scalarLiteral, ValueTable.scalarLiteral, Value.scalarLiteral, Value.scalarLiteral, hty]
  rcases hd with hd | ⟨_, _, _, hd, hd'⟩
  · rw [hd]
  · rw [hd, hd']

section Simulation

variable (hg : g.WellFormed) (hmarks : Live g obs reachable marks [])
  (hclosed : ∀ block ∈ g.live reachable, ∀ target ∈ g.successors block, target ∈ g.live reachable)

include hg

theorem read_agree {env env' : Nat → Nat} {v : Nat} (h : env' v = env v) :
    (g.pruned marks).read env' v = g.read env v := by
  rw [read, read]
  rcases pruned_definition hg marks v with hd | ⟨_, _, _, hd, hd'⟩
  · rw [hd, h]
  · rw [hd, hd', h]

theorem pruned_results (item : BlockItem) : (g.pruned marks).results item = g.results item := by
  cases item with
  | evaluate root =>
    rw [results, results, expressionResults, expressionResults, pruned_ty hg marks]
    rcases pruned_definition hg marks root with hd | ⟨_, _, _, hd, hd'⟩
    · rw [hd]
    · rw [hd, hd']
  | effect effect => rfl

theorem calculate_agree {env env' : Nat → Nat} {root : Nat}
    (h : ∀ input ∈ g.inputs (.evaluate root), env' input = env input) :
    (g.pruned marks).calculate F env' root = g.calculate F env root := by
  have hresults : (g.pruned marks).expressionResults root = g.expressionResults root :=
    pruned_results hg (.evaluate root)
  rw [inputs] at h
  rw [calculate, calculate, hresults]
  rcases pruned_definition hg marks root with hd | ⟨_, _, _, hd, hd'⟩
  · rw [hd]
    cases hroot : g.values.definition root with
    | expression e =>
      rw [hroot] at h
      refine congrArg (fun f => List.mapM f (g.expressionResults root).zipIdx) (funext fun pair => ?_)
      dsimp only
      rw [pruned_ty hg marks, evalExpr_congr_ty fun i _ => pruned_ty hg marks i,
        evalExpr_congr fun i hi => congrArg some (read_agree hg (h i hi))]
    | _ => rfl
  · rw [hd, hd']

include hmarks

/-- A live item finds its operands. -/
theorem perform_live {block : Nat} {x x' : Execution} (h : Agree g reachable marks block x x') {item : BlockItem}
    (hlive : marks.item item = true) :
    Follows (Agree g reachable marks block) (g.perform F answers obs x item)
      ((g.pruned marks).perform F answers obs x' item) := by
  have hinput : ∀ input ∈ g.inputs item, x'.env input = x.env input := fun input hi =>
    h.env input ((hmarks.inputs item hlive input hi).resolve_right not_mem_nil)
  have hassign : ∀ values v, marks.values v = true →
      assign x'.env ((g.pruned marks).results item) values v = assign x.env (g.results item) values v := by
    intro values v hv
    rw [pruned_results hg]
    exact assign_agree _ _ h.env hv
  cases item with
  | evaluate root =>
    rw [perform, perform, calculate_agree hg hinput]
    cases g.calculate F x.env root with
    | none => exact .unobserved _
    | some values => exact .ok ⟨h.source, h.target, h.history, hassign values, h.live⟩
  | effect effect =>
    have hops : (g.effect effect).operation.inputs.map ((g.pruned marks).read x'.env) =
        (g.effect effect).operation.inputs.map (g.read x.env) :=
      map_congr_left fun input hi => read_agree hg (hinput input hi)
    rw [perform, perform]
    rw [show (g.pruned marks).effect effect = g.effect effect from rfl, hops, h.history]
    cases answers x.history (g.effect effect).operation.kind
        ((g.effect effect).operation.inputs.map (g.read x.env)) with
    | none => exact .halt _
    | some values => exact .ok ⟨h.source, h.target, rfl, hassign values, h.live⟩

/-- Nobody misses an item that is not live. -/
theorem perform_dead {block : Nat} {x x' : Execution} (h : Agree g reachable marks block x x') {item : BlockItem}
    (hitem : item ∈ (g.block block).items) (hdead : marks.item item = false) :
    Follows (Agree g reachable marks block) (g.perform F answers obs x item) (.ok x') := by
  have hresult : ∀ v, marks.values v = true → v ∉ g.results item := by
    intro v hv hmem
    have := hmarks.producer v hv item (hg.result block item hitem v hmem)
    rw [hdead] at this
    cases this
  have henv : ∀ values v, marks.values v = true → x'.env v = assign x.env (g.results item) values v :=
    fun values v hv => (h.env v hv).trans (assign_of_not_mem (hresult v hv)).symm
  cases item with
  | evaluate root =>
    rw [perform]
    split
    · exact .ok ⟨h.source, h.target, h.history, henv _, h.live⟩
    · exact .unobserved _
  | effect effect =>
    have hobs : obs (g.effect effect).operation = false := by
      rw [Bool.eq_false_iff]
      intro hobs
      have := hmarks.observed _ (firstMarks_of_mem h.live hitem hobs)
      rw [hdead] at this
      cases this
    rw [perform, hobs, if_neg Bool.false_ne_true, if_neg Bool.false_ne_true]
    split
    · exact .ok ⟨h.source, h.target, h.history, henv _, h.live⟩
    · exact .unobserved _

theorem foldlM_perform {block : Nat} (items : List BlockItem)
    (hitems : ∀ item ∈ items, item ∈ (g.block block).items) {x x' : Execution}
    (h : Agree g reachable marks block x x') :
    Follows (Agree g reachable marks block) (items.foldlM (g.perform F answers obs) x)
      ((items.filter marks.item).foldlM ((g.pruned marks).perform F answers obs) x') := by
  induction items generalizing x x' with
  | nil => exact .ok h
  | cons item items ih =>
    have hrest := fun other hother => hitems other (mem_cons_of_mem item hother)
    rw [List.foldlM_cons, List.filter_cons]
    split
    · next hlive =>
        rw [List.foldlM_cons]
        exact (perform_live hg hmarks h hlive).bind fun y y' h' => ih hrest h'
    · next hdead =>
        exact (perform_dead hg hmarks h (hitems item mem_cons_self)
          (Bool.eq_false_iff.mpr hdead)).bind (k := fun y' => (items.filter marks.item).foldlM
            ((g.pruned marks).perform F answers obs) y') fun y y' h' => ih hrest h'

omit hg hmarks in
/-- A value selects an executable edge. -/
theorem mem_outgoing_of_index {block : Nat} {env : Nat → Nat} {edge : Edge}
    (h : (g.block block).exit.edges[(g.block block).exit.index
      (((g.block block).exit.selector.map (g.read env)).getD 0)]? = some edge) :
    edge ∈ g.outgoing block := by
  rw [outgoing]
  generalize (g.block block).exit = exit at h
  have hliteral : ∀ v bits, g.values.scalarLiteral v = some bits → bits = g.read env v % 2 ^ 64 := by
    intro v bits hbits
    rw [ValueTable.scalarLiteral, Value.scalarLiteral] at hbits
    split at hbits
    · next value heq =>
        rw [read, ValueTable.definition, heq]
        rw [Literal.scalar] at hbits
        split at hbits
        · exact (Option.some.inj hbits).symm
        · cases hbits
    · cases hbits
  split
  · next index hindex =>
      suffices hsame : index = exit.index ((exit.selector.map (g.read env)).getD 0) by
        rw [hsame, h]
        exact mem_singleton_self _
      cases exit with
      | ifElse condition taken otherwise =>
        obtain ⟨bits, hbits, rfl⟩ := Option.map_eq_some_iff.mp hindex
        rw [hliteral condition bits hbits]
        rfl
      | switch selector cases default =>
        obtain ⟨bits, hbits, rfl⟩ := Option.map_eq_some_iff.mp hindex
        rw [hliteral selector bits hbits]
        rfl
      | _ => cases hindex
  · exact mem_of_getElem? h

include hclosed

/-- Along an executable edge, live parameters receive the same arguments. -/
theorem follow_agree {block : Nat} {x x' : Execution} (h : Agree g reachable marks block x x') {edge : Edge}
    (hedge : edge ∈ g.outgoing block) : Agree g reachable marks edge.target (g.follow x edge)
      ((g.pruned marks).follow x' (g.trim marks edge)) := by
  refine ⟨rfl, rfl, congrArg (List.cons (Event.enter edge.target)) h.history, fun v hv => ?_,
    hclosed block h.live _ (List.mem_map_of_mem hedge)⟩
  have hparams : ((g.pruned marks).block edge.target).parameters =
      (((g.block edge.target).parameters.zip edge.arguments).filter fun pair =>
        g.keep marks edge.target pair.1).map Prod.fst := by
    rw [pruned_block, pruneBlock]
    conv_lhs => rw [← List.map_fst_zip (Nat.le_of_eq (hg.arity block edge (mem_outgoing hedge)).symm)]
    exact List.filter_map ..
  show assign x'.env ((g.pruned marks).block edge.target).parameters
    ((g.trim marks edge).arguments.map ((g.pruned marks).read x'.env)) v =
      assign x.env (g.block edge.target).parameters (edge.arguments.map (g.read x.env)) v
  rw [assign_eq_foldl, assign_eq_foldl, hparams, trim, List.zip_map', List.map_id']
  refine foldl_update_filter _ _ (fun w hw => ?_) (fun pair hpair hlive => read_agree hg (h.env _ ?_)) h.env hv
  · rw [keep, hw, Bool.or_true]
  · have hparam := List.mem_iff_getElem?.mp (List.of_mem_zip hpair).1
    obtain ⟨component, hcomponent⟩ := hparam
    refine (hmarks.arguments pair.1 hlive _ _ (hg.parameter _ _ _ hcomponent).2 pair.2 ?_).resolve_right
      not_mem_nil
    exact List.mem_flatMap.mpr ⟨block, h.live, List.mem_flatMap.mpr ⟨edge, hedge,
      List.mem_map.mpr ⟨pair, List.mem_filter.mpr ⟨hpair, decide_eq_true rfl⟩, rfl⟩⟩⟩

theorem branch_agree {block : Nat} {x x' : Execution} (h : Agree g reachable marks block x x')
    (hdemands : (g.block block).exit.demands = (g.block block).exit.selector.toList) :
    Follows (fun x x' => ∃ block, Agree g reachable marks block x x') (g.branch x (g.block block).exit)
      ((g.pruned marks).branch x' ((g.block block).exit.mapEdges (g.trim marks))) := by
  have hsel : (g.block block).exit.selector.map ((g.pruned marks).read x'.env) =
      (g.block block).exit.selector.map (g.read x.env) := by
    cases hexit : (g.block block).exit.selector with
    | none => rfl
    | some v =>
      refine congrArg some (read_agree hg (h.env v ((hmarks.root v ?_).resolve_right not_mem_nil)))
      refine List.mem_flatMap.mpr ⟨block, h.live, mem_append_left _ ?_⟩
      rw [hdemands, hexit]
      exact mem_singleton_self v
  have hconst : ((g.block block).exit.mapEdges (g.trim marks)).constantEdgeIndex (g.pruned marks).values =
      (g.block block).exit.constantEdgeIndex g.values := by
    rw [mapEdges_constantEdgeIndex]
    exact constantEdgeIndex_congr (pruned_scalarLiteral hg marks)
  rw [branch, branch, mapEdges_selector, mapEdges_index, mapEdges_edges, hsel, hconst, List.getElem?_map]
  cases hedge : (g.block block).exit.edges[(g.block block).exit.index
      (((g.block block).exit.selector.map (g.read x.env)).getD 0)]? with
  | none => exact .unobserved _
  | some edge =>
    let shown := (if ((g.block block).exit.constantEdgeIndex g.values).isSome then none
      else (g.block block).exit.selector.map (g.read x.env)).map Event.branch
    have hshown : Agree g reachable marks block { x with history := shown.toList ++ x.history }
        { x' with history := shown.toList ++ x'.history } :=
      ⟨h.source, h.target, congrArg (shown.toList ++ ·) h.history, h.env, h.live⟩
    exact .ok ⟨edge.target, follow_agree hg hmarks hclosed hshown (mem_outgoing_of_index hedge)⟩

/-- Exits read live values, and leave along the same edge. -/
theorem leave_agree {block : Nat} {x x' : Execution} (h : Agree g reachable marks block x x') :
    Follows (fun x x' => ∃ block, Agree g reachable marks block x x') (g.leave x (g.block block).exit)
      ((g.pruned marks).leave x' ((g.block block).exit.mapEdges (g.trim marks))) := by
  have hread : ∀ v ∈ (g.block block).exit.demands, (g.pruned marks).read x'.env v = g.read x.env v :=
    fun v hv => read_agree hg (h.env v ((hmarks.root v (List.mem_flatMap.mpr
      ⟨block, h.live, mem_append_left _ hv⟩)).resolve_right not_mem_nil))
  have hbranch := branch_agree hg hmarks hclosed h
  generalize (g.block block).exit = exit at hread hbranch ⊢
  cases exit with
  | openEnd =>
    show Follows _ (g.leave x .openEnd) ((g.pruned marks).leave x' .openEnd)
    rw [leave, leave, h.history]
    exact .halt _
  | trap =>
    show Follows _ (g.leave x .trap) ((g.pruned marks).leave x' .trap)
    rw [leave, leave, h.history]
    exact .halt _
  | ret values =>
    have hvals : values.map ((g.pruned marks).read x'.env) = values.map (g.read x.env) :=
      map_congr_left hread
    show Follows _ (g.leave x (.ret values)) ((g.pruned marks).leave x' (.ret values))
    rw [leave, leave, h.history, hvals]
    exact .halt _
  | tailCall target arguments =>
    have hvals : arguments.map ((g.pruned marks).read x'.env) = arguments.map (g.read x.env) :=
      map_congr_left hread
    show Follows _ (g.leave x (.tailCall target arguments)) ((g.pruned marks).leave x' (.tailCall target arguments))
    rw [leave, leave, h.history, hvals]
    exact .halt _
  | tailCallIndirect table slot arguments =>
    have hvals : arguments.map ((g.pruned marks).read x'.env) = arguments.map (g.read x.env) :=
      map_congr_left fun v hv => hread v (mem_append_left _ hv)
    show Follows _ (g.leave x (.tailCallIndirect table slot arguments))
      ((g.pruned marks).leave x' (.tailCallIndirect table slot arguments))
    rw [leave, leave, h.history, hread slot (List.mem_append_right _ (mem_singleton_self slot)), hvals]
    exact .halt _
  | jump edge => exact hbranch rfl
  | ifElse condition taken otherwise => exact hbranch rfl
  | switch selector cases default => exact hbranch rfl

theorem run_agree (F : Floating) (answers : Answers) (n : Nat) {block : Nat} {x x' : Execution}
    (h : Agree g reachable marks block x x') :
    Follows (fun x x' => ∃ block, Agree g reachable marks block x x') (g.run F answers obs n x)
      ((g.pruned marks).run F answers obs n x') := by
  induction n generalizing block x x' with
  | zero => exact .ok ⟨block, h⟩
  | succ n ih =>
    rw [run, run]
    refine Follows.bind (R := fun x x' => ∃ block, Agree g reachable marks block x x') ?_
      fun y y' ⟨block', h'⟩ => ih h'
    rw [step, step, h.source, h.target, show ((g.pruned marks).block block).items =
      (g.block block).items.filter marks.item by rw [pruned_block]; rfl]
    refine (foldlM_perform hg hmarks _ (fun _ hitem => hitem) h).bind fun y y' h' => ?_
    rw [h'.source, h'.target, pruned_block]
    exact leave_agree hg hmarks hclosed h'

end Simulation

/-- Pruning keeps every run. The loops end, and a run of the pruned g enters the same blocks, branches on the same
    values, executes the same obs operations with the same operands and ends with the same values as the run of
    the g, unless that one traps where nobody observes it. -/
theorem pruneUnused_runs (hg : g.WellFormed) (obs : Operation → Bool) :
    ∃ reachable pruned n, (∀ m, n ≤ m → g.reachable m = some reachable ∧
        g.pruneUnused obs m reachable = some pruned) ∧
      (pruned.block pruned.entry).parameters = (g.block g.entry).parameters ∧
      ∀ F answers k arguments, g.run F answers obs k (g.start arguments) ≠ .error .unobserved →
        (pruned.run F answers obs k (pruned.start arguments)).map Execution.shown =
          (g.run F answers obs k (g.start arguments)).map Execution.shown := by
  obtain ⟨reachable, hreachable, n, hn⟩ := reachable_spec hg
  obtain ⟨marks, hmarks, -, n', hn'⟩ := marks_spec hg obs reachable
  have hlive : ∀ block, block ∈ g.live reachable ↔ Reachable g.successors g.entry block := by
    intro block
    rw [live, List.mem_filter, List.mem_range, hreachable]
    exact and_iff_right_of_imp hg.lt_of_reachable
  have hparams : ((g.pruned marks).block g.entry).parameters = (g.block g.entry).parameters := by
    rw [pruned_block]
    refine List.filter_eq_self.mpr fun parameter _ => ?_
    rw [keep, decide_eq_true rfl, Bool.true_or]
  refine ⟨reachable, g.pruned marks, max n n', fun m hm => ⟨hn m (by omega), ?_⟩, hparams,
    fun F answers k arguments hrun => ?_⟩
  · rw [pruneUnused, hn' m (by omega)]
    rfl
  · have hstart : Agree g reachable marks g.entry (g.start arguments)
        ((g.pruned marks).start arguments) :=
      ⟨rfl, rfl, rfl, fun v _ => by
        show assign _ ((g.pruned marks).block g.entry).parameters arguments v = _
        rw [hparams]
        rfl, (hlive _).mpr Reachable.refl⟩
    have hfollows := run_agree hg hmarks
      (fun block hblock target htarget => (hlive target).mpr (((hlive block).mp hblock).step htarget)) F answers k hstart
    generalize g.run F answers obs k (g.start arguments) = y at hrun hfollows ⊢
    generalize (g.pruned marks).run F answers obs k ((g.pruned marks).start arguments) = y' at hfollows ⊢
    cases hfollows with
    | unobserved y => exact absurd rfl hrun
    | halt halt => rfl
    | ok h =>
        obtain ⟨block, h⟩ := h
        show Except.ok _ = Except.ok _
        rw [Execution.shown, Execution.shown, h.source, h.target, h.history]

def storesOnly (operation : Operation) : Bool :=
  match operation.kind with
  | .store _ => true
  | _ => false

/-- A store and a branch past a trap, beside a load, a calculation and the parameter that receives it, which nothing
    reads. -/
def idleGraph : FunctionGraph where
  values := ⟨[⟨.i32, .parameter 0 0⟩, ⟨.i32, .expression (.binary (.integer .add) 0 0)⟩,
    ⟨.i32, .expression (.binary (.integer .add) 1 0)⟩, ⟨.i32, .parameter 1 0⟩, ⟨.i32, .parameter 1 1⟩,
    ⟨.i32, .result (.effect 0) 0⟩], [], []⟩
  effects := [⟨[5], ⟨.load ⟨0, 0, 4⟩, [0]⟩⟩, ⟨[], ⟨.store ⟨0, 0, 4⟩, [0, 1]⟩⟩]
  blocks := [⟨[0], [.evaluate 1, .evaluate 2, .effect 0, .effect 1], [], .ifElse 0 ⟨1, [1, 2]⟩ ⟨2, []⟩⟩,
    ⟨[3, 4], [], [], .ret [3]⟩, ⟨[], [], [], .trap⟩]
  layout := [.ifElse 0 [.block 1] [.block 2] 2]
  entry := 0

theorem idleGraph_wellFormed : idleGraph.WellFormed where
  entry := by decide
  target := by
    rintro (_ | _ | _ | _)
    iterate 3 decide
    exact forall_mem_nil _
  arity := by
    rintro (_ | _ | _ | _)
    iterate 3 decide
    exact forall_mem_nil _
  parameter := by
    rintro (_ | _ | _ | _) (_ | _ | _) parameter h <;> cases h
    all_goals decide
  result := by
    rintro (_ | _ | _ | _)
    iterate 3 decide
    exact forall_mem_nil _
  demands := by
    rintro (_ | _ | _ | _)
    iterate 3 decide
    exact forall_mem_nil _
  arguments := by
    rintro (_ | _ | _ | _)
    iterate 3 decide
    exact forall_mem_nil _
  inputs := by
    rintro (root | effect)
    · rcases root with _ | _ | _ | _ | _ | _ | root
      iterate 6 decide
      exact forall_mem_nil _
    · rcases effect with _ | _ | effect
      iterate 2 decide
      exact forall_mem_nil _

theorem pruneUnused_runs_idle : ∃ reachable pruned n, (∀ m, n ≤ m → idleGraph.reachable m = some reachable ∧
      idleGraph.pruneUnused storesOnly m reachable = some pruned) ∧
    (pruned.block pruned.entry).parameters = [0] ∧
    ∀ F answers k arguments, idleGraph.run F answers storesOnly k (idleGraph.start arguments) ≠ .error .unobserved →
      (pruned.run F answers storesOnly k (pruned.start arguments)).map Execution.shown =
        (idleGraph.run F answers storesOnly k (idleGraph.start arguments)).map Execution.shown :=
  pruneUnused_runs idleGraph_wellFormed _

/-- Pruning keeps exactly what is needed: an item that produces a needed value or is observed in a reached block, and a
    parameter that is needed or belongs to the signature. -/
theorem pruneUnused_exact (hg : g.WellFormed) (obs : Operation → Bool) :
    ∃ reachable pruned n, (∀ m, n ≤ m → g.reachable m = some reachable ∧
        g.pruneUnused obs m reachable = some pruned) ∧
      (∀ block, reachable block = true ↔ Reachable g.successors g.entry block) ∧
      ∀ block, (∀ item, item ∈ (pruned.block block).items ↔ item ∈ (g.block block).items ∧
          ((∃ value, Needed g obs reachable value ∧ g.producerOf value = some item) ∨
            g.observed obs item = true ∧ ∃ other ∈ g.live reachable, item ∈ (g.block other).items)) ∧
        ∀ parameter, parameter ∈ (pruned.block block).parameters ↔ parameter ∈ (g.block block).parameters ∧
          (block = g.entry ∨ Needed g obs reachable parameter) := by
  obtain ⟨reachable, hreachable, n, hn⟩ := reachable_spec hg
  obtain ⟨marks, hmarks, hneeded, n', hn'⟩ := marks_spec hg obs reachable
  refine ⟨reachable, g.pruned marks, max n n', fun m hm => ⟨hn m (by omega), ?_⟩, hreachable, fun block =>
    ⟨fun item => ?_, fun parameter => ?_⟩⟩
  · rw [pruneUnused, hn' m (by omega)]
    rfl
  · rw [pruned_block, pruneBlock, List.mem_filter]
    refine and_congr_right fun _ => ⟨fun h => ?_, ?_⟩
    · rcases hmarks.used item h with h | ⟨value, hvalue, h⟩
      · obtain ⟨other, hother, hitem, hobserved⟩ := firstMarks_item h
        exact Or.inr ⟨hobserved, other, hother, hitem⟩
      · exact Or.inl ⟨value, (hneeded value).mp hvalue, h⟩
    · rintro (⟨value, hvalue, h⟩ | ⟨hobserved, other, hother, hitem⟩)
      · exact hmarks.producer value ((hneeded value).mpr hvalue) item h
      · exact hmarks.observed item (firstMarks_of_mem hother hitem hobserved)
  · rw [pruned_block, pruneBlock, List.mem_filter, keep, Bool.or_eq_true, decide_eq_true_iff, hneeded]

/-- The store and what it and the return read stay, and nothing else does. -/
theorem pruneUnused_exact_idle : ∃ reachable pruned n, (∀ m, n ≤ m → idleGraph.reachable m = some reachable ∧
    idleGraph.pruneUnused storesOnly m reachable = some pruned) ∧
    (∀ item, item ∈ (pruned.block 0).items ↔ item = .evaluate 1 ∨ item = .effect 1) ∧
    ∀ parameter, parameter ∈ (pruned.block 1).parameters ↔ parameter = 3 := by
  obtain ⟨reachable, pruned, n, hends, hreachable, hexact⟩ := pruneUnused_exact idleGraph_wellFormed storesOnly
  have hlive : idleGraph.live reachable = [0, 1, 2] := by
    have h0 : reachable 0 = true := (hreachable 0).mpr Reachable.refl
    have h1 : reachable 1 = true := (hreachable 1).mpr (Reachable.step Reachable.refl (by decide))
    have h2 : reachable 2 = true := (hreachable 2).mpr (Reachable.step Reachable.refl (by decide))
    show [0, 1, 2].filter reachable = [0, 1, 2]
    simp [h0, h1, h2]
  have hroots : ∀ value ∈ idleGraph.roots storesOnly reachable, value ∈ [0, 1, 3] := by
    rw [roots, hlive]
    decide
  have hroot : ∀ value ∈ [0, 1, 3], value ∈ idleGraph.roots storesOnly reachable := by
    rw [roots, hlive]
    decide
  have hneeded : ∀ value, Needed idleGraph storesOnly reachable value → value ∈ [0, 1, 3] := by
    intro value h
    induction h with
    | root h => exact hroots _ h
    | @input value input item _ hitem hinput ih =>
      have hinputs : ∀ value ∈ [0, 1, 3], ∀ item ∈ (idleGraph.producerOf value).toList,
          ∀ input ∈ idleGraph.inputs item, input ∈ [0, 1, 3] := by decide
      exact hinputs value ih item (by rw [hitem]; exact mem_singleton_self item) input hinput
    | @argument value argument _ _ _ _ hargument ih =>
      have harguments : ∀ value ∈ [0, 1, 3], ∀ argument ∈ idleGraph.incoming reachable value, argument ∈ [0, 1, 3] := by
        simp only [incoming, hlive]
        decide
      exact harguments value ih argument hargument
  refine ⟨reachable, pruned, n, hends, fun item => ?_, fun parameter => ?_⟩
  · have hproduced : ∀ value ∈ [0, 1, 3], ∀ item ∈ (idleGraph.producerOf value).toList, item = .evaluate 1 := by decide
    have hobserved : ∀ item ∈ (idleGraph.block 0).items, idleGraph.observed storesOnly item = true →
        item = .effect 1 := by decide
    rw [(hexact 0).1]
    constructor
    · rintro ⟨hitem, ⟨value, hvalue, hproducer⟩ | ⟨h, -⟩⟩
      · exact Or.inl (hproduced value (hneeded value hvalue) item (by rw [hproducer]; exact mem_singleton_self item))
      · exact Or.inr (hobserved item hitem h)
    · rintro (rfl | rfl)
      · exact ⟨by decide, Or.inl ⟨1, .root (hroot 1 (by decide)), rfl⟩⟩
      · exact ⟨by decide, Or.inr ⟨rfl, 0, by rw [hlive]; decide, by decide⟩⟩
  · have hparameters : ∀ parameter ∈ (idleGraph.block 1).parameters, parameter ∈ [0, 1, 3] → parameter = 3 := by decide
    rw [(hexact 1).2]
    constructor
    · rintro ⟨hparameter, hentry | h⟩
      · exact absurd hentry (by decide)
      · exact hparameters parameter hparameter (hneeded parameter h)
    · rintro rfl
      exact ⟨by decide, Or.inr (.root (hroot 3 (by decide)))⟩

end FunctionGraph

end Relocade.Compiler
