import Mathlib.Data.List.Nodup
import Relocade.Compiler.Emit.Lanes

/-!
# `Compiler.Emit.View` — operand-stack coverage

Coverage references the placed graph rather than copying code. A backward cursor covers producers that stand directly
before their only consumer; their results stay on the operand stack, and every other result goes through its local.
-/

namespace Relocade.Compiler.Emit

open Function (update update_self update_of_ne)
open List (map_cons mem_cons_self mem_cons_of_mem flatMap_cons count_append nodup_append foldl_cons)

/-! ## Operands and results after selection -/

namespace Selection

/-- The ordered inputs; a store's payload is the last. -/
def inputs (selection : Selection) (graph : FunctionGraph) (producer : BlockItem) : List Nat :=
  let store :=
    match producer with
    | .effect effect =>
        match selection.memory effect with
        | some (.store store) => some store.value
        | _ => none
    | .evaluate _ => none
  let inputs := graph.inputs producer
  inputs.dropLast ++ (inputs.getLast?.map fun input => store.getD input).toList

/-- The operation selected for the placed consumers. Its results are a prefix of the original results. -/
def expression (selection : Selection) (graph : FunctionGraph) (value : Nat) : Expression Ty :=
  match graph.values.definition value with
  | .expression e =>
      match e.map graph.values.ty with
      | .unary (.lowBits bits) input =>
          -- Masking and sign extension agree on zero, and no other use observes this value.
          if selection.zeroTestMasks value then
            .unary (.signExtend (graph.values.ty value)) (graph.values.ty value)
          else .unary (.lowBits bits) input
      | .multiplyWide isSigned left right =>
          -- Signed and unsigned multiplication have the same low half.
          if selection.uses (value + 1) = 0 then .binary (.integer .mul) left right
          else .multiplyWide isSigned left right
      | e => e
  | _ => .unary .convert .i32

/-- The results; a covering load gives its own instead. -/
def results (selection : Selection) (graph : FunctionGraph) (producer : BlockItem) : List Nat :=
  let replacement :=
    match producer with
    | .effect effect =>
        match selection.memory effect with
        | some (.load load) => some load.result
        | _ => none
    | .evaluate _ => none
  let count :=
    match producer with
    | .evaluate value => ((selection.expression graph value).resultTypes (graph.values.ty value)).length
    | .effect _ => (graph.results producer).length
  replacement.toList ++ ((graph.results producer).take count).filter fun _ => replacement.isNone

/-- The value that a condition tests, and whether the test is inverted. -/
def condition (selection : Selection) (graph : FunctionGraph) (value : Nat) (inverted : Bool) : Nat × Bool :=
  if selection.skipped value then
    match graph.values.definition value with
    | .expression (.unary (.zeroTest nonzero) input) => (selection.resolve input, inverted ^^ !nonzero)
    | _ => (selection.resolve value, inverted)
  else (selection.resolve value, inverted)

/-- What an exit reads. -/
def exitUses (selection : Selection) (graph : FunctionGraph) : Exit → List Nat
  | .ifElse condition taken otherwise =>
      (selection.condition graph condition false).1 ::
        (taken.arguments ++ otherwise.arguments).map selection.resolve
  | exit => exit.inputs.map selection.resolve

/-- What an exit reads before control is transferred. -/
def exitInputs (selection : Selection) (graph : FunctionGraph) : Exit → List Nat
  | .ifElse condition _ _ => [(selection.condition graph condition false).1]
  | .switch selector _ _ => [selector]
  | exit => exit.inputs

end Selection

/-- What an exit reads after control is transferred. -/
def exitArguments (exit : Exit) : List Nat :=
  match exit with
  | .ifElse _ taken otherwise => taken.arguments ++ otherwise.arguments
  | .switch _ cases default => (cases.map Prod.snd ++ [default]).flatMap Edge.arguments
  | _ => []

/-! ## The view -/

structure OperandView where
  producer : Nat → Option BlockItem
  inline : BlockItem → Bool
  uses : Nat → Nat

namespace OperandView

variable (graph : FunctionGraph) (selection : Selection)

/-- The enabled items of a block. -/
def items (block : Nat) : List BlockItem := (graph.block block).items.filter selection.enabled

/-- Producers and uses, before anything is covered. -/
def start (blocks : List Nat) : OperandView where
  producer :=
    (blocks.flatMap (items graph selection)).foldl (fun producer item =>
      (selection.results graph item).foldl (fun producer result =>
        update producer result (some item)) producer) fun _ => none
  inline := fun _ => false
  uses :=
    (blocks.flatMap fun block =>
      (items graph selection block).flatMap (fun item => (selection.inputs graph item).map selection.resolve) ++
        selection.exitUses graph (graph.block block).exit).foldl countUse fun _ => 0

/-- Cover producers that stand directly before the cursor. The items before the cursor come last first, and so do the
    operands that are pending; every step takes one of them. -/
def coverWithin : Nat → OperandView → List BlockItem → List Nat → OperandView × List BlockItem
  | 0, view, before, _ => (view, before)
  | _ + 1, view, before, [] => (view, before)
  | n + 1, view, before, input :: pending =>
      match view.producer (selection.resolve input) with
      | none => coverWithin n view before pending
      | some producer =>
          if before.head? ≠ some producer ∨ view.uses (selection.resolve input) ≠ 1 ∨
              (selection.results graph producer).length ≠ 1 then
            coverWithin n view before pending
          else
            coverWithin n { view with inline := update view.inline producer true } before.tail
              ((selection.inputs graph producer).reverse ++ pending)

/-- As many steps as there can be. -/
def coverSteps (before : List BlockItem) (pending : List Nat) : Nat :=
  pending.length + (before.map fun item => (selection.inputs graph item).length).sum

def cover (view : OperandView) (before : List BlockItem) (operands : List Nat) : OperandView :=
  (coverWithin graph selection (coverSteps graph selection before operands.reverse) view before operands.reverse).1

/-- Cover the operands of every item that is not covered itself, the last item first. -/
def coverItems (view : OperandView) : List BlockItem → OperandView
  | [] => view
  | item :: before =>
      coverItems (if view.inline item then view else cover graph selection view before (selection.inputs graph item))
        before

def coverBlock (view : OperandView) (block : Nat) : OperandView :=
  let items := (items graph selection block).reverse
  coverItems graph selection
    (cover graph selection view items (selection.exitInputs graph (graph.block block).exit)) items

def new (reachable : Nat → Bool) : OperandView :=
  let blocks := (List.range graph.blocks.length).filter reachable
  blocks.foldl (coverBlock graph selection) (start graph selection blocks)

/-! ## What the cursor passes -/

/-- A run of the cursor over the items before it and the operands that are pending: the resolved operands that it keeps,
    the items that it covers, and those that it leaves. -/
inductive Covers (producer : Nat → Option BlockItem) (uses : Nat → Nat) :
    List BlockItem → List Nat → List Nat → List BlockItem → List BlockItem → Prop
  | done (before : List BlockItem) : Covers producer uses before [] [] [] before
  | keep {before covered rest : List BlockItem} {pending kept : List Nat} (input : Nat)
      (h : Covers producer uses before pending kept covered rest) :
      Covers producer uses before (input :: pending) (selection.resolve input :: kept) covered rest
  | take {before covered rest : List BlockItem} {pending kept : List Nat} {input : Nat} {item : BlockItem}
      (hproducer : producer (selection.resolve input) = some item) (huses : uses (selection.resolve input) = 1)
      (hsingle : (selection.results graph item).length = 1)
      (h : Covers producer uses before ((selection.inputs graph item).reverse ++ pending) kept covered rest) :
      Covers producer uses (item :: before) (input :: pending) kept (item :: covered) rest

/-- A view with more items covered. -/
structure Marks (view view' : OperandView) (covered : List BlockItem) : Prop where
  producer : view'.producer = view.producer
  uses : view'.uses = view.uses
  inline : ∀ item, view'.inline item = true ↔ view.inline item = true ∨ item ∈ covered

variable {g : FunctionGraph} {s : Selection} {producer : Nat → Option BlockItem} {uses : Nat → Nat}
  {view view' view'' : OperandView} {before covered rest : List BlockItem} {pending kept : List Nat}

theorem Marks.refl (view : OperandView) : Marks view view [] :=
  ⟨rfl, rfl, fun _ => (or_iff_left List.not_mem_nil).symm⟩

theorem Marks.trans {covered' : List BlockItem} (h : Marks view view' covered) (h' : Marks view' view'' covered') :
    Marks view view'' (covered ++ covered') :=
  ⟨h'.producer.trans h.producer, h'.uses.trans h.uses, fun item => by
    rw [h'.inline, h.inline, List.mem_append, or_assoc]⟩

theorem coverSteps_take (g : FunctionGraph) (s : Selection) (item : BlockItem) (before : List BlockItem)
    (pending : List Nat) : coverSteps g s before ((s.inputs g item).reverse ++ pending) =
      coverSteps g s (item :: before) pending := by
  rw [coverSteps, coverSteps, List.length_append, List.length_reverse, map_cons, List.sum_cons]
  omega

theorem coverWithin_covers (view : OperandView) {n : Nat} (hn : coverSteps g s before pending ≤ n) :
    ∃ kept covered, Covers g s view.producer view.uses before pending kept covered
        (coverWithin g s n view before pending).2 ∧
      Marks view (coverWithin g s n view before pending).1 covered := by
  induction n generalizing view before pending with
  | zero =>
    obtain rfl : pending = [] := List.length_eq_zero_iff.mp (by rw [coverSteps] at hn; omega)
    exact ⟨[], [], .done before, Marks.refl view⟩
  | succ n ih =>
    cases pending with
    | nil => exact ⟨[], [], .done before, Marks.refl view⟩
    | cons input pending =>
      have hfewer : coverSteps g s before pending ≤ n := by
        rw [coverSteps, List.length_cons] at hn
        rw [coverSteps]
        omega
      obtain ⟨kept, covered, hcov, hmarks⟩ := ih view hfewer
      rw [coverWithin]
      split
      · exact ⟨_, covered, .keep input hcov, hmarks⟩
      · next item hprod =>
          split
          · exact ⟨_, covered, .keep input hcov, hmarks⟩
          · next htake =>
              push Not at htake
              obtain ⟨hhead, huses, hsingle⟩ := htake
              obtain ⟨before, rfl⟩ := List.head?_eq_some_iff.mp hhead
              have hsteps : coverSteps g s before
                  ((s.inputs g item).reverse ++ pending) ≤ n := by
                rw [coverSteps_take]
                exact hfewer
              obtain ⟨kept', covered', hcov', hmarks'⟩ := ih
                { view with inline := update view.inline item true } hsteps
              refine ⟨kept', item :: covered', .take hprod huses hsingle hcov', hmarks'.producer,
                hmarks'.uses,
                fun other => ?_⟩
              rw [List.tail_cons, hmarks'.inline, List.mem_cons]
              dsimp only
              by_cases heq : other = item
              · rw [heq, update_self]
                simp
              · rw [update_of_ne heq]
                simp only [heq, false_or]

theorem cover_covers (g : FunctionGraph) (s : Selection) (view : OperandView) (before : List BlockItem)
    (operands : List Nat) :
    ∃ kept covered rest, Covers g s view.producer view.uses before operands.reverse kept covered rest ∧
      Marks view (cover g s view before operands) covered := by
  obtain ⟨kept, covered, hcov, hmarks⟩ := coverWithin_covers view
    (Nat.le_refl (coverSteps g s before operands.reverse))
  exact ⟨kept, covered, _, hcov, hmarks⟩

section

variable (h : Covers g s producer uses before pending kept covered rest)

include h

/-- What is covered is what the cursor passes. -/
theorem Covers.before_eq : before = covered ++ rest := by
  induction h with
  | done before => rfl
  | keep input _ ih => exact ih
  | take _ _ _ _ ih => rw [ih, List.cons_append]

/-- What is pending is kept or covered. -/
theorem Covers.pending_mem {input : Nat}
    (hin : input ∈ pending) : s.resolve input ∈ kept ∨
      ∃ item ∈ covered, producer (s.resolve input) = some item := by
  induction h with
  | done before => cases hin
  | keep other _ ih =>
    rcases List.mem_cons.mp hin with rfl | hin
    · exact Or.inl mem_cons_self
    · exact (ih hin).imp_left (mem_cons_of_mem _)
  | take hprod _ _ _ ih =>
    rcases List.mem_cons.mp hin with rfl | hin
    · exact Or.inr ⟨_, mem_cons_self, hprod⟩
    · refine (ih (List.mem_append_right _ hin)).imp_right ?_
      rintro ⟨item, hitem, h⟩
      exact ⟨item, mem_cons_of_mem _ hitem, h⟩

variable {item : BlockItem}

/-- A covered item has one result, which has one use. -/
theorem Covers.covered_spec
    (hproduced : ∀ v item, producer v = some item → v ∈ s.results g item)
    (hitem : item ∈ covered) : ∃ v, s.results g item = [v] ∧ uses v = 1 := by
  induction h with
  | done before => cases hitem
  | keep other _ ih => exact ih hitem
  | take hprod huses hsingle _ ih =>
    rcases List.mem_cons.mp hitem with rfl | hitem
    · obtain ⟨v, hval⟩ := List.length_eq_one_iff.mp hsingle
      have hmem := hproduced _ _ hprod
      rw [hval, List.mem_singleton] at hmem
      exact ⟨v, hval, hmem ▸ huses⟩
    · exact ih hitem

/-- Every operand that is read is kept, or is the result of a covered item. -/
theorem Covers.count
    (hproduced : ∀ v item, producer v = some item → v ∈ s.results g item) (v : Nat) :
    kept.count v + (covered.flatMap (s.results g)).count v =
      (pending.map s.resolve).count v + (covered.flatMap fun item => (s.inputs g item).map s.resolve).count v := by
  induction h with
  | done before => rfl
  | keep other _ ih =>
    rw [map_cons, List.count_cons, List.count_cons]
    omega
  | @take before covered rest pending kept input item hprod huses hsingle _ ih =>
    obtain ⟨result, hres⟩ := List.length_eq_one_iff.mp hsingle
    have hmem := hproduced _ _ hprod
    rw [hres, List.mem_singleton] at hmem
    simp only [flatMap_cons, count_append, map_cons, List.map_append, List.map_reverse,
      List.count_reverse, hres, List.count_cons, List.count_nil, ← hmem] at ih ⊢
    omega

end

/-- Runs of the cursor from every item that is not covered, the last item first. -/
inductive Segments (graph : FunctionGraph) (selection : Selection) (producer : Nat → Option BlockItem)
    (uses : Nat → Nat) : List BlockItem → List Nat → List BlockItem → Prop
  | nil : Segments graph selection producer uses [] [] []
  | root {before covered covered' rest : List BlockItem} {kept kept' : List Nat} (item : BlockItem)
      (h : Covers graph selection producer uses before (selection.inputs graph item).reverse kept covered rest)
      (h' : Segments graph selection producer uses rest kept' covered') :
      Segments graph selection producer uses (item :: before) (kept ++ kept') (covered ++ covered')

theorem Segments.covered_sublist (h : Segments g s producer uses before kept covered) :
    covered.Sublist before := by
  induction h with
  | nil => exact List.Sublist.refl _
  | root item h _ ih =>
    rw [h.before_eq]
    exact (List.Sublist.append (List.Sublist.refl _) ih).cons item

theorem Segments.covered_spec (h : Segments g s producer uses before kept covered)
    (hproduced : ∀ v item, producer v = some item → v ∈ s.results g item)
    (hitem : item ∈ covered) : ∃ v, s.results g item = [v] ∧ uses v = 1 := by
  induction h with
  | nil => cases hitem
  | root other h _ ih =>
    rcases List.mem_append.mp hitem with hitem | hitem
    · exact h.covered_spec hproduced hitem
    · exact ih hitem

theorem Segments.count (h : Segments g s producer uses before kept covered)
    (hproduced : ∀ v item, producer v = some item → v ∈ s.results g item) (v : Nat) :
    kept.count v + (covered.flatMap (s.results g)).count v =
      (before.flatMap fun item => (s.inputs g item).map s.resolve).count v := by
  induction h with
  | nil => rfl
  | root item h _ ih =>
    have hcnt := h.count hproduced v
    rw [List.map_reverse, List.count_reverse] at hcnt
    rw [h.before_eq]
    simp only [flatMap_cons, List.flatMap_append, count_append] at ih ⊢
    omega

theorem coverItems_skip (g : FunctionGraph) (s : Selection) (covered rest : List BlockItem)
    (h : ∀ item ∈ covered, view.inline item = true) :
    coverItems g s view (covered ++ rest) = coverItems g s view rest := by
  induction covered with
  | nil => rfl
  | cons item covered ih =>
    rw [List.cons_append, coverItems, if_pos (h item mem_cons_self)]
    exact ih fun other hother => h other (mem_cons_of_mem _ hother)

theorem coverItems_segments (g : FunctionGraph) (s : Selection) (view : OperandView)
    (items : List BlockItem) (hitems : items.Nodup)
    (hinline : ∀ item ∈ items, view.inline item = false) :
    ∃ kept covered, Segments g s view.producer view.uses items kept covered ∧
      Marks view (coverItems g s view items) covered := by
  induction hlen : items.length using Nat.strong_induction_on generalizing view items with
  | _ length ih =>
    cases items with
    | nil => exact ⟨[], [], .nil, Marks.refl view⟩
    | cons item before =>
      obtain ⟨kept, covered, rest, hcov, hmarks⟩ := cover_covers g s view before (s.inputs g item)
      have hbef := hcov.before_eq
      rw [List.nodup_cons, hbef, nodup_append] at hitems
      have hnone : ∀ other ∈ rest, (cover g s view before (s.inputs g item)).inline other = false := by
        intro other hother
        rw [Bool.eq_false_iff]
        intro h
        rcases (hmarks.inline other).mp h with h | h
        · rw [hinline other (mem_cons_of_mem _ (hbef ▸ List.mem_append_right _ hother))] at h
          cases h
        · exact hitems.2.2.2 other h other hother rfl
      obtain ⟨kept', covered', hsegments, hmarks'⟩ := ih rest.length
        (by rw [← hlen, hbef, List.length_cons, List.length_append]; omega)
        (cover g s view before (s.inputs g item)) rest hitems.2.2.1 hnone rfl
      rw [hmarks.producer, hmarks.uses] at hsegments
      refine ⟨kept ++ kept', covered ++ covered', .root item hcov hsegments, ?_⟩
      have hskip := coverItems_skip g s covered rest
        fun other hother => (hmarks.inline other).mpr (Or.inr hother)
      rw [← hbef] at hskip
      rw [coverItems, if_neg (by rw [hinline item mem_cons_self]; exact Bool.false_ne_true), hskip]
      exact hmarks.trans hmarks'

/-- What is kept and what is covered in a block, whose items come last first. -/
inductive Passes (graph : FunctionGraph) (selection : Selection) (producer : Nat → Option BlockItem) (uses : Nat → Nat)
    (items : List BlockItem) (operands : List Nat) : List Nat → List BlockItem → Prop
  | mk {covered covered' rest : List BlockItem} {kept kept' : List Nat}
      (h : Covers graph selection producer uses items operands.reverse kept covered rest)
      (h' : Segments graph selection producer uses rest kept' covered') :
      Passes graph selection producer uses items operands (kept ++ kept') (covered ++ covered')

section Blocks

variable {items : List BlockItem} {operands : List Nat}

theorem Passes.covered_sublist (h : Passes g s producer uses items operands kept covered) :
    covered.Sublist items := by
  obtain ⟨h, h'⟩ := h
  rw [h.before_eq]
  exact List.Sublist.append (List.Sublist.refl _) h'.covered_sublist

theorem Passes.covered_spec (h : Passes g s producer uses items operands kept covered)
    (hproduced : ∀ v item, producer v = some item → v ∈ s.results g item) {item : BlockItem}
    (hitem : item ∈ covered) : ∃ v, s.results g item = [v] ∧ uses v = 1 := by
  obtain ⟨h, h'⟩ := h
  rcases List.mem_append.mp hitem with hitem | hitem
  · exact h.covered_spec hproduced hitem
  · exact h'.covered_spec hproduced hitem

theorem Passes.count (h : Passes g s producer uses items operands kept covered)
    (hproduced : ∀ v item, producer v = some item → v ∈ s.results g item) (v : Nat) :
    kept.count v + (covered.flatMap (s.results g)).count v =
      (items.flatMap fun item => (s.inputs g item).map s.resolve).count v + (operands.map s.resolve).count v := by
  obtain ⟨h, h'⟩ := h
  have hcnt := h.count hproduced v
  have hcnt' := h'.count hproduced v
  rw [List.map_reverse, List.count_reverse] at hcnt
  rw [h.before_eq]
  simp only [List.flatMap_append, count_append]
  omega

theorem coverBlock_passes (view : OperandView) (block : Nat) (hitems : (OperandView.items g s block).Nodup)
    (hinline : ∀ item ∈ OperandView.items g s block, view.inline item = false) :
    ∃ kept covered, Passes g s view.producer view.uses (OperandView.items g s block).reverse
        (s.exitInputs g (g.block block).exit) kept covered ∧
      Marks view (coverBlock g s view block) covered := by
  rw [coverBlock]
  have hitems' : (OperandView.items g s block).reverse.Nodup := List.nodup_reverse.mpr hitems
  have hinline' : ∀ item ∈ (OperandView.items g s block).reverse, view.inline item = false :=
    fun item hitem => hinline item (List.mem_reverse.mp hitem)
  generalize (OperandView.items g s block).reverse = before at hitems' hinline'
  obtain ⟨kept, covered, rest, hcov, hmarks⟩ := cover_covers g s view before (s.exitInputs g (g.block block).exit)
  have hbef := hcov.before_eq
  have hnodup := hitems'
  rw [hbef, nodup_append] at hnodup
  obtain ⟨kept', covered', hsegments, hmarks'⟩ := coverItems_segments g s
    (cover g s view before (s.exitInputs g (g.block block).exit)) rest hnodup.2.1
    fun other hother => by
      rw [Bool.eq_false_iff]
      intro h
      rcases (hmarks.inline other).mp h with h | h
      · rw [hinline' other (hbef ▸ List.mem_append_right _ hother)] at h
        cases h
      · exact hnodup.2.2 other h other hother rfl
  rw [hmarks.producer, hmarks.uses] at hsegments
  have hskip := coverItems_skip g s covered rest fun other hother => (hmarks.inline other).mpr
    (Or.inr hother)
  rw [← hbef] at hskip
  refine ⟨kept ++ kept', covered ++ covered', ⟨hcov, hsegments⟩, ?_⟩
  rw [hskip]
  exact hmarks.trans hmarks'

/-- Blocks are passed one after the other. -/
theorem foldl_coverBlock (blocks : List Nat) (view : OperandView) (hblocks : blocks.Nodup)
    (hitems : (blocks.flatMap (OperandView.items g s)).Nodup)
    (hinline : ∀ item ∈ blocks.flatMap (OperandView.items g s), view.inline item = false) :
    ∃ (kept : Nat → List Nat) (covered : Nat → List BlockItem),
      (∀ block ∈ blocks, Passes g s view.producer view.uses
        (OperandView.items g s block).reverse (s.exitInputs g (g.block block).exit)
        (kept block) (covered block)) ∧
      Marks view (blocks.foldl (coverBlock g s) view) (blocks.flatMap covered) := by
  induction blocks generalizing view with
  | nil => exact ⟨fun _ => [], fun _ => [], fun _ h => absurd h List.not_mem_nil, Marks.refl view⟩
  | cons block blocks ih =>
    rw [List.nodup_cons] at hblocks
    rw [flatMap_cons, nodup_append] at hitems
    obtain ⟨kept, covered, hpasses, hmarks⟩ := coverBlock_passes view block hitems.1 fun item hitem =>
      hinline item (List.mem_flatMap.mpr ⟨block, mem_cons_self, hitem⟩)
    obtain ⟨kept', covered', hpasses', hmarks'⟩ := ih (coverBlock g s view block) hblocks.2 hitems.2.1
      fun item hitem => by
        rw [Bool.eq_false_iff]
        intro h
        rcases (hmarks.inline item).mp h with h | h
        · rw [hinline item (List.mem_append_right _ hitem)] at h
          cases h
        · exact hitems.2.2 item (List.mem_reverse.mp (hpasses.covered_sublist.subset h)) item hitem rfl
    have hother : ∀ other ∈ blocks, other ≠ block := fun other hother heq => hblocks.1 (heq ▸ hother)
    refine ⟨update kept' block kept, update covered' block covered, fun other hmem => ?_, ?_⟩
    · rcases List.mem_cons.mp hmem with rfl | hmem
      · rw [update_self, update_self]
        exact hpasses
      · rw [update_of_ne (hother other hmem), update_of_ne (hother other hmem)]
        rw [hmarks.producer, hmarks.uses] at hpasses'
        exact hpasses' other hmem
    · have hrest : blocks.flatMap (update covered' block covered) = blocks.flatMap covered' :=
        List.flatMap_congr fun other hmem => update_of_ne (hother other hmem) ..
      rw [foldl_cons, flatMap_cons, update_self, hrest]
      exact hmarks.trans hmarks'

end Blocks

/-! ## Producers and uses -/

theorem foldl_update_results (results : List Nat) (item : BlockItem) (producer : Nat → Option BlockItem) (v : Nat) :
    results.foldl (fun producer result => update producer result (some item)) producer v =
      if v ∈ results then some item else producer v := by
  induction results generalizing producer with
  | nil => rfl
  | cons result results ih =>
    rw [foldl_cons, ih]
    by_cases hmem : v ∈ results
    · rw [if_pos hmem, if_pos (mem_cons_of_mem _ hmem)]
    · rw [if_neg hmem]
      by_cases heq : v = result
      · rw [heq, update_self, if_pos mem_cons_self]
      · rw [update_of_ne heq, if_neg (by simp only [List.mem_cons, heq, hmem, or_self, not_false_eq_true])]

theorem foldl_producer (g : FunctionGraph) (s : Selection) (items : List BlockItem)
    (producer : Nat → Option BlockItem) {v : Nat}
    (h : items.foldl (fun producer item => (s.results g item).foldl (fun producer result =>
      update producer result (some item)) producer) producer v = some item) :
    producer v = some item ∨ item ∈ items ∧ v ∈ s.results g item := by
  induction items generalizing producer with
  | nil => exact Or.inl h
  | cons other items ih =>
    rcases ih _ h with h | ⟨hitem, hval⟩
    · dsimp only at h
      rw [foldl_update_results] at h
      split at h
      · next hval =>
          cases h
          exact Or.inr ⟨mem_cons_self, hval⟩
      · exact Or.inl h
    · exact Or.inr ⟨mem_cons_of_mem _ hitem, hval⟩

/-- Without a producer among later items, the last producer stays. -/
theorem foldl_producer_of_not_mem (g : FunctionGraph) (s : Selection) (items : List BlockItem)
    (producer : Nat → Option BlockItem) {v : Nat} (h : v ∉ items.flatMap (s.results g)) :
    items.foldl (fun producer item => (s.results g item).foldl (fun producer result =>
      update producer result (some item)) producer) producer v = producer v := by
  induction items generalizing producer with
  | nil => rfl
  | cons other items ih =>
    rw [flatMap_cons, List.mem_append, not_or] at h
    rw [foldl_cons, ih _ h.2, foldl_update_results, if_neg h.1]

/-- Every value is a result of at most one enabled item, and results are no literals. -/
structure Produced (graph : FunctionGraph) (selection : Selection) (blocks : List Nat) : Prop where
  aliased : selection.Aliased graph.values
  items : (blocks.flatMap (OperandView.items graph selection)).Nodup
  results : ((blocks.flatMap (OperandView.items graph selection)).flatMap (selection.results graph)).Nodup
  literal : ∀ item ∈ blocks.flatMap (OperandView.items graph selection), ∀ value ∈ selection.results graph item,
    ∀ bits, graph.values.definition value ≠ .literal bits

section Start

variable {blocks : List Nat}

theorem start_produced {v : Nat} {item : BlockItem}
    (h : (start g s blocks).producer v = some item) :
    item ∈ blocks.flatMap (OperandView.items g s) ∧ v ∈ s.results g item := by
  rcases foldl_producer g s _ _ h with h | h
  · cases h
  · exact h

theorem start_producer (hproduced : Produced g s blocks) {item : BlockItem}
    (hitem : item ∈ blocks.flatMap (OperandView.items g s)) {v : Nat}
    (hval : v ∈ s.results g item) : (start g s blocks).producer v = some item := by
  obtain ⟨front, back, heq⟩ := List.append_of_mem hitem
  have hresults := hproduced.results
  rw [heq, List.flatMap_append, flatMap_cons, nodup_append, nodup_append] at hresults
  have hback : v ∉ back.flatMap (s.results g) := fun h => hresults.2.1.2.2 v hval v h rfl
  rw [start, heq, List.foldl_append, foldl_cons]
  dsimp only
  rw [foldl_producer_of_not_mem _ _ _ _ hback, foldl_update_results, if_pos hval]

theorem start_uses (v : Nat) : (start g s blocks).uses v =
    (blocks.flatMap fun block => (OperandView.items g s block).flatMap fun item =>
      (s.inputs g item).map s.resolve).count v +
    (blocks.flatMap fun block => s.exitUses g (g.block block).exit).count v := by
  show List.foldl countUse _ _ v = _
  rw [foldl_countUse, Nat.zero_add, count_flatMap_append]

/-- An exit reads its inputs before control is transferred, and then the arguments of its edges. -/
theorem exitUses_eq (halias : s.Aliased g.values) (exit : Exit) :
    s.exitUses g exit = (s.exitInputs g exit).map s.resolve ++ (exitArguments exit).map s.resolve := by
  cases exit with
  | ifElse condition taken otherwise =>
    have hrsv : s.resolve (s.condition g condition false).1 = (s.condition g condition false).1 := by
      rw [Selection.condition]
      split
      · split <;> exact halias.resolve_resolve _
      · exact halias.resolve_resolve _
    rw [Selection.exitInputs, Selection.exitUses, List.map_singleton, hrsv]
    rfl
  | switch selector cases default => rfl
  | _ => exact (List.append_nil _).symm

theorem count_flatMap_congr {α : Type} {f g : α → List Nat} {l : List α} {v : Nat}
    (h : ∀ a ∈ l, (f a).count v = (g a).count v) : (l.flatMap f).count v = (l.flatMap g).count v := by
  rw [List.count_flatMap, List.count_flatMap]
  exact congrArg List.sum (List.map_congr_left h)

/-- The cursor passes every block. An operand that is kept, or read after control is transferred, has a use, and a
    producer that is nowhere covered. -/
theorem new_passes {reachable : Nat → Bool}
    (hproduced : Produced g s ((List.range g.blocks.length).filter reachable)) :
    ∃ (kept : Nat → List Nat) (covered : Nat → List BlockItem),
      (∀ block ∈ (List.range g.blocks.length).filter reachable,
        Passes g s (new g s reachable).producer (new g s reachable).uses
          (OperandView.items g s block).reverse (s.exitInputs g (g.block block).exit)
          (kept block) (covered block)) ∧
      (∀ item, (new g s reachable).inline item = true ↔
        item ∈ ((List.range g.blocks.length).filter reachable).flatMap covered) ∧
      ∀ block ∈ (List.range g.blocks.length).filter reachable,
        ∀ v ∈ kept block ++ (exitArguments (g.block block).exit).map s.resolve,
          (new g s reachable).uses v ≠ 0 ∧ ∀ item,
            (new g s reachable).producer v = some item →
            (new g s reachable).inline item = false := by
  have hblocks : ((List.range g.blocks.length).filter reachable).Nodup := List.nodup_range.filter _
  rw [new]
  generalize (List.range g.blocks.length).filter reachable = blocks at hproduced hblocks ⊢
  obtain ⟨kept, covered, hpasses, hmarks⟩ := foldl_coverBlock blocks (start g s blocks) hblocks
    hproduced.items fun _ _ => rfl
  rw [hmarks.producer, hmarks.uses]
  have hresults : ∀ v item, (start g s blocks).producer v = some item →
      v ∈ s.results g item := fun v item h => (start_produced h).2
  have hinline : ∀ item, (blocks.foldl (coverBlock g s) (start g s blocks)).inline item = true ↔
      item ∈ blocks.flatMap covered := fun item => (hmarks.inline item).trans (or_iff_right Bool.false_ne_true)
  refine ⟨kept, covered, hpasses, hinline, fun block hblk v hval => ?_⟩
  have hcnt : (blocks.flatMap fun block => kept block ++
        (exitArguments (g.block block).exit).map s.resolve).count v +
      (blocks.flatMap fun block => (covered block).flatMap (s.results g)).count v =
      (start g s blocks).uses v := by
    rw [start_uses, ← count_flatMap_append, ← count_flatMap_append]
    refine count_flatMap_congr fun block hblk => ?_
    have hcnt := (hpasses block hblk).count hresults v
    have hreverse : ((OperandView.items g s block).reverse.flatMap fun item =>
        (s.inputs g item).map s.resolve).count v =
        ((OperandView.items g s block).flatMap fun item => (s.inputs g item).map s.resolve).count v :=
      (List.reverse_perm _).flatMap_right _ |>.count_eq _
    rw [exitUses_eq hproduced.aliased]
    simp only [count_append]
    omega
  have hkept : 0 < (blocks.flatMap fun block => kept block ++
      (exitArguments (g.block block).exit).map s.resolve).count v :=
    List.count_pos_iff.mpr (List.mem_flatMap.mpr ⟨block, hblk, hval⟩)
  refine ⟨by omega, fun item hitem => ?_⟩
  rw [Bool.eq_false_iff]
  intro hmem
  obtain ⟨other, hother, hcovered⟩ := List.mem_flatMap.mp ((hinline item).mp hmem)
  obtain ⟨result, hres, huses⟩ := (hpasses other hother).covered_spec hresults hcovered
  have hself := hresults v item hitem
  rw [hres, List.mem_singleton] at hself
  have hpos : 0 < (blocks.flatMap fun block => (covered block).flatMap (s.results g)).count v := by
    refine List.count_pos_iff.mpr (List.mem_flatMap.mpr ⟨other, hother, List.mem_flatMap.mpr ⟨item, hcovered, ?_⟩⟩)
    rw [hres, hself]
    exact List.mem_singleton_self _
  rw [← hself] at huses
  omega

end Start

end OperandView

end Relocade.Compiler.Emit
