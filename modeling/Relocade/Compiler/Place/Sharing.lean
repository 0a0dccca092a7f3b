import Relocade.Compiler.Place.Demand
import Relocade.Compiler.Place.Dominators

/-!
# `Compiler.Place.Sharing` — shared calculations are available and needed

What a calculation uses is defined above every block that shares it, and every path that leaves such a block, by an exit
of the function or around a loop, goes through a block that needs the calculation. The required sites of a calculation
have this property at first, as blocks that use it, and keep it as calculations move to the blocks that share them.
-/

namespace Relocade.Compiler.Place

open Function (update update_self update_of_ne)
open Graphs (Path Reachable Dominates)

variable {n m e : Nat}

/-! ## Needs -/

/-- The values that a block requires, directly or through required expressions. -/
inductive Requires (graph : FunctionGraph n m e) (block : Fin n) : Fin m → Prop where
  | root {value : Fin m} (h : value ∈ graph.exit block ++ (graph.items block).flatMap graph.operation) :
      Requires graph block value
  | input {value producer input : Fin m} {inputs : List (Fin m)} (h : Requires graph block value)
      (hvalue : graph.expression value = some (producer, inputs)) (hinput : input ∈ inputs) :
      Requires graph block input

/-- A block requires a result of a calculation. -/
def Needs (graph : FunctionGraph n m e) (block : Fin n) (producer : Fin m) : Prop :=
  ∃ value inputs, Requires graph block value ∧ graph.expression value = some (producer, inputs)

/-- The values that a value is calculated from. -/
inductive DependsOn (graph : FunctionGraph n m e) : Fin m → Fin m → Prop where
  | refl (value : Fin m) : DependsOn graph value value
  | input {value producer input last : Fin m} {inputs : List (Fin m)}
      (hvalue : graph.expression value = some (producer, inputs)) (hinput : input ∈ inputs)
      (h : DependsOn graph input last) : DependsOn graph value last

/-- The parameters and effects that a value is calculated from are in blocks that dominate a block. -/
structure Available (graph : FunctionGraph n m e) (value : Fin m) (block : Fin n) : Prop where
  parameter : ∀ used at', DependsOn graph value used → graph.values used = .parameter at' →
    Dominates graph.outgoing graph.entry at' block
  effect : ∀ used producer, DependsOn graph value used → graph.values used = .effect producer →
    ∃ at', producer ∈ graph.items at' ∧ Dominates graph.outgoing graph.entry at' block

/-- A path from a block that leaves the function, or goes around a loop, with the blocks it goes through. -/
inductive Leaving (graph : FunctionGraph n m e) : Fin n → List (Fin n) → Prop where
  | exit {block : Fin n} (h : graph.outgoing block = []) : Leaving graph block [block]
  | back {block target : Fin n} (h : target ∈ graph.outgoing block)
      (hback : Dominates graph.outgoing graph.entry target block) : Leaving graph block [block]
  | step {block target : Fin n} {blocks : List (Fin n)} (hedge : target ∈ graph.outgoing block)
      (h : Leaving graph target blocks) : Leaving graph block (block :: blocks)

variable {graph : FunctionGraph n m e}

variable {inputs : List (Fin m)}

theorem expression_inputs {value prod : Fin m}
    (h : graph.expression value = some (prod, inputs)) :
    ∃ results, graph.values prod = .expression inputs results := by
  rw [FunctionGraph.expression, expressionOf] at h
  split at h
  · next inputs' results hval =>
      cases h
      exact ⟨results, hval⟩
  · split at h
    · next inputs' results hprod =>
        cases h
        exact ⟨results, hprod⟩
    · cases h
  · cases h

theorem expression_eq {value : Fin m} {results : Nat}
    (h : graph.values value = .expression inputs results) : graph.expression value = some (value, inputs) := by
  rw [FunctionGraph.expression, expressionOf, h]

theorem producer_of_evaluate {value prod producer' : Fin m}
    (h : graph.values value = .evaluate prod) (hval : graph.expression value = some (producer', inputs)) :
    prod = producer' := by
  rw [FunctionGraph.expression, expressionOf, h] at hval
  dsimp only at hval
  split at hval
  · cases hval
    rfl
  · cases hval

/-! ## Coverage -/

section Coverage

variable {successors : Fin (n + 1) → List (Fin (n + 1))}

theorem mem_reversed {n : Nat} {successors : Fin n → List (Fin n)} {a b : Fin n} :
    a ∈ reversed successors b ↔ b ∈ successors a := by
  rw [reversed, List.mem_flatMap]
  constructor
  · rintro ⟨source, -, hmem⟩
    obtain ⟨target, htarget, rfl⟩ := List.mem_map.mp hmem
    obtain ⟨htarget, heq⟩ := List.mem_filter.mp htarget
    exact of_decide_eq_true heq ▸ htarget
  · intro hmem
    exact ⟨a, List.mem_finRange a, List.mem_map.mpr ⟨b, List.mem_filter.mpr ⟨hmem, decide_eq_true rfl⟩, rfl⟩⟩

/-- Every path to the synthetic exit goes through a site. -/
def Reaches (successors : Fin (n + 1) → List (Fin (n + 1))) (sites : Fin n → Prop) (block : Fin n) : Prop :=
  ∀ nodes, Path (reversed successors) (Fin.last n) block.castSucc nodes → ∃ site, sites site ∧ site.castSucc ∈ nodes

theorem Reaches.of_site {sites : Fin n → Prop} {block : Fin n} (h : sites block) : Reaches successors sites block :=
  fun _ hpath => ⟨block, h, hpath.mem_last⟩

/-- Paths through a block reach what paths from there reach. -/
theorem Reaches.through {sites sites' : Fin n → Prop} {block : Fin n} (h : Reaches successors sites block)
    (hsites : ∀ site, sites site → Reaches successors sites' site) : Reaches successors sites' block := by
  intro nodes hpath
  obtain ⟨site, hsite, hmem⟩ := h nodes hpath
  obtain ⟨before, hbef, hsub⟩ := hpath.to_mem hmem
  obtain ⟨site', hsite', hmem'⟩ := hsites site hsite before hbef
  exact ⟨site', hsite', hsub _ hmem'⟩

theorem reaches_of_postdominates {block site : Fin n}
    (h : Dominates (reversed successors) (Fin.last n) site.castSucc block.castSucc) :
    Reaches successors (· = site) block := fun nodes hpath => ⟨site, rfl, h nodes hpath⟩

/-- A walk is past a block that is a site or was marked. -/
def Past (sites : Fin n → Bool) (generation : Nat) (visited : Fin (n + 1) → Nat) (block : Fin (n + 1)) : Prop :=
  (∃ site : Fin n, site.castSucc = block ∧ sites site = true) ∨ visited block = generation

variable {sites : Fin n → Bool}

theorem isSite_iff {block : Fin (n + 1)} :
    isSite sites block = true ↔ ∃ site : Fin n, site.castSucc = block ∧ sites site = true := by
  rw [isSite]
  constructor
  · intro h
    split at h
    · next hlt => exact ⟨⟨block.val, hlt⟩, rfl, h⟩
    · cases h
  · rintro ⟨site, rfl, hsite⟩
    exact (dif_pos site.isLt).trans hsite

/-- What a walk leaves when it does not reach the exit. -/
structure Walked (successors : Fin (n + 1) → List (Fin (n + 1))) (sites : Fin n → Bool) (generation : Nat)
    (visited : Fin (n + 1) → Nat) (pending : List (Fin (n + 1))) (visited' : Fin (n + 1) → Nat) : Prop where
  keeps : ∀ block, visited block = generation → visited' block = generation
  pending : ∀ block ∈ pending, Past sites generation visited' block
  marked : ∀ block, visited' block = generation → visited block = generation ∨ block ≠ Fin.last n ∧
    ∀ target ∈ successors block, Past sites generation visited' target

theorem Coverage.walk_spec {generation fuel : Nat} {visited visited' : Fin (n + 1) → Nat}
    {pend : List (Fin (n + 1))} {covered : Bool}
    (h : Coverage.walk successors sites generation fuel visited pend = some (visited', covered)) :
    (covered = true → Walked successors sites generation visited pend visited') ∧
      ∀ block, visited' block = visited block ∨ visited' block = generation := by
  induction fuel generalizing visited pend with
  | zero => cases h
  | succ fuel ih =>
    cases pend with
    | nil =>
      cases h
      exact ⟨fun _ => ⟨fun _ hb => hb, nofun, fun _ hb => Or.inl hb⟩, fun _ => Or.inl rfl⟩
    | cons block pend =>
      rw [Coverage.walk] at h
      split at h
      · next hpast =>
          obtain ⟨hwalked, hold⟩ := ih h
          refine ⟨fun hcovered => ?_, hold⟩
          obtain ⟨hkeeps, hpend, hmarked⟩ := hwalked hcovered
          refine ⟨hkeeps, fun b hb => ?_, hmarked⟩
          rcases List.mem_cons.mp hb with rfl | hb
          · exact hpast.imp isSite_iff.mp (hkeeps b)
          · exact hpend b hb
      · split at h
        · cases h
          exact ⟨nofun, fun _ => Or.inl rfl⟩
        · next hlast =>
            obtain ⟨hwalked, hold⟩ := ih h
            refine ⟨fun hcovered => ?_, fun b => ?_⟩
            · obtain ⟨hkeeps, hpend, hmarked⟩ := hwalked hcovered
              have hself : visited' block = generation := hkeeps block (update_self ..)
              refine ⟨fun b hb => ?_, fun b hb => ?_, fun b hb => ?_⟩
              · by_cases hbblock : b = block
                · rw [hbblock]
                  exact hself
                · exact hkeeps b (by rw [update_of_ne hbblock]; exact hb)
              · rcases List.mem_cons.mp hb with rfl | hb
                · exact Or.inr hself
                · exact hpend b (List.mem_append_right _ hb)
              · by_cases hbblock : b = block
                · subst hbblock
                  refine Or.inr ⟨hlast, fun target htarget => ?_⟩
                  exact hpend target (List.mem_append_left _ (List.mem_reverse.mpr htarget))
                · have hb' := hmarked b hb
                  rw [update_of_ne hbblock] at hb'
                  exact hb'
            · by_cases hbblock : b = block
              · have hb' := hold b
                rw [hbblock, update_self] at hb'
                rw [hbblock]
                exact Or.inr (hb'.elim id id)
              · have hb' := hold b
                rw [update_of_ne hbblock] at hb'
                exact hb'

/-- When the walk does not reach the exit, every path reaches a site. -/
theorem Coverage.allPathsReach_spec {coverage coverage' : Coverage n} {fuel : Nat} {candidate : Fin n}
    {covered : Bool}
    (h : coverage.allPathsReach fuel successors candidate sites = some (coverage', covered))
    (hfresh : ∀ block, coverage.visited block ≤ coverage.generation) :
    (∀ block, coverage'.visited block ≤ coverage'.generation) ∧
      (covered = true → Reaches successors (fun site => sites site = true) candidate) := by
  obtain ⟨⟨visited, covered'⟩, hwalk, hres⟩ := Option.map_eq_some_iff.mp h
  cases hres
  obtain ⟨hwalked, hold⟩ := Coverage.walk_spec hwalk
  refine ⟨fun block => ?_, fun hcovered => ?_⟩
  · rcases hold block with heq | heq
    · dsimp only
      rw [heq]
      exact (hfresh block).trans (Nat.le_succ _)
    · exact Nat.le_of_eq heq
  · obtain ⟨-, hpend, hmarked⟩ := hwalked hcovered
    have hpath : ∀ (block : Fin (n + 1)) nodes, Path (reversed successors) (Fin.last n) block nodes →
        Past sites (coverage.generation + 1) visited block → ∃ site, sites site = true ∧ site.castSucc ∈ nodes := by
      intro block nodes hpath
      induction hpath with
      | root =>
        rintro (⟨site, hsite, -⟩ | hvisited)
        · exact absurd hsite (Fin.castSucc_lt_last site).ne
        · rcases hmarked _ hvisited with hold | ⟨hne, -⟩
          · have := hfresh (Fin.last n)
            omega
          · exact absurd rfl hne
      | @step a b nodes _ hedge ih =>
        rintro (⟨site, rfl, hsite⟩ | hvisited)
        · exact ⟨site, hsite, List.mem_cons_self⟩
        · rcases hmarked b hvisited with hold | ⟨-, htargets⟩
          · have := hfresh b
            omega
          · obtain ⟨site, hsite, hmem⟩ := ih (htargets a (mem_reversed.mp hedge))
            exact ⟨site, hsite, List.mem_cons_of_mem _ hmem⟩
    exact fun nodes hnodes => hpath _ nodes hnodes (hpend _ (List.mem_singleton_self _))

end Coverage

/-! ## Where inputs are defined -/

section Requirements

variable {g : FunctionGraph n m e} {dominators : Dominators n}

variable {block b : Fin n}

variable {inputs : List (Fin m)}

/-- Inputs of an expression that are available make its results available. -/
theorem Available.of_inputs {value prod : Fin m}
    (hval : g.expression value = some (prod, inputs)) (h : ∀ input ∈ inputs, Available g input b) :
    Available g value b := by
  have hself : (∀ at', g.values value ≠ .parameter at') ∧ ∀ effect, g.values value ≠ .effect effect := by
    constructor <;> intro _ hdef <;> rw [FunctionGraph.expression, expressionOf, hdef] at hval <;>
      cases hval
  refine ⟨fun used at' hused hparam => ?_, fun used effect hused heffect => ?_⟩
  · cases hused with
    | refl => exact absurd hparam (hself.1 at')
    | input hval' hin hused =>
      rw [hval] at hval'
      cases hval'
      exact (h _ hin).parameter used at' hused hparam
  · cases hused with
    | refl => exact absurd heffect (hself.2 effect)
    | input hval' hin hused =>
      rw [hval] at hval'
      cases hval'
      exact (h _ hin).effect used effect hused heffect

theorem Available.mono {value : Fin m} {b block' : Fin n} (h : Available g value b)
    (hdominates : Dominates g.outgoing g.entry b block') : Available g value block' :=
  ⟨fun used at' hused hparam => (h.parameter used at' hused hparam).trans hdominates,
    fun used effect hused heffect =>
      let ⟨at', hmem, hdom⟩ := h.effect used effect hused heffect
      ⟨at', hmem, hdom.trans hdominates⟩⟩

/-- Other results of an expression are available where it is. -/
theorem Available.of_expression {value prod : Fin m}
    (hval : g.expression value = some (prod, inputs)) (h : Available g prod b) :
    Available g value b := by
  obtain ⟨results, hprod⟩ := expression_inputs hval
  have hexpr := expression_eq hprod
  exact .of_inputs hval fun input hin =>
    ⟨fun used at' hused => h.parameter used at' (.input hexpr hin hused),
      fun used effect hused => h.effect used effect (.input hexpr hin hused)⟩

variable (hdoms : ∀ a b, dominators.dominates a b = true → Dominates g.outgoing g.entry a b)

include hdoms

theorem lower_spec {a b : Option (Fin n)} (h : FunctionGraph.lower dominators a b = some block) :
    (∃ a', a = some a' ∧ Dominates g.outgoing g.entry a' block) ∧
      ∃ b', b = some b' ∧ Dominates g.outgoing g.entry b' block := by
  cases a with
  | none => cases h
  | some a =>
    cases b with
    | none => cases h
    | some b =>
      rw [FunctionGraph.lower] at h
      split at h
      · next hab =>
          cases h
          exact ⟨⟨a, rfl, hdoms a block hab⟩, block, rfl, .refl block⟩
      · split at h
        · next hba =>
            cases h
            exact ⟨⟨block, rfl, .refl block⟩, b, rfl, hdoms b block hba⟩
        · cases h

theorem foldl_lower_spec {requirements : Fin m → Option (Fin n)} {start : Option (Fin n)}
    (h : inputs.foldl (fun requirement input => FunctionGraph.lower dominators requirement (requirements input)) start =
      some block) :
    (∃ a, start = some a ∧ Dominates g.outgoing g.entry a block) ∧
      ∀ input ∈ inputs, ∃ b, requirements input = some b ∧ Dominates g.outgoing g.entry b block := by
  induction inputs generalizing start with
  | nil => exact ⟨⟨block, h, .refl block⟩, nofun⟩
  | cons input inputs ih =>
    obtain ⟨⟨a, hlower, hdom⟩, hinputs⟩ := ih h
    obtain ⟨⟨a', ha', hdoma⟩, b, hb, hdomb⟩ := lower_spec hdoms hlower
    refine ⟨⟨a', ha', hdoma.trans hdom⟩, fun other hother => ?_⟩
    rcases List.mem_cons.mp hother with rfl | hother
    · exact ⟨b, hb, hdomb.trans hdom⟩
    · exact hinputs other hother

omit hdoms in
/-- A value that is no expression is calculated from itself only. -/
theorem dependsOn_leaf {value used : Fin m} (h : g.expression value = none) (hused : DependsOn g value used) :
    used = value := by
  cases hused with
  | refl => rfl
  | input hval _ _ =>
    rw [h] at hval
    cases hval

omit hdoms in
theorem Available.of_leaf {value : Fin m} (h : g.expression value = none)
    (hparam : ∀ at', g.values value = .parameter at' → at' = b)
    (heffect : ∀ effect, g.values value = .effect effect → effect ∈ g.items b) :
    Available g value b := by
  refine ⟨fun used at' hused hused' => ?_, fun used effect hused hused' => ?_⟩
  · obtain rfl := dependsOn_leaf h hused
    rw [hparam at' hused']
    exact .refl b
  · obtain rfl := dependsOn_leaf h hused
    exact ⟨b, heffect effect hused', .refl b⟩

theorem requirement_spec {requirements : Fin m → Option (Fin n)}
    (hreqs : ∀ id block, requirements id = some block → Available g id block) {id : Fin m}
    (h : g.requirement dominators requirements id = some block) : Available g id block := by
  rw [FunctionGraph.requirement] at h
  have hnone : ∀ {definition : Definition n m e}, g.values id = definition →
      (∀ inputs results, definition ≠ .expression inputs results) → (∀ prod, definition ≠ .evaluate prod) →
      g.expression id = none := by
    intro definition hdef hexpr hevaluate
    rw [FunctionGraph.expression, expressionOf, hdef]
    cases definition with
    | literal => rfl
    | parameter _ => rfl
    | effect _ => rfl
    | evaluate prod => exact absurd rfl (hevaluate prod)
    | expression inputs results => exact absurd rfl (hexpr inputs results)
  cases hdef : g.values id with
  | literal =>
    refine .of_leaf (hnone hdef nofun nofun) (fun at' h => ?_)
      fun effect h => ?_
    · rw [hdef] at h
      cases h
    · rw [hdef] at h
      cases h
  | parameter at' =>
    rw [hdef] at h
    refine .of_leaf (hnone hdef nofun nofun) (fun at' h' => ?_)
      fun effect h' => ?_
    · rw [hdef] at h'
      cases h'
      cases h
      rfl
    · rw [hdef] at h'
      cases h'
  | effect prod =>
    rw [hdef] at h
    refine .of_leaf (hnone hdef nofun nofun) (fun at' h' => ?_)
      fun effect h' => ?_
    · rw [hdef] at h'
      cases h'
    · rw [hdef] at h'
      cases h'
      have hmem := (List.mem_filter.mp (List.mem_of_getLast? h)).2
      exact List.contains_iff_mem.mp hmem
  | evaluate prod =>
    rw [hdef] at h
    have hav := hreqs prod block h
    cases hexpr : g.expression id with
    | some found =>
      obtain ⟨producer', inputs⟩ := found
      rw [producer_of_evaluate hdef hexpr] at hav
      exact hav.of_expression hexpr
    | none =>
      refine .of_leaf hexpr (fun at' h' => ?_) fun effect h' => ?_
      · rw [hdef] at h'
        cases h'
      · rw [hdef] at h'
        cases h'
  | expression inputs results =>
    rw [hdef] at h
    obtain ⟨-, hinputs⟩ := foldl_lower_spec hdoms h
    refine .of_inputs (expression_eq hdef) fun input hin => ?_
    obtain ⟨b, hb, hdom⟩ := hinputs input hin
    exact (hreqs input b hb).mono hdom

theorem requirements_spec {id : Fin m} (h : g.requirements dominators id = some b) : Available g id b := by
  have hfold : ∀ (ids : List (Fin m)) (requirements : Fin m → Option (Fin n)),
      (∀ id b, requirements id = some b → Available g id b) → ∀ id b,
      ids.foldl (fun requirements id =>
        update requirements id (g.requirement dominators requirements id)) requirements id = some b →
      Available g id b := by
    intro ids
    induction ids with
    | nil => exact fun _ hreqs => hreqs
    | cons next ids ih =>
      intro requirements hreqs
      refine ih _ fun id b hid => ?_
      by_cases heq : id = next
      · subst heq
        dsimp only at hid
        rw [update_self] at hid
        exact requirement_spec hdoms hreqs hid
      · dsimp only at hid
        rw [update_of_ne heq] at hid
        exact hreqs id b hid
  exact hfold (List.finRange m) (fun _ => none) nofun id b h

end Requirements

/-! ## Sharing among some of the sites -/

section Branches

variable {dominators : Dominators n} {postdominates : Fin n → Fin n → Bool} {good : Fin n → Prop}
  (hgood : ∀ site block, postdominates site block = true → good site → good block)

/-- A witness is a good block on every path. -/
def Witnessed (good : Fin n → Prop) (groups : List (Demand.Group n)) : Prop :=
  ∀ (index : Nat) (group : Demand.Group n), groups[index]? = some group → group.hasWitness = true → good group.block

theorem addGroup_witnessed {demand : Demand n} (hsites : ∀ site, demand.requiredSites site = true → good site)
    (blocks : List (Fin n)) {state : List (Demand.Group n) × List Nat} (h : Witnessed good state.1) :
    Witnessed good (blocks.foldl (demand.addGroup dominators) state).1 := by
  induction blocks generalizing state with
  | nil => exact h
  | cons block blocks ih =>
    refine ih fun index group hgroup hwitness => ?_
    obtain ⟨groups, ancestors⟩ := state
    rw [Demand.addGroup] at hgroup
    dsimp only at hgroup
    rcases Nat.lt_or_ge index groups.length with hlt | hge
    · rw [List.getElem?_append_left hlt] at hgroup
      exact h index group hgroup hwitness
    · rw [List.getElem?_append_right hge] at hgroup
      cases hidx : index - groups.length with
      | zero =>
        rw [hidx] at hgroup
        cases hgroup
        exact hsites block hwitness
      | succ k =>
        rw [hidx] at hgroup
        cases hgroup

include hgood in
theorem cover_witnessed {groups : List (Demand.Group n)} (h : Witnessed good groups) (index : Nat) :
    Witnessed good (Demand.cover postdominates groups index) := by
  rw [Demand.cover]
  split
  · exact h
  · next group hgroup =>
      split
      · exact h
      · next parent hparent =>
          intro other result hres hwitness
          rw [List.getElem?_modify] at hres
          obtain ⟨above, habove, rfl⟩ := Option.map_eq_some_iff.mp hres
          split at hwitness
          · next heq =>
              rw [if_pos heq]
              rcases Bool.or_eq_true_iff.mp hwitness with hwitness | hwitness
              · exact h other above habove hwitness
              · obtain ⟨hchild, hpost⟩ := (Bool.and_eq_true_iff).mp hwitness
                exact hgood group.block above.block hpost (h index group hgroup hchild)
          · next hne =>
              rw [if_neg hne]
              exact h other above habove hwitness

/-- What placing among groups keeps. -/
structure Places (good : Fin n → Prop) (dominators : Dominators n) (required : Fin n) (placing : Demand.Placing n) :
    Prop where
  sites : ∀ site, placing.requiredSites site = true → good site
  placements : ∀ block ∈ placing.placements, good block ∧ dominators.dominates required block = true

variable {required : Fin n}

/-- A group is placed where it has a witness. -/
theorem Places.placeGroup {placing : Demand.Placing n} (h : Places good dominators required placing)
    {group : Demand.Group n} (hgroup : group.hasWitness = true → good group.block) :
    Places good dominators required (Demand.placeGroup required dominators placing group) := by
  rw [Demand.placeGroup]
  split
  · refine ⟨fun site hsite => ?_, h.placements⟩
    dsimp only at hsite
    by_cases heq : site = group.block
    · rw [heq, update_self] at hsite
      cases hsite
    · rw [update_of_ne heq] at hsite
      exact h.sites site hsite
  · split
    · next hplc =>
        have hblk : good group.block := hgroup hplc.2.1
        refine ⟨fun site hsite => ?_, fun block hblk' => ?_⟩
        · by_cases heq : site = group.block
          · rw [heq]
            exact hblk
          · dsimp only at hsite
            rw [update_of_ne heq] at hsite
            exact h.sites site hsite
        · rcases List.mem_append.mp hblk' with hblk' | hblk'
          · exact h.placements block hblk'
          · rw [List.mem_singleton.mp hblk']
            exact ⟨hblk, hplc.2.2⟩
    · exact ⟨h.sites, h.placements⟩

theorem places_foldl (groups : List (Demand.Group n)) {placing : Demand.Placing n}
    (h : Places good dominators required placing)
    (hgroups : ∀ group ∈ groups, group.hasWitness = true → good group.block) :
    Places good dominators required (groups.foldl (Demand.placeGroup required dominators) placing) := by
  induction groups generalizing placing with
  | nil => exact h
  | cons group groups ih =>
    exact ih (h.placeGroup (hgroups group List.mem_cons_self))
      fun group' hgroup' => hgroups group' (List.mem_cons_of_mem _ hgroup')

include hgood in
theorem cover_foldl_witnessed (indices : List Nat) {groups : List (Demand.Group n)} (h : Witnessed good groups) :
    Witnessed good (indices.foldl (Demand.cover postdominates) groups) := by
  induction indices generalizing groups with
  | nil => exact h
  | cons index indices ih => exact ih (cover_witnessed hgood h index)

include hgood in
/-- Sites that are left, and blocks that share, have what every site had. -/
theorem branchPlacements_spec {demand demand' : Demand n} {placements : List (Fin n)}
    (h : demand.branchPlacements required dominators postdominates = some (demand', placements))
    (hsites : ∀ site, demand.requiredSites site = true → good site) :
    (∀ site, demand'.requiredSites site = true → good site) ∧
      ∀ block ∈ placements, good block ∧ dominators.dominates required block = true := by
  rw [Demand.branchPlacements] at h
  split at h
  · cases h
    exact ⟨hsites, nofun⟩
  · obtain ⟨blocks, -, hres⟩ := Option.map_eq_some_iff.mp h
    cases hres
    have hemp : Witnessed good (([], []) : List (Demand.Group n) × List Nat).1 := nofun
    have hadded : Witnessed good (blocks.foldl (demand.addGroup dominators) ([], [])).1 :=
      addGroup_witnessed hsites blocks hemp
    have hwitnessed := cover_foldl_witnessed hgood
      (List.range (blocks.foldl (demand.addGroup dominators) ([], [])).1.length).reverse hadded
    have hst : Places good dominators required ⟨none, [], demand.requiredSites⟩ :=
      ⟨hsites, fun _ hblk => absurd hblk List.not_mem_nil⟩
    have hplaces := places_foldl _ hst fun group hgroup hwitness =>
      let ⟨index, hidx⟩ := List.mem_iff_getElem?.mp hgroup
      hwitnessed index group hidx hwitness
    exact ⟨hplaces.sites, hplaces.placements⟩

end Branches

/-! ## A step of the schedule -/

/-- Steps that keep a property keep it over a run that does not fail. -/
theorem foldlM_keeps {α σ : Type} {step : σ → α → Option σ} {P : σ → Prop} {items : List α}
    (hstep : ∀ item ∈ items, ∀ s s', P s → step s item = some s' → P s') {s s' : σ} (hs : P s)
    (h : items.foldlM step s = some s') : P s' := by
  induction items generalizing s with
  | nil =>
    cases h
    exact hs
  | cons item items ih =>
    rw [List.foldlM_cons] at h
    obtain ⟨middle, hmiddle, hrest⟩ := Option.bind_eq_some_iff.mp h
    exact ih (fun item' hitem' => hstep item' (List.mem_cons_of_mem _ hitem'))
      (hstep item List.mem_cons_self s middle hs hmiddle) hrest

/-- What is shared at a block is available there, and every path from there goes on to need it. -/
structure Shared (graph : FunctionGraph n m e) (successors : Fin (n + 1) → List (Fin (n + 1))) (block : Fin n)
    (producer : Fin m) : Prop where
  reachable : Reachable graph.outgoing graph.entry block
  available : Available graph producer block
  needed : Reaches successors (Needs graph · producer) block

section Steps

variable {t : Situation n m e}

/-- What a schedule is given is right about its graph. -/
structure Faithful (situation : Situation n m e) : Prop where
  dominators : ∀ a b, situation.dominators.dominates a b = true →
    Reachable situation.graph.outgoing situation.graph.entry b ∧
      Dominates situation.graph.outgoing situation.graph.entry a b
  postdominators : ∀ a b, situation.postdominators.dominates a b = true →
    Dominates (reversed situation.successors) (Fin.last n) a b
  requirements : situation.requirements = situation.graph.requirements situation.dominators

/-- Every path from a block goes on to need a calculation. -/
abbrev Covers (situation : Situation n m e) (producer : Fin m) (block : Fin n) : Prop :=
  Reaches situation.successors (Needs situation.graph · producer) block

/-- Required sites are blocks from which a calculation is needed. -/
def Wanted (situation : Situation n m e) (demands : Fin m → ResultDemand n) : Prop :=
  ∀ producer site, (demands producer).sites.requiredSites site = true → Covers situation producer site

variable {id : Fin m}

variable {demands : Fin m → ResultDemand n}

theorem Wanted.update (h : Wanted t demands)
    {demand : ResultDemand n} (hdemand : ∀ site, demand.sites.requiredSites site = true → Covers t id site) :
    Wanted t (update demands id demand) := by
  intro prod site hsite
  by_cases heq : prod = id
  · subst heq
    rw [update_self] at hsite
    exact hdemand site hsite
  · rw [update_of_ne heq] at hsite
    exact h prod site hsite

theorem merge_requiredSites {demand other merged : Demand n} {retained : Bool} {dominators : Dominators n}
    {site : Fin n} (h : demand.merge other retained dominators = some merged)
    (hsite : merged.requiredSites site = true) :
    demand.requiredSites site = true ∨ retained = true ∧ other.requiredSites site = true := by
  rw [Demand.merge] at h
  split at h
  · cases h
    exact Or.inl hsite
  · obtain ⟨⟨common, multiple⟩, -, hmerged⟩ := Option.map_eq_some_iff.mp h
    cases hmerged
    exact (Bool.or_eq_true_iff.mp hsite).imp id Bool.and_eq_true_iff.mp

variable {demands demands' : Fin m → ResultDemand n}

variable {sites : Demand n}

theorem demand_wanted {value : Fin m} {retained : Bool}
    (h : t.demand value sites retained demands = some demands') (hwanted : Wanted t demands)
    (hsites : retained = true → ∀ prod inputs, t.graph.expression value = some (prod, inputs) →
      ∀ site, sites.requiredSites site = true → Covers t prod site) : Wanted t demands' := by
  rw [Situation.demand] at h
  split at h
  · cases h
    exact hwanted
  · next prod inputs hval =>
      obtain ⟨merged, hmerge, rfl⟩ := Option.map_eq_some_iff.mp h
      have hused : Wanted t (update demands value
          { demands value with used := (demands value).used || sites.commonBlock.isSome }) :=
        hwanted.update (hwanted value)
      refine hused.update fun site hsite => ?_
      rcases merge_requiredSites hmerge hsite with hsite | ⟨hret, hsite⟩
      · exact hused prod site hsite
      · exact hsites hret prod inputs hval site hsite

variable {block : Fin n}

theorem demandRoots_wanted {reachable : Fin n → Bool} {recipes : Fin n → Fin m → List (Fin m)}
    (h : t.demandRoots reachable (t.graph.roots recipes reachable) demands block = some demands')
    (hwanted : Wanted t demands) : Wanted t demands' := by
  rw [Situation.demandRoots] at h
  split at h
  · next hreach =>
      obtain ⟨middle, hreq, hreusable⟩ := Option.bind_eq_some_iff.mp h
      have hmiddle : Wanted t middle := by
        refine foldlM_keeps (fun input hin s s' hs hstep => ?_) hwanted hreq
        refine demand_wanted hstep hs fun _ prod inputs hval site hsite => ?_
        rw [show site = block from of_decide_eq_true hsite]
        refine .of_site ⟨input, inputs, .root ?_, hval⟩
        rw [FunctionGraph.roots, FunctionGraph.requiredRoots, if_pos hreach] at hin
        exact hin
      refine foldlM_keeps (fun input _ s s' hs hstep => ?_) hmiddle hreusable
      exact demand_wanted hstep hs nofun
  · cases h
    exact hwanted

/-- What needs a calculation needs those of its inputs. -/
theorem Needs.input {graph : FunctionGraph n m e} {id input prod : Fin m}
    {inputs inputs' : List (Fin m)} {results : Nat} (h : Needs graph block id)
    (hid : graph.values id = .expression inputs results) (hin : input ∈ inputs)
    (hval : graph.expression input = some (prod, inputs')) : Needs graph block prod := by
  obtain ⟨value, found, hrequires, hfound⟩ := h
  obtain ⟨results', hid'⟩ := expression_inputs hfound
  rw [hid] at hid'
  cases hid'
  exact ⟨input, inputs', hrequires.input hfound hin, hval⟩

theorem demandInput_wanted {id input : Fin m} {inputs : List (Fin m)} {results : Nat}
    (h : t.demandInput sites demands input = some demands')
    (hwanted : Wanted t demands) (hid : t.graph.values id = .expression inputs results)
    (hin : input ∈ inputs) (hsites : ∀ site, sites.requiredSites site = true → Covers t id site) :
    Wanted t demands' := by
  rw [Situation.demandInput] at h
  refine demand_wanted h ?_ fun _ prod inputs' hval site hsite => ?_
  · split
    · exact hwanted
    · next prod inputs' hval => exact hwanted.update fun site hsite => hwanted prod site hsite
  · exact (hsites site hsite).through fun block hblk => .of_site (hblk.input hid hin hval)

variable (hfaith : Faithful t)

include hfaith

theorem covers_of_postdominates {prod : Fin m} {site block : Fin n} (h : t.postdominates site block = true)
    (hsite : Covers t prod site) : Covers t prod block := by
  refine (reaches_of_postdominates (hfaith.postdominators _ _ h)).through fun site' heq => ?_
  rw [heq]
  exact hsite

/-- Where sharing is permitted, inputs are defined and the calculation is needed. -/
theorem permits_spec {coverage coverage' : Coverage n} {candidate : Fin n}
    {allowed : Bool} (h : t.permits coverage id candidate sites = some (coverage', allowed))
    (hcoverage : ∀ block, coverage.visited block ≤ coverage.generation)
    (hsites : ∀ site, sites.requiredSites site = true → Covers t id site) :
    (∀ block, coverage'.visited block ≤ coverage'.generation) ∧
      (allowed = true → Covers t id candidate ∧ ∃ required, t.requirements id = some required ∧
        t.dominators.dominates required candidate = true) := by
  rw [Situation.permits] at h
  split at h
  · next hreq =>
      obtain ⟨required, hreq, hdominates⟩ := (Option.any_eq_true ..).mp hreq
      split at h
      · next hany =>
          cases h
          obtain ⟨site, -, hsite⟩ := List.any_eq_true.mp hany
          obtain ⟨hsite, hpost⟩ := Bool.and_eq_true_iff.mp hsite
          exact ⟨hcoverage, fun _ => ⟨covers_of_postdominates hfaith hpost (hsites site hsite),
            required, hreq, hdominates⟩⟩
      · split at h
        · obtain ⟨hcoverage', hreaches⟩ := Coverage.allPathsReach_spec h hcoverage
          exact ⟨hcoverage', fun hallow => ⟨(hreaches hallow).through hsites, required, hreq, hdominates⟩⟩
        · cases h
          exact ⟨hcoverage, nofun⟩
  · cases h
    exact ⟨hcoverage, nofun⟩

/-- Schedules hold calculations that are shared safely. -/
def Safe (situation : Situation n m e) (schedules : Fin n → List (Fin m)) : Prop :=
  ∀ block, ∀ value ∈ schedules block, ∃ producer, value ∈ situation.graph.expressionResults producer ∧
    Shared situation.graph situation.successors block producer

theorem shared_of_required {block required : Fin n} (hreq : t.requirements id = some required)
    (hdominates : t.dominators.dominates required block = true) (hcov : Covers t id block) :
    Shared t.graph t.successors block id := by
  obtain ⟨hreach, hdom⟩ := hfaith.dominators _ _ hdominates
  rw [hfaith.requirements] at hreq
  have hav := requirements_spec (fun a b h => (hfaith.dominators a b h).2) hreq
  exact ⟨hreach, hav.mono hdom, hcov⟩

omit hfaith in
theorem Safe.schedule {schedules : Fin n → List (Fin m)}
    (h : Safe t schedules) (hshared : Shared t.graph t.successors block id) :
    Safe t (t.schedule demands id schedules block) := by
  intro other value hval
  rw [Situation.schedule] at hval
  by_cases heq : other = block
  · subst heq
    rw [update_self] at hval
    rcases List.mem_append.mp hval with hval | hval
    · exact h other value hval
    · exact ⟨id, (List.mem_filter.mp hval).1, hshared⟩
  · rw [update_of_ne heq] at hval
    exact h other value hval

omit hfaith in
theorem Safe.scheduleAll {schedules : Fin n → List (Fin m)}
    {blocks : List (Fin n)} (h : Safe t schedules)
    (hshared : ∀ block ∈ blocks, Shared t.graph t.successors block id) :
    Safe t (blocks.foldl (t.schedule demands id) schedules) := by
  induction blocks generalizing schedules with
  | nil => exact h
  | cons block blocks ih =>
    exact ih (h.schedule (hshared block List.mem_cons_self))
      fun other hother => hshared other (List.mem_cons_of_mem _ hother)

/-- What scheduling keeps. -/
structure Sound (situation : Situation n m e) (scheduler : Scheduler n m) : Prop where
  demands : Wanted situation scheduler.demands
  coverage : ∀ block, scheduler.coverage.visited block ≤ scheduler.coverage.generation
  schedules : Safe situation scheduler.schedules

theorem share_spec {scheduler scheduler' : Scheduler n m} {sites sites' : Demand n}
    (h : t.share scheduler id sites = some (scheduler', sites')) (hsound : Sound t scheduler)
    (hsites : ∀ site, sites.requiredSites site = true → Covers t id site) :
    Sound t scheduler' ∧ ∀ site, sites'.requiredSites site = true → Covers t id site := by
  rw [Situation.share] at h
  split at h
  · split at h
    · cases h
    · next candidate _ =>
        split at h
        · cases h
        · next coverage hpermits =>
            cases h
            obtain ⟨hcoverage, hallow⟩ := permits_spec hfaith hpermits hsound.coverage hsites
            obtain ⟨hcov, required, hreq, hdominates⟩ := hallow rfl
            have hshared := shared_of_required hfaith hreq hdominates hcov
            refine ⟨⟨hsound.demands, hcoverage, hsound.schedules.schedule hshared⟩, fun site hsite => ?_⟩
            rw [show site = candidate from of_decide_eq_true hsite]
            exact hcov
        · next coverage hpermits =>
            obtain ⟨hcoverage, -⟩ := permits_spec hfaith hpermits hsound.coverage hsites
            split at h
            · cases h
              exact ⟨⟨hsound.demands, hcoverage, hsound.schedules⟩, hsites⟩
            · next required hreq =>
                obtain ⟨⟨demand, placements⟩, hplacements, hres⟩ := Option.map_eq_some_iff.mp h
                cases hres
                obtain ⟨hleft, hplc⟩ := branchPlacements_spec
                  (fun site block hpost hsite => covers_of_postdominates hfaith hpost hsite) hplacements hsites
                refine ⟨⟨hsound.demands, hcoverage, hsound.schedules.scheduleAll fun block hblk => ?_⟩, hleft⟩
                obtain ⟨hcov, hdominates⟩ := hplc block hblk
                exact shared_of_required hfaith hreq hdominates hcov
  · cases h
    exact ⟨hsound, hsites⟩

/-- A calculation is shared safely, and its inputs are wanted where it is needed. -/
theorem visit_spec {scheduler scheduler' : Scheduler n m}
    (h : t.visit scheduler id = some scheduler') (hsound : Sound t scheduler) :
    Sound t scheduler' := by
  rw [Situation.visit] at h
  split at h
  · next inputs results hid =>
      obtain ⟨⟨shared, sites⟩, hshare, hrest⟩ := Option.bind_eq_some_iff.mp h
      obtain ⟨demands, hdemands, rfl⟩ := Option.map_eq_some_iff.mp hrest
      have htaken : Wanted t
          (update scheduler.demands id { scheduler.demands id with sites := .default }) :=
        hsound.demands.update nofun
      obtain ⟨hshared, hsites⟩ := share_spec hfaith hshare ⟨htaken, hsound.coverage, hsound.schedules⟩
        (hsound.demands id)
      refine ⟨?_, hshared.coverage, hshared.schedules⟩
      exact foldlM_keeps (fun input hin s s' hs hstep => demandInput_wanted hstep hs hid hin hsites)
        hshared.demands hdemands
  · cases h
    exact hsound

end Steps

/-! ## The schedule -/

section Schedule

variable {graph : FunctionGraph n m e}

/-- A loop that ends keeps what each step keeps. -/
theorem repeatWhile_keeps {σ : Type} {step : σ → Option σ} {P : σ → Prop}
    (hstep : ∀ s s', P s → step s = some s' → P s') {fuel : Nat} {s s' : σ} (hs : P s)
    (h : repeatWhile step fuel s = some s') : P s' ∧ step s' = none := by
  induction fuel generalizing s with
  | zero => cases h
  | succ fuel ih =>
    rw [repeatWhile] at h
    split at h
    · next hlast =>
        cases h
        exact ⟨hs, hlast⟩
    · next next hnext => exact ih (hstep s next hs hnext) h

/-- What a search of the graph keeps. -/
structure Searched (graph : FunctionGraph n m e) (search : FunctionGraph.Search n) : Prop where
  seen : ∀ block, search.seen block = true → Reachable graph.outgoing graph.entry block
  pending : ∀ block ∈ search.pending, Reachable graph.outgoing graph.entry block
  entry : search.seen graph.entry = true ∨ graph.entry ∈ search.pending
  closed : ∀ block, search.seen block = true → ∀ target ∈ graph.outgoing block,
    search.seen target = true ∨ target ∈ search.pending

theorem Searched.step {search search' : FunctionGraph.Search n} (h : Searched graph search)
    (hstep : search.step graph.outgoing = some search') : Searched graph search' := by
  obtain ⟨seen, pending⟩ := search
  rw [FunctionGraph.Search.step] at hstep
  cases pending with
  | nil => cases hstep
  | cons block pending =>
    dsimp only at hstep
    have hblk := h.pending block List.mem_cons_self
    split at hstep
    · next hseen =>
        cases hstep
        have hleft : ∀ other, seen other = true ∨ other ∈ block :: pending → seen other = true ∨ other ∈ pending := by
          rintro other (hother | hother)
          · exact Or.inl hother
          · rcases List.mem_cons.mp hother with rfl | hother
            · exact Or.inl hseen
            · exact Or.inr hother
        exact ⟨h.seen, fun other hother => h.pending other (List.mem_cons_of_mem _ hother), hleft _ h.entry,
          fun other hother target htarget => hleft _ (h.closed other hother target htarget)⟩
    · cases hstep
      have hleft : ∀ other, seen other = true ∨ other ∈ block :: pending →
          update seen block true other = true ∨ other ∈ (graph.outgoing block).reverse ++ pending := by
        intro other hother
        by_cases heq : other = block
        · rw [heq]
          exact Or.inl (update_self ..)
        · rw [update_of_ne heq]
          rcases hother with hother | hother
          · exact Or.inl hother
          · exact Or.inr (List.mem_append_right _ ((List.mem_cons.mp hother).resolve_left heq))
      refine ⟨fun other hother => ?_, fun other hother => ?_, hleft _ h.entry, fun other hother target htarget => ?_⟩
      · by_cases heq : other = block
        · rw [heq]
          exact hblk
        · dsimp only at hother
          rw [update_of_ne heq] at hother
          exact h.seen other hother
      · rcases List.mem_append.mp hother with hother | hother
        · exact hblk.step (List.mem_reverse.mp hother)
        · exact h.pending other (List.mem_cons_of_mem _ hother)
      · by_cases heq : other = block
        · subst heq
          exact Or.inr (List.mem_append_left _ (List.mem_reverse.mpr htarget))
        · dsimp only at hother
          rw [update_of_ne heq] at hother
          exact hleft target (h.closed other hother target htarget)

/-- The search ends with the blocks that paths from the entry reach. -/
theorem reachable_spec {fuel : Nat} {reachable : Fin n → Bool} (h : graph.reachable fuel = some reachable)
    (block : Fin n) : reachable block = true ↔ Reachable graph.outgoing graph.entry block := by
  obtain ⟨search, hsearch, rfl⟩ := Option.map_eq_some_iff.mp h
  have hst : Searched graph ⟨fun _ => false, [graph.entry]⟩ :=
    ⟨nofun, fun other hother => List.mem_singleton.mp hother ▸ .refl, Or.inr (List.mem_singleton_self _), nofun⟩
  obtain ⟨hsearched, hlast⟩ := repeatWhile_keeps (fun _ _ h hstep => h.step hstep) hst hsearch
  have hnone : ∀ other, other ∉ search.pending := by
    intro other hother
    rw [FunctionGraph.Search.step] at hlast
    split at hlast
    · next hpend =>
        rw [hpend] at hother
        cases hother
    · split at hlast <;> cases hlast
  constructor
  · exact hsearched.seen block
  · rintro ⟨nodes, hpath⟩
    induction hpath with
    | root => exact hsearched.entry.resolve_right (hnone _)
    | @step a b nodes _ hedge ih => exact (hsearched.closed a ih b hedge).resolve_right (hnone _)

variable {reachable : Fin n → Bool}

/-- Paths do not leave the reached blocks. -/
theorem path_successors (hreach : ∀ block, reachable block = true ↔ Reachable graph.outgoing graph.entry block)
    {block : Fin n} {nodes : List (Fin n)} :
    Path (graph.successors reachable) graph.entry block nodes ↔ Path graph.outgoing graph.entry block nodes := by
  constructor
  · intro hpath
    induction hpath with
    | root => exact .root
    | step _ hedge ih =>
      rw [FunctionGraph.successors] at hedge
      split at hedge
      · exact ih.step hedge
      · cases hedge
  · intro hpath
    induction hpath with
    | root => exact .root
    | step hpath hedge ih =>
      refine ih.step ?_
      rw [FunctionGraph.successors, if_pos ((hreach _).mpr ⟨_, hpath⟩)]
      exact hedge

theorem mem_predecessors {a b : Fin n} :
    b ∈ graph.successors reachable a ↔ a ∈ graph.predecessors reachable b := by
  rw [FunctionGraph.predecessors, List.mem_filter, List.contains_iff_mem]
  exact ⟨fun h => ⟨List.mem_finRange a, h⟩, And.right⟩

variable {dominators : Dominators n}

/-- A way out of a block is a path from the synthetic exit. -/
theorem Leaving.path (hreach : ∀ block, reachable block = true ↔ Reachable graph.outgoing graph.entry block)
    (hdoms : ∀ a b, dominators.dominates a b = true ↔ Reachable graph.outgoing graph.entry a ∧
      Reachable graph.outgoing graph.entry b ∧ Dominates graph.outgoing graph.entry a b)
    {block : Fin n} {blocks : List (Fin n)} (h : Leaving graph block blocks)
    (hblk : Reachable graph.outgoing graph.entry block) :
    Path (reversed (exits graph reachable dominators)) (Fin.last n) block.castSucc
      (blocks.map Fin.castSucc ++ [Fin.last n]) := by
  have hexits : ∀ source : Fin n, Reachable graph.outgoing graph.entry source →
      exits graph reachable dominators source.castSucc = (graph.outgoing source).map Fin.castSucc ++
        if graph.outgoing source = [] ∨
            (graph.outgoing source).any fun target => dominators.dominates target source then
          [Fin.last n]
        else [] := by
    intro source hsrc
    have hsrc := (hreach source).mpr hsrc
    rw [exits, dif_pos (show source.castSucc.val < n from source.isLt)]
    dsimp only [Fin.val_castSucc, Fin.eta]
    rw [FunctionGraph.successors, if_pos hsrc]
    congr 1
    exact if_congr (and_iff_right hsrc) rfl rfl
  induction h with
  | @exit block hnone =>
    refine Path.root.step (mem_reversed.mpr ?_)
    rw [hexits block hblk, if_pos (Or.inl hnone)]
    exact List.mem_append_right _ (List.mem_singleton_self _)
  | @back block target hedge hback =>
    refine Path.root.step (mem_reversed.mpr ?_)
    have hdominates : dominators.dominates target block = true :=
      (hdoms target block).mpr ⟨hblk.step hedge, hblk, hback⟩
    rw [hexits block hblk, if_pos (Or.inr (List.any_eq_true.mpr ⟨target, hedge, hdominates⟩))]
    exact List.mem_append_right _ (List.mem_singleton_self _)
  | @step block target blocks hedge _ ih =>
    refine (ih (hblk.step hedge)).step (mem_reversed.mpr ?_)
    rw [hexits block hblk]
    exact List.mem_append_left _ (List.mem_map_of_mem hedge)

/-- A shared calculation is available in the block where it is shared, which is reached, and every path that leaves
    from there goes through a block that needs it. -/
theorem schedules_safe {fuel : Nat} {recipes : Fin n → Fin m → List (Fin m)} {result : Fin n → List (Fin m)}
    (h : schedules fuel graph recipes = some result) (block : Fin n) (value : Fin m) (hvalue : value ∈ result block) :
    Reachable graph.outgoing graph.entry block ∧ Available graph value block ∧
      ∃ producer inputs, graph.expression value = some (producer, inputs) ∧
        ∀ blocks, Leaving graph block blocks → ∃ needs ∈ blocks, Needs graph needs producer := by
  obtain ⟨reachable, hreach, h⟩ := Option.bind_eq_some_iff.mp h
  obtain ⟨dominators, hnew, h⟩ := Option.bind_eq_some_iff.mp h
  obtain ⟨postdominators, hpost, h⟩ := Option.bind_eq_some_iff.mp h
  obtain ⟨demands, hdemands, h⟩ := Option.bind_eq_some_iff.mp h
  obtain ⟨scheduler, hscheduler, rfl⟩ := Option.map_eq_some_iff.mp h
  have hreachable := reachable_spec hreach
  have hdominators : ∀ a b, dominators.dominates a b = true ↔ Reachable graph.outgoing graph.entry a ∧
      Reachable graph.outgoing graph.entry b ∧ Dominates graph.outgoing graph.entry a b := by
    intro a b
    rw [new_sound (fun _ _ => mem_predecessors) hnew, Reachable, Reachable, Dominates]
    simp only [path_successors hreachable]
    rfl
  let situation : Situation n m e :=
    ⟨graph, dominators, postdominators, exits graph reachable dominators, graph.requirements dominators, fuel⟩
  have hfaithful : Faithful situation :=
    ⟨fun a b h => ((hdominators a b).mp h).2,
      fun a b h => ((new_sound (fun _ _ => mem_reversed) hpost a b).mp h).2.2, rfl⟩
  have hstart : Wanted situation fun _ => ⟨.default, false⟩ := fun _ _ hsite => absurd hsite Bool.false_ne_true
  have hwanted := foldlM_keeps (fun block _ s s' hs hstep => demandRoots_wanted hstep hs) hstart hdemands
  have hsound := foldlM_keeps (P := Sound situation) (fun id _ s s' hs hstep => visit_spec hfaithful hstep hs)
    ⟨hwanted, fun _ => Nat.le_refl _, fun _ _ hmem => absurd hmem List.not_mem_nil⟩ hscheduler
  obtain ⟨producer, hresult, hshared⟩ := hsound.schedules block value (List.mem_reverse.mp hvalue)
  obtain ⟨⟨producer', inputs⟩, hexpression, hproducer⟩ :=
    Option.map_eq_some_iff.mp (graph.together producer value hresult)
  cases hproducer
  refine ⟨hshared.reachable, hshared.available.of_expression hexpression, producer', inputs, hexpression,
    fun blocks hleaving => ?_⟩
  obtain ⟨site, hneeds, hmem⟩ := hshared.needed _ (hleaving.path hreachable hdominators hshared.reachable)
  refine ⟨site, ?_, hneeds⟩
  rcases List.mem_append.mp hmem with hmem | hmem
  · obtain ⟨site', hsite', heq⟩ := List.mem_map.mp hmem
    rw [← Fin.castSucc_injective n heq]
    exact hsite'
  · exact absurd (List.mem_singleton.mp hmem) (Fin.castSucc_lt_last site).ne

end Schedule

/-! ## Several results -/

/-- The first result of an expression is used where the function branches, the second on one branch. -/
def pairValues : Fin 5 → Definition 5 5 1 := ![.parameter 0, .expression [0] 2, .evaluate 1, .literal, .literal]

theorem pairValues_together :
    ∀ prod, ∀ value ∈ resultsOf pairValues prod, (expressionOf pairValues value).map Prod.fst = some prod := by
  decide

def pairGraph : FunctionGraph 5 5 1 where
  entry := 0
  items := ![[0], [], [], [], []]
  exit := ![[0], [2], [0], [], []]
  outgoing := ![[1, 2], [], [], [], []]
  operation := ![[1]]
  values := pairValues
  together := pairValues_together

theorem schedules_pairGraph :
    (schedules 40 pairGraph fun _ _ => []).map (fun result => (List.finRange 5).map result) =
      some [[2, 1], [], [], [], []] := by
  decide +kernel

/-- The branch that does not use the second result does not require it. -/
theorem not_requires_pairGraph {block : Fin 5} (hblk : block ∈ [0, 2]) : ¬ Requires pairGraph block 2 := by
  have hother : ∀ value, Requires pairGraph block value → value ≠ 2 := by
    intro value h
    induction h with
    | root h =>
      rintro rfl
      revert h hblk
      revert block
      decide
    | @input value producer input inputs _ hval hin _ =>
      rintro rfl
      revert hval hin
      have hinputs : ∀ value, ∀ found ∈ pairGraph.expression value, (2 : Fin 5) ∉ found.2 := by decide
      exact fun hval hin => hinputs value (producer, inputs) hval hin
  exact fun h => hother 2 h rfl

/-- All results in use are shared together, so a path may require another result only. -/
theorem schedules_unrequired : ¬ ∀ (fuel : Nat) (graph : FunctionGraph 5 5 1) recipes result,
    schedules fuel graph recipes = some result → ∀ block, ∀ value ∈ result block, ∀ blocks,
      Leaving graph block blocks → ∃ needs ∈ blocks, Requires graph needs value := by
  intro h
  obtain ⟨result, hresult, hlists⟩ := Option.map_eq_some_iff.mp schedules_pairGraph
  have hentry : result 0 = [2, 1] := List.head_eq_of_cons_eq hlists
  have hleaving : Leaving pairGraph 0 [0, 2] := .step (by decide) (.exit rfl)
  obtain ⟨block, hblock, hrequires⟩ := h 40 pairGraph _ result hresult 0 2 (by rw [hentry]; decide) [0, 2] hleaving
  exact not_requires_pairGraph hblock hrequires

theorem schedules_safe_pairGraph : ∃ result, schedules 40 pairGraph (fun _ _ => []) = some result ∧
    Reachable pairGraph.outgoing pairGraph.entry 0 ∧ Available pairGraph 2 0 ∧
      ∃ producer inputs, pairGraph.expression 2 = some (producer, inputs) ∧
        ∀ blocks, Leaving pairGraph 0 blocks → ∃ needs ∈ blocks, Needs pairGraph needs producer := by
  obtain ⟨result, hresult, hlists⟩ := Option.map_eq_some_iff.mp schedules_pairGraph
  have hentry : result 0 = [2, 1] := List.head_eq_of_cons_eq hlists
  exact ⟨result, hresult, schedules_safe hresult 0 2 (by rw [hentry]; decide)⟩

end Relocade.Compiler.Place
