import Mathlib.Data.List.Count
import Relocade.Compiler.Emit.Selection

/-!
# `Compiler.Emit.Consumers` — use counts of placed values

Every use of a value belongs to an enabled item or to an exit. Moving the consumers of a calculation to another value,
and skipping the calculation, keeps the counts.
-/

namespace Relocade.Compiler.Emit

open Function (update update_self update_of_ne)

/-! ## Consumers -/

/-- The items of the blocks that are reached. -/
def placedItems (graph : FunctionGraph) (reachable : Nat → Bool) : List BlockItem :=
  ((List.range graph.blocks.length).filter reachable).flatMap fun id => (graph.block id).items

/-- The inputs of the exits of the blocks that are reached. -/
def exitInputs (graph : FunctionGraph) (reachable : Nat → Bool) : List Nat :=
  ((List.range graph.blocks.length).filter reachable).flatMap fun id => (graph.block id).exit.inputs

/-- The results of the placed items, in order. -/
def placedResults (graph : FunctionGraph) (reachable : Nat → Bool) : List Nat :=
  (placedItems graph reachable).flatMap graph.results

def countUse (uses : Nat → Nat) (input : Nat) : Nat → Nat := update uses input (uses input + 1)

namespace Selection

/-- Every placed use, before any choice. -/
def start (graph : FunctionGraph) (reachable : Nat → Bool) : Selection where
  skipped := fun _ => false
  memory := fun _ => none
  zeroTestMasks := fun _ => false
  aliases := fun _ => none
  uses :=
    (((List.range graph.blocks.length).filter reachable).flatMap fun id =>
      (graph.block id).items.flatMap graph.inputs ++ (graph.block id).exit.inputs).foldl countUse fun _ => 0

def enabled (selection : Selection) : BlockItem → Bool
  | .evaluate value => !selection.skipped value
  | .effect _ => true

/-- What enabled items and exits read. -/
def liveInputs (selection : Selection) (graph : FunctionGraph) (items : List BlockItem) (exits : List Nat) : List Nat :=
  (items.filter selection.enabled).flatMap graph.inputs ++ exits

/-- Bypass conversions that keep the carrier. -/
def bypassConversions (selection : Selection) (graph : FunctionGraph) (order : List Nat) : Selection :=
  order.foldl (fun selection value =>
    match graph.values.definition value with
    | .expression (.unary .convert input) =>
        if (graph.values.ty value).carrier = (graph.values.ty input).carrier then
          selection.bypassExpression graph value input
        else selection
    | _ => selection) selection

end Selection

/-- A value whose calculation is placed, if it has one. -/
structure Available (graph : FunctionGraph) (items : List BlockItem) (id : Nat) : Prop where
  lt : id < graph.values.size
  expression : ∀ e, graph.values.definition id = .expression e → .evaluate id ∈ items
  projection : ∀ producer component, graph.values.definition id = .result (.evaluate producer) component →
    .evaluate producer ∈ items

/-- Every calculation is placed once, and the calculations that are read are placed. -/
structure Placed (graph : FunctionGraph) (items : List BlockItem) (exits : List Nat) : Prop where
  once : items.Nodup
  distinct : (items.flatMap graph.results).Nodup
  expression : ∀ value, .evaluate value ∈ items →
    value < graph.values.size ∧ ∃ e, graph.values.definition value = .expression e
  result : ∀ value ∈ items.flatMap graph.results, ∀ e, graph.values.definition value = .expression e →
    .evaluate value ∈ items
  input : ∀ i ∈ items.flatMap graph.inputs ++ exits, Available graph items i

/-- Use counts are those of the live consumers, and what has an alias is skipped. -/
structure Selection.Counted (selection : Selection) (graph : FunctionGraph) (items : List BlockItem)
    (exits : List Nat) : Prop where
  uses : ∀ value, selection.uses value =
    ((selection.liveInputs graph items exits).map selection.resolve).count value
  skipped : ∀ value, (selection.aliases value).isSome → selection.skipped value = true

variable {g : FunctionGraph} {s : Selection} {items : List BlockItem} {exits : List Nat}

/-! ## First counts -/

theorem foldl_countUse (inputs : List Nat) (uses : Nat → Nat) (value : Nat) :
    inputs.foldl countUse uses value = uses value + inputs.count value := by
  induction inputs generalizing uses with
  | nil => rfl
  | cons input inputs ih =>
    rw [List.foldl_cons, ih, List.count_cons, countUse]
    by_cases heq : value = input
    · subst heq
      rw [update_self, if_pos (beq_self_eq_true _)]
      omega
    · rw [update_of_ne heq, if_neg (by simpa using Ne.symm heq)]
      rfl

theorem count_flatMap_append {α : Type} (f g : α → List Nat) (l : List α) (value : Nat) :
    (l.flatMap fun a => f a ++ g a).count value = (l.flatMap f).count value + (l.flatMap g).count value := by
  induction l with
  | nil => rfl
  | cons a l ih =>
    simp only [List.flatMap_cons, List.count_append, ih]
    omega

namespace Selection

theorem start_resolve (reachable : Nat → Bool) (value : Nat) : (start g reachable).resolve value = value :=
  resolve_of_none rfl

theorem start_counted (reachable : Nat → Bool) :
    (start g reachable).Counted g (placedItems g reachable) (exitInputs g reachable) := by
  refine ⟨fun value => ?_, fun value => ?_⟩
  · have hrsv : (start g reachable).resolve = id := funext (start_resolve reachable)
    have hen : (placedItems g reachable).filter
      (start g reachable).enabled = placedItems g reachable :=
      List.filter_eq_self.mpr fun item _ => by cases item <;> rfl
    rw [hrsv, List.map_id, liveInputs, hen, List.count_append, placedItems, exitInputs, List.flatMap_assoc]
    show List.foldl countUse _ _ value = _
    rw [foldl_countUse, Nat.zero_add, count_flatMap_append]
  · exact nofun

/-! ## Consumers that are skipped -/

/-- What is live after a calculation is skipped, and what the calculation read. -/
theorem liveInputs_skip (g : FunctionGraph) (exits : List Nat) (honce : items.Nodup) {sel' : Selection}
    {value : Nat}
    (hplc : .evaluate value ∈ items) (hlive : s.skipped value = false)
    (hskipped : sel'.skipped = update s.skipped value true) : ∃ before after,
    s.liveInputs g items exits = before ++ (g.inputs (.evaluate value) ++ after) ∧
      sel'.liveInputs g items exits = before ++ after := by
  obtain ⟨front, back, rfl⟩ := List.append_of_mem hplc
  rw [List.nodup_append] at honce
  obtain ⟨-, hback, hdisj⟩ := honce
  have hen : ∀ item, item ≠ .evaluate value → sel'.enabled item = s.enabled item := by
    intro item hitem
    cases item with
    | effect _ => rfl
    | evaluate v =>
      have hv : v ≠ value := fun heq => hitem (congrArg BlockItem.evaluate heq)
      rw [enabled, enabled, hskipped, update_of_ne hv]
  have hdead : ¬ sel'.enabled (.evaluate value) = true := by
    rw [enabled, hskipped, update_self]
    exact Bool.false_ne_true
  have hlive : s.enabled (.evaluate value) = true := by
    rw [enabled, hlive]
    rfl
  have hfront : front.filter sel'.enabled = front.filter s.enabled :=
    List.filter_congr fun item hitem => hen item fun heq =>
      hdisj item hitem (.evaluate value) List.mem_cons_self heq
  have hback' : back.filter sel'.enabled = back.filter s.enabled :=
    List.filter_congr fun item hitem => hen item fun heq => (List.nodup_cons.mp hback).1 (heq ▸ hitem)
  refine ⟨(front.filter s.enabled).flatMap g.inputs, (back.filter s.enabled).flatMap g.inputs ++ exits, ?_, ?_⟩
  · rw [liveInputs, List.filter_append, List.filter_cons, if_pos hlive, List.flatMap_append, List.flatMap_cons]
    simp only [List.append_assoc]
  · rw [liveInputs, List.filter_append, List.filter_cons, if_neg hdead, hfront, hback', List.flatMap_append]
    simp only [List.append_assoc]

/-- A position where a value that occurs once stands. -/
theorem index_unique {l : List Nat} {v k k' : Nat} (hcnt : l.count v = 1) (hk : l[k]? = some v)
    (hk' : l[k']? = some v) : k' = k := by
  by_contra hne
  have hdistinct : ∀ m n : Nat, m < n → l[m]? = some v → l[n]? = some v → False := by
    intro m n hlt hm hn
    obtain ⟨hm, hvm⟩ := List.getElem?_eq_some_iff.mp hm
    obtain ⟨hn, hvn⟩ := List.getElem?_eq_some_iff.mp hn
    have htwo := List.duplicate_iff_two_le_count.mp
      (List.duplicate_iff_exists_distinct_get.mpr ⟨⟨m, hm⟩, ⟨n, hn⟩, hlt, hvm.symm, hvn.symm⟩)
    omega
  rcases Nat.lt_or_gt_of_ne hne with hlt | hlt
  · exact hdistinct k' k hlt hk' hk
  · exact hdistinct k k' hlt hk hk'

/-- The only use of a value that is used once. -/
theorem Counted.sole (hcounted : s.Counted g items exits) (honce : items.Nodup) {c k i : Nat}
    (huses : s.uses (s.resolve i) = 1) (hplc : .evaluate c ∈ items)
    (hlive : s.skipped c = false) (hk : (g.inputs (.evaluate c))[k]? = some i) :
    (∀ item ∈ items, s.enabled item = true → item ≠ .evaluate c → ∀ j ∈ g.inputs item, s.resolve j ≠ s.resolve i) ∧
    (∀ j ∈ exits, s.resolve j ≠ s.resolve i) ∧
    ∀ k' j, (g.inputs (.evaluate c))[k']? = some j → s.resolve j = s.resolve i → k' = k := by
  let rest : Selection := { s with skipped := update s.skipped c true }
  have hskipped : rest.skipped = update s.skipped c true := rfl
  obtain ⟨before, after, hlist, hrest⟩ := liveInputs_skip g exits honce hplc hlive hskipped
  have hcnt : ((before ++ after).map s.resolve).count (s.resolve i) +
      ((g.inputs (.evaluate c)).map s.resolve).count (s.resolve i) = 1 := by
    rw [← huses, hcounted.uses, hlist]
    simp only [List.map_append, List.count_append]
    omega
  have hmem : s.resolve i ∈ (g.inputs (.evaluate c)).map s.resolve :=
    List.mem_map_of_mem (List.mem_of_getElem? hk)
  have hpos := List.count_pos_iff.mpr hmem
  have hother : ∀ j ∈ rest.liveInputs g items exits, s.resolve j ≠ s.resolve i := by
    intro j hj heq
    rw [hrest] at hj
    have := List.count_pos_iff.mpr (heq ▸ List.mem_map_of_mem (f := s.resolve) hj)
    omega
  refine ⟨fun item hitem hen hne j hj => hother j ?_, fun j hj => hother j ?_, fun k' j hk' heq => ?_⟩
  · refine List.mem_append_left _ (List.mem_flatMap.mpr ⟨item, List.mem_filter.mpr ⟨hitem, ?_⟩, hj⟩)
    cases item with
    | effect _ => rfl
    | evaluate v =>
      have hv : v ≠ c := fun heq => hne (congrArg BlockItem.evaluate heq)
      show (!update s.skipped c true v) = true
      rw [update_of_ne hv]
      exact hen
  · exact List.mem_append_right _ hj
  · have hone : ((g.inputs (.evaluate c)).map s.resolve).count (s.resolve i) = 1 := by omega
    refine index_unique hone ?_ ?_
    · rw [List.getElem?_map, hk]
      rfl
    · rw [List.getElem?_map, hk', Option.map_some, heq]

/-! ## Bypasses -/

theorem foldl_release (resolve : Nat → Nat) (inputs : List Nat) (uses : Nat → Nat) (value : Nat) :
    inputs.foldl (fun uses input => update uses (resolve input) (uses (resolve input) - 1)) uses value =
      uses value - (inputs.map resolve).count value := by
  induction inputs generalizing uses with
  | nil => rfl
  | cons input inputs ih =>
    rw [List.foldl_cons, ih, List.map_cons, List.count_cons]
    by_cases heq : value = resolve input
    · rw [heq, update_self, if_pos (beq_self_eq_true _)]
      omega
    · rw [update_of_ne heq, if_neg (by simpa using Ne.symm heq)]
      rfl

variable {t : ValueTable}

theorem Aliased.run_eq (haliased : s.Aliased t) (i : Nat) {n : Nat} (hn : i < n) :
    Descend.run s.aliases n i = s.resolve i := by
  induction i using Nat.strong_induction_on generalizing n with
  | _ i ih =>
    obtain ⟨n, rfl⟩ := Nat.exists_eq_succ_of_ne_zero (Nat.ne_of_gt (Nat.zero_lt_of_lt hn))
    rw [resolve, Descend.run, Descend.run]
    split
    · next b hb =>
        have hlt := haliased.lt i b hb
        rw [ih b hlt (Nat.lt_of_lt_of_le hlt (Nat.le_of_lt_succ hn)), ih b hlt hlt]
    · rfl

theorem Aliased.resolve_of_some (haliased : s.Aliased t) {i target : Nat}
    (h : s.aliases i = some target) : s.resolve i = s.resolve target := by
  have hlt := haliased.lt i target h
  rw [← haliased.run_eq i (Nat.lt_succ_self i), Descend.run, h]
  exact haliased.run_eq target hlt

/-- What an alias of a value without one makes consumers read. -/
theorem resolve_update (haliased : s.Aliased t) {value target : Nat}
    {sel' : Selection} (haliased' : sel'.Aliased t)
    (haliases : sel'.aliases = update s.aliases value (some target))
    (hval : s.aliases value = none) (htarget : s.aliases target = none) (i : Nat) :
    sel'.resolve i = if s.resolve i = value then target else s.resolve i := by
  have hself : sel'.aliases value = some target := by rw [haliases, update_self]
  have hlt := haliased'.lt value target hself
  have htarget' : sel'.resolve target = target := by
    refine resolve_of_none ?_
    rw [haliases, update_of_ne hlt.ne]
    exact htarget
  induction i using Nat.strong_induction_on with
  | _ i ih =>
    by_cases heq : i = value
    · subst heq
      rw [haliased'.resolve_of_some hself, htarget', resolve_of_none hval, if_pos rfl]
    · cases hi : s.aliases i with
      | none =>
        rw [resolve_of_none hi, if_neg heq]
        refine resolve_of_none ?_
        rw [haliases, update_of_ne heq]
        exact hi
      | some next =>
        have hi' : sel'.aliases i = some next := by
          rw [haliases, update_of_ne heq]
          exact hi
        rw [haliased'.resolve_of_some hi', haliased.resolve_of_some hi]
        exact ih next (haliased.lt i next hi)

/-- A single-result calculation that is placed and not yet bypassed, with an input of its carrier. -/
structure Bypass (selection : Selection) (graph : FunctionGraph) (items : List BlockItem)
    (value input : Nat) : Prop where
  placed : .evaluate value ∈ items
  live : selection.skipped value = false
  single : graph.expressionResults value = [value]
  operand : input ∈ graph.inputs (.evaluate value)
  carrier : (graph.values.ty input).carrier = (graph.values.ty value).carrier

theorem retireUnused_of_unused (s : Selection) {value : Nat} {e : Expression Nat}
    (hlive : s.skipped value = false)
    (hdef : g.values.definition value = .expression e)
    (hunused : ∀ result ∈ g.expressionResults value, s.uses result = 0) :
    s.retireUnused g value =
      ({ s with
          skipped := update s.skipped value true
          uses := e.inputs.foldl (fun uses input =>
            update uses (s.resolve input) (uses (s.resolve input) - 1)) s.uses },
        true) := by
  have hnone : ¬ ((g.expressionResults value).any fun result => s.uses result ≠ 0) = true := by
    rw [List.any_eq_true]
    rintro ⟨result, hres, huse⟩
    exact of_decide_eq_true huse (hunused result hres)
  rw [retireUnused, if_neg (by rw [hlive]; exact Bool.false_ne_true), hdef]
  exact if_neg hnone

theorem inputs_lt (hgood : g.values.Good) {value input : Nat} (hval : value < g.values.size)
    (hin : input ∈ g.inputs (.evaluate value)) : input < value := by
  rw [FunctionGraph.inputs] at hin
  split at hin
  · next e hdef => exact hgood.inputs_lt hval (ValueTable.value_eq_iff.mpr ⟨rfl, hdef⟩) input hin
  · cases hin

/-- A calculation is either kept, or has no use and releases its inputs. -/
theorem retireUnused_cases (g : FunctionGraph) (s : Selection) (value : Nat) :
    s.retireUnused g value = (s, false) ∨
      ∃ e, g.values.definition value = .expression e ∧ s.skipped value = false ∧
        (∀ result ∈ g.expressionResults value, s.uses result = 0) ∧
        s.retireUnused g value =
          ({ s with
              skipped := update s.skipped value true
              uses := e.inputs.foldl (fun uses input =>
                update uses (s.resolve input) (uses (s.resolve input) - 1)) s.uses },
            true) := by
  cases hlive : s.skipped value with
  | true => exact Or.inl (if_pos hlive)
  | false =>
    cases hdef : g.values.definition value with
    | expression e =>
      by_cases hunused : ∀ result ∈ g.expressionResults value, s.uses result = 0
      · exact Or.inr ⟨e, rfl, rfl, hunused, retireUnused_of_unused s hlive hdef hunused⟩
      · refine Or.inl ?_
        rw [retireUnused, if_neg (by rw [hlive]; exact Bool.false_ne_true), hdef]
        refine if_pos ?_
        push Not at hunused
        obtain ⟨result, hres, huse⟩ := hunused
        exact List.any_eq_true.mpr ⟨result, hres, decide_eq_true huse⟩
    | _ =>
      refine Or.inl ?_
      rw [retireUnused, if_neg (by rw [hlive]; exact Bool.false_ne_true), hdef]

/-- Skipping a calculation without uses keeps the counts. -/
theorem retireUnused_counted (hplc : Placed g items exits) (hcounted : s.Counted g items exits)
    {value : Nat} (hval : .evaluate value ∈ items) :
    (s.retireUnused g value).1.Counted g items exits := by
  rcases retireUnused_cases g s value with h | ⟨e, hdef, hlive, -, h⟩
  · rw [h]
    exact hcounted
  · have hinputs : g.inputs (.evaluate value) = e.inputs := by rw [FunctionGraph.inputs, hdef]
    have hskipped : (s.retireUnused g value).1.skipped = update s.skipped value true := by rw [h]
    have hrsv : (s.retireUnused g value).1.resolve = s.resolve :=
      resolve_congr (retireUnused_aliases value)
    obtain ⟨before, after, hbef, hafter⟩ := liveInputs_skip g exits hplc.once hval hlive hskipped
    refine ⟨fun x => ?_, fun x hx => ?_⟩
    · rw [hafter, hrsv, h]
      dsimp only
      rw [foldl_release, hcounted.uses, hbef, hinputs]
      simp only [List.map_append, List.count_append]
      omega
    · rw [retireUnused_aliases] at hx
      rw [hskipped]
      by_cases heq : x = value
      · rw [heq]
        exact update_self ..
      · rw [update_of_ne heq]
        exact hcounted.skipped x hx

section Bypasses

variable (hgood : g.values.Good) (haliased : s.Aliased g.values) (hplc : Placed g items exits)
  (hcounted : s.Counted g items exits) {value input : Nat}
  (h : s.Bypass g items value input)

include hgood haliased hplc h

theorem Bypass.resolve_lt : s.resolve input < value :=
  Nat.lt_of_le_of_lt (haliased.resolve_le input) (inputs_lt hgood (hplc.expression value h.placed).1 h.operand)

theorem bypassExpression_eq : s.bypassExpression g value input = { s with
    skipped := update s.skipped value true
    aliases := update s.aliases value (some (s.resolve input))
    uses := (g.inputs (.evaluate value)).foldl
      (fun uses input => update uses (s.resolve input) (uses (s.resolve input) - 1))
      (update (update s.uses value 0) (s.resolve input)
        (s.uses (s.resolve input) + s.uses value)) } := by
  have hne : s.resolve input ≠ value := (h.resolve_lt hgood haliased hplc).ne
  obtain ⟨-, e, hdef⟩ := hplc.expression value h.placed
  have hinputs : g.inputs (.evaluate value) = e.inputs := by rw [FunctionGraph.inputs, hdef]
  let taken : Selection := { s with
    uses := update (update s.uses value 0) (s.resolve input)
      (update s.uses value 0 (s.resolve input) + s.uses value) }
  have hunused : ∀ result ∈ g.expressionResults value, taken.uses result = 0 := by
    intro result hres
    rw [h.single] at hres
    rw [List.mem_singleton.mp hres]
    exact (update_of_ne hne.symm ..).trans (update_self ..)
  have hretired := retireUnused_of_unused taken h.live hdef hunused
  rw [bypassExpression, hretired, hinputs]
  dsimp only [taken]
  rw [update_of_ne hne]
  rfl

theorem bypass_aliased : (s.bypassExpression g value input).Aliased g.values := by
  rw [bypassExpression_eq hgood haliased hplc h]
  refine ⟨fun v target hv => ?_, fun v target hv => ?_⟩
  · by_cases heq : v = value
    · subst heq
      dsimp only at hv
      rw [update_self] at hv
      cases hv
      exact h.resolve_lt hgood haliased hplc
    · dsimp only at hv
      rw [update_of_ne heq] at hv
      exact haliased.lt v target hv
  · by_cases heq : v = value
    · subst heq
      dsimp only at hv
      rw [update_self] at hv
      cases hv
      exact (haliased.resolve_carrier input).trans h.carrier
    · dsimp only at hv
      rw [update_of_ne heq] at hv
      exact haliased.carrier v target hv

include hcounted

theorem bypass_resolve (i : Nat) : (s.bypassExpression g value input).resolve i =
    if s.resolve i = value then s.resolve input else s.resolve i := by
  have hnone : s.aliases value = none := by
    refine Option.not_isSome_iff_eq_none.mp fun halias => ?_
    cases (hcounted.skipped value halias).symm.trans h.live
  refine resolve_update haliased (bypass_aliased hgood haliased hplc h) ?_ hnone (haliased.aliases_resolve input) i
  rw [bypassExpression_eq hgood haliased hplc h]

theorem bypass_count (inputs : List Nat) (x : Nat) :
    (inputs.map (s.bypassExpression g value input).resolve).count x =
      if x = value then 0
      else if x = s.resolve input then
        (inputs.map s.resolve).count (s.resolve input) + (inputs.map s.resolve).count value
      else (inputs.map s.resolve).count x := by
  have hne : s.resolve input ≠ value := (h.resolve_lt hgood haliased hplc).ne
  induction inputs with
  | nil => split <;> first | rfl | (split <;> rfl)
  | cons i inputs ih =>
    simp only [List.map_cons, List.count_cons, ih, bypass_resolve hgood haliased hplc hcounted h i, beq_iff_eq]
    split
    · next hx =>
        subst hx
        split
        · simp
        · next hi => simp
    · next hx =>
        split
        · next hx' =>
            subst hx'
            by_cases hi : s.resolve i = value
            · simp [hi, Ne.symm hne]
              omega
            · simp [hi]
              omega
        · next hx' =>
            by_cases hi : s.resolve i = value
            · simp [hi, Ne.symm hx, Ne.symm hx']
            · simp [hi]

/-- A bypass keeps the counts. -/
theorem bypass_counted : (s.bypassExpression g value input).Counted g items exits := by
  have hne : s.resolve input ≠ value := (h.resolve_lt hgood haliased hplc).ne
  have hskipped : (s.bypassExpression g value input).skipped = update s.skipped value true := by
    rw [bypassExpression_eq hgood haliased hplc h]
  obtain ⟨before, after, hbef, hafter⟩ := liveInputs_skip g exits hplc.once h.placed h.live hskipped
  have hself : ((g.inputs (.evaluate value)).map s.resolve).count value = 0 := by
    refine List.count_eq_zero_of_not_mem fun hmem => ?_
    obtain ⟨i, hi, heq⟩ := List.mem_map.mp hmem
    have hlt := inputs_lt hgood (hplc.expression value h.placed).1 hi
    exact absurd heq (Nat.lt_of_le_of_lt (haliased.resolve_le i) hlt).ne
  have huses : ∀ x, s.uses x = ((before ++ after).map s.resolve).count x +
      ((g.inputs (.evaluate value)).map s.resolve).count x := by
    intro x
    rw [hcounted.uses, hbef]
    simp only [List.map_append, List.count_append]
    omega
  refine ⟨fun x => ?_, fun x => ?_⟩
  · rw [hafter, bypass_count hgood haliased hplc hcounted h, bypassExpression_eq hgood haliased hplc h]
    dsimp only
    rw [foldl_release]
    split
    · next hx =>
        subst hx
        rw [update_of_ne hne.symm, update_self]
        omega
    · next hx =>
        split
        · next hx' =>
            subst hx'
            rw [update_self, huses, huses value, hself]
            omega
        · next hx' =>
            rw [update_of_ne hx', update_of_ne hx, huses]
            omega
  · rw [bypassExpression_eq hgood haliased hplc h]
    dsimp only
    by_cases hx : x = value
    · subst hx
      exact fun _ => update_self ..
    · rw [update_of_ne hx, update_of_ne hx]
      exact hcounted.skipped x

/-- A bypass gives no use to a value without one. -/
theorem bypass_unused {x : Nat} (hx : s.uses x = 0) : (s.bypassExpression g value input).uses x = 0 := by
  have hne : x ≠ s.resolve input := by
    rintro rfl
    rw [hcounted.uses] at hx
    refine List.count_eq_zero.mp hx (List.mem_map_of_mem (List.mem_append_left _ (List.mem_flatMap.mpr ?_)))
    refine ⟨.evaluate value, List.mem_filter.mpr ⟨h.placed, ?_⟩, h.operand⟩
    rw [enabled, h.live]
    rfl
  rw [bypassExpression_eq hgood haliased hplc h]
  dsimp only
  rw [foldl_release, update_of_ne hne, Function.update_apply, hx, ite_self, Nat.zero_sub]

end Bypasses

end Selection

end Relocade.Compiler.Emit
