import Relocade.Compiler.Emit.Bytes
import Relocade.Compiler.Emit.Consumers
import Relocade.Compiler.Store

/-!
# `Compiler.Emit.Lanes` — replacements that cannot affect a sole scalar observer

Aliases describe the final consumers, not value equivalence: a consumer may read a carrier that differs from the graph's
in bytes that nothing observes. `Faithful` records which bytes of each value are observed, and is kept by every bypass.
-/

namespace Relocade.Compiler.Emit

open Function (update update_self update_of_ne)
open List (mem_cons_self mem_cons_of_mem not_mem_nil)
open Words

/-! ## The choice -/

namespace Selection

/-- Discard replacements outside the bytes that a sole consumer observes. One budget covers both operands,
    and bounds the depth. -/
def discardReplacements (graph : FunctionGraph) : Nat → Selection → Nat → Nat → Nat → Selection × Nat × Bool
  | 0, selection, _, _, budget => (selection, budget, false)
  | depth + 1, selection, value, bytes, budget =>
      let value := selection.resolve value
      if bytes = 0 ∨ budget = 0 ∨ selection.uses value ≠ 1 then (selection, budget, false)
      else
        let budget := budget - 1
        match graph.values.definition value with
        | .expression (.binary (.replaceLane laneType lane) left _) =>
            let replaced := laneBytes (laneType.bits / 8) lane
            let removed := bytes &&& replaced == 0
            let selection := if removed then selection.bypassExpression graph value left else selection
            let a := discardReplacements graph depth selection left (removeBytes bytes replaced) budget
            (a.1, a.2.1, a.2.2 || removed)
        | .expression (.binary operator left right) =>
            match binaryBytes bytes operator with
            | some inputs =>
                let a := discardReplacements graph depth selection left inputs.1 budget
                let b := discardReplacements graph depth a.1 right inputs.2 a.2.1
                (b.1, b.2.1, b.2.2 || a.2.2)
            -- Width-changing lane dependencies remain opaque.
            | none => (selection, budget, false)
        | .expression (.shift (.lanes _ laneType) input _) =>
            discardReplacements graph depth selection input (inputBytes bytes (laneType.bits / 8) false) budget
        | _ => (selection, budget, false)

variable (selection : Selection)

variable (graph : FunctionGraph)

theorem discardReplacements_budget_le (depth : Nat)
    (value bytes budget : Nat) : (discardReplacements graph depth selection value bytes budget).2.1 ≤ budget := by
  induction depth generalizing selection value bytes budget with
  | zero => exact Nat.le_refl _
  | succ depth ih =>
    rw [discardReplacements]
    dsimp only
    split
    · exact Nat.le_refl _
    · split
      · exact (ih ..).trans (Nat.sub_le ..)
      · split
        · exact (ih ..).trans ((ih ..).trans (Nat.sub_le ..))
        · exact Nat.sub_le ..
      · exact (ih ..).trans (Nat.sub_le ..)
      · exact Nat.sub_le ..

theorem discardReplacements_zero (depth : Nat) (value bytes : Nat) :
    discardReplacements graph depth selection value bytes 0 = (selection, 0, false) := by
  cases depth with
  | zero => rfl
  | succ depth => exact if_pos (Or.inr (Or.inl rfl))

/-- The budget ends the recursion before its depth does. -/
theorem discardReplacements_depth {depth depth' : Nat}
    (value bytes : Nat) {budget : Nat} (h : budget ≤ depth) (h' : budget ≤ depth') :
    discardReplacements graph depth selection value bytes budget =
      discardReplacements graph depth' selection value bytes budget := by
  induction depth generalizing depth' selection value bytes budget with
  | zero => rw [Nat.le_zero.mp h, discardReplacements_zero, discardReplacements_zero]
  | succ depth ih =>
    cases depth' with
    | zero => rw [Nat.le_zero.mp h', discardReplacements_zero, discardReplacements_zero]
    | succ depth' =>
      have hrest : ∀ selection value bytes n, n ≤ budget - 1 →
          discardReplacements graph depth selection value bytes n =
            discardReplacements graph depth' selection value bytes n := fun selection value bytes n hn =>
        ih selection value bytes (hn.trans (by omega)) (hn.trans (by omega))
      rw [discardReplacements, discardReplacements]
      simp only [hrest, Nat.le_refl, discardReplacements_budget_le]

/-- An extraction of a lane that is narrower than its vector. -/
def narrowLane (graph : FunctionGraph) (value : Nat) : Option (Nat × Nat) :=
  match graph.values.definition value with
  | .expression (.unary (.extractLane lane) input) =>
      if (graph.values.ty value).bits < (graph.values.ty input).bits then some (lane, input) else none
  | _ => none

def discardUnobservedLanes (selection : Selection) (graph : FunctionGraph) (order : List Nat) : Selection × Bool :=
  order.foldl (fun chosen value =>
    match narrowLane graph value with
    | some (lane, input) =>
        let discarded := discardReplacements graph 32 chosen.1 input
          (laneBytes ((graph.values.ty value).bits / 8) lane) 32
        (discarded.1, chosen.2 || discarded.2.2)
    | none => chosen) (selection, false)

/-- The selection before truth tests and memory instructions are chosen. -/
def lanes (graph : FunctionGraph) (reachable : Nat → Bool) : Selection :=
  let order := placedResults graph reachable
  let selection := (start graph reachable).bypassConversions graph order
  if order.any fun value => (narrowLane graph value).isSome then (selection.discardUnobservedLanes graph order).1
  else selection

/-- Calculations without uses are retired. -/
def retire (selection : Selection) (graph : FunctionGraph) (values : List Nat) : Selection :=
  values.foldl (fun selection value => (selection.retireUnused graph value).1) selection

/-! ## What consumers observe -/

section Observation

variable {F : Floating} {g : FunctionGraph} {sel : Selection} {items : List BlockItem} {exits : List Nat}
  {σ : Nat → Option Nat} {o : Nat → Nat}

/-- A consumer of bytes of a value reads another value that agrees on them. -/
structure Reads (selection : Selection) (σ : Nat → Option Nat) (observed : Nat → Nat) (bytes input : Nat) : Prop where
  within : Within bytes (observed (selection.resolve input))
  keeps : Keeps bytes (σ input) (σ (selection.resolve input))

/-- A conversion that keeps the carrier, or a replacement of bytes that are not observed. -/
inductive Unobserved (graph : FunctionGraph) (observed : Nat → Nat) (value : Nat) : Prop where
  | convert (input : Nat) (hdefinition : graph.values.definition value = .expression (.unary .convert input))
      (hcarrier : (graph.values.ty value).carrier = (graph.values.ty input).carrier)
  | replaceLane (laneType : Ty) (lane left payload : Nat)
      (hdefinition : graph.values.definition value =
        .expression (.binary (.replaceLane laneType lane) left payload))
      (hbytes : ∀ b, (observed value).testBit b = true → (laneBytes (laneType.bits / 8) lane).testBit b = false)

/-- Every live consumer reads values that agree with its operands on the bytes it observes. -/
structure Faithful (selection : Selection) (graph : FunctionGraph) (items : List BlockItem) (exits : List Nat)
    (σ : Nat → Option Nat) (observed : Nat → Nat) : Prop where
  aliased : selection.Aliased graph.values
  counted : selection.Counted graph items exits
  /-- What is skipped is bypassed or has no use. -/
  skipped : ∀ value, selection.skipped value = true →
    (selection.aliases value).isSome ∨ ∀ result ∈ graph.expressionResults value, selection.uses result = 0
  available : ∀ value target, selection.aliases value = some target → Available graph items target
  unobserved : ∀ value, (selection.aliases value).isSome → Unobserved graph observed value
  bounded : ∀ value, Within (observed value) allBytes
  whole : ∀ value, (graph.values.ty value).carrier ≠ .v128 → observed value = allBytes
  calculation : ∀ value e, .evaluate value ∈ items → selection.skipped value = false →
    graph.values.definition value = .expression e → ∀ k i, e.inputs[k]? = some i →
      selection.Reads σ observed (operandBytes (graph.values.ty value) e (observed value) k) i
  effect : ∀ effect, .effect effect ∈ items → ∀ i ∈ graph.inputs (.effect effect),
    selection.Reads σ observed allBytes i
  exit : ∀ i ∈ exits, selection.Reads σ observed allBytes i

/-- A live calculation observes no more than some bytes of a value. -/
def Observes (selection : Selection) (graph : FunctionGraph) (items : List BlockItem) (observed : Nat → Nat)
    (value bytes : Nat) : Prop :=
  ∃ c e k i, .evaluate c ∈ items ∧ selection.skipped c = false ∧ graph.values.definition c = .expression e ∧
    e.inputs[k]? = some i ∧ selection.resolve i = selection.resolve value ∧
    Within (operandBytes (graph.values.ty c) e (observed c) k) bytes

/-- What is above a value is left alone, and only replacements are skipped. -/
structure Discards (graph : FunctionGraph) (before after : Selection) (observed observed' : Nat → Nat) (bound : Nat) :
    Prop where
  skipped : ∀ value, bound < value → after.skipped value = before.skipped value
  observed : ∀ value, bound < value → observed' value = observed value
  replaced : ∀ value, after.skipped value = true → before.skipped value = true ∨ ∃ laneType lane left payload,
    graph.values.definition value = .expression (.binary (.replaceLane laneType lane) left payload)

theorem Discards.refl (o : Nat → Nat) (bound : Nat) : Discards g sel sel o o bound :=
  ⟨fun _ _ => rfl, fun _ _ => rfl, fun _ h => Or.inl h⟩

theorem Discards.trans {a b c : Selection} {o o' o'' : Nat → Nat} {m n bound : Nat} (h : Discards g a b o o' m)
    (h' : Discards g b c o' o'' n) (hm : m ≤ bound) (hn : n ≤ bound) : Discards g a c o o'' bound := by
  refine ⟨fun v hv => ?_, fun v hv => ?_, fun v hv => ?_⟩
  · exact (h'.skipped v (Nat.lt_of_le_of_lt hn hv)).trans (h.skipped v (Nat.lt_of_le_of_lt hm hv))
  · exact (h'.observed v (Nat.lt_of_le_of_lt hn hv)).trans (h.observed v (Nat.lt_of_le_of_lt hm hv))
  · rcases h'.replaced v hv with hv | hv
    · exact h.replaced v hv
    · exact Or.inr hv

section Steps

variable (hgood : g.values.Good) (hplc : Placed g items exits)

include hgood in
theorem start_faithful (reachable : Nat → Bool)
    (hplc : Placed g (placedItems g reachable) (exitInputs g reachable)) :
    (start g reachable).Faithful g (placedItems g reachable) (exitInputs g reachable) σ
      fun _ => allBytes := by
  have hrd : ∀ {bytes} i, Within bytes allBytes →
      (start g reachable).Reads σ (fun _ => allBytes) bytes i := by
    intro bytes i hwithin
    refine ⟨hwithin, ?_⟩
    rw [start_resolve]
    exact Keeps.refl _ _
  refine ⟨⟨nofun, nofun⟩, start_counted reachable, nofun,
    nofun, nofun, fun _ => Within.refl _, fun _ _ => rfl, fun value e hval _ hd k i _ => hrd i ?_,
    fun _ _ i _ => hrd i (Within.refl _), fun i _ => hrd i (Within.refl _)⟩
  have htyped := hgood.typed (hplc.expression value hval).1 (ValueTable.value_eq_iff.mpr ⟨rfl, hd⟩)
  exact operandBytes_within htyped (Within.refl _) k

include hgood hplc

variable {value bytes : Nat}

/-- The only consumer of a value observes no more of it than it reads. -/
theorem Faithful.observe (h : sel.Faithful g items exits σ o)
    (hobserves : sel.Observes g items o value bytes)
    (huses : sel.uses (sel.resolve value) = 1)
    (hvector : (g.values.ty (sel.resolve value)).carrier = .v128) :
    sel.Faithful g items exits σ
      (update o (sel.resolve value) (o (sel.resolve value) &&& bytes)) := by
  obtain ⟨c, e, k, i, hc, hlive, hd, hk, hi, hwithin⟩ := hobserves
  have hinputs : g.inputs (.evaluate c) = e.inputs := by rw [FunctionGraph.inputs, hd]
  rw [← hi] at huses hvector ⊢
  obtain ⟨hitems, hexits, hidx⟩ := h.counted.sole hplc.once huses hc hlive (hinputs ▸ hk)
  have hless : ∀ value, Within (update o (sel.resolve i)
      (o (sel.resolve i) &&& bytes) value) (o value) := by
    intro value
    by_cases heq : value = sel.resolve i
    · rw [heq, update_self]
      intro b hb
      rw [Nat.testBit_and, Bool.and_eq_true] at hb
      exact hb.1
    · rw [update_of_ne heq]
      exact Within.refl _
  have hother : ∀ {read j}, sel.resolve j ≠ sel.resolve i → sel.Reads σ o read j →
      sel.Reads σ (update o (sel.resolve i)
        (o (sel.resolve i) &&& bytes)) read j := by
    intro read j hne hrd
    refine ⟨?_, hrd.keeps⟩
    rw [update_of_ne hne]
    exact hrd.within
  refine ⟨h.aliased, h.counted, h.skipped, h.available, fun value hval => ?_,
    fun value => (hless value).trans (h.bounded value), fun value hval => ?_,
    fun value e' hval hlive' hdef' k' j hk' => ?_, fun effect heffect j hj => ?_, fun j hj => ?_⟩
  · cases h.unobserved value hval with
    | convert input hd hcar => exact .convert input hd hcar
    | replaceLane laneType lane left payload hd hbytes =>
      exact .replaceLane laneType lane left payload hd fun b hb => hbytes b (hless value b hb)
  · rw [update_of_ne (fun heq => hval (by rw [heq]; exact hvector))]
    exact h.whole value hval
  · have htyped := hgood.typed (hplc.expression value hval).1 (ValueTable.value_eq_iff.mpr ⟨rfl, hdef'⟩)
    have hrd := h.calculation value e' hval hlive' hdef' k' j hk'
    have hmono := operandBytes_mono (hless value) htyped k'
    have hrd' : sel.Reads σ o _ j := ⟨hmono.trans hrd.within, hrd.keeps.mono hmono⟩
    have hinputs' : g.inputs (.evaluate value) = e'.inputs := by rw [FunctionGraph.inputs, hdef']
    by_cases hj : sel.resolve j = sel.resolve i
    · obtain rfl : value = c := by
        by_contra hne
        refine hitems _ hval ?_ (fun heq => hne (BlockItem.evaluate.inj heq)) j ?_ hj
        · rw [enabled, hlive']
          rfl
        · rw [hinputs']
          exact List.mem_of_getElem? hk'
      obtain rfl := hidx k' j (hinputs'.symm ▸ hk') hj
      cases hd.symm.trans hdef'
      refine ⟨fun b hb => ?_, hrd'.keeps⟩
      rw [hj, update_self, Nat.testBit_and, Bool.and_eq_true]
      exact ⟨hj ▸ hrd'.within b hb, hwithin b (hmono b hb)⟩
    · exact hother hj hrd'
  · exact hother (hitems _ heffect rfl (fun h => by cases h) j hj) (h.effect effect heffect j hj)
  · exact hother (hexits j hj) (h.exit j hj)

omit hgood in
theorem Faithful.available_resolve (h : sel.Faithful g items exits σ o) {item : BlockItem}
    (hitem : item ∈ items) {input : Nat} (hin : input ∈ g.inputs item) :
    Available g items (sel.resolve input) := by
  refine Descend.run_invariant (P := Available g items) (fun a b _ hb => h.available a b hb)
    (hplc.input input ?_)
  exact List.mem_append_left _ (List.mem_flatMap.mpr ⟨item, hitem, hin⟩)

/-- A bypass keeps what consumers read, when it keeps the bytes observed. -/
theorem Faithful.bypass (h : sel.Faithful g items exits σ o) {value input : Nat}
    (hbypass : sel.Bypass g items value input) (hunobserved : Unobserved g o value)
    (hkeeps : Keeps (o value) (σ value) (σ input)) (hrd : sel.Reads σ o (o value) input) :
    (sel.bypassExpression g value input).Faithful g items exits σ o := by
  have hrsv := bypass_resolve hgood h.aliased hplc h.counted hbypass
  have heq := bypassExpression_eq hgood h.aliased hplc hbypass
  have hmoved : ∀ {read j}, sel.Reads σ o read j →
      (sel.bypassExpression g value input).Reads σ o read j := by
    intro read j hj
    by_cases hval : sel.resolve j = value
    · have hwithin : Within read (o value) := hval ▸ hj.within
      refine ⟨?_, ?_⟩
      · rw [hrsv, if_pos hval]
        exact hwithin.trans hrd.within
      · rw [hrsv, if_pos hval]
        exact (hval ▸ hj.keeps).trans ((hkeeps.trans hrd.keeps).mono hwithin)
    · refine ⟨?_, ?_⟩
      · rw [hrsv, if_neg hval]
        exact hj.within
      · rw [hrsv, if_neg hval]
        exact hj.keeps
  have haliases : ∀ v, (sel.bypassExpression g value input).aliases v =
      if v = value then some (sel.resolve input) else sel.aliases v := by
    intro v
    rw [heq]
    exact Function.update_apply ..
  refine ⟨bypass_aliased hgood h.aliased hplc hbypass, bypass_counted hgood h.aliased hplc h.counted hbypass,
    fun v hv => ?_, fun v target hv => ?_, fun v hv => ?_, h.bounded, h.whole, fun v e hv hlive hd k j hk => ?_,
    fun effect heffect j hj => hmoved (h.effect effect heffect j hj), fun j hj => hmoved (h.exit j hj)⟩
  · by_cases hval : v = value
    · left
      rw [haliases, if_pos hval]
      rfl
    · have hskipped : sel.skipped v = true := by
        rw [heq] at hv
        exact (update_of_ne hval ..).symm.trans hv
      rw [haliases, if_neg hval]
      exact (h.skipped v hskipped).imp_right fun hunused r hr =>
        bypass_unused hgood h.aliased hplc h.counted hbypass (hunused r hr)
  · rw [haliases] at hv
    split at hv
    · cases hv
      exact h.available_resolve hplc hbypass.placed hbypass.operand
    · exact h.available v target hv
  · rw [haliases] at hv
    split at hv
    · next hval => exact hval ▸ hunobserved
    · exact h.unobserved v hv
  · refine hmoved (h.calculation v e hv ?_ hd k j hk)
    rw [heq] at hlive
    by_cases hval : v = value
    · subst hval
      cases (update_self (f := sel.skipped) ..).symm.trans hlive
    · exact (update_of_ne hval ..).symm.trans hlive

variable {e : Expression Nat}

omit hgood hplc in
theorem mem_expressionResults {value : Nat}
    (hd : g.values.definition value = .expression e) : value ∈ g.expressionResults value := by
  rw [FunctionGraph.expressionResults, hd]
  exact List.mem_range'_1.mpr ⟨Nat.le_refl _, Nat.lt_add_of_pos_right (e.length_resultTypes_pos _)⟩

omit hgood hplc in
theorem single_of_result {value : Nat}
    (hd : g.values.definition value = .expression e)
    (hone : ∀ ty, e.resultTypes ty = [ty]) : g.expressionResults value = [value] := by
  rw [FunctionGraph.expressionResults, hd]
  dsimp only
  rw [hone]
  rfl

variable (hσ : Valuation F g.values σ)

include hσ

/-- A conversion that keeps the carrier is bypassed. -/
theorem Faithful.bypass_convert (h : sel.Faithful g items exits σ o) {value input : Nat}
    (hpl : .evaluate value ∈ items) (hlive : sel.skipped value = false)
    (hd : g.values.definition value = .expression (.unary .convert input))
    (hcar : (g.values.ty value).carrier = (g.values.ty input).carrier) :
    (sel.bypassExpression g value input).Faithful g items exits σ o := by
  have hlt := (hplc.expression value hpl).1
  have hval : g.values.value value = ⟨g.values.ty value, .expression (.unary .convert input)⟩ :=
    ValueTable.value_eq_iff.mpr ⟨rfl, hd⟩
  have hin := (hgood.inputs_lt hlt hval input (List.mem_singleton_self _)).trans hlt
  refine h.bypass hgood hplc ⟨hpl, hlive, single_of_result hd fun _ => rfl, ?_, hcar.symm⟩
    (.convert input hd hcar) (fun x hx => ?_) ?_
  · rw [FunctionGraph.inputs, hd]
    exact List.mem_singleton_self _
  · rw [hσ.expression hlt hval] at hx
    obtain ⟨y, hy⟩ := evalExpr_inputs hx input (List.mem_singleton_self _)
    have hbound := (emitted_id.mpr hσ).lt hgood hin hy
    rw [eval_convert hy hbound, hcar, Nat.mod_eq_of_lt hbound] at hx
    cases hx
    exact ⟨_, hy, Agree.refl _ _⟩
  · have hrd := h.calculation value _ hpl hlive hd 0 input rfl
    exact ⟨(h.bounded value).trans hrd.within, hrd.keeps.mono (h.bounded value)⟩

/-- A replacement of bytes that are not observed is bypassed. -/
theorem Faithful.bypass_replaceLane (h : sel.Faithful g items exits σ o)
    {value lane left payload : Nat}
    {laneType : Ty} (hpl : .evaluate value ∈ items) (hlive : sel.skipped value = false)
    (hd : g.values.definition value = .expression (.binary (.replaceLane laneType lane) left payload))
    (hbytes : ∀ b, (o value).testBit b = true → (laneBytes (laneType.bits / 8) lane).testBit b = false) :
    (sel.bypassExpression g value left).Faithful g items exits σ o := by
  have hlt := (hplc.expression value hpl).1
  have hval : g.values.value value =
      ⟨g.values.ty value, .expression (.binary (.replaceLane laneType lane) left payload)⟩ :=
    ValueTable.value_eq_iff.mpr ⟨rfl, hd⟩
  have hinputs := hgood.inputs_lt hlt hval
  have htyped := hgood.typed hlt hval
  have hlane := htyped
  simp only [Expression.map, Expression.wellTyped, BinaryOp.wellTyped, Bool.and_eq_true, decide_eq_true_eq] at hlane
  refine h.bypass hgood hplc ⟨hpl, hlive, single_of_result hd fun _ => rfl, ?_,
    hlane.1.1.1.2.trans hlane.1.2.symm⟩ (.replaceLane laneType lane left payload hd hbytes) (fun x hx => ?_) ?_
  · rw [FunctionGraph.inputs, hd]
    exact mem_cons_self
  · rw [hσ.expression hlt hval] at hx
    obtain ⟨y, hy⟩ := evalExpr_inputs hx left mem_cons_self
    obtain ⟨z, hz⟩ := evalExpr_inputs hx payload (mem_cons_of_mem _ mem_cons_self)
    have hy' := (emitted_id.mpr hσ).lt hgood ((hinputs left mem_cons_self).trans hlt) hy
    have hz' := (emitted_id.mpr hσ).lt hgood
      ((hinputs payload (mem_cons_of_mem _ mem_cons_self)).trans hlt) hz
    rw [eval_replaceLane hy hz hy' hz' htyped] at hx
    cases hx
    rw [hlane.1.1.1.2] at hy'
    exact ⟨y, hy, agree_replace hlane.1.1.1.1 z hlane.2 hy' hbytes⟩
  · have hrd := h.calculation value _ hpl hlive hd 0 left rfl
    have hwithin : Within (o value) (operandBytes (g.values.ty value)
        (.binary (.replaceLane laneType lane) left payload) (o value) 0) := by
      intro b hb
      have hlow := h.bounded value b hb
      rw [operandBytes, if_pos rfl, removeBytes, Nat.testBit_and, Nat.testBit_xor, hb, hlow, hbytes b hb]
      rfl
    exact ⟨hwithin.trans hrd.within, hrd.keeps.mono hwithin⟩

/-! ## Runs of the choice -/

omit hσ in
/-- The only observer of a value bounds its observed bytes; its calculation is placed and live. -/
theorem Faithful.narrow (h : sel.Faithful g items exits σ o)
    (hobserves : sel.Observes g items o value bytes)
    (huses : sel.uses (sel.resolve value) = 1)
    (hvector : (g.values.ty (sel.resolve value)).carrier = .v128) :
    ∃ observed', sel.Faithful g items exits σ observed' ∧
      Discards g sel sel o observed' (sel.resolve value) ∧
      Within (observed' (sel.resolve value)) bytes ∧
      sel.Observes g items observed' value bytes ∧
      ∀ e, g.values.definition (sel.resolve value) = .expression e →
        .evaluate (sel.resolve value) ∈ items ∧ sel.skipped (sel.resolve value) = false := by
  obtain ⟨c, e, k, i, hc, hlive, hd, hk, hi, hwithin⟩ := id hobserves
  have hoperand : i ∈ g.inputs (.evaluate c) := by
    rw [FunctionGraph.inputs, hd]
    exact List.mem_of_getElem? hk
  have hpast : sel.resolve value < c := hi ▸ Nat.lt_of_le_of_lt (h.aliased.resolve_le i)
    (inputs_lt hgood (hplc.expression c hc).1 hoperand)
  refine ⟨_, h.observe hgood hplc hobserves huses hvector,
    ⟨fun _ _ => rfl, fun v hv => update_of_ne (Nat.ne_of_gt hv) .., fun _ hv => Or.inl hv⟩,
    fun b hb => ?_, ⟨c, e, k, i, hc, hlive, hd, hk, hi, ?_⟩, fun e' he' => ⟨?_, ?_⟩⟩
  · rw [update_self, Nat.testBit_and, Bool.and_eq_true] at hb
    exact hb.2
  · rw [update_of_ne (Nat.ne_of_gt hpast)]
    exact hwithin
  · exact (hi ▸ h.available_resolve hplc hc hoperand : Available g items _).expression e' he'
  · rw [Bool.eq_false_iff]
    intro hskipped
    rcases h.skipped _ hskipped with halias | hunused
    · rw [h.aliased.aliases_resolve] at halias
      cases halias
    · exact absurd (hunused _ (mem_expressionResults he')) (by omega)

omit hσ in
/-- A calculation observes of its operands what its own bytes depend on. -/
theorem observes_operand {v n operand bytes bytes' : Nat} (hpl : .evaluate v ∈ items)
    (hlive : sel.skipped v = false) (hd : g.values.definition v = .expression e)
    (hn : e.inputs[n]? = some operand) (hself : Within (o v) bytes)
    (hwithin : Within (operandBytes (g.values.ty v) e bytes n) bytes') :
    sel.Observes g items o operand bytes' := by
  have htyped := hgood.typed (hplc.expression v hpl).1 (ValueTable.value_eq_iff.mpr ⟨rfl, hd⟩)
  exact ⟨v, e, n, operand, hpl, hlive, hd, hn, rfl, (operandBytes_mono hself htyped n).trans hwithin⟩

omit hσ in
/-- The observer of a bypassed value observes the input in its place. -/
theorem Faithful.observes_bypassed (h : sel.Faithful g items exits σ o)
    {value input bytes bytes' : Nat}
    (hbypass : sel.Bypass g items (sel.resolve value) input)
    (hobserves : sel.Observes g items o value bytes)
    (hwithin : Within (o (sel.resolve value)) bytes') :
    (sel.bypassExpression g (sel.resolve value) input).Observes g items o input bytes' := by
  obtain ⟨c, e, k, i, hc, hlive, hd, hk, hi, -⟩ := hobserves
  have hoperand : i ∈ g.inputs (.evaluate c) := by
    rw [FunctionGraph.inputs, hd]
    exact List.mem_of_getElem? hk
  have hpast : sel.resolve value < c := hi ▸ Nat.lt_of_le_of_lt (h.aliased.resolve_le i)
    (inputs_lt hgood (hplc.expression c hc).1 hoperand)
  have hrsv := bypass_resolve hgood h.aliased hplc h.counted hbypass
  have hin := (hbypass.resolve_lt hgood h.aliased hplc).ne
  refine ⟨c, e, k, i, hc, ?_, hd, hk, ?_, ?_⟩
  · rw [bypassExpression_eq hgood h.aliased hplc hbypass]
    exact (update_of_ne (Nat.ne_of_gt hpast) ..).trans hlive
  · rw [hrsv, hrsv, if_pos hi, if_neg hin]
  · exact (hi ▸ (h.calculation c e hc hlive hd k i hk).within).trans hwithin

omit hσ in
/-- A bypassed replacement is all that is skipped. -/
theorem Faithful.discards_bypass (h : sel.Faithful g items exits σ o)
    {value lane left payload : Nat} {laneType : Ty} (hbypass : sel.Bypass g items value left)
    (hd : g.values.definition value = .expression (.binary (.replaceLane laneType lane) left payload)) :
    Discards g sel (sel.bypassExpression g value left) o o value := by
  have hskipped : (sel.bypassExpression g value left).skipped = update sel.skipped value true := by
    rw [bypassExpression_eq hgood h.aliased hplc hbypass]
  refine ⟨fun v hv => ?_, fun _ _ => rfl, fun v hv => ?_⟩
  · rw [hskipped, update_of_ne (Nat.ne_of_gt hv)]
  · by_cases heq : v = value
    · exact Or.inr ⟨laneType, lane, left, payload, heq ▸ hd⟩
    · rw [hskipped, update_of_ne heq] at hv
      exact Or.inl hv

/-- Discarding keeps what consumers read. -/
theorem discardReplacements_faithful (depth budget : Nat)
    (h : sel.Faithful g items exits σ o)
    (hobserves : sel.Observes g items o value bytes)
    (hvector : (g.values.ty value).carrier = .v128) :
    ∃ observed',
      (discardReplacements g depth sel value bytes budget).1.Faithful g items exits σ observed' ∧
      Discards g sel (discardReplacements g depth sel value bytes budget).1 o observed'
        (sel.resolve value) := by
  -- a value with one use first narrows its own bytes; a lane that is then not read is bypassed, and the walk goes on
  -- into the operands with the bytes that are left
  induction depth generalizing sel o value bytes budget with
  | zero => exact ⟨o, h, Discards.refl ..⟩
  | succ depth ih =>
    rw [discardReplacements]
    dsimp only
    by_cases hstop : bytes = 0 ∨ budget = 0 ∨ sel.uses (sel.resolve value) ≠ 1
    · rw [if_pos hstop]
      exact ⟨o, h, Discards.refl ..⟩
    rw [if_neg hstop]
    have huses : sel.uses (sel.resolve value) = 1 := by
      by_contra hne
      exact hstop (Or.inr (Or.inr hne))
    have hvector' := (h.aliased.resolve_carrier value).trans hvector
    obtain ⟨observed₁, h₁, hbelow, hself, hobserves₁, hexpr⟩ := h.narrow hgood hplc hobserves huses hvector'
    have hin : ∀ {e operand}, g.values.definition (sel.resolve value) = .expression e →
        operand ∈ e.inputs → operand < sel.resolve value := by
      intro e operand he hoperand
      refine inputs_lt hgood (hplc.expression _ (hexpr e he).1).1 ?_
      rw [FunctionGraph.inputs, he]
      exact hoperand
    have hlt : ∀ {e operand}, g.values.definition (sel.resolve value) = .expression e →
        operand ∈ e.inputs → sel.resolve operand < sel.resolve value := fun he hoperand =>
      Nat.lt_of_le_of_lt (h.aliased.resolve_le _) (hin he hoperand)
    have htyped : ∀ {e}, g.values.definition (sel.resolve value) = .expression e →
        (e.map g.values.ty).wellTyped (g.values.ty (sel.resolve value)) = true := fun he =>
      hgood.typed (hplc.expression _ (hexpr _ he).1).1 (ValueTable.value_eq_iff.mpr ⟨rfl, he⟩)
    split
    · next laneType lane left payload hd =>
        obtain ⟨hpl, hlive⟩ := hexpr _ hd
        have hcar := htyped hd
        simp only [Expression.map, Expression.wellTyped, BinaryOp.wellTyped, Bool.and_eq_true, decide_eq_true_eq]
          at hcar
        have hleft := Nat.le_of_lt (hlt hd mem_cons_self)
        by_cases hremoved : (bytes &&& laneBytes (laneType.bits / 8) lane == 0) = true
        · rw [if_pos hremoved]
          have hbytes : ∀ b, (observed₁ (sel.resolve value)).testBit b = true →
              (laneBytes (laneType.bits / 8) lane).testBit b = false := by
            intro b hb
            have hzero := congrArg (Nat.testBit · b) (beq_iff_eq.mp hremoved)
            rw [Nat.testBit_and, hself b hb, Bool.true_and, Nat.zero_testBit] at hzero
            exact hzero
          have hbypass : sel.Bypass g items (sel.resolve value) left :=
            ⟨hpl, hlive, single_of_result hd fun _ => rfl, by
              rw [FunctionGraph.inputs, hd]
              exact mem_cons_self, hcar.1.1.1.2.trans hcar.1.2.symm⟩
          have hwithin : Within (observed₁ (sel.resolve value))
              (removeBytes bytes (laneBytes (laneType.bits / 8) lane)) := by
            intro b hb
            rw [removeBytes, Nat.testBit_and, Nat.testBit_xor, hself b hb, h₁.bounded _ b hb, hbytes b hb]
            rfl
          obtain ⟨observed₂, h₂, hrest⟩ := ih (budget - 1)
            (h₁.bypass_replaceLane hgood hplc hσ hpl hlive hd hbytes)
            (h₁.observes_bypassed hgood hplc hbypass hobserves₁ hwithin) hcar.1.1.1.2
          refine ⟨observed₂, h₂, (hbelow.trans (h₁.discards_bypass hgood hplc hbypass hd)
            (Nat.le_refl _) (Nat.le_refl _)).trans hrest (Nat.le_refl _) ?_⟩
          rw [bypass_resolve hgood h₁.aliased hplc h₁.counted hbypass]
          split
          · exact hleft
          · exact hleft
        · rw [if_neg hremoved]
          obtain ⟨observed₂, h₂, hrest⟩ := ih (budget - 1) h₁
            (observes_operand hgood hplc hpl hlive hd (n := 0) rfl hself (Within.refl _))
            hcar.1.1.1.2
          exact ⟨observed₂, h₂, hbelow.trans hrest (Nat.le_refl _) hleft⟩
    · next operator left right _ hd =>
        obtain ⟨hpl, hlive⟩ := hexpr _ hd
        split
        · next inputs hinputs =>
            have hcar := carrier_of_binaryBytes hinputs (htyped hd) hvector'
            obtain ⟨observed₂, h₂, hleft⟩ := ih (budget - 1) h₁
              (observes_operand hgood hplc hpl hlive hd (n := 0) rfl hself
                (by rw [operandBytes_binary hinputs]; exact Within.refl _)) hcar.1
            have hself₂ : Within (observed₂ (sel.resolve value)) bytes := by
              rw [hleft.observed _ (hlt hd mem_cons_self)]
              exact hself
            have hlive₂ := (hleft.skipped _ (hlt hd mem_cons_self)).trans hlive
            obtain ⟨observed₃, h₃, hright⟩ := ih
              (discardReplacements g depth sel left inputs.1 (budget - 1)).2.1 h₂
              (observes_operand hgood hplc hpl hlive₂ hd (n := 1) rfl hself₂
                (by rw [operandBytes_binary hinputs]; exact Within.refl _)) hcar.2
            refine ⟨observed₃, h₃, (hbelow.trans hleft (Nat.le_refl _)
              (Nat.le_of_lt (hlt hd mem_cons_self))).trans hright (Nat.le_refl _) ?_⟩
            exact (h₂.aliased.resolve_le right).trans (Nat.le_of_lt (hin hd
              (mem_cons_of_mem _ mem_cons_self)))
        · exact ⟨observed₁, h₁, hbelow⟩
    · next operator laneType input count hd =>
        obtain ⟨hpl, hlive⟩ := hexpr _ hd
        have htyped := htyped hd
        simp only [Expression.map, Expression.wellTyped, ShiftOp.wellTyped, Bool.and_eq_true, decide_eq_true_eq]
          at htyped
        obtain ⟨observed₂, h₂, hrest⟩ := ih (budget - 1) h₁
          (observes_operand hgood hplc hpl hlive hd (n := 0) rfl hself (Within.refl _)) htyped.1.1.2
        exact ⟨observed₂, h₂, hbelow.trans hrest (Nat.le_refl _)
          (Nat.le_of_lt (hlt hd mem_cons_self))⟩
    · exact ⟨observed₁, h₁, hbelow⟩

/-- Conversions that keep the carrier are bypassed one after the other. -/
theorem bypassConversions_faithful {order : List Nat} (h : sel.Faithful g items exits σ o)
    (horder : order.Nodup) (hlive : ∀ value ∈ order, sel.skipped value = false)
    (hpl : ∀ value ∈ order, ∀ e, g.values.definition value = .expression e → .evaluate value ∈ items)
    (hextract : ∀ value lane input, g.values.definition value = .expression (.unary (.extractLane lane) input) →
      sel.skipped value = false) :
    (sel.bypassConversions g order).Faithful g items exits σ o ∧
      ∀ value lane input, g.values.definition value = .expression (.unary (.extractLane lane) input) →
        (sel.bypassConversions g order).skipped value = false := by
  induction order generalizing sel with
  | nil => exact ⟨h, hextract⟩
  | cons value order ih =>
    rw [List.nodup_cons] at horder
    have hrest := fun v hv => hpl v (mem_cons_of_mem value hv)
    have hkept := ih h horder.2 (fun v hv => hlive v (mem_cons_of_mem value hv)) hrest hextract
    rw [bypassConversions, List.foldl_cons]
    split
    · next input hd =>
        split
        · next hcar =>
            have hval := hpl value mem_cons_self _ hd
            have hlive' := hlive value mem_cons_self
            have h' := h.bypass_convert hgood hplc hσ hval hlive' hd hcar
            have hskipped : (sel.bypassExpression g value input).skipped =
                update sel.skipped value true := by
              rw [bypassExpression_eq hgood h.aliased hplc ⟨hval, hlive',
                single_of_result hd fun _ => rfl, by
                  rw [FunctionGraph.inputs, hd]
                  exact List.mem_singleton_self _, hcar.symm⟩]
            refine ih h' horder.2 (fun v hv => ?_) hrest fun v lane input' hv => ?_
            · rw [hskipped, update_of_ne (fun heq : v = value => horder.1 (heq ▸ hv))]
              exact hlive v (mem_cons_of_mem value hv)
            · have hne : v ≠ value := by
                rintro rfl
                cases hd.symm.trans hv
              rw [hskipped, update_of_ne hne]
              exact hextract v lane input' hv
        · exact hkept
    · exact hkept

/-- Every narrow extraction discards replacements that its lane does not depend on. -/
theorem discardUnobservedLanes_faithful {order : List Nat} (h : sel.Faithful g items exits σ o)
    (hpl : ∀ value ∈ order, ∀ e, g.values.definition value = .expression e → .evaluate value ∈ items)
    (hextract : ∀ value lane input, g.values.definition value = .expression (.unary (.extractLane lane) input) →
      sel.skipped value = false) :
    ∃ observed', (sel.discardUnobservedLanes g order).1.Faithful g items exits σ observed' := by
  rw [discardUnobservedLanes]
  generalize false = changed
  induction order generalizing sel o changed with
  | nil => exact ⟨o, h⟩
  | cons value order ih =>
    have hrest := fun v hv => hpl v (mem_cons_of_mem value hv)
    rw [List.foldl_cons]
    split
    · next lane input hnarrow =>
        rw [narrowLane] at hnarrow
        split at hnarrow
        · next lane' input' hd =>
            split at hnarrow
            · next hbits =>
                cases hnarrow
                have hval := hpl value mem_cons_self _ hd
                have htyped := hgood.typed (hplc.expression value hval).1
                  (ValueTable.value_eq_iff.mpr ⟨rfl, hd⟩)
                simp only [Expression.map, Expression.wellTyped, UnaryOp.wellTyped, Bool.and_eq_true,
                  decide_eq_true_eq] at htyped
                obtain ⟨observed', h', hdiscards⟩ := discardReplacements_faithful hgood hplc hσ 32 32 h
                  (observes_operand hgood hplc hval (hextract value lane input hd) hd (n := 0)
                    rfl (Within.refl _) (Within.refl _)) htyped.1.1
                refine ih h' hrest (fun v lane' input' hv => ?_) _
                rw [Bool.eq_false_iff]
                intro hskipped
                rcases hdiscards.replaced v hskipped with hv' | ⟨laneType, l, left, payload, hv'⟩
                · cases (hextract v lane' input' hv).symm.trans hv'
                · cases hv.symm.trans hv'
            · cases hnarrow
        · cases hnarrow
    · exact ih h hrest hextract changed

omit hσ hgood in
/-- Retiring calculations without uses keeps what consumers read. -/
theorem Faithful.retire (h : sel.Faithful g items exits σ o) (values : List Nat)
    (hvals : ∀ value ∈ values, ∀ e, g.values.definition value = .expression e → .evaluate value ∈ items) :
    (sel.retire g values).Faithful g items exits σ o := by
  induction values generalizing sel with
  | nil => exact h
  | cons value values ih =>
    have hrest := fun v hv => hvals v (mem_cons_of_mem value hv)
    show ((sel.retireUnused g value).1.retire g values).Faithful g items exits σ o
    refine ih ?_ hrest
    rcases retireUnused_cases g sel value with heq | ⟨e, hd, hlive, hunused, heq⟩
    · rw [heq]
      exact h
    · have hval := hvals value mem_cons_self e hd
      have hrsv : (sel.retireUnused g value).1.resolve = sel.resolve :=
        resolve_congr (retireUnused_aliases value)
      have hskipped : (sel.retireUnused g value).1.skipped = update sel.skipped value true := by rw [heq]
      have huses : ∀ x, sel.uses x = 0 → (sel.retireUnused g value).1.uses x = 0 := by
        intro x hx
        rw [heq]
        dsimp only
        rw [foldl_release, hx, Nat.zero_sub]
      have hrd : ∀ {read i}, sel.Reads σ o read i →
          (sel.retireUnused g value).1.Reads σ o read i := by
        intro read i hi
        refine ⟨?_, ?_⟩
        · rw [hrsv]
          exact hi.within
        · rw [hrsv]
          exact hi.keeps
      refine ⟨h.aliased.congr (retireUnused_aliases value), retireUnused_counted hplc h.counted hval,
        fun v hv => ?_, ?_, ?_, h.bounded, h.whole, fun v e' hv hlive' hdef' k i hk =>
          hrd (h.calculation v e' hv ?_ hdef' k i hk),
        fun effect heffect i hi => hrd (h.effect effect heffect i hi), fun i hi => hrd (h.exit i hi)⟩
      · rw [retireUnused_aliases]
        by_cases hval : v = value
        · exact Or.inr fun r hr => huses r (hunused r (hval ▸ hr))
        · rw [hskipped, update_of_ne hval] at hv
          exact (h.skipped v hv).imp_right fun hv r hr => huses r (hv r hr)
      · rw [retireUnused_aliases]
        exact h.available
      · rw [retireUnused_aliases]
        exact h.unobserved
      · rw [hskipped] at hlive'
        by_cases hval : v = value
        · rw [hval, update_self] at hlive'
          cases hlive'
        · rw [update_of_ne hval] at hlive'
          exact hlive'

end Steps

/-! ## The emitted code -/

theorem carrier_lt {t : ValueTable} {id x : Nat} (h : x < 2 ^ (t.ty id).carrier.bits) : x < 2 ^ 128 :=
  Nat.lt_of_lt_of_le h (Nat.pow_le_pow_right (by decide) (Ty.bits_le _))

theorem mem_of_liveInputs {i : Nat} (hi : i ∈ sel.liveInputs g items exits) :
    i ∈ items.flatMap g.inputs ++ exits := by
  rcases List.mem_append.mp hi with hi | hi
  · obtain ⟨item, hitem, hin⟩ := List.mem_flatMap.mp hi
    exact List.mem_append_left _ (List.mem_flatMap.mpr ⟨item, (List.mem_filter.mp hitem).1, hin⟩)
  · exact List.mem_append_right _ hi

/-- A calculation is a result of no other. -/
theorem producer_eq (hgood : g.values.Good) {value prod : Nat} {e : Expression Nat}
    (hlt : value < g.values.size) (hd : g.values.definition value = .expression e)
    (h : value ∈ g.expressionResults prod) : prod = value := by
  rw [FunctionGraph.expressionResults] at h
  split at h
  · next e' hprod =>
      obtain ⟨hle, hres⟩ := List.mem_range'_1.mp h
      by_contra hne
      obtain ⟨c, rfl⟩ := Nat.exists_eq_add_of_lt (Nat.lt_of_le_of_ne hle hne)
      have hval := ValueTable.value_eq_iff.mpr ⟨rfl, hprod⟩
      obtain ⟨-, hprojection⟩ := hgood.results (Nat.lt_of_le_of_lt hle hlt) hval (Nat.succ_pos c)
        (List.getElem?_eq_getElem (by omega))
      cases hd.symm.trans (ValueTable.value_eq_iff.mp hprojection).2
  · cases h

section Emission

variable {τ : Nat → Option Nat} (hgood : g.values.Good) (hplc : Placed g items exits)
  (h : sel.Faithful g items exits σ o)

include hplc h in
/-- Consumers read values whose calculations are placed and not skipped. -/
theorem Faithful.read {i : Nat} (hi : i ∈ sel.liveInputs g items exits) :
    Available g items (sel.resolve i) ∧
      ∀ prod, sel.resolve i ∈ g.expressionResults prod → sel.skipped prod = false := by
  refine ⟨?_, fun prod hprod => ?_⟩
  · exact Descend.run_invariant (P := Available g items) (fun a b _ hb => h.available a b hb)
      (hplc.input i (mem_of_liveInputs hi))
  · rw [Bool.eq_false_iff]
    intro hskipped
    have huses : 0 < sel.uses (sel.resolve i) := by
      rw [h.counted.uses]
      exact List.count_pos_iff.mpr (List.mem_map_of_mem hi)
    rcases h.skipped prod hskipped with halias | hunused
    · have hresults : g.expressionResults prod = [prod] := by
        cases h.unobserved prod halias with
        | convert input hd _ => exact single_of_result hd fun _ => rfl
        | replaceLane laneType lane left payload hd _ => exact single_of_result hd fun _ => rfl
      rw [hresults, List.mem_singleton] at hprod
      rw [← hprod, h.aliased.aliases_resolve] at halias
      cases halias
    · exact Nat.ne_of_gt huses (hunused _ hprod)

variable (hσ : Valuation F g.values σ) (hτ : Emitted F g.values sel.resolve τ)
  (hleaf : ∀ id < g.values.size, (g.values.value id).isLeaf → τ id = σ id)

include hgood hplc h

/-- Operands read from the emitted code agree with those of the graph on the bytes observed. -/
theorem Faithful.keeps_operand {prod : Nat} {e : Expression Nat} (hpl : .evaluate prod ∈ items)
    (hlive : sel.skipped prod = false) (hd : g.values.definition prod = .expression e)
    (hbelow : ∀ id < prod, Available g items id →
      (∀ p, id ∈ g.expressionResults p → sel.skipped p = false) → Keeps (o id) (σ id) (τ id))
    {k i : Nat} (hk : e.inputs[k]? = some i) :
    Keeps (operandBytes (g.values.ty prod) e (o prod) k) (σ i) (τ (sel.resolve i)) := by
  have hrd := h.calculation prod e hpl hlive hd k i hk
  have hoperand : i ∈ g.inputs (.evaluate prod) := by
    rw [FunctionGraph.inputs, hd]
    exact List.mem_of_getElem? hk
  have hin : i ∈ sel.liveInputs g items exits := by
    refine List.mem_append_left _ (List.mem_flatMap.mpr ⟨.evaluate prod, List.mem_filter.mpr ⟨hpl, ?_⟩, hoperand⟩)
    rw [enabled, hlive]
    rfl
  obtain ⟨hav, hread⟩ := h.read hplc hin
  have hlt : sel.resolve i < prod := Nat.lt_of_le_of_lt (h.aliased.resolve_le i)
    (inputs_lt hgood (hplc.expression prod hpl).1 hoperand)
  exact hrd.keeps.trans ((hbelow _ hlt hav hread).mono hrd.within)

include hσ hτ hleaf

/-- What is computed agrees with the graph on the bytes observed. -/
theorem Faithful.keeps_emitted {id : Nat} (hav : Available g items id)
    (hlive : ∀ prod, id ∈ g.expressionResults prod → sel.skipped prod = false) :
    Keeps (o id) (σ id) (τ id) := by
  induction id using Nat.strong_induction_on with
  | _ id ih =>
    have hcar : ∀ {i x}, i < g.values.size → τ (sel.resolve i) = some x →
        x < 2 ^ (g.values.ty i).carrier.bits := by
      intro i x hi hx
      rw [← h.aliased.resolve_carrier i]
      exact hτ.lt hgood (Nat.lt_of_le_of_lt (h.aliased.resolve_le i) hi) hx
    rcases hval : g.values.value id with ⟨ty, d⟩
    obtain ⟨hty, hd⟩ := ValueTable.value_eq_iff.mp hval
    cases d with
    | literal v =>
      rw [hσ.literal hav.lt hval, hτ.literal hav.lt hval]
      exact Keeps.refl _ _
    | parameter b c =>
      rw [hleaf id hav.lt (by rw [hval]; rfl)]
      exact Keeps.refl _ _
    | expression e =>
      intro x hx
      rw [hσ.expression hav.lt hval] at hx
      rw [hτ.expression hav.lt hval]
      have hinputs := hgood.inputs_lt hav.lt hval
      refine evalExpr_agree (hgood.typed hav.lt hval)
        (fun i hi y hy => (emitted_id.mpr hσ).lt hgood ((hinputs i hi).trans hav.lt) hy)
        (fun i hi y hy => hcar ((hinputs i hi).trans hav.lt) hy) (fun k i hk => ?_) hx
      exact hty ▸ h.keeps_operand hgood hplc (hav.expression e hd)
        (hlive id (mem_expressionResults hd)) hd ih hk
    | result p c =>
      cases p with
      | effect k =>
        rw [hleaf id hav.lt (by rw [hval]; rfl)]
        exact Keeps.refl _ _
      | evaluate p =>
        obtain ⟨ty', e, hp, hc, rfl, htypes⟩ := hgood.projection hav.lt hval
        obtain ⟨hty', hdef'⟩ := ValueTable.value_eq_iff.mp hp
        intro x hx
        rw [hσ.projection hav.lt hval hp] at hx
        rw [hτ.projection hav.lt hval hp]
        have hpl := hav.projection p c hd
        have hlt := (hplc.expression p hpl).1
        have hinputs := hgood.inputs_lt hlt hp
        have hlive' : sel.skipped p = false := by
          refine hlive p ?_
          rw [FunctionGraph.expressionResults, hdef', hty']
          exact List.mem_range'_1.mpr
            ⟨Nat.le_add_right p c, Nat.add_lt_add_left (List.getElem?_eq_some_iff.mp htypes).1 p⟩
        have hoperand := fun k i hk => h.keeps_operand hgood hplc hpl hlive' hdef'
          (fun id hid => ih id (Nat.lt_add_right c hid)) (k := k) (i := i) hk
        refine evalExpr_agree (wellTyped_component (hgood.typed hlt hp) hc htypes)
          (fun i hi y hy => (emitted_id.mpr hσ).lt hgood ((hinputs i hi).trans hlt) hy)
          (fun i hi y hy => hcar ((hinputs i hi).trans hlt) hy) (fun k i hk => ?_) hx
        -- Only a wide product has further results, and it reads whole operands.
        cases e with
        | multiplyWide s left right => exact hoperand k i hk
        | _ =>
          obtain ⟨c, rfl⟩ := Nat.exists_eq_succ_of_ne_zero (Nat.ne_of_gt hc)
          cases htypes

/-- What is read whole is read as it is in the graph. -/
theorem Faithful.exact_emitted {i : Nat} (hi : i ∈ sel.liveInputs g items exits)
    (hrd : sel.Reads σ o allBytes i) {x : Nat} (hx : σ i = some x) :
    τ (sel.resolve i) = some x := by
  obtain ⟨hav, hlive⟩ := h.read hplc hi
  have hkeeps := hrd.keeps.trans
    ((h.keeps_emitted hgood hplc hσ hτ hleaf hav hlive).mono hrd.within)
  obtain ⟨y, hy, hagree⟩ := hkeeps x hx
  rw [hy, hagree.eq (carrier_lt ((emitted_id.mpr hσ).lt hgood (hplc.input i (mem_of_liveInputs hi)).lt hx))
    (carrier_lt (hτ.lt hgood hav.lt hy))]

end Emission

end Observation

variable {F : Floating} {graph : FunctionGraph} {σ : Nat → Option Nat}

/-- The choice keeps what consumers read, also when calculations without uses are retired after it. -/
theorem lanes_faithful (hgood : graph.values.Good) {reachable : Nat → Bool}
    (hplc : Placed graph (placedItems graph reachable) (exitInputs graph reachable))
    (hσ : Valuation F graph.values σ) (values : List Nat)
    (hvals : ∀ value ∈ values, value ∈ placedResults graph reachable) :
    ∃ o, ((lanes graph reachable).retire graph values).Faithful graph (placedItems graph reachable)
      (exitInputs graph reachable) σ o := by
  have hpl : ∀ value ∈ placedResults graph reachable, ∀ e, graph.values.definition value = .expression e →
      .evaluate value ∈ placedItems graph reachable := hplc.result
  obtain ⟨hst, hextract⟩ := bypassConversions_faithful hgood hplc hσ
    (start_faithful hgood reachable hplc) hplc.distinct (fun _ _ => rfl) hpl fun _ _ _ _ => rfl
  have hlanes : ∃ o, (lanes graph reachable).Faithful graph (placedItems graph reachable)
      (exitInputs graph reachable) σ o := by
    rw [lanes]
    split
    · exact discardUnobservedLanes_faithful hgood hplc hσ hst hpl hextract
    · exact ⟨_, hst⟩
  obtain ⟨o, h⟩ := hlanes
  exact ⟨o, h.retire hplc values fun value hval => hpl value (hvals value hval)⟩

/-- Discarding unobserved lane updates is invisible, also when calculations without uses are retired after it. Effects,
    exits and calculations whose results are scalars see the carriers of the graph, every operand keeps the bytes that
    observed bytes depend on, only replacements of unobserved bytes are bypassed, and use counts are those of the live
    consumers, which read no skipped calculation. -/
theorem lanes_invisible {τ : Nat → Option Nat} {reachable : Nat → Bool} (hgood : graph.values.Good)
    (hplaced : Placed graph (placedItems graph reachable) (exitInputs graph reachable))
    (hσ : Valuation F graph.values σ) {values : List Nat}
    (hvalues : ∀ value ∈ values, value ∈ placedResults graph reachable)
    (hτ : Emitted F graph.values ((lanes graph reachable).retire graph values).resolve τ)
    (hleaf : ∀ id < graph.values.size, (graph.values.value id).isLeaf → τ id = σ id) :
    (∀ effect, .effect effect ∈ placedItems graph reachable → ∀ i ∈ graph.inputs (.effect effect), ∀ x,
      σ i = some x → τ (((lanes graph reachable).retire graph values).resolve i) = some x) ∧
    (∀ i ∈ exitInputs graph reachable, ∀ x,
      σ i = some x → τ (((lanes graph reachable).retire graph values).resolve i) = some x) ∧
    (∃ observed : Nat → Nat,
      (∀ value e, .evaluate value ∈ placedItems graph reachable →
        ((lanes graph reachable).retire graph values).skipped value = false →
        graph.values.definition value = .expression e →
        ((graph.values.ty value).carrier ≠ .v128 → ∀ x, σ value = some x → τ value = some x) ∧
        Keeps (observed value) (σ value) (τ value) ∧
        ∀ k i, e.inputs[k]? = some i → Keeps (operandBytes (graph.values.ty value) e (observed value) k) (σ i)
          (τ (((lanes graph reachable).retire graph values).resolve i))) ∧
      ∀ value, (((lanes graph reachable).retire graph values).aliases value).isSome →
        Unobserved graph observed value) ∧
    (∀ value, ((lanes graph reachable).retire graph values).uses value =
      ((((lanes graph reachable).retire graph values).liveInputs graph (placedItems graph reachable)
        (exitInputs graph reachable)).map ((lanes graph reachable).retire graph values).resolve).count value) ∧
    ∀ i ∈ ((lanes graph reachable).retire graph values).liveInputs graph (placedItems graph reachable)
        (exitInputs graph reachable),
      ∀ producer, ((lanes graph reachable).retire graph values).resolve i ∈ graph.expressionResults producer →
        ((lanes graph reachable).retire graph values).skipped producer = false := by
  obtain ⟨observed, h⟩ := lanes_faithful hgood hplaced hσ values hvalues
  generalize (lanes graph reachable).retire graph values = selection at h hτ ⊢
  refine ⟨fun effect heffect i hi x hx => ?_, fun i hi x hx => ?_,
    ⟨observed, fun value e hplace hlive hdefinition => ?_,
    h.unobserved⟩, h.counted.uses, fun i hi => (h.read hplaced hi).2⟩
  · refine h.exact_emitted hgood hplaced hσ hτ hleaf ?_ (h.effect effect heffect i hi) hx
    exact List.mem_append_left _ (List.mem_flatMap.mpr ⟨.effect effect, List.mem_filter.mpr ⟨heffect, rfl⟩, hi⟩)
  · exact h.exact_emitted hgood hplaced hσ hτ hleaf (List.mem_append_right _ hi) (h.exit i hi) hx
  · have hlt := (hplaced.expression value hplace).1
    have havailable : Available graph (placedItems graph reachable) value :=
      ⟨hlt, fun _ _ => hplace, fun p c hp => by cases hdefinition.symm.trans hp⟩
    have hproducer : ∀ producer, value ∈ graph.expressionResults producer → selection.skipped producer = false := by
      intro producer hproducer
      obtain rfl := producer_eq hgood hlt hdefinition hproducer
      exact hlive
    have hkeeps := h.keeps_emitted hgood hplaced hσ hτ hleaf havailable hproducer
    refine ⟨fun hscalar x hx => ?_, hkeeps, fun k i hk => ?_⟩
    · obtain ⟨y, hy, hagree⟩ := hkeeps x hx
      rw [h.whole value hscalar] at hagree
      rw [hy, hagree.eq (carrier_lt ((emitted_id.mpr hσ).lt hgood hlt hx)) (carrier_lt (hτ.lt hgood hlt hy))]
    · exact h.keeps_operand hgood hplaced hplace hlive hdefinition
        (fun id _ hid hid' => h.keeps_emitted hgood hplaced hσ hτ hleaf hid hid') hk

/-! ## A run -/

/-- The first byte of a vector is replaced, and the second word extracted. -/
def updateTable : ValueTable :=
  ((((ValueTable.empty.push ⟨.v128, .parameter 0 0⟩).2.push ⟨.i8, .parameter 0 1⟩).2.push
    ⟨.v128, .expression (.binary (.replaceLane .i8 0) 0 1)⟩).2.push ⟨.i16, .expression (.unary (.extractLane 1) 2)⟩).2

def updateGraph : FunctionGraph where
  values := updateTable
  effects := []
  blocks := [⟨[0, 1], [.evaluate 2, .evaluate 3], [], .ret [3]⟩]
  layout := [.block 0]
  entry := 0

def updateCarriers : Nat → Option Nat := denote .uncommitted updateTable fun id => if id = 0 then 0x44332211 else 0x99

theorem updateTable_good : updateTable.Good := by
  refine ValueTable.push_good (ValueTable.push_good (ValueTable.push_good (ValueTable.push_good
    ValueTable.good_empty ?_) ?_) ?_) ?_
  · trivial
  · trivial
  · exact ⟨by decide, by decide⟩
  · exact ⟨by decide, by decide⟩

theorem updateCarriers_valuation : Valuation .uncommitted updateTable updateCarriers := by
  refine denote_valuation updateTable_good ?_
  unfold Respects
  decide +kernel

theorem updateTable_value (id : Nat) :
    (id = 2 ∧ updateTable.value id = ⟨.v128, .expression (.binary (.replaceLane .i8 0) 0 1)⟩) ∨
      (id = 3 ∧ updateTable.value id = ⟨.i16, .expression (.unary (.extractLane 1) 2)⟩) ∨
      ((∃ ty b c, updateTable.value id = ⟨ty, .parameter b c⟩) ∨ updateTable.value id = ⟨.i32, .literal 0⟩) := by
  rcases id with - | - | - | - | id
  · exact Or.inr (Or.inr (Or.inl ⟨_, _, _, rfl⟩))
  · exact Or.inr (Or.inr (Or.inl ⟨_, _, _, rfl⟩))
  · exact Or.inl ⟨rfl, rfl⟩
  · exact Or.inr (Or.inl ⟨rfl, rfl⟩)
  · exact Or.inr (Or.inr (Or.inr rfl))

theorem updateGraph_emitted : Emitted .uncommitted updateGraph.values
    ((lanes updateGraph fun _ => true).retire updateGraph []).resolve updateCarriers := by
  refine ⟨updateCarriers_valuation.literal, fun {id ty e} hid h => ?_, fun {id ty p c} hid h => ?_,
    updateCarriers_valuation.leaf⟩
  · rcases updateTable_value id with ⟨rfl, h'⟩ | ⟨rfl, h'⟩ | ⟨ty', b, c, h'⟩ | h'
    · cases h'.symm.trans h
      decide +kernel
    · cases h'.symm.trans h
      decide +kernel
    · cases h'.symm.trans h
    · cases h'.symm.trans h
  · rcases updateTable_value id with ⟨rfl, h'⟩ | ⟨rfl, h'⟩ | ⟨ty', b, c, h'⟩ | h' <;> cases h'.symm.trans h

theorem updateGraph_placed : Placed updateGraph (placedItems updateGraph fun _ => true)
    (exitInputs updateGraph fun _ => true) := by
  have hitems : placedItems updateGraph (fun _ => true) = [.evaluate 2, .evaluate 3] := rfl
  have hexits : exitInputs updateGraph (fun _ => true) = [3] := rfl
  have hresults : [BlockItem.evaluate 2, .evaluate 3].flatMap updateGraph.results = [2, 3] := rfl
  have hinputs : [BlockItem.evaluate 2, .evaluate 3].flatMap updateGraph.inputs ++ [3] = [0, 1, 2, 3] := rfl
  rw [hitems, hexits]
  refine ⟨by decide, by rw [hresults]; decide, fun value hval => ?_, fun value hval e _ => ?_, fun i hi => ?_⟩
  · simp only [List.mem_cons, BlockItem.evaluate.injEq, not_mem_nil, or_false] at hval
    rcases hval with rfl | rfl
    · exact ⟨by decide, _, rfl⟩
    · exact ⟨by decide, _, rfl⟩
  · rw [hresults] at hval
    simpa only [List.mem_cons, BlockItem.evaluate.injEq, not_mem_nil, or_false] using hval
  · rw [hinputs] at hi
    have hlt : i < 4 := by
      simp only [List.mem_cons, not_mem_nil, or_false] at hi
      omega
    refine ⟨hlt, fun e he => ?_, fun p c hp => ?_⟩
    · rcases updateTable_value i with ⟨rfl, -⟩ | ⟨rfl, -⟩ | ⟨ty, b, c, h⟩ | h
      · exact mem_cons_self
      · exact mem_cons_of_mem _ mem_cons_self
      · cases (ValueTable.value_eq_iff.mp h).2.symm.trans he
      · cases (ValueTable.value_eq_iff.mp h).2.symm.trans he
    · rcases updateTable_value i with ⟨-, h⟩ | ⟨-, h⟩ | ⟨ty, b, c, h⟩ | h <;>
        cases (ValueTable.value_eq_iff.mp h).2.symm.trans hp

example : (lanes updateGraph fun _ => true).resolve 2 = 0 := by decide +kernel

/-- The word is extracted from the vector before the update, with the same result. -/
theorem lanes_invisible_update :
    updateCarriers 3 = some 0x4433 ∧
      updateCarriers (((lanes updateGraph fun _ => true).retire updateGraph []).resolve 3) = some 0x4433 :=
  ⟨by decide +kernel, (lanes_invisible updateTable_good updateGraph_placed updateCarriers_valuation
    (fun value (h : value ∈ ([] : List Nat)) => absurd h not_mem_nil) updateGraph_emitted fun _ _ _ => rfl).2.1 3
      (by decide) 0x4433 (by decide +kernel)⟩

end Selection

end Relocade.Compiler.Emit
