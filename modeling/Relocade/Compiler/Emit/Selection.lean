import Relocade.Compiler.Body.Graph
import Relocade.Compiler.Bounds

/-!
# `Compiler.Emit.Selection` — Wasm instruction forms chosen with placed uses

Selection leaves the graph's value definitions intact. Consumers read the value that an alias resolves to, and
calculations without consumers are skipped.
-/

namespace Relocade.Compiler.Emit

open Words

/-! ## The selection -/

inductive LoadForm where
  | plain | signed | splat64
  deriving DecidableEq

inductive StoreForm where
  | plain
  | lane (lane : Nat)
  deriving DecidableEq

structure SelectedLoad where
  result : Nat
  form : LoadForm
  deriving DecidableEq

structure SelectedStore where
  value : Nat
  form : StoreForm
  deriving DecidableEq

inductive MemorySelection where
  | load (load : SelectedLoad)
  | store (store : SelectedStore)
  deriving DecidableEq

structure Selection where
  skipped : Nat → Bool
  memory : Nat → Option MemorySelection
  zeroTestMasks : Nat → Bool
  aliases : Nat → Option Nat
  uses : Nat → Nat

namespace Selection

/-- The value that stands for a value. An alias names an earlier value. -/
def resolve (selection : Selection) (value : Nat) : Nat := Descend.run selection.aliases (value + 1) value

/-- Skip a calculation that no result of it has a use, and release its inputs. -/
def retireUnused (selection : Selection) (graph : FunctionGraph) (value : Nat) : Selection × Bool :=
  if selection.skipped value then (selection, false)
  else
    match graph.values.definition value with
    | .expression e =>
        if (graph.expressionResults value).any fun result => selection.uses result ≠ 0 then (selection, false)
        else
          ({ selection with
              skipped := Function.update selection.skipped value true
              uses := e.inputs.foldl (fun uses input =>
                Function.update uses (selection.resolve input) (uses (selection.resolve input) - 1)) selection.uses },
            true)
    | _ => (selection, false)

/-- Redirect one consumer, retaining a producer needed by other consumers. -/
def replaceInput (selection : Selection) (graph : FunctionGraph) (old input : Nat) : Selection :=
  let old := selection.resolve old
  let input := selection.resolve input
  let uses := Function.update selection.uses input (selection.uses input + 1)
  let uses := Function.update uses old (uses old - 1)
  ({ selection with uses := uses }.retireUnused graph old).1

/-- Bypass a single-result expression for all of its placed consumers. The caller proves the replacement preserves what
    those consumers observe. -/
def bypassExpression (selection : Selection) (graph : FunctionGraph) (value input : Nat) : Selection :=
  let input := selection.resolve input
  let taken := Function.update selection.uses value 0
  let uses := Function.update taken input (taken input + selection.uses value)
  let selection := ({ selection with uses := uses }.retireUnused graph value).1
  { selection with aliases := Function.update selection.aliases value (some input) }

/-! ## Aliases -/

/-- Aliases name earlier values with the same carrier. -/
structure Aliased (selection : Selection) (t : ValueTable) : Prop where
  lt : ∀ value target, selection.aliases value = some target → target < value
  carrier : ∀ value target, selection.aliases value = some target → (t.ty target).carrier = (t.ty value).carrier

variable {selection : Selection} {graph : FunctionGraph} {t : ValueTable}

theorem resolve_congr {sel' : Selection} (h : sel'.aliases = selection.aliases) :
    sel'.resolve = selection.resolve := by
  funext value
  rw [resolve, resolve, h]

theorem Aliased.congr {sel' : Selection} (h : selection.Aliased t)
    (heq : sel'.aliases = selection.aliases) : sel'.Aliased t :=
  ⟨by rw [heq]; exact h.lt, by rw [heq]; exact h.carrier⟩

@[simp] theorem retireUnused_aliases (value : Nat) :
    (selection.retireUnused graph value).1.aliases = selection.aliases := by
  rw [retireUnused]
  split
  · rfl
  · split
    · split <;> rfl
    · rfl

@[simp] theorem retireUnused_memory (value : Nat) :
    (selection.retireUnused graph value).1.memory = selection.memory := by
  rw [retireUnused]
  split
  · rfl
  · split
    · split <;> rfl
    · rfl

@[simp] theorem replaceInput_aliases (old input : Nat) :
    (selection.replaceInput graph old input).aliases = selection.aliases := retireUnused_aliases _

@[simp] theorem replaceInput_memory (old input : Nat) :
    (selection.replaceInput graph old input).memory = selection.memory := retireUnused_memory _

theorem Aliased.resolve_le (h : selection.Aliased t) (value : Nat) : selection.resolve value ≤ value :=
  Descend.run_invariant (P := (· ≤ value)) (fun a b ha hb => (Nat.le_of_lt (h.lt a b hb)).trans ha) (Nat.le_refl _)

theorem Aliased.resolve_carrier (h : selection.Aliased t) (value : Nat) :
    (t.ty (selection.resolve value)).carrier = (t.ty value).carrier :=
  Descend.run_invariant (P := fun a => (t.ty a).carrier = (t.ty value).carrier)
    (fun a b ha hb => (h.carrier a b hb).trans ha) rfl

/-- A resolved value has no alias. -/
theorem Aliased.aliases_resolve (h : selection.Aliased t) (value : Nat) :
    selection.aliases (selection.resolve value) = none :=
  Descend.run_stuck (P := fun _ => True) id (fun a b _ hb => ⟨trivial, h.lt a b hb⟩) trivial (Nat.lt_succ_self _)

theorem resolve_of_none {value : Nat} (h : selection.aliases value = none) : selection.resolve value = value := by
  rw [resolve, Descend.run, h]

theorem Aliased.resolve_resolve (h : selection.Aliased t) (value : Nat) :
    selection.resolve (selection.resolve value) = selection.resolve value :=
  resolve_of_none (h.aliases_resolve value)

end Selection

/-! ## The carriers of the emitted code -/

/-- Carriers that solve every definition, when consumers read the values that their operands resolve to. -/
structure Emitted (F : Floating) (t : ValueTable) (resolve : Nat → Nat) (τ : Nat → Option Nat) : Prop where
  literal : ∀ {id ty v}, id < t.size → t.value id = ⟨ty, .literal v⟩ → τ id = some v
  expression : ∀ {id ty e}, id < t.size → t.value id = ⟨ty, .expression e⟩ →
    τ id = evalExpr F t (fun i => τ (resolve i)) ty e 0
  projection : ∀ {id ty p c}, id < t.size → t.value id = ⟨ty, .result (.evaluate p) c⟩ →
    ∀ {ty' e}, t.value p = ⟨ty', .expression e⟩ → τ id = evalExpr F t (fun i => τ (resolve i)) ty e c
  leaf : ∀ {id}, id < t.size → (t.value id).isLeaf → ∃ v, τ id = some v ∧ InBounds t id v

variable {F : Floating} {t : ValueTable} {resolve : Nat → Nat} {τ : Nat → Option Nat}

/-- Without aliases, the emitted code computes the values of the graph. -/
theorem emitted_id : Emitted F t id τ ↔ Valuation F t τ :=
  ⟨fun ⟨h₁, h₂, h₃, h₄⟩ => ⟨h₁, h₂, h₃, h₄⟩, fun ⟨h₁, h₂, h₃, h₄⟩ => ⟨h₁, h₂, h₃, h₄⟩⟩

/-- A further result of an operation has a type that the operation admits. -/
theorem wellTyped_component {e : Expression Nat} {ty ty' : Ty} {c : Nat} (hw : (e.map t.ty).wellTyped ty' = true)
    (hc : 0 < c) (h : (e.resultTypes ty')[c]? = some ty) : (e.map t.ty).wellTyped ty = true := by
  obtain ⟨c, rfl⟩ := Nat.exists_eq_succ_of_ne_zero (Nat.ne_of_gt hc)
  cases e with
  | multiplyWide isSigned left right =>
    cases c with
    | zero =>
      cases h
      simp only [Expression.map, Expression.wellTyped, Bool.and_eq_true] at hw ⊢
      exact ⟨hw.1, rfl⟩
    | succ c => cases h
  | unary => cases h
  | binary => cases h
  | shift => cases h
  | ternary => cases h

/-- Emitted code computes full carriers. -/
theorem Emitted.lt (h : Emitted F t resolve τ) (ht : t.Good) {id x : Nat} (hid : id < t.size) (hx : τ id = some x) :
    x < 2 ^ (t.ty id).carrier.bits := by
  rcases hv : t.value id with ⟨ty, d⟩
  have hty : t.ty id = ty := (ValueTable.value_eq_iff.mp hv).1
  rw [hty]
  cases d with
  | literal v =>
    rw [h.literal hid hv] at hx
    cases hx
    exact ht.literal_lt hid hv
  | expression e =>
    rw [h.expression hid hv] at hx
    exact evalExpr_lt (ht.typed hid hv) hx
  | parameter b c =>
    obtain ⟨v, hv', hb⟩ := h.leaf hid (by rw [hv]; rfl)
    rw [hv'] at hx
    cases hx
    exact hty ▸ hb.carrier
  | result p c =>
    cases p with
    | effect k =>
      obtain ⟨v, hv', hb⟩ := h.leaf hid (by rw [hv]; rfl)
      rw [hv'] at hx
      cases hx
      exact hty ▸ hb.carrier
    | evaluate p =>
      obtain ⟨ty', e, hp, hc, rfl, htypes⟩ := ht.projection hid hv
      rw [h.projection hid hv hp] at hx
      exact evalExpr_lt (wellTyped_component (ht.typed (by omega) hp) hc htypes) hx

end Relocade.Compiler.Emit
