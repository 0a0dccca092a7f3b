import Relocade.Compiler.Store

/-!
# `Compiler.Fold.Rules` — construction as a state monad

A folder step reads and extends the function's table, so it is a computation in `Construct`; it is undefined where
the compiler would panic. `Yields` is total correctness for such steps: the step returns, it only extends the
table, and the table's invariant and a postcondition hold afterwards. The helpers of the folder are written
against the fold they belong to (`Fold`), which they call back with rewritten expressions.
-/

namespace Relocade.Compiler

open Words

/-- A step of construction over the function's table. -/
abbrev Construct := StateT ValueTable Option

/-- Folding one component of an expression at a result type. -/
abbrev Fold := Ty → Expression Nat → Nat → Construct Nat

/-- The invariant of a table under construction. -/
structure Invariant (F : Floating) (t : ValueTable) : Prop where
  good : t.Good
  sound : t.Sound F

/-- The step returns, extends the table, keeps its invariant and establishes `Q`. -/
def Yields {α : Type} (F : Floating) (t : ValueTable) (m : Construct α) (Q : α → ValueTable → Prop) : Prop :=
  ∃ a t', m t = some (a, t') ∧ t.Extends t' ∧ Invariant F t' ∧ Q a t'

section

variable {α β : Type} {F : Floating} {t t' : ValueTable} {Q : α → ValueTable → Prop} {R : β → ValueTable → Prop}

theorem Yields.pure {a : α} (ht : Invariant F t) (h : Q a t) : Yields F t (pure a) Q :=
  ⟨a, t, rfl, .refl t, ht, h⟩

theorem Yields.bind {m : Construct α} {f : α → Construct β} (hm : Yields F t m Q)
    (hf : ∀ a t', t.Extends t' → Invariant F t' → Q a t' → Yields F t' (f a) R) : Yields F t (m >>= f) R := by
  obtain ⟨a, t', hm, hx, ht', ha⟩ := hm
  obtain ⟨b, t'', hf, hx', ht'', hb⟩ := hf a t' hx ht' ha
  refine ⟨b, t'', ?_, hx.trans hx', ht'', hb⟩
  show (m t).bind (fun p => f p.1 p.2) = _
  rw [hm]
  exact hf

/-- The postcondition may also say what was returned. -/
theorem Yields.run {m : Construct α} (hm : Yields F t m Q) : Yields F t m fun a t' => Q a t' ∧ m t = some (a, t') := by
  obtain ⟨a, t', hm, hx, ht', ha⟩ := hm
  exact ⟨a, t', hm, hx, ht', ha, hm⟩

theorem Yields.get {f : ValueTable → Construct β} (h : Yields F t (f t) R) : Yields F t (get >>= f) R := h

theorem Yields.mono {m : Construct α} {Q' : α → ValueTable → Prop} (hm : Yields F t m Q)
    (h : ∀ a t', t.Extends t' → Invariant F t' → Q a t' → Q' a t') : Yields F t m Q' := by
  obtain ⟨a, t', hm, hx, ht', ha⟩ := hm
  exact ⟨a, t', hm, hx, ht', h a t' hx ht' ha⟩

end

/-! ## What a position holds -/

/-- Position `r` has type `ty` and holds whatever `D` computes, in every valuation. -/
structure Holds (F : Floating) (t : ValueTable) (ty : Ty) (D : (Nat → Option Nat) → Option Nat) (r : Nat) : Prop where
  lt : r < t.size
  ty_eq : t.ty r = ty
  value : ∀ {σ v}, Valuation F t σ → D σ = some v → σ r = some v

/-- Position `r`, converted to `ty`, holds whatever `D` computes. -/
structure Converts (F : Floating) (t : ValueTable) (ty : Ty) (D : (Nat → Option Nat) → Option Nat) (r : Nat) :
    Prop where
  lt : r < t.size
  typed : t.ty r = ty ∨ UnaryOp.wellTyped .convert (t.ty r) ty = true
  value : ∀ {σ v}, Valuation F t σ → D σ = some v → ∃ u, σ r = some u ∧ u % 2 ^ ty.carrier.bits = v

/-- A rewrite either declines or names a position that converts to the expression's value. -/
def Rewrites (F : Floating) (ty : Ty) (D : (Nat → Option Nat) → Option Nat) (r : Option Nat) (t : ValueTable) : Prop :=
  ∀ i, r = some i → Converts F t ty D i

section

variable {F : Floating} {t t' : ValueTable} {ty : Ty} {D : (Nat → Option Nat) → Option Nat} {r : Nat}

theorem Invariant.inBounds (ht : Invariant F t) {σ : Nat → Option Nat} (hσ : Valuation F t σ) {id v : Nat}
    (hid : id < t.size) (hv : σ id = some v) : InBounds t id v :=
  ht.sound.inBounds hσ hid hv

theorem Invariant.carrier_lt (ht : Invariant F t) {σ : Nat → Option Nat} (hσ : Valuation F t σ) {id v : Nat}
    (hid : id < t.size) (hv : σ id = some v) : v < 2 ^ (t.ty id).carrier.bits :=
  (ht.inBounds hσ hid hv).carrier

/-- An operand of an expression that has a value has one that fits its carrier. -/
theorem Invariant.operand (ht : Invariant F t) {σ : Nat → Option Nat} (hσ : Valuation F t σ) {e : Expression Nat}
    {c v i : Nat} (hv : evalExpr F t σ ty e c = some v) (hi : i < t.size) (hmem : i ∈ e.inputs) :
    ∃ x, σ i = some x ∧ x < 2 ^ (t.ty i).carrier.bits := by
  obtain ⟨x, hx⟩ := evalExpr_inputs hv i hmem
  exact ⟨x, hx, ht.carrier_lt hσ hi hx⟩

theorem Holds.extends (h : Holds F t ty D r) (ht : t.Good) (hx : t.Extends t') : Holds F t' ty D r :=
  ⟨hx.lt h.lt, (hx.ty_eq h.lt).trans h.ty_eq, fun hσ hv => h.value (hσ.restrict ht hx) hv⟩

theorem Holds.converts (h : Holds F t ty D r) (ht : Invariant F t) : Converts F t ty D r := by
  refine ⟨h.lt, Or.inl h.ty_eq, ?_⟩
  intro σ v hσ hv
  have hr := h.value hσ hv
  refine ⟨v, hr, Nat.mod_eq_of_lt ?_⟩
  have := ht.carrier_lt hσ h.lt hr
  rwa [h.ty_eq] at this

/-- An existing position with the same carrier that holds the value. -/
theorem Converts.of_value (ht : Invariant F t) (hr : r < t.size)
    (hty : t.ty r = ty ∨ (t.ty r).carrier = ty.carrier ∧ UnaryOp.wellTyped .convert (t.ty r) ty = true)
    (hv : ∀ {σ v}, Valuation F t σ → D σ = some v → σ r = some v) : Converts F t ty D r := by
  have hcar : (t.ty r).carrier = ty.carrier := by
    rcases hty with h | ⟨h, -⟩
    · rw [h]
    · exact h
  refine ⟨hr, hty.imp id (·.2), ?_⟩
  intro σ v hσ hD
  have hval := hv hσ hD
  refine ⟨v, hval, Nat.mod_eq_of_lt ?_⟩
  rw [← hcar]
  exact ht.carrier_lt hσ hr hval

theorem Rewrites.none : Rewrites F ty D none t := fun _ h => absurd h (by simp)

theorem Rewrites.some (h : Converts F t ty D r) : Rewrites F ty D (some r) t := by
  intro i hi
  obtain rfl := Option.some.inj hi
  exact h

end

/-- Types of one integer carrier, or of the vector carrier, convert to each other without changing a bit. -/
theorem convert_wellTyped {a b : Ty} (h : a.carrier = b.carrier) (hf : b.carrier ≠ .f64) :
    UnaryOp.wellTyped .convert a b = true := by
  revert h hf
  cases a <;> cases b <;> decide

/-! ## Storage -/

namespace Folder

def carrierLiteral (ty : Ty) (bits : Nat) : Construct Nat := fun t => some (t.carrierLiteral ty bits)

def literal (ty : Ty) (bits : Nat) : Construct Nat := fun t => some (t.literal ty bits)

/-- Finish a canonical value without re-entering the rewrite that produced it. -/
def internResult (ty : Ty) (e : Expression Nat) (component : Nat) : Construct Nat := do
  let producer ← fun t => some (t.intern ⟨ty, .expression e⟩)
  let id ← StateT.lift ((← get).expressionResult producer component)
  if ((← get).boundsOf id).unsigned = 0 then literal ty 0 else pure id

def intern (ty : Ty) (e : Expression Nat) : Construct Nat := internResult ty e 0

/-- The bits of a literal, scalar or vector. -/
def vectorLiteral (t : ValueTable) (input : Nat) : Option Nat :=
  match t.definition input with
  | .literal bits => some bits
  | _ => none

/-- The operands as literals, when all of them are. -/
def literals (t : ValueTable) (e : Expression Nat) : Option (Expression TypedLiteral) :=
  e.tryMap fun input => (vectorLiteral t input).map (TypedLiteral.mk (t.ty input))

section

variable {F : Floating} {t : ValueTable} {ty : Ty}

theorem Stored.invariant {v : Value} {r : Nat × ValueTable} (h : ValueTable.Stored F t v r) (ht : Invariant F t)
    (hd : ∀ e, v.definition = .expression e → t.DivisionFits F v.ty e) : Invariant F r.2 :=
  ⟨h.good, h.sound ht.sound hd⟩

/-- A stored literal holds its bits. -/
theorem yields_carrierLiteral (ht : Invariant F t) (ty : Ty) (bits : Nat) :
    Yields F t (carrierLiteral ty bits) fun r t' =>
      Holds F t' ty (fun _ => some (bits % 2 ^ ty.carrier.bits)) r ∧
        t'.definition r = .literal (bits % 2 ^ ty.carrier.bits) := by
  have h := ValueTable.carrierLiteral_stored (F := F) ht.good ty bits
  obtain ⟨hty, hdef⟩ := ValueTable.value_eq_iff.mp h.value_eq
  refine ⟨(t.carrierLiteral ty bits).1, (t.carrierLiteral ty bits).2, rfl, h.extend, Stored.invariant h ht (by simp),
    ⟨h.lt, hty, ?_⟩, hdef⟩
  intro σ v hσ hv
  exact (hσ.literal h.lt h.value_eq).trans hv

theorem yields_literal (ht : Invariant F t) (ty : Ty) (bits : Nat) :
    Yields F t (literal ty bits) fun r t' =>
      Holds F t' ty (fun _ => some (bits % 2 ^ ty.bits)) r ∧ t'.definition r = .literal (bits % 2 ^ ty.bits) := by
  have h := yields_carrierLiteral ht ty (bits % 2 ^ ty.bits)
  rw [mod_mod_two_pow' ty.bits_le_carrier] at h
  exact h

variable {e : Expression Nat}

/-- The one result type of a well-typed expression. -/
theorem resultTypes_getElem {t : ValueTable} {c : Nat}
    (hw : (e.map t.ty).wellTyped ty = true) (hc : c < (e.resultTypes ty).length) :
    (e.resultTypes ty)[c]? = some ty := by
  cases e with
  | multiplyWide s i j =>
    simp only [Expression.map, Expression.wellTyped, Bool.and_eq_true, decide_eq_true_eq] at hw
    obtain rfl := Ty.eq_i64_of_carrier hw.2
    have : c < 2 := hc
    interval_cases c <;> rfl
  | unary _ _ | binary _ _ _ | shift _ _ _ | ternary _ _ _ _ =>
    have : c < 1 := hc
    interval_cases c
    rfl

/-- The component of a stored expression holds its value. -/
theorem Stored.holds {r : Nat × ValueTable} {c : Nat}
    (h : ValueTable.Stored F t ⟨ty, .expression e⟩ r) (he : ∀ i ∈ e.inputs, i < t.size)
    (hw : (e.map t.ty).wellTyped ty = true) (hc : c < (e.resultTypes ty).length) :
    r.2.expressionResult r.1 c = some (r.1 + c) ∧ Holds F r.2 ty (evalExpr F t · ty e c) (r.1 + c) := by
  obtain ⟨hty, hdef⟩ := ValueTable.value_eq_iff.mp h.value_eq
  constructor
  · rw [ValueTable.expressionResult, hdef, hty]
    simp [hc]
  · rcases Nat.eq_zero_or_pos c with rfl | hpos
    · refine ⟨h.lt, hty, ?_⟩
      intro σ v hσ hv
      rw [Nat.add_zero, hσ.expression h.lt h.value_eq, evalExpr_extends h.extend he]
      exact hv
    · obtain ⟨hlt, hval⟩ := h.good.results h.lt h.value_eq hpos (resultTypes_getElem hw hc)
      refine ⟨hlt, (ValueTable.value_eq_iff.mp hval).1, ?_⟩
      intro σ v hσ hv
      rw [hσ.projection hlt hval h.value_eq, evalExpr_extends h.extend he]
      exact hv

theorem internResult_run {c p r : Nat} {t' : ValueTable}
    (hi : t.intern ⟨ty, .expression e⟩ = (p, t')) (hr : t'.expressionResult p c = some r) :
    internResult ty e c t = if (t'.boundsOf r).unsigned = 0 then some (t'.literal ty 0) else some (r, t') := by
  show (((some (t.intern ⟨ty, .expression e⟩)).bind fun p => ((p.2.expressionResult p.1 c).bind fun id =>
    some (id, p.2)).bind fun q => (if (q.2.boundsOf q.1).unsigned = 0 then literal ty 0 else pure q.1) q.2)) = _
  rw [hi]
  simp only [Option.bind_some, hr]
  split <;> rfl

/-- Storing an expression gives a position that holds its value; a value of no bits is zero. -/
theorem yields_internResult_of (ht : t.Good) {c : Nat} (he : ∀ i ∈ e.inputs, i < t.size)
    (hw : (e.map t.ty).wellTyped ty = true) (hc : c < (e.resultTypes ty).length)
    (hwidens : t.Fits → Value.Widens ⟨ty, .expression e⟩)
    (hinv : Invariant F (t.intern ⟨ty, .expression e⟩).2) :
    Yields F t (internResult ty e c) fun r t' => Holds F t' ty (evalExpr F t · ty e c) r := by
  have h := ValueTable.intern_stored (F := F) (v := ⟨ty, .expression e⟩) ht ⟨he, hw⟩ rfl hwidens
  obtain ⟨hres, hslot⟩ := Stored.holds h he hw hc
  have hx := h.extend
  generalize hr : t.intern ⟨ty, .expression e⟩ = r at *
  obtain ⟨producer, t'⟩ := r
  by_cases hz : (t'.boundsOf (producer + c)).unsigned = 0
  · obtain ⟨r, t'', hm, hx', hinv', ⟨hlt, hty', hval⟩, -⟩ := yields_literal hinv ty 0
    refine ⟨r, t'', ?_, hx.trans hx', hinv', hlt, hty', ?_⟩
    · rw [internResult_run hr hres, if_pos hz]
      exact hm
    · intro σ v hσ hv
      have hσ' := hσ.restrict hinv.good hx'
      have hb := (hinv.inBounds hσ' hslot.lt (hslot.value hσ' hv)).unsigned
      rw [hz] at hb
      obtain rfl : v = 0 := by omega
      simpa using hval hσ rfl
  · exact ⟨producer + c, t', by rw [internResult_run hr hres, if_neg hz], hx, hinv, hslot⟩

theorem yields_internResult (ht : Invariant F t) {c : Nat}
    (he : ∀ i ∈ e.inputs, i < t.size) (hw : (e.map t.ty).wellTyped ty = true)
    (hc : c < (e.resultTypes ty).length) (hd : t.DivisionFits F ty e)
    (hwidens : t.Fits → Value.Widens ⟨ty, .expression e⟩) :
    Yields F t (internResult ty e c) fun r t' => Holds F t' ty (evalExpr F t · ty e c) r :=
  yields_internResult_of ht.good he hw hc hwidens
    (Stored.invariant (ValueTable.intern_stored ht.good ⟨he, hw⟩ rfl hwidens) ht (by rintro e' he'; cases he'; exact hd))

theorem yields_intern (ht : Invariant F t) (he : ∀ i ∈ e.inputs, i < t.size)
    (hw : (e.map t.ty).wellTyped ty = true) (hd : t.DivisionFits F ty e)
    (hwidens : t.Fits → Value.Widens ⟨ty, .expression e⟩) :
    Yields F t (intern ty e) fun r t' => Holds F t' ty (evalExpr F t · ty e 0) r :=
  yields_internResult ht he hw (e.length_resultTypes_pos ty) hd hwidens

end

end Folder

/-! ## Representations and literal operands -/

namespace ValueTable

variable {F : Floating} {t : ValueTable} {σ : Nat → Option Nat} {id input : Nat}

theorem convertInput_eq_some (h : t.convertInput id = some input) :
    t.definition id = .expression (.unary .convert input) ∧ (t.ty id).carrier = (t.ty input).carrier := by
  unfold convertInput at h
  split at h
  · next j hj =>
      split at h
      · next hc =>
          obtain rfl := Option.some.inj h
          exact ⟨hj, hc⟩
      · cases h
  · cases h

theorem convertInput_lt (ht : t.Good) (hid : id < t.size) (h : t.convertInput id = some input) : input < id :=
  ht.inputs_lt hid (value_eq_iff.mpr ⟨rfl, (convertInput_eq_some h).1⟩) input (by simp)

/-- A representation is an earlier value with the same carrier type and, in every valuation, the same carrier. -/
theorem representation_spec (ht : Invariant F t) (hid : id < t.size) :
    t.representation id ≤ id ∧ (t.ty (t.representation id)).carrier = (t.ty id).carrier ∧
      ∀ σ, Valuation F t σ → ∀ v, σ id = some v → σ (t.representation id) = some v := by
  refine Descend.run_invariant (P := fun r => r ≤ id ∧ (t.ty r).carrier = (t.ty id).carrier ∧
    ∀ σ, Valuation F t σ → ∀ v, σ id = some v → σ r = some v) ?_ ⟨Nat.le_refl _, rfl, fun _ _ _ h => h⟩
  rintro r input ⟨hle, hty, hval⟩ hr
  have hlt : r < t.size := by omega
  obtain ⟨hdef, hcar⟩ := convertInput_eq_some hr
  have hin := convertInput_lt ht.good hlt hr
  refine ⟨by omega, hcar.symm.trans hty, ?_⟩
  intro σ hσ v hv
  have hrv := hval σ hσ v hv
  rw [hσ.expression hlt (value_eq_iff.mpr ⟨rfl, hdef⟩)] at hrv
  obtain ⟨x, hx⟩ := evalExpr_inputs hrv input (by simp)
  have hb := ht.carrier_lt hσ (by omega) hx
  rw [eval_convert hx hb, hcar, Nat.mod_eq_of_lt hb] at hrv
  rw [hx, hrv]

theorem representation_le (ht : t.Good) (hid : id < t.size) : t.representation id ≤ id := by
  refine (Descend.run_invariant (P := fun r => r ≤ id) ?_ (Nat.le_refl _))
  intro r input hle hr
  have := convertInput_lt ht (by omega) hr
  omega

theorem Extends.representation_eq {t' : ValueTable} (ht : t.Good) (hx : t.Extends t') (hid : id < t.size) :
    t'.representation id = t.representation id := by
  refine Descend.run_congr (P := fun r => r < t.size) ?_ ?_ hid
  · intro r input hr h
    exact Nat.lt_trans (convertInput_lt ht hr h) hr
  · intro r hr
    unfold convertInput
    rw [hx.definition_eq hr]
    split
    · next input hdef =>
        have hlt := ht.inputs_lt hr (value_eq_iff.mpr ⟨rfl, hdef⟩) input (by simp)
        rw [hx.ty_eq hr, hx.ty_eq (Nat.lt_trans hlt hr)]
    · rfl

/-- Positions with one representation hold one carrier. -/
theorem eq_of_representation (ht : Invariant F t) (hσ : Valuation F t σ) {i j x y : Nat} (hi : i < t.size)
    (hj : j < t.size) (h : t.representation i = t.representation j) (hx : σ i = some x) (hy : σ j = some y) :
    x = y := by
  have h₁ := (representation_spec ht hi).2.2 σ hσ x hx
  have h₂ := (representation_spec ht hj).2.2 σ hσ y hy
  rw [h, h₂] at h₁
  exact (Option.some.inj h₁).symm

theorem scalarLiteral_eq_some {b : Nat} (h : t.scalarLiteral id = some b) :
    ∃ w, t.definition id = .literal w ∧ (t.ty id).isScalar = true ∧ b = w % 2 ^ 64 := by
  unfold scalarLiteral Value.scalarLiteral at h
  split at h
  · next w hw =>
      unfold Literal.scalar at h
      split at h
      · next hs => exact ⟨w, hw, hs, (Option.some.inj h).symm⟩
      · cases h
  · cases h

theorem scalarLiteral_lt (ht : t.Good) (hid : id < t.size) {b : Nat} (h : t.scalarLiteral id = some b) :
    b < 2 ^ (t.ty id).carrier.bits := by
  obtain ⟨w, hw, hs, rfl⟩ := scalarLiteral_eq_some h
  exact Nat.lt_of_le_of_lt (Nat.mod_le _ _) (ht.literal_lt hid (value_eq_iff.mpr ⟨rfl, hw⟩))

/-- A scalar literal's bits are its carrier. -/
theorem value_of_scalarLiteral (ht : t.Good) (hσ : Valuation F t σ) (hid : id < t.size) {b : Nat}
    (h : t.scalarLiteral id = some b) : σ id = some b ∧ b < 2 ^ (t.ty id).carrier.bits := by
  obtain ⟨w, hw, hs, rfl⟩ := scalarLiteral_eq_some h
  have hval : t.value id = ⟨t.ty id, .literal w⟩ := value_eq_iff.mpr ⟨rfl, hw⟩
  have hlt := ht.literal_lt hid hval
  have hmod : w % 2 ^ 64 = w := mod_two_pow_of_lt hlt (Ty.bits_le_of_isScalar (by simp [hs]))
  rw [hmod]
  exact ⟨hσ.literal hid hval, hlt⟩

/-- A literal under conversions is the carrier of every value above them. -/
theorem value_of_literal_representation (ht : Invariant F t) (hσ : Valuation F t σ) (hid : id < t.size) {b v : Nat}
    (h : t.scalarLiteral (t.representation id) = some b) (hv : σ id = some v) : v = b := by
  obtain ⟨hle, -, hrep⟩ := representation_spec ht hid
  have h₁ := (value_of_scalarLiteral ht.good hσ (by omega) h).1
  rw [hrep σ hσ v hv] at h₁
  exact Option.some.inj h₁

end ValueTable

/-! ## The fold a helper calls back -/

/-- A position that does not end in a scalar literal counts for the exclusive ors above it. -/
def ValueTable.xorDepth (t : ValueTable) (id : Nat) : Nat :=
  match t.scalarLiteral (t.representation id) with
  | some _ => 0
  | none => t.representation id + 1

/-- A bound on how deep the rewrites of an expression nest: every rewrite calls back with an expression over
    earlier positions, or with one of a kind that rewrites less. -/
def ValueTable.foldDepth (t : ValueTable) (ty : Ty) (e : Expression Nat) : Nat :=
  match e with
  | .unary (.zeroTest _) input => input + 2
  | .unary (.extractLane _) input => input + 3
  | .unary (.lowBits _) _ => 1
  | .unary (.signExtend inputType) _ => if inputType = .i32 then 0 else 1
  | .binary (.bitwise .and) _ _ => 1
  | .binary (.bitwise .or) _ _ => 2
  | .binary (.bitwise .xor) left right => max (t.xorDepth left) (t.xorDepth right)
  | .binary (.integer _) _ _ => if ty = .i64 then 2 else 0
  | .binary (.compare (.integer _)) left right => max left right + 3
  | .binary (.swizzle _) _ _ => 1
  | .binary (.replaceLane _ _) left _ => left
  | .ternary .select _ _ condition => condition + 3
  | .ternary .bitselect _ whenFalse _ => whenFalse + 1
  | .ternary (.shuffle _) _ _ _ => 2
  | .multiplyWide .. => 3
  | _ => 0

theorem ValueTable.Extends.foldDepth_eq {t t' : ValueTable} (ht : t.Good) (hx : t.Extends t') {ty : Ty}
    {e : Expression Nat} (he : ∀ i ∈ e.inputs, i < t.size) : t'.foldDepth ty e = t.foldDepth ty e := by
  have key : ∀ i ∈ e.inputs, t'.xorDepth i = t.xorDepth i := by
    intro i hi
    have hrep := hx.representation_eq ht (he i hi)
    have hlt := representation_le ht (he i hi)
    unfold ValueTable.xorDepth
    rw [hrep, hx.scalarLiteral_eq (Nat.lt_of_le_of_lt hlt (he i hi))]
  unfold ValueTable.foldDepth
  split <;> first
    | rfl
    | rw [key _ (by simp), key _ (by simp)]

/-- What every call of the fold promises, for expressions whose rewrites nest less than `n` deep. -/
def FoldsBelow (F : Floating) (n : Nat) (self : Fold) : Prop :=
  ∀ {t : ValueTable} {a : Ty} {e : Expression Nat} {c : Nat}, Invariant F t → (∀ i ∈ e.inputs, i < t.size) →
    (e.map t.ty).wellTyped a = true → c < (e.resultTypes a).length → t.DivisionFits F a e → t.foldDepth a e < n →
    Yields F t (self a e c) fun r t' => Holds F t' a (evalExpr F t · a e c) r

end Relocade.Compiler
