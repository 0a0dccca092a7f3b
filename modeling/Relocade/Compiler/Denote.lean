import Relocade.Compiler.Values

/-!
# `Compiler.Denote` — what a table of values means

A table is a straight-line program over its leaves. `evalExpr` runs one operation with the carrier rules, a
`Valuation` is an assignment of carriers to positions that solves every definition and keeps each leaf inside its
recorded widths, and `denote` computes the one valuation that extends an assignment of the leaves.
-/

namespace Relocade.Compiler

open Words

namespace ValueTable

/-- The structural invariant of a table: definitions name earlier values, operations are well typed, literals fit
    their carrier, and the projections of a multi-result expression follow it. -/
structure Good (t : ValueTable) : Prop where
  bounds_length : t.bounds.length = t.size
  literal_lt : ∀ {id ty v}, id < t.size → t.value id = ⟨ty, .literal v⟩ → v < 2 ^ ty.carrier.bits
  inputs_lt : ∀ {id ty e}, id < t.size → t.value id = ⟨ty, .expression e⟩ → ∀ i ∈ e.inputs, i < id
  typed : ∀ {id ty e}, id < t.size → t.value id = ⟨ty, .expression e⟩ → (e.map t.ty).wellTyped ty
  projection : ∀ {id ty p c}, id < t.size → t.value id = ⟨ty, .result (.evaluate p) c⟩ →
    ∃ ty' e, t.value p = ⟨ty', .expression e⟩ ∧ 0 < c ∧ id = p + c ∧ (e.resultTypes ty')[c]? = some ty
  results : ∀ {id ty e}, id < t.size → t.value id = ⟨ty, .expression e⟩ →
    ∀ {c ty'}, 0 < c → (e.resultTypes ty)[c]? = some ty' →
      id + c < t.size ∧ t.value (id + c) = ⟨ty', .result (.evaluate id) c⟩
  interned_lt : ∀ id ∈ t.interned, id < t.size

/-- No value records a sign that is wider than its carrier. -/
def Fits (t : ValueTable) : Prop := ∀ id < t.size, (t.boundsOf id).signed ≤ (t.ty id).carrier.bits

/-- Stored sign extensions widen their carriers. -/
def Widens (t : ValueTable) : Prop := ∀ id, (t.value id).Widens

/-- `t'` is `t` with further values that no leaf is among: what construction and folding do to a table. Where widths fit
    their carriers, they go on to, and sign extensions are stored only where they widen. -/
structure Extends (t t' : ValueTable) : Prop where
  size_le : t.size ≤ t'.size
  value_eq : ∀ {id}, id < t.size → t'.value id = t.value id
  bounds_eq : ∀ {id}, id < t.size → t'.boundsOf id = t.boundsOf id
  not_leaf : ∀ {id}, t.size ≤ id → id < t'.size → (t'.value id).isLeaf = false
  widens : t.Fits ∧ t.Widens → t'.Fits ∧ t'.Widens

namespace Extends

variable {t t' t'' : ValueTable}

theorem refl (t : ValueTable) : Extends t t :=
  ⟨Nat.le_refl _, fun _ => rfl, fun _ => rfl, fun h h' => absurd h' (Nat.not_lt.mpr h), id⟩

theorem trans (h : Extends t t') (h' : Extends t' t'') : Extends t t'' where
  size_le := Nat.le_trans h.size_le h'.size_le
  value_eq hid := (h'.value_eq (Nat.lt_of_lt_of_le hid h.size_le)).trans (h.value_eq hid)
  bounds_eq hid := (h'.bounds_eq (Nat.lt_of_lt_of_le hid h.size_le)).trans (h.bounds_eq hid)
  not_leaf := by
    intro id hid hid'
    by_cases hlt : id < t'.size
    · rw [h'.value_eq hlt]
      exact h.not_leaf hid hlt
    · exact h'.not_leaf (Nat.not_lt.mp hlt) hid'
  widens hwidens := h'.widens (h.widens hwidens)

variable {id : Nat}

theorem lt (h : Extends t t') (hid : id < t.size) : id < t'.size := Nat.lt_of_lt_of_le hid h.size_le

theorem ty_eq (h : Extends t t') (hid : id < t.size) : t'.ty id = t.ty id := by
  rw [ty, ty, h.value_eq hid]

theorem definition_eq (h : Extends t t') (hid : id < t.size) : t'.definition id = t.definition id := by
  rw [definition, definition, h.value_eq hid]

theorem scalarLiteral_eq (h : Extends t t') (hid : id < t.size) : t'.scalarLiteral id = t.scalarLiteral id := by
  rw [scalarLiteral, scalarLiteral, h.value_eq hid]

theorem map_ty_eq (h : Extends t t') {e : Expression Nat} (he : ∀ i ∈ e.inputs, i < t.size) :
    e.map t'.ty = e.map t.ty :=
  Expression.map_congr fun i hi => h.ty_eq (he i hi)

end Extends

theorem Fits.restrict {t t' : ValueTable} (h : t'.Fits) (hx : t.Extends t') : t.Fits := fun id hid => by
  rw [← hx.bounds_eq hid, ← hx.ty_eq hid]
  exact h id (hx.lt hid)

theorem value_eq_iff {t : ValueTable} {id : Nat} {ty : Ty} {d : ValueDefinition} :
    t.value id = ⟨ty, d⟩ ↔ t.ty id = ty ∧ t.definition id = d := by
  rw [ValueTable.ty, ValueTable.definition]
  constructor
  · intro h
    rw [h]
    exact ⟨rfl, rfl⟩
  · rintro ⟨rfl, rfl⟩
    rfl

end ValueTable

/-! ## Evaluation -/

section

variable (F : Floating) (t : ValueTable)

/-- One component of an operation over an assignment of carriers, with the carrier rules. -/
def evalExpr (σ : Nat → Option Nat) (ty : Ty) (e : Expression Nat) (component : Nat) : Option Nat := do
  let literals ← e.tryMap fun id => (σ id).map (TypedLiteral.mk (t.ty id))
  literals.carrierResult F ty component

/-- A carrier inside the recorded widths of a position. -/
structure InBounds (id v : Nat) : Prop where
  carrier : v < 2 ^ (t.ty id).carrier.bits
  unsigned : v < 2 ^ (t.boundsOf id).unsigned
  signed : FitsSigned (t.ty id).carrier.bits (t.boundsOf id).signed v

instance (id v : Nat) : Decidable (InBounds t id v) :=
  decidable_of_iff
    (v < 2 ^ (t.ty id).carrier.bits ∧ v < 2 ^ (t.boundsOf id).unsigned ∧
      FitsSigned (t.ty id).carrier.bits (t.boundsOf id).signed v)
    ⟨fun ⟨h₁, h₂, h₃⟩ => ⟨h₁, h₂, h₃⟩, fun ⟨h₁, h₂, h₃⟩ => ⟨h₁, h₂, h₃⟩⟩

/-- An assignment of carriers that solves every definition of the table. Only leaves are promised to stay inside
    their recorded widths. -/
structure Valuation (σ : Nat → Option Nat) : Prop where
  literal : ∀ {id ty v}, id < t.size → t.value id = ⟨ty, .literal v⟩ → σ id = some v
  expression : ∀ {id ty e}, id < t.size → t.value id = ⟨ty, .expression e⟩ → σ id = evalExpr F t σ ty e 0
  projection : ∀ {id ty p c}, id < t.size → t.value id = ⟨ty, .result (.evaluate p) c⟩ →
    ∀ {ty' e}, t.value p = ⟨ty', .expression e⟩ → σ id = evalExpr F t σ ty e c
  leaf : ∀ {id}, id < t.size → (t.value id).isLeaf → ∃ v, σ id = some v ∧ InBounds t id v

/-- The carrier of a value under an assignment of the leaves, looking at most `n` definitions deep. -/
def denoteWithin (ρ : Nat → Nat) : Nat → Nat → Option Nat
  | 0, _ => none
  | n + 1, id =>
      match t.definition id with
      | .literal v => some v
      | .expression e => evalExpr F t (denoteWithin ρ n) (t.ty id) e 0
      | .result (.evaluate producer) component =>
          match t.definition producer with
          | .expression e => evalExpr F t (denoteWithin ρ n) (t.ty id) e component
          | _ => none
      | .parameter .. | .result (.effect _) _ => some (ρ id)

/-- The carrier of a value under an assignment of the leaves. Definitions name earlier values, so a position is
    at most that many definitions deep. -/
def denote (ρ : Nat → Nat) (id : Nat) : Option Nat := denoteWithin F t ρ (id + 1) id

/-- An assignment of the leaves that stays inside the widths the table records for them. -/
def Respects (ρ : Nat → Nat) : Prop := ∀ id < t.size, (t.value id).isLeaf → InBounds t id (ρ id)

end

variable {F host engine : Floating} {t t' : ValueTable} {σ τ : Nat → Option Nat}

variable {e : Expression Nat}

theorem evalExpr_congr {ty : Ty} {c : Nat} (h : ∀ i ∈ e.inputs, σ i = τ i) :
    evalExpr F t σ ty e c = evalExpr F t τ ty e c := by
  unfold evalExpr
  rw [Expression.tryMap_congr fun i hi => by rw [h i hi]]

/-- Evaluation looks at the table only for the types of its operands. -/
theorem evalExpr_congr_ty {ty : Ty} {c : Nat} (h : ∀ i ∈ e.inputs, t'.ty i = t.ty i) :
    evalExpr F t' σ ty e c = evalExpr F t σ ty e c := by
  unfold evalExpr
  rw [Expression.tryMap_congr fun i hi => by rw [h i hi]]

theorem evalExpr_extends (hx : t.Extends t') {ty : Ty} {c : Nat}
    (he : ∀ i ∈ e.inputs, i < t.size) : evalExpr F t' σ ty e c = evalExpr F t σ ty e c :=
  evalExpr_congr_ty fun i hi => hx.ty_eq (he i hi)

theorem InBounds.extends (hx : t.Extends t') {id v : Nat} (hid : id < t.size) :
    InBounds t' id v ↔ InBounds t id v := by
  constructor
  · rintro ⟨h₁, h₂, h₃⟩
    rw [hx.ty_eq hid] at h₁ h₃
    rw [hx.bounds_eq hid] at h₂ h₃
    exact ⟨h₁, h₂, h₃⟩
  · rintro ⟨h₁, h₂, h₃⟩
    rw [← hx.ty_eq hid] at h₁ h₃
    rw [← hx.bounds_eq hid] at h₂ h₃
    exact ⟨h₁, h₂, h₃⟩

/-- A valuation of a larger table is one of the smaller. -/
theorem Valuation.restrict (ht : t.Good) (hx : t.Extends t') (hσ : Valuation F t' σ) : Valuation F t σ where
  literal hid hv := hσ.literal (hx.lt hid) ((hx.value_eq hid).trans hv)
  expression := by
    intro id ty e hid hv
    rw [hσ.expression (hx.lt hid) ((hx.value_eq hid).trans hv)]
    exact evalExpr_extends hx fun i hi => Nat.lt_trans (ht.inputs_lt hid hv i hi) hid
  projection := by
    intro id ty p c hid hv ty' e hp
    obtain ⟨ty'', e', hp', hc, rfl, -⟩ := ht.projection hid hv
    have hlt : p < t.size := by omega
    rw [hσ.projection (hx.lt hid) ((hx.value_eq hid).trans hv) ((hx.value_eq hlt).trans hp)]
    exact evalExpr_extends hx fun i hi => Nat.lt_trans (ht.inputs_lt hlt hp i hi) hlt
  leaf := by
    intro id hid hl
    obtain ⟨v, hv, hb⟩ := hσ.leaf (hx.lt hid) (by rw [hx.value_eq hid]; exact hl)
    exact ⟨v, hv, (InBounds.extends hx hid).mp hb⟩

/-- More depth does not change the carrier of a value. -/
theorem denoteWithin_eq (ht : t.Good) (ρ : Nat → Nat) {id m n : Nat} (hid : id < t.size) (hm : id < m)
    (hn : id < n) : denoteWithin F t ρ m id = denoteWithin F t ρ n id := by
  induction id using Nat.strong_induction_on generalizing m n with
  | _ id ih =>
    obtain ⟨m, rfl⟩ := Nat.exists_eq_succ_of_ne_zero (Nat.ne_of_gt (Nat.lt_of_le_of_lt (Nat.zero_le _) hm))
    obtain ⟨n, rfl⟩ := Nat.exists_eq_succ_of_ne_zero (Nat.ne_of_gt (Nat.lt_of_le_of_lt (Nat.zero_le _) hn))
    unfold denoteWithin
    split
    · rfl
    · next e he =>
        have hv : t.value id = ⟨t.ty id, .expression e⟩ := ValueTable.value_eq_iff.mpr ⟨rfl, he⟩
        refine evalExpr_congr fun i hi => ?_
        have hlt := ht.inputs_lt hid hv i hi
        exact ih i hlt (by omega) (by omega) (by omega)
    · next p c he =>
        have hv : t.value id = ⟨t.ty id, .result (.evaluate p) c⟩ := ValueTable.value_eq_iff.mpr ⟨rfl, he⟩
        obtain ⟨ty', e, hp, hc, rfl, -⟩ := ht.projection hid hv
        rw [(ValueTable.value_eq_iff.mp hp).2]
        refine evalExpr_congr fun i hi => ?_
        have hlt := ht.inputs_lt (by omega) hp i hi
        exact ih i (by omega) (by omega) (by omega) (by omega)
    · rfl
    · rfl

variable {ρ : Nat → Nat}

/-- The denotation of the leaves' assignment solves every definition. -/
theorem denote_valuation (ht : t.Good) (hρ : Respects t ρ) : Valuation F t (denote F t ρ) where
  literal := by
    intro id ty v hid hv
    rw [denote, denoteWithin, (ValueTable.value_eq_iff.mp hv).2]
  expression := by
    intro id ty e hid hv
    obtain ⟨hty, hd⟩ := ValueTable.value_eq_iff.mp hv
    rw [denote, denoteWithin, hd]
    subst hty
    refine evalExpr_congr fun i hi => ?_
    have hlt := ht.inputs_lt hid hv i hi
    exact denoteWithin_eq ht ρ (by omega) hlt (by omega)
  projection := by
    intro id ty p c hid hv ty' e hp
    obtain ⟨hty, hd⟩ := ValueTable.value_eq_iff.mp hv
    obtain ⟨-, -, -, -, rfl, -⟩ := ht.projection hid hv
    have hd' := (ValueTable.value_eq_iff.mp hp).2
    rw [denote, denoteWithin, hd]
    simp only [hd']
    subst hty
    refine evalExpr_congr fun i hi => ?_
    have hlt := ht.inputs_lt (by omega) hp i hi
    exact denoteWithin_eq ht ρ (by omega) (by omega) (by omega)
  leaf := by
    intro id hid hl
    refine ⟨ρ id, ?_, hρ id hid hl⟩
    rw [denote, denoteWithin, ValueTable.definition]
    unfold Value.isLeaf at hl
    split at hl
    · next h => rw [h]
    · next h => rw [h]
    · exact absurd hl (by decide)

/-- An assignment that respects a table respects every table construction makes of it. -/
theorem Respects.extends (hx : t.Extends t') (h : Respects t ρ) : Respects t' ρ := by
  intro id hid hl
  by_cases hlt : id < t.size
  · rw [hx.value_eq hlt] at hl
    exact (InBounds.extends hx hlt).mpr (h id hlt hl)
  · rw [hx.not_leaf (Nat.not_lt.mp hlt) hid] at hl
    exact absurd hl (by decide)

/-- Two valuations that agree on the leaves agree everywhere. -/
theorem Valuation.unique (ht : t.Good) (hσ : Valuation F t σ) (hτ : Valuation F t τ)
    (h : ∀ id < t.size, (t.value id).isLeaf → σ id = τ id) : ∀ id < t.size, σ id = τ id := by
  intro id
  induction id using Nat.strong_induction_on with
  | _ id ih =>
    intro hid
    rcases hv : t.value id with ⟨ty, d⟩
    cases d with
    | literal v => rw [hσ.literal hid hv, hτ.literal hid hv]
    | expression e =>
      rw [hσ.expression hid hv, hτ.expression hid hv]
      refine evalExpr_congr fun i hi => ?_
      have hlt := ht.inputs_lt hid hv i hi
      exact ih i hlt (by omega)
    | parameter b c => exact h id hid (by rw [hv]; rfl)
    | result p c =>
      cases p with
      | effect k => exact h id hid (by rw [hv]; rfl)
      | evaluate p =>
        obtain ⟨ty', e, hp, hc, rfl, -⟩ := ht.projection hid hv
        rw [hσ.projection hid hv hp, hτ.projection hid hv hp]
        refine evalExpr_congr fun i hi => ?_
        have hlt := ht.inputs_lt (by omega) hp i hi
        exact ih i (by omega) (by omega)

/-- The denotation in a larger table of a value of the smaller one is its denotation there. -/
theorem denote_extends (ht : t.Good) (ht' : t'.Good) (hx : t.Extends t') (hρ : Respects t ρ)
    {id : Nat} (hid : id < t.size) : denote F t' ρ id = denote F t ρ id := by
  refine Valuation.unique ht ((denote_valuation ht' (hρ.extends hx)).restrict ht hx) (denote_valuation ht hρ) ?_ id hid
  intro i hi hl
  have key : ∀ t : ValueTable, (t.value i).isLeaf → denote F t ρ i = some (ρ i) := by
    intro t hl
    rw [denote, denoteWithin, ValueTable.definition]
    unfold Value.isLeaf at hl
    split at hl
    · next h => rw [h]
    · next h => rw [h]
    · exact absurd hl (by decide)
  rw [key t' (by rw [hx.value_eq hi]; exact hl), key t hl]

end Relocade.Compiler
