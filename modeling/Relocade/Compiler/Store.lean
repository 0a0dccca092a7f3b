import Relocade.Compiler.Bounds

/-!
# `Compiler.Store` — storing values keeps a table good and its widths sound

`push`, `intern` and the literal constructors extend a table with well-formed values only. The invariants they keep
are `Good` (structure) and `Sound` (every valuation keeps every value inside its recorded widths).
-/

namespace Relocade.Compiler

open Words

namespace ValueTable

/-- Every valuation keeps every value inside its recorded widths. -/
structure Sound (F : Floating) (t : ValueTable) : Prop where
  inBounds : ∀ {σ id v}, Valuation F t σ → id < t.size → σ id = some v → InBounds t id v

/-- Every assignment the table admits normalizes the division, if the expression is one. -/
def DivisionFits (F : Floating) (t : ValueTable) (ty : Ty) (e : Expression Nat) : Prop :=
  ∀ σ, Valuation F t σ → DivisionNormalized σ ty e

/-- Whether a value may be stored next: its operands exist, its operation is well typed and its literal fits. -/
def Admissible (t : ValueTable) (v : Value) : Prop :=
  match v.definition with
  | .literal bits => bits < 2 ^ v.ty.carrier.bits
  | .expression e => (∀ i ∈ e.inputs, i < t.size) ∧ (e.map t.ty).wellTyped v.ty = true
  | .result (.evaluate _) _ => False
  | .parameter .. | .result (.effect _) _ => True

variable {F : Floating} {t : ValueTable} {v : Value} {b : BitBounds}

/-! ## Appending slots -/

theorem foldl_appendValue_interned (vs : List Value) : (vs.foldl appendValue t).interned = t.interned := by
  induction vs generalizing t with
  | nil => rfl
  | cons v vs ih => exact ih

theorem foldl_appendValue_values (vs : List Value) : (vs.foldl appendValue t).values = t.values ++ vs := by
  induction vs generalizing t with
  | nil => simp
  | cons v vs ih =>
    rw [List.foldl_cons, ih]
    simp [appendValue, append]

/-- Projections record no more than the width of their carrier, so they do not look at the table. -/
theorem foldl_projections_bounds (prod : Nat) (vs : List Value)
    (hvs : ∀ v ∈ vs, ∃ c, v.definition = .result (.evaluate prod) c) :
    (vs.foldl appendValue t).bounds = t.bounds ++ vs.map fun v => ⟨v.ty.carrier.bits, v.ty.carrier.bits⟩ := by
  induction vs generalizing t with
  | nil => simp
  | cons v vs ih =>
    rw [List.foldl_cons, ih fun v hv => hvs v (List.mem_cons_of_mem _ hv)]
    obtain ⟨c, hc⟩ := hvs v List.mem_cons_self
    have hb : BitBounds.forValue t v = ⟨v.ty.carrier.bits, v.ty.carrier.bits⟩ := by
      simp [BitBounds.forValue, BitBounds.unsignedBits, BitBounds.signedBits, hc]
    simp [appendValue, append, hb]

theorem projections_definition {prod : Nat} {w : Value} (hw : w ∈ projections prod v) :
    ∃ c, w.definition = .result (.evaluate prod) c := by
  unfold projections at hw
  split at hw
  · obtain ⟨⟨ty, c⟩, -, rfl⟩ := List.mem_map.mp hw
    exact ⟨c, rfl⟩
  · cases hw

variable {e : Expression Nat}

/-- The projection of component `c + 1` is the `c`-th slot after the expression. -/
theorem getElem?_projections {prod : Nat} {ty : Ty} (c : Nat) :
    (projections prod ⟨ty, .expression e⟩)[c]? =
      (e.resultTypes ty)[c + 1]?.map fun ty' => ⟨ty', .result (.evaluate prod) (c + 1)⟩ := by
  simp only [projections, List.getElem?_map, List.getElem?_drop, List.getElem?_zipIdx, Option.map_map]
  rw [Nat.add_comm 1 c]
  cases (e.resultTypes ty)[c + 1]? with
  | none => rfl
  | some ty' => simp

/-! ## `push` -/

theorem push_values : (t.pushWithBounds v b).2.values = t.values ++ v :: projections t.size v := by
  rw [pushWithBounds, foldl_appendValue_values]
  simp [append]

theorem push_interned : (t.pushWithBounds v b).2.interned = t.interned := by
  rw [pushWithBounds, foldl_appendValue_interned]
  rfl

theorem push_bounds : (t.pushWithBounds v b).2.bounds =
    t.bounds ++ b :: (projections t.size v).map fun v => ⟨v.ty.carrier.bits, v.ty.carrier.bits⟩ := by
  rw [pushWithBounds, foldl_projections_bounds t.size _ fun w hw => projections_definition hw]
  simp [append]

theorem push_size : (t.pushWithBounds v b).2.size = t.size + 1 + (projections t.size v).length := by
  rw [size, push_values]
  simp [size]
  omega

variable {id : Nat}

theorem push_value_old (hid : id < t.size) : (t.pushWithBounds v b).2.value id = t.value id := by
  rw [value, value, push_values, List.getD_append _ _ _ _ hid]

theorem push_value_new : (t.pushWithBounds v b).2.value t.size = v := by
  rw [value, push_values, List.getD_append_right _ _ _ _ (show t.values.length ≤ t.size from Nat.le_refl _)]
  simp [size]

theorem push_value_projection {c : Nat} {w : Value} (hw : (projections t.size v)[c]? = some w) :
    (t.pushWithBounds v b).2.value (t.size + (c + 1)) = w := by
  rw [value, push_values, List.getD_append_right _ _ _ _ (show t.values.length ≤ t.size + (c + 1) from Nat.le_add_right _ _)]
  have hlen : t.values.length = t.size := rfl
  simp [hlen, List.getD_eq_getElem?_getD, hw]

theorem push_bounds_old (ht : t.bounds.length = t.size) (hid : id < t.size) :
    (t.pushWithBounds v b).2.boundsOf id = t.boundsOf id := by
  rw [boundsOf, boundsOf, push_bounds, List.getD_append _ _ _ _ (by rw [ht]; exact hid)]

theorem push_bounds_new (ht : t.bounds.length = t.size) : (t.pushWithBounds v b).2.boundsOf t.size = b := by
  rw [boundsOf, push_bounds, List.getD_append_right _ _ _ _ (by rw [ht])]
  simp [ht]

theorem push_bounds_projection (ht : t.bounds.length = t.size) {c : Nat} {w : Value}
    (hw : (projections t.size v)[c]? = some w) :
    (t.pushWithBounds v b).2.boundsOf (t.size + (c + 1)) = ⟨w.ty.carrier.bits, w.ty.carrier.bits⟩ := by
  rw [boundsOf, push_bounds, List.getD_append_right _ _ _ _ (by rw [ht]; exact Nat.le_add_right _ _)]
  simp [ht, List.getD_eq_getElem?_getD, hw]

/-- A slot of the larger table is an old one, the new value, or one of its projections. -/
theorem push_cases (hid : id < (t.pushWithBounds v b).2.size) :
    id < t.size ∨ id = t.size ∨ ∃ c w, id = t.size + (c + 1) ∧ (projections t.size v)[c]? = some w := by
  rw [push_size] at hid
  rcases Nat.lt_trichotomy id t.size with h | h | h
  · exact Or.inl h
  · exact Or.inr (Or.inl h)
  · obtain ⟨c, rfl⟩ := Nat.exists_eq_add_of_lt h
    have hc : c < (projections t.size v).length := by omega
    exact Or.inr (Or.inr ⟨c, _, rfl, List.getElem?_eq_getElem hc⟩)

theorem push_ty_old (hid : id < t.size) : (t.pushWithBounds v b).2.ty id = t.ty id := by
  rw [ValueTable.ty, ValueTable.ty, push_value_old hid]

theorem push_widens (ht : t.Good) (hb : b.signed ≤ v.ty.carrier.bits) (hv : t.Fits → v.Widens) :
    t.Fits ∧ t.Widens → (t.pushWithBounds v b).2.Fits ∧ (t.pushWithBounds v b).2.Widens := by
  rintro ⟨hfits, hwidens⟩
  refine ⟨fun id hid => ?_, fun id => ?_⟩
  · rcases push_cases hid with h | rfl | ⟨c, w, rfl, hw⟩
    · rw [push_bounds_old ht.bounds_length h, push_ty_old h]
      exact hfits id h
    · rw [push_bounds_new ht.bounds_length, ty, push_value_new]
      exact hb
    · rw [push_bounds_projection ht.bounds_length hw, ty, push_value_projection hw]
  · by_cases hid : id < (t.pushWithBounds v b).2.size
    · rcases push_cases hid with h | rfl | ⟨c, w, rfl, hw⟩
      · rw [push_value_old h]
        exact hwidens id
      · rw [push_value_new]
        exact hv hfits
      · rw [push_value_projection hw]
        obtain ⟨c', hc'⟩ := projections_definition (List.mem_of_getElem? hw)
        intro _ _ h
        cases hc'.symm.trans h
    · rw [value, List.getD_eq_default _ _ (Nat.not_lt.mp hid)]
      rintro _ _ ⟨⟩

theorem push_extends (ht : t.Good) (hv : v.isLeaf = false) (hb : b.signed ≤ v.ty.carrier.bits)
    (hw : t.Fits → v.Widens) : t.Extends (t.pushWithBounds v b).2 where
  widens := push_widens ht hb hw
  size_le := by
    rw [push_size]
    omega
  value_eq := push_value_old
  bounds_eq := push_bounds_old ht.bounds_length
  not_leaf := by
    intro id hid hid'
    rcases push_cases hid' with h | rfl | ⟨c, w, rfl, hw⟩
    · exact absurd h (Nat.not_lt.mpr hid)
    · rw [push_value_new]
      exact hv
    · rw [push_value_projection hw]
      obtain ⟨c', hc'⟩ := projections_definition (List.mem_of_getElem? hw)
      rw [Value.isLeaf, hc']

theorem map_push_ty (he : ∀ i ∈ e.inputs, i < t.size) : e.map (t.pushWithBounds v b).2.ty = e.map t.ty :=
  Expression.map_congr fun i hi => push_ty_old (he i hi)

/-- Storing an admissible value keeps the structural invariant. -/
theorem push_good (ht : t.Good) (hv : t.Admissible v) : (t.pushWithBounds v b).2.Good where
  bounds_length := by
    rw [push_bounds, push_size, List.length_append, ht.bounds_length]
    simp
    omega
  literal_lt := by
    intro id ty w hid hw
    rcases push_cases hid with h | rfl | ⟨c, u, rfl, hu⟩
    · rw [push_value_old h] at hw
      exact ht.literal_lt h hw
    · rw [push_value_new] at hw
      subst hw
      exact hv
    · obtain ⟨c', hc'⟩ := projections_definition (List.mem_of_getElem? hu)
      rw [push_value_projection hu] at hw
      subst hw
      cases hc'
  inputs_lt := by
    intro id ty e hid hw i hi
    rcases push_cases hid with h | rfl | ⟨c, u, rfl, hu⟩
    · rw [push_value_old h] at hw
      exact ht.inputs_lt h hw i hi
    · rw [push_value_new] at hw
      subst hw
      exact hv.1 i hi
    · obtain ⟨c', hc'⟩ := projections_definition (List.mem_of_getElem? hu)
      rw [push_value_projection hu] at hw
      subst hw
      cases hc'
  typed := by
    intro id ty e hid hw
    rcases push_cases hid with h | rfl | ⟨c, u, rfl, hu⟩
    · rw [push_value_old h] at hw
      rw [map_push_ty fun i hi => Nat.lt_trans (ht.inputs_lt h hw i hi) h]
      exact ht.typed h hw
    · rw [push_value_new] at hw
      subst hw
      rw [map_push_ty hv.1]
      exact hv.2
    · obtain ⟨c', hc'⟩ := projections_definition (List.mem_of_getElem? hu)
      rw [push_value_projection hu] at hw
      subst hw
      cases hc'
  projection := by
    intro id ty p c hid hw
    rcases push_cases hid with h | rfl | ⟨c', u, rfl, hu⟩
    · rw [push_value_old h] at hw
      obtain ⟨ty', e, hp, hc, rfl, hty⟩ := ht.projection h hw
      exact ⟨ty', e, by rw [push_value_old (by omega)]; exact hp, hc, rfl, hty⟩
    · rw [push_value_new] at hw
      subst hw
      exact absurd hv id
    · rw [push_value_projection hu] at hw
      subst hw
      rcases v with ⟨ty', d⟩
      cases d with
      | expression e =>
        rw [getElem?_projections] at hu
        obtain ⟨ty'', hty'', hEq⟩ := Option.map_eq_some_iff.mp hu
        simp only [Value.mk.injEq, ValueDefinition.result.injEq, BlockItem.evaluate.injEq] at hEq
        obtain ⟨rfl, rfl, rfl⟩ := hEq
        exact ⟨ty', e, push_value_new, Nat.succ_pos _, rfl, hty''⟩
      | literal _ | parameter _ _ | result _ _ => exact absurd hu (by simp [projections])
  results := by
    intro id ty e hid hw c ty' hc hty'
    rcases push_cases hid with h | rfl | ⟨c', u, rfl, hu⟩
    · rw [push_value_old h] at hw
      obtain ⟨hlt, hval⟩ := ht.results h hw hc hty'
      exact ⟨by rw [push_size]; omega, by rw [push_value_old hlt]; exact hval⟩
    · rw [push_value_new] at hw
      subst hw
      obtain ⟨c, rfl⟩ := Nat.exists_eq_succ_of_ne_zero (Nat.ne_of_gt hc)
      have hproj : (projections t.size ⟨ty, .expression e⟩)[c]? = some ⟨ty', .result (.evaluate t.size) (c + 1)⟩ := by
        rw [getElem?_projections, hty']
        rfl
      have hlt := (List.getElem?_eq_some_iff.mp hproj).1
      exact ⟨by rw [push_size]; omega, push_value_projection hproj⟩
    · obtain ⟨c', hc'⟩ := projections_definition (List.mem_of_getElem? hu)
      rw [push_value_projection hu] at hw
      subst hw
      cases hc'
  interned_lt := by
    intro id hid
    rw [push_interned] at hid
    rw [push_size]
    have := ht.interned_lt id hid
    omega

/-- A valuation of a table with one more value is one of the table, whether or not the value is a leaf. -/
theorem valuation_of_push (ht : t.Good) {σ : Nat → Option Nat} (hσ : Valuation F (t.pushWithBounds v b).2 σ) :
    Valuation F t σ := by
  constructor
  · intro i ty x hi hval
    exact hσ.literal (by rw [push_size]; omega) ((push_value_old hi).trans hval)
  · intro i ty e hi hval
    rw [hσ.expression (by rw [push_size]; omega) ((push_value_old hi).trans hval)]
    exact evalExpr_congr_ty fun j hj => push_ty_old (Nat.lt_trans (ht.inputs_lt hi hval j hj) hi)
  · intro i ty p c hi hval ty' e hp
    obtain ⟨-, -, -, hc, rfl, -⟩ := ht.projection hi hval
    rw [hσ.projection (by rw [push_size]; omega) ((push_value_old hi).trans hval)
      ((push_value_old (by omega)).trans hp)]
    exact evalExpr_congr_ty fun j hj => push_ty_old (Nat.lt_trans (ht.inputs_lt (by omega) hp j hj) (by omega))
  · intro i hi hl
    obtain ⟨x, hx, hbx⟩ := hσ.leaf (show i < _ by rw [push_size]; omega) (by rw [push_value_old hi]; exact hl)
    refine ⟨x, hx, ?_⟩
    have h₁ := hbx.carrier
    have h₂ := hbx.unsigned
    have h₃ := hbx.signed
    rw [push_ty_old hi] at h₁ h₃
    rw [push_bounds_old ht.bounds_length hi] at h₂ h₃
    exact ⟨h₁, h₂, h₃⟩

/-- Values pushed with sound widths keep every width sound. -/
theorem push_sound (ht : t.Good) (hs : t.Sound F) (hv : t.Admissible v)
    (hb : ∀ {σ w}, Valuation F (t.pushWithBounds v b).2 σ → Valuation F t σ →
      (∀ {id x}, id < t.size → σ id = some x → InBounds t id x) → v.isLeaf = false → σ t.size = some w →
      w < 2 ^ v.ty.carrier.bits ∧ w < 2 ^ b.unsigned ∧ FitsSigned v.ty.carrier.bits b.signed w) :
    (t.pushWithBounds v b).2.Sound F := by
  constructor
  intro σ id w hσ hid hw
  have hold := valuation_of_push ht hσ
  rcases push_cases hid with h | rfl | ⟨c, u, rfl, hu⟩
  · obtain ⟨h₁, h₂, h₃⟩ := hs.inBounds hold h hw
    rw [← push_ty_old (v := v) (b := b) h] at h₁ h₃
    rw [← push_bounds_old (v := v) (b := b) ht.bounds_length h] at h₂ h₃
    exact ⟨h₁, h₂, h₃⟩
  · by_cases hl : v.isLeaf = true
    · obtain ⟨x, hx, hbx⟩ := hσ.leaf hid (by rw [push_value_new]; exact hl)
      rw [hw] at hx
      obtain rfl := Option.some.inj hx
      exact hbx
    · obtain ⟨h₁, h₂, h₃⟩ := hb hσ hold (fun h hx => hs.inBounds hold h hx) (by simpa using hl) hw
      have hty : (t.pushWithBounds v b).2.ty t.size = v.ty := by rw [ValueTable.ty, push_value_new]
      constructor
      · rw [hty]
        exact h₁
      · rw [push_bounds_new ht.bounds_length]
        exact h₂
      · rw [hty, push_bounds_new ht.bounds_length]
        exact h₃
  · rcases v with ⟨ty, d⟩
    cases d with
    | literal _ | parameter _ _ | result _ _ => exact absurd hu (by simp [projections])
    | expression e =>
      have hval := push_value_projection (b := b) hu
      have hbnd := push_bounds_projection (b := b) ht.bounds_length hu
      rw [getElem?_projections] at hu
      obtain ⟨ty', hty', rfl⟩ := Option.map_eq_some_iff.mp hu
      rw [hσ.projection hid hval push_value_new] at hw
      have hres : ty' = ty := by
        revert hty'
        cases e <;> simp [Expression.resultTypes]
        cases c <;> simp
        rintro rfl
        have := hv.2
        simp only [Expression.map, Expression.wellTyped, Bool.and_eq_true, decide_eq_true_eq] at this
        exact (Ty.eq_i64_of_carrier this.2).symm
      subst hres
      have hlt := evalExpr_lt (by rw [map_push_ty hv.1]; exact hv.2) hw
      have hty : (t.pushWithBounds ⟨ty', .expression e⟩ b).2.ty (t.size + (c + 1)) = ty' := by
        rw [ValueTable.ty, hval]
      constructor
      · rw [hty]
        exact hlt
      · rw [hbnd]
        exact hlt
      · rw [hty, hbnd]
        exact fitsSigned_self _ _

/-- The widths a new literal or operation records are sound, given normalized dividends. -/
theorem forValue_sound (hv : t.Admissible v)
    (hd : ∀ e, v.definition = .expression e → t.DivisionFits F v.ty e) {σ : Nat → Option Nat} {w : Nat}
    (hσ : Valuation F (t.pushWithBounds v b).2 σ) (hold : Valuation F t σ)
    (hin : ∀ {id x}, id < t.size → σ id = some x → InBounds t id x) (hl : v.isLeaf = false)
    (hw : σ t.size = some w) :
    w < 2 ^ v.ty.carrier.bits ∧ w < 2 ^ (BitBounds.forValue t v).unsigned ∧
      FitsSigned v.ty.carrier.bits (BitBounds.forValue t v).signed w := by
  have hlt : t.size < (t.pushWithBounds v b).2.size := by
    rw [push_size]
    omega
  rcases v with ⟨ty, d⟩
  cases d with
  | literal bits =>
    rw [hσ.literal hlt push_value_new] at hw
    obtain rfl := Option.some.inj hw
    have hb : bits < 2 ^ ty.carrier.bits := hv
    refine ⟨hb, lt_two_pow_bitLength bits, ?_⟩
    show FitsSigned _ (BitBounds.signedBits t ⟨ty, .literal bits⟩) _
    simp only [BitBounds.signedBits]
    split
    · next x hx =>
        rw [Literal.scalar] at hx
        split at hx
        · next hs =>
            obtain rfl := Option.some.inj hx
            rw [mod_two_pow_of_lt hb (Ty.bits_le_of_isScalar (by simp [hs]))]
            refine literalSigned_sound ?_
            revert hs
            cases ty <;> decide
        · cases hx
    · exact fitsSigned_of_lt (lt_two_pow_bitLength bits)
  | expression e =>
    rw [hσ.expression hlt push_value_new] at hw
    have hw' : evalExpr F t σ ty e 0 = some w := by
      rw [← hw]
      exact (evalExpr_congr_ty fun i hi => push_ty_old (hv.1 i hi)).symm
    have hops : ∀ i ∈ e.inputs, ∀ x, σ i = some x → InBounds t i x := fun i hi x hx => hin (hv.1 i hi) hx
    have hlit : ∀ i ∈ e.inputs, ∀ x, t.definition i = .literal x → σ i = some x := by
      intro i hi x hx
      have hi' := hv.1 i hi
      refine hσ.literal (by rw [push_size]; omega) ((push_value_old hi').trans (value_eq_iff.mpr ⟨rfl, hx⟩))
    exact ⟨evalExpr_lt hv.2 hw', unsignedBits_sound hv.2 (hd e rfl σ hold) hops hlit hw',
      signedBits_sound hv.2 (hd e rfl σ hold) hops hlit hw'⟩
  | parameter _ _ => exact absurd hl (by simp [Value.isLeaf])
  | result p c =>
    cases p with
    | evaluate p => exact absurd hv id
    | effect k => exact absurd hl (by simp [Value.isLeaf])

theorem forValue_signed_le (hv : t.Admissible v) : (BitBounds.forValue t v).signed ≤ v.ty.carrier.bits := by
  show BitBounds.signedBits t v ≤ _
  unfold BitBounds.signedBits
  dsimp only
  split
  · split
    · next hx =>
        rw [Literal.scalar] at hx
        split at hx
        · next hs =>
            refine literalSigned_le ?_
            revert hs
            cases v.ty <;> decide
        · cases hx
    · exact Nat.min_le_right ..
  · next hdef =>
      rw [Admissible, hdef] at hv
      obtain ⟨hbits, -, -, hcar⟩ := signExtend_spec hv.2
      exact (Nat.min_le_right ..).trans (hbits.trans hcar)
  · split <;> exact Nat.min_le_right ..
  · exact Nat.min_le_right ..
  · exact Nat.min_le_right ..

/-! ## `intern` -/

theorem Good.withInterned (ht : t.Good) {ids : List Nat} (h : ∀ id ∈ ids, id < t.size) :
    Good { t with interned := ids } :=
  ⟨ht.bounds_length, ht.literal_lt, ht.inputs_lt, ht.typed, ht.projection, ht.results, h⟩

theorem Sound.withInterned (hs : t.Sound F) (ids : List Nat) : Sound F { t with interned := ids } := by
  constructor
  intro σ id v hσ hid hv
  have hleaf : ∀ {i}, i < t.size → (t.value i).isLeaf → ∃ x, σ i = some x ∧ InBounds t i x := by
    intro i hi hl
    obtain ⟨x, hx, h₁, h₂, h₃⟩ := hσ.leaf hi hl
    exact ⟨x, hx, h₁, h₂, h₃⟩
  obtain ⟨h₁, h₂, h₃⟩ := hs.inBounds ⟨hσ.literal, hσ.expression, hσ.projection, hleaf⟩ hid hv
  exact ⟨h₁, h₂, h₃⟩

/-- What storing one value does: an invariant-preserving extension that holds the value at the position returned. -/
structure Stored (F : Floating) (t : ValueTable) (v : Value) (r : Nat × ValueTable) : Prop where
  extend : t.Extends r.2
  good : r.2.Good
  sound : t.Sound F → (∀ e, v.definition = .expression e → t.DivisionFits F v.ty e) → r.2.Sound F
  lt : r.1 < r.2.size
  value_eq : r.2.value r.1 = v

section

variable (ht : t.Good) (hv : t.Admissible v) (hl : v.isLeaf = false) (hw : t.Fits → v.Widens)

include ht hv hl hw

theorem push_stored : Stored F t v (t.push v) where
  extend := push_extends ht hl (forValue_signed_le hv) hw
  good := push_good ht hv
  sound hs hd := push_sound ht hs hv fun hσ hold hin hl hw => forValue_sound hv hd hσ hold hin hl hw
  lt := by
    show t.size < (t.pushWithBounds v _).2.size
    rw [push_size]
    omega
  value_eq := push_value_new

theorem intern_stored : Stored F t v (t.intern v) := by
  unfold intern
  split
  · next id hid =>
      have hmem := List.mem_of_find?_eq_some hid
      have hval := List.find?_some hid
      exact ⟨Extends.refl t, ht, fun hs _ => hs, ht.interned_lt id hmem, by simpa using hval⟩
  · obtain ⟨hext, hgood, hsound, hlt, hval⟩ := push_stored (F := F) ht hv hl hw
    refine ⟨⟨hext.size_le, hext.value_eq, hext.bounds_eq, hext.not_leaf, hext.widens⟩, hgood.withInterned ?_,
      fun hs hd => (hsound hs hd).withInterned _, hlt, hval⟩
    intro id hid
    rcases List.mem_append.mp hid with h | h
    · have hold : id ∈ t.interned := by
        have := push_interned (t := t) (v := v) (b := BitBounds.forValue t v)
        rw [push, this] at h
        exact h
      exact Nat.lt_of_lt_of_le (ht.interned_lt id hold) hext.size_le
    · rw [List.mem_singleton.mp h]
      exact hlt

end

theorem carrierLiteral_stored (ht : t.Good) (ty : Ty) (bits : Nat) :
    Stored F t ⟨ty, .literal (bits % 2 ^ ty.carrier.bits)⟩ (t.carrierLiteral ty bits) :=
  intern_stored ht (Nat.mod_lt _ (Nat.two_pow_pos _)) rfl nofun

/-! ## Tables construction can produce -/

/-- Tables built from nothing by the storage operations, each narrow unsigned division over a normalized dividend. -/
inductive Built (F : Floating) : ValueTable → Prop where
  | empty : Built F empty
  | literal {t : ValueTable} (ty : Ty) (bits : Nat) : Built F t → Built F (t.literal ty bits).2
  | carrierLiteral {t : ValueTable} (ty : Ty) (bits : Nat) : Built F t → Built F (t.carrierLiteral ty bits).2
  | intern {t : ValueTable} {v : Value} : Built F t → t.Admissible v →
      (∀ e, v.definition = .expression e → t.DivisionFits F v.ty e) → Built F (t.intern v).2
  | push {t : ValueTable} {v : Value} : Built F t → t.Admissible v →
      (∀ e, v.definition = .expression e → t.DivisionFits F v.ty e) → Built F (t.push v).2
  /-- Parameters may record any widths; assignments are then held to them. -/
  | leaf {t : ValueTable} {v : Value} (b : BitBounds) : Built F t → v.isLeaf = true → Built F (t.pushWithBounds v b).2

theorem good_empty : empty.Good where
  bounds_length := rfl
  literal_lt hid := absurd hid (Nat.not_lt_zero _)
  inputs_lt hid := absurd hid (Nat.not_lt_zero _)
  typed hid := absurd hid (Nat.not_lt_zero _)
  projection hid := absurd hid (Nat.not_lt_zero _)
  results hid := absurd hid (Nat.not_lt_zero _)
  interned_lt id hid := absurd hid (by simp [empty])

theorem admissible_leaf (hl : v.isLeaf = true) : t.Admissible v := by
  rcases v with ⟨ty, d⟩
  cases d with
  | literal _ | expression _ => exact absurd hl (by simp [Value.isLeaf])
  | parameter _ _ => trivial
  | result p c =>
    cases p with
    | evaluate p => exact absurd hl (by simp [Value.isLeaf])
    | effect k => trivial

theorem intern_good (ht : t.Good) (hv : t.Admissible v) : (t.intern v).2.Good := by
  unfold intern
  split
  · exact ht
  · refine (push_good ht hv).withInterned ?_
    intro id hid
    rw [push, push_interned] at hid
    rw [push_size]
    rcases List.mem_append.mp hid with h | h
    · have := ht.interned_lt id h
      omega
    · rw [List.mem_singleton.mp h]
      show t.size < _
      omega

theorem intern_sound (ht : t.Good) (hs : t.Sound F) (hv : t.Admissible v)
    (hd : ∀ e, v.definition = .expression e → t.DivisionFits F v.ty e) : (t.intern v).2.Sound F := by
  unfold intern
  split
  · exact hs
  · exact (push_sound ht hs hv fun hσ hold hin hl hw => forValue_sound hv hd hσ hold hin hl hw).withInterned _

theorem Built.good (h : Built F t) : t.Good := by
  induction h with
  | empty => exact good_empty
  | literal ty bits _ ih | carrierLiteral ty bits _ ih => exact intern_good ih (Nat.mod_lt _ (Nat.two_pow_pos _))
  | intern _ hv _ ih => exact intern_good ih hv
  | push _ hv _ ih => exact push_good ih hv
  | leaf b _ hl ih => exact push_good ih (admissible_leaf hl)

/-- The widths recorded while a table is built are sound. -/
theorem Built.sound (h : Built F t) : t.Sound F := by
  induction h with
  | empty => exact ⟨fun _ hid => absurd hid (Nat.not_lt_zero _)⟩
  | literal ty bits h ih | carrierLiteral ty bits h ih =>
    exact intern_sound h.good ih (Nat.mod_lt _ (Nat.two_pow_pos _)) (by simp)
  | intern h hv hd ih => exact intern_sound h.good ih hv hd
  | push h hv hd ih => exact push_sound h.good ih hv fun hσ hold hin hl hw => forValue_sound hv hd hσ hold hin hl hw
  | leaf b h hl ih =>
    exact push_sound h.good ih (admissible_leaf hl) fun _ _ _ hl' _ => by rw [hl] at hl'; exact absurd hl' (by decide)

/-- A dividend below the width of the type is normalized. -/
theorem divisionFits_of_lt {ty : Ty} {o : Integer.BinaryOp} {left right : Nat}
    (h : ∀ {σ x}, Valuation F t σ → σ left = some x → x < 2 ^ ty.bits) :
    t.DivisionFits F ty (.binary (.integer o) left right) := by
  intro σ hσ
  cases o <;> first
    | trivial
    | exact fun _ hx => h hσ hx
    | exact fun _ _ hx _ => Or.inl (h hσ hx)

theorem DivisionFits.extends {t' : ValueTable} {ty : Ty} (h : t.DivisionFits F ty e)
    (ht : t.Good) (hx : t.Extends t') : t'.DivisionFits F ty e :=
  fun _ hσ => h _ (hσ.restrict ht hx)

end ValueTable

end Relocade.Compiler
