import Relocade.Compiler.Fold.Arithmetic

/-!
# `Compiler.Fold.Comparisons` — comparison folding
-/

namespace Relocade.Compiler

open Words

namespace Folder

/-- The polarity and the input of a stored zero test. -/
def zeroTestOf (t : ValueTable) (id : Nat) : Option (Bool × Nat) :=
  match t.definition id with
  | .expression (.unary (.zeroTest nonzero) input) => some (nonzero, input)
  | _ => none

/-- Whether `predicate` is a zero test that holds exactly when `other` does not. -/
def complements (t : ValueTable) (predicate other : Nat) : Bool :=
  match zeroTestOf t predicate with
  | none => false
  | some (nonzero, input) =>
      let input := t.representation input
      (match zeroTestOf t other with
        | some (otherNonzero, otherInput) => input = t.representation otherInput ∧ nonzero ≠ otherNonzero
        | none => false) ||
      -- Logical I1 alone is insufficient: a type view can carry upper bits.
      (!nonzero && input = other && (t.boundsOf other).unsigned ≤ 1)

def complementaryPredicates (t : ValueTable) (left right : Nat) : Bool :=
  let left := t.representation left
  let right := t.representation right
  complements t left right || complements t right left

structure ConstantComparison where
  operator : Integer.CompareOp
  ty : Ty
  constant : Nat
  constantFirst : Bool

def ConstantComparison.evaluate (c : ConstantComparison) (bits : Nat) : Bool :=
  let bits := c.ty.normalize bits
  let constant := c.ty.normalize c.constant
  if c.constantFirst then Integer.compare c.ty c.operator constant bits
  else Integer.compare c.ty c.operator bits constant

/-- The one outcome of a comparison over all alternatives of `input`, and what is left of the work budget. The
    first argument bounds the nesting of selections; every selection also spends from the budget. -/
def compareChoices (t : ValueTable) (comparison : ConstantComparison) : Nat → Nat → Nat → Option (Bool × Nat)
  | n + 1, input, remaining + 1 =>
      match t.scalarLiteral input with
      | some bits => some (comparison.evaluate bits, remaining)
      | none =>
          match t.definition input with
          | .expression (.ternary .select whenTrue whenFalse _) => do
              let (whenTrue, remaining) ← compareChoices t comparison n whenTrue remaining
              let (whenFalse, remaining) ← compareChoices t comparison n whenFalse remaining
              if whenTrue = whenFalse then some (whenTrue, remaining) else none
          | _ =>
              -- Canonical predicates retain the same choices after a 0/1 selection has folded away.
              if (t.boundsOf input).unsigned ≤ 1 ∧ comparison.evaluate 0 = comparison.evaluate 1 then
                some (comparison.evaluate 0, remaining)
              else none
  | _, _, _ => none

/-- Bound work even when selections share subtrees. -/
def compareConstantChoices (t : ValueTable) (operator : Integer.CompareOp) (left right : Nat) (ty : Ty) :
    Option Bool :=
  match t.scalarLiteral left, t.scalarLiteral right with
  | _, some constant => (compareChoices t ⟨operator, ty, constant, false⟩ 32 left 32).map Prod.fst
  | some constant, none => (compareChoices t ⟨operator, ty, constant, true⟩ 32 right 32).map Prod.fst
  | none, none => none

/-- A power of two, as `u64::is_power_of_two` has it. -/
def isPowerOfTwo (x : Nat) : Bool := x = 2 ^ Nat.log2 x

/-- Whether the value is another masked to the one bit `mask`. -/
def isMaskedBit (t : ValueTable) (id mask : Nat) : Bool :=
  match t.definition (t.representation id) with
  | .expression (.binary (.bitwise .and) left right) =>
      isPowerOfTwo mask && (t.scalarLiteral left = some mask || t.scalarLiteral right = some mask)
  | _ => false

/-- Whether comparing with itself, the operator holds. -/
def reflexive : Integer.CompareOp → Bool
  | .eq | .geUnsigned | .geSigned => true
  | .ne | .ltUnsigned | .ltSigned => false

/-- A comparison that its operands decide, or a zero test. -/
def foldCompare (self : Fold) (operator : Integer.CompareOp) (left right : Nat) : Construct (Option Nat) := do
  let t ← get
  let a := t.representation left
  let b := t.representation right
  match compareConstantChoices t operator a b (t.ty a).carrier with
  | some result => some <$> literal .i1 result.toNat
  | none =>
      if a = b then some <$> literal .i1 (reflexive operator).toNat
      else if (operator = .ltUnsigned ∨ operator = .geUnsigned) ∧ t.scalarLiteral b = some 0 then
        some <$> literal .i1 (decide (operator = .geUnsigned)).toNat
      else if (operator = .ltUnsigned ∨ operator = .geUnsigned) ∧ t.scalarLiteral a = some 0 then
        some <$> self .i1 (.unary (.zeroTest (operator = .ltUnsigned)) right) 0
      else if operator ≠ .eq ∧ operator ≠ .ne then pure none
      else
        match besideLiteral left right (t.scalarLiteral a) (t.scalarLiteral b) with
        | none => pure none
        | some (input, mask) =>
            if mask = 0 then some <$> self .i1 (.unary (.zeroTest (operator = .ne)) input) 0
            else if mask = 1 ∧ (t.boundsOf input).unsigned ≤ 1 ∨ isMaskedBit t input mask then
              some <$> self .i1 (.unary (.zeroTest (operator = .eq)) input) 0
            else pure none

/-- A test of a single bit, of a test or of a conversion. -/
def foldZeroTest (self : Fold) (input : Nat) (nonzero : Bool) : Construct (Option Nat) := do
  let t ← get
  if nonzero ∧ (t.boundsOf input).unsigned ≤ 1 then pure (some input)
  else
    match t.definition input with
    | .expression (.unary (.zeroTest innerNonzero) source) =>
        some <$> self .i1 (.unary (.zeroTest (if nonzero then innerNonzero else !innerNonzero)) source) 0
    | .expression (.unary .convert source) =>
        -- A carrier conversion that discards no set bits preserves zero.
        if (t.boundsOf source).unsigned ≤ (t.ty input).carrier.bits then
          some <$> self .i1 (.unary (.zeroTest nonzero) source) 0
        else pure none
    | _ => pure none

variable {F : Floating} {t : ValueTable} {ty : Ty} {self : Fold} {n left right input : Nat} {σ : Nat → Option Nat}

/-! ## Predicates -/

section

variable (ht : Invariant F t)

include ht

theorem zeroTestOf_spec {id source : Nat} {nonzero : Bool} (hid : id < t.size)
    (h : zeroTestOf t id = some (nonzero, source)) :
    source < id ∧ (t.ty source).isInteger = true ∧
      ∀ σ, Valuation F t σ → ∀ v, σ id = some v →
        ∃ x, σ source = some x ∧ v = (decide (x ≠ 0) == nonzero).toNat := by
  have hdef : t.definition id = .expression (.unary (.zeroTest nonzero) source) := by
    unfold zeroTestOf at h
    split at h
    · next n' s hdef =>
        obtain ⟨rfl, rfl⟩ := Prod.mk.inj (Option.some.inj h)
        exact hdef
    · cases h
  have hval := ValueTable.value_eq_iff.mpr ⟨rfl, hdef⟩
  have hlt := ht.good.inputs_lt hid hval source (by simp)
  have hw : UnaryOp.wellTyped (.zeroTest nonzero) (t.ty source) (t.ty id) = true := ht.good.typed hid hval
  have hw' := hw
  simp only [UnaryOp.wellTyped, Bool.and_eq_true, decide_eq_true_eq] at hw'
  refine ⟨hlt, hw'.1, ?_⟩
  intro σ hσ v hv
  rw [hσ.expression hid hval] at hv
  obtain ⟨x, hx⟩ := evalExpr_inputs hv source (by simp)
  rw [eval_zeroTest hx (ht.carrier_lt hσ (by omega) hx) hw] at hv
  exact ⟨x, hx, (Option.some.inj hv).symm⟩

theorem complements_spec (hσ : Valuation F t σ) {predicate other x y : Nat}
    (hp : predicate < t.size) (ho : other < t.size) (h : complements t predicate other = true)
    (hx : σ predicate = some x) (hy : σ other = some y) : (x = 0 ∧ y = 1) ∨ (x = 1 ∧ y = 0) := by
  unfold complements at h
  split at h
  · cases h
  · next nonzero source htest =>
      obtain ⟨hlt, -, hval⟩ := zeroTestOf_spec ht hp htest
      obtain ⟨s, hs, rfl⟩ := hval σ hσ x hx
      have hrep := (ValueTable.representation_spec ht (by omega : source < t.size)).2.2 σ hσ s hs
      dsimp only at h
      rw [Bool.or_eq_true] at h
      rcases h with h | h
      · split at h
        · next otherNonzero otherSource hother =>
            simp only [ne_eq, decide_eq_true_eq] at h
            obtain ⟨hlt', -, hval'⟩ := zeroTestOf_spec ht ho hother
            obtain ⟨s', hs', rfl⟩ := hval' σ hσ y hy
            obtain rfl := ValueTable.eq_of_representation ht hσ (by omega) (by omega) h.1 hs hs'
            have hne := h.2
            revert hne
            cases nonzero <;> cases otherNonzero <;> cases decide (s ≠ 0) <;> simp
        · cases h
      · simp only [Bool.and_eq_true, Bool.not_eq_true', decide_eq_true_eq] at h
        obtain ⟨⟨rfl, hsame⟩, hbound⟩ := h
        rw [hsame, hy] at hrep
        obtain rfl := Option.some.inj hrep
        have hlt2 := lt_two_pow_mono (ht.inBounds hσ ho hy).unsigned hbound
        have : y = 0 ∨ y = 1 := by omega
        rcases this with rfl | rfl
        · exact Or.inr ⟨rfl, rfl⟩
        · exact Or.inl ⟨rfl, rfl⟩

/-- Of two complementary predicates, one carries zero and the other one. -/
theorem complementaryPredicates_spec (hσ : Valuation F t σ) {x y : Nat}
    (hl : left < t.size) (hr : right < t.size) (h : complementaryPredicates t left right = true)
    (hx : σ left = some x) (hy : σ right = some y) : (x = 0 ∧ y = 1) ∨ (x = 1 ∧ y = 0) := by
  obtain ⟨hle, -, hval⟩ := ValueTable.representation_spec ht hl
  obtain ⟨hle', -, hval'⟩ := ValueTable.representation_spec ht hr
  rcases (Bool.or_eq_true _ _).mp h with h | h
  · exact complements_spec ht hσ (by omega) (by omega) h (hval σ hσ x hx) (hval' σ hσ y hy)
  · exact (complements_spec ht hσ (by omega) (by omega) h (hval' σ hσ y hy) (hval σ hσ x hx)).symm.imp
      (fun h => ⟨h.2, h.1⟩) (fun h => ⟨h.2, h.1⟩)

/-! ## Comparisons with a constant -/

/-- The two operands of a stored selection, one of which is its value. -/
theorem select_operands {id whenTrue whenFalse cond : Nat} (hid : id < t.size)
    (hdef : t.definition id = .expression (.ternary .select whenTrue whenFalse cond)) :
    whenTrue < id ∧ whenFalse < id ∧ cond < id ∧ (t.ty whenTrue).carrier = (t.ty id).carrier ∧
      (t.ty whenFalse).carrier = (t.ty id).carrier ∧
      ∀ σ, Valuation F t σ → ∀ v, σ id = some v → ∃ x y z, σ whenTrue = some x ∧ σ whenFalse = some y ∧
        σ cond = some z ∧ v = if z ≠ 0 then x else y := by
  have hval := ValueTable.value_eq_iff.mpr ⟨rfl, hdef⟩
  have hlt := ht.good.inputs_lt hid hval
  have h₁ := hlt whenTrue (by simp)
  have h₂ := hlt whenFalse (by simp)
  have h₃ := hlt cond (by simp)
  have hw : TernaryOp.wellTyped .select (t.ty whenTrue) (t.ty whenFalse) (t.ty cond) (t.ty id) = true :=
    ht.good.typed hid hval
  have hw' := hw
  simp only [TernaryOp.wellTyped, Bool.and_eq_true, decide_eq_true_eq] at hw'
  refine ⟨h₁, h₂, h₃, hw'.1.1, hw'.1.2, ?_⟩
  intro σ hσ v hv
  rw [hσ.expression hid hval] at hv
  obtain ⟨x, hx⟩ := evalExpr_inputs hv whenTrue (by simp)
  obtain ⟨y, hy⟩ := evalExpr_inputs hv whenFalse (by simp)
  obtain ⟨z, hz⟩ := evalExpr_inputs hv cond (by simp)
  rw [eval_select hx hy hz (ht.carrier_lt hσ (by omega) hx) (ht.carrier_lt hσ (by omega) hy)
    (ht.carrier_lt hσ (by omega) hz) hw] at hv
  exact ⟨x, y, z, hx, hy, hz, (Option.some.inj hv).symm⟩

/-- When all alternatives of the input agree on a comparison, so does the input. -/
theorem compareChoices_spec (hσ : Valuation F t σ) {c : ConstantComparison} {m k k' : Nat}
    {b : Bool} (hin : input < t.size) (h : compareChoices t c m input k = some (b, k')) {x : Nat}
    (hx : σ input = some x) : c.evaluate x = b := by
  induction m generalizing input k k' b x with
  | zero => exact absurd h (by simp [compareChoices])
  | succ m ih =>
    cases k with
    | zero => exact absurd h (by simp [compareChoices])
    | succ k =>
      unfold compareChoices at h
      split at h
      · next bits hlit =>
          obtain ⟨rfl, -⟩ := Prod.mk.inj (Option.some.inj h)
          rw [(ValueTable.value_of_scalarLiteral ht.good hσ hin hlit).1] at hx
          obtain rfl := Option.some.inj hx
          rfl
      · split at h
        · next whenTrue whenFalse condition hdef =>
            obtain ⟨⟨b₁, k₁⟩, h₁, h⟩ := Option.bind_eq_some_iff.mp h
            obtain ⟨⟨b₂, k₂⟩, h₂, h⟩ := Option.bind_eq_some_iff.mp h
            dsimp only at h
            split at h
            · next heq =>
                obtain ⟨rfl, -⟩ := Prod.mk.inj (Option.some.inj h)
                obtain ⟨hlt₁, hlt₂, -, -, -, hval⟩ := select_operands ht hin hdef
                obtain ⟨u, v, z, hu, hv, -, rfl⟩ := hval σ hσ x hx
                split
                · exact ih (by omega) h₁ hu
                · exact (ih (by omega) h₂ hv).trans heq.symm
            · cases h
        · split at h
          · next hcond =>
              obtain ⟨rfl, -⟩ := Prod.mk.inj (Option.some.inj h)
              have hlt := lt_two_pow_mono (ht.inBounds hσ hin hx).unsigned hcond.1
              have : x = 0 ∨ x = 1 := by omega
              rcases this with rfl | rfl
              · rfl
              · exact hcond.2.symm
          · cases h

/-- The outcome of a comparison with a constant, over operands read at `ty`. -/
theorem compareConstantChoices_spec (hσ : Valuation F t σ) {o : Integer.CompareOp} {b : Bool}
    {x y : Nat} (hl : left < t.size) (hr : right < t.size) (h : compareConstantChoices t o left right ty = some b)
    (hx : σ left = some x) (hy : σ right = some y) :
    Integer.compare ty o (ty.normalize x) (ty.normalize y) = b := by
  unfold compareConstantChoices at h
  split at h
  · next constant hlit =>
      obtain ⟨⟨b', k⟩, hc, rfl⟩ := Option.map_eq_some_iff.mp h
      rw [(ValueTable.value_of_scalarLiteral ht.good hσ hr hlit).1] at hy
      obtain rfl := Option.some.inj hy
      exact compareChoices_spec ht hσ hl hc hx
  · next constant _ hlit _ =>
      obtain ⟨⟨b', k⟩, hc, rfl⟩ := Option.map_eq_some_iff.mp h
      rw [(ValueTable.value_of_scalarLiteral ht.good hσ hl hlit).1] at hx
      obtain rfl := Option.some.inj hx
      exact compareChoices_spec ht hσ hr hc hy
  · cases h

/-- A value masked to one bit is zero or that bit. -/
theorem isMaskedBit_spec (hσ : Valuation F t σ) {mask x : Nat} (hin : input < t.size)
    (h : isMaskedBit t input mask = true) (hx : σ input = some x) : x = 0 ∨ x = mask := by
  obtain ⟨hle, -, hval⟩ := ValueTable.representation_spec ht hin
  have hrx := hval σ hσ x hx
  unfold isMaskedBit at h
  split at h
  · next l r hdef =>
      obtain ⟨hl, hr, -, -, hv⟩ := bitwise_operands ht (by omega) hdef
      obtain ⟨u, v, hu, hv, rfl⟩ := hv σ hσ x hrx
      simp only [Bool.and_eq_true, Bool.or_eq_true, decide_eq_true_eq, isPowerOfTwo] at h
      obtain ⟨hpow, hlit⟩ := h
      have key : ∀ w, w &&& mask = 0 ∨ w &&& mask = mask := by
        intro w
        rw [hpow, Nat.and_two_pow]
        cases w.testBit (Nat.log2 mask) <;> simp
      rcases hlit with hlit | hlit
      · rw [(ValueTable.value_of_scalarLiteral ht.good hσ (by omega) hlit).1] at hu
        obtain rfl := Option.some.inj hu
        show mask &&& v = 0 ∨ mask &&& v = mask
        rw [Nat.and_comm]
        exact key v
      · rw [(ValueTable.value_of_scalarLiteral ht.good hσ (by omega) hlit).1] at hv
        obtain rfl := Option.some.inj hv
        exact key u
  · cases h

end

/-! ## Rewrites -/

section

variable {D : (Nat → Option Nat) → Option Nat}

/-- A predicate known to be `b` folds to a literal. -/
theorem yields_predicate (ht : Invariant F t) (hty : ty.carrier = .i32) {b : Bool}
    (hv : ∀ {σ v}, Valuation F t σ → D σ = some v → v = b.toNat) (hD : ∀ {t' σ}, t.Extends t' → Valuation F t' σ → Valuation F t σ) :
    Yields F t (some <$> literal .i1 b.toNat) (Rewrites F ty D) := by
  refine yields_some ((yields_literal ht .i1 b.toNat).mono ?_)
  rintro r t' hx ht' ⟨hr, -⟩
  refine ⟨hr.lt, Or.inr (by rw [hr.ty_eq]; exact convert_wellTyped (by rw [hty]; rfl) (by rw [hty]; decide)), ?_⟩
  intro σ v hσ hσv
  obtain rfl := hv (hD hx hσ) hσv
  refine ⟨b.toNat, hr.value hσ ?_, ?_⟩
  · cases b <;> rfl
  · rw [hty]
    cases b <;> rfl

/-- A predicate that is a zero test of an existing value. -/
theorem yields_zeroTest (hself : FoldsBelow F n self) (ht : Invariant F t) (hty : ty.carrier = .i32)
    (hin : input < t.size) (hint : (t.ty input).isInteger = true) {nonzero : Bool} (hn : input + 2 < n)
    (hv : ∀ {σ v}, Valuation F t σ → D σ = some v → ∃ x, σ input = some x ∧ v = (decide (x ≠ 0) == nonzero).toNat) :
    Yields F t (some <$> self .i1 (.unary (.zeroTest nonzero) input) 0) (Rewrites F ty D) := by
  have hw : UnaryOp.wellTyped (.zeroTest nonzero) (t.ty input) .i1 = true := by simp [UnaryOp.wellTyped, hint]
  refine yields_some ((hself (e := .unary (.zeroTest nonzero) input) ht (by simp [hin]) hw
    Nat.one_pos (fun _ _ => trivial) hn).mono ?_)
  intro r t' hx ht' hr
  refine ⟨hr.lt, Or.inr (by rw [hr.ty_eq]; exact convert_wellTyped (by rw [hty]; rfl) (by rw [hty]; decide)), ?_⟩
  intro σ v hσ hσv
  have hσ₀ := hσ.restrict ht.good hx
  obtain ⟨x, hxv, rfl⟩ := hv hσ₀ hσv
  refine ⟨_, hr.value hσ (eval_zeroTest hxv (ht.carrier_lt hσ₀ hin hxv) hw), ?_⟩
  rw [hty]
  cases (decide (x ≠ 0) == nonzero) <;> rfl

end

theorem compare_self (a : Ty) (o : Integer.CompareOp) (x : Nat) : Integer.compare a o x x = reflexive o := by
  cases o <;> simp [Integer.compare, reflexive]

theorem yields_foldCompare (hself : FoldsBelow F n self) (ht : Invariant F t) {o : Integer.CompareOp}
    (hl : left < t.size) (hr : right < t.size)
    (hw : BinaryOp.wellTyped (.compare (.integer o)) (t.ty left) (t.ty right) ty = true)
    (hn : max left right + 2 < n) :
    Yields F t (foldCompare self o left right)
      (Rewrites F ty (evalExpr F t · ty (.binary (.compare (.integer o)) left right) 0)) := by
  have hw' := hw
  simp only [BinaryOp.wellTyped, Bool.and_eq_true, decide_eq_true_eq] at hw'
  obtain ⟨⟨hint, hcar⟩, hty⟩ := hw'
  have hintr : (t.ty right).isInteger = true := Ty.isInteger_of_carrier hcar.symm hint
  have hops : ∀ {σ v}, Valuation F t σ → evalExpr F t σ ty (.binary (.compare (.integer o)) left right) 0 = some v →
      ∃ x y, σ left = some x ∧ σ right = some y ∧ x < 2 ^ (t.ty left).carrier.bits ∧
        y < 2 ^ (t.ty left).carrier.bits ∧ v = (Integer.compare (t.ty left).carrier o x y).toNat := by
    intro σ v hσ hv
    obtain ⟨x, hx, hxlt⟩ := ht.operand hσ hv hl (by simp)
    obtain ⟨y, hy, hylt⟩ := ht.operand hσ hv hr (by simp)
    rw [eval_compare hx hy hxlt hylt hw] at hv
    rw [← hcar] at hylt
    exact ⟨x, y, hx, hy, hxlt, hylt, (Option.some.inj hv).symm⟩
  obtain ⟨hla, hca, hva⟩ := ValueTable.representation_spec ht hl
  obtain ⟨hlb, hcb, hvb⟩ := ValueTable.representation_spec ht hr
  have hD : ∀ {t' σ}, t.Extends t' → Valuation F t' σ → Valuation F t σ := fun hx hσ => hσ.restrict ht.good hx
  refine Yields.get ?_
  dsimp only
  split
  · next b hb =>
      refine yields_predicate ht hty ?_ hD
      intro σ v hσ hv
      obtain ⟨x, y, hx, hy, hxlt, hylt, rfl⟩ := hops hσ hv
      have := compareConstantChoices_spec ht hσ (by omega) (by omega) hb (hva σ hσ x hx) (hvb σ hσ y hy)
      rw [hca, Ty.normalize_of_lt hxlt, Ty.normalize_of_lt hylt] at this
      rw [this]
  split
  · next hab =>
      refine yields_predicate ht hty ?_ hD
      intro σ v hσ hv
      obtain ⟨x, y, hx, hy, -, -, rfl⟩ := hops hσ hv
      obtain rfl := ValueTable.eq_of_representation ht hσ hl hr hab hx hy
      rw [compare_self]
  split
  · next hcond =>
      refine yields_predicate ht hty ?_ hD
      intro σ v hσ hv
      obtain ⟨x, y, hx, hy, -, -, rfl⟩ := hops hσ hv
      obtain rfl := ValueTable.value_of_literal_representation ht hσ hr hcond.2 hy
      rcases hcond.1 with rfl | rfl <;> simp [Integer.compare]
  split
  · next hcond =>
      refine yields_zeroTest hself ht hty hr hintr (by omega) ?_
      intro σ v hσ hv
      obtain ⟨x, y, hx, hy, -, -, rfl⟩ := hops hσ hv
      obtain rfl := ValueTable.value_of_literal_representation ht hσ hl hcond.2 hx
      refine ⟨y, hy, ?_⟩
      rcases hcond.1 with rfl | rfl
      · by_cases h0 : y = 0 <;> simp [Integer.compare, h0, Nat.pos_iff_ne_zero]
      · by_cases h0 : y = 0 <;> simp [Integer.compare, h0]
  split
  · exact Yields.pure ht Rewrites.none
  next hop =>
  have hop : o = .eq ∨ o = .ne := by
    by_cases h : o = .eq
    · exact Or.inl h
    · exact Or.inr (Decidable.not_not.mp fun h' => hop ⟨h, h'⟩)
  split
  · exact Yields.pure ht Rewrites.none
  next input mask hbeside =>
  -- the operand beside the constant, and the equality it decides
  have hside : input < t.size ∧ (t.ty input).isInteger = true ∧ input + 2 < n ∧
      ∀ {σ v}, Valuation F t σ → evalExpr F t σ ty (.binary (.compare (.integer o)) left right) 0 = some v →
        ∃ x, σ input = some x ∧ v = (decide (x = mask) == decide (o = .eq)).toNat := by
    have hne : ∀ x y : Nat, (decide (y = x) == decide (o = .eq)) = (decide (x = y) == decide (o = .eq)) := by
      intro x y
      simp [eq_comm]
    have hcmp : ∀ a x y, Integer.compare a o x y = (decide (x = y) == decide (o = .eq)) := by
      intro a x y
      rcases hop with rfl | rfl
      · by_cases h : x = y <;> simp [Integer.compare, h]
      · by_cases h : x = y <;> simp [Integer.compare, h]
    rcases besideLiteral_eq_some hbeside with ⟨rfl, hlit⟩ | ⟨rfl, hlit⟩
    · refine ⟨hl, hint, by omega, ?_⟩
      intro σ v hσ hv
      obtain ⟨x, y, hx, hy, -, -, rfl⟩ := hops hσ hv
      obtain rfl := ValueTable.value_of_literal_representation ht hσ hr hlit hy
      exact ⟨x, hx, by rw [hcmp]⟩
    · refine ⟨hr, hintr, by omega, ?_⟩
      intro σ v hσ hv
      obtain ⟨x, y, hx, hy, -, -, rfl⟩ := hops hσ hv
      obtain rfl := ValueTable.value_of_literal_representation ht hσ hl hlit hx
      exact ⟨y, hy, by rw [hcmp, hne]⟩
  obtain ⟨hi, hinti, hni, hval⟩ := hside
  split
  · next h0 =>
      subst h0
      refine yields_zeroTest hself ht hty hi hinti hni ?_
      intro σ v hσ hv
      obtain ⟨x, hx, rfl⟩ := hval hσ hv
      refine ⟨x, hx, ?_⟩
      rcases hop with rfl | rfl
      · by_cases h : x = 0 <;> simp [h]
      · by_cases h : x = 0 <;> simp [h]
  split
  · next h0 hcond =>
      refine yields_zeroTest hself ht hty hi hinti hni ?_
      intro σ v hσ hv
      obtain ⟨x, hx, rfl⟩ := hval hσ hv
      refine ⟨x, hx, ?_⟩
      -- the operand is zero or the constant, so equality with the constant is being nonzero
      have hx' : x = 0 ∨ x = mask := by
        rcases hcond with ⟨rfl, hb⟩ | hb
        · have := lt_two_pow_mono (ht.inBounds hσ hi hx).unsigned hb
          omega
        · exact isMaskedBit_spec ht hσ hi hb hx
      have hiff : decide (x = mask) = decide (x ≠ 0) := by
        rcases hx' with rfl | rfl
        · simp [eq_comm, h0]
        · simp [h0]
      rw [hiff]
  · exact Yields.pure ht Rewrites.none

theorem yields_foldZeroTest (hself : FoldsBelow F n self) (ht : Invariant F t) {nonzero : Bool}
    (hin : input < t.size) (hw : UnaryOp.wellTyped (.zeroTest nonzero) (t.ty input) ty = true)
    (hn : input + 2 < n + 1) :
    Yields F t (foldZeroTest self input nonzero)
      (Rewrites F ty (evalExpr F t · ty (.unary (.zeroTest nonzero) input) 0)) := by
  have hw' := hw
  simp only [UnaryOp.wellTyped, Bool.and_eq_true, decide_eq_true_eq] at hw'
  obtain ⟨hint, hty⟩ := hw'
  have hop : ∀ {σ v}, Valuation F t σ → evalExpr F t σ ty (.unary (.zeroTest nonzero) input) 0 = some v →
      ∃ x, σ input = some x ∧ v = (decide (x ≠ 0) == nonzero).toNat := by
    intro σ v hσ hv
    obtain ⟨x, hx⟩ := evalExpr_inputs hv input (by simp)
    rw [eval_zeroTest hx (ht.carrier_lt hσ hin hx) hw] at hv
    exact ⟨x, hx, (Option.some.inj hv).symm⟩
  refine Yields.get ?_
  split
  · next hcond =>
      refine Yields.pure ht (Rewrites.some ⟨hin, Or.inr ?_, ?_⟩)
      · have hty' : ty.isInteger = true := by rw [← Ty.isInteger_carrier, hty]; rfl
        simp [UnaryOp.wellTyped, hint, hty']
      intro σ v hσ hv
      obtain ⟨x, hx, rfl⟩ := hop hσ hv
      have hlt := lt_two_pow_mono (ht.inBounds hσ hin hx).unsigned hcond.2
      refine ⟨x, hx, ?_⟩
      rw [hcond.1, hty]
      have : x = 0 ∨ x = 1 := by omega
      rcases this with rfl | rfl <;> rfl
  split
  · next innerNonzero source hdef =>
      have htest : zeroTestOf t input = some (innerNonzero, source) := by rw [zeroTestOf, hdef]
      obtain ⟨hlt, hints, hval⟩ := zeroTestOf_spec ht hin htest
      refine yields_zeroTest hself ht hty (by omega) hints (by omega) ?_
      intro σ v hσ hv
      obtain ⟨x, hx, rfl⟩ := hop hσ hv
      obtain ⟨s, hs, rfl⟩ := hval σ hσ x hx
      refine ⟨s, hs, ?_⟩
      cases nonzero <;> cases innerNonzero <;> by_cases h0 : s = 0 <;> simp [h0]
  · next source hdef =>
      split
      · next hfits =>
          have hval := ValueTable.value_eq_iff.mpr ⟨rfl, hdef⟩
          have hlt := ht.good.inputs_lt hin hval source (by simp)
          have hws : UnaryOp.wellTyped .convert (t.ty source) (t.ty input) = true := ht.good.typed hin hval
          have hints : (t.ty source).isInteger = true := by
            revert hws hint
            cases t.ty source <;> cases t.ty input <;> decide
          refine yields_zeroTest hself ht hty (by omega) hints (by omega) ?_
          intro σ v hσ hv
          obtain ⟨x, hx, rfl⟩ := hop hσ hv
          rw [hσ.expression hin hval] at hx
          obtain ⟨s, hs⟩ := evalExpr_inputs hx source (by simp)
          rw [eval_convert hs (ht.carrier_lt hσ (by omega) hs),
            mod_two_pow_of_lt (ht.inBounds hσ (by omega) hs).unsigned hfits] at hx
          obtain rfl := Option.some.inj hx
          exact ⟨s, hs, rfl⟩
      · exact Yields.pure ht Rewrites.none
  · exact Yields.pure ht Rewrites.none

end Folder

end Relocade.Compiler
