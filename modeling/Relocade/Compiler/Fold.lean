import Relocade.Compiler.Fold.Layout

/-!
# `Compiler.Fold` — carrier-preserving folding

One turn of the folder evaluates literal operands, tries the rewrites of the operation, and stores what is left.
The rewrites call the folder back, so a turn is written against the fold it belongs to and `foldResult` ties the
knot; `foldCarrier` gives it as many turns as the operands can nest.
-/

namespace Relocade.Compiler

open Words

namespace Folder

/-- A conversion of a conversion back to the original type, when the type between them kept every bit. -/
def foldConvert (t : ValueTable) (ty : Ty) (input : Nat) : Option Nat :=
  if t.ty input = ty then some input
  else
    match t.definition input with
    | .expression (.unary .convert original) =>
        if t.ty original = ty ∧ (t.ty input).carrier.bits ≥ ty.carrier.bits then some original else none
    | _ => none

def foldReinterpret (t : ValueTable) (ty : Ty) (input : Nat) : Option Nat :=
  (reinterpretInput t input).filter fun original =>
    t.ty original = ty ∧ (t.ty input).carrier.bits ≥ ty.carrier.bits

/-- The rewrites of an operation that keep every bit of its carrier. -/
def rewrite (self : Fold) (ty : Ty) (e : Expression Nat) (component : Nat) : Construct (Option Nat) := do
  let t ← get
  match e with
  | .unary (.zeroTest nonzero) input => foldZeroTest self input nonzero
  | .unary (.lowBits bits) input => some <$> foldLowBits self ty input bits
  | .unary (.signExtend inputType) input => foldSignExtend self ty inputType input
  | .unary (.extractLane lane) input => foldExtractLane self ty lane input
  | .unary .convert input => pure (foldConvert t ty input)
  | .unary .reinterpret input => pure (foldReinterpret t ty input)
  | .unary _ _ => pure none
  | .binary (.integer operator) left right => foldBinary self ty operator left right
  | .binary (.swizzle inputType) left right => foldSwizzle self ty inputType left right
  | .binary (.bitwise operator) left right => foldBitwise self ty operator left right
  | .binary (.compare (.integer operator)) left right => foldCompare self operator left right
  | .binary (.vector operator laneType) left right => foldVector ty operator laneType left right
  | .binary (.replaceLane laneType lane) left right => foldReplaceLane self ty laneType lane left right
  | .binary (.shuffleImmediate mask) left right => foldShuffle ty mask left right
  | .binary _ _ _ => pure none
  | .shift (.scalar _) value count => pure (foldShift t ty value count)
  | .shift (.rotate _) value count => pure (foldRotate t ty value count)
  | .shift (.lanes _ laneType) value count => pure (foldLaneShift t value count laneType)
  | .ternary .select first second third => foldSelect self third first second
  | .ternary .bitselect first second third => foldSelectBits self ty third first second
  | .ternary (.shuffle inputType) first second third => foldShuffleBytes self ty inputType first second third
  | .multiplyWide isSigned left right => foldMultiplyWide self isSigned left right component

/-- Store the expression, or a view of the value it was rewritten to. -/
def finish (ty : Ty) (e : Expression Nat) (component : Nat) (input : Option Nat) : Construct Nat := do
  match input with
  | none => internResult ty e component
  | some input =>
      if (← get).ty input = ty then pure input else internResult ty (.unary .convert input) component

/-- Construction and operand replacement share rewrites that preserve every result bit. -/
def foldStep (host : Floating) (self : Fold) : Fold := fun ty e component => do
  let t ← get
  match (literals t e).bind (·.carrierResult host ty component) with
  | some bits => carrierLiteral ty bits
  | none => rewrite self ty e component >>= finish ty e component

/-- The folder, to a depth of `n` nested rewrites. -/
def foldResult (host : Floating) : Nat → Fold
  | 0 => fun _ _ _ _ => none
  | n + 1 => foldStep host (foldResult host n)

end Folder

/-- Fold a carrier recipe without admitting logical operands again. -/
def foldCarrier (host : Floating) (ty : Ty) (e : Expression Nat) (component : Nat) : Construct Nat := fun t =>
  Folder.foldResult host (t.size + 4) ty e component t

/-! ## Evaluation with the host's primitives -/

section

variable {F host : Floating}

theorem Evaluate.unary_agrees (h : host.Agrees F) {o : UnaryOp} {a : TypedLiteral} {r : Ty} {v : Nat}
    (hv : Evaluate.unary host o a r = some v) : Evaluate.unary F o a r = some v := by
  cases o with
  | float o =>
    simp only [Evaluate.unary, Option.bind_eq_bind, Option.bind_eq_some_iff] at hv ⊢
    obtain ⟨x, hx, y, hy, hv⟩ := hv
    exact ⟨x, hx, y, h.unary hy, hv⟩
  | floatConvert o =>
    simp only [Evaluate.unary, Option.bind_eq_bind, Option.bind_eq_some_iff] at hv ⊢
    obtain ⟨x, hx, y, hy, hv⟩ := hv
    exact ⟨x, hx, y, h.convert hy, hv⟩
  | floatVector o f => exact h.vectorUnary hv
  | floatVectorConvert o => exact h.vectorConvert hv
  | _ => exact hv

theorem Evaluate.binary_agrees (h : host.Agrees F) {o : BinaryOp} {a b : TypedLiteral} {r : Ty} {v : Nat}
    (hv : Evaluate.binary host o a b r = some v) : Evaluate.binary F o a b r = some v := by
  cases o with
  | float o =>
    simp only [Evaluate.binary, Option.bind_eq_bind, Option.bind_eq_some_iff] at hv ⊢
    obtain ⟨x, hx, y, hy, z, hz, hv⟩ := hv
    exact ⟨x, hx, y, hy, z, h.binary hz, hv⟩
  | floatVector o f => exact h.vectorBinary hv
  | floatVectorCompare o f =>
    rw [Evaluate.binary, ← h.vectorCompare]
    exact hv
  | compare o =>
    cases o with
    | integer o => exact hv
    | float o =>
      simp only [Evaluate.binary, h.compare] at hv ⊢
      exact hv
  | _ => exact hv

theorem Expression.carrierResult_unary {o : UnaryOp} (ho : ∀ l, o ≠ .extractLane l) {a : TypedLiteral} {ty : Ty} {c : Nat} :
    (Expression.unary o a).carrierResult F ty c = Evaluate.unary F o a.toCarrier ty.carrier := by
  cases o with
  | extractLane l => exact absurd rfl (ho l)
  | _ => rfl

/-- Whatever the host commits to is what the engine computes. -/
theorem Expression.carrierResult_agrees (h : host.Agrees F) {e : Expression TypedLiteral} {ty : Ty} {c v : Nat}
    (hv : e.carrierResult host ty c = some v) : e.carrierResult F ty c = some v := by
  cases e with
  | unary o a =>
    by_cases ho : ∃ l, o = .extractLane l
    · obtain ⟨l, rfl⟩ := ho
      exact hv
    · have ho' : ∀ l, o ≠ .extractLane l := fun l hl => ho ⟨l, hl⟩
      rw [carrierResult_unary ho'] at hv ⊢
      exact Evaluate.unary_agrees h hv
  | binary o a b => exact Evaluate.binary_agrees h hv
  | shift _ _ _ | ternary _ _ _ _ | multiplyWide _ _ _ => exact hv

end

namespace Folder

variable {F host : Floating} {t : ValueTable} {ty : Ty} {self : Fold} {n c : Nat} {e : Expression Nat}

/-- Literal operands evaluate to the carrier of the expression. -/
theorem evalExpr_literals {σ : Nat → Option Nat} (hσ : Valuation F t σ) (he : ∀ i ∈ e.inputs, i < t.size)
    {e' : Expression TypedLiteral} (h : literals t e = some e') :
    evalExpr F t σ ty e c = e'.carrierResult F ty c := by
  have hmap := Expression.tryMap_eq_some_iff.mp h
  have key : literals t e = e.tryMap fun id => (σ id).map (TypedLiteral.mk (t.ty id)) := by
    refine Expression.tryMap_congr fun i hi => ?_
    have hmem : (vectorLiteral t i).map (TypedLiteral.mk (t.ty i)) ∈ (e'.map some).inputs := by
      rw [← hmap, Expression.inputs_map]
      exact List.mem_map_of_mem hi
    rw [Expression.inputs_map] at hmem
    obtain ⟨l, -, hl⟩ := List.mem_map.mp hmem
    obtain ⟨x, hx, -⟩ := Option.map_eq_some_iff.mp hl.symm
    rw [hx, value_of_vectorLiteral hσ (he i hi) hx]
  rw [evalExpr, ← key, h]
  rfl

/-! ## Conversions -/

theorem foldConvert_spec (ht : Invariant F t) {input : Nat} (hin : input < t.size) :
    Rewrites F ty (evalExpr F t · ty (.unary .convert input) 0) (foldConvert t ty input) t := by
  have heval : ∀ {σ v}, Valuation F t σ → evalExpr F t σ ty (.unary .convert input) 0 = some v →
      ∃ x, σ input = some x ∧ v = x % 2 ^ ty.carrier.bits ∧ x < 2 ^ (t.ty input).carrier.bits := by
    intro σ v hσ hv
    obtain ⟨x, hx, hxlt⟩ := ht.operand hσ hv hin (by simp)
    rw [eval_convert hx hxlt] at hv
    exact ⟨x, hx, (Option.some.inj hv).symm, hxlt⟩
  intro i hi
  unfold foldConvert at hi
  split at hi
  · next hty =>
      obtain rfl := Option.some.inj hi
      refine Converts.of_value ht hin (Or.inl hty) ?_
      intro σ v hσ hv
      obtain ⟨x, hx, rfl, hxlt⟩ := heval hσ hv
      rw [← hty, Nat.mod_eq_of_lt hxlt, hx]
  split at hi
  · next original hdef =>
      split at hi
      · next hcond =>
          obtain rfl := Option.some.inj hi
          obtain ⟨hty, hle⟩ := hcond
          have hval := ValueTable.value_eq_iff.mpr ⟨rfl, hdef⟩
          have hlt := ht.good.inputs_lt hin hval original (by simp)
          refine Converts.of_value ht (by omega) (Or.inl hty) ?_
          intro σ v hσ hv
          obtain ⟨x, hx, rfl, -⟩ := heval hσ hv
          rw [hσ.expression hin hval] at hx
          obtain ⟨u, hu⟩ := evalExpr_inputs hx original (by simp)
          have hult := ht.carrier_lt hσ (by omega) hu
          rw [eval_convert hu hult] at hx
          obtain rfl := Option.some.inj hx
          rw [hty] at hult
          rw [mod_mod_two_pow hle, Nat.mod_eq_of_lt hult, hu]
      · cases hi
  · cases hi

/-- The low half of a splat is the scalar. -/
theorem splat_mod {x : Nat} (hx : x < 2 ^ 64) : Packed.splat .i64 x % 2 ^ 64 = x := by
  have h := pack_mod (w := 64) (by decide) (fun _ => x) (m := 1) (n := 2) (by decide)
  rw [Nat.one_mul] at h
  rw [Packed.splat, show 128 / Ty.i64.bits = 2 from rfl, show Ty.i64.bits = 64 from rfl, h, pack, pack,
    Nat.zero_or, Nat.zero_mul, Nat.shiftLeft_zero, Nat.mod_eq_of_lt hx]

/-- A reinterpretation of a reinterpretation back to the original type, through a carrier as wide. -/
theorem reinterpret_reinterpret {a b : Ty} (hab : UnaryOp.wellTyped .reinterpret a b = true)
    (hba : UnaryOp.wellTyped .reinterpret b a = true) (hle : b.carrier.bits ≥ a.carrier.bits) :
    a.isScalar = true ∧ a.carrier.bits = 64 ∧ (b.isScalar = true → b.carrier.bits = 64) := by
  revert hab hba hle
  cases a <;> cases b <;> decide

theorem foldReinterpret_spec (ht : Invariant F t) {input : Nat} (hin : input < t.size)
    (hw : UnaryOp.wellTyped .reinterpret (t.ty input) ty = true) :
    Rewrites F ty (evalExpr F t · ty (.unary .reinterpret input) 0) (foldReinterpret t ty input) t := by
  intro i hi
  obtain ⟨hsome, hcond⟩ := Option.filter_eq_some_iff.mp hi
  simp only [decide_eq_true_eq] at hcond
  obtain ⟨hty, hle⟩ := hcond
  have hdef : t.definition input = .expression (.unary .reinterpret i) := by
    unfold reinterpretInput at hsome
    split at hsome
    · next j hj => rw [hj, Option.some.inj hsome]
    · cases hsome
  have hval := ValueTable.value_eq_iff.mpr ⟨rfl, hdef⟩
  have hlt := ht.good.inputs_lt hin hval i (by simp)
  have hwi : UnaryOp.wellTyped .reinterpret (t.ty i) (t.ty input) = true := ht.good.typed hin hval
  refine Converts.of_value ht (by omega) (Or.inl hty) ?_
  intro σ v hσ hv
  obtain ⟨x, hx, hxlt⟩ := ht.operand hσ hv hin (by simp)
  have hx' := hx
  rw [hσ.expression hin hval] at hx'
  obtain ⟨u, hu⟩ := evalExpr_inputs hx' i (by simp)
  have hult := ht.carrier_lt hσ (by omega) hu
  obtain ⟨hs, h64, hb64⟩ := reinterpret_reinterpret hwi (by rw [hty]; exact hw) (by rw [hty]; exact hle)
  have hs' : ty.isScalar = true := hty ▸ hs
  rw [h64] at hult
  rw [hty] at h64
  by_cases hb : (t.ty input).isScalar = true
  · rw [eval_reinterpret_scalar hu (by rwa [hty, h64]) hs hb, hb64 hb, Nat.mod_eq_of_lt hult] at hx'
    rw [eval_reinterpret_scalar hx hxlt hb hs', ← Option.some.inj hx', h64, Nat.mod_eq_of_lt hult] at hv
    rw [hu, hv]
  · have hb : (t.ty input).isScalar = false := by simpa using hb
    rw [eval_reinterpret_splat hu (by rwa [hty, h64]) hs hb] at hx'
    rw [eval_reinterpret_low hx hxlt hb hs', ← Option.some.inj hx', h64, splat_mod hult] at hv
    rw [hu, hv]

/-! ## One turn -/

theorem yields_rewrite (hself : FoldsBelow F n self) (ht : Invariant F t) (he : ∀ i ∈ e.inputs, i < t.size)
    (hw : (e.map t.ty).wellTyped ty = true) (hc : c < (e.resultTypes ty).length) (hn : t.foldDepth ty e < n + 1) :
    Yields F t (rewrite self ty e c) fun r t' => Rewrites F ty (evalExpr F t · ty e c) r t' ∧
      (0 < c → ∀ i, r = some i → t'.ty i = ty) := by
  -- only a wide product has a second component
  have single : ∀ {m : Construct (Option Nat)}, c < 1 →
      Yields F t m (Rewrites F ty (evalExpr F t · ty e 0)) →
      Yields F t m fun r t' => Rewrites F ty (evalExpr F t · ty e c) r t' ∧ (0 < c → ∀ i, r = some i → t'.ty i = ty) := by
    intro m hc hm
    obtain rfl : c = 0 := by omega
    exact hm.mono fun r t' _ _ h => ⟨h, fun h0 => absurd h0 (Nat.lt_irrefl 0)⟩
  have decline : Yields F t (pure none) fun r t' => Rewrites F ty (evalExpr F t · ty e c) r t' ∧
      (0 < c → ∀ i, r = some i → t'.ty i = ty) :=
    Yields.pure ht ⟨Rewrites.none, fun _ _ h => absurd h (by simp)⟩
  refine Yields.get ?_
  cases e with
  | unary o input =>
    have hin : input < t.size := he input (by simp)
    have hw : o.wellTyped (t.ty input) ty = true := hw
    cases o with
    | zeroTest nonzero =>
      refine single hc (yields_foldZeroTest hself ht hin hw ?_)
      simpa only [ValueTable.foldDepth] using hn
    | lowBits bits =>
      simp only [ValueTable.foldDepth] at hn
      have hw' := hw
      simp only [UnaryOp.wellTyped, Bool.and_eq_true, decide_eq_true_eq] at hw'
      obtain ⟨⟨hint, hcar⟩, hbits⟩ := hw'
      refine single hc (yields_some ((yields_foldLowBits hself (by omega) ht hin
        (Ty.isInteger_of_carrier hcar.symm hint) hcar hbits).mono ?_))
      intro r t' hx ht' hr
      refine ⟨hr.lt, hr.typed, ?_⟩
      intro σ v hσ hv
      obtain ⟨x, hxv⟩ := evalExpr_inputs hv input (by simp)
      rw [eval_lowBits hxv (ht.carrier_lt (hσ.restrict ht.good hx) hin hxv) hw] at hv
      exact hr.value hσ (by rw [hxv]; exact hv)
    | signExtend inputType => exact single hc (yields_foldSignExtend hself ht hin hw hn)
    | extractLane l => exact single hc (yields_foldExtractLane hself ht hin hw hn)
    | convert => exact single hc (Yields.pure ht (foldConvert_spec ht hin))
    | reinterpret => exact single hc (Yields.pure ht (foldReinterpret_spec ht hin hw))
    | _ => exact decline
  | binary o left right =>
    have hl : left < t.size := he left (by simp)
    have hr : right < t.size := he right (by simp)
    have hw : o.wellTyped (t.ty left) (t.ty right) ty = true := hw
    cases o with
    | integer o => exact single hc (yields_foldBinary hself ht hl hr hw hn)
    | swizzle a =>
      refine single hc (yields_foldSwizzle hself ht hl hr hw ?_)
      simp only [ValueTable.foldDepth] at hn
      omega
    | bitwise o => exact single hc (yields_foldBitwise hself ht hl hr hw hn)
    | compare o =>
      cases o with
      | integer o =>
        refine single hc (yields_foldCompare hself ht hl hr hw ?_)
        simp only [ValueTable.foldDepth] at hn
        omega
      | float o => exact decline
    | vector o a => exact single hc (yields_foldVector ht hl hr hw)
    | replaceLane a l => exact single hc (yields_foldReplaceLane hself ht hl hr hw hn)
    | shuffleImmediate mask => exact single hc (yields_foldShuffle ht hl hr hw)
    | _ => exact decline
  | shift o input count =>
    have hin : input < t.size := he input (by simp)
    have hcnt : count < t.size := he count (by simp)
    have hw : o.wellTyped (t.ty input) (t.ty count) ty = true := hw
    cases o with
    | scalar o => exact single hc (Yields.pure ht (rewrites_foldShift ht hin hcnt hw))
    | rotate o => exact single hc (Yields.pure ht (rewrites_foldRotate ht hin hcnt hw))
    | lanes o a => exact single hc (Yields.pure ht (rewrites_foldLaneShift ht hin hcnt hw))
  | ternary o first second third =>
    have h₁ : first < t.size := he first (by simp)
    have h₂ : second < t.size := he second (by simp)
    have h₃ : third < t.size := he third (by simp)
    have hw : o.wellTyped (t.ty first) (t.ty second) (t.ty third) ty = true := hw
    cases o with
    | select =>
      refine single hc (yields_foldSelect hself ht h₁ h₂ h₃ hw ?_)
      simp only [ValueTable.foldDepth] at hn
      omega
    | bitselect =>
      refine single hc (yields_foldSelectBits hself ht h₁ h₂ h₃ hw ?_)
      simp only [ValueTable.foldDepth] at hn
      omega
    | shuffle a =>
      refine single hc (yields_foldShuffleBytes hself ht h₁ h₂ h₃ hw ?_)
      simp only [ValueTable.foldDepth] at hn
      omega
  | multiplyWide s left right =>
    simp only [Expression.map, Expression.wellTyped, Bool.and_eq_true, decide_eq_true_eq] at hw
    simp only [ValueTable.foldDepth] at hn
    refine (yields_foldMultiplyWide hself (by omega) ht (he left (by simp))
      (he right (by simp)) hw.2 hw.1.1 hw.1.2 hc).mono ?_
    intro r t' _ ht' h
    refine ⟨fun i hi => (h i hi).converts ht', fun _ i hi => (h i hi).ty_eq⟩

/-- What no rewrite applies to is no sign extension within its carrier. -/
theorem rewrite_widens {t' : ValueTable} (he : ∀ i ∈ e.inputs, i < t.size) (hw : (e.map t.ty).wellTyped ty = true)
    (hfits : t.Fits) (h : rewrite self ty e c t = some (none, t')) : Value.Widens ⟨ty, .expression e⟩ := by
  intro inputType input hdef
  cases hdef
  exact foldSignExtend_widens hw (he input (List.mem_singleton_self _)) hfits h

/-- What is left of a rewritten expression holds its value. -/
theorem yields_finish {input : Option Nat} {t₁ : ValueTable} (ht : Invariant F t) (hx : t.Extends t₁)
    (ht₁ : Invariant F t₁) (he : ∀ i ∈ e.inputs, i < t.size) (hw : (e.map t.ty).wellTyped ty = true)
    (hc : c < (e.resultTypes ty).length) (hd : t.DivisionFits F ty e)
    (hr : Rewrites F ty (evalExpr F t · ty e c) input t₁) (hone : 0 < c → ∀ i, input = some i → t₁.ty i = ty)
    (hwidens : t.Fits → input = none → Value.Widens ⟨ty, .expression e⟩) :
    Yields F t₁ (finish ty e c input) fun r t' => Holds F t' ty (evalExpr F t · ty e c) r := by
  cases input with
  | none =>
    refine (yields_internResult ht₁ (fun i hi => hx.lt (he i hi)) (by rw [hx.map_ty_eq he]; exact hw) hc
      (hd.extends ht.good hx) fun hfits => hwidens (hfits.restrict hx) rfl).mono ?_
    intro r t' _ _ h
    refine ⟨h.lt, h.ty_eq, fun hσ hv => h.value hσ ?_⟩
    rw [evalExpr_extends hx he]
    exact hv
  | some input =>
    obtain ⟨hlt, htyped, hval⟩ := hr input rfl
    refine Yields.get ?_
    split
    · next hty =>
        refine Yields.pure ht₁ ⟨hlt, hty, ?_⟩
        intro σ v hσ hv
        obtain ⟨u, hu, rfl⟩ := hval hσ hv
        have hult := ht₁.carrier_lt hσ hlt hu
        rw [hty] at hult
        rw [hu, Nat.mod_eq_of_lt hult]
    · next hty =>
        have hc0 : ¬ 0 < c := fun h => hty (hone h input rfl)
        have hwc : UnaryOp.wellTyped .convert (t₁.ty input) ty = true := htyped.resolve_left hty
        refine (yields_internResult ht₁ (e := .unary .convert input) (c := c) (by simp [hlt]) hwc
          (by simp [Expression.resultTypes]; omega) (fun _ _ => trivial) nofun).mono ?_
        intro r t' hx' _ h
        refine ⟨h.lt, h.ty_eq, ?_⟩
        intro σ v hσ hv
        have hσ₁ := hσ.restrict ht₁.good hx'
        obtain ⟨u, hu, rfl⟩ := hval hσ₁ hv
        exact h.value hσ (eval_convert hu (ht₁.carrier_lt hσ₁ hlt hu))

theorem yields_foldStep (hF : host.Agrees F) (hself : FoldsBelow F n self) : FoldsBelow F (n + 1) (foldStep host self) := by
  intro t ty e c ht he hw hc hd hn
  refine Yields.get ?_
  split
  · next bits hbits =>
      obtain ⟨e', he', hbits⟩ := Option.bind_eq_some_iff.mp hbits
      refine (yields_carrierLiteral ht ty bits).mono ?_
      rintro r t' hx ht' ⟨h, -⟩
      refine ⟨h.lt, h.ty_eq, ?_⟩
      intro σ v hσ hv
      have hv' := hv
      rw [evalExpr_literals (hσ.restrict ht.good hx) he he', Expression.carrierResult_agrees hF hbits] at hv'
      rw [h.value hσ rfl, Option.some.inj hv', Nat.mod_eq_of_lt (evalExpr_lt hw hv)]
  · refine Yields.bind (yields_rewrite hself ht he hw hc hn).run ?_
    rintro input t₁ hx ht₁ ⟨⟨hr, hone⟩, hrun⟩
    refine yields_finish ht hx ht₁ he hw hc hd hr hone fun hfits hnone => ?_
    rw [hnone] at hrun
    exact rewrite_widens he hw hfits hrun

/-- The folder keeps its promise to any depth. -/
theorem foldsBelow_foldResult (hF : host.Agrees F) : ∀ n, FoldsBelow F n (foldResult host n)
  | 0 => fun _ _ _ _ _ h => absurd h (Nat.not_lt_zero _)
  | n + 1 => yields_foldStep hF (foldsBelow_foldResult hF n)

/-- A table bounds how deep the rewrites over its values nest. -/
theorem foldDepth_lt (ht : t.Good) (he : ∀ i ∈ e.inputs, i < t.size) : t.foldDepth ty e < t.size + 4 := by
  have key : ∀ i ∈ e.inputs, i < t.size ∧ t.xorDepth i ≤ i + 1 := fun i hi => ⟨he i hi, xorDepth_le ht (he i hi)⟩
  unfold ValueTable.foldDepth
  split <;> simp only [Expression.inputs, List.mem_cons, List.not_mem_nil, or_false, forall_eq_or_imp, forall_eq] at key <;>
    first
    | omega
    | (split <;> omega)

end Folder

/-- Folding in a sound table holds the carrier of the expression, and keeps the table sound. -/
theorem yields_foldCarrier {F host : Floating} {t : ValueTable} {ty : Ty} {e : Expression Nat} {c : Nat}
    (hF : host.Agrees F) (ht : Invariant F t) (he : ∀ i ∈ e.inputs, i < t.size) (hw : (e.map t.ty).wellTyped ty = true)
    (hc : c < (e.resultTypes ty).length) (hd : t.DivisionFits F ty e) :
    Yields F t (foldCarrier host ty e c) fun r t' => Holds F t' ty (evalExpr F t · ty e c) r := by
  obtain ⟨r, t', hm, h⟩ := Folder.foldsBelow_foldResult hF (t.size + 4) ht he hw hc hd (Folder.foldDepth_lt ht.good he)
  refine ⟨r, t', ?_, h⟩
  rw [foldCarrier]
  exact hm

/-! ## Unnormalized division at the root

A narrow unsigned division of an unnormalized dividend is stored as it is, whatever width it records. -/

namespace Folder

variable {F host : Floating} {t : ValueTable} {ty : Ty} {self : Fold} {n c : Nat} {e : Expression Nat}

theorem not_divisionFits (hd : ¬ t.DivisionFits F ty e) :
    ∃ o left right, e = .binary (.integer o) left right ∧ (o = .divUnsigned ∨ o = .remUnsigned) := by
  by_contra hne
  refine hd fun σ _ => ?_
  unfold DivisionNormalized
  split
  · exact absurd ⟨_, _, _, rfl, Or.inl rfl⟩ hne
  · exact absurd ⟨_, _, _, rfl, Or.inr rfl⟩ hne
  · trivial

/-- No rewrite applies to a narrow unsigned division. -/
theorem rewrite_division {o : Integer.BinaryOp} {left right : Nat} (ho : o = .divUnsigned ∨ o = .remUnsigned)
    (hty : ty ≠ .i64) : rewrite self ty (.binary (.integer o) left right) c t = some (none, t) := by
  show foldBinary self ty o left right t = _
  unfold foldBinary
  rcases ho with rfl | rfl <;>
    simp only [binaryOffset, hty, false_and, and_false, if_false, reduceCtorEq] <;> rfl

/-- A stored division holds its value, whether or not it is normalized. -/
theorem internResult_division (ht : Invariant F t) {o : Integer.BinaryOp} {left right : Nat}
    (ho : o = .divUnsigned ∨ o = .remUnsigned) (hl : left < t.size) (hr : right < t.size)
    (hw : BinaryOp.wellTyped (.integer o) (t.ty left) (t.ty right) ty = true) :
    ∃ r t', internResult ty (.binary (.integer o) left right) 0 t = some (r, t') ∧ t.Extends t' ∧ t'.Good ∧
      Holds F t' ty (evalExpr F t · ty (.binary (.integer o) left right) 0) r := by
  have he : ∀ i ∈ (Expression.binary (.integer o) left right).inputs, i < t.size := by
    simp [hl, hr]
  have h := ValueTable.intern_stored (F := F) (v := ⟨ty, .expression (.binary (.integer o) left right)⟩) ht.good
    ⟨he, hw⟩ rfl nofun
  cases hfind : t.interned.find? (fun id => t.value id = ⟨ty, .expression (.binary (.integer o) left right)⟩) with
  | some id =>
    -- the table does not change
    have hi : t.intern ⟨ty, .expression (.binary (.integer o) left right)⟩ = (id, t) := by
      rw [ValueTable.intern, hfind]
    obtain ⟨r, t', hm, hx, ht', hres⟩ := yields_internResult_of (c := 0) ht.good he hw Nat.one_pos nofun (by rw [hi]; exact ht)
    exact ⟨r, t', hm, hx, ht'.good, hres⟩
  | none =>
    have hi : t.intern ⟨ty, .expression (.binary (.integer o) left right)⟩ =
        (t.size, (t.intern ⟨ty, .expression (.binary (.integer o) left right)⟩).2) := by
      rw [ValueTable.intern, hfind]
      rfl
    have hb : ((t.intern ⟨ty, .expression (.binary (.integer o) left right)⟩).2.boundsOf t.size).unsigned = ty.bits := by
      rw [ValueTable.intern, hfind]
      show ((t.pushWithBounds _ _).2.boundsOf t.size).unsigned = _
      rw [ValueTable.push_bounds_new ht.good.bounds_length]
      rcases ho with rfl | rfl <;> rfl
    have hpos := ty.bits_pos
    obtain ⟨hres, hslot⟩ := Stored.holds h (c := 0) he hw Nat.one_pos
    have hx := h.extend
    have hgood := h.good
    generalize (t.intern ⟨ty, .expression (.binary (.integer o) left right)⟩).2 = t' at *
    rw [hi] at hres hslot
    exact ⟨t.size, t', by rw [internResult_run hi hres, if_neg (by simpa [hb] using ty.bits_pos.ne')]; rfl, hx, hgood, hslot⟩

theorem foldStep_run : foldStep host self ty e c t =
    match (literals t e).bind (·.carrierResult host ty c) with
    | some bits => carrierLiteral ty bits t
    | none => (rewrite self ty e c t).bind fun p => finish ty e c p.1 p.2 := by
  show (match (literals t e).bind (·.carrierResult host ty c) with
    | some bits => carrierLiteral ty bits
    | none => rewrite self ty e c >>= finish ty e c) t = _
  cases (literals t e).bind (·.carrierResult host ty c) <;> rfl

/-- The root of a fold need not be normalized. -/
theorem foldStep_division (hF : host.Agrees F) (ht : Invariant F t) (he : ∀ i ∈ e.inputs, i < t.size)
    (hw : (e.map t.ty).wellTyped ty = true) (hc : c < (e.resultTypes ty).length) (hd : ¬ t.DivisionFits F ty e) :
    ∃ r t', foldStep host self ty e c t = some (r, t') ∧ t.Extends t' ∧ t'.Good ∧
      Holds F t' ty (evalExpr F t · ty e c) r := by
  obtain ⟨o, left, right, rfl, ho⟩ := not_divisionFits hd
  have hl : left < t.size := he left (by simp)
  have hr : right < t.size := he right (by simp)
  have hty : ty ≠ .i64 := by
    rintro rfl
    simp only [Expression.map, Expression.wellTyped, BinaryOp.wellTyped, Bool.and_eq_true, decide_eq_true_eq] at hw
    refine hd (ValueTable.divisionFits_of_lt fun hσ hx => ?_)
    have := ht.carrier_lt hσ hl hx
    rwa [hw.1.2] at this
  have hc : c < 1 := hc
  obtain rfl : c = 0 := by omega
  cases hlit : (literals t (.binary (.integer o) left right)).bind (·.carrierResult host ty 0) with
  | some bits =>
    obtain ⟨e', he', hbits⟩ := Option.bind_eq_some_iff.mp hlit
    obtain ⟨r, t', hm, hx, ht', h, -⟩ := yields_carrierLiteral ht ty bits
    refine ⟨r, t', ?_, hx, ht'.good, h.lt, h.ty_eq, ?_⟩
    · rw [foldStep_run, hlit]
      exact hm
    · intro σ v hσ hv
      have hv' := hv
      rw [evalExpr_literals (hσ.restrict ht.good hx) he he', Expression.carrierResult_agrees hF hbits] at hv'
      rw [h.value hσ rfl, Option.some.inj hv', Nat.mod_eq_of_lt (evalExpr_lt hw hv)]
  | none =>
    obtain ⟨r, t', hm, h⟩ := internResult_division ht ho hl hr hw
    refine ⟨r, t', ?_, h⟩
    rw [foldStep_run, hlit, rewrite_division ho hty]
    exact hm

end Folder

/-- Carrier-preserving folding: in a table whose narrow divisions were stored over normalized dividends, the position
    that `foldCarrier` returns denotes the carrier of the unfolded expression, under every assignment of the leaves
    that stays inside the recorded widths. -/
theorem foldCarrier_denote {F host : Floating} (hF : host.Agrees F) {t : ValueTable} (hb : t.Built F) {ty : Ty}
    {e : Expression Nat} {c : Nat} (he : ∀ i ∈ e.inputs, i < t.size) (hw : (e.map t.ty).wellTyped ty = true)
    (hc : c < (e.resultTypes ty).length) :
    ∃ r t', foldCarrier host ty e c t = some (r, t') ∧ t.Extends t' ∧ r < t'.size ∧ t'.ty r = ty ∧
      ∀ ρ, Respects t ρ → ∀ v, evalExpr F t (denote F t ρ) ty e c = some v → denote F t' ρ r = some v := by
  have ht : Invariant F t := ⟨hb.good, hb.sound⟩
  -- the root may be an unnormalized division; every other expression keeps the invariant
  have key : ∃ r t', foldCarrier host ty e c t = some (r, t') ∧ t.Extends t' ∧ t'.Good ∧
      Holds F t' ty (evalExpr F t · ty e c) r := by
    by_cases hfit : t.DivisionFits F ty e
    · obtain ⟨r, t', hm, hx, ht', h⟩ := yields_foldCarrier hF ht he hw hc hfit
      exact ⟨r, t', hm, hx, ht'.good, h⟩
    · rw [foldCarrier, Folder.foldResult]
      exact Folder.foldStep_division hF ht he hw hc hfit
  obtain ⟨r, t', hm, hx, hgood, h⟩ := key
  refine ⟨r, t', hm, hx, h.lt, h.ty_eq, ?_⟩
  intro ρ hρ v hv
  have hσ := denote_valuation (F := F) hgood (hρ.extends hx)
  refine h.value hσ ?_
  rw [← hv]
  exact evalExpr_congr fun i hi => denote_extends hb.good hgood hx hρ (he i hi)

/-- A table of one parameter whose carrier may hold any bits above its byte. -/
def byteParameter : ValueTable := (ValueTable.empty.push ⟨.i8, .parameter 0 0⟩).2

theorem byteParameter_built (F : Floating) : byteParameter.Built F :=
  .push (v := ⟨.i8, .parameter 0 0⟩) .empty trivial (by simp)

/-- A parameter masked by itself is folded to the parameter. -/
theorem foldCarrier_denote_byteParameter :
    foldCarrier .uncommitted .i8 (.binary (.bitwise .and) 0 0) 0 byteParameter = some (0, byteParameter) ∧
      ∀ ρ, Respects byteParameter ρ → ∀ v,
        evalExpr .uncommitted byteParameter (denote .uncommitted byteParameter ρ) .i8 (.binary (.bitwise .and) 0 0) 0 =
          some v → denote .uncommitted byteParameter ρ 0 = some v := by
  have hfold : foldCarrier .uncommitted .i8 (.binary (.bitwise .and) 0 0) 0 byteParameter = some (0, byteParameter) := rfl
  obtain ⟨r, t', hrun, -, -, -, hdenote⟩ := @foldCarrier_denote .uncommitted .uncommitted (.refl _) byteParameter
    (byteParameter_built _) .i8 (.binary (.bitwise .and) 0 0) 0 (by decide) (by decide) (by decide)
  obtain ⟨rfl, rfl⟩ := Prod.mk.inj (Option.some.inj (hrun.symm.trans hfold))
  exact ⟨hfold, hdenote⟩

/-- The parameter divided by three, without normalization. -/
def dirtyQuotient : ValueTable :=
  ((byteParameter.literal .i8 3).2.intern ⟨.i8, .expression (.binary (.integer .divUnsigned) 0 1)⟩).2

/-- Over an unnormalized dividend a fold may lose a mask: the quotient records eight bits and has more. -/
theorem foldCarrier_dirtyQuotient :
    (byteParameter.literal .i8 3).2.Admissible ⟨.i8, .expression (.binary (.integer .divUnsigned) 0 1)⟩ ∧
      Respects dirtyQuotient (fun _ => 0xFFFFFFFF) ∧
      ((Expression.unary (.lowBits 8) 2).map dirtyQuotient.ty).wellTyped .i8 = true ∧
      evalExpr .uncommitted dirtyQuotient (denote .uncommitted dirtyQuotient fun _ => 0xFFFFFFFF) .i8
        (.unary (.lowBits 8) 2) 0 = some 0x55 ∧
      (foldCarrier .uncommitted .i8 (.unary (.lowBits 8) 2) 0 dirtyQuotient).map (fun r =>
        denote .uncommitted r.2 (fun _ => 0xFFFFFFFF) r.1) = some (some 0x55555555) := by
  refine ⟨⟨by decide, by decide⟩, ?_, by decide, by decide +kernel, by decide +kernel⟩
  unfold Respects
  decide +kernel

end Relocade.Compiler
