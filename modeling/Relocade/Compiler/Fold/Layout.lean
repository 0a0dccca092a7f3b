import Relocade.Compiler.Fold.Lanes

/-!
# `Compiler.Fold.Layout` — known byte and bit selections

Selections by a constant recover immediate lane operations.
-/

namespace Relocade.Compiler

open Words

namespace Folder

/-- A zero vector when `needed`, else the value itself. -/
def zeroOr (needed : Bool) (input : Nat) : Construct Nat := if needed then literal .v128 0 else pure input

/-- A byte shuffle with literal indices. -/
def foldShuffleBytes (self : Fold) (ty inputType : Ty) (left right indices : Nat) : Construct (Option Nat) := do
  let t ← get
  match vectorLiteral t indices with
  | none => pure none
  | some bits =>
      let index := fun i => lane 8 i bits
      let width := inputType.bits / 8
      let hasLeft := (List.range 16).any fun i => index i < width
      let hasRight := (List.range 16).any fun i => width ≤ index i ∧ index i < width * 2
      let hasZero := (List.range 16).any fun i => width * 2 ≤ index i
      let same : Bool := t.representation left = t.representation right
      if ¬ hasLeft ∧ ¬ hasRight then some <$> literal ty 0
      else if ¬ hasLeft ∨ ¬ hasRight ∨ same then do
        let input := if hasLeft then left else right
        let other ← zeroOr hasZero input
        let mask := ShuffleMask.ofIndices fun i =>
          if index i < width * 2 then index i % width else 16 ||| (index i &&& 15)
        some <$> self ty (.binary (.shuffleImmediate mask) input other) 0
      else do
        let mask := ShuffleMask.ofIndices fun i =>
          if index i < width then index i else if index i < width * 2 then 16 + index i - width else 0
        let result ← self ty (.binary (.shuffleImmediate mask) left right) 0
        -- An immediate shuffle names two inputs. A third source of zero bytes needs an explicit mask.
        if hasZero then do
          let mask ← literal .v128 (pack 8 (fun i => if index i < width * 2 then 255 else 0) 16)
          some <$> self ty (.binary (.bitwise .and) result mask) 0
        else pure (some result)

/-- A swizzle with literal indices. -/
def foldSwizzle (self : Fold) (ty inputType : Ty) (input indices : Nat) : Construct (Option Nat) := do
  let t ← get
  if vectorLiteral t input = some 0 then pure (some input)
  else
    match vectorLiteral t indices with
    | none => pure none
    | some bits =>
        let index := fun i => lane 8 i bits
        let width := inputType.bits / 8
        if (List.range 16).all fun i => width ≤ index i then some <$> literal .v128 0
        else if width = 16 ∧ (List.range 16).all fun i => index i = i then pure (some input)
        else do
          let right ← zeroOr ((List.range 16).any fun i => width ≤ index i) input
          let mask := ShuffleMask.ofIndices fun i => if index i < width then index i else 16 ||| (index i &&& 15)
          some <$> self ty (.binary (.shuffleImmediate mask) input right) 0

/-- The lane type of a run of ones. -/
def laneOfWidth : Nat → Option Ty
  | 8 => some .i8
  | 16 => some .i16
  | 32 => some .i32
  | 64 => some .i64
  | _ => none

/-- The scalar that a one-lane mask selects from a splat or a literal. -/
def selectedScalar (mask offset whenTrue : Nat) : Construct (Option (Nat × Ty)) := do
  let t ← get
  match t.definition whenTrue with
  | .expression (.unary (.splat laneType) input) => pure (some (input, laneType))
  | .literal bits =>
      match laneOfWidth (trailingOnes 128 (mask >>> offset)) with
      | none => pure none
      | some laneType => do
          let input ← literal laneType (bits >>> offset % 2 ^ 64)
          pure (some (input, laneType))
  | _ => pure none

/-- A bit selection with a literal mask or equal operands. -/
def foldSelectBits (self : Fold) (ty : Ty) (mask whenTrue whenFalse : Nat) : Construct (Option Nat) := do
  let t ← get
  if whenTrue = whenFalse then pure (some whenTrue)
  else
    match vectorLiteral t mask with
    | none => pure none
    | some mask =>
        if mask = 0 then pure (some whenFalse)
        else if mask = 2 ^ 128 - 1 then pure (some whenTrue)
        else do
          let offset := Integer.trailingZeros 128 mask
          match ← selectedScalar mask offset whenTrue with
          | none => pure none
          | some (input, laneType) =>
              if offset % laneType.bits ≠ 0 ∨ mask ≠ laneType.mask <<< offset then pure none
              else
                some <$> self ty (.binary (.replaceLane laneType (offset / laneType.bits)) whenFalse input) 0

variable {F : Floating} {t : ValueTable} {ty : Ty} {self : Fold} {n left right input : Nat} {σ : Nat → Option Nat}

/-! ## Bytes -/

theorem width_of_vector {a : Ty} (ha : a.carrier = .v128) : a.bits / 8 = 8 ∨ a.bits / 8 = 16 := by
  revert ha
  cases a <;> decide

theorem zeroByte_lt (k : Nat) : 16 ||| (k &&& 15) = 16 + k % 16 := by
  rw [show k &&& 15 = k % 16 from Nat.and_two_pow_sub_one_eq_mod k 4]
  exact (Nat.two_pow_add_eq_or_of_lt (i := 4) (Nat.mod_lt k (by decide)) 1).symm

/-- Bytes selected by an immediate mask, as the shuffle reads it. -/
theorem routed_ofIndices {f : Nat → Nat} {x y i : Nat} (hi : i < 16) (hf : f i < 32) :
    Packed.routed x y ((ShuffleMask.ofIndices f).index i) = Packed.routed x y (f i) := by
  rw [ShuffleMask.index_ofIndices _ hi, Nat.mod_eq_of_lt hf]

theorem shuffle_ofIndices {f g : Nat → Nat} {x y : Nat} (hf : ∀ i < 16, f i < 32)
    (h : ∀ i < 16, Packed.routed x y (f i) = g i) :
    Packed.shuffle x y (.ofIndices f) = pack 8 g 16 := by
  refine pack_congr fun i hi => ?_
  rw [routed_ofIndices hi (hf i hi), h i hi]

theorem routed_zero (x k : Nat) : Packed.routed x 0 (16 + k % 16) = 0 := by
  rw [Packed.routed, if_neg (by omega), lane_zero]

theorem routed_low {x y k : Nat} (hk : k < 16) : Packed.routed x y k = lane 8 k x := by
  rw [Packed.routed, if_pos (by omega), Nat.mod_eq_of_lt hk]

theorem routed_high {x y k : Nat} (hk : k < 16) : Packed.routed x y (16 + k) = lane 8 k y := by
  rw [Packed.routed, if_neg (by omega), Nat.add_mod_left, Nat.mod_eq_of_lt hk]

/-- The optional zero vector. -/
theorem yields_zeroOr (ht : Invariant F t) (needed : Bool) (hin : input < t.size)
    (hc : (t.ty input).carrier = .v128) :
    Yields F t (zeroOr needed input) fun r t' => r < t'.size ∧ (t'.ty r).carrier = .v128 ∧
      ∀ σ, Valuation F t' σ → ∀ x, σ input = some x → σ r = some (if needed then 0 else x) := by
  unfold zeroOr
  split
  · refine (yields_literal ht .v128 0).mono ?_
    rintro r t' - - ⟨h, -⟩
    refine ⟨h.lt, by rw [h.ty_eq]; rfl, fun σ hσ x _ => h.value hσ rfl⟩
  · exact Yields.pure ht ⟨hin, hc, fun _ _ _ h => h⟩

theorem and_pack {f g : Nat → Nat} {m : Nat} : pack 8 f m &&& pack 8 g m = pack 8 (fun i => f i &&& g i) m := by
  apply Nat.eq_of_testBit_eq
  intro k
  rw [Nat.testBit_and, testBit_pack (by decide), testBit_pack (by decide), testBit_pack (by decide), Nat.testBit_and]
  cases decide (k / 8 < m) <;> simp

/-- Byte `k` of a selection that reads one input, with zero bytes in the second. -/
theorem routed_one_source {w k x y z o : Nat} (hw : w = 8 ∨ w = 16) (hleft : k < w → z = x)
    (hright : w ≤ k → k < w * 2 → z = y) (hzero : w * 2 ≤ k → o = 0) :
    (if k < w * 2 then k % w else 16 ||| (k &&& 15)) < 32 ∧
      Packed.routed z o (if k < w * 2 then k % w else 16 ||| (k &&& 15)) = Packed.selected w x y k := by
  have hmod : k % w < w := Nat.mod_lt _ (by omega)
  rw [Packed.selected]
  by_cases h2 : k < w * 2
  · rw [if_pos h2, routed_low (by omega)]
    refine ⟨by omega, ?_⟩
    by_cases h1 : k < w
    · rw [if_pos h1, Nat.mod_eq_of_lt h1, hleft h1]
    · rw [if_neg h1, if_pos h2, hright (by omega) h2, Nat.mod_eq_sub_mod (by omega), Nat.mod_eq_of_lt (by omega)]
  · rw [if_neg h2, if_neg (by omega), if_neg h2, zeroByte_lt, hzero (by omega)]
    exact ⟨by omega, routed_zero z k⟩

/-- Byte `k` of a selection that reads two inputs; zero bytes are masked afterwards. -/
theorem routed_two_sources {w k x y : Nat} (hw : w = 8 ∨ w = 16) :
    (if k < w then k else if k < w * 2 then 16 + k - w else 0) < 32 ∧
      Packed.routed x y (if k < w then k else if k < w * 2 then 16 + k - w else 0) &&& (if k < w * 2 then 255 else 0) =
        Packed.selected w x y k ∧
      (k < w * 2 → Packed.routed x y (if k < w then k else if k < w * 2 then 16 + k - w else 0) =
        Packed.selected w x y k) := by
  have hbyte : ∀ j u : Nat, lane 8 j u &&& 255 = lane 8 j u := fun j u => by
    rw [show (255 : Nat) = 2 ^ 8 - 1 from rfl, Nat.and_two_pow_sub_one_eq_mod, Nat.mod_eq_of_lt (lane_lt 8 j u)]
  rw [Packed.selected]
  by_cases h1 : k < w
  · rw [if_pos h1, if_pos h1, if_pos (by omega), routed_low (by omega), hbyte]
    exact ⟨by omega, rfl, fun _ => rfl⟩
  by_cases h2 : k < w * 2
  · simp only [if_neg h1, if_pos h2]
    rw [show 16 + k - w = 16 + (k - w) by omega, routed_high (by omega), hbyte]
    exact ⟨by omega, rfl, fun _ => rfl⟩
  · simp only [if_neg h1, if_neg h2]
    exact ⟨by decide, Nat.and_zero _, fun h => absurd h (by omega)⟩

theorem any_range {p : Nat → Bool} : (List.range 16).any p = true ↔ ∃ i < 16, p i = true := by
  simp [List.any_eq_true]

theorem yields_foldShuffleBytes (hself : FoldsBelow F n self) (ht : Invariant F t) {a : Ty} {indices : Nat}
    (hl : left < t.size) (hr : right < t.size) (hi : indices < t.size)
    (hw : TernaryOp.wellTyped (.shuffle a) (t.ty left) (t.ty right) (t.ty indices) ty = true) (hn : 1 < n) :
    Yields F t (foldShuffleBytes self ty a left right indices)
      (Rewrites F ty (evalExpr F t · ty (.ternary (.shuffle a) left right indices) 0)) := by
  have hw' := hw
  simp only [TernaryOp.wellTyped, Bool.and_eq_true, decide_eq_true_eq] at hw'
  obtain ⟨⟨⟨⟨ha, hcl⟩, hcr⟩, hci⟩, hty⟩ := hw'
  have hwidth := width_of_vector ha
  refine Yields.get ?_
  split
  · exact Yields.pure ht Rewrites.none
  next bits hbits =>
  have hops : ∀ {σ v}, Valuation F t σ → evalExpr F t σ ty (.ternary (.shuffle a) left right indices) 0 = some v →
      ∃ x y, σ left = some x ∧ σ right = some y ∧
        v = pack 8 (fun i => Packed.selected (a.bits / 8) x y (lane 8 i bits)) 16 := by
    intro σ v hσ hv
    obtain ⟨x, hx⟩ := evalExpr_inputs hv left (by simp)
    obtain ⟨y, hy⟩ := evalExpr_inputs hv right (by simp)
    have hz := value_of_vectorLiteral hσ hi hbits
    rw [eval_shuffleBytes hx hy hz (ht.carrier_lt hσ hl hx) (ht.carrier_lt hσ hr hy) (ht.carrier_lt hσ hi hz) hw] at hv
    exact ⟨x, y, hx, hy, (Option.some.inj hv).symm⟩
  dsimp only
  generalize a.bits / 8 = w at *
  generalize hleft : (List.range 16).any (fun i => decide (lane 8 i bits < w)) = hasLeft
  generalize hright : (List.range 16).any
    (fun i => decide (w ≤ lane 8 i bits ∧ lane 8 i bits < w * 2)) = hasRight
  generalize hzero : (List.range 16).any (fun i => decide (w * 2 ≤ lane 8 i bits)) = hasZero
  have left_of : ∀ i < 16, lane 8 i bits < w → hasLeft = true := fun i hi h =>
    hleft ▸ any_range.mpr ⟨i, hi, decide_eq_true h⟩
  have right_of : ∀ i < 16, w ≤ lane 8 i bits → lane 8 i bits < w * 2 → hasRight = true := fun i hi h h' =>
    hright ▸ any_range.mpr ⟨i, hi, decide_eq_true ⟨h, h'⟩⟩
  have zero_of : ∀ i < 16, w * 2 ≤ lane 8 i bits → hasZero = true := fun i hi h =>
    hzero ▸ any_range.mpr ⟨i, hi, decide_eq_true h⟩
  -- an immediate shuffle of vectors
  have hws : ∀ (mask : ShuffleMask) {t' : ValueTable} {i j : Nat}, (t'.ty i).carrier = .v128 → (t'.ty j).carrier = .v128 →
      BinaryOp.wellTyped (.shuffleImmediate mask) (t'.ty i) (t'.ty j) ty = true := by
    intro mask t' i j h₁ h₂
    simp [BinaryOp.wellTyped, h₁, h₂, hty]
  split
  · next hnone =>
      -- every byte is zero
      refine yields_some ((yields_literal ht ty 0).mono ?_)
      rintro r t' hx ht' ⟨hz, -⟩
      refine Holds.converts ⟨hz.lt, hz.ty_eq, ?_⟩ ht'
      intro σ v hσ hσv
      obtain ⟨x, y, -, -, rfl⟩ := hops (hσ.restrict ht.good hx) hσv
      rw [pack_zero, hz.value hσ rfl, Nat.zero_mod]
      intro i hi
      have h₁ : ¬ lane 8 i bits < w := fun h => hnone.1 (left_of i hi h)
      have h₂ : ¬ lane 8 i bits < w * 2 := fun h => hnone.2 (right_of i hi (by omega) h)
      rw [Packed.selected, if_neg h₁, if_neg h₂, Nat.zero_mod]
  split
  · next hone =>
      -- one input, and possibly zero bytes
      have hin : (if hasLeft = true then left else right) < t.size := by split <;> assumption
      have hcin : (t.ty (if hasLeft = true then left else right)).carrier = .v128 := by split <;> assumption
      refine Yields.bind (yields_zeroOr ht hasZero hin hcin) ?_
      rintro other t₁ hx₁ ht₁ ⟨ho, hco, hother⟩
      have hw₁ := hws (.ofIndices fun i =>
        if lane 8 i bits < w * 2 then lane 8 i bits % w else 16 ||| (lane 8 i bits &&& 15))
        (by rw [hx₁.ty_eq hin]; exact hcin) hco
      refine yields_some ((hself (e := .binary (.shuffleImmediate _) _ other) ht₁
        (by simp [ho, hx₁.lt hin]) hw₁ Nat.one_pos (fun _ _ => trivial)
        (by simp only [ValueTable.foldDepth]; omega)).mono ?_)
      intro r t' hx ht' hres
      refine Holds.converts ⟨hres.lt, hres.ty_eq, ?_⟩ ht'
      intro σ v hσ hσv
      have hσ₁ := hσ.restrict ht₁.good hx
      have hσ₀ := hσ₁.restrict ht.good hx₁
      obtain ⟨x, y, hxv, hyv, rfl⟩ := hops hσ₀ hσv
      have hz : ∃ z, σ (if hasLeft = true then left else right) = some z ∧ (hasLeft = true → z = x) ∧
          (hasRight = true → z = y) := by
        by_cases hL : hasLeft = true
        · refine ⟨x, by rw [if_pos hL, hxv], fun _ => rfl, fun hR => ?_⟩
          have hsame : t.representation left = t.representation right := by
            rcases hone with h | h | h
            · exact absurd hL h
            · exact absurd hR h
            · exact of_decide_eq_true h
          exact ValueTable.eq_of_representation ht hσ₀ hl hr hsame hxv hyv
        · exact ⟨y, by rw [if_neg hL, hyv], fun h => absurd h hL, fun _ => rfl⟩
      obtain ⟨z, hzv, hzl, hzr⟩ := hz
      have hov := hother σ hσ₁ z hzv
      refine hres.value hσ ?_
      rw [eval_shuffleImmediate hzv hov (ht₁.carrier_lt hσ₁ (hx₁.lt hin) hzv) (ht₁.carrier_lt hσ₁ ho hov) hw₁]
      have hbyte := fun i (hi : i < 16) => routed_one_source (k := lane 8 i bits) (x := x) (y := y) (z := z)
        (o := if hasZero = true then 0 else z) hwidth (fun h => hzl (left_of i hi h))
        (fun h h' => hzr (right_of i hi h h')) (fun h => if_pos (zero_of i hi h))
      exact congrArg some (shuffle_ofIndices (fun i hi => (hbyte i hi).1) fun i hi => (hbyte i hi).2)
  · -- two inputs, and possibly zero bytes
    have hw₁ := hws (.ofIndices fun i =>
      if lane 8 i bits < w then lane 8 i bits else if lane 8 i bits < w * 2 then 16 + lane 8 i bits - w else 0) hcl hcr
    refine Yields.bind (hself (e := .binary (.shuffleImmediate _) left right) ht
      (by simp [hl, hr]) hw₁ Nat.one_pos (fun _ _ => trivial) (by simp only [ValueTable.foldDepth]; omega)) ?_
    intro result t₁ hx₁ ht₁ hres
    have hroute := fun x y i => routed_two_sources (k := lane 8 i bits) (x := x) (y := y) hwidth
    have hshuffle : ∀ {x y : Nat}, Packed.shuffle x y (.ofIndices fun i =>
        if lane 8 i bits < w then lane 8 i bits else if lane 8 i bits < w * 2 then 16 + lane 8 i bits - w else 0) =
        pack 8 (fun i => Packed.routed x y (if lane 8 i bits < w then lane 8 i bits
          else if lane 8 i bits < w * 2 then 16 + lane 8 i bits - w else 0)) 16 := by
      intro x y
      exact shuffle_ofIndices (fun i _ => (hroute x y i).1) fun _ _ => rfl
    have hresv : ∀ {σ x y}, Valuation F t₁ σ → σ left = some x → σ right = some y → σ result = some (pack 8
        (fun i => Packed.routed x y (if lane 8 i bits < w then lane 8 i bits
          else if lane 8 i bits < w * 2 then 16 + lane 8 i bits - w else 0)) 16) := by
      intro σ x y hσ hxv hyv
      have hσ₀ := hσ.restrict ht.good hx₁
      refine hres.value hσ ?_
      rw [eval_shuffleImmediate hxv hyv (ht.carrier_lt hσ₀ hl hxv) (ht.carrier_lt hσ₀ hr hyv) hw₁, hshuffle]
    split
    · refine Yields.bind (yields_literal ht₁ .v128 _) ?_
      rintro mask t₂ hx₂ ht₂ ⟨hmask, -⟩
      have hres₂ := hres.extends ht₁.good hx₂
      have hw₂ : BinaryOp.wellTyped (.bitwise .and) (t₂.ty result) (t₂.ty mask) ty = true := by
        simp [BinaryOp.wellTyped, hres₂.ty_eq, hmask.ty_eq, hty]
      refine yields_some ((hself (e := .binary (.bitwise .and) result mask) ht₂
        (by simp [hres₂.lt, hmask.lt]) hw₂ Nat.one_pos (fun _ _ => trivial)
        (by simp only [ValueTable.foldDepth]; exact hn)).mono ?_)
      intro r t' hx ht' hr'
      refine Holds.converts ⟨hr'.lt, hr'.ty_eq, ?_⟩ ht'
      intro σ v hσ hσv
      have hσ₂ := hσ.restrict ht₂.good hx
      have hσ₁ := hσ₂.restrict ht₁.good hx₂
      obtain ⟨x, y, hxv, hyv, rfl⟩ := hops (hσ₁.restrict ht.good hx₁) hσv
      have hrv := hresv hσ₁ hxv hyv
      have hmv := hmask.value hσ₂ rfl
      refine hr'.value hσ ?_
      rw [eval_bitwise hrv hmv (ht₂.carrier_lt hσ₂ hres₂.lt hrv) (ht₂.carrier_lt hσ₂ hmask.lt hmv) hw₂]
      rw [show Ty.v128.bits = 16 * 8 from rfl, Nat.mod_eq_of_lt (pack_lt _ 16)]
      refine congrArg some ?_
      rw [BitwiseOp.apply, and_pack]
      exact pack_congr fun i _ => by rw [(hroute x y i).2.1]
    · next hnz =>
        refine Yields.pure ht₁ (Rewrites.some (Holds.converts ⟨hres.lt, hres.ty_eq, ?_⟩ ht₁))
        intro σ v hσ hσv
        obtain ⟨x, y, hxv, hyv, rfl⟩ := hops (hσ.restrict ht.good hx₁) hσv
        rw [hresv hσ hxv hyv]
        refine congrArg some (pack_congr fun i hi => ?_)
        have hlt : lane 8 i bits < w * 2 := Nat.not_le.mp fun h => hnz (zero_of i hi h)
        rw [(hroute x y i).2.2 hlt]

/-! ## Dynamic byte selection by constants -/

theorem yields_foldSwizzle (hself : FoldsBelow F n self) (ht : Invariant F t) {a : Ty} {indices : Nat}
    (hin : input < t.size) (hi : indices < t.size)
    (hw : BinaryOp.wellTyped (.swizzle a) (t.ty input) (t.ty indices) ty = true) (hn : 0 < n) :
    Yields F t (foldSwizzle self ty a input indices)
      (Rewrites F ty (evalExpr F t · ty (.binary (.swizzle a) input indices) 0)) := by
  have hw' := hw
  simp only [BinaryOp.wellTyped, Bool.and_eq_true, decide_eq_true_eq] at hw'
  obtain ⟨⟨⟨ha, hcl⟩, hci⟩, hty⟩ := hw'
  have hwidth := width_of_vector ha
  have hops : ∀ {σ v}, Valuation F t σ → evalExpr F t σ ty (.binary (.swizzle a) input indices) 0 = some v →
      ∃ x z, σ input = some x ∧ σ indices = some z ∧ x < 2 ^ 128 ∧ v = Packed.swizzle a x z := by
    intro σ v hσ hv
    obtain ⟨x, hx, hxlt⟩ := ht.operand hσ hv hin (by simp)
    obtain ⟨z, hz⟩ := evalExpr_inputs hv indices (by simp)
    rw [eval_swizzle hx hz hxlt (ht.carrier_lt hσ hi hz) hw] at hv
    rw [hcl] at hxlt
    exact ⟨x, z, hx, hz, hxlt, (Option.some.inj hv).symm⟩
  -- the input itself
  have same : (∀ {σ x z}, Valuation F t σ → σ input = some x → σ indices = some z → x < 2 ^ 128 →
        Packed.swizzle a x z = x) →
      Yields F t (pure (some input)) (Rewrites F ty (evalExpr F t · ty (.binary (.swizzle a) input indices) 0)) := by
    intro hv
    have hc' := hcl.trans hty.symm
    refine Yields.pure ht (Rewrites.some (Converts.of_value ht hin
      (Or.inr ⟨hc', convert_wellTyped hc' (by rw [hty]; decide)⟩) ?_))
    intro σ v hσ hσv
    obtain ⟨x, z, hx, hz, hxlt, rfl⟩ := hops hσ hσv
    rw [hv hσ hx hz hxlt, hx]
  refine Yields.get ?_
  split
  · next hzero =>
      refine same ?_
      intro σ x z hσ hx _ _
      rw [value_of_vectorLiteral hσ hin hzero] at hx
      obtain rfl := Option.some.inj hx
      exact pack_zero fun i _ => by simp [lane_zero]
  split
  · exact Yields.pure ht Rewrites.none
  next bits hbits =>
  have hidx : ∀ {σ z}, Valuation F t σ → σ indices = some z → z = bits := by
    intro σ z hσ hz
    rw [value_of_vectorLiteral hσ hi hbits] at hz
    exact (Option.some.inj hz).symm
  dsimp only
  have hswizzle : ∀ x, Packed.swizzle a x bits =
      pack 8 (fun i => Packed.selected (a.bits / 8) x 0 (lane 8 i bits)) 16 := by
    intro x
    refine pack_congr fun i _ => ?_
    simp only [Packed.selected, lane_zero, ite_self]
  generalize a.bits / 8 = w at *
  split
  · next hall =>
      -- every index is out of range
      refine yields_some ((yields_literal ht .v128 0).mono ?_)
      rintro r t' hx ht' ⟨hz, -⟩
      refine ⟨hz.lt, Or.inr ?_, ?_⟩
      · rw [hz.ty_eq]
        exact convert_wellTyped (by rw [hty]; rfl) (by rw [hty]; decide)
      intro σ v hσ hσv
      have hσ₀ := hσ.restrict ht.good hx
      obtain ⟨x, z, -, hzv, -, rfl⟩ := hops hσ₀ hσv
      obtain rfl := hidx hσ₀ hzv
      refine ⟨0, hz.value hσ rfl, ?_⟩
      rw [hswizzle, pack_zero, Nat.zero_mod]
      intro i hi
      have := List.all_eq_true.mp hall i (List.mem_range.mpr hi)
      have hle : w ≤ lane 8 i z := of_decide_eq_true this
      rw [Packed.selected, if_neg (by omega), lane_zero, ite_self, Nat.zero_mod]
  split
  · next hident =>
      obtain ⟨rfl, hall⟩ := hident
      refine same ?_
      intro σ x z hσ hx hz hxlt
      obtain rfl := hidx hσ hz
      rw [hswizzle]
      conv_rhs => rw [← pack_lane (w := 8) (n := 16) (by decide) hxlt]
      refine pack_congr fun i hi => ?_
      have hlane : lane 8 i z = i := by
        have := List.all_eq_true.mp hall i (List.mem_range.mpr hi)
        exact of_decide_eq_true this
      rw [Packed.selected, hlane, if_pos hi]
  · generalize hzero : (List.range 16).any (fun i => decide (w ≤ lane 8 i bits)) = hasZero
    have zero_of : ∀ i < 16, w ≤ lane 8 i bits → hasZero = true := fun i hi h =>
      hzero ▸ any_range.mpr ⟨i, hi, decide_eq_true h⟩
    refine Yields.bind (yields_zeroOr ht hasZero hin hcl) ?_
    rintro other t₁ hx₁ ht₁ ⟨ho, hco, hother⟩
    have hw₁ : BinaryOp.wellTyped (.shuffleImmediate (.ofIndices fun i =>
        if lane 8 i bits < w then lane 8 i bits else 16 ||| (lane 8 i bits &&& 15))) (t₁.ty input) (t₁.ty other) ty =
        true := by
      simp [BinaryOp.wellTyped, hx₁.ty_eq hin, hcl, hco, hty]
    refine yields_some ((hself (e := .binary (.shuffleImmediate _) input other) ht₁
      (by simp [ho, hx₁.lt hin]) hw₁ Nat.one_pos (fun _ _ => trivial)
      (by simp only [ValueTable.foldDepth]; omega)).mono ?_)
    intro r t' hx ht' hres
    refine Holds.converts ⟨hres.lt, hres.ty_eq, ?_⟩ ht'
    intro σ v hσ hσv
    have hσ₁ := hσ.restrict ht₁.good hx
    have hσ₀ := hσ₁.restrict ht.good hx₁
    obtain ⟨x, z, hxv, hzv, -, rfl⟩ := hops hσ₀ hσv
    obtain rfl := hidx hσ₀ hzv
    have hov := hother σ hσ₁ x hxv
    refine hres.value hσ ?_
    rw [eval_shuffleImmediate hxv hov (ht₁.carrier_lt hσ₁ (hx₁.lt hin) hxv) (ht₁.carrier_lt hσ₁ ho hov) hw₁, hswizzle]
    refine congrArg some (shuffle_ofIndices (fun i _ => ?_) fun i hi => ?_)
    · split
      · omega
      · rw [zeroByte_lt]
        omega
    · rw [Packed.selected]
      by_cases hlt : lane 8 i z < w
      · rw [if_pos hlt, if_pos hlt, routed_low (by omega)]
      · rw [if_neg hlt, if_neg hlt, if_pos (zero_of i hi (by omega)), zeroByte_lt, routed_zero, lane_zero, ite_self]

/-! ## Bit selection by constants -/

theorem laneOfWidth_eq_some {w : Nat} {a : Ty} (h : laneOfWidth w = some a) : a.isLane = true ∧ a.bits = w := by
  unfold laneOfWidth at h
  split at h <;> first
    | (obtain rfl := Option.some.inj h; exact ⟨rfl, rfl⟩)
    | cases h

/-- The scalar that a run of ones at `offset` selects: every lane position reads it. -/
theorem yields_selectedScalar (ht : Invariant F t) (mask offset : Nat) {whenTrue : Nat} (hin : whenTrue < t.size) :
    Yields F t (selectedScalar mask offset whenTrue) fun r t' => ∀ input a, r = some (input, a) →
      a.isLane = true ∧ input < t'.size ∧ (t'.ty input).carrier = a.carrier ∧
        ∀ σ, Valuation F t' σ → ∀ x, σ whenTrue = some x → ∃ u, σ input = some u ∧
          (offset % a.bits = 0 → offset + a.bits ≤ 128 → u % 2 ^ a.bits = lane a.bits (offset / a.bits) x) := by
  unfold selectedScalar
  refine Yields.get ?_
  split
  · next a input hdef =>
      have hval := ValueTable.value_eq_iff.mpr ⟨rfl, hdef⟩
      have hlt := ht.good.inputs_lt hin hval input (by simp)
      have hw : UnaryOp.wellTyped (.splat a) (t.ty input) (t.ty whenTrue) = true := ht.good.typed hin hval
      have hw' := hw
      simp only [UnaryOp.wellTyped, Bool.and_eq_true, decide_eq_true_eq] at hw'
      refine Yields.pure ht ?_
      rintro input' a' h
      simp only [Option.some.injEq, Prod.mk.injEq] at h
      obtain ⟨rfl, rfl⟩ := h
      refine ⟨hw'.1.1, by omega, hw'.1.2, fun σ hσ x hx => ?_⟩
      rw [hσ.expression hin hval] at hx
      obtain ⟨u, hu⟩ := evalExpr_inputs hx input (by simp)
      rw [eval_splat hu (ht.carrier_lt hσ (by omega) hu) hw] at hx
      obtain rfl := Option.some.inj hx
      refine ⟨u, hu, fun hdvd hle => ?_⟩
      rw [Packed.splat, lane_pack a.bits_pos]
      rw [Nat.div_lt_div_right a.bits_pos.ne' (Nat.dvd_of_mod_eq_zero hdvd) (Dvd.intro_left _ (Ty.lanes_mul a))]
      have := a.bits_pos
      omega
  · next bits hdef =>
      split
      · exact Yields.pure ht fun _ _ h => absurd h (by simp)
      next a ha =>
      obtain ⟨hlane, hbits⟩ := laneOfWidth_eq_some ha
      refine Yields.bind (yields_literal ht a _) ?_
      rintro input t' hx ht' ⟨hres, -⟩
      refine Yields.pure ht' ?_
      rintro input' a' h
      simp only [Option.some.injEq, Prod.mk.injEq] at h
      obtain ⟨rfl, rfl⟩ := h
      refine ⟨hlane, hres.lt, by rw [hres.ty_eq], fun σ hσ x hxv => ?_⟩
      have hx0 := (hσ.restrict ht.good hx).literal hin (ValueTable.value_eq_iff.mpr ⟨rfl, hdef⟩)
      rw [hx0] at hxv
      obtain rfl := Option.some.inj hxv
      refine ⟨_, hres.value hσ rfl, fun hdvd _ => ?_⟩
      rw [Nat.mod_mod, mod_mod_two_pow (Ty.bits_of_isLane hlane).2, lane, Nat.div_mul_cancel (Nat.dvd_of_mod_eq_zero hdvd)]
  · exact Yields.pure ht fun _ _ h => absurd h (by simp)

/-- Selecting one lane of ones replaces that lane. -/
theorem select_lane {w l x y n : Nat} (hl : l * w + w ≤ 128) (hx : x < 2 ^ 128) (hy : y < 2 ^ 128)
    (hn : n % 2 ^ w = lane w l x) :
    x &&& (lowMask w <<< (l * w)) ||| y &&& (lowMask w <<< (l * w) ^^^ lowMask 128) = replace 128 w l y n := by
  apply Nat.eq_of_testBit_eq
  intro k
  rw [testBit_replace hl]
  simp only [Nat.testBit_or, Nat.testBit_and, Nat.testBit_xor, Nat.testBit_shiftLeft, testBit_lowMask]
  split
  · next h =>
      have hk : k - l * w < w := by omega
      have hk' : k < 128 := by omega
      have hb := Nat.testBit_mod_two_pow n w (k - l * w)
      rw [hn, testBit_lane, Nat.add_sub_cancel' h.1] at hb
      simp only [hk, decide_true, Bool.true_and] at hb
      simp [h.1, hk, hk', hb]
  · next h =>
      by_cases hk : k < 128
      · by_cases h1 : l * w ≤ k
        · have : ¬ k - l * w < w := by omega
          simp [h1, this, hk]
        · simp [h1, hk]
      · rw [testBit_of_lt hx (Nat.le_of_not_lt hk), testBit_of_lt hy (Nat.le_of_not_lt hk)]
        simp

/-- Selecting between a word and itself. -/
theorem select_same {m x z : Nat} (hx : x < 2 ^ m) : x &&& z ||| x &&& (z ^^^ lowMask m) = x := by
  apply Nat.eq_of_testBit_eq
  intro k
  simp only [Nat.testBit_or, Nat.testBit_and, Nat.testBit_xor, testBit_lowMask]
  by_cases hk : k < m
  · cases x.testBit k <;> cases z.testBit k <;> simp [hk]
  · rw [testBit_of_lt hx (Nat.le_of_not_lt hk)]
    simp

/-- A shifted run of ones ends inside the word that holds it. -/
theorem shifted_mask_le {w offset m : Nat} (hw : 0 < w) (h : lowMask w <<< offset < 2 ^ m) : offset + w ≤ m := by
  by_contra hlt
  have hk : m ≤ offset + (w - 1) := by omega
  have htop := testBit_of_lt h hk
  rw [Nat.testBit_shiftLeft, testBit_lowMask] at htop
  have : w - 1 < w := by omega
  simp [this] at htop

theorem yields_foldSelectBits (hself : FoldsBelow F n self) (ht : Invariant F t) {mask whenTrue whenFalse : Nat}
    (h₁ : whenTrue < t.size) (h₂ : whenFalse < t.size) (h₃ : mask < t.size)
    (hw : TernaryOp.wellTyped .bitselect (t.ty whenTrue) (t.ty whenFalse) (t.ty mask) ty = true)
    (hn : whenFalse < n) :
    Yields F t (foldSelectBits self ty mask whenTrue whenFalse)
      (Rewrites F ty (evalExpr F t · ty (.ternary .bitselect whenTrue whenFalse mask) 0)) := by
  have hw' := hw
  simp only [TernaryOp.wellTyped, Bool.and_eq_true, decide_eq_true_eq] at hw'
  obtain ⟨⟨⟨hc₁, hc₂⟩, hc₃⟩, hty⟩ := hw'
  have hops : ∀ {σ v}, Valuation F t σ →
      evalExpr F t σ ty (.ternary .bitselect whenTrue whenFalse mask) 0 = some v →
      ∃ x y z, σ whenTrue = some x ∧ σ whenFalse = some y ∧ σ mask = some z ∧ x < 2 ^ 128 ∧ y < 2 ^ 128 ∧
        v = x &&& z ||| y &&& (z ^^^ lowMask 128) := by
    intro σ v hσ hv
    obtain ⟨x, hx, hxlt⟩ := ht.operand hσ hv h₁ (by simp)
    obtain ⟨y, hy, hylt⟩ := ht.operand hσ hv h₂ (by simp)
    obtain ⟨z, hz⟩ := evalExpr_inputs hv mask (by simp)
    rw [eval_bitselect hx hy hz hxlt hylt (ht.carrier_lt hσ h₃ hz) hw] at hv
    rw [hc₁] at hxlt
    rw [hc₂] at hylt
    exact ⟨x, y, z, hx, hy, hz, hxlt, hylt, (Option.some.inj hv).symm⟩
  -- one of the two vectors as it is
  have same : ∀ {i : Nat}, i < t.size → (t.ty i).carrier = .v128 →
      (∀ {σ x y z}, Valuation F t σ → σ whenTrue = some x → σ whenFalse = some y → σ mask = some z → x < 2 ^ 128 →
        y < 2 ^ 128 → σ i = some (x &&& z ||| y &&& (z ^^^ lowMask 128))) →
      Yields F t (pure (some i))
        (Rewrites F ty (evalExpr F t · ty (.ternary .bitselect whenTrue whenFalse mask) 0)) := by
    intro i hi hc hv
    have hc' := hc.trans hty.symm
    refine Yields.pure ht (Rewrites.some (Converts.of_value ht hi
      (Or.inr ⟨hc', convert_wellTyped hc' (by rw [hty]; decide)⟩) ?_))
    intro σ v hσ hσv
    obtain ⟨x, y, z, hx, hy, hz, hxlt, hylt, rfl⟩ := hops hσ hσv
    exact hv hσ hx hy hz hxlt hylt
  refine Yields.get ?_
  split
  · next heq =>
      subst heq
      refine same h₁ hc₁ ?_
      intro σ x y z hσ hx hy _ hxlt _
      rw [hx] at hy
      obtain rfl := Option.some.inj hy
      rw [hx, select_same hxlt]
  split
  · exact Yields.pure ht Rewrites.none
  next bits hbits =>
  have hmask : ∀ {σ z}, Valuation F t σ → σ mask = some z → z = bits := by
    intro σ z hσ hz
    rw [value_of_vectorLiteral hσ h₃ hbits] at hz
    exact (Option.some.inj hz).symm
  split
  · next hzero =>
      refine same h₂ hc₂ ?_
      intro σ x y z hσ _ hy hz _ hylt
      rw [hmask hσ hz, hzero, hy, Nat.and_zero, Nat.zero_or, Nat.zero_xor, and_lowMask, Nat.mod_eq_of_lt hylt]
  split
  · next hones =>
      refine same h₁ hc₁ ?_
      intro σ x y z hσ hx _ hz hxlt _
      rw [hmask hσ hz, hones, hx, show 2 ^ 128 - 1 = lowMask 128 from rfl, Nat.xor_self, Nat.and_zero, Nat.or_zero,
        and_lowMask, Nat.mod_eq_of_lt hxlt]
  dsimp only
  generalize Integer.trailingZeros 128 bits = offset
  refine Yields.bind (yields_selectedScalar ht bits offset h₁) ?_
  intro selected t₁ hx₁ ht₁ hselected
  split
  · exact Yields.pure ht₁ Rewrites.none
  next input a =>
  obtain ⟨ha, hin, hci, hval⟩ := hselected input a rfl
  split
  · exact Yields.pure ht₁ Rewrites.none
  next hlane =>
  obtain ⟨hdvd, hbitsEq⟩ : offset % a.bits = 0 ∧ bits = a.mask <<< offset := by
    simpa only [not_or, not_not] using hlane
  have hoff : offset / a.bits * a.bits = offset := Nat.div_mul_cancel (Nat.dvd_of_mod_eq_zero hdvd)
  have hblt : bits < 2 ^ 128 := by
    have := ht.good.literal_lt h₃ (ValueTable.value_eq_iff.mpr ⟨rfl, vectorLiteral_eq_some hbits⟩)
    rwa [hc₃] at this
  have hle : offset + a.bits ≤ 128 := by
    rw [hbitsEq] at hblt
    exact shifted_mask_le a.bits_pos hblt
  have hw₁ : BinaryOp.wellTyped (.replaceLane a (offset / a.bits)) (t₁.ty whenFalse) (t₁.ty input) ty = true := by
    simp [BinaryOp.wellTyped, ha, hx₁.ty_eq h₂, hc₂, hci, hty, Nat.add_mul, hoff, hle]
  refine yields_some ((hself (e := .binary (.replaceLane a (offset / a.bits)) whenFalse input) ht₁
    (by simp [hx₁.lt h₂, hin]) hw₁ Nat.one_pos (fun _ _ => trivial)
    (by simp only [ValueTable.foldDepth]; exact hn)).mono ?_)
  intro r t' hx ht' hres
  refine Holds.converts ⟨hres.lt, hres.ty_eq, ?_⟩ ht'
  intro σ v hσ hσv
  have hσ₁ := hσ.restrict ht₁.good hx
  have hσ₀ := hσ₁.restrict ht.good hx₁
  obtain ⟨x, y, z, hxv, hyv, hzv, hxlt, hylt, rfl⟩ := hops hσ₀ hσv
  obtain ⟨u, hu, hlaneEq⟩ := hval σ hσ₁ x hxv
  refine hres.value hσ ?_
  rw [eval_replaceLane hyv hu (ht₁.carrier_lt hσ₁ (hx₁.lt h₂) hyv) (ht₁.carrier_lt hσ₁ hin hu) hw₁, hmask hσ₀ hzv,
    hbitsEq, Ty.mask]
  rw [← select_lane (by omega) hxlt hylt (hlaneEq hdvd hle), hoff]

end Folder

end Relocade.Compiler
