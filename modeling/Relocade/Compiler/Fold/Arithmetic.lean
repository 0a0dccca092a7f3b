import Relocade.Compiler.Fold.Bits

/-!
# `Compiler.Fold.Arithmetic` — algebraic rewrites

These rewrites preserve every result bit, so construction and path specialization can use them without repeating
logical normalization.
-/

namespace Relocade.Compiler

open Words

namespace Folder

/-- The width of a product, from the widths of its factors. -/
def productBits (isSigned : Bool) (left right : BitBounds) : Nat :=
  if isSigned then left.signed + right.signed else left.unsigned + right.unsigned

/-- The halves of a product that fits 64 bits. -/
def foldMultiplyWide (self : Fold) (isSigned : Bool) (left right component : Nat) : Construct (Option Nat) := do
  let t ← get
  let leftBounds := t.boundsOf left
  let rightBounds := t.boundsOf right
  -- A product that fits one carrier has only zero or sign bits above it. A factor restricted to zero or one also
  -- fits, even at full width.
  if productBits isSigned leftBounds rightBounds > 64 ∧ leftBounds.unsigned > 1 ∧ rightBounds.unsigned > 1 then pure none
  else if component = 1 ∧ ¬ isSigned then some <$> literal .i64 0
  else do
    let low ← self .i64 (.binary (.integer .mul) left right) 0
    if component = 0 then pure (some low)
    else do
      let count ← literal .i64 63
      some <$> self .i64 (.shift (.scalar .rightSigned) low count) 0

/-- The constant an addition or a subtraction offsets its other operand by. -/
def binaryOffset (operator : Integer.BinaryOp) (left right : Nat) (a b : Option Nat) : Option (Nat × Nat) :=
  match operator with
  | .add => besideLiteral left right a b
  | .sub => b.map fun offset => (left, (2 ^ 64 - offset) % 2 ^ 64)
  | _ => none

/-- Arithmetic with a constant or equal operands, or on fewer bits. -/
def foldBinary (self : Fold) (ty : Ty) (operator : Integer.BinaryOp) (left right : Nat) :
    Construct (Option Nat) := do
  let t ← get
  let a := t.representation left
  let b := t.representation right
  match binaryOffset operator left right (t.scalarLiteral a) (t.scalarLiteral b) with
  | some (input, offset) => some <$> addConstant ty input offset ty.carrier.bits
  | none =>
      if (operator = .divUnsigned ∨ operator = .remUnsigned) ∧ ty = .i64 ∧ (t.boundsOf left).unsigned ≤ 32 ∧
          (t.boundsOf right).unsigned ≤ 32 then do
        -- Both operands and the result fit 32 unsigned bits. The caller restores the logical i64 type by
        -- zero-extending the result.
        let left ← convert self left .i32
        let right ← convert self right .i32
        some <$> self .i32 (.binary (.integer operator) left right) 0
      else if operator = .mul ∧ t.scalarLiteral b = some 1 then pure (some left)
      else if operator = .mul ∧ t.scalarLiteral a = some 1 then pure (some right)
      else if operator = .mul ∧ (t.scalarLiteral b = some 0 ∨ t.scalarLiteral a = some 0) then
        some <$> literal ty 0
      else if operator = .sub ∧ a = b then some <$> literal ty 0
      else pure none

variable {F : Floating} {t : ValueTable} {ty : Ty} {self : Fold} {n left right : Nat}

/-! ## Wide products -/

/-- A rewrite that calls the fold back at the type of its result. -/
theorem yields_some_holds {m : Construct Nat} {D : (Nat → Option Nat) → Option Nat}
    (hm : Yields F t m fun r t' => Holds F t' ty D r) :
    Yields F t (some <$> m) fun r t' => ∀ i, r = some i → Holds F t' ty D i := by
  obtain ⟨r, t', hm, hx, ht', hr⟩ := hm
  refine ⟨some r, t', ?_, hx, ht', fun i hi => Option.some.inj hi ▸ hr⟩
  show (m t).bind _ = _
  rw [hm]
  rfl

theorem multiplyWide_low {s : Bool} {x y : Nat} : Packed.multiplyWide s x y 0 = x * y % 2 ^ 64 := by
  unfold Packed.multiplyWide
  simp only [Nat.zero_mul, Nat.shiftRight_zero]
  cases s with
  | false => rfl
  | true =>
    simp only [if_true]
    rw [word_mod _ (by decide : 64 ≤ 128), ← word_natCast]
    refine word_congr ?_
    rw [Int.mul_emod, signed_emod, signed_emod, ← Int.mul_emod]
    push_cast
    rfl

/-- The product of factors that fit one carrier fits it as well. -/
theorem signed_product_range {x y bx by' : Nat} (hx : FitsSigned 64 bx x) (hy : FitsSigned 64 by' y)
    (h : bx + by' ≤ 64 ∨ x ≤ 1 ∨ y ≤ 1) :
    -2 ^ 63 ≤ signed 64 x * signed 64 y ∧ signed 64 x * signed 64 y < 2 ^ 63 := by
  have hsx := le_two_mul_signed 64 x
  have hsx' := two_mul_signed_lt 64 x
  have hsy := le_two_mul_signed 64 y
  have hsy' := two_mul_signed_lt 64 y
  have small : ∀ {z : Nat}, z ≤ 1 → signed 64 z = 0 ∨ signed 64 z = 1 := by
    intro z hz
    interval_cases z
    · exact Or.inl (by decide)
    · exact Or.inr (by decide)
  rcases h with h | h | h
  · obtain ⟨hx₁, hx₂⟩ := hx
    obtain ⟨hy₁, hy₂⟩ := hy
    have hpow : ((2 ^ bx : Nat) : Int) * ((2 ^ by' : Nat) : Int) ≤ 2 ^ 64 := by
      rw [← Nat.cast_mul, ← pow_add]
      exact_mod_cast Nat.pow_le_pow_right (by decide) h
    generalize ((2 ^ bx : Nat) : Int) = p at *
    generalize ((2 ^ by' : Nat) : Int) = q at *
    constructor <;> nlinarith
  · rcases small h with h0 | h0 <;> rw [h0] <;> constructor <;> omega
  · rcases small h with h0 | h0 <;> rw [h0] <;> constructor <;> omega

theorem yields_foldMultiplyWide (hself : FoldsBelow F n self) (hn : 2 < n) (ht : Invariant F t) {s : Bool}
    {c : Nat} (hl : left < t.size) (hr : right < t.size) (hty : ty.carrier = .i64) (hcl : (t.ty left).carrier = .i64)
    (hcr : (t.ty right).carrier = .i64) (hc : c < 2) :
    Yields F t (foldMultiplyWide self s left right c) fun r t' =>
      ∀ i, r = some i → Holds F t' ty (evalExpr F t · ty (.multiplyWide s left right) c) i := by
  obtain rfl := Ty.eq_i64_of_carrier hty
  -- the operands, and the product as the evaluator computes it
  have hops : ∀ {σ v}, Valuation F t σ → evalExpr F t σ .i64 (.multiplyWide s left right) c = some v →
      ∃ x y, σ left = some x ∧ σ right = some y ∧ x < 2 ^ 64 ∧ y < 2 ^ 64 ∧ v = Packed.multiplyWide s x y c := by
    intro σ v hσ hv
    obtain ⟨x, hx, hxlt⟩ := ht.operand hσ hv hl (by simp)
    obtain ⟨y, hy, hylt⟩ := ht.operand hσ hv hr (by simp)
    rw [hcl] at hxlt
    rw [hcr] at hylt
    rw [evalExpr_multiplyWide hx hy hcl hcr hty hxlt hylt] at hv
    exact ⟨x, y, hx, hy, hxlt, hylt, (Option.some.inj hv).symm⟩
  refine Yields.get ?_
  dsimp only
  split
  · exact Yields.pure ht fun _ h => absurd h (by simp)
  next hbits =>
  split
  · next hcond =>
      obtain ⟨rfl, hs⟩ := hcond
      have hs : s = false := by simpa using hs
      subst hs
      refine yields_some_holds ((yields_literal ht .i64 0).mono ?_)
      rintro r t' hx ht' ⟨hr', -⟩
      refine ⟨hr'.lt, hr'.ty_eq, ?_⟩
      intro σ v hσ hv
      have hσ₀ := hσ.restrict ht.good hx
      obtain ⟨x, y, hxv, hyv, hxlt, hylt, rfl⟩ := hops hσ₀ hv
      have hux := (ht.inBounds hσ₀ hl hxv).unsigned
      have huy := (ht.inBounds hσ₀ hr hyv).unsigned
      have hprod : x * y < 2 ^ 64 := by
        have hcases : (t.boundsOf left).unsigned + (t.boundsOf right).unsigned ≤ 64 ∨
            (t.boundsOf left).unsigned ≤ 1 ∨ (t.boundsOf right).unsigned ≤ 1 := by
          simp only [productBits, Bool.false_eq_true, if_false] at hbits
          omega
        rcases hcases with h | h | h
        · refine Nat.lt_of_lt_of_le (Nat.mul_lt_mul'' hux huy) ?_
          rw [← pow_add]
          exact Nat.pow_le_pow_right (by decide) h
        · have : x ≤ 1 := by have := lt_two_pow_mono hux h; omega
          nlinarith
        · have : y ≤ 1 := by have := lt_two_pow_mono huy h; omega
          nlinarith
      refine hr'.value hσ ?_
      simp only [Packed.multiplyWide, Bool.false_eq_true, if_false, Nat.shiftRight_eq_div_pow, Nat.one_mul]
      rw [Nat.div_eq_of_lt hprod, Nat.zero_mod, Nat.zero_mod]
  next hcond =>
  have hw : BinaryOp.wellTyped (.integer .mul) (t.ty left) (t.ty right) .i64 = true := by
    simp [BinaryOp.wellTyped, Ty.isInteger, hcl, hcr]
  refine Yields.bind (hself (e := .binary (.integer .mul) left right) (a := .i64) ht
    (by simp [hl, hr]) hw Nat.one_pos (fun _ _ => trivial) (by simp [ValueTable.foldDepth]; omega)) ?_
  intro low t₁ hx₁ ht₁ hlow
  have hlowv : ∀ {σ x y}, Valuation F t₁ σ → σ left = some x → σ right = some y → σ low = some (x * y % 2 ^ 64) := by
    intro σ x y hσ hxv hyv
    have hσ₀ := hσ.restrict ht.good hx₁
    refine hlow.value hσ ?_
    rw [eval_integer hxv hyv (ht.carrier_lt hσ₀ hl hxv) (ht.carrier_lt hσ₀ hr hyv) hw]
    exact congrArg some (Nat.mod_mod _ _)
  split
  · next h0 =>
      subst h0
      refine Yields.pure ht₁ fun i hi => Option.some.inj hi ▸ ⟨hlow.lt, hlow.ty_eq, ?_⟩
      intro σ v hσ hv
      obtain ⟨x, y, hxv, hyv, -, -, rfl⟩ := hops (hσ.restrict ht.good hx₁) hv
      rw [multiplyWide_low]
      exact hlowv hσ hxv hyv
  · next h0 =>
      obtain rfl : c = 1 := by omega
      have hs : s = true := by simpa using hcond
      subst hs
      refine Yields.bind (yields_literal ht₁ .i64 63) ?_
      rintro count t₂ hx₂ ht₂ ⟨hcnt, -⟩
      have hw₂ : ShiftOp.wellTyped (.scalar .rightSigned) (t₂.ty low) (t₂.ty count) .i64 = true := by
        simp [ShiftOp.wellTyped, hx₂.ty_eq hlow.lt, hlow.ty_eq, hcnt.ty_eq, Ty.isInteger]
      refine yields_some_holds ((hself (e := .shift (.scalar .rightSigned) low count) (a := .i64) ht₂
        (by simp [hx₂.lt hlow.lt, hcnt.lt]) hw₂ Nat.one_pos (fun _ _ => trivial)
        (by simp only [ValueTable.foldDepth]; omega)).mono ?_)
      intro r t₃ hx₃ ht₃ hres
      refine ⟨hres.lt, hres.ty_eq, ?_⟩
      intro σ v hσ hv
      have hσ₂ := hσ.restrict ht₂.good hx₃
      have hσ₁ := hσ₂.restrict ht₁.good hx₂
      have hσ₀ := hσ₁.restrict ht.good hx₁
      obtain ⟨x, y, hxv, hyv, hxlt, hylt, rfl⟩ := hops hσ₀ hv
      have hbx := ht.inBounds hσ₀ hl hxv
      have hby := ht.inBounds hσ₀ hr hyv
      have hsx := hbx.signed
      have hsy := hby.signed
      rw [hcl] at hsx
      rw [hcr] at hsy
      have hrng : -2 ^ 63 ≤ signed 64 x * signed 64 y ∧ signed 64 x * signed 64 y < 2 ^ 63 := by
        refine signed_product_range hsx hsy ?_
        simp only [productBits, if_true] at hbits
        have hcases : (t.boundsOf left).signed + (t.boundsOf right).signed ≤ 64 ∨
            (t.boundsOf left).unsigned ≤ 1 ∨ (t.boundsOf right).unsigned ≤ 1 := by omega
        rcases hcases with h | h | h
        · exact Or.inl h
        · exact Or.inr (Or.inl (by have := lt_two_pow_mono hbx.unsigned h; omega))
        · exact Or.inr (Or.inr (by have := lt_two_pow_mono hby.unsigned h; omega))
      have hlv := hlowv hσ₁ hxv hyv
      have hcv := hcnt.value hσ₂ rfl
      refine hres.value hσ ?_
      rw [eval_shift hlv hcv (ht₂.carrier_lt hσ₂ (hx₂.lt hlow.lt) hlv) (ht₂.carrier_lt hσ₂ hcnt.lt hcv) hw₂]
      -- the low half reads as the product itself
      have hread : signed 64 (x * y % 2 ^ 64) = signed 64 x * signed 64 y := by
        have hword : x * y % 2 ^ 64 = word 64 (signed 64 x * signed 64 y) := by
          rw [← multiplyWide_low (s := true), Packed.multiplyWide]
          simp only [if_true, Nat.zero_mul, Nat.shiftRight_zero]
          exact word_mod _ (by decide)
        rw [hword, signed_word _ (Nat.le_refl 64)]
        exact bmod_of_range (by push_cast; omega) (by push_cast; omega)
      simp only [Packed.multiplyWide, if_true, Nat.one_mul]
      rw [word_shiftRight_high hrng.1 hrng.2, ← hread]
      exact congrArg some (Nat.mod_eq_of_lt (word_lt 64 _))

/-! ## Integer arithmetic -/

theorem yields_foldBinary (hself : FoldsBelow F n self) (ht : Invariant F t) {o : Integer.BinaryOp}
    (hl : left < t.size) (hr : right < t.size)
    (hw : BinaryOp.wellTyped (.integer o) (t.ty left) (t.ty right) ty = true)
    (hn : t.foldDepth ty (.binary (.integer o) left right) < n + 1) :
    Yields F t (foldBinary self ty o left right)
      (Rewrites F ty (evalExpr F t · ty (.binary (.integer o) left right) 0)) := by
  obtain ⟨hint, hcl, hcr⟩ := integer_spec hw
  have hne := Ty.carrier_ne_f64 hint
  have h64 := Ty.carrier_bits_of_isInteger hint
  have hops : ∀ {σ v}, Valuation F t σ → evalExpr F t σ ty (.binary (.integer o) left right) 0 = some v →
      ∃ x y, σ left = some x ∧ σ right = some y ∧ x < 2 ^ ty.carrier.bits ∧ y < 2 ^ ty.carrier.bits ∧
        (Integer.binary ty.carrier o x y).map (· % 2 ^ ty.carrier.bits) = some v := by
    intro σ v hσ hv
    obtain ⟨x, hx, hxlt⟩ := ht.operand hσ hv hl (by simp)
    obtain ⟨y, hy, hylt⟩ := ht.operand hσ hv hr (by simp)
    rw [eval_integer hx hy hxlt hylt hw] at hv
    rw [hcl] at hxlt
    rw [hcr] at hylt
    exact ⟨x, y, hx, hy, hxlt, hylt, hv⟩
  refine Yields.get ?_
  dsimp only
  split
  · next input offset hoff =>
      -- the operand offset by a constant, whichever side the constant is on
      have hoffset : input < t.size ∧ (t.ty input).carrier = ty.carrier ∧
          ∀ {σ v}, Valuation F t σ → evalExpr F t σ ty (.binary (.integer o) left right) 0 = some v →
            ∃ x, σ input = some x ∧ v = (x + offset) % 2 ^ ty.carrier.bits := by
        cases o with
        | add =>
          rcases besideLiteral_eq_some hoff with ⟨rfl, hlit⟩ | ⟨rfl, hlit⟩
          · refine ⟨hl, hcl, ?_⟩
            intro σ v hσ hv
            obtain ⟨x, y, hx, hy, -, -, hv⟩ := hops hσ hv
            obtain rfl := ValueTable.value_of_literal_representation ht hσ hr hlit hy
            obtain rfl := Option.some.inj hv
            exact ⟨x, hx, mod_mod_two_pow h64⟩
          · refine ⟨hr, hcr, ?_⟩
            intro σ v hσ hv
            obtain ⟨x, y, hx, hy, -, -, hv⟩ := hops hσ hv
            obtain rfl := ValueTable.value_of_literal_representation ht hσ hl hlit hx
            obtain rfl := Option.some.inj hv
            exact ⟨y, hy, by rw [Nat.add_comm y]; exact mod_mod_two_pow h64⟩
        | sub =>
          obtain ⟨lit, hlit, hp⟩ := Option.map_eq_some_iff.mp hoff
          obtain ⟨rfl, rfl⟩ := Prod.mk.inj hp
          refine ⟨hl, hcl, ?_⟩
          intro σ v hσ hv
          obtain ⟨x, y, hx, hy, -, hylt, hv⟩ := hops hσ hv
          obtain rfl := ValueTable.value_of_literal_representation ht hσ hr hlit hy
          obtain rfl := Option.some.inj hv
          refine ⟨x, hx, ?_⟩
          show (x + (2 ^ 64 - y % 2 ^ 64)) % 2 ^ 64 % _ = _
          rw [mod_mod_two_pow h64, Nat.mod_eq_of_lt (lt_two_pow_mono hylt h64), Nat.add_mod,
            Nat.add_mod x ((2 ^ 64 - y) % 2 ^ 64), mod_mod_two_pow h64]
        | mul | divUnsigned | divSigned | remUnsigned | remSigned => exact absurd hoff (by simp [binaryOffset])
      obtain ⟨hi, hci, hval⟩ := hoffset
      refine yields_some ((yields_addConstant ht hi hint hci (Nat.le_refl _)).mono ?_)
      intro r t' hx ht' hres
      refine Converts.of_value ht' hres.lt (Or.inr ⟨hres.carrier_eq, convert_wellTyped hres.carrier_eq hne⟩) ?_
      intro σ v hσ hv
      obtain ⟨x, hxv, rfl⟩ := hval (hσ.restrict ht.good hx) hv
      obtain ⟨u, hu, hmod⟩ := hres.value hσ (v := x + offset) (by rw [hxv]; rfl)
      have hult := ht'.carrier_lt hσ hres.lt hu
      rw [hres.carrier_eq] at hult
      rw [hu, ← hmod, Nat.mod_eq_of_lt hult]
  · split
    · next hcond =>
        obtain ⟨hop, rfl, hbl, hbr⟩ := hcond
        have htl := Ty.eq_i64_of_carrier hcl
        have htr := Ty.eq_i64_of_carrier hcr
        have hn' : 2 < n + 1 := hn
        refine Yields.bind (yields_convert_narrow (a := .i32) hself (by omega) ht hl (by rw [htl]; decide)
          (by rw [htl]; decide)) ?_
        intro l t₁ hx₁ ht₁ hl₁
        have htr₁ : t₁.ty right = .i64 := by rw [hx₁.ty_eq hr, htr]
        refine Yields.bind (yields_convert_narrow (a := .i32) hself (by omega) ht₁ (hx₁.lt hr)
          (by rw [htr₁]; decide) (by rw [htr₁]; decide)) ?_
        intro r t₂ hx₂ ht₂ hr₂
        have hl₂ := hl₁.extends ht₁.good hx₂
        have hw₂ : BinaryOp.wellTyped (.integer o) (t₂.ty l) (t₂.ty r) .i32 = true := by
          simp [BinaryOp.wellTyped, hl₂.ty_eq, hr₂.ty_eq, Ty.isInteger]
        have hdiv : t₂.DivisionFits F .i32 (.binary (.integer o) l r) := by
          refine ValueTable.divisionFits_of_lt fun hσ hx => ?_
          have := ht₂.carrier_lt hσ hl₂.lt hx
          rwa [hl₂.ty_eq] at this
        refine yields_some ((hself (e := .binary (.integer o) l r) (a := .i32) ht₂
          (by simp [hl₂.lt, hr₂.lt]) hw₂ Nat.one_pos hdiv
          (by simp [ValueTable.foldDepth]; omega)).mono ?_)
        intro q t₃ hx₃ ht₃ hq
        refine ⟨hq.lt, Or.inr (by rw [hq.ty_eq]; decide), ?_⟩
        intro σ v hσ hv
        have hσ₂ := hσ.restrict ht₂.good hx₃
        have hσ₀ := (hσ₂.restrict ht₁.good hx₂).restrict ht.good hx₁
        obtain ⟨x, y, hx, hy, -, -, hv⟩ := hops hσ₀ hv
        have hxlt : x < 2 ^ 32 := lt_two_pow_mono (ht.inBounds hσ₀ hl hx).unsigned hbl
        have hylt : y < 2 ^ 32 := lt_two_pow_mono (ht.inBounds hσ₀ hr hy).unsigned hbr
        have hlv := hl₂.value hσ₂ (v := x) (by
          rw [hx]
          exact congrArg some (Nat.mod_eq_of_lt hxlt))
        have hrv := hr₂.value hσ₂ (v := y) (by
          rw [hy]
          exact congrArg some (Nat.mod_eq_of_lt hylt))
        have hnarrow : ∀ w : Nat, w ≤ x → w % 2 ^ Ty.i64.carrier.bits = w % 2 ^ Ty.i32.carrier.bits := by
          intro w hw
          rw [show Ty.i64.carrier.bits = 64 from rfl, show Ty.i32.carrier.bits = 32 from rfl]
          omega
        refine ⟨v, hq.value hσ ?_, ?_⟩
        · rw [eval_integer hlv hrv (ht₂.carrier_lt hσ₂ hl₂.lt hlv) (ht₂.carrier_lt hσ₂ hr₂.lt hrv) hw₂, ← hv]
          rcases hop with rfl | rfl
          · simp only [Integer.binary]
            split
            · rfl
            · exact congrArg some (hnarrow _ (Nat.div_le_self x y)).symm
          · simp only [Integer.binary]
            split
            · rfl
            · exact congrArg some (hnarrow _ (Nat.mod_le x y)).symm
        · obtain ⟨w, -, rfl⟩ := Option.map_eq_some_iff.mp hv
          exact Nat.mod_mod _ _
    -- the product with one, and the zero results
    · have same : ∀ {i : Nat}, i < t.size → (t.ty i).carrier = ty.carrier →
          (∀ {σ v}, Valuation F t σ → evalExpr F t σ ty (.binary (.integer o) left right) 0 = some v →
            σ i = some v) →
          Yields F t (pure (some i)) (Rewrites F ty (evalExpr F t · ty (.binary (.integer o) left right) 0)) :=
        fun hi hc hv => Yields.pure ht (Rewrites.some (Converts.of_value ht hi
          (Or.inr ⟨hc, convert_wellTyped hc hne⟩) hv))
      have zero : (∀ {σ v}, Valuation F t σ → evalExpr F t σ ty (.binary (.integer o) left right) 0 = some v →
            v = 0) →
          Yields F t (some <$> literal ty 0)
            (Rewrites F ty (evalExpr F t · ty (.binary (.integer o) left right) 0)) := by
        intro hv
        refine yields_some ((yields_literal ht ty 0).mono ?_)
        rintro r t' hx ht' ⟨hz, -⟩
        refine Holds.converts ⟨hz.lt, hz.ty_eq, ?_⟩ ht'
        intro σ v hσ hσv
        obtain rfl := hv (hσ.restrict ht.good hx) hσv
        exact hz.value hσ (by simp)
      split
      · next hcond =>
          obtain ⟨rfl, hlit⟩ := hcond
          refine same hl hcl ?_
          intro σ v hσ hv
          obtain ⟨x, y, hx, hy, hxlt, -, hv⟩ := hops hσ hv
          obtain rfl := ValueTable.value_of_literal_representation ht hσ hr hlit hy
          obtain rfl := Option.some.inj hv
          show σ left = some (x * 1 % 2 ^ 64 % _)
          rw [Nat.mul_one, mod_mod_two_pow h64, Nat.mod_eq_of_lt hxlt, hx]
      split
      · next hcond =>
          obtain ⟨rfl, hlit⟩ := hcond
          refine same hr hcr ?_
          intro σ v hσ hv
          obtain ⟨x, y, hx, hy, -, hylt, hv⟩ := hops hσ hv
          obtain rfl := ValueTable.value_of_literal_representation ht hσ hl hlit hx
          obtain rfl := Option.some.inj hv
          show σ right = some (1 * y % 2 ^ 64 % _)
          rw [Nat.one_mul, mod_mod_two_pow h64, Nat.mod_eq_of_lt hylt, hy]
      split
      · next hcond =>
          obtain ⟨rfl, hlit⟩ := hcond
          refine zero ?_
          intro σ v hσ hv
          obtain ⟨x, y, hx, hy, -, -, hv⟩ := hops hσ hv
          obtain rfl := Option.some.inj hv
          rcases hlit with hlit | hlit
          · obtain rfl := ValueTable.value_of_literal_representation ht hσ hr hlit hy
            simp
          · obtain rfl := ValueTable.value_of_literal_representation ht hσ hl hlit hx
            simp
      split
      · next hcond =>
          obtain ⟨rfl, hrep⟩ := hcond
          refine zero ?_
          intro σ v hσ hv
          obtain ⟨x, y, hx, hy, hxlt, -, hv⟩ := hops hσ hv
          obtain rfl := ValueTable.eq_of_representation ht hσ hl hr hrep hx hy
          obtain rfl := Option.some.inj hv
          have hx64 := lt_two_pow_mono hxlt h64
          show (x + (2 ^ 64 - x % 2 ^ 64)) % 2 ^ 64 % _ = 0
          rw [Nat.mod_eq_of_lt hx64, Nat.add_sub_of_le (Nat.le_of_lt hx64), Nat.mod_self, Nat.zero_mod]
      · exact Yields.pure ht Rewrites.none

end Folder

end Relocade.Compiler
