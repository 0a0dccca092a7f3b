import Relocade.Compiler.Fold.Offsets

/-!
# `Compiler.Fold.Bits` — logical width changes and the physical bits carried between observations
-/

namespace Relocade.Compiler

open Words

namespace Folder

/-- The operand beside a constant, and the constant; a constant on the right is preferred. -/
def besideLiteral (left right : Nat) : Option Nat → Option Nat → Option (Nat × Nat)
  | _, some bits => some (left, bits)
  | some bits, none => some (right, bits)
  | none, none => none

theorem besideLiteral_eq_some {left right input bits : Nat} {a b : Option Nat}
    (h : besideLiteral left right a b = some (input, bits)) :
    (input = left ∧ b = some bits) ∨ (input = right ∧ a = some bits) := by
  cases b with
  | some y =>
    obtain ⟨rfl, rfl⟩ := Prod.mk.inj (Option.some.inj h)
    exact Or.inl ⟨rfl, rfl⟩
  | none =>
    cases a with
    | none => exact absurd h (by simp [besideLiteral])
    | some x =>
      obtain ⟨rfl, rfl⟩ := Prod.mk.inj (Option.some.inj h)
      exact Or.inr ⟨rfl, rfl⟩

structure MaskedBits where
  input : Nat
  mask : Nat

/-- The bits of an input that a mask keeps. -/
def maskedBits (t : ValueTable) (input : Nat) : MaskedBits :=
  let input := t.representation input
  let (input, mask) :=
    match t.definition input with
    | .expression (.unary (.lowBits bits) inner) => (inner, lowMask bits)
    | .expression (.binary (.bitwise .and) left right) =>
        (besideLiteral left right (t.scalarLiteral left) (t.scalarLiteral right)).getD
          (input, (t.ty input).carrier.mask)
    | _ => (input, (t.ty input).carrier.mask)
  ⟨t.representation input, mask⟩

/-- The count of a shift by a constant. -/
def shiftBy (t : ValueTable) (operator : Integer.ShiftOp) (id : Nat) : Option (Nat × Nat) :=
  match t.definition id with
  | .expression (.shift (.scalar o) value count) =>
      if o = operator then
        (t.scalarLiteral count).map fun count => (value, Integer.shiftCount (t.ty id).carrier (count % 2 ^ 32))
      else none
  | _ => none

/-- The bits that a shift and its reverse restore to their place. -/
def restoredBits (t : ValueTable) (input : Nat) : MaskedBits :=
  let bits := maskedBits t input
  match shiftBy t .left bits.input with
  | none => bits
  | some (value, count) =>
      let shifted := maskedBits t value
      match shiftBy t .rightUnsigned shifted.input with
      | none => bits
      | some (value, reverse) =>
          let carrier := (t.ty bits.input).carrier
          if (t.ty shifted.input).carrier ≠ carrier ∨ reverse ≠ count then bits
          else
            let source := maskedBits t value
            ⟨source.input, bits.mask &&& (shifted.mask <<< count % 2 ^ 64 &&& source.mask &&& carrier.mask)⟩

/-- Rejoining bits extracted from the same carrier only needs their union mask. -/
def rejoinBits (self : Fold) (ty : Ty) (left right : Nat) : Construct (Option Nat) := do
  let t ← get
  let left := restoredBits t left
  let right := restoredBits t right
  if left.input ≠ right.input then pure none
  else do
    let mask ← carrierLiteral ty (left.mask ||| right.mask)
    some <$> self ty (.binary (.bitwise .and) left.input mask) 0

/-- One turn of the loop below an explicit mask: an operand with the same observed bits, up to an offset. -/
def lowBitsStep (t : ValueTable) (bits : Nat) (state : Nat × Nat) : Option (Nat × Nat) :=
  let (base, offset) := state
  let mask := lowMask bits
  if (t.scalarLiteral base).isSome then none
  else
    match t.definition base with
    | .expression (.unary (.lowBits kept) input) => if bits ≤ kept then some (input, offset) else none
    | .expression (.unary .convert input) =>
        if bits ≤ (t.ty input).bits ∧ (t.ty base).carrier = (t.ty input).carrier then some (input, offset) else none
    | .expression (.binary (.bitwise .and) left right) =>
        match besideLiteral left right (t.scalarLiteral left) (t.scalarLiteral right) with
        | some (input, kept) => if trailingOnes 64 kept < bits then none else some (input, offset)
        | none => none
    | .expression (.binary (.bitwise _) left right) =>
        -- Disjoint masked bits cannot affect the low result, including after an accumulated modular offset.
        if (maskedBits t left).mask &&& mask = 0 then some (right, offset)
        else if (maskedBits t right).mask &&& mask = 0 then some (left, offset)
        else none
    | _ =>
        if (t.ty base).bits < bits then none
        else (constantOffset t base).map fun (input, addend) => (input, (offset + addend) &&& mask)

/-- A value of the right type as it is, any other through a conversion. -/
def viewAs (self : Fold) (ty : Ty) (input : Nat) : Construct Nat := do
  if (← get).ty input = ty then pure input else self ty (.unary .convert input) 0

/-- The explicit mask defines the observed bits. Intermediate type views keep their carrier bits; this fold does
    not normalize them to their logical widths. -/
def foldLowBits (self : Fold) (ty : Ty) (input bits : Nat) : Construct Nat := do
  let t ← get
  if bits = 0 then literal ty 0
  else if (t.boundsOf input).unsigned ≤ bits then pure input
  else
    let (base, offset) := Descend.run (lowBitsStep t bits) (input + 1) (input, 0)
    match t.scalarLiteral base with
    | some value => carrierLiteral ty ((value + offset) &&& lowMask bits)
    | none => do
      let base ← viewAs self ty base
      let input ← addConstant ty base offset bits
      if ((← get).boundsOf input).unsigned ≤ bits then pure input
      else intern ty (.unary (.lowBits bits) input)

/-- Clears what the carrier holds above a narrow value. -/
def normalize (self : Fold) (input : Nat) : Construct Nat := do
  let t ← get
  let ty := t.ty input
  if ty = .v64 then
    if (t.boundsOf input).unsigned ≤ 64 then pure input
    else do
      let mask ← literal ty (2 ^ 64 - 1)
      self ty (.binary (.bitwise .and) input mask) 0
  else if ¬ ty.isInteger then pure input
  else self ty (.unary (.lowBits ty.bits) input) 0

def convert (self : Fold) (input : Nat) (target : Ty) : Construct Nat := do
  let source := (← get).ty input
  if source = target then pure input
  else do
    let input ← if source.bits < target.bits then normalize self input else pure input
    self target (.unary .convert input) 0

/-- A sign extension of a value that is canonical already. -/
def foldSignExtend (self : Fold) (target inputType : Ty) (input : Nat) : Construct (Option Nat) := do
  let canonical := ((← get).boundsOf input).signed ≤ inputType.bits
  if canonical ∧ target ≠ .i64 then
    -- Preserve the existing signed representation and its sharing when only the logical type widens.
    pure (some input)
  else if canonical ∧ inputType ≠ .i32 then do
    let view ← self .i32 (.unary .convert input) 0
    -- Crossing into i64 still needs the signed carrier extension.
    some <$> self target (.unary (.signExtend .i32) view) 0
  else pure none

/-! ## Masked and restored bits -/

section

variable {F : Floating} {t : ValueTable} {input : Nat}

theorem and_carrier_mask {ty : Ty} {v : Nat} (hv : v < 2 ^ ty.carrier.bits) : v &&& ty.carrier.mask = v := by
  rw [Ty.mask, and_lowMask, Nat.mod_eq_of_lt hv]

theorem Ty.isInteger_of_carrier {a b : Ty} (h : a.carrier = b.carrier) (hb : b.isInteger = true) :
    a.isInteger = true := by
  rw [← Ty.isInteger_carrier, h, Ty.isInteger_carrier]
  exact hb

/-- Position `m.input` is an earlier value of the same carrier type, and `input` is its bits under `m.mask`. -/
def MaskedBits.Spec (F : Floating) (t : ValueTable) (input : Nat) (m : MaskedBits) : Prop :=
  m.input ≤ input ∧ (t.ty m.input).carrier = (t.ty input).carrier ∧
    ∀ σ, Valuation F t σ → ∀ v, σ input = some v → ∃ u, σ m.input = some u ∧ v = u &&& m.mask

/-- An operand of a bitwise operation keeps its carrier type. -/
theorem bitwise_operands (ht : Invariant F t) {id left right : Nat} {o : BitwiseOp} (hid : id < t.size)
    (hdef : t.definition id = .expression (.binary (.bitwise o) left right)) :
    left < id ∧ right < id ∧ (t.ty left).carrier = (t.ty id).carrier ∧ (t.ty right).carrier = (t.ty id).carrier ∧
      ∀ σ, Valuation F t σ → ∀ v, σ id = some v →
        ∃ x y, σ left = some x ∧ σ right = some y ∧ v = o.apply x y := by
  have hval := ValueTable.value_eq_iff.mpr ⟨rfl, hdef⟩
  have hlt := ht.good.inputs_lt hid hval
  have hl := hlt left (by simp)
  have hr := hlt right (by simp)
  have hw : BinaryOp.wellTyped (.bitwise o) (t.ty left) (t.ty right) (t.ty id) = true := ht.good.typed hid hval
  have hw' := hw
  simp only [BinaryOp.wellTyped, Bool.and_eq_true, decide_eq_true_eq] at hw'
  refine ⟨hl, hr, hw'.1.1, hw'.1.2, ?_⟩
  intro σ hσ v hv
  rw [hσ.expression hid hval] at hv
  obtain ⟨x, hx⟩ := evalExpr_inputs hv left (by simp)
  obtain ⟨y, hy⟩ := evalExpr_inputs hv right (by simp)
  rw [eval_bitwise hx hy (ht.carrier_lt hσ (by omega) hx) (ht.carrier_lt hσ (by omega) hy) hw] at hv
  exact ⟨x, y, hx, hy, (Option.some.inj hv).symm⟩

/-- The unmasked operand of an `and` with a constant. -/
theorem besideLiteral_and (ht : Invariant F t) {id left right base mask : Nat} (hid : id < t.size)
    (hdef : t.definition id = .expression (.binary (.bitwise .and) left right))
    (h : besideLiteral left right (t.scalarLiteral left) (t.scalarLiteral right) = some (base, mask)) :
    base < id ∧ (t.ty base).carrier = (t.ty id).carrier ∧
      ∀ σ, Valuation F t σ → ∀ v, σ id = some v → ∃ u, σ base = some u ∧ v = u &&& mask := by
  obtain ⟨hl, hr, hcl, hcr, hval⟩ := bitwise_operands ht hid hdef
  rcases besideLiteral_eq_some h with ⟨rfl, hlit⟩ | ⟨rfl, hlit⟩
  · refine ⟨hl, hcl, ?_⟩
    intro σ hσ v hv
    obtain ⟨x, y, hx, hy, rfl⟩ := hval σ hσ v hv
    rw [(ValueTable.value_of_scalarLiteral ht.good hσ (by omega) hlit).1] at hy
    obtain rfl := Option.some.inj hy
    exact ⟨x, hx, rfl⟩
  · refine ⟨hr, hcr, ?_⟩
    intro σ hσ v hv
    obtain ⟨x, y, hx, hy, rfl⟩ := hval σ hσ v hv
    rw [(ValueTable.value_of_scalarLiteral ht.good hσ (by omega) hlit).1] at hx
    obtain rfl := Option.some.inj hx
    exact ⟨y, hy, Nat.and_comm _ _⟩

/-- The operand of an explicit low-bit mask. -/
theorem lowBits_operand (ht : Invariant F t) {id inner bits : Nat} (hid : id < t.size)
    (hdef : t.definition id = .expression (.unary (.lowBits bits) inner)) :
    inner < id ∧ (t.ty inner).carrier = (t.ty id).carrier ∧
      ∀ σ, Valuation F t σ → ∀ v, σ id = some v → ∃ u, σ inner = some u ∧ v = u % 2 ^ bits := by
  have hval := ValueTable.value_eq_iff.mpr ⟨rfl, hdef⟩
  have hlt := ht.good.inputs_lt hid hval inner (by simp)
  have hw : UnaryOp.wellTyped (.lowBits bits) (t.ty inner) (t.ty id) = true := ht.good.typed hid hval
  have hw' := hw
  simp only [UnaryOp.wellTyped, Bool.and_eq_true, decide_eq_true_eq] at hw'
  refine ⟨hlt, hw'.1.2, ?_⟩
  intro σ hσ v hv
  rw [hσ.expression hid hval] at hv
  obtain ⟨x, hx⟩ := evalExpr_inputs hv inner (by simp)
  rw [eval_lowBits hx (ht.carrier_lt hσ (by omega) hx) hw] at hv
  exact ⟨x, hx, (Option.some.inj hv).symm⟩

theorem maskedBits_spec (ht : Invariant F t) (hin : input < t.size) : (maskedBits t input).Spec F t input := by
  obtain ⟨hle, hcar, hval⟩ := ValueTable.representation_spec ht hin
  -- a masked operand of the representation, seen through its own conversions
  have under : ∀ {base mask : Nat}, base ≤ t.representation input →
      (t.ty base).carrier = (t.ty (t.representation input)).carrier →
      (∀ σ, Valuation F t σ → ∀ v, σ (t.representation input) = some v → ∃ u, σ base = some u ∧ v = u &&& mask) →
      MaskedBits.Spec F t input ⟨t.representation base, mask⟩ := by
    intro base mask hb hcb hvb
    obtain ⟨hle', hcar', hval'⟩ := ValueTable.representation_spec ht (by omega : base < t.size)
    refine ⟨by dsimp only; omega, (hcar'.trans hcb).trans hcar, ?_⟩
    intro σ hσ v hv
    obtain ⟨u, hu, huv⟩ := hvb σ hσ v (hval σ hσ v hv)
    exact ⟨u, hval' σ hσ u hu, huv⟩
  have whole : MaskedBits.Spec F t input
      ⟨t.representation (t.representation input), (t.ty (t.representation input)).carrier.mask⟩ := by
    refine under (Nat.le_refl _) rfl ?_
    intro σ hσ v hv
    exact ⟨v, hv, (and_carrier_mask (ht.carrier_lt hσ (by omega) hv)).symm⟩
  have hid : t.representation input < t.size := by omega
  unfold maskedBits
  dsimp only
  split
  · next bits inner hdef =>
      obtain ⟨hlt, hc, hv⟩ := lowBits_operand ht hid hdef
      refine under (by omega) hc ?_
      intro σ hσ v hσv
      obtain ⟨u, hu, rfl⟩ := hv σ hσ v hσv
      exact ⟨u, hu, (and_lowMask u bits).symm⟩
  · next left right hdef =>
      cases hb : besideLiteral left right (t.scalarLiteral left) (t.scalarLiteral right) with
      | none => exact whole
      | some p =>
        obtain ⟨base, mask⟩ := p
        obtain ⟨hlt, hc, hv⟩ := besideLiteral_and ht hid hdef hb
        show MaskedBits.Spec F t input ⟨t.representation base, mask⟩
        exact under (by omega) hc hv
  · exact whole

theorem shiftBy_eq_some {id value count : Nat} {o : Integer.ShiftOp} (h : shiftBy t o id = some (value, count)) :
    ∃ c lit, t.definition id = .expression (.shift (.scalar o) value c) ∧ t.scalarLiteral c = some lit ∧
      count = Integer.shiftCount (t.ty id).carrier (lit % 2 ^ 32) := by
  unfold shiftBy at h
  split at h
  · next o' value' c hdef =>
      split at h
      · next heq =>
          subst heq
          obtain ⟨lit, hlit, hp⟩ := Option.map_eq_some_iff.mp h
          obtain ⟨rfl, rfl⟩ := Prod.mk.inj hp
          exact ⟨c, lit, hdef, hlit, rfl⟩
      · cases h
  · cases h

theorem shiftBy_spec (ht : Invariant F t) {id value count : Nat} {o : Integer.ShiftOp} (hid : id < t.size)
    (h : shiftBy t o id = some (value, count)) :
    value < id ∧ (t.ty value).carrier = (t.ty id).carrier ∧ (t.ty id).isInteger = true ∧
      count < (t.ty id).carrier.bits ∧ Integer.shiftCount (t.ty id).carrier count = count ∧
      ∀ σ, Valuation F t σ → ∀ v, σ id = some v → ∃ x, σ value = some x ∧
        v = Integer.shift (t.ty id).carrier o x count % 2 ^ (t.ty id).carrier.bits := by
  obtain ⟨c, lit, hdef, hlit, rfl⟩ := shiftBy_eq_some h
  have hval := ValueTable.value_eq_iff.mpr ⟨rfl, hdef⟩
  have hlt := ht.good.inputs_lt hid hval
  have hl := hlt value (by simp)
  have hr := hlt c (by simp)
  have hw : ShiftOp.wellTyped (.scalar o) (t.ty value) (t.ty c) (t.ty id) = true := ht.good.typed hid hval
  obtain ⟨hint, hcar, -⟩ := scalar_spec hw
  refine ⟨hl, hcar, hint, Integer.shiftCount_lt_carrier hint _, Integer.shiftCount_shiftCount _ _, ?_⟩
  intro σ hσ v hv
  rw [hσ.expression hid hval] at hv
  obtain ⟨x, hx⟩ := evalExpr_inputs hv value (by simp)
  obtain ⟨hy, hylt⟩ := ValueTable.value_of_scalarLiteral ht.good hσ (by omega : c < t.size) hlit
  rw [eval_shift hx hy (ht.carrier_lt hσ (by omega) hx) hylt hw] at hv
  obtain rfl := Option.some.inj hv
  refine ⟨x, hx, ?_⟩
  simp only [Integer.shift, Integer.shiftCount_shiftCount]

/-- Shifting masked bits down and up again masks them in place. -/
theorem restore_shift {q sourceMask shiftedMask count w : Nat} (hw : w ≤ 64) :
    (((q &&& sourceMask) >>> count % 2 ^ w &&& shiftedMask) <<< count) % 2 ^ 64 % 2 ^ w =
      q &&& (shiftedMask <<< count % 2 ^ 64 &&& sourceMask &&& lowMask w) := by
  apply Nat.eq_of_testBit_eq
  intro i
  simp only [Nat.testBit_mod_two_pow, Nat.testBit_shiftLeft, Nat.testBit_and, Nat.testBit_shiftRight, testBit_lowMask]
  by_cases hi : i < w
  · have hi64 : i < 64 := by omega
    by_cases hc : count ≤ i
    · have h₁ : i - count < w := by omega
      have h₂ : count + (i - count) = i := by omega
      simp only [hi, hi64, hc, h₁, h₂, decide_true, Bool.true_and, Bool.and_true]
      rw [Bool.and_assoc, Bool.and_comm (sourceMask.testBit i)]
    · simp [hc]
  · simp [hi]

theorem restoredBits_spec (ht : Invariant F t) (hin : input < t.size) : (restoredBits t input).Spec F t input := by
  have hm := maskedBits_spec ht hin
  unfold restoredBits
  dsimp only
  split
  · exact hm
  · next value count hshl =>
      split
      · exact hm
      · next value' reverse hshr =>
          split
          · exact hm
          · next hcond =>
              simp only [not_or, ne_eq, Decidable.not_not] at hcond
              obtain ⟨hcarrier, rfl⟩ := hcond
              obtain ⟨hle, hcar, hval⟩ := hm
              obtain ⟨hlt₁, hc₁, hint, -, hcnt, hval₁⟩ := shiftBy_spec ht (by omega) hshl
              obtain ⟨hle₂, hc₂, hval₂⟩ := maskedBits_spec ht (by omega : value < t.size)
              obtain ⟨hlt₃, hc₃, -, -, -, hval₃⟩ := shiftBy_spec ht (by omega) hshr
              obtain ⟨hle₄, hc₄, hval₄⟩ := maskedBits_spec ht (by omega : value' < t.size)
              refine ⟨by dsimp only; omega, ((hc₄.trans hc₃).trans hcarrier).trans hcar, ?_⟩
              intro σ hσ v hv
              obtain ⟨u, hu, rfl⟩ := hval σ hσ v hv
              obtain ⟨x, hx, rfl⟩ := hval₁ σ hσ u hu
              obtain ⟨s, hs, rfl⟩ := hval₂ σ hσ x hx
              obtain ⟨s', hs', rfl⟩ := hval₃ σ hσ s hs
              obtain ⟨q, hq, rfl⟩ := hval₄ σ hσ s' hs'
              refine ⟨q, hq, ?_⟩
              dsimp only at hcnt ⊢
              simp only [Integer.shift, hcarrier, hcnt]
              rw [restore_shift (Ty.carrier_bits_of_isInteger hint), Nat.and_assoc, Nat.and_comm (maskedBits t input).mask,
                Ty.mask]

end

/-! ## Rewrites -/

section

variable {F : Floating} {t : ValueTable} {ty : Ty} {self : Fold} {n input bits : Nat}

/-- What a rewrite that only calls the fold back yields. -/
theorem yields_some {m : Construct Nat} {D : (Nat → Option Nat) → Option Nat}
    (hm : Yields F t m fun r t' => Converts F t' ty D r) :
    Yields F t (some <$> m) (Rewrites F ty D) := by
  obtain ⟨r, t', hm, hx, ht', hr⟩ := hm
  refine ⟨some r, t', ?_, hx, ht', Rewrites.some hr⟩
  show (m t).bind _ = _
  rw [hm]
  rfl

theorem yields_rejoinBits (hself : FoldsBelow F n self) (hn : 1 < n) (ht : Invariant F t) {left right : Nat}
    (hl : left < t.size) (hr : right < t.size) (hint : ty.isInteger = true)
    (hcl : (t.ty left).carrier = ty.carrier) (hcr : (t.ty right).carrier = ty.carrier) :
    Yields F t (rejoinBits self ty left right)
      (Rewrites F ty fun σ => (σ left).bind fun x => (σ right).map fun y => x ||| y) := by
  obtain ⟨hle, hca, hval⟩ := restoredBits_spec ht hl
  obtain ⟨hle', hca', hval'⟩ := restoredBits_spec ht hr
  refine Yields.get ?_
  dsimp only
  split
  · exact Yields.pure ht Rewrites.none
  · next hsame =>
      have hsame : (restoredBits t left).input = (restoredBits t right).input := by simpa using hsame
      refine Yields.bind (yields_carrierLiteral ht ty _) ?_
      rintro k t' hx ht' ⟨hk, -⟩
      have hbase : (restoredBits t left).input < t.size := by omega
      have hcar : (t'.ty (restoredBits t left).input).carrier = ty.carrier := by rw [hx.ty_eq hbase, hca, hcl]
      have hw : BinaryOp.wellTyped (.bitwise .and) (t'.ty (restoredBits t left).input) (t'.ty k) ty = true := by
        have hne := Ty.carrier_ne_f64 hint
        simp [BinaryOp.wellTyped, hcar, hk.ty_eq, hne]
      refine yields_some ?_
      refine (hself (e := .binary (.bitwise .and) (restoredBits t left).input k) ht' ?_ hw Nat.one_pos (fun _ _ => trivial) hn).mono ?_
      · simp [hx.lt hbase, hk.lt]
      rintro r t'' hx' ht'' hres
      refine Holds.converts ?_ ht''
      refine ⟨hres.lt, hres.ty_eq, ?_⟩
      intro σ v hσ hv
      have hσ' := hσ.restrict ht'.good hx'
      have hσ₀ := hσ'.restrict ht.good hx
      obtain ⟨x, hx₁, hv⟩ := Option.bind_eq_some_iff.mp hv
      obtain ⟨y, hy₁, rfl⟩ := Option.map_eq_some_iff.mp hv
      obtain ⟨u, hu, hxu⟩ := hval σ hσ₀ x hx₁
      obtain ⟨u', hu', hyu⟩ := hval' σ hσ₀ y hy₁
      rw [← hsame, hu] at hu'
      obtain rfl := Option.some.inj hu'
      refine hres.value hσ ?_
      have hkv := hk.value hσ' rfl
      have hult := ht'.carrier_lt hσ' (hx.lt hbase) hu
      rw [eval_bitwise hu hkv hult (ht'.carrier_lt hσ' hk.lt hkv) hw]
      rw [hcar] at hult
      have : u &&& ((restoredBits t left).mask ||| (restoredBits t right).mask) % 2 ^ ty.carrier.bits = x ||| y := by
        rw [hxu, hyu, ← Nat.and_or_distrib_left, ← and_lowMask, Nat.and_comm _ (lowMask _), ← Nat.and_assoc,
          and_lowMask, Nat.mod_eq_of_lt hult]
      exact congrArg some this

/-! ### The loop below an explicit mask -/

/-- What a turn of the loop keeps: the observed bits of the base and the offset are those of the input. -/
def LowBitsInvariant (F : Floating) (t : ValueTable) (input bits : Nat) (s : Nat × Nat) : Prop :=
  s.1 ≤ input ∧ (t.ty s.1).carrier = (t.ty input).carrier ∧
    ∀ σ, Valuation F t σ → ∀ v, σ input = some v → ∃ u, σ s.1 = some u ∧ (u + s.2) % 2 ^ bits = v % 2 ^ bits

theorem LowBitsInvariant.step {s : Nat × Nat} {base : Nat} (h : LowBitsInvariant F t input bits s)
    (hlt : base < s.1) (hcar : (t.ty base).carrier = (t.ty s.1).carrier)
    (hval : ∀ σ, Valuation F t σ → ∀ v, σ s.1 = some v → ∃ u, σ base = some u ∧ v % 2 ^ bits = u % 2 ^ bits) :
    LowBitsInvariant F t input bits (base, s.2) := by
  obtain ⟨hle, hc, hv⟩ := h
  refine ⟨by dsimp only; omega, hcar.trans hc, ?_⟩
  intro σ hσ v hσv
  obtain ⟨u, hu, hmod⟩ := hv σ hσ v hσv
  obtain ⟨w, hw, huw⟩ := hval σ hσ u hu
  exact ⟨w, hw, by rw [← hmod, Nat.add_mod, ← huw, ← Nat.add_mod]⟩

theorem lowBitsStep_invariant (ht : Invariant F t) (hin : input < t.size)
    (hbits : bits ≤ (t.ty input).carrier.bits) (s s' : Nat × Nat)
    (h : LowBitsInvariant F t input bits s) (hs : lowBitsStep t bits s = some s') :
    LowBitsInvariant F t input bits s' ∧ s'.1 < s.1 := by
  obtain ⟨base, offset⟩ := s
  obtain ⟨hle, hcar, hval⟩ := h
  have hb : base < t.size := by dsimp only at hle; omega
  have hinv : LowBitsInvariant F t input bits (base, offset) := ⟨hle, hcar, hval⟩
  unfold lowBitsStep at hs
  dsimp only at hs
  split at hs
  · cases hs
  split at hs
  · next kept inner hdef =>
      split at hs
      · next hkept =>
          obtain rfl := Option.some.inj hs
          obtain ⟨hlt, hc, hv⟩ := lowBits_operand ht hb hdef
          refine ⟨hinv.step hlt hc ?_, hlt⟩
          intro σ hσ v hσv
          obtain ⟨u, hu, rfl⟩ := hv σ hσ v hσv
          exact ⟨u, hu, mod_mod_two_pow hkept⟩
      · cases hs
  · next inner hdef =>
      split at hs
      · next hcond =>
          obtain rfl := Option.some.inj hs
          have hci : t.convertInput base = some inner := by
            rw [ValueTable.convertInput, hdef]
            simp [hcond.2]
          have hlt := ValueTable.convertInput_lt ht.good hb hci
          refine ⟨hinv.step hlt hcond.2.symm ?_, hlt⟩
          intro σ hσ v hσv
          rw [hσ.expression hb (ValueTable.value_eq_iff.mpr ⟨rfl, hdef⟩)] at hσv
          obtain ⟨x, hx⟩ := evalExpr_inputs hσv inner (by simp)
          have hxlt := ht.carrier_lt hσ (by omega) hx
          rw [eval_convert hx hxlt, hcond.2, Nat.mod_eq_of_lt hxlt] at hσv
          obtain rfl := Option.some.inj hσv
          exact ⟨x, hx, rfl⟩
      · cases hs
  · next left right hdef =>
      split at hs
      · next inner kept hbeside =>
          split at hs
          · cases hs
          · next hkept =>
              obtain rfl := Option.some.inj hs
              obtain ⟨hlt, hc, hv⟩ := besideLiteral_and ht hb hdef hbeside
              refine ⟨hinv.step hlt hc ?_, hlt⟩
              intro σ hσ v hσv
              obtain ⟨u, hu, rfl⟩ := hv σ hσ v hσv
              exact ⟨u, hu, and_mod_of_ones fun i hi => testBit_of_lt_trailingOnes (n := 64) (by omega)⟩
      · cases hs
  · next o left right hand hdef =>
      obtain ⟨hl, hr, hcl, hcr, hv⟩ := bitwise_operands ht hb hdef
      -- an operand whose mask misses the observed bits adds nothing to them
      have hdisj : ∀ {i x : Nat} {σ : Nat → Option Nat}, i < t.size → Valuation F t σ → σ i = some x →
          (maskedBits t i).mask &&& lowMask bits = 0 → x % 2 ^ bits = 0 := by
        intro i x σ hi hσ hx h0
        obtain ⟨u, -, rfl⟩ := (maskedBits_spec ht hi).2.2 σ hσ x hx
        exact and_mod_eq_zero_of_disjoint h0
      have happly : ∀ {x y : Nat}, x % 2 ^ bits = 0 → o.apply x y % 2 ^ bits = y % 2 ^ bits := by
        intro x y h0
        cases o with
        | and => exact (hand rfl).elim
        | or => exact or_mod_of_mod_eq_zero h0
        | xor => exact xor_mod_of_mod_eq_zero h0
      have hcomm : ∀ x y, o.apply x y = o.apply y x := by
        intro x y
        cases o with
        | and => exact Nat.and_comm x y
        | or => exact Nat.or_comm x y
        | xor => exact Nat.xor_comm x y
      split at hs
      · next h0 =>
          obtain rfl := Option.some.inj hs
          refine ⟨hinv.step hr hcr ?_, hr⟩
          intro σ hσ v hσv
          obtain ⟨x, y, hx, hy, rfl⟩ := hv σ hσ v hσv
          exact ⟨y, hy, happly (hdisj (by omega) hσ hx h0)⟩
      · split at hs
        · next h0 =>
            obtain rfl := Option.some.inj hs
            refine ⟨hinv.step hl hcl ?_, hl⟩
            intro σ hσ v hσv
            obtain ⟨x, y, hx, hy, rfl⟩ := hv σ hσ v hσv
            exact ⟨x, hx, by rw [hcomm]; exact happly (hdisj (by omega) hσ hy h0)⟩
        · cases hs
  · split at hs
    · cases hs
    · obtain ⟨⟨inner, addend⟩, hco, hp⟩ := Option.map_eq_some_iff.mp hs
      obtain rfl := hp.symm
      obtain ⟨hlt, hc, -, hv⟩ := constantOffset_spec ht hb hco
      refine ⟨⟨by dsimp only; omega, hc.trans hcar, ?_⟩, hlt⟩
      intro σ hσ v hσv
      obtain ⟨u, hu, hmod⟩ := hval σ hσ v hσv
      obtain ⟨w, hw, rfl⟩ := hv σ hσ u hu
      refine ⟨w, hw, ?_⟩
      have hbits' : bits ≤ (t.ty base).carrier.bits := by rw [hcar]; exact hbits
      dsimp only at hmod ⊢
      rw [← hmod, and_lowMask, Nat.add_mod_mod, Nat.add_mod ((w + addend) % _), mod_mod_two_pow hbits', ← Nat.add_mod]
      congr 1
      omega

/-- An explicit mask keeps the low bits of its input. -/
theorem yields_foldLowBits (hself : FoldsBelow F n self) (hn : 0 < n) (ht : Invariant F t) (hin : input < t.size)
    (hint : ty.isInteger = true) (hcar : (t.ty input).carrier = ty.carrier) (hbits : bits ≤ ty.carrier.bits) :
    Yields F t (foldLowBits self ty input bits) fun r t' =>
      Converts F t' ty (fun σ => (σ input).map (· % 2 ^ bits)) r := by
  have hne := Ty.carrier_ne_f64 hint
  -- a position of the carrier type whose carrier is the masked value
  have done : ∀ {t' : ValueTable} {r : Nat}, Invariant F t' → r < t'.size → (t'.ty r).carrier = ty.carrier →
      (∀ {σ v}, Valuation F t' σ → (σ input).map (· % 2 ^ bits) = some v → σ r = some v) →
      Converts F t' ty (fun σ => (σ input).map (· % 2 ^ bits)) r := fun ht' hr hc hv =>
    Converts.of_value ht' hr (Or.inr ⟨hc, convert_wellTyped hc hne⟩) hv
  refine Yields.get ?_
  split
  · next h0 =>
      subst h0
      refine (yields_literal ht ty 0).mono ?_
      rintro r t' hx ht' ⟨hr, -⟩
      refine Holds.converts ⟨hr.lt, hr.ty_eq, ?_⟩ ht'
      intro σ v hσ hv
      obtain ⟨x, -, rfl⟩ := Option.map_eq_some_iff.mp hv
      rw [Nat.pow_zero, Nat.mod_one]
      exact hr.value hσ (by simp)
  split
  · next hfits =>
      refine Yields.pure ht (done ht hin hcar ?_)
      intro σ v hσ hv
      obtain ⟨x, hx, rfl⟩ := Option.map_eq_some_iff.mp hv
      rw [hx, mod_two_pow_of_lt (ht.inBounds hσ hin hx).unsigned hfits]
  have hbits' : bits ≤ (t.ty input).carrier.bits := by rw [hcar]; exact hbits
  have hloop : LowBitsInvariant F t input bits (Descend.run (lowBitsStep t bits) (input + 1) (input, 0)) :=
    Descend.run_invariant (fun a b ha hb => (lowBitsStep_invariant ht hin hbits' a b ha hb).1)
      ⟨Nat.le_refl _, rfl, fun _ _ v hv => ⟨v, hv, rfl⟩⟩
  rcases hrun : Descend.run (lowBitsStep t bits) (input + 1) (input, 0) with ⟨base, offset⟩
  rw [hrun] at hloop
  obtain ⟨hle, hcb, hval⟩ := hloop
  dsimp only at hle hcb hval
  have hb : base < t.size := by omega
  have hcb' : (t.ty base).carrier = ty.carrier := hcb.trans hcar
  simp only
  split
  · next value hlit =>
      refine (yields_carrierLiteral ht ty _).mono ?_
      rintro r t' hx ht' ⟨hr, -⟩
      refine done ht' hr.lt (by rw [hr.ty_eq]) ?_
      intro σ v hσ hv
      obtain ⟨x, hx', rfl⟩ := Option.map_eq_some_iff.mp hv
      have hσ₀ := hσ.restrict ht.good hx
      obtain ⟨u, hu, hmod⟩ := hval σ hσ₀ x hx'
      rw [(ValueTable.value_of_scalarLiteral ht.good hσ₀ hb hlit).1] at hu
      obtain rfl := Option.some.inj hu
      refine hr.value hσ ?_
      rw [and_lowMask, mod_mod_two_pow' hbits, hmod]
  · -- the base at the result type
    have hbase : Yields F t (viewAs self ty base) fun b t' => Holds F t' ty (fun σ => σ base) b := by
      refine Yields.get ?_
      split
      · next hty => exact Yields.pure ht ⟨hb, hty, fun _ hv => hv⟩
      · refine (hself (e := .unary .convert base) ht (by simp [hb]) (convert_wellTyped hcb' hne)
          Nat.one_pos (fun _ _ => trivial) hn).mono ?_
        rintro r t' hx ht' hr
        refine ⟨hr.lt, hr.ty_eq, ?_⟩
        intro σ v hσ hv
        have hlt := ht.carrier_lt (hσ.restrict ht.good hx) hb hv
        refine hr.value hσ ?_
        rw [eval_convert hv hlt, ← hcb', Nat.mod_eq_of_lt hlt]
    refine Yields.bind hbase ?_
    intro b t₁ hx₁ ht₁ hbv
    refine Yields.bind (yields_addConstant ht₁ hbv.lt hint (by rw [hbv.ty_eq]) hbits) ?_
    intro r t₂ hx₂ ht₂ hr
    have hlow : ∀ {σ v}, Valuation F t₂ σ → σ input = some v → ∃ u, σ r = some u ∧ u % 2 ^ bits = v % 2 ^ bits := by
      intro σ v hσ hv
      have hσ₁ := hσ.restrict ht₁.good hx₂
      obtain ⟨u, hu, hmod⟩ := hval σ (hσ₁.restrict ht.good hx₁) v hv
      obtain ⟨w, hw, hmod'⟩ := hr.value hσ (v := u + offset) (by rw [hbv.value hσ₁ hu]; rfl)
      exact ⟨w, hw, hmod'.trans hmod⟩
    refine Yields.get ?_
    split
    · next hfits =>
        refine Yields.pure ht₂ (done ht₂ hr.lt hr.carrier_eq ?_)
        intro σ v hσ hv
        obtain ⟨x, hx, rfl⟩ := Option.map_eq_some_iff.mp hv
        obtain ⟨u, hu, hmod⟩ := hlow hσ hx
        rw [hu, ← hmod, mod_two_pow_of_lt (ht₂.inBounds hσ hr.lt hu).unsigned hfits]
    · have hw : UnaryOp.wellTyped (.lowBits bits) (t₂.ty r) ty = true := by
        simp [UnaryOp.wellTyped, Ty.isInteger_of_carrier hr.carrier_eq hint, hr.carrier_eq, hbits]
      refine (yields_intern (e := .unary (.lowBits bits) r) ht₂ (by simp [hr.lt]) hw (fun _ _ => trivial)
        (by rintro _ _ _ ⟨⟩)).mono ?_
      intro s t₃ hx₃ ht₃ hs
      refine Holds.converts ⟨hs.lt, hs.ty_eq, ?_⟩ ht₃
      intro σ v hσ hv
      obtain ⟨x, hx, rfl⟩ := Option.map_eq_some_iff.mp hv
      have hσ₂ := hσ.restrict ht₂.good hx₃
      obtain ⟨u, hu, hmod⟩ := hlow hσ₂ hx
      refine hs.value hσ ?_
      rw [eval_lowBits hu (ht₂.carrier_lt hσ₂ hr.lt hu) hw, hmod]

/-- A sign extension whose input already repeats its sign is a view of the input. -/
theorem yields_foldSignExtend (hself : FoldsBelow F n self) (ht : Invariant F t) (hin : input < t.size)
    {inputType : Ty} (hw : UnaryOp.wellTyped (.signExtend inputType) (t.ty input) ty = true)
    (hn : t.foldDepth ty (.unary (.signExtend inputType) input) < n + 1) :
    Yields F t (foldSignExtend self ty inputType input)
      (Rewrites F ty (evalExpr F t · ty (.unary (.signExtend inputType) input) 0)) := by
  obtain ⟨ha32, hci, hint, -⟩ := signExtend_spec hw
  -- the reading at the narrower type is the reading of the whole carrier
  have hread : ∀ {σ x}, (t.boundsOf input).signed ≤ inputType.bits → Valuation F t σ → σ input = some x →
      signed inputType.bits x = signed 32 x := by
    intro σ x hcanon hσ hx
    have hs := (ht.inBounds hσ hin hx).signed
    rw [hci] at hs
    exact hs.signed_eq hcanon ha32
  refine Yields.get ?_
  dsimp only
  split
  · next hcond =>
      have hcar : ty.carrier = .i32 := by
        have := hcond.2
        revert hint this
        cases ty <;> simp [Ty.carrier, Ty.isInteger]
      refine Yields.pure ht (Rewrites.some (Converts.of_value ht hin
        (Or.inr ⟨hci.trans hcar.symm, convert_wellTyped (hci.trans hcar.symm) (by rw [hcar]; decide)⟩) ?_))
      intro σ v hσ hv
      obtain ⟨x, hx, hxlt⟩ := ht.operand hσ hv hin (by simp)
      rw [eval_signExtend hx hxlt hw, hcar, hread hcond.1 hσ hx] at hv
      rw [hci] at hxlt
      rw [hx, ← hv, show Ty.i32.bits = 32 from rfl, word_signed _ (Nat.le_refl 32)]
      exact congrArg some (Nat.mod_eq_of_lt hxlt).symm
  split
  · next hcond =>
      have hw₁ : UnaryOp.wellTyped .convert (t.ty input) .i32 = true :=
        convert_wellTyped (hci.trans (by rfl)) (by decide)
      have hn' : 0 < n := by
        simp only [ValueTable.foldDepth, if_neg hcond.2] at hn
        omega
      refine Yields.bind (hself (e := .unary .convert input) (a := .i32) ht (by simp [hin]) hw₁
        Nat.one_pos (fun _ _ => trivial) (by simp only [ValueTable.foldDepth]; omega)) ?_
      intro view t₁ hx₁ ht₁ hview
      have hw₂ : UnaryOp.wellTyped (.signExtend .i32) (t₁.ty view) ty = true := by
        simp [UnaryOp.wellTyped, hview.ty_eq, hint, Ty.carrier]
      refine yields_some ?_
      refine (hself (e := .unary (.signExtend .i32) view) ht₁ (by simp [hview.lt]) hw₂ Nat.one_pos
        (fun _ _ => trivial) (by simp [ValueTable.foldDepth]; omega)).mono ?_
      intro r t₂ hx₂ ht₂ hr
      refine Holds.converts ⟨hr.lt, hr.ty_eq, ?_⟩ ht₂
      intro σ v hσ hv
      have hσ₁ := hσ.restrict ht₁.good hx₂
      have hσ₀ := hσ₁.restrict ht.good hx₁
      obtain ⟨x, hx, hxlt⟩ := ht.operand hσ₀ hv hin (by simp)
      rw [eval_signExtend hx hxlt hw, hread hcond.1 hσ₀ hx] at hv
      rw [hci] at hxlt
      have hviewv := hview.value hσ₁ (v := x) (by
        rw [eval_convert hx (by rw [hci]; exact hxlt)]
        exact congrArg some (Nat.mod_eq_of_lt hxlt))
      refine hr.value hσ ?_
      rw [eval_signExtend hviewv (ht₁.carrier_lt hσ₁ hview.lt hviewv) hw₂]
      exact hv
  · exact Yields.pure ht Rewrites.none

/-- A sign extension that is not folded widens its carrier. -/
theorem foldSignExtend_widens {t' : ValueTable} {inputType : Ty}
    (hw : UnaryOp.wellTyped (.signExtend inputType) (t.ty input) ty = true) (hin : input < t.size) (hfits : t.Fits)
    (h : foldSignExtend self ty inputType input t = some (none, t')) : inputType.bits < ty.carrier.bits := by
  obtain ⟨hbits, hcar, -, htarget⟩ := signExtend_spec hw
  by_contra hwide
  have hbounds := hfits input hin
  rw [hcar] at hbounds
  have hcanonical : (t.boundsOf input).signed ≤ inputType.bits ∧ ty ≠ .i64 := by
    refine ⟨hbounds.trans (htarget.trans (Nat.not_lt.mp hwide)), ?_⟩
    rintro rfl
    exact hwide (Nat.lt_of_le_of_lt hbits (by decide))
  have hkept : foldSignExtend self ty inputType input t = some (some input, t) := by
    rw [foldSignExtend]
    exact congrFun (if_pos hcanonical) t
  cases hkept.symm.trans h

/-- A conversion to a type no wider than its source truncates the carrier. -/
theorem yields_convert_narrow (hself : FoldsBelow F n self) (hn : 0 < n) (ht : Invariant F t) (hin : input < t.size)
    {a : Ty} (hle : a.bits ≤ (t.ty input).bits) (hw : UnaryOp.wellTyped .convert (t.ty input) a = true) :
    Yields F t (convert self input a) fun r t' =>
      Holds F t' a (fun σ => (σ input).map (· % 2 ^ a.carrier.bits)) r := by
  refine Yields.get ?_
  dsimp only
  split
  · next hty =>
      refine Yields.pure ht ⟨hin, hty, ?_⟩
      intro σ v hσ hv
      obtain ⟨x, hx, rfl⟩ := Option.map_eq_some_iff.mp hv
      have := ht.carrier_lt hσ hin hx
      rw [hty] at this
      rw [hx, Nat.mod_eq_of_lt this]
  · rw [if_neg (by omega)]
    refine Yields.bind (Yields.pure (Q := fun i t' => i = input ∧ t' = t) ht ⟨rfl, rfl⟩) ?_
    rintro i t' - - ⟨rfl, rfl⟩
    refine (hself (e := .unary .convert i) ht (by simp [hin]) hw Nat.one_pos (fun _ _ => trivial) hn).mono ?_
    intro r t' hx ht' hr
    refine ⟨hr.lt, hr.ty_eq, ?_⟩
    intro σ v hσ hv
    obtain ⟨x, hxv, rfl⟩ := Option.map_eq_some_iff.mp hv
    refine hr.value hσ ?_
    rw [eval_convert hxv (ht.carrier_lt (hσ.restrict ht.good hx) hin hxv)]

end

end Folder

end Relocade.Compiler
