import Relocade.Compiler.Fold.Bitwise

/-!
# `Compiler.Fold.Shifts` — selections, shifts, rotations and packed identities
-/

namespace Relocade.Compiler

open Words

namespace Folder

/-- A selection that its condition or its operands decide. -/
def foldSelect (self : Fold) (condition whenTrue whenFalse : Nat) : Construct (Option Nat) := do
  let t ← get
  match t.scalarLiteral condition with
  | some bits => pure (some (if bits = 0 then whenFalse else whenTrue))
  | none =>
      if t.representation whenTrue = t.representation whenFalse then pure (some whenTrue)
      else if ¬ (t.ty whenTrue).isInteger then pure none
      -- A truth consumer accepts any nonzero carrier. Numeric selection must still produce exactly zero or one.
      else if t.scalarLiteral whenTrue = some 1 ∧ t.scalarLiteral whenFalse = some 0 then
        some <$> self .i1 (.unary (.zeroTest true) condition) 0
      else if t.scalarLiteral whenTrue = some 0 ∧ t.scalarLiteral whenFalse = some 1 then
        some <$> self .i1 (.unary (.zeroTest false) condition) 0
      else pure none

/-- The input of a stored reinterpretation. -/
def reinterpretInput (t : ValueTable) (input : Nat) : Option Nat :=
  match t.definition input with
  | .expression (.unary .reinterpret input) => some input
  | _ => none

def isZeroCount (t : ValueTable) (ty : Ty) (count : Nat) : Bool :=
  match t.scalarLiteral count with
  | some bits => Integer.shiftCount ty (bits % 2 ^ 32) = 0
  | none => false

def foldShift (t : ValueTable) (ty : Ty) (input count : Nat) : Option Nat :=
  if isZeroCount t ty count ∨ (t.boundsOf input).unsigned = 0 then some input else none

/-- Rotating no bits or all bits changes nothing. -/
def isIdentityInput (t : ValueTable) (ty : Ty) (input : Nat) : Bool :=
  match t.scalarLiteral input with
  | some bits => bits = 0 || bits = ty.carrier.mask
  | none => false

def foldRotate (t : ValueTable) (ty : Ty) (input count : Nat) : Option Nat :=
  (foldShift t ty input count).or (if isIdentityInput t ty input then some input else none)

/-- The packed encoding of ones. -/
def laneOnes : Ty → Nat
  | .i16 => 0x00010001000100010001000100010001
  | .i32 => 0x00000001000000010000000100000001
  | .i64 => 0x00000000000000010000000000000001
  -- packed multiplication uses word or wider lanes
  | _ => 0

/-- Lane arithmetic with zeros, ones or equal operands. -/
def foldVector (ty : Ty) (operator : LaneBinaryOp) (laneType : Ty) (left right : Nat) : Construct (Option Nat) := do
  let t ← get
  let a := t.representation left
  let b := t.representation right
  let x := vectorLiteral t a
  let y := vectorLiteral t b
  match operator with
  | .sub | .subSatSigned | .subSatUnsigned =>
      if a = b then some <$> literal ty 0 else if y = some 0 then pure (some left) else pure none
  | .gtSigned => if a = b then some <$> literal ty 0 else pure none
  -- Even V64 equality sets the unused upper carrier lanes.
  | .eq => if a = b then some <$> carrierLiteral ty (2 ^ 128 - 1) else pure none
  | .minSigned | .minUnsigned | .maxSigned | .maxUnsigned | .averageUnsigned =>
      if a = b then pure (some left) else pure none
  | .add | .addSatSigned | .addSatUnsigned =>
      if x = some 0 then pure (some right) else if y = some 0 then pure (some left) else pure none
  | .mul =>
      if x = some 0 ∨ y = some 0 then some <$> literal ty 0
      else if x = some (laneOnes laneType) then pure (some right)
      else if y = some (laneOnes laneType) then pure (some left)
      else pure none
  | .wideningMulLow _ | .wideningMulHigh _ | .dotI16Signed =>
      if x = some 0 ∨ y = some 0 then some <$> literal ty 0 else pure none

def foldLaneShift (t : ValueTable) (value count : Nat) (laneType : Ty) : Option Nat :=
  if vectorLiteral t (t.representation value) = some 0 ∨
      (t.scalarLiteral (t.representation count)).any (· % laneType.bits = 0) then some value
  else none

variable {F : Floating} {t : ValueTable} {ty : Ty} {self : Fold} {n left right input : Nat} {σ : Nat → Option Nat}

/-! ## Selections -/

theorem yields_foldSelect (hself : FoldsBelow F n self) (ht : Invariant F t) {cond whenTrue whenFalse : Nat}
    (h₁ : whenTrue < t.size) (h₂ : whenFalse < t.size) (h₃ : cond < t.size)
    (hw : TernaryOp.wellTyped .select (t.ty whenTrue) (t.ty whenFalse) (t.ty cond) ty = true)
    (hn : cond + 2 < n) :
    Yields F t (foldSelect self cond whenTrue whenFalse)
      (Rewrites F ty (evalExpr F t · ty (.ternary .select whenTrue whenFalse cond) 0)) := by
  have hw' := hw
  simp only [TernaryOp.wellTyped, Bool.and_eq_true, decide_eq_true_eq] at hw'
  obtain ⟨⟨hc₁, hc₂⟩, hc₃⟩ := hw'
  have hops : ∀ {σ v}, Valuation F t σ →
      evalExpr F t σ ty (.ternary .select whenTrue whenFalse cond) 0 = some v →
      ∃ x y z, σ whenTrue = some x ∧ σ whenFalse = some y ∧ σ cond = some z ∧ v = if z ≠ 0 then x else y := by
    intro σ v hσ hv
    obtain ⟨x, hx⟩ := evalExpr_inputs hv whenTrue (by simp)
    obtain ⟨y, hy⟩ := evalExpr_inputs hv whenFalse (by simp)
    obtain ⟨z, hz⟩ := evalExpr_inputs hv cond (by simp)
    rw [eval_select hx hy hz (ht.carrier_lt hσ h₁ hx) (ht.carrier_lt hσ h₂ hy) (ht.carrier_lt hσ h₃ hz) hw] at hv
    exact ⟨x, y, z, hx, hy, hz, (Option.some.inj hv).symm⟩
  -- a selected operand keeps its carrier type, floating-point values included
  have same : ∀ {i : Nat}, i < t.size → (t.ty i).carrier = ty.carrier →
      (∀ {σ v}, Valuation F t σ → evalExpr F t σ ty (.ternary .select whenTrue whenFalse cond) 0 = some v →
        σ i = some v) →
      Yields F t (pure (some i)) (Rewrites F ty (evalExpr F t · ty (.ternary .select whenTrue whenFalse cond) 0)) := by
    intro i hi hc hv
    refine Yields.pure ht (Rewrites.some (Converts.of_value ht hi ?_ hv))
    by_cases hf : ty.carrier = .f64
    · left
      rw [Ty.eq_f64_of_carrier hf, Ty.eq_f64_of_carrier (hc.trans hf)]
    · exact Or.inr ⟨hc, convert_wellTyped hc hf⟩
  refine Yields.get ?_
  split
  · next bits hlit =>
      have hcond : ∀ {σ z}, Valuation F t σ → σ cond = some z → z = bits := by
        intro σ z hσ hz
        rw [(ValueTable.value_of_scalarLiteral ht.good hσ h₃ hlit).1] at hz
        exact (Option.some.inj hz).symm
      by_cases h0 : bits = 0
      · rw [if_pos h0]
        refine same h₂ hc₂ ?_
        intro σ v hσ hv
        obtain ⟨x, y, z, -, hy, hz, rfl⟩ := hops hσ hv
        rw [hcond hσ hz, h0, hy]
        rfl
      · rw [if_neg h0]
        refine same h₁ hc₁ ?_
        intro σ v hσ hv
        obtain ⟨x, y, z, hx, -, hz, rfl⟩ := hops hσ hv
        rw [hcond hσ hz, hx, if_pos h0]
  split
  · next hrep =>
      refine same h₁ hc₁ ?_
      intro σ v hσ hv
      obtain ⟨x, y, z, hx, hy, hz, rfl⟩ := hops hσ hv
      obtain rfl := ValueTable.eq_of_representation ht hσ h₁ h₂ hrep hx hy
      rw [ite_self, hx]
  split
  · exact Yields.pure ht Rewrites.none
  next hint =>
  have hint : (t.ty whenTrue).isInteger = true := by simpa using hint
  have htyint : ty.isInteger = true := Ty.isInteger_of_carrier hc₁.symm hint
  have hcint : (t.ty cond).isInteger = true := by
    rw [← Ty.isInteger_carrier, hc₃]
    rfl
  -- a numeric selection between one and zero is the truth of its cond
  have truth : ∀ {nonzero : Bool}, (∀ {σ x y}, Valuation F t σ → σ whenTrue = some x → σ whenFalse = some y →
        x = nonzero.toNat ∧ y = (!nonzero).toNat) →
      Yields F t (some <$> self .i1 (.unary (.zeroTest nonzero) cond) 0)
        (Rewrites F ty (evalExpr F t · ty (.ternary .select whenTrue whenFalse cond) 0)) := by
    intro nonzero harms
    have hwz : UnaryOp.wellTyped (.zeroTest nonzero) (t.ty cond) .i1 = true := by
      simp [UnaryOp.wellTyped, hcint]
    refine yields_some ((hself (e := .unary (.zeroTest nonzero) cond) ht (by simp [h₃]) hwz
      Nat.one_pos (fun _ _ => trivial) (by simpa [ValueTable.foldDepth] using hn)).mono ?_)
    intro r t' hx ht' hr
    refine ⟨hr.lt, Or.inr (by rw [hr.ty_eq]; simp [UnaryOp.wellTyped, htyint, show Ty.i1.isInteger = true from rfl]), ?_⟩
    intro σ v hσ hv
    have hσ₀ := hσ.restrict ht.good hx
    obtain ⟨x, y, z, hxv, hyv, hz, rfl⟩ := hops hσ₀ hv
    obtain ⟨rfl, rfl⟩ := harms hσ₀ hxv hyv
    refine ⟨_, hr.value hσ (eval_zeroTest hz (ht.carrier_lt hσ₀ h₃ hz) hwz), ?_⟩
    have hone : 1 % 2 ^ ty.carrier.bits = 1 := by
      refine Nat.mod_eq_of_lt (Nat.one_lt_two_pow (Nat.ne_of_gt ty.carrier.bits_pos))
    cases nonzero <;> by_cases h0 : z = 0 <;> simp [h0, hone]
  split
  · next hlit =>
      refine truth ?_
      intro σ x y hσ hx hy
      rw [(ValueTable.value_of_scalarLiteral ht.good hσ h₁ hlit.1).1] at hx
      rw [(ValueTable.value_of_scalarLiteral ht.good hσ h₂ hlit.2).1] at hy
      exact ⟨(Option.some.inj hx).symm, (Option.some.inj hy).symm⟩
  split
  · next hlit =>
      refine truth ?_
      intro σ x y hσ hx hy
      rw [(ValueTable.value_of_scalarLiteral ht.good hσ h₁ hlit.1).1] at hx
      rw [(ValueTable.value_of_scalarLiteral ht.good hσ h₂ hlit.2).1] at hy
      exact ⟨(Option.some.inj hx).symm, (Option.some.inj hy).symm⟩
  · exact Yields.pure ht Rewrites.none

/-! ## Shifts and rotations -/

variable {o : Integer.ShiftOp}

variable {a : Ty}

theorem shift_zero_count (ha : a.isInteger = true) {x c : Nat}
    (hx : x < 2 ^ a.carrier.bits) (hc : Integer.shiftCount a.carrier c = 0) :
    Integer.shift a.carrier o x c % 2 ^ a.carrier.bits = x := by
  have h64 := Ty.carrier_bits_of_isInteger ha
  cases o with
  | left => simp only [Integer.shift, hc, Nat.shiftLeft_zero, mod_mod_two_pow h64, Nat.mod_eq_of_lt hx]
  | rightUnsigned => simp only [Integer.shift, hc, Nat.shiftRight_zero, Nat.mod_eq_of_lt hx]
  | rightSigned =>
    simp only [Integer.shift, hc, Integer.signedValue]
    rw [show ∀ i : Int, i >>> (0 : Nat) = i from fun i => by simp [Int.shiftRight_eq_div_pow], word_mod _ h64,
      word_signed _ (Nat.le_refl _), Nat.mod_eq_of_lt hx]

theorem shift_zero {c : Nat} : Integer.shift a o 0 c = 0 := by
  cases o with
  | left => simp [Integer.shift]
  | rightUnsigned => simp [Integer.shift]
  | rightSigned => simp [Integer.shift, Integer.signedValue, signed, word, Int.shiftRight_eq_div_pow]

variable {count : Nat}

theorem isZeroCount_eq_true (h : isZeroCount t ty count = true) :
    ∃ bits, t.scalarLiteral count = some bits ∧ Integer.shiftCount ty (bits % 2 ^ 32) = 0 := by
  unfold isZeroCount at h
  split at h
  · next bits hlit => exact ⟨bits, hlit, by simpa using h⟩
  · cases h

theorem foldShift_eq_some {count i : Nat} (h : foldShift t ty input count = some i) :
    i = input ∧ (isZeroCount t ty count = true ∨ (t.boundsOf input).unsigned = 0) := by
  unfold foldShift at h
  split at h
  · next hcond => exact ⟨(Option.some.inj h).symm, hcond⟩
  · cases h

theorem rewrites_foldShift (ht : Invariant F t) (hin : input < t.size)
    (hcnt : count < t.size) (hw : ShiftOp.wellTyped (.scalar o) (t.ty input) (t.ty count) ty = true) :
    Rewrites F ty (evalExpr F t · ty (.shift (.scalar o) input count) 0) (foldShift t ty input count) t := by
  intro i hi
  obtain ⟨rfl, hcond⟩ := foldShift_eq_some hi
  obtain ⟨hint, hci, -⟩ := scalar_spec hw
  have hne := Ty.carrier_ne_f64 hint
  refine Converts.of_value ht hin (Or.inr ⟨hci, convert_wellTyped hci hne⟩) ?_
  intro σ v hσ hv
  obtain ⟨x, hx, hxlt⟩ := ht.operand hσ hv hin (by simp)
  obtain ⟨y, hy⟩ := evalExpr_inputs hv count (by simp)
  rw [eval_shift hx hy hxlt (ht.carrier_lt hσ hcnt hy) hw] at hv
  obtain rfl := Option.some.inj hv
  rw [hci] at hxlt
  rcases hcond with hz | hz
  · obtain ⟨bits, hlit, hz⟩ := isZeroCount_eq_true hz
    rw [(ValueTable.value_of_scalarLiteral ht.good hσ hcnt hlit).1] at hy
    obtain rfl := Option.some.inj hy
    rw [shift_zero_count hint hxlt (by rw [Integer.shiftCount_carrier]; exact hz), hx]
  · have hxu := (ht.inBounds hσ hin hx).unsigned
    rw [hz] at hxu
    obtain rfl : x = 0 := by omega
    rw [shift_zero, Nat.zero_mod, hx]

/-- Rotations of zero and of all ones change nothing. -/
theorem rotate_constant (ha : a.isInteger = true) {o : Integer.RotateOp} {x c : Nat}
    (hx : x = 0 ∨ x = a.carrier.mask) : Integer.rotate a.carrier o x c % 2 ^ a.carrier.bits = x := by
  have hrc : Integer.rotateCount a.carrier c < a.carrier.bits := Nat.mod_lt _ a.carrier.bits_pos
  have h64 := Ty.carrier_bits_of_isInteger ha
  rcases hx with rfl | rfl
  · cases o <;> simp [Integer.rotate]
  · unfold Integer.rotate
    simp only
    split
    · exact Nat.mod_eq_of_lt (lowMask_lt _)
    · next hne =>
        generalize hw : a.carrier.bits = w at *
        generalize Integer.rotateCount a.carrier c = k at *
        cases o with
        | left =>
          apply Nat.eq_of_testBit_eq
          intro i
          simp only [Ty.mask, hw, Nat.testBit_mod_two_pow, Nat.testBit_or, Nat.testBit_shiftLeft,
            Nat.testBit_shiftRight, testBit_lowMask]
          by_cases hi : i < w
          · by_cases hk : k ≤ i
            · have : i < 64 := by omega
              have : i - k < w := by omega
              simp [*]
            · have : w - k + i < w := by omega
              simp [*]
          · simp [hi]
        | right =>
          apply Nat.eq_of_testBit_eq
          intro i
          simp only [Ty.mask, hw, Nat.testBit_mod_two_pow, Nat.testBit_or, Nat.testBit_shiftLeft,
            Nat.testBit_shiftRight, testBit_lowMask]
          by_cases hi : i < w
          · by_cases hk : w - k ≤ i
            · have : i < 64 := by omega
              have : i - (w - k) < w := by omega
              simp [*]
            · have : k + i < w := by omega
              simp [*]
          · simp [hi]

theorem rewrites_foldRotate (ht : Invariant F t) {o : Integer.RotateOp} (hin : input < t.size)
    (hcnt : count < t.size) (hw : ShiftOp.wellTyped (.rotate o) (t.ty input) (t.ty count) ty = true) :
    Rewrites F ty (evalExpr F t · ty (.shift (.rotate o) input count) 0) (foldRotate t ty input count) t := by
  have hw' := hw
  simp only [ShiftOp.wellTyped, Bool.and_eq_true, decide_eq_true_eq] at hw'
  obtain ⟨⟨hint, hci⟩, -⟩ := hw'
  have hne := Ty.carrier_ne_f64 hint
  -- whichever reason applies, the rotation is the identity
  have finish : (∀ {σ x y}, Valuation F t σ → σ input = some x → σ count = some y → x < 2 ^ ty.carrier.bits →
        Integer.rotate ty.carrier o x (y % 2 ^ 32) % 2 ^ ty.carrier.bits = x) →
      Converts F t ty (evalExpr F t · ty (.shift (.rotate o) input count) 0) input := by
    intro hrot
    refine Converts.of_value ht hin (Or.inr ⟨hci, convert_wellTyped hci hne⟩) ?_
    intro σ v hσ hv
    obtain ⟨x, hx, hxlt⟩ := ht.operand hσ hv hin (by simp)
    obtain ⟨y, hy⟩ := evalExpr_inputs hv count (by simp)
    rw [eval_rotate hx hy hxlt (ht.carrier_lt hσ hcnt hy) hw] at hv
    obtain rfl := Option.some.inj hv
    rw [hci] at hxlt
    rw [hrot hσ hx hy hxlt, hx]
  intro i hi
  unfold foldRotate at hi
  rcases Option.or_eq_some_iff.mp hi with h | ⟨-, h⟩
  · obtain ⟨rfl, hcond⟩ := foldShift_eq_some h
    refine finish ?_
    intro σ x y hσ hx hy hxlt
    rcases hcond with hz | hz
    · obtain ⟨bits, hlit, hz⟩ := isZeroCount_eq_true hz
      rw [(ValueTable.value_of_scalarLiteral ht.good hσ hcnt hlit).1] at hy
      obtain rfl := Option.some.inj hy
      rw [Integer.shiftCount_eq_mod hint] at hz
      have hr : Integer.rotateCount ty.carrier (bits % 2 ^ 32) = 0 := hz
      unfold Integer.rotate
      simp only [hr, if_true, Nat.mod_eq_of_lt hxlt]
    · have hxu := (ht.inBounds hσ hin hx).unsigned
      rw [hz] at hxu
      obtain rfl : x = 0 := by omega
      exact rotate_constant hint (Or.inl rfl)
  · split at h
    · next hcond =>
        obtain rfl := Option.some.inj h
        refine finish ?_
        intro σ x y hσ hx hy hxlt
        unfold isIdentityInput at hcond
        split at hcond
        · next bits hlit =>
            rw [(ValueTable.value_of_scalarLiteral ht.good hσ hin hlit).1] at hx
            obtain rfl := Option.some.inj hx
            exact rotate_constant hint (by simpa using hcond)
        · cases hcond
    · cases h

/-! ## Packed identities -/

section

variable {o : LaneBinaryOp} {a : Ty} {l r x : Nat}

theorem lane_zero (w i : Nat) : lane w i 0 = 0 := by simp [lane]

theorem signedValue_zero (a : Ty) : Integer.signedValue a 0 = 0 := by simp [Integer.signedValue, signed]

theorem Ty.bits_of_isLane (ha : a.isLane = true) : 8 ≤ a.bits ∧ a.bits ≤ 64 := by
  revert ha
  cases a <;> decide

/-- Truncating a count to 32 bits keeps its residue modulo any width. -/
theorem Ty.bits_dvd (a : Ty) : a.bits ∣ 2 ^ 32 := by
  cases a <;> decide

/-- Operations that work lane by lane. -/
def laneWise : LaneBinaryOp → Bool
  | .wideningMulLow _ | .wideningMulHigh _ | .dotI16Signed => false
  | _ => true

theorem binary_laneWise (ho : laneWise o = true) : Packed.binary o a l r =
    pack a.bits (fun i => Packed.laneResult o a (lane a.bits i l) (lane a.bits i r)) (128 / a.bits) := by
  cases o <;> first | rfl | exact absurd ho (by simp [laneWise])

/-- A packed operation is `x` when each of its lanes is. -/
theorem binary_eq (ho : laneWise o = true) (hx : x < 2 ^ 128)
    (h : ∀ i < 128 / a.bits,
      Packed.laneResult o a (lane a.bits i l) (lane a.bits i r) % 2 ^ a.bits = lane a.bits i x) :
    Packed.binary o a l r = x := by
  have hx' : x < 2 ^ (128 / a.bits * a.bits) := by
    rw [Ty.lanes_mul a]
    exact hx
  rw [binary_laneWise ho, ← pack_lane a.bits_pos hx']
  refine pack_congr fun i hi => ?_
  rw [h i hi]
  exact (Nat.mod_eq_of_lt (lane_lt _ _ _)).symm

/-- A word written at 64 bits and cut to a lane is the lane it was read from. -/
theorem word_signedValue (ha : a.isLane = true) {u : Nat} (hu : u < 2 ^ a.bits) :
    word 64 (Integer.signedValue a u) % 2 ^ a.bits = u := by
  rw [word_mod _ (Ty.bits_of_isLane ha).2, Integer.signedValue, word_signed _ (Nat.le_refl _), Nat.mod_eq_of_lt hu]

/-- Saturation leaves a value in range alone. -/
theorem clamp_signedValue (a : Ty) (u : Nat) :
    max (-(2 ^ (a.bits - 1))) (min (Integer.signedValue a u) (2 ^ (a.bits - 1) - 1)) = Integer.signedValue a u := by
  have h₁ := le_two_mul_signed a.bits u
  have h₂ := two_mul_signed_lt a.bits u
  have hpow : ((2 ^ a.bits : Nat) : Int) = 2 * 2 ^ (a.bits - 1) := by
    obtain ⟨k, hk⟩ := Nat.exists_eq_succ_of_ne_zero (Nat.ne_of_gt a.bits_pos)
    rw [hk, Nat.succ_sub_one, pow_succ]
    push_cast
    ring
  rw [hpow] at h₁ h₂
  have h₁' : -(2 ^ (a.bits - 1)) ≤ Integer.signedValue a u := by
    show -(2 ^ (a.bits - 1)) ≤ signed a.bits u
    linarith
  have h₂' : Integer.signedValue a u ≤ 2 ^ (a.bits - 1) - 1 := by
    show signed a.bits u ≤ 2 ^ (a.bits - 1) - 1
    linarith
  rw [min_eq_left h₂', max_eq_right h₁']

theorem clamp_zero : max (-(2 ^ (a.bits - 1) : Int)) (min 0 (2 ^ (a.bits - 1) - 1)) = 0 := by
  have : (0 : Int) < 2 ^ (a.bits - 1) := by positivity
  rw [min_eq_left (by omega), max_eq_right (by omega)]

theorem two_pow_64_mod (ha : a.isLane = true) : 2 ^ 64 % 2 ^ a.bits = 0 :=
  Nat.mod_eq_zero_of_dvd (pow_dvd_pow 2 (Ty.bits_of_isLane ha).2)

theorem sub_self_lane (ha : a.isLane = true) {u : Nat} (hu : u < 2 ^ a.bits) : (u + (2 ^ 64 - u)) % 2 ^ a.bits = 0 := by
  have := lt_two_pow_mono hu (Ty.bits_of_isLane ha).2
  rw [Nat.add_sub_of_le (Nat.le_of_lt this), two_pow_64_mod ha]

/-- Differences of a vector with itself are zero. -/
theorem binary_self_zero (hs : o.supports a = true)
    (ho : o = .sub ∨ o = .subSatSigned ∨ o = .subSatUnsigned ∨ o = .gtSigned) : Packed.binary o a l l = 0 := by
  have ha : a.isLane = true := by
    rcases ho with rfl | rfl | rfl | rfl
    · exact hs
    · revert hs
      cases a <;> decide
    · revert hs
      cases a <;> decide
    · exact hs
  refine binary_eq (by rcases ho with rfl | rfl | rfl | rfl <;> rfl) (by decide) fun i _ => ?_
  have hu := lane_lt a.bits i l
  rw [lane_zero]
  rcases ho with rfl | rfl | rfl | rfl
  · exact sub_self_lane ha hu
  · simp only [Packed.laneResult, sub_self, clamp_zero]
    simp [word]
  · simp [Packed.laneResult]
  · simp [Packed.laneResult]

theorem binary_self_eq : Packed.binary .eq a l l = 2 ^ 128 - 1 := by
  refine binary_eq rfl (by decide) fun i hi => ?_
  have hle : i * a.bits + a.bits ≤ 128 := by
    have := Nat.mul_le_mul_right a.bits (Nat.succ_le_of_lt hi)
    rw [Ty.lanes_mul a, Nat.succ_mul] at this
    exact this
  simp only [Packed.laneResult, if_true]
  rw [show 2 ^ 128 - 1 = lowMask 128 from rfl, lane_lowMask hle]
  exact Nat.mod_eq_of_lt (lowMask_lt _)

/-- Minima, maxima and averages of a vector with itself. -/
theorem binary_self (hs : o.supports a = true) (hl : l < 2 ^ 128)
    (ho : o = .minSigned ∨ o = .minUnsigned ∨ o = .maxSigned ∨ o = .maxUnsigned ∨ o = .averageUnsigned) :
    Packed.binary o a l l = l := by
  have hwise : laneWise o = true := by rcases ho with rfl | rfl | rfl | rfl | rfl <;> rfl
  have ha := LaneBinaryOp.isLane_of_supports hs
  refine binary_eq hwise hl fun i _ => ?_
  have hu := lane_lt a.bits i l
  rcases ho with rfl | rfl | rfl | rfl | rfl
  · simp only [Packed.laneResult, min_self, word_signedValue ha hu]
  · simp only [Packed.laneResult, min_self, Nat.mod_eq_of_lt hu]
  · simp only [Packed.laneResult, max_self, word_signedValue ha hu]
  · simp only [Packed.laneResult, max_self, Nat.mod_eq_of_lt hu]
  · simp only [Packed.laneResult]
    rw [show ∀ u : Nat, (u + u + 1) >>> 1 = u from fun u => by rw [Nat.shiftRight_eq_div_pow]; omega,
      Nat.mod_eq_of_lt hu]

/-- Zero is neutral on the right of sums and differences. -/
theorem binary_zero_right (hs : o.supports a = true) (hl : l < 2 ^ 128)
    (ho : o = .add ∨ o = .addSatSigned ∨ o = .addSatUnsigned ∨ o = .sub ∨ o = .subSatSigned ∨ o = .subSatUnsigned) :
    Packed.binary o a l 0 = l := by
  have hwise : laneWise o = true := by rcases ho with rfl | rfl | rfl | rfl | rfl | rfl <;> rfl
  have ha := LaneBinaryOp.isLane_of_supports hs
  refine binary_eq hwise hl fun i _ => ?_
  have hu := lane_lt a.bits i l
  rw [lane_zero]
  rcases ho with rfl | rfl | rfl | rfl | rfl | rfl
  · simp only [Packed.laneResult, Nat.add_zero, Nat.mod_eq_of_lt hu]
  · simp only [Packed.laneResult, signedValue_zero, add_zero, clamp_signedValue a, word_signedValue ha hu]
  · have hmask : lane a.bits i l ≤ a.mask := by
      show _ ≤ 2 ^ a.bits - 1
      omega
    simp only [Packed.laneResult, Nat.add_zero, min_eq_left hmask, Nat.mod_eq_of_lt hu]
  · simp only [Packed.laneResult, Nat.sub_zero]
    rw [Nat.add_mod, two_pow_64_mod ha, Nat.add_zero, Nat.mod_mod, Nat.mod_eq_of_lt hu]
  · simp only [Packed.laneResult, signedValue_zero, sub_zero, clamp_signedValue a, word_signedValue ha hu]
  · simp only [Packed.laneResult, Nat.sub_zero, Nat.mod_eq_of_lt hu]

/-- Zero is neutral on the left of sums. -/
theorem binary_zero_left (hs : o.supports a = true) (hr : r < 2 ^ 128)
    (ho : o = .add ∨ o = .addSatSigned ∨ o = .addSatUnsigned) : Packed.binary o a 0 r = r := by
  have hwise : laneWise o = true := by rcases ho with rfl | rfl | rfl <;> rfl
  have hcomm : Packed.binary o a 0 r = Packed.binary o a r 0 := by
    rw [binary_laneWise hwise, binary_laneWise hwise]
    refine pack_congr fun i _ => ?_
    rcases ho with rfl | rfl | rfl
    · simp only [Packed.laneResult, Nat.add_comm]
    · simp only [Packed.laneResult, Int.add_comm]
    · simp only [Packed.laneResult, Nat.add_comm]
  rw [hcomm]
  exact binary_zero_right hs hr (by tauto)

/-- Products with zero are zero. -/
theorem binary_mul_zero (hzero : l = 0 ∨ r = 0)
    (ho : o = .mul ∨ (∃ s, o = .wideningMulLow s) ∨ (∃ s, o = .wideningMulHigh s) ∨ o = .dotI16Signed) :
    Packed.binary o a l r = 0 := by
  have hword : word 64 0 = 0 := by simp [word]
  have hwide : ∀ {s : Bool} {u v : Nat}, u = 0 ∨ v = 0 → Packed.wideningMul a u v s = 0 := by
    intro s u v h
    refine pack_zero fun i _ => ?_
    rcases h with rfl | rfl <;> cases s <;> simp [lane_zero, signedValue_zero, hword]
  rcases ho with rfl | ⟨s, rfl⟩ | ⟨s, rfl⟩ | rfl
  · refine binary_eq rfl (by decide) fun i _ => ?_
    rcases hzero with rfl | rfl <;> simp [Packed.laneResult, lane_zero]
  · exact hwide hzero
  · exact hwide (hzero.imp (fun h => by rw [h, Nat.zero_shiftRight]) (fun h => by rw [h, Nat.zero_shiftRight]))
  · refine pack_zero fun i _ => ?_
    rcases hzero with rfl | rfl <;> simp [lane_zero, signedValue_zero, word]

/-- Every lane of the packed ones is one. -/
theorem lane_laneOnes (hs : LaneBinaryOp.supports .mul a = true) {i : Nat} (hi : i < 128 / a.bits) :
    lane a.bits i (laneOnes a) = 1 := by
  simp only [LaneBinaryOp.supports, Bool.or_eq_true, decide_eq_true_eq] at hs
  rcases hs with (rfl | rfl) | rfl
  · have : i < 8 := hi
    interval_cases i <;> decide
  · have : i < 4 := hi
    interval_cases i <;> decide
  · have : i < 2 := hi
    interval_cases i <;> decide

theorem binary_mul_ones (hs : LaneBinaryOp.supports .mul a = true) (hx : x < 2 ^ 128) :
    Packed.binary .mul a x (laneOnes a) = x ∧ Packed.binary .mul a (laneOnes a) x = x := by
  have hx' : x < 2 ^ (128 / a.bits * a.bits) := by
    rw [Ty.lanes_mul a]
    exact hx
  constructor
  · conv_rhs => rw [← pack_lane a.bits_pos hx']
    exact pack_congr fun i hi => by simp only [Packed.laneResult, lane_laneOnes hs hi, Nat.mul_one]
  · conv_rhs => rw [← pack_lane a.bits_pos hx']
    exact pack_congr fun i hi => by simp only [Packed.laneResult, lane_laneOnes hs hi, Nat.one_mul]

end

theorem vectorLiteral_eq_some {id bits : Nat} (h : vectorLiteral t id = some bits) :
    t.definition id = .literal bits := by
  unfold vectorLiteral at h
  split at h
  · next b hb => rw [hb, Option.some.inj h]
  · cases h

theorem value_of_vectorLiteral (hσ : Valuation F t σ) {id bits : Nat} (hid : id < t.size)
    (h : vectorLiteral t id = some bits) : σ id = some bits :=
  hσ.literal hid (ValueTable.value_eq_iff.mpr ⟨rfl, vectorLiteral_eq_some h⟩)

/-- A vector literal under conversions is the carrier of every value above them. -/
theorem value_of_vectorLiteral_representation (ht : Invariant F t) (hσ : Valuation F t σ) {id bits v : Nat}
    (hid : id < t.size) (h : vectorLiteral t (t.representation id) = some bits) (hv : σ id = some v) : v = bits := by
  obtain ⟨hle, -, hrep⟩ := ValueTable.representation_spec ht hid
  have h₁ := value_of_vectorLiteral hσ (by omega) h
  rw [hrep σ hσ v hv] at h₁
  exact Option.some.inj h₁

theorem yields_foldVector (ht : Invariant F t) {o : LaneBinaryOp} (hl : left < t.size) (hr : right < t.size)
    (hw : BinaryOp.wellTyped (.vector o a) (t.ty left) (t.ty right) ty = true) :
    Yields F t (foldVector ty o a left right)
      (Rewrites F ty (evalExpr F t · ty (.binary (.vector o a) left right) 0)) := by
  have hw' := hw
  simp only [BinaryOp.wellTyped, Bool.and_eq_true, decide_eq_true_eq] at hw'
  obtain ⟨⟨⟨hs, hcl⟩, hcr⟩, hty⟩ := hw'
  have hops : ∀ {σ v}, Valuation F t σ → evalExpr F t σ ty (.binary (.vector o a) left right) 0 = some v →
      ∃ x y, σ left = some x ∧ σ right = some y ∧ x < 2 ^ 128 ∧ y < 2 ^ 128 ∧ v = Packed.binary o a x y := by
    intro σ v hσ hv
    obtain ⟨x, hx, hxlt⟩ := ht.operand hσ hv hl (by simp)
    obtain ⟨y, hy, hylt⟩ := ht.operand hσ hv hr (by simp)
    rw [eval_vector hx hy hxlt hylt hw] at hv
    rw [hcl] at hxlt
    rw [hcr] at hylt
    exact ⟨x, y, hx, hy, hxlt, hylt, (Option.some.inj hv).symm⟩
  have same : ∀ {i : Nat}, i < t.size → (t.ty i).carrier = .v128 →
      (∀ {σ x y}, Valuation F t σ → σ left = some x → σ right = some y → x < 2 ^ 128 → y < 2 ^ 128 →
        σ i = some (Packed.binary o a x y)) →
      Yields F t (pure (some i)) (Rewrites F ty (evalExpr F t · ty (.binary (.vector o a) left right) 0)) := by
    intro i hi hc hv
    have hc' := hc.trans hty.symm
    refine Yields.pure ht (Rewrites.some (Converts.of_value ht hi
      (Or.inr ⟨hc', convert_wellTyped hc' (by rw [hty]; decide)⟩) ?_))
    intro σ v hσ hσv
    obtain ⟨x, y, hx, hy, hxlt, hylt, rfl⟩ := hops hσ hσv
    exact hv hσ hx hy hxlt hylt
  have const : ∀ {bits : Nat}, bits < 2 ^ 128 →
      (∀ {σ x y}, Valuation F t σ → σ left = some x → σ right = some y → Packed.binary o a x y = bits) →
      Yields F t (some <$> carrierLiteral ty bits)
        (Rewrites F ty (evalExpr F t · ty (.binary (.vector o a) left right) 0)) := by
    intro bits hbits hv
    refine yields_some ((yields_carrierLiteral ht ty bits).mono ?_)
    rintro r t' hx ht' ⟨hres, -⟩
    refine Holds.converts ⟨hres.lt, hres.ty_eq, ?_⟩ ht'
    intro σ v hσ hσv
    have hσ₀ := hσ.restrict ht.good hx
    obtain ⟨x, y, hxv, hyv, -, -, rfl⟩ := hops hσ₀ hσv
    refine hres.value hσ (congrArg some ?_)
    rw [hv hσ₀ hxv hyv, hty]
    exact Nat.mod_eq_of_lt hbits
  have zero : (∀ {σ x y}, Valuation F t σ → σ left = some x → σ right = some y → Packed.binary o a x y = 0) →
      Yields F t (some <$> literal ty 0)
        (Rewrites F ty (evalExpr F t · ty (.binary (.vector o a) left right) 0)) := by
    intro hv
    have h0 : literal ty 0 = carrierLiteral ty 0 := by
      funext t
      simp [literal, carrierLiteral, ValueTable.literal, Ty.normalize]
    rw [h0]
    exact const (by decide) hv
  have hvl := fun {σ x} (hσ : Valuation F t σ) (hx : σ left = some x) {bits : Nat}
    (h : vectorLiteral t (t.representation left) = some bits) => value_of_vectorLiteral_representation ht hσ hl h hx
  have hvr := fun {σ x} (hσ : Valuation F t σ) (hx : σ right = some x) {bits : Nat}
    (h : vectorLiteral t (t.representation right) = some bits) => value_of_vectorLiteral_representation ht hσ hr h hx
  -- a product with a zero factor
  have product : vectorLiteral t (t.representation left) = some 0 ∨ vectorLiteral t (t.representation right) = some 0 →
      (o = .mul ∨ (∃ s, o = .wideningMulLow s) ∨ (∃ s, o = .wideningMulHigh s) ∨ o = .dotI16Signed) →
      Yields F t (some <$> literal ty 0)
        (Rewrites F ty (evalExpr F t · ty (.binary (.vector o a) left right) 0)) := by
    intro hlit ho
    refine zero ?_
    intro σ x y hσ hx hy
    exact binary_mul_zero (hlit.imp (hvl hσ hx) (hvr hσ hy)) ho
  have decline : Yields F t (pure none) (Rewrites F ty (evalExpr F t · ty (.binary (.vector o a) left right) 0)) :=
    Yields.pure ht Rewrites.none
  refine Yields.get ?_
  cases o with
  | sub | subSatSigned | subSatUnsigned =>
    dsimp only
    split
    · next hab =>
        refine zero ?_
        intro σ x y hσ hx hy
        obtain rfl := ValueTable.eq_of_representation ht hσ hl hr hab hx hy
        exact binary_self_zero hs (by simp)
    split
    · next hlit =>
        refine same hl hcl ?_
        intro σ x y hσ hx hy hxlt _
        obtain rfl := hvr hσ hy hlit
        rw [binary_zero_right hs hxlt (by simp), hx]
    · exact decline
  | gtSigned =>
    dsimp only
    split
    · next hab =>
        refine zero ?_
        intro σ x y hσ hx hy
        obtain rfl := ValueTable.eq_of_representation ht hσ hl hr hab hx hy
        exact binary_self_zero hs (by simp)
    · exact decline
  | eq =>
    dsimp only
    split
    · next hab =>
        refine const (by decide) ?_
        intro σ x y hσ hx hy
        obtain rfl := ValueTable.eq_of_representation ht hσ hl hr hab hx hy
        exact binary_self_eq
    · exact decline
  | minSigned | minUnsigned | maxSigned | maxUnsigned | averageUnsigned =>
    dsimp only
    split
    · next hab =>
        refine same hl hcl ?_
        intro σ x y hσ hx hy hxlt _
        obtain rfl := ValueTable.eq_of_representation ht hσ hl hr hab hx hy
        rw [binary_self hs hxlt (by simp), hx]
    · exact decline
  | add | addSatSigned | addSatUnsigned =>
    dsimp only
    split
    · next hlit =>
        refine same hr hcr ?_
        intro σ x y hσ hx hy _ hylt
        obtain rfl := hvl hσ hx hlit
        rw [binary_zero_left hs hylt (by simp), hy]
    split
    · next hlit =>
        refine same hl hcl ?_
        intro σ x y hσ hx hy hxlt _
        obtain rfl := hvr hσ hy hlit
        rw [binary_zero_right hs hxlt (by simp), hx]
    · exact decline
  | mul =>
    dsimp only
    split
    · next hlit => exact product hlit (by simp)
    split
    · next hlit =>
        refine same hr hcr ?_
        intro σ x y hσ hx hy _ hylt
        obtain rfl := hvl hσ hx hlit
        rw [(binary_mul_ones hs hylt).2, hy]
    split
    · next hlit =>
        refine same hl hcl ?_
        intro σ x y hσ hx hy hxlt _
        obtain rfl := hvr hσ hy hlit
        rw [(binary_mul_ones hs hxlt).1, hx]
    · exact decline
  | wideningMulLow _ | wideningMulHigh _ | dotI16Signed =>
    dsimp only
    split
    · next hlit => exact product hlit (by simp)
    · exact decline

/-- Shifting lanes by a multiple of their width changes nothing. -/
theorem packedShift_zero {x c : Nat} (ha : a.isLane = true) (hx : x < 2 ^ 128)
    (h : x = 0 ∨ c % a.bits = 0) : Packed.shift o a x c = x := by
  have hx' : x < 2 ^ (128 / a.bits * a.bits) := by
    rw [Ty.lanes_mul a]
    exact hx
  conv_rhs => rw [← pack_lane a.bits_pos hx']
  refine pack_congr fun i _ => ?_
  have hu := lane_lt a.bits i x
  have hsr : ∀ z : Int, z >>> (0 : Nat) = z := fun z => by simp [Int.shiftRight_eq_div_pow]
  rcases h with rfl | h
  · simp only [lane_zero, signedValue_zero]
    cases o <;> simp [word, Int.shiftRight_eq_div_pow]
  · simp only [h]
    cases o with
    | left => rw [Nat.shiftLeft_zero]
    | rightUnsigned => rw [Nat.shiftRight_zero]
    | rightSigned => simp only [hsr, word_signedValue ha hu, Nat.mod_eq_of_lt hu]

theorem rewrites_foldLaneShift (ht : Invariant F t) (hin : input < t.size)
    (hcnt : count < t.size) (hw : ShiftOp.wellTyped (.lanes o a) (t.ty input) (t.ty count) ty = true) :
    Rewrites F ty (evalExpr F t · ty (.shift (.lanes o a) input count) 0) (foldLaneShift t input count a) t := by
  have hw' := hw
  simp only [ShiftOp.wellTyped, Bool.and_eq_true, decide_eq_true_eq] at hw'
  obtain ⟨⟨⟨ha, hci⟩, hty⟩, -⟩ := hw'
  have hc := hci.trans hty.symm
  intro i hi
  unfold foldLaneShift at hi
  split at hi
  · next hcond =>
      obtain rfl := Option.some.inj hi
      refine Converts.of_value ht hin (Or.inr ⟨hc, convert_wellTyped hc (by rw [hty]; decide)⟩) ?_
      intro σ v hσ hv
      obtain ⟨x, hx, hxlt⟩ := ht.operand hσ hv hin (by simp)
      obtain ⟨y, hy⟩ := evalExpr_inputs hv count (by simp)
      rw [eval_laneShift hx hy hxlt (ht.carrier_lt hσ hcnt hy) hw] at hv
      obtain rfl := Option.some.inj hv
      rw [hci] at hxlt
      rw [hx, packedShift_zero ha hxlt ?_]
      rcases hcond with hlit | hlit
      · exact Or.inl (value_of_vectorLiteral_representation ht hσ hin hlit hx)
      · right
        cases hbits : t.scalarLiteral (t.representation count) with
        | none =>
          rw [hbits] at hlit
          cases hlit
        | some bits =>
          obtain rfl := ValueTable.value_of_literal_representation ht hσ hcnt hbits hy
          rw [hbits] at hlit
          have hz : y % a.bits = 0 := by simpa using hlit
          rw [Nat.mod_mod_of_dvd y (Ty.bits_dvd a)]
          exact hz
  · cases hi

end Folder

end Relocade.Compiler
