import Relocade.Compiler.Carrier

/-!
# `Compiler.Bounds` — recorded widths are sound

Each operator's case of `BitBounds.forValue` bounds the carrier that the operation computes, given operands inside
their own widths. One case needs more than that: an unsigned division or remainder at a narrow type records the
width of the type, so its dividend must already be normalized (`DivisionNormalized`).
-/

namespace Relocade.Compiler

open Words

/-! ## Results fit their carrier -/

theorem Ty.lt_of_some_normalize {ty : Ty} {x v : Nat} (h : some (ty.normalize x) = some v) : v < 2 ^ ty.bits := by
  rw [← Option.some.inj h]
  exact normalize_lt ty x

namespace Evaluate

variable {F : Floating} {a b d : TypedLiteral} {i j k r : Ty} {v : Nat}

theorem unary_lt {o : UnaryOp} (hw : o.wellTyped i r = true) (h : Evaluate.unary F o a r.carrier = some v) :
    v < 2 ^ r.carrier.bits := by
  cases o with
  | floatVector o f =>
    simp only [UnaryOp.wellTyped, Bool.and_eq_true, decide_eq_true_eq] at hw
    have := packM_lt h
    rw [hw.2]
    cases f <;> exact this
  | floatVectorConvert o =>
    simp only [UnaryOp.wellTyped, Bool.and_eq_true, decide_eq_true_eq] at hw
    rw [hw.2]
    unfold Evaluate.unary Floating.vectorConvert at h
    cases o with
    | promoteLowBinary32 => exact packM_lt h
    | demoteBinary64Zero => exact lt_two_pow_mono (packM_lt h) (by decide)
    | fromSignedI32 f =>
      obtain rfl := Option.some.inj h
      have := pack_lt (w := f.bits) (fun i => F.ofInt f (Integer.signedValue .i32 (lane 32 i a.value))) (128 / f.bits)
      cases f <;> exact this
    | truncateSaturatingI32 f =>
      obtain rfl := Option.some.inj h
      have := pack_lt (w := 32) (fun i => F.truncateSaturating f (lane f.bits i a.value)) (128 / f.bits)
      cases f with
      | binary32 => exact this
      | binary64 => exact lt_two_pow_mono this (by decide)
  | reinterpret =>
    simp only [Evaluate.unary] at h
    split at h
    · split at h
      · obtain ⟨s, -, hs⟩ := Option.bind_eq_some_iff.mp h
        exact Ty.lt_of_some_normalize hs
      · exact Ty.lt_of_some_normalize h
    · obtain ⟨s, -, hs⟩ := Option.bind_eq_some_iff.mp h
      exact Ty.lt_of_some_normalize hs
  | convert =>
    simp only [Evaluate.unary] at h
    split at h
    · obtain ⟨s, -, hs⟩ := Option.bind_eq_some_iff.mp h
      exact Ty.lt_of_some_normalize hs
    · exact Ty.lt_of_some_normalize h
  | pairwiseAddUnsigned a | bitmask a | extractLane a =>
    exact Ty.lt_of_some_normalize h
  | float o | floatConvert o =>
    obtain ⟨s, -, hs⟩ := Option.bind_eq_some_iff.mp h
    obtain ⟨s', -, hs'⟩ := Option.bind_eq_some_iff.mp hs
    exact Ty.lt_of_some_normalize hs'
  | splat a | bitCount o a | signExtend a | zeroTest n | lowBits n =>
    obtain ⟨s, -, hs⟩ := Option.bind_eq_some_iff.mp h
    exact Ty.lt_of_some_normalize hs

theorem binary_lt {o : BinaryOp} (hw : o.wellTyped i j r = true)
    (h : Evaluate.binary F o a b r.carrier = some v) : v < 2 ^ r.carrier.bits := by
  cases o with
  | floatVector o f =>
    simp only [BinaryOp.wellTyped, Bool.and_eq_true, decide_eq_true_eq] at hw
    have := packM_lt h
    rw [hw.2]
    cases f <;> exact this
  | floatVectorCompare o f =>
    simp only [BinaryOp.wellTyped, Bool.and_eq_true, decide_eq_true_eq] at hw
    obtain rfl := Option.some.inj h
    rw [hw.2]
    have := pack_lt (w := f.bits)
      (fun i => if F.compare f o (lane f.bits i a.value) (lane f.bits i b.value) then lowMask f.bits else 0)
      (128 / f.bits)
    cases f <;> exact this
  | swizzle _ | bitwise _ | vector _ _ | narrow _ _ | shuffleImmediate _ =>
    exact Ty.lt_of_some_normalize h
  | replaceLane _ _ =>
    obtain ⟨s, -, hs⟩ := Option.bind_eq_some_iff.mp h
    exact Ty.lt_of_some_normalize hs
  | compare o =>
    cases o <;>
    · obtain ⟨s, -, hs⟩ := Option.bind_eq_some_iff.mp h
      obtain ⟨s', -, hs'⟩ := Option.bind_eq_some_iff.mp hs
      exact Ty.lt_of_some_normalize hs'
  | integer o | float o =>
    obtain ⟨s, -, hs⟩ := Option.bind_eq_some_iff.mp h
    obtain ⟨s', -, hs'⟩ := Option.bind_eq_some_iff.mp hs
    obtain ⟨s'', -, hs''⟩ := Option.bind_eq_some_iff.mp hs'
    exact Ty.lt_of_some_normalize hs''

theorem shift_lt {o : ShiftOp} (h : Evaluate.shift o a b r.carrier = some v) : v < 2 ^ r.carrier.bits := by
  obtain ⟨s, -, hs⟩ := Option.bind_eq_some_iff.mp h
  cases o with
  | lanes o l =>
    exact Ty.lt_of_some_normalize hs
  | scalar o | rotate o =>
    obtain ⟨s', -, hs'⟩ := Option.bind_eq_some_iff.mp hs
    exact Ty.lt_of_some_normalize hs'

theorem ternary_lt {o : TernaryOp} (h : Evaluate.ternary o a b d r.carrier = some v) : v < 2 ^ r.carrier.bits := by
  cases o with
  | select =>
    obtain ⟨s, -, hs⟩ := Option.bind_eq_some_iff.mp h
    exact Ty.lt_of_some_normalize hs
  | bitselect | shuffle _ =>
    exact Ty.lt_of_some_normalize h

end Evaluate

section

variable {F : Floating} {t : ValueTable} {σ : Nat → Option Nat}

variable {ty : Ty}

variable {e : Expression Nat}

/-- A well-typed operation computes a full carrier of its result type. -/
theorem evalExpr_lt {c v : Nat} (hw : (e.map t.ty).wellTyped ty = true)
    (h : evalExpr F t σ ty e c = some v) : v < 2 ^ ty.carrier.bits := by
  unfold evalExpr at h
  obtain ⟨e', he', hv⟩ := Option.bind_eq_some_iff.mp h
  have hmap := Expression.tryMap_eq_some_iff.mp he'
  cases e with
  | unary o i =>
    obtain ⟨a, rfl⟩ : ∃ a, e' = .unary o a := by
      cases e' <;> simp_all [Expression.map]
    by_cases hl : ∃ l, o = .extractLane l
    · obtain ⟨l, rfl⟩ := hl
      obtain rfl := Option.some.inj hv
      exact lt_two_pow_mono (Ty.normalize_lt _ _) (Ty.bits_le_carrier ty)
    · have hv' : Evaluate.unary F o a.toCarrier ty.carrier = some v := by
        cases o with
        | extractLane l => exact absurd ⟨l, rfl⟩ hl
        | _ => exact hv
      exact Evaluate.unary_lt hw hv'
  | binary o i j =>
    obtain ⟨a, b, rfl⟩ : ∃ a b, e' = .binary o a b := by
      cases e' <;> simp_all [Expression.map]
    exact Evaluate.binary_lt hw hv
  | shift o i j =>
    obtain ⟨a, b, rfl⟩ : ∃ a b, e' = .shift o a b := by
      cases e' <;> simp_all [Expression.map]
    exact Evaluate.shift_lt hv
  | ternary o i j k =>
    obtain ⟨a, b, d, rfl⟩ : ∃ a b d, e' = .ternary o a b d := by
      cases e' <;> simp_all [Expression.map]
    exact Evaluate.ternary_lt hv
  | multiplyWide s i j =>
    obtain ⟨a, b, rfl⟩ : ∃ a b, e' = .multiplyWide s a b := by
      cases e' <;> simp_all [Expression.map]
    obtain ⟨s', -, hs⟩ := Option.bind_eq_some_iff.mp hv
    obtain ⟨s'', -, hs'⟩ := Option.bind_eq_some_iff.mp hs
    exact Ty.lt_of_some_normalize hs'

/-- An unsigned division or remainder records the width of its type, which bounds the result of a normalized
    dividend (or, for a remainder, divisor). -/
def DivisionNormalized (σ : Nat → Option Nat) (ty : Ty) (e : Expression Nat) : Prop :=
  match e with
  | .binary (.integer .divUnsigned) left _ => ∀ x, σ left = some x → x < 2 ^ ty.bits
  | .binary (.integer .remUnsigned) left right =>
      ∀ x y, σ left = some x → σ right = some y → x < 2 ^ ty.bits ∨ y ≤ 2 ^ ty.bits
  | _ => True

/-! ## Unsigned widths -/

theorem bitCount_le {o : Integer.BitCountOp} {a : Ty} {x b : Nat} (hx : x < 2 ^ b) :
    Integer.bitCount a o (a.normalize x) ≤
      match o with
      | .ones => b
      | .leadingZeros | .trailingZeros => a.bits := by
  cases o with
  | ones => exact Integer.countOnes_le (Nat.lt_of_le_of_lt (Nat.mod_le _ _) hx)
  | trailingZeros => exact Nat.min_le_right _ _
  | leadingZeros =>
    show 64 - bitLength _ - (64 - a.bits) ≤ a.bits
    omega

theorem unsignedUnary_sound {o : UnaryOp} {i x v c : Nat} (hw : o.wellTyped (t.ty i) ty = true)
    (hi : σ i = some x) (hx : InBounds t i x) (h : evalExpr F t σ ty (.unary o i) c = some v)
    (hv : v < 2 ^ ty.carrier.bits) : v < 2 ^ BitBounds.unsignedUnary t ty o i := by
  cases o with
  | bitCount o a =>
    simp only [UnaryOp.wellTyped, Bool.and_eq_true, decide_eq_true_eq] at hw
    obtain ⟨⟨ha, hci⟩, hcr⟩ := hw
    have hs : (t.ty i).carrier.isScalar = true := by
      rw [hci]
      simp [Ty.isScalar_of_isInteger ha]
    rw [evalExpr_unary (by simp) hi hx.carrier, Evaluate.unary, TypedLiteral.scalar_of_lt hs hx.carrier] at h
    obtain rfl := Option.some.inj h
    refine Nat.lt_of_le_of_lt (Nat.mod_le _ _) (bitLength_le_iff.mp (bitLength_mono ?_))
    cases o with
    | ones => exact Integer.countOnes_le (Nat.lt_of_le_of_lt (Nat.mod_le _ _) hx.unsigned)
    | leadingZeros => exact bitCount_le (o := .leadingZeros) hx.carrier
    | trailingZeros => exact bitCount_le (o := .trailingZeros) hx.carrier
  | lowBits b =>
    rw [eval_lowBits hi hx.carrier hw] at h
    obtain rfl := Option.some.inj h
    show _ < 2 ^ min _ b
    rcases Nat.le_total (t.boundsOf i).unsigned b with hb | hb
    · rw [Nat.min_eq_left hb]
      exact Nat.lt_of_le_of_lt (Nat.mod_le _ _) hx.unsigned
    · rw [Nat.min_eq_right hb]
      exact Nat.mod_lt _ (Nat.two_pow_pos b)
  | reinterpret =>
    simp only [BitBounds.unsignedUnary]
    split
    · exact hv
    · next hne =>
        have hr : ty.isScalar = true := by
          revert hw hne
          cases t.ty i <;> cases ty <;> decide
        have hle : v ≤ x := by
          by_cases hs : (t.ty i).isScalar = true
          · rw [eval_reinterpret_scalar hi hx.carrier hs hr] at h
            obtain rfl := Option.some.inj h
            exact Nat.mod_le _ _
          · rw [eval_reinterpret_low hi hx.carrier (by simpa using hs) hr] at h
            obtain rfl := Option.some.inj h
            exact Nat.mod_le _ _
        have := Nat.lt_of_le_of_lt hle hx.unsigned
        exact lt_two_pow_min this hv
  | convert =>
    rw [eval_convert hi hx.carrier] at h
    obtain rfl := Option.some.inj h
    show _ < 2 ^ min _ _
    have := Nat.lt_of_le_of_lt (Nat.mod_le x (2 ^ ty.carrier.bits)) hx.unsigned
    exact lt_two_pow_min this hv
  | zeroTest n =>
    rw [eval_zeroTest hi hx.carrier hw] at h
    obtain rfl := Option.some.inj h
    show _ < 2 ^ 1
    exact Nat.lt_of_le_of_lt (Bool.toNat_le _) (by decide)
  | bitmask a =>
    rw [evalExpr_unary (by simp) hi hx.carrier] at h
    obtain rfl := Option.some.inj h
    have := pack_lt (w := 1) (fun i => x >>> ((i + 1) * a.bits - 1)) (128 / a.bits)
    rw [Nat.mul_one] at this
    exact Nat.lt_of_le_of_lt (Nat.mod_le _ _) this
  | extractLane l =>
    rw [evalExpr_extractLane hi] at h
    obtain rfl := Option.some.inj h
    exact Nat.lt_of_le_of_lt (Nat.mod_le _ _) (lane_lt _ _ _)
  | float _ | floatConvert _ | floatVector _ _ | floatVectorConvert _ | splat _ | pairwiseAddUnsigned _
  | signExtend _ => exact hv

variable {i j x y v c : Nat}

theorem unsignedInteger_sound {o : Integer.BinaryOp}
    (hw : BinaryOp.wellTyped (.integer o) (t.ty i) (t.ty j) ty = true) (hi : σ i = some x) (hj : σ j = some y)
    (hx : InBounds t i x) (hy : InBounds t j y) (hd : DivisionNormalized σ ty (.binary (.integer o) i j))
    (h : evalExpr F t σ ty (.binary (.integer o) i j) c = some v) (hv : v < 2 ^ ty.carrier.bits) :
    v < 2 ^ BitBounds.unsignedBinary t ty (.integer o) i j := by
  rw [eval_integer hi hj hx.carrier hy.carrier hw] at h
  obtain ⟨r, hr, rfl⟩ := Option.map_eq_some_iff.mp h
  cases o with
  | add =>
    obtain rfl := Option.some.inj hr
    show _ < 2 ^ min _ _
    refine lt_two_pow_min ?_ hv
    have h₁ := lt_two_pow_max_left (b := (t.boundsOf j).unsigned) hx.unsigned
    have h₂ := lt_two_pow_max_right (a := (t.boundsOf i).unsigned) hy.unsigned
    have hle := Nat.le_trans (Nat.mod_le ((x + y) % 2 ^ 64) (2 ^ ty.carrier.bits)) (Nat.mod_le (x + y) _)
    have hpow := pow_succ 2 (max (t.boundsOf i).unsigned (t.boundsOf j).unsigned)
    omega
  | mul =>
    obtain rfl := Option.some.inj hr
    show _ < 2 ^ min _ _
    refine lt_two_pow_min ?_ hv
    have hle := Nat.le_trans (Nat.mod_le (x * y % 2 ^ 64) (2 ^ ty.carrier.bits)) (Nat.mod_le (x * y) _)
    rw [pow_add]
    exact Nat.lt_of_le_of_lt hle (Nat.mul_lt_mul'' hx.unsigned hy.unsigned)
  | divUnsigned =>
    simp only [Integer.binary] at hr
    split at hr
    · cases hr
    · obtain rfl := Option.some.inj hr
      have hle := Nat.le_trans (Nat.mod_le (x / y) (2 ^ ty.carrier.bits)) (Nat.div_le_self x y)
      exact Nat.lt_of_le_of_lt hle (hd x hi)
  | remUnsigned =>
    simp only [Integer.binary] at hr
    split at hr
    · cases hr
    · next hne =>
        obtain rfl := Option.some.inj hr
        have hle := Nat.mod_le (x % y) (2 ^ ty.carrier.bits)
        show _ < 2 ^ ty.bits
        rcases hd x y hi hj with hd | hd
        · exact Nat.lt_of_le_of_lt (Nat.le_trans hle (Nat.mod_le x y)) hd
        · have := Nat.mod_lt x (Nat.pos_of_ne_zero hne)
          omega
  | sub | divSigned | remSigned => exact hv

theorem unsignedBinary_sound {o : BinaryOp}
    (hw : o.wellTyped (t.ty i) (t.ty j) ty = true) (hi : σ i = some x) (hj : σ j = some y)
    (hx : InBounds t i x) (hy : InBounds t j y) (hd : DivisionNormalized σ ty (.binary o i j))
    (h : evalExpr F t σ ty (.binary o i j) c = some v) (hv : v < 2 ^ ty.carrier.bits) :
    v < 2 ^ BitBounds.unsignedBinary t ty o i j := by
  cases o with
  | integer o => exact unsignedInteger_sound hw hi hj hx hy hd h hv
  | bitwise o =>
    rw [eval_bitwise hi hj hx.carrier hy.carrier hw] at h
    obtain rfl := Option.some.inj h
    cases o with
    | and =>
      show _ < 2 ^ min _ _
      exact lt_two_pow_min (Nat.lt_of_le_of_lt Nat.and_le_left hx.unsigned)
        (Nat.lt_of_le_of_lt Nat.and_le_right hy.unsigned)
    | or => exact BitwiseOp.apply_lt (o := .or) (lt_two_pow_max_left hx.unsigned) (lt_two_pow_max_right hy.unsigned)
    | xor => exact BitwiseOp.apply_lt (o := .xor) (lt_two_pow_max_left hx.unsigned) (lt_two_pow_max_right hy.unsigned)
  | compare o =>
    rw [evalExpr_binary hi hj hx.carrier hy.carrier] at h
    show _ < 2 ^ 1
    cases o <;>
    · obtain ⟨s, -, hs⟩ := Option.bind_eq_some_iff.mp h
      obtain ⟨s', -, hs'⟩ := Option.bind_eq_some_iff.mp hs
      obtain rfl := Option.some.inj hs'
      exact Nat.lt_of_le_of_lt (Nat.le_trans (Nat.mod_le _ _) (Bool.toNat_le _)) (by decide)
  | shuffleImmediate _ | swizzle _ | replaceLane _ _ | float _ | floatVector _ _ | floatVectorCompare _ _
  | vector _ _ | narrow _ _ => exact hv

theorem unsignedShift_sound {o : ShiftOp}
    (hw : o.wellTyped (t.ty i) (t.ty j) ty = true) (hi : σ i = some x) (hj : σ j = some y)
    (hx : InBounds t i x) (hy : InBounds t j y) (hlit : ∀ b, t.definition j = .literal b → y = b)
    (h : evalExpr F t σ ty (.shift o i j) c = some v) (hv : v < 2 ^ ty.carrier.bits) :
    v < 2 ^ BitBounds.unsignedShift t ty o i j := by
  cases o with
  | rotate _ | lanes _ _ => exact hv
  | scalar o =>
    rw [eval_shift hi hj hx.carrier hy.carrier hw] at h
    obtain rfl := Option.some.inj h
    simp only [BitBounds.unsignedShift]
    have hshr : ∀ count, x >>> count < 2 ^ ((t.boundsOf i).unsigned - count) := by
      intro count
      rw [Nat.shiftRight_eq_div_pow]
      rcases Nat.le_total count (t.boundsOf i).unsigned with hc | hc
      · rw [Nat.div_lt_iff_lt_mul (Nat.two_pow_pos count), ← pow_add, Nat.sub_add_cancel hc]
        exact hx.unsigned
      · rw [Nat.div_eq_of_lt (lt_two_pow_mono hx.unsigned hc)]
        exact Nat.two_pow_pos _
    cases hs : t.scalarLiteral j with
    | none =>
      cases o with
      | left | rightSigned => exact hv
      | rightUnsigned =>
        refine Nat.lt_of_le_of_lt (Nat.mod_le _ _) (lt_two_pow_mono (hshr _) (Nat.sub_le _ _))
    | some b =>
      -- the recorded count is the one the shift reads
      have hcnt : Integer.shiftCount ty (b % 2 ^ 32) = Integer.shiftCount ty.carrier (y % 2 ^ 32) := by
        rw [ValueTable.scalarLiteral, Value.scalarLiteral] at hs
        split at hs
        · next w hw' =>
            rw [Literal.scalar] at hs
            split at hs
            · obtain rfl := Option.some.inj hs
              rw [Integer.shiftCount_carrier, mod_mod_two_pow (by decide), hlit w hw']
            · cases hs
        · cases hs
      cases o with
      | rightSigned => exact hv
      | rightUnsigned =>
        show _ < 2 ^ (_ - Integer.shiftCount ty (b % 2 ^ 32))
        rw [hcnt]
        exact Nat.lt_of_le_of_lt (Nat.mod_le _ _) (hshr _)
      | left =>
        show _ < 2 ^ min _ _
        rw [hcnt]
        refine lt_two_pow_min ?_ hv
        refine Nat.lt_of_le_of_lt (Nat.le_trans (Nat.mod_le _ _) (Nat.mod_le _ _)) ?_
        rw [Nat.shiftLeft_eq, pow_add]
        exact Nat.mul_lt_mul_of_pos_right hx.unsigned (Nat.two_pow_pos _)

/-- The recorded unsigned width bounds the carrier an operation computes. -/
theorem unsignedBits_sound {v : Nat} (hw : (e.map t.ty).wellTyped ty = true)
    (hd : DivisionNormalized σ ty e) (hin : ∀ i ∈ e.inputs, ∀ x, σ i = some x → InBounds t i x)
    (hlit : ∀ i ∈ e.inputs, ∀ b, t.definition i = .literal b → σ i = some b)
    (h : evalExpr F t σ ty e 0 = some v) : v < 2 ^ BitBounds.unsignedBits t ⟨ty, .expression e⟩ := by
  have hv := evalExpr_lt hw h
  have hdef := evalExpr_inputs h
  cases e with
  | unary o i =>
    obtain ⟨x, hi⟩ := hdef i (by simp)
    exact unsignedUnary_sound hw hi (hin i (by simp) x hi) h hv
  | binary o i j =>
    obtain ⟨x, hi⟩ := hdef i (by simp)
    obtain ⟨y, hj⟩ := hdef j (by simp)
    exact unsignedBinary_sound hw hi hj (hin i (by simp) x hi)
      (hin j (by simp) y hj) hd h hv
  | shift o i j =>
    obtain ⟨x, hi⟩ := hdef i (by simp)
    obtain ⟨y, hj⟩ := hdef j (by simp)
    refine unsignedShift_sound hw hi hj (hin i (by simp) x hi)
      (hin j (by simp) y hj) ?_ h hv
    intro b hb
    have := hlit j (by simp) b hb
    rw [hj] at this
    exact Option.some.inj this
  | ternary o i j k =>
    obtain ⟨x, hi⟩ := hdef i (by simp)
    obtain ⟨y, hj⟩ := hdef j (by simp)
    obtain ⟨z, hk⟩ := hdef k (by simp)
    have hx := hin i (by simp) x hi
    have hy := hin j (by simp) y hj
    have hz := hin k (by simp) z hk
    cases o with
    | bitselect | shuffle _ => exact hv
    | select =>
      rw [eval_select hi hj hk hx.carrier hy.carrier hz.carrier hw] at h
      obtain rfl := Option.some.inj h
      show _ < 2 ^ max _ _
      split
      · exact lt_two_pow_max_left hx.unsigned
      · exact lt_two_pow_max_right hy.unsigned
  | multiplyWide s i j => exact hv

/-! ## Signed widths -/

theorem signedConvert_sound {i x : Nat} (hw : UnaryOp.wellTyped .convert (t.ty i) ty = true)
    (hx : InBounds t i x) :
    FitsSigned ty.carrier.bits
      (if ty = .i64 ∧ t.ty i ≠ .i64 then min ((t.boundsOf i).unsigned + 1) ty.carrier.bits
      else min (t.boundsOf i).signed ty.carrier.bits) (x % 2 ^ ty.carrier.bits) := by
  split
  · exact fitsSigned_of_lt (Nat.lt_of_le_of_lt (Nat.mod_le _ _) hx.unsigned)
  · next hne =>
      have hle : ty.carrier.bits ≤ (t.ty i).carrier.bits := by
        revert hw hne
        cases t.ty i <;> cases ty <;> decide
      exact (fitsSigned_congr (Nat.mod_mod _ _)).mpr (hx.signed.truncate hle)

theorem signedMul_sound {i j x y : Nat} (hci : (t.ty i).carrier = ty.carrier)
    (hcj : (t.ty j).carrier = ty.carrier) (hx : InBounds t i x) (hy : InBounds t j y) (hb : ty.carrier.bits ≤ 64) :
    FitsSigned ty.carrier.bits (min ((t.boundsOf i).signed + (t.boundsOf j).signed) ty.carrier.bits)
      (x * y % 2 ^ 64 % 2 ^ ty.carrier.bits) := by
  have hfx := hx.signed
  have hfy := hy.signed
  rw [hci] at hfx
  rw [hcj] at hfy
  rw [mod_mod_two_pow hb]
  rcases Nat.le_total ty.carrier.bits ((t.boundsOf i).signed + (t.boundsOf j).signed) with hle | hle
  · rw [Nat.min_eq_right hle]
    exact fitsSigned_self _ _
  · rw [Nat.min_eq_left hle]
    generalize ty.carrier.bits = w at *
    generalize (t.boundsOf i).signed = s at *
    generalize (t.boundsOf j).signed = u at *
    exact hfx.mul hfy hle

/-- The recorded signed width bounds the carrier an operation computes. -/
theorem signedBits_sound {v : Nat} (hw : (e.map t.ty).wellTyped ty = true)
    (hd : DivisionNormalized σ ty e) (hin : ∀ i ∈ e.inputs, ∀ x, σ i = some x → InBounds t i x)
    (hlit : ∀ i ∈ e.inputs, ∀ b, t.definition i = .literal b → σ i = some b)
    (h : evalExpr F t σ ty e 0 = some v) :
    FitsSigned ty.carrier.bits (BitBounds.signedBits t ⟨ty, .expression e⟩) v := by
  have hfallback := fitsSigned_of_lt (w := ty.carrier.bits) (unsignedBits_sound hw hd hin hlit h)
  have hdef := evalExpr_inputs h
  unfold BitBounds.signedBits
  split
  · next h => cases h
  · next a i he =>
      obtain rfl := ValueDefinition.expression.inj he
      obtain ⟨x, hi⟩ := hdef i (by simp)
      have hx := hin i (by simp) x hi
      have hw' : UnaryOp.wellTyped (.signExtend a) (t.ty i) ty = true := hw
      rw [eval_signExtend hi hx.carrier hw'] at h
      obtain rfl := Option.some.inj h
      obtain ⟨ha32, hcar, -, hr32⟩ := signExtend_spec hw'
      have hsx := hx.signed
      rw [hcar] at hsx
      -- extending from a width that already holds the sign leaves the reading alone
      have hrng : FitsSigned a.bits (min (t.boundsOf i).signed a.bits) x := by
        rcases Nat.le_total (t.boundsOf i).signed a.bits with hle | hle
        · rw [Nat.min_eq_left hle]
          have := hsx.truncate ha32
          rw [Nat.min_eq_left hle] at this
          exact this
        · rw [Nat.min_eq_right hle]
          exact fitsSigned_self _ _
      exact fitsSigned_word hrng.1 hrng.2 (Nat.le_trans (Nat.min_le_right _ _) (Nat.le_trans ha32 hr32))
  · next i he =>
      obtain rfl := ValueDefinition.expression.inj he
      obtain ⟨x, hi⟩ := hdef i (by simp)
      have hx := hin i (by simp) x hi
      rw [eval_convert hi hx.carrier] at h
      obtain rfl := Option.some.inj h
      exact signedConvert_sound hw hx
  · next i j he =>
      obtain rfl := ValueDefinition.expression.inj he
      obtain ⟨x, hi⟩ := hdef i (by simp)
      obtain ⟨y, hj⟩ := hdef j (by simp)
      have hx := hin i (by simp) x hi
      have hy := hin j (by simp) y hj
      have hw' : BinaryOp.wellTyped (.integer .mul) (t.ty i) (t.ty j) ty = true := hw
      rw [eval_integer hi hj hx.carrier hy.carrier hw'] at h
      obtain rfl := Option.some.inj h
      obtain ⟨hint, hci, hcj⟩ := integer_spec hw'
      exact signedMul_sound hci hcj hx hy (Ty.carrier_bits_of_isInteger hint)
  · exact hfallback

theorem literalSigned_sound {w bits : Nat} (hw : w = 32 ∨ w = 64) :
    FitsSigned w (BitBounds.literalSigned w bits) bits := by
  have key : ∀ i : Int, -((2 ^ (bitLength (if i < 0 then (-i - 1).toNat else i.toNat) + 1) : Nat) : Int) ≤ 2 * i ∧
      2 * i < ((2 ^ (bitLength (if i < 0 then (-i - 1).toNat else i.toNat) + 1) : Nat) : Int) := by
    intro i
    split
    · have h := lt_two_pow_bitLength (-i - 1).toNat
      have hp := pow_succ 2 (bitLength (-i - 1).toNat)
      omega
    · have h := lt_two_pow_bitLength i.toNat
      have hp := pow_succ 2 (bitLength i.toNat)
      omega
  rcases hw with rfl | rfl
  · exact key (signed 32 bits)
  · exact key (signed 64 bits)

theorem literalSigned_le {w bits : Nat} (hw : w = 32 ∨ w = 64) : BitBounds.literalSigned w bits ≤ w := by
  have hlt := two_mul_signed_lt w bits
  have hle := le_two_mul_signed w bits
  have key : ∀ i : Int, 2 * i < ((2 ^ w : Nat) : Int) → -((2 ^ w : Nat) : Int) ≤ 2 * i →
      bitLength (if i < 0 then (-i - 1).toNat else i.toNat) + 1 ≤ w := by
    intro i hi hi'
    refine Nat.succ_le_of_lt (Nat.lt_of_le_of_lt (bitLength_le_iff.mpr (?_ : _ < 2 ^ (w - 1))) (by omega))
    rcases hw with rfl | rfl <;> split <;> omega
  rcases hw with rfl | rfl
  · exact key _ hlt hle
  · exact key _ hlt hle

end

end Relocade.Compiler
