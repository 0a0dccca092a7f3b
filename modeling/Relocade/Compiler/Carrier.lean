import Relocade.Compiler.Denote

/-!
# `Compiler.Carrier` — carrier semantics, one operation at a time

`evalExpr` on operands that fit their carriers, as an equation for each operation. The proofs about bounds and
about folding cite these and never unfold the evaluator.
-/

namespace Relocade.Compiler

open Words
open Bool (and_eq_true)
open Option (map_some bind_eq_bind bind_some pure_def)

/-- An operand that is a full carrier is not changed by reading it as one. -/
theorem TypedLiteral.toCarrier_of_lt {ty : Ty} {x : Nat} (hx : x < 2 ^ ty.carrier.bits) :
    TypedLiteral.toCarrier ⟨ty, x⟩ = ⟨ty.carrier, x⟩ := by
  rw [toCarrier, Ty.normalize_of_lt hx]

theorem TypedLiteral.scalar_of_lt {ty : Ty} {x : Nat} (hs : ty.isScalar = true) (hx : x < 2 ^ ty.bits) :
    TypedLiteral.scalar ⟨ty, x⟩ = some x := by
  rw [TypedLiteral.scalar, Literal.scalar, if_pos hs, mod_two_pow_of_lt hx (Ty.bits_le_of_isScalar hs)]

open TypedLiteral (toCarrier_of_lt scalar_of_lt)

/-- Evaluation is strict in every operand. -/
theorem evalExpr_inputs {F : Floating} {t : ValueTable} {σ : Nat → Option Nat} {ty : Ty} {e : Expression Nat}
    {c v : Nat} (h : evalExpr F t σ ty e c = some v) : ∀ i ∈ e.inputs, ∃ x, σ i = some x := by
  unfold evalExpr at h
  obtain ⟨e', he', -⟩ := Option.bind_eq_some_iff.mp h
  intro i hi
  have hmap := Expression.tryMap_eq_some_iff.mp he'
  have hmem : (σ i).map (TypedLiteral.mk (t.ty i)) ∈ (e'.map some).inputs := by
    rw [← hmap, Expression.inputs_map]
    exact List.mem_map_of_mem hi
  rw [Expression.inputs_map] at hmem
  obtain ⟨l, -, hl⟩ := List.mem_map.mp hmem
  obtain ⟨x, hx, -⟩ := Option.map_eq_some_iff.mp hl.symm
  exact ⟨x, hx⟩

section Shapes

variable {F : Floating} {t : ValueTable} {σ : Nat → Option Nat} {ty : Ty} {i j k c x y z : Nat}

theorem evalExpr_unary {o : UnaryOp} (ho : ∀ l, o ≠ .extractLane l) (hi : σ i = some x)
    (hx : x < 2 ^ (t.ty i).carrier.bits) :
    evalExpr F t σ ty (.unary o i) c = Evaluate.unary F o ⟨(t.ty i).carrier, x⟩ ty.carrier := by
  simp only [evalExpr, Expression.tryMap, hi, map_some, bind_eq_bind, bind_some, pure_def]
  have hc := toCarrier_of_lt hx
  cases o with
  | extractLane l => exact absurd rfl (ho l)
  | _ => simp only [Expression.carrierResult, Expression.map, Expression.constantResult, hc]

theorem evalExpr_extractLane {l : Nat} (hi : σ i = some x) :
    evalExpr F t σ ty (.unary (.extractLane l) i) c = some (lane ty.bits l x % 2 ^ 64) := by
  simp only [evalExpr, Expression.tryMap, hi, map_some, bind_eq_bind, bind_some, pure_def,
    Expression.carrierResult, Expression.constantResult, Evaluate.unary, Ty.normalize, lane]
  rcases Nat.le_total ty.bits 64 with h | h
  · rw [mod_mod_two_pow h, mod_mod_two_pow' h]
  · rw [mod_mod_two_pow' h, mod_mod_two_pow h]

theorem evalExpr_binary {o : BinaryOp} (hi : σ i = some x) (hj : σ j = some y)
    (hx : x < 2 ^ (t.ty i).carrier.bits) (hy : y < 2 ^ (t.ty j).carrier.bits) :
    evalExpr F t σ ty (.binary o i j) c =
      Evaluate.binary F o ⟨(t.ty i).carrier, x⟩ ⟨(t.ty j).carrier, y⟩ ty.carrier := by
  simp only [evalExpr, Expression.tryMap, hi, hj, map_some, bind_eq_bind, bind_some,
    pure_def, Expression.carrierResult, Expression.map, Expression.constantResult,
    toCarrier_of_lt hx, toCarrier_of_lt hy]

theorem evalExpr_shift {o : ShiftOp} (hi : σ i = some x) (hj : σ j = some y)
    (hx : x < 2 ^ (t.ty i).carrier.bits) (hy : y < 2 ^ (t.ty j).carrier.bits) :
    evalExpr F t σ ty (.shift o i j) c =
      Evaluate.shift o ⟨(t.ty i).carrier, x⟩ ⟨(t.ty j).carrier, y⟩ ty.carrier := by
  simp only [evalExpr, Expression.tryMap, hi, hj, map_some, bind_eq_bind, bind_some,
    pure_def, Expression.carrierResult, Expression.map, Expression.constantResult,
    toCarrier_of_lt hx, toCarrier_of_lt hy]

theorem evalExpr_ternary {o : TernaryOp} (hi : σ i = some x) (hj : σ j = some y) (hk : σ k = some z)
    (hx : x < 2 ^ (t.ty i).carrier.bits) (hy : y < 2 ^ (t.ty j).carrier.bits)
    (hz : z < 2 ^ (t.ty k).carrier.bits) :
    evalExpr F t σ ty (.ternary o i j k) c =
      Evaluate.ternary o ⟨(t.ty i).carrier, x⟩ ⟨(t.ty j).carrier, y⟩ ⟨(t.ty k).carrier, z⟩ ty.carrier := by
  simp only [evalExpr, Expression.tryMap, hi, hj, hk, map_some, bind_eq_bind, bind_some,
    pure_def, Expression.carrierResult, Expression.map, Expression.constantResult,
    toCarrier_of_lt hx, toCarrier_of_lt hy, toCarrier_of_lt hz]

theorem evalExpr_multiplyWide {s : Bool} (hi : σ i = some x) (hj : σ j = some y)
    (hti : (t.ty i).carrier = .i64) (htj : (t.ty j).carrier = .i64) (hty : ty.carrier = .i64)
    (hx : x < 2 ^ 64) (hy : y < 2 ^ 64) :
    evalExpr F t σ ty (.multiplyWide s i j) c = some (Packed.multiplyWide s x y c) := by
  have hx' : x < 2 ^ (t.ty i).carrier.bits := by rw [hti]; exact hx
  have hy' : y < 2 ^ (t.ty j).carrier.bits := by rw [htj]; exact hy
  simp only [evalExpr, Expression.tryMap, hi, hj, map_some, bind_eq_bind, bind_some,
    pure_def, Expression.carrierResult, Expression.map, Expression.constantResult,
    toCarrier_of_lt hx', toCarrier_of_lt hy', hti, htj, hty]
  rw [scalar_of_lt rfl hx, scalar_of_lt rfl hy]
  simp only [bind_some, Option.some.injEq]
  exact Nat.mod_eq_of_lt (Nat.mod_lt _ (Nat.two_pow_pos 64))

end Shapes

/-! ## Operations -/

section Operations

variable {F : Floating} {t : ValueTable} {σ : Nat → Option Nat} {ty : Ty} {i j k c x y z : Nat}

theorem Ty.carrier_bits_of_isInteger {a : Ty} (h : a.isInteger = true) : a.carrier.bits ≤ 64 := by
  cases a <;> first | decide | exact absurd h (by decide)

theorem eval_lowBits {b : Nat} (hi : σ i = some x) (hx : x < 2 ^ (t.ty i).carrier.bits)
    (hw : UnaryOp.wellTyped (.lowBits b) (t.ty i) ty = true) :
    evalExpr F t σ ty (.unary (.lowBits b) i) c = some (x % 2 ^ b) := by
  simp only [UnaryOp.wellTyped, and_eq_true, decide_eq_true_eq] at hw
  obtain ⟨⟨hint, hcar⟩, hb⟩ := hw
  rw [evalExpr_unary (by simp) hi hx, Evaluate.unary, scalar_of_lt (by simp [Ty.isScalar_of_isInteger hint]) hx]
  simp only [bind_eq_bind, bind_some, pure_def, Option.some.injEq, Ty.normalize, and_lowMask]
  exact mod_mod_two_pow' hb

theorem eval_convert (hi : σ i = some x) (hx : x < 2 ^ (t.ty i).carrier.bits) :
    evalExpr F t σ ty (.unary .convert i) c = some (x % 2 ^ ty.carrier.bits) := by
  rw [evalExpr_unary (by simp) hi hx, Evaluate.unary]
  by_cases hs : (t.ty i).carrier.isScalar = true
  · rw [if_pos hs, scalar_of_lt hs hx]
    rfl
  · rw [if_neg hs]
    rfl

/-- A predicate's carrier is zero or one. -/
theorem eval_zeroTest {nonzero : Bool} (hi : σ i = some x) (hx : x < 2 ^ (t.ty i).carrier.bits)
    (hw : UnaryOp.wellTyped (.zeroTest nonzero) (t.ty i) ty = true) :
    evalExpr F t σ ty (.unary (.zeroTest nonzero) i) c = some (decide (x ≠ 0) == nonzero).toNat := by
  simp only [UnaryOp.wellTyped, and_eq_true, decide_eq_true_eq] at hw
  obtain ⟨hint, hcar⟩ := hw
  rw [evalExpr_unary (by simp) hi hx, Evaluate.unary, scalar_of_lt (by simp [Ty.isScalar_of_isInteger hint]) hx]
  simp only [bind_eq_bind, bind_some, pure_def, Option.some.injEq, Ty.normalize, hcar]
  by_cases h0 : x = 0 <;> cases nonzero <;> simp [h0] <;> decide

theorem integer_spec {o : Integer.BinaryOp} {a b : Ty} (hw : BinaryOp.wellTyped (.integer o) a b ty = true) :
    ty.isInteger = true ∧ a.carrier = ty.carrier ∧ b.carrier = ty.carrier := by
  simpa only [BinaryOp.wellTyped, and_eq_true, decide_eq_true_eq, and_assoc] using hw

theorem scalar_spec {o : Integer.ShiftOp} {a b : Ty} (hw : ShiftOp.wellTyped (.scalar o) a b ty = true) :
    ty.isInteger = true ∧ a.carrier = ty.carrier ∧ b.isInteger = true := by
  simpa only [ShiftOp.wellTyped, and_eq_true, decide_eq_true_eq, and_assoc] using hw

/-- Sign extensions read an i32 carrier and leave an integer. -/
theorem signExtend_spec {a input : Ty} (hw : UnaryOp.wellTyped (.signExtend a) input ty = true) :
    a.bits ≤ 32 ∧ input.carrier = .i32 ∧ ty.isInteger = true ∧ 32 ≤ ty.carrier.bits := by
  simp only [UnaryOp.wellTyped, and_eq_true, decide_eq_true_eq] at hw
  obtain ⟨⟨ha, hcar⟩, hint⟩ := hw
  refine ⟨?_, hcar, hint, ?_⟩
  · revert ha
    cases a <;> decide
  · revert hint
    cases ty <;> decide

theorem eval_signExtend {a : Ty} (hi : σ i = some x) (hx : x < 2 ^ (t.ty i).carrier.bits)
    (hw : UnaryOp.wellTyped (.signExtend a) (t.ty i) ty = true) :
    evalExpr F t σ ty (.unary (.signExtend a) i) c = some (word ty.carrier.bits (signed a.bits x)) := by
  obtain ⟨-, hcar, hint, -⟩ := signExtend_spec hw
  rw [evalExpr_unary (by simp) hi hx, Evaluate.unary, scalar_of_lt (by rw [hcar]; rfl) hx]
  simp only [bind_eq_bind, bind_some, pure_def, Option.some.injEq, Ty.normalize,
    Integer.signedValue]
  exact word_mod _ (Ty.carrier_bits_of_isInteger hint)

section

variable (hi : σ i = some x) (hj : σ j = some y) (hx : x < 2 ^ (t.ty i).carrier.bits) (hy : y < 2 ^ (t.ty j).carrier.bits)

include hi hj hx hy

theorem eval_bitwise {o : BitwiseOp}
    (hw : BinaryOp.wellTyped (.bitwise o) (t.ty i) (t.ty j) ty = true) :
    evalExpr F t σ ty (.binary (.bitwise o) i j) c = some (o.apply x y) := by
  simp only [BinaryOp.wellTyped, and_eq_true, decide_eq_true_eq] at hw
  obtain ⟨⟨hci, hcj⟩, -⟩ := hw
  rw [evalExpr_binary hi hj hx hy, Evaluate.binary]
  rw [hci] at hx
  rw [hcj] at hy
  rw [Ty.normalize_of_lt (BitwiseOp.apply_lt hx hy)]

/-- Integer arithmetic, at the width of the carrier. -/
theorem eval_integer {o : Integer.BinaryOp}
    (hw : BinaryOp.wellTyped (.integer o) (t.ty i) (t.ty j) ty = true) :
    evalExpr F t σ ty (.binary (.integer o) i j) c =
      (Integer.binary ty.carrier o x y).map (· % 2 ^ ty.carrier.bits) := by
  obtain ⟨hint, hci, hcj⟩ := integer_spec hw
  have hs : ty.carrier.isScalar = true := by simp [Ty.isScalar_of_isInteger hint]
  rw [evalExpr_binary hi hj hx hy, Evaluate.binary]
  simp only [hci, hcj] at hx hy ⊢
  rw [scalar_of_lt hs hx, scalar_of_lt hs hy]
  simp only [bind_eq_bind, bind_some]
  cases Integer.binary ty.carrier o x y <;> rfl

theorem eval_compare {o : Integer.CompareOp}
    (hw : BinaryOp.wellTyped (.compare (.integer o)) (t.ty i) (t.ty j) ty = true) :
    evalExpr F t σ ty (.binary (.compare (.integer o)) i j) c =
      some (Integer.compare (t.ty i).carrier o x y).toNat := by
  simp only [BinaryOp.wellTyped, and_eq_true, decide_eq_true_eq] at hw
  obtain ⟨⟨hint, hci⟩, hcar⟩ := hw
  have hs : (t.ty i).carrier.isScalar = true := by simp [Ty.isScalar_of_isInteger hint]
  rw [evalExpr_binary hi hj hx hy, Evaluate.binary]
  rw [← hci] at hy ⊢
  rw [scalar_of_lt hs hx, scalar_of_lt hs hy]
  simp only [bind_eq_bind, bind_some, pure_def, Option.some.injEq, hcar]
  cases Integer.compare (t.ty i).carrier o x y <;> rfl

theorem eval_shift {o : Integer.ShiftOp}
    (hw : ShiftOp.wellTyped (.scalar o) (t.ty i) (t.ty j) ty = true) :
    evalExpr F t σ ty (.shift (.scalar o) i j) c =
      some (Integer.shift ty.carrier o x (y % 2 ^ 32) % 2 ^ ty.carrier.bits) := by
  obtain ⟨hint, hci, hcj⟩ := scalar_spec hw
  rw [evalExpr_shift hi hj hx hy, Evaluate.shift, scalar_of_lt (by simp [Ty.isScalar_of_isInteger hcj]) hy]
  simp only [hci, bind_eq_bind, bind_some] at hx ⊢
  rw [scalar_of_lt (by simp [Ty.isScalar_of_isInteger hint]) hx]
  rfl

theorem eval_rotate {o : Integer.RotateOp}
    (hw : ShiftOp.wellTyped (.rotate o) (t.ty i) (t.ty j) ty = true) :
    evalExpr F t σ ty (.shift (.rotate o) i j) c =
      some (Integer.rotate ty.carrier o x (y % 2 ^ 32) % 2 ^ ty.carrier.bits) := by
  simp only [ShiftOp.wellTyped, and_eq_true, decide_eq_true_eq] at hw
  obtain ⟨⟨hint, hci⟩, hcj⟩ := hw
  rw [evalExpr_shift hi hj hx hy, Evaluate.shift, scalar_of_lt (by simp [Ty.isScalar_of_isInteger hcj]) hy]
  simp only [hci, bind_eq_bind, bind_some] at hx ⊢
  rw [scalar_of_lt (by simp [Ty.isScalar_of_isInteger hint]) hx]
  rfl

end

theorem eval_select (hi : σ i = some x) (hj : σ j = some y) (hk : σ k = some z)
    (hx : x < 2 ^ (t.ty i).carrier.bits) (hy : y < 2 ^ (t.ty j).carrier.bits)
    (hz : z < 2 ^ (t.ty k).carrier.bits)
    (hw : TernaryOp.wellTyped .select (t.ty i) (t.ty j) (t.ty k) ty = true) :
    evalExpr F t σ ty (.ternary .select i j k) c = some (if z ≠ 0 then x else y) := by
  simp only [TernaryOp.wellTyped, and_eq_true, decide_eq_true_eq] at hw
  obtain ⟨⟨hci, hcj⟩, hck⟩ := hw
  rw [evalExpr_ternary hi hj hk hx hy hz, Evaluate.ternary]
  simp only [hck] at hz ⊢
  rw [scalar_of_lt rfl hz]
  simp only [hci, hcj] at hx hy
  simp only [bind_eq_bind, bind_some, pure_def, Option.some.injEq]
  split
  · exact Ty.normalize_of_lt hx
  · exact Ty.normalize_of_lt hy

theorem eval_reinterpret_scalar (hi : σ i = some x) (hx : x < 2 ^ (t.ty i).carrier.bits)
    (hs : (t.ty i).isScalar = true) (hr : ty.isScalar = true) :
    evalExpr F t σ ty (.unary .reinterpret i) c = some (x % 2 ^ ty.carrier.bits) := by
  have hs' : (t.ty i).carrier.isScalar = true := by simp [hs]
  have hr' : ty.carrier.isScalar = true := by simp [hr]
  rw [evalExpr_unary (by simp) hi hx, Evaluate.unary, if_pos hr', if_pos hs', scalar_of_lt hs' hx]
  rfl

/-- A vector reinterpreted as a scalar keeps its low half. -/
theorem eval_reinterpret_low (hi : σ i = some x) (hx : x < 2 ^ (t.ty i).carrier.bits)
    (hs : (t.ty i).isScalar = false) (hr : ty.isScalar = true) :
    evalExpr F t σ ty (.unary .reinterpret i) c = some (x % 2 ^ ty.carrier.bits) := by
  have hs' : (t.ty i).carrier.isScalar = false := by simp [hs]
  have hr' : ty.carrier.isScalar = true := by simp [hr]
  rw [evalExpr_unary (by simp) hi hx, Evaluate.unary, if_pos hr', if_neg (by simp [hs]), Ty.normalize,
    mod_mod_two_pow (Ty.bits_le_of_isScalar hr')]

/-- A scalar reinterpreted as a vector fills both halves. -/
theorem eval_reinterpret_splat (hi : σ i = some x) (hx : x < 2 ^ (t.ty i).carrier.bits)
    (hs : (t.ty i).isScalar = true) (hr : ty.isScalar = false) :
    evalExpr F t σ ty (.unary .reinterpret i) c = some (Packed.splat .i64 x) := by
  have hs' : (t.ty i).carrier.isScalar = true := by simp [hs]
  rw [evalExpr_unary (by simp) hi hx, Evaluate.unary, if_neg (by simp [hr]), scalar_of_lt hs' hx]
  have hty : ty.carrier.bits = 128 := by cases ty <;> first | rfl | exact absurd hr (by decide)
  simp only [bind_eq_bind, bind_some, pure_def, Option.some.injEq]
  refine Ty.normalize_of_lt ?_
  rw [hty]
  exact pack_lt _ 2

end Operations

/-! ## Vector operations -/

section Vectors

variable {F : Floating} {t : ValueTable} {σ : Nat → Option Nat} {ty : Ty} {i j k c x y z : Nat}

/-- The number of lanes of a width, times the width, is the vector. -/
theorem Ty.lanes_mul (a : Ty) : 128 / a.bits * a.bits = 128 := by cases a <;> rfl

variable {a : Ty}

theorem Packed.wideningMul_lt {l r : Nat} {s : Bool} (h : a = .i8 ∨ a = .i16 ∨ a = .i32) :
    Packed.wideningMul a l r s < 2 ^ 128 := by
  rcases h with rfl | rfl | rfl <;> exact pack_lt _ _

theorem Packed.binary_lt {o : LaneBinaryOp} {l r : Nat} (h : o.supports a = true) :
    Packed.binary o a l r < 2 ^ 128 := by
  have hpack : ∀ f, pack a.bits f (128 / a.bits) < 2 ^ 128 := by
    intro f
    have := pack_lt (w := a.bits) f (128 / a.bits)
    rwa [Ty.lanes_mul a] at this
  cases o with
  | wideningMulLow s => exact wideningMul_lt (by simpa [LaneBinaryOp.supports, or_assoc] using h)
  | wideningMulHigh s => exact wideningMul_lt (by simpa [LaneBinaryOp.supports, or_assoc] using h)
  | dotI16Signed => exact pack_lt _ 4
  | _ => exact hpack _

section

variable (hi : σ i = some x) (hj : σ j = some y) (hx : x < 2 ^ (t.ty i).carrier.bits) (hy : y < 2 ^ (t.ty j).carrier.bits)

include hi hj hx hy

theorem eval_vector {o : LaneBinaryOp}
    (hw : BinaryOp.wellTyped (.vector o a) (t.ty i) (t.ty j) ty = true) :
    evalExpr F t σ ty (.binary (.vector o a) i j) c = some (Packed.binary o a x y) := by
  simp only [BinaryOp.wellTyped, and_eq_true, decide_eq_true_eq] at hw
  obtain ⟨⟨⟨hs, -⟩, -⟩, hty⟩ := hw
  rw [evalExpr_binary hi hj hx hy, Evaluate.binary, hty]
  exact congrArg some (Ty.normalize_of_lt (Packed.binary_lt hs))

theorem eval_shuffleImmediate {mask : ShuffleMask}
    (hw : BinaryOp.wellTyped (.shuffleImmediate mask) (t.ty i) (t.ty j) ty = true) :
    evalExpr F t σ ty (.binary (.shuffleImmediate mask) i j) c = some (Packed.shuffle x y mask) := by
  simp only [BinaryOp.wellTyped, and_eq_true, decide_eq_true_eq] at hw
  rw [evalExpr_binary hi hj hx hy, Evaluate.binary, hw.2]
  exact congrArg some (Ty.normalize_of_lt (pack_lt _ 16))

theorem eval_swizzle
    (hw : BinaryOp.wellTyped (.swizzle a) (t.ty i) (t.ty j) ty = true) :
    evalExpr F t σ ty (.binary (.swizzle a) i j) c = some (Packed.swizzle a x y) := by
  simp only [BinaryOp.wellTyped, and_eq_true, decide_eq_true_eq] at hw
  rw [evalExpr_binary hi hj hx hy, Evaluate.binary, hw.2]
  exact congrArg some (Ty.normalize_of_lt (pack_lt _ 16))

theorem eval_replaceLane {l : Nat}
    (hw : BinaryOp.wellTyped (.replaceLane a l) (t.ty i) (t.ty j) ty = true) :
    evalExpr F t σ ty (.binary (.replaceLane a l) i j) c = some (replace 128 a.bits l x y) := by
  simp only [BinaryOp.wellTyped, and_eq_true, decide_eq_true_eq] at hw
  obtain ⟨⟨⟨⟨ha, hci⟩, hcj⟩, hty⟩, hl⟩ := hw
  have hs : (t.ty j).carrier.isScalar = true := by
    rw [hcj]
    simp [Ty.isScalar_of_isInteger (Ty.carrier_of_isLane ha)]
  rw [evalExpr_binary hi hj hx hy, Evaluate.binary, scalar_of_lt hs hy, hty]
  simp only [bind_eq_bind, bind_some, pure_def, Option.some.injEq]
  exact Ty.normalize_of_lt (replace_lt (by rw [Nat.add_mul, Nat.one_mul] at hl; exact hl))

end

theorem eval_bitselect (hi : σ i = some x) (hj : σ j = some y) (hk : σ k = some z)
    (hx : x < 2 ^ (t.ty i).carrier.bits) (hy : y < 2 ^ (t.ty j).carrier.bits)
    (hz : z < 2 ^ (t.ty k).carrier.bits)
    (hw : TernaryOp.wellTyped .bitselect (t.ty i) (t.ty j) (t.ty k) ty = true) :
    evalExpr F t σ ty (.ternary .bitselect i j k) c = some (x &&& z ||| y &&& (z ^^^ lowMask 128)) := by
  simp only [TernaryOp.wellTyped, and_eq_true, decide_eq_true_eq] at hw
  obtain ⟨⟨⟨hci, hcj⟩, hck⟩, hty⟩ := hw
  rw [evalExpr_ternary hi hj hk hx hy hz, Evaluate.ternary, hty]
  rw [hci] at hx
  rw [hcj] at hy
  refine congrArg some (Ty.normalize_of_lt (Nat.or_lt_two_pow ?_ ?_))
  · exact Nat.lt_of_le_of_lt Nat.and_le_left hx
  · exact Nat.lt_of_le_of_lt Nat.and_le_left hy

theorem eval_shuffleBytes (hi : σ i = some x) (hj : σ j = some y) (hk : σ k = some z)
    (hx : x < 2 ^ (t.ty i).carrier.bits) (hy : y < 2 ^ (t.ty j).carrier.bits)
    (hz : z < 2 ^ (t.ty k).carrier.bits)
    (hw : TernaryOp.wellTyped (.shuffle a) (t.ty i) (t.ty j) (t.ty k) ty = true) :
    evalExpr F t σ ty (.ternary (.shuffle a) i j k) c = some (Packed.shuffleBytes a x y z) := by
  simp only [TernaryOp.wellTyped, and_eq_true, decide_eq_true_eq] at hw
  rw [evalExpr_ternary hi hj hk hx hy hz, Evaluate.ternary, hw.2]
  exact congrArg some (Ty.normalize_of_lt (pack_lt _ 16))

theorem eval_laneShift {o : Integer.ShiftOp} (hi : σ i = some x) (hj : σ j = some y)
    (hx : x < 2 ^ (t.ty i).carrier.bits) (hy : y < 2 ^ (t.ty j).carrier.bits)
    (hw : ShiftOp.wellTyped (.lanes o a) (t.ty i) (t.ty j) ty = true) :
    evalExpr F t σ ty (.shift (.lanes o a) i j) c = some (Packed.shift o a x (y % 2 ^ 32)) := by
  simp only [ShiftOp.wellTyped, and_eq_true, decide_eq_true_eq] at hw
  obtain ⟨⟨⟨-, -⟩, hty⟩, hint⟩ := hw
  rw [evalExpr_shift hi hj hx hy, Evaluate.shift, scalar_of_lt (by simp [Ty.isScalar_of_isInteger hint]) hy, hty]
  simp only [bind_eq_bind, bind_some, pure_def, Option.some.injEq]
  have hlanes : 2 ^ (128 / a.bits * a.bits) = 2 ^ 128 := by
    rw [Ty.lanes_mul a]
  exact Ty.normalize_of_lt (Nat.lt_of_lt_of_eq (pack_lt _ _) hlanes)

theorem eval_splat (hi : σ i = some x) (hx : x < 2 ^ (t.ty i).carrier.bits)
    (hw : UnaryOp.wellTyped (.splat a) (t.ty i) ty = true) :
    evalExpr F t σ ty (.unary (.splat a) i) c = some (Packed.splat a x) := by
  simp only [UnaryOp.wellTyped, and_eq_true, decide_eq_true_eq] at hw
  obtain ⟨⟨ha, hci⟩, hty⟩ := hw
  rw [evalExpr_unary (by simp) hi hx, Evaluate.unary,
    scalar_of_lt (by rw [hci]; simp [Ty.isScalar_of_isInteger (Ty.carrier_of_isLane ha)]) hx, hty]
  simp only [bind_eq_bind, bind_some, pure_def, Option.some.injEq]
  refine Ty.normalize_of_lt ?_
  have := pack_lt (w := a.bits) (fun _ => x) (128 / a.bits)
  rwa [Ty.lanes_mul a] at this

end Vectors

end Relocade.Compiler
