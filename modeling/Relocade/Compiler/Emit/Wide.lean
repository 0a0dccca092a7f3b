import Mathlib.Tactic.Ring
import Mathlib.Tactic.Linarith
import Relocade.Compiler.Fold
import Relocade.Wasm.Machine

/-!
# `Compiler.Emit.Wide` — 64-by-64 multiplication with two 64-bit results

Without the native instruction a product is made of 32-bit limbs. With a limb product below `2^64 - 2^33 + 2`, each
cross sum fits 64 bits. Signed factors change only the high half of the product.
-/

namespace Relocade.Compiler

open Function (update update_self update_of_ne)
open BitVec (toNat_mul toNat_add toNat_ofNat)
open Wasm Words

namespace Wide

/-! ## Instructions -/

def MASK : BitVec 64 := 0xffffffff

def lowLimb (slot : Nat) : List Instruction := [.localGet slot, .i64Const MASK, .i64And]

def highLimb (slot : Nat) : List Instruction := [.localGet slot, .i64Const 32, .i64ShrU]

/-- With 32-bit limbs, both cross sums fit in 64 bits: t = a1*b0 + (a0*b0 >> 32), u = a0*b1 + (t & mask). -/
def crossSums (left right lowProduct crossLeft crossRight : Nat) : List Instruction :=
  List.flatten [
    lowLimb left, lowLimb right, [.i64Mul, .localSet lowProduct],
    highLimb left, lowLimb right, [.i64Mul], highLimb lowProduct, [.i64Add, .localSet crossLeft],
    lowLimb left, highLimb right, [.i64Mul], lowLimb crossLeft, [.i64Add, .localTee crossRight]]

/-- Leave the low half below the high half in declared result order. -/
def halves (left right lowProduct crossLeft crossRight : Nat) : List Instruction :=
  List.flatten [
    [.i64Const 32, .i64Shl], lowLimb lowProduct, [.i64Or],
    highLimb left, highLimb right, [.i64Mul], highLimb crossLeft, [.i64Add], highLimb crossRight, [.i64Add]]

/-- Signed inputs differ from their unsigned bit patterns by 2^64. -/
def correction (sign other : Nat) : List Instruction :=
  [.localGet sign, .i64Const 63, .i64ShrS, .localGet other, .i64And, .i64Sub]

/-- The temporaries are five fresh locals. -/
def multiplyWide (wideArithmetic isSigned : Bool) (temporary : Nat) : List Instruction :=
  if wideArithmetic then [if isSigned then .i64MulWideS else .i64MulWideU]
  else
    let left := temporary
    let right := temporary + 1
    let lowProduct := temporary + 2
    let crossLeft := temporary + 3
    let crossRight := temporary + 4
    List.flatten [
      [.localSet right, .localSet left],
      crossSums left right lowProduct crossLeft crossRight,
      halves left right lowProduct crossLeft crossRight,
      if isSigned then correction left right ++ correction right left else []]

/-! ## Limbs -/

section Limbs

variable (left right : BitVec 64)

def lowProduct : BitVec 64 := (left &&& MASK) * (right &&& MASK)

def crossLeft : BitVec 64 := (left >>> 32) * (right &&& MASK) + lowProduct left right >>> 32

def crossRight : BitVec 64 := (left &&& MASK) * (right >>> 32) + (crossLeft left right &&& MASK)

def lowHalf : BitVec 64 := crossRight left right <<< 32 ||| (lowProduct left right &&& MASK)

def highHalf : BitVec 64 :=
  (left >>> 32) * (right >>> 32) + crossLeft left right >>> 32 + crossRight left right >>> 32

/-- The high half of a signed product. -/
def corrected (high : BitVec 64) : BitVec 64 :=
  high - (left.sshiftRight 63 &&& right) - (right.sshiftRight 63 &&& left)

end Limbs

variable {left right : BitVec 64}

variable (x : BitVec 64)

theorem toNat_mask : (x &&& MASK).toNat = x.toNat % 2 ^ 32 := by
  rw [BitVec.toNat_and]
  exact Nat.and_two_pow_sub_one_eq_mod x.toNat 32

theorem toNat_high : (x >>> 32).toNat = x.toNat / 2 ^ 32 := by
  rw [BitVec.toNat_ushiftRight, Nat.shiftRight_eq_div_pow]

/-- A product of two limbs leaves room for two more. -/
theorem limb_le {a b : Nat} (ha : a < 2 ^ 32) (hb : b < 2 ^ 32) : a * b ≤ 2 ^ 64 - 2 ^ 33 + 1 := by
  have h := Nat.mul_le_mul (Nat.le_sub_one_of_lt ha) (Nat.le_sub_one_of_lt hb)
  omega

theorem limb_lt : x.toNat % 2 ^ 32 < 2 ^ 32 ∧ x.toNat / 2 ^ 32 < 2 ^ 32 := by
  have hlt := x.isLt
  omega

variable (left right : BitVec 64)

/-- The partial products and sums, none of which carries. -/
theorem toNat_parts :
    (lowProduct left right).toNat = left.toNat % 2 ^ 32 * (right.toNat % 2 ^ 32) ∧
    (crossLeft left right).toNat =
      left.toNat / 2 ^ 32 * (right.toNat % 2 ^ 32) + (lowProduct left right).toNat / 2 ^ 32 ∧
    (crossRight left right).toNat =
      left.toNat % 2 ^ 32 * (right.toNat / 2 ^ 32) + (crossLeft left right).toNat % 2 ^ 32 ∧
    (highHalf left right).toNat = left.toNat / 2 ^ 32 * (right.toNat / 2 ^ 32) +
      (crossLeft left right).toNat / 2 ^ 32 + (crossRight left right).toNat / 2 ^ 32 := by
  obtain ⟨ha₀, ha₁⟩ := limb_lt left
  obtain ⟨hb₀, hb₁⟩ := limb_lt right
  have h₀₀ := limb_le ha₀ hb₀
  have h₁₀ := limb_le ha₁ hb₀
  have h₀₁ := limb_le ha₀ hb₁
  have h₁₁ := limb_le ha₁ hb₁
  have hlow : (lowProduct left right).toNat = left.toNat % 2 ^ 32 * (right.toNat % 2 ^ 32) := by
    rw [lowProduct, toNat_mul, toNat_mask, toNat_mask]
    exact Nat.mod_eq_of_lt (by omega)
  have hleft : (crossLeft left right).toNat =
      left.toNat / 2 ^ 32 * (right.toNat % 2 ^ 32) + (lowProduct left right).toNat / 2 ^ 32 := by
    rw [crossLeft, toNat_add, toNat_mul, toNat_mask, toNat_high, toNat_high, hlow]
    rw [Nat.mod_eq_of_lt (by omega : left.toNat / 2 ^ 32 * (right.toNat % 2 ^ 32) < 2 ^ 64)]
    exact Nat.mod_eq_of_lt (by omega)
  have hright : (crossRight left right).toNat =
      left.toNat % 2 ^ 32 * (right.toNat / 2 ^ 32) + (crossLeft left right).toNat % 2 ^ 32 := by
    rw [crossRight, toNat_add, toNat_mul, toNat_mask, toNat_mask, toNat_high]
    rw [Nat.mod_eq_of_lt (by omega : left.toNat % 2 ^ 32 * (right.toNat / 2 ^ 32) < 2 ^ 64)]
    exact Nat.mod_eq_of_lt (by omega)
  refine ⟨hlow, hleft, hright, ?_⟩
  have hl := (crossLeft left right).isLt
  have hr := (crossRight left right).isLt
  rw [highHalf, toNat_add, toNat_add, toNat_mul, toNat_high, toNat_high, toNat_high, toNat_high]
  rw [Nat.mod_eq_of_lt (by omega : left.toNat / 2 ^ 32 * (right.toNat / 2 ^ 32) < 2 ^ 64),
    Nat.mod_eq_of_lt (by omega : left.toNat / 2 ^ 32 * (right.toNat / 2 ^ 32) +
      (crossLeft left right).toNat / 2 ^ 32 < 2 ^ 64)]
  exact Nat.mod_eq_of_lt (by omega)

theorem toNat_lowHalf : (lowHalf left right).toNat =
    (crossRight left right).toNat % 2 ^ 32 * 2 ^ 32 + (lowProduct left right).toNat % 2 ^ 32 := by
  have hsh : (crossRight left right <<< 32).toNat = ((crossRight left right).toNat % 2 ^ 32) <<< 32 := by
    rw [BitVec.toNat_shiftLeft, Nat.shiftLeft_eq, Nat.shiftLeft_eq]
    omega
  rw [lowHalf, BitVec.toNat_or, hsh, toNat_mask, Nat.shiftLeft_eq, Nat.mul_comm]
  rw [← Nat.two_pow_add_eq_or_of_lt (Nat.mod_lt _ (by decide))]

/-- The halves of the unsigned product. -/
theorem toNat_mul_eq :
    left.toNat * right.toNat = (highHalf left right).toNat * 2 ^ 64 + (lowHalf left right).toNat := by
  obtain ⟨hlow, hleft, hright, hhi⟩ := toNat_parts left right
  have ha := Nat.div_add_mod left.toNat (2 ^ 32)
  have hb := Nat.div_add_mod right.toNat (2 ^ 32)
  have hproduct : left.toNat * right.toNat =
      left.toNat / 2 ^ 32 * (right.toNat / 2 ^ 32) * 2 ^ 64 +
        (left.toNat / 2 ^ 32 * (right.toNat % 2 ^ 32) + left.toNat % 2 ^ 32 * (right.toNat / 2 ^ 32)) * 2 ^ 32 +
        left.toNat % 2 ^ 32 * (right.toNat % 2 ^ 32) := by
    generalize left.toNat / 2 ^ 32 = a₁ at *
    generalize left.toNat % 2 ^ 32 = a₀ at *
    generalize right.toNat / 2 ^ 32 = b₁ at *
    generalize right.toNat % 2 ^ 32 = b₀ at *
    rw [← ha, ← hb]
    ring
  rw [toNat_lowHalf, hproduct]
  omega

/-! ## Halves of the exact product -/

theorem half_eq {value : BitVec 128} {high low : BitVec 64} (h : value.toNat = high.toNat * 2 ^ 64 + low.toNat) :
    half value 0 = low ∧ half value 1 = high := by
  have hlow := low.isLt
  have hhi := high.isLt
  constructor
  · apply BitVec.eq_of_toNat_eq
    rw [half, BitVec.extractLsb'_toNat, h, Nat.shiftRight_eq_div_pow]
    omega
  · apply BitVec.eq_of_toNat_eq
    rw [half, BitVec.extractLsb'_toNat, h, Nat.shiftRight_eq_div_pow]
    omega

theorem half_unsigned :
    half (product false left right) 0 = lowHalf left right ∧
      half (product false left right) 1 = highHalf left right := by
  have hlow := (lowHalf left right).isLt
  have hhi := (highHalf left right).isLt
  apply half_eq
  rw [product, if_neg Bool.false_ne_true, toNat_ofNat, toNat_mul_eq]
  exact Nat.mod_eq_of_lt (by omega)

/-- The bits of a sign select all of the other factor, or nothing. -/
theorem sshiftRight_and (x y : BitVec 64) : x.sshiftRight 63 &&& y = if x.msb then y else 0 := by
  ext i hi
  rw [BitVec.getElem_and, BitVec.getElem_sshiftRight]
  cases hx : x.msb with
  | true =>
    rw [if_pos rfl]
    split
    · next hlt =>
        have hi : i = 0 := by omega
        subst hi
        rw [show x[63 + 0] = x.msb from (BitVec.msb_eq_getLsbD_last x).symm, hx, Bool.true_and]
    · rw [Bool.true_and]
  | false =>
    rw [if_neg Bool.false_ne_true]
    split
    · next hlt =>
        have hi : i = 0 := by omega
        subst hi
        rw [show x[63 + 0] = x.msb from (BitVec.msb_eq_getLsbD_last x).symm, hx, Bool.false_and]
        exact (BitVec.getElem_zero ..).symm
    · rw [Bool.false_and]
      exact (BitVec.getElem_zero ..).symm

/-- The low part of a sum stays when the high part wraps. -/
theorem shifted_emod {M : Int} (hM : 0 < M) {low : Int} (hnonneg : 0 ≤ low) (hlt : low < M) (high : Int) :
    (high * M + low) % (M * M) = high % M * M + low := by
  have hmod := Int.emod_lt_of_pos high hM
  have hmod' := Int.emod_nonneg high (Int.ne_of_gt hM)
  have hsplit : high * M + low = high % M * M + low + M * M * (high / M) := by
    linear_combination M * (Int.emod_add_mul_ediv high M).symm
  rw [hsplit, Int.add_mul_emod_self_left]
  apply Int.emod_eq_of_lt <;> nlinarith

theorem toNat_corrected (left right high : BitVec 64) : ((corrected left right high).toNat : Int) =
    ((high.toNat : Int) - (if left.msb then (right.toNat : Int) else 0) -
      (if right.msb then (left.toNat : Int) else 0)) % 2 ^ 64 := by
  have hright := right.isLt
  have hleft := left.isLt
  rw [corrected, sshiftRight_and, sshiftRight_and, BitVec.toNat_sub, BitVec.toNat_sub]
  have hz : (0 : BitVec 64).toNat = 0 := rfl
  cases left.msb <;> cases right.msb <;> simp only [Bool.false_eq_true, if_false, if_true, hz] <;> omega

theorem half_signed :
    half (product true left right) 0 = lowHalf left right ∧
      half (product true left right) 1 = corrected left right (highHalf left right) := by
  have hlow := (lowHalf left right).isLt
  have hproduct : (left.toNat : Int) * right.toNat =
      (highHalf left right).toNat * 2 ^ 64 + (lowHalf left right).toNat := by
    exact_mod_cast toNat_mul_eq left right
  apply half_eq
  have hexact : left.toInt * right.toInt =
      ((highHalf left right).toNat - (if left.msb then (right.toNat : Int) else 0) - (if right.msb then (left.toNat : Int) else 0)) * 2 ^ 64 + (lowHalf left right).toNat +
      2 ^ 64 * 2 ^ 64 * (if left.msb ∧ right.msb then 1 else 0) := by
    rw [BitVec.toInt_eq_msb_cond left, BitVec.toInt_eq_msb_cond right]
    cases left.msb <;> cases right.msb <;>
      simp only [Bool.false_eq_true, if_false, if_true, and_true, and_false] <;> push_cast <;>
      linear_combination hproduct
  zify
  rw [product, if_pos rfl, BitVec.toNat_ofInt, hexact, toNat_corrected,
    Int.toNat_of_nonneg (Int.emod_nonneg _ (by decide)), show ((2 ^ 128 : Nat) : Int) = 2 ^ 64 * 2 ^ 64 by rfl, Int.add_mul_emod_self_left]
  refine shifted_emod (M := 2 ^ 64) (by decide) (Int.natCast_nonneg _) ?_ _
  exact_mod_cast hlow

/-! ## Runs -/

section Runs

variable {checked : Bool} {code : List Instruction} {stack : List Operand} {locals : Nat → Operand} {x y : BitVec 64}

variable {slot : Nat}

theorem exec_lowLimb (h : locals slot = .i64 x) :
    exec checked (lowLimb slot ++ code) ⟨stack, locals⟩ = exec checked code ⟨.i64 (x &&& MASK) :: stack, locals⟩ := by
  refine exec_append ?_
  simp [lowLimb, exec, Instruction.exec, State.push, State.binary, h]

theorem exec_highLimb (h : locals slot = .i64 x) :
    exec checked (highLimb slot ++ code) ⟨stack, locals⟩ = exec checked code ⟨.i64 (x >>> 32) :: stack, locals⟩ := by
  refine exec_append ?_
  simp [highLimb, exec, Instruction.exec, State.push, State.binary, h]

/-- A product that fits does not carry. -/
theorem exec_mul (h : x.toNat * y.toNat < 2 ^ 64) :
    exec checked (.i64Mul :: code) ⟨.i64 y :: .i64 x :: stack, locals⟩ =
      exec checked code ⟨.i64 (x * y) :: stack, locals⟩ := by
  refine exec_cons ?_
  rw [Instruction.exec, State.binary]
  dsimp only
  rw [carry, if_neg fun hover => Nat.not_le.mpr h hover.2]
  rfl

theorem exec_add (h : x.toNat + y.toNat < 2 ^ 64) :
    exec checked (.i64Add :: code) ⟨.i64 y :: .i64 x :: stack, locals⟩ =
      exec checked code ⟨.i64 (x + y) :: stack, locals⟩ := by
  refine exec_cons ?_
  rw [Instruction.exec, State.binary]
  dsimp only
  rw [carry, if_neg fun hover => Nat.not_le.mpr h hover.2]
  rfl

theorem exec_localSet {value : Operand} :
    exec checked (.localSet slot :: code) ⟨value :: stack, locals⟩ =
      exec checked code ⟨stack, update locals slot value⟩ := exec_cons rfl

theorem exec_localTee {value : Operand} :
    exec checked (.localTee slot :: code) ⟨value :: stack, locals⟩ =
      exec checked code ⟨value :: stack, update locals slot value⟩ := exec_cons rfl

/-- The locals after the cross sums. -/
def summed (l : Nat) (left right : BitVec 64) (locals : Nat → Operand) : Nat → Operand :=
  update (update (update locals (l + 2) (.i64 (lowProduct left right)))
    (l + 3) (.i64 (crossLeft left right))) (l + 4) (.i64 (crossRight left right))

variable {left right : BitVec 64}

/-- The cross sums leave the last of them on the stack. -/
theorem exec_crossSums {l : Nat} (hleft : locals l = .i64 left)
    (hright : locals (l + 1) = .i64 right) :
    exec checked (crossSums l (l + 1) (l + 2) (l + 3) (l + 4) ++ code) ⟨stack, locals⟩ =
      exec checked code ⟨.i64 (crossRight left right) :: stack, summed l left right locals⟩ := by
  obtain ⟨ha₀, ha₁⟩ := limb_lt left
  obtain ⟨hb₀, hb₁⟩ := limb_lt right
  have h₀₀ := limb_le ha₀ hb₀
  have h₁₀ := limb_le ha₁ hb₀
  have h₀₁ := limb_le ha₀ hb₁
  obtain ⟨hlow, hcross, -, -⟩ := toNat_parts left right
  have hlow' := (lowProduct left right).isLt
  have hcross' := (crossLeft left right).isLt
  simp only [crossSums, List.flatten_cons, List.flatten_nil, List.append_assoc, List.nil_append, List.cons_append]
  have hsum : (left >>> 32 * (right &&& MASK)).toNat + (lowProduct left right >>> 32).toNat < 2 ^ 64 := by
    rw [toNat_mul, toNat_mask, toNat_high, toNat_high]
    omega
  have hsum' : ((left &&& MASK) * right >>> 32).toNat + (crossLeft left right &&& MASK).toNat < 2 ^ 64 := by
    rw [toNat_mul, toNat_mask, toNat_high, toNat_mask]
    omega
  rw [exec_lowLimb hleft, exec_lowLimb hright, exec_mul (by rw [toNat_mask, toNat_mask]; omega), exec_localSet,
    show (left &&& MASK) * (right &&& MASK) = lowProduct left right from rfl]
  rw [exec_highLimb (x := left) (by rw [update_of_ne (by omega), hleft]),
    exec_lowLimb (x := right) (by rw [update_of_ne (by omega), hright]),
    exec_mul (by rw [toNat_high, toNat_mask]; omega),
    exec_highLimb (x := lowProduct left right) (update_self ..), exec_add hsum, exec_localSet,
    show left >>> 32 * (right &&& MASK) + lowProduct left right >>> 32 = crossLeft left right from rfl]
  rw [exec_lowLimb (x := left) (by rw [update_of_ne (by omega), update_of_ne (by omega), hleft]),
    exec_highLimb (x := right) (by rw [update_of_ne (by omega), update_of_ne (by omega), hright]),
    exec_mul (by rw [toNat_high, toNat_mask]; omega),
    exec_lowLimb (x := crossLeft left right) (update_self ..), exec_add hsum', exec_localTee]
  rfl

theorem summed_of_ne {l slot : Nat} (h : slot < l + 2) : summed l left right locals slot = locals slot := by
  rw [summed, update_of_ne (by omega), update_of_ne (by omega), update_of_ne (by omega)]

theorem summed_self (l : Nat) (left right : BitVec 64) :
    summed l left right locals (l + 2) = .i64 (lowProduct left right) ∧
    summed l left right locals (l + 3) = .i64 (crossLeft left right) ∧
    summed l left right locals (l + 4) = .i64 (crossRight left right) := by
  refine ⟨?_, ?_, ?_⟩
  · rw [summed, update_of_ne (by omega), update_of_ne (by omega), update_self]
  · rw [summed, update_of_ne (by omega), update_self]
  · rw [summed, update_self]

/-- The halves of the unsigned product. -/
theorem exec_halves {l : Nat} (hleft : locals l = .i64 left)
    (hright : locals (l + 1) = .i64 right) :
    exec checked (halves l (l + 1) (l + 2) (l + 3) (l + 4) ++ code)
      ⟨.i64 (crossRight left right) :: stack, summed l left right locals⟩ =
      exec checked code ⟨.i64 (highHalf left right) :: .i64 (lowHalf left right) :: stack,
        summed l left right locals⟩ := by
  obtain ⟨-, ha₁⟩ := limb_lt left
  obtain ⟨-, hb₁⟩ := limb_lt right
  have h₁₁ := limb_le ha₁ hb₁
  obtain ⟨hlow, hcrossLeft, hcrossRight⟩ := @summed_self locals l left right
  have hleft' : summed l left right locals l = .i64 left := by rw [summed_of_ne (by omega), hleft]
  have hright' : summed l left right locals (l + 1) = .i64 right := by rw [summed_of_ne (by omega), hright]
  have hl := (crossLeft left right).isLt
  have hr := (crossRight left right).isLt
  have hproduct : (left >>> 32 * right >>> 32).toNat = left.toNat / 2 ^ 32 * (right.toNat / 2 ^ 32) := by
    rw [toNat_mul, toNat_high, toNat_high]
    exact Nat.mod_eq_of_lt (by omega)
  have hsum : (left >>> 32 * right >>> 32).toNat + (crossLeft left right >>> 32).toNat < 2 ^ 64 := by
    rw [hproduct, toNat_high]
    omega
  have hsum' : (left >>> 32 * right >>> 32 + crossLeft left right >>> 32).toNat + (crossRight left right >>> 32).toNat <
      2 ^ 64 := by
    rw [toNat_add, hproduct, toNat_high, toNat_high]
    omega
  have hsh : ∀ rest, exec checked ([.i64Const 32, .i64Shl] ++ (lowLimb (l + 2) ++ ([.i64Or] ++ rest)))
      ⟨.i64 (crossRight left right) :: stack, summed l left right locals⟩ =
      exec checked rest ⟨.i64 (lowHalf left right) :: stack, summed l left right locals⟩ := by
    intro rest
    have hshl : exec checked [.i64Const 32, .i64Shl]
        ⟨.i64 (crossRight left right) :: stack, summed l left right locals⟩ =
        some (.next ⟨.i64 (crossRight left right <<< 32) :: stack, summed l left right locals⟩) := by
      simp [exec, Instruction.exec, State.push, State.binary]
    rw [exec_append hshl, exec_lowLimb hlow]
    exact exec_cons rfl
  simp only [halves, List.flatten_cons, List.flatten_nil, List.append_assoc, List.append_nil]
  rw [hsh, exec_highLimb hleft', exec_highLimb hright']
  simp only [List.cons_append, List.nil_append]
  rw [exec_mul (by rw [toNat_high, toNat_high]; omega), exec_highLimb hcrossLeft, exec_add hsum,
    exec_highLimb hcrossRight, exec_add hsum']
  rfl

/-- The correction of the high half by one of the factors. -/
theorem exec_correction {sign other : Nat} {high : BitVec 64} (hsign : locals sign = .i64 x)
    (hother : locals other = .i64 y) :
    exec checked (correction sign other) ⟨.i64 high :: stack, locals⟩ =
      some (.next ⟨.i64 (high - (x.sshiftRight 63 &&& y)) :: stack, locals⟩) := by
  simp [correction, exec, Instruction.exec, State.push, State.binary, hsign, hother]

/-- The emitted instructions replace the factors with both halves of their exact product, the high half on top, whether
or not sums that carry are let through. Only the temporaries change. -/
theorem exec_multiplyWide (wideArithmetic isSigned : Bool) (temporary : Nat) (left right : BitVec 64) :
    ∃ locals', (∀ slot, slot < temporary ∨ temporary + 5 ≤ slot → locals' slot = locals slot) ∧
      exec checked (multiplyWide wideArithmetic isSigned temporary) ⟨.i64 right :: .i64 left :: stack, locals⟩ =
        some (.next ⟨.i64 (half (product isSigned left right) 1) ::
          .i64 (half (product isSigned left right) 0) :: stack, locals'⟩) := by
  cases wideArithmetic with
  | true =>
    refine ⟨locals, fun _ _ => rfl, ?_⟩
    cases isSigned <;> rfl
  | false =>
    let stored := update (update locals (temporary + 1) (.i64 right)) temporary (.i64 left)
    have hleft : stored temporary = .i64 left := update_self ..
    have hright : stored (temporary + 1) = .i64 right :=
      (update_of_ne (by omega) ..).trans (update_self ..)
    refine ⟨summed temporary left right stored, fun slot hslot => ?_, ?_⟩
    · rw [summed, update_of_ne (by omega), update_of_ne (by omega),
        update_of_ne (by omega)]
      exact (update_of_ne (by omega) ..).trans (update_of_ne (by omega) ..)
    · rw [multiplyWide, if_neg Bool.false_ne_true]
      simp only [List.flatten_cons, List.flatten_nil, List.cons_append, List.nil_append]
      rw [exec_localSet, exec_localSet, exec_crossSums hleft hright, exec_halves hleft hright, List.append_nil]
      cases isSigned with
      | false =>
        obtain ⟨hlow, hhi⟩ := half_unsigned left right
        rw [hlow, hhi]
        rfl
      | true =>
        obtain ⟨hlow, hhi⟩ := half_signed left right
        have hleft' : summed temporary left right stored temporary = .i64 left := by
          rw [summed_of_ne (by omega), hleft]
        have hright' : summed temporary left right stored (temporary + 1) = .i64 right := by
          rw [summed_of_ne (by omega), hright]
        rw [if_pos rfl, exec_append (exec_correction hleft' hright'), exec_correction hright' hleft', hlow, hhi]
        rfl

end Runs

/-! ## Shortcuts of the folder -/

/-- What the evaluator computes is a half of the exact product. -/
theorem packed_eq (isSigned : Bool) {x y comp : Nat} (hx : x < 2 ^ 64) (hy : y < 2 ^ 64) :
    Packed.multiplyWide isSigned x y comp =
      (half (product isSigned (BitVec.ofNat 64 x) (BitVec.ofNat 64 y)) comp).toNat := by
  rw [Packed.multiplyWide, half, BitVec.extractLsb'_toNat, Nat.mul_comm comp 64]
  congr 2
  cases isSigned with
  | false =>
    rw [if_neg Bool.false_ne_true, product, if_neg Bool.false_ne_true, toNat_ofNat, toNat_ofNat,
      toNat_ofNat, Nat.mod_eq_of_lt hx, Nat.mod_eq_of_lt hy]
    exact (Nat.mod_eq_of_lt (Nat.mul_lt_mul'' hx hy)).symm
  | true =>
    rw [if_pos rfl, product, if_pos rfl, BitVec.toNat_ofInt, BitVec.toInt_ofNat', BitVec.toInt_ofNat']
    rfl

/-- The position that a shortcut returns holds a half of the exact product. -/
theorem foldMultiplyWide_half {F host : Floating} (hF : host.Agrees F) {t : ValueTable} (ht : Invariant F t)
    (isSigned : Bool) {left right comp n : Nat} (hn : 2 < n) (hl : left < t.size) (hr : right < t.size)
    (hcl : (t.ty left).carrier = .i64) (hcr : (t.ty right).carrier = .i64) (hc : comp < 2) :
    ∃ r t', Folder.foldMultiplyWide (Folder.foldResult host n) isSigned left right comp t = some (r, t') ∧
      ∀ i, r = some i → ∀ ρ, Respects t ρ → ∀ x y, denote F t ρ left = some x → denote F t ρ right = some y →
        denote F t' ρ i = some (half (product isSigned (BitVec.ofNat 64 x) (BitVec.ofNat 64 y)) comp).toNat := by
  obtain ⟨r, t', hm, hx, ht', h⟩ :=
    Folder.yields_foldMultiplyWide (s := isSigned) (Folder.foldsBelow_foldResult hF n) hn ht hl hr
      (rfl : Ty.carrier .i64 = .i64) hcl hcr hc
  refine ⟨r, t', hm, fun i hi ρ hρ x y hdx hdy => ?_⟩
  have hσ := denote_valuation (F := F) ht'.good (hρ.extends hx)
  have hdx' := (denote_extends ht.good ht'.good hx hρ hl).trans hdx
  have hdy' := (denote_extends ht.good ht'.good hx hρ hr).trans hdy
  have hx64 : x < 2 ^ 64 := by
    have hlt := ht.carrier_lt (denote_valuation (F := F) ht.good hρ) hl hdx
    rwa [hcl] at hlt
  have hy64 : y < 2 ^ 64 := by
    have hlt := ht.carrier_lt (denote_valuation (F := F) ht.good hρ) hr hdy
    rwa [hcr] at hlt
  have hheld := h i hi
  rw [← packed_eq isSigned hx64 hy64]
  exact hheld.value hσ (evalExpr_multiplyWide hdx' hdy' hcl hcr rfl hx64 hy64)

/-- Both halves are those of the exact product: as emitted, without a sum or product that carries, and as folded. -/
theorem multiplyWide_exact {F host : Floating} (hF : host.Agrees F) :
    (∀ (checked wideArithmetic isSigned : Bool) (temporary : Nat) (left right : BitVec 64) (stack : List Operand)
        (locals : Nat → Operand),
      ∃ locals', (∀ slot, slot < temporary ∨ temporary + 5 ≤ slot → locals' slot = locals slot) ∧
        exec checked (multiplyWide wideArithmetic isSigned temporary) ⟨.i64 right :: .i64 left :: stack, locals⟩ =
          some (.next ⟨.i64 (half (product isSigned left right) 1) ::
            .i64 (half (product isSigned left right) 0) :: stack, locals'⟩)) ∧
    ∀ (t : ValueTable) (isSigned : Bool) (left right component n : Nat), Invariant F t → 2 < n → left < t.size →
      right < t.size → (t.ty left).carrier = .i64 → (t.ty right).carrier = .i64 → component < 2 →
      ∃ r t', Folder.foldMultiplyWide (Folder.foldResult host n) isSigned left right component t = some (r, t') ∧
        ∀ i, r = some i → ∀ ρ, Respects t ρ → ∀ x y, denote F t ρ left = some x → denote F t ρ right = some y →
          denote F t' ρ i =
            some (half (product isSigned (BitVec.ofNat 64 x) (BitVec.ofNat 64 y)) component).toNat := by
  refine ⟨fun checked wideArithmetic isSigned temporary left right stack locals => ?_,
    fun t isSigned left right component n ht hn hl hr hcl hcr hc => ?_⟩
  · exact exec_multiplyWide wideArithmetic isSigned temporary left right
  · exact foldMultiplyWide_half hF ht isSigned hn hl hr hcl hcr hc

/-- A table of a parameter and the constant one. -/
def unitFactor : ValueTable := ((ValueTable.empty.push ⟨.i64, .parameter 0 0⟩).2.literal .i64 1).2

theorem unitFactor_built (F : Floating) : unitFactor.Built F :=
  .literal .i64 1 (.push (v := ⟨.i64, .parameter 0 0⟩) .empty trivial (by simp))

/-- The product of -1 and -2, and the high half of a parameter times one. -/
theorem multiplyWide_exact_unit :
    (∃ locals', exec true (multiplyWide false true 0) ⟨[.i64 (-2), .i64 (-1)], fun _ => .i32 0⟩ =
      some (.next ⟨[.i64 0, .i64 2], locals'⟩)) ∧
    ∃ r t', Folder.foldMultiplyWide (Folder.foldResult .uncommitted 4) true 0 1 1 unitFactor = some (r, t') ∧
      ∀ i, r = some i → ∀ ρ, Respects unitFactor ρ → ∀ x y, denote .uncommitted unitFactor ρ 0 = some x →
        denote .uncommitted unitFactor ρ 1 = some y →
        denote .uncommitted t' ρ i = some (half (product true (BitVec.ofNat 64 x) (BitVec.ofNat 64 y)) 1).toNat := by
  obtain ⟨hemitted, hfolded⟩ := multiplyWide_exact (.refl .uncommitted)
  have hbuilt := unitFactor_built .uncommitted
  constructor
  · obtain ⟨locals', -, hrun⟩ := hemitted true false true 0 (-1) (-2) [] fun _ => .i32 0
    exact ⟨locals', hrun⟩
  · exact hfolded unitFactor true 0 1 1 4 ⟨hbuilt.good, hbuilt.sound⟩ (by decide) (by decide) (by decide) (by decide)
      (by decide) (by decide)

end Wide

end Relocade.Compiler
