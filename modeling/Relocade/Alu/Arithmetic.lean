import Mathlib.Algebra.Group.Nat.Defs
import Mathlib.Data.List.Count
import Relocade.Flags.Change

/-!
# `Alu.Arithmetic` — addition and subtraction

Sums and differences with a carry, as numbers, and the six status flags they define. The operations compute both from
words.
-/

namespace Relocade.Alu

open Flags

/-! ## Results -/

/-- An operation's result with its flags' change. -/
structure AluResult (N : Type) (w : Nat) where
  result : BitVec w
  flags : FlagChange N

/-- The names of an operation's flags, and of the condition of their change. -/
structure Names (N : Type) where
  flag : StatusFlag → N
  condition : N

/-- A flag vector with other status flags. -/
def withStatus (old : Flag → Bool) (status : StatusFlag → Bool) : Flag → Bool
  | .status flag => status flag
  | flag => old flag

/-- A result, and the whole flag vector after it. -/
structure AluResult.Computes {N : Type} {w : Nat} (outcome : AluResult N w) (old : Flag → Bool) (result : BitVec w)
    (flags : Flag → Bool) : Prop where
  result_eq : outcome.result = result
  flags_eq : outcome.flags.applyTo old = flags

/-! ## Sums and differences -/

section

variable {w : Nat}

/-- The low eight bits hold an even number of ones. -/
def evenParity (result : BitVec w) : Bool := (List.range 8).countP result.getLsbD % 2 = 0

/-- The flags that a result has with given CF, AF and OF. -/
def flagsOf (result : BitVec w) (cf af of : Bool) : StatusFlag → Bool
  | .cf => cf
  | .pf => evenParity result
  | .af => af
  | .zf => result.toNat = 0
  | .sf => result.toInt < 0
  | .of => of

/-- A number is in the range of signed words. -/
def FitsSigned (w : Nat) (x : Int) : Prop := -((2 ^ (w - 1) : Nat) : Int) ≤ x ∧ x < (2 ^ (w - 1) : Nat)

instance (w : Nat) (x : Int) : Decidable (FitsSigned w x) := inferInstanceAs (Decidable (_ ∧ _))

variable (left right : BitVec w) (carry : Bool)

def sum : BitVec w := BitVec.ofNat w (left.toNat + right.toNat + carry.toNat)

def sumFlag : StatusFlag → Bool :=
  flagsOf (sum left right carry) (2 ^ w ≤ left.toNat + right.toNat + carry.toNat)
    (16 ≤ left.toNat % 16 + right.toNat % 16 + carry.toNat)
    (¬ FitsSigned w (left.toInt + right.toInt + carry.toNat))

def difference : BitVec w := BitVec.ofInt w (left.toNat - right.toNat - carry.toNat)

def differenceFlag : StatusFlag → Bool :=
  flagsOf (difference left right carry) (left.toNat < right.toNat + carry.toNat)
    (left.toNat % 16 < right.toNat % 16 + carry.toNat)
    (¬ FitsSigned w (left.toInt - right.toInt - carry.toNat))

end

end Relocade.Alu

/-! ## The operations -/

namespace Relocade.Flags.ArithmeticOp

open Alu

variable {N : Type} (operation : ArithmeticOp) (names : Names N) (width : Width) (left right : BitVec width.bits)
  (carryIn : Bool)

def apply : AluResult N width.bits where
  result := operation.result left right
  flags := .ofSource ⟨width, .arithmetic operation left right (operation.result left right) rfl⟩ names.flag

def resultWithCarry : BitVec width.bits :=
  operation.result (operation.result left right) ((BitVec.ofBool carryIn).setWidth width.bits)

def applyWithCarry : AluResult N width.bits :=
  let result := operation.resultWithCarry width left right carryIn
  { result
    flags := .ofSource ⟨width, .explicit (operation.flag left right result carryIn)⟩ names.flag }

end Relocade.Flags.ArithmeticOp

namespace Relocade.Alu

open Flags

inductive LogicOp where
  | and | or | xor
  deriving DecidableEq, Repr

/-- The result, with the flags of a logic operation. -/
def LogicOp.apply {N : Type} (operation : LogicOp) (names : Names N) (width : Width) (left right : BitVec width.bits) :
    AluResult N width.bits :=
  let result :=
    match operation with
    | and => left &&& right
    | or => left ||| right
    | xor => left ^^^ right
  { result
    flags := .ofSource ⟨width, .logic result⟩ names.flag }

end Relocade.Alu

/-! ## Changes of a flag vector -/

namespace Relocade.Alu

open Flags

section

variable {N : Type}

theorem ofSource_applyTo (source : AnyStatusSource) (names : StatusFlag → N) (old : Flag → Bool) :
    (FlagChange.ofSource source names).applyTo old = withStatus old source.flag := by
  funext flag
  cases flag with
  | status f =>
    have hmem : Flag.status f ∈ FlagMask.status := FlagMask.mem_status.mpr ⟨f, rfl⟩
    have hflag : (FlagChange.ofSource source names).flag (.status f) = some ⟨names f, source.flag f⟩ := if_pos hmem
    exact FlagChange.after_of_active rfl hflag _
  | tf | df | nt | ac | id | if_ =>
    refine FlagChange.after_of_not_writes (fun hmem => ?_) _
    obtain ⟨f, hf⟩ := FlagMask.mem_status.mp hmem
    cases hf

/-- A guarded change applies when its condition holds. -/
theorem when_applyTo {change : FlagChange N} (h : change.condition = none) (naming : Naming N) (cond : Val N Bool)
    (old : Flag → Bool) :
    (change.when naming cond).applyTo old = if cond.value then change.applyTo old else old := by
  have hcond : (change.when naming cond).condition = some cond := by
    unfold FlagChange.when
    rw [h]
  have hact := FlagChange.active_of_condition hcond
  funext flag
  cases hval : cond.value with
  | false =>
    rw [hval] at hact
    exact FlagChange.after_of_inactive hact flag _
  | true =>
    rw [hval] at hact
    unfold FlagChange.applyTo FlagChange.after
    rw [hact, FlagChange.active_of_unconditional h]
    rfl

end

/-! ## Flags of a result -/

section

variable {w : Nat}

theorem cpopNatRec_eq_countP (x : BitVec w) (n : Nat) : x.cpopNatRec n 0 = (List.range n).countP x.getLsbD := by
  induction n with
  | zero => rfl
  | succ n ih =>
    rw [BitVec.cpopNatRec_succ, Nat.zero_add, BitVec.cpopNatRec_eq, ih, List.range_succ, List.countP_append,
      List.countP_singleton]
    cases x.getLsbD n with
    | false => rfl
    | true => rfl

theorem getLsbD_low (x : BitVec w) (hw : 8 ≤ w) (i : Nat) : (x &&& 0xff).getLsbD i = (x.getLsbD i && decide (i < 8)) := by
  have hmask : (0xff : BitVec w).getLsbD i = (decide (i < w) && decide (i < 8)) := by
    rw [show (0xff : BitVec w) = BitVec.ofNat w (2 ^ 8 - 1) from rfl, BitVec.getLsbD_ofNat, Nat.testBit_two_pow_sub_one]
  rw [BitVec.getLsbD_and, hmask]
  grind

/-- The ones of the low byte are those of its mask. -/
theorem countP_low (x : BitVec w) (n : Nat) (hn : 8 + n ≤ w) :
    (List.range (8 + n)).countP (x &&& 0xff).getLsbD = (List.range 8).countP x.getLsbD := by
  have hbit := getLsbD_low x (Nat.le_of_add_right_le hn)
  clear hn
  induction n with
  | zero =>
    refine List.countP_congr fun i hi => ?_
    rw [hbit, decide_eq_true (List.mem_range.mp hi), Bool.and_true]
  | succ n ih =>
    rw [← Nat.add_assoc, List.range_succ, List.countP_append, ih, List.countP_singleton, hbit,
      decide_eq_false (show ¬ 8 + n < 8 by omega), Bool.and_false]
    rfl

theorem resultFlag_parity (res : BitVec w) (hw : 8 ≤ w) : resultFlag res .pf = evenParity res := by
  obtain ⟨n, rfl⟩ := Nat.exists_eq_add_of_le hw
  have hpow : 2 ^ 1 ∣ 2 ^ (8 + n) := Nat.pow_dvd_pow 2 (by omega)
  have hone : (1 : BitVec (8 + n)).toNat = 2 ^ 1 - 1 := BitVec.toNat_one (by omega)
  show ((res &&& 0xff).cpop &&& 1 == 0) = evenParity res
  rw [evenParity, ← countP_low res n (Nat.le_refl _), ← cpopNatRec_eq_countP, Bool.eq_iff_iff, beq_iff_eq,
    decide_eq_true_iff, ← BitVec.toNat_inj, BitVec.toNat_and, hone, Nat.and_two_pow_sub_one_eq_mod, BitVec.cpop,
    BitVec.toNat_ofNat]
  show (res &&& 255).cpopNatRec (8 + n) 0 % 2 ^ (8 + n) % 2 ^ 1 = 0 ↔ _
  rw [Nat.mod_mod_of_dvd _ hpow]
  exact Iff.rfl

theorem resultFlag_zero (res : BitVec w) : resultFlag res .zf = decide (res.toNat = 0) := by
  rw [Bool.eq_iff_iff, decide_eq_true_iff]
  exact beq_iff_eq.trans BitVec.toNat_inj.symm

theorem resultFlag_sign (res : BitVec w) : resultFlag res .sf = decide (res.toInt < 0) := by
  show bit res (w - 1) = _
  rw [bit_msb, BitVec.msb_eq_toInt]

/-! ## Sums -/

theorem toNat_carry (hw : 0 < w) (carry : Bool) : ((BitVec.ofBool carry).setWidth w).toNat = carry.toNat := by
  have hlt : carry.toNat < 2 ^ w := (Bool.toNat_lt carry).trans_le (Nat.pow_le_pow_right Nat.two_pos hw)
  rw [BitVec.toNat_setWidth, BitVec.toNat_ofBool, Nat.mod_eq_of_lt hlt]

variable (left right r : BitVec w) (carry : Bool)

theorem sum_eq (hw : 0 < w) : left + r + (BitVec.ofBool carry).setWidth w = sum left r carry := by
  apply BitVec.eq_of_toNat_eq
  rw [BitVec.toNat_add, BitVec.toNat_add, toNat_carry hw, sum, BitVec.toNat_ofNat, Nat.mod_add_mod]

/-- A sum wraps once at most. -/
theorem toNat_sum : (sum left r carry).toNat =
    if left.toNat + r.toNat + carry.toNat < 2 ^ w then left.toNat + r.toNat + carry.toNat
    else left.toNat + r.toNat + carry.toNat - 2 ^ w := by
  have hl := left.isLt
  have hr := r.isLt
  have hc := Bool.toNat_lt carry
  rw [sum, BitVec.toNat_ofNat]
  split
  next h => exact Nat.mod_eq_of_lt h
  next h =>
    rw [Nat.mod_eq_sub_mod (Nat.le_of_not_lt h)]
    exact Nat.mod_eq_of_lt (by omega)

theorem difference_eq : left - r - (BitVec.ofBool carry).setWidth w = difference left r carry := by
  have hcarry : (BitVec.ofBool carry).setWidth w = BitVec.ofNat w carry.toNat := by
    rw [← BitVec.ofNat_toNat, BitVec.toNat_ofBool]
  rw [difference, Int.sub_eq_add_neg, Int.sub_eq_add_neg, BitVec.ofInt_add, BitVec.ofInt_add, BitVec.ofInt_neg,
    BitVec.ofInt_neg, BitVec.ofInt_natCast, BitVec.ofInt_natCast, BitVec.ofInt_natCast, BitVec.ofNat_toNat,
    BitVec.ofNat_toNat, BitVec.setWidth_eq, BitVec.setWidth_eq, hcarry, BitVec.sub_eq_add_neg, BitVec.sub_eq_add_neg]

/-- A difference borrows once at most. -/
theorem toNat_difference : (difference left r carry).toNat =
    if r.toNat + carry.toNat ≤ left.toNat then left.toNat - (r.toNat + carry.toNat)
    else 2 ^ w + left.toNat - (r.toNat + carry.toNat) := by
  have hl := left.isLt
  have hr := r.isLt
  have hc := Bool.toNat_lt carry
  rw [difference, BitVec.toNat_ofInt]
  split
  next h =>
    rw [Int.emod_eq_of_lt (by omega) (by omega)]
    omega
  next h =>
    rw [← Int.add_emod_right, Int.emod_eq_of_lt (by omega) (by omega)]
    omega

/-! ## Flags of sums and differences -/

theorem sum_carry_flag :
    ArithmeticOp.flag .add left r (sum left r carry) carry .cf = sumFlag left r carry .cf := by
  have hl := left.isLt
  have hr := r.isLt
  have hsum := toNat_sum left r carry
  show (bif carry then (sum left r carry).ule left else (sum left r carry).ult left) =
    decide (2 ^ w ≤ left.toNat + r.toNat + carry.toNat)
  rw [BitVec.ule, BitVec.ult]
  cases carry with
  | false =>
    rw [Bool.toNat_false] at hsum ⊢
    rw [cond_false, Bool.eq_iff_iff, decide_eq_true_iff, decide_eq_true_iff]
    split at hsum <;> omega
  | true =>
    rw [Bool.toNat_true] at hsum ⊢
    rw [cond_true, Bool.eq_iff_iff, decide_eq_true_iff, decide_eq_true_iff]
    split at hsum <;> omega

theorem difference_carry_flag :
    ArithmeticOp.flag .subtract left r (difference left r carry) carry .cf = differenceFlag left r carry .cf := by
  show (bif carry then left.ule r else left.ult r) = decide (left.toNat < r.toNat + carry.toNat)
  cases carry with
  | false => rfl
  | true => exact decide_eq_decide.mpr Nat.lt_succ_iff.symm

/-- The fifth bit of a sum shows the carry out of the fourth. -/
theorem sum_adjust_flag (hw : 8 ≤ w) :
    ArithmeticOp.flag .add left r (sum left r carry) carry .af = sumFlag left r carry .af := by
  have hbit := BitVec.getLsbD_add_add_bool (show 4 < w by omega) left r carry
  have hcarry : BitVec.carry 4 left r carry = sumFlag left r carry .af := rfl
  rw [sum_eq _ _ _ (by omega), hcarry] at hbit
  show bit (left ^^^ r ^^^ sum left r carry) 4 = _
  rw [bit, BitVec.getLsbD_ushiftRight, BitVec.getLsbD_xor, BitVec.getLsbD_xor, Nat.add_zero, hbit]
  cases left.getLsbD 4 <;> cases r.getLsbD 4 <;> simp

/-- A difference is a sum with the complement, and a borrow its missing carry. -/
theorem difference_eq_sum : difference left r carry = sum left (~~~r) !carry := by
  have hr := r.isLt
  have hr' : (~~~r).toNat = 2 ^ w - 1 - r.toNat := BitVec.toNat_not
  apply BitVec.eq_of_toNat_eq
  rw [toNat_difference, toNat_sum, hr']
  have hl := left.isLt
  cases carry with
  | false =>
    rw [Bool.not_false, Bool.toNat_false, Bool.toNat_true]
    split <;> split <;> omega
  | true =>
    rw [Bool.not_true, Bool.toNat_false, Bool.toNat_true]
    split <;> split <;> omega

theorem difference_adjust_flag (hw : 8 ≤ w) :
    ArithmeticOp.flag .subtract left r (difference left r carry) carry .af = differenceFlag left r carry .af := by
  have hsum := sum_adjust_flag left (~~~r) (!carry) hw
  rw [← difference_eq_sum] at hsum
  have hbit : bit (left ^^^ ~~~r ^^^ difference left r carry) 4 =
      !bit (left ^^^ r ^^^ difference left r carry) 4 := by
    unfold bit
    rw [BitVec.getLsbD_ushiftRight, BitVec.getLsbD_ushiftRight]
    simp [show 4 < w by omega]
  have hlow : (~~~r).toNat % 16 = 15 - r.toNat % 16 := by
    have hr := r.isLt
    obtain ⟨n, rfl⟩ := Nat.exists_eq_add_of_le hw
    have hpow : 2 ^ (8 + n) = 16 * 2 ^ (4 + n) := by rw [show 8 + n = 4 + (4 + n) by omega, Nat.pow_add]
    rw [BitVec.toNat_not]
    rw [hpow] at hr ⊢
    omega
  show bit (left ^^^ r ^^^ difference left r carry) 4 = decide (left.toNat % 16 < r.toNat % 16 + carry.toNat)
  have hflag : bit (left ^^^ ~~~r ^^^ difference left r carry) 4 =
      decide (16 ≤ left.toNat % 16 + (~~~r).toNat % 16 + (!carry).toNat) := hsum
  rw [hbit, hlow] at hflag
  rw [← Bool.not_inj_iff, hflag, ← decide_not, decide_eq_decide]
  cases carry with
  | false =>
    rw [Bool.not_false, Bool.toNat_false, Bool.toNat_true]
    omega
  | true =>
    rw [Bool.not_true, Bool.toNat_false, Bool.toNat_true]
    omega

/-- Two pairs of words disagree in the sign. -/
theorem bit_disagree {n : Nat} (a b c d : BitVec (n + 1)) :
    bit ((a ^^^ b) &&& (c ^^^ d)) (n + 1 - 1) =
      decide (¬(2 ^ n ≤ a.toNat ↔ 2 ^ n ≤ b.toNat) ∧ ¬(2 ^ n ≤ c.toNat ↔ 2 ^ n ≤ d.toNat)) := by
  rw [bit_msb, Bool.eq_iff_iff, decide_eq_true_iff, BitVec.msb_and, BitVec.msb_xor, BitVec.msb_xor, Bool.and_eq_true,
    Bool.xor_iff_ne, Bool.xor_iff_ne]
  simp only [BitVec.msb_eq_decide, Nat.add_sub_cancel, ne_eq, decide_eq_decide]

theorem sum_overflow_flag (hw : 0 < w) :
    ArithmeticOp.flag .add left right (sum left right carry) carry .of = sumFlag left right carry .of := by
  obtain ⟨n, rfl⟩ : ∃ n, w = n + 1 := ⟨w - 1, by omega⟩
  have hl := left.isLt
  have hr := right.isLt
  have hsum := toNat_sum left right carry
  have hc := Bool.toNat_lt carry
  have hpow : 2 ^ (n + 1) = 2 * 2 ^ n := by rw [Nat.pow_succ, Nat.mul_comm]
  show bit ((left ^^^ sum left right carry) &&& (right ^^^ sum left right carry)) (n + 1 - 1) = decide (¬ FitsSigned (n + 1) _)
  rw [bit_disagree, decide_eq_decide, BitVec.toInt_eq_toNat_cond, BitVec.toInt_eq_toNat_cond]
  unfold FitsSigned
  rw [Nat.add_sub_cancel]
  rw [hpow] at hl hr hsum ⊢
  split at hsum <;> split <;> split <;> omega

theorem difference_overflow_flag (hw : 0 < w) :
    ArithmeticOp.flag .subtract left right (difference left right carry) carry .of =
      differenceFlag left right carry .of := by
  obtain ⟨n, rfl⟩ : ∃ n, w = n + 1 := ⟨w - 1, by omega⟩
  have hl := left.isLt
  have hr := right.isLt
  have hdiff := toNat_difference left right carry
  have hc := Bool.toNat_lt carry
  have hpow : 2 ^ (n + 1) = 2 * 2 ^ n := by rw [Nat.pow_succ, Nat.mul_comm]
  show bit ((left ^^^ difference left right carry) &&& (left ^^^ right)) (n + 1 - 1) = decide (¬ FitsSigned (n + 1) _)
  rw [bit_disagree, decide_eq_decide, BitVec.toInt_eq_toNat_cond, BitVec.toInt_eq_toNat_cond]
  unfold FitsSigned
  rw [Nat.add_sub_cancel]
  rw [hpow] at hl hr hdiff ⊢
  split at hdiff <;> split <;> split <;> omega

theorem sum_flag (hw : 8 ≤ w) (flag : StatusFlag) :
    ArithmeticOp.flag .add left r (sum left r carry) carry flag = sumFlag left r carry flag := by
  cases flag with
  | cf => exact sum_carry_flag left r carry
  | pf => exact resultFlag_parity _ hw
  | af => exact sum_adjust_flag left r carry hw
  | zf => exact resultFlag_zero _
  | sf => exact resultFlag_sign _
  | of => exact sum_overflow_flag left r carry (by omega)

theorem difference_flag (hw : 8 ≤ w) (flag : StatusFlag) :
    ArithmeticOp.flag .subtract left r (difference left r carry) carry flag =
      differenceFlag left r carry flag := by
  cases flag with
  | cf => exact difference_carry_flag left r carry
  | pf => exact resultFlag_parity _ hw
  | af => exact difference_adjust_flag left r carry hw
  | zf => exact resultFlag_zero _
  | sf => exact resultFlag_sign _
  | of => exact difference_overflow_flag left r carry (by omega)

theorem logicFlag_eq (res : BitVec w) (hw : 8 ≤ w) (flag : StatusFlag) :
    logicFlag res flag = flagsOf res false false false flag := by
  cases flag with
  | cf | af | of => rfl
  | pf => exact resultFlag_parity _ hw
  | zf => exact resultFlag_zero _
  | sf => exact resultFlag_sign _

end

/-! ## The operations are exact -/

theorem eight_le_bits (width : Width) : 8 ≤ width.bits := by cases width <;> decide

section

variable {N : Type} (names : Names N) (width : Width) (left r : BitVec width.bits) (carryIn : Bool)
  (old : Flag → Bool)

theorem add_with_carry_computes :
    (ArithmeticOp.add.applyWithCarry names width left r carryIn).Computes old (sum left r carryIn)
      (withStatus old (sumFlag left r carryIn)) := by
  have hw := eight_le_bits width
  have hres : ArithmeticOp.add.resultWithCarry width left r carryIn = sum left r carryIn :=
    sum_eq left r carryIn (by omega)
  refine ⟨hres, (ofSource_applyTo _ _ old).trans (congrArg (withStatus old) (funext fun flag => ?_))⟩
  show ArithmeticOp.add.flag left r (ArithmeticOp.add.resultWithCarry width left r carryIn) carryIn flag = _
  rw [hres]
  exact sum_flag left r carryIn hw flag

theorem subtract_with_carry_computes :
    (ArithmeticOp.subtract.applyWithCarry names width left r carryIn).Computes old (difference left r carryIn)
      (withStatus old (differenceFlag left r carryIn)) := by
  have hw := eight_le_bits width
  have hres : ArithmeticOp.subtract.resultWithCarry width left r carryIn = difference left r carryIn :=
    difference_eq left r carryIn
  refine ⟨hres, (ofSource_applyTo _ _ old).trans (congrArg (withStatus old) (funext fun flag => ?_))⟩
  show ArithmeticOp.subtract.flag left r (ArithmeticOp.subtract.resultWithCarry width left r carryIn) carryIn flag = _
  rw [hres]
  exact difference_flag left r carryIn hw flag

theorem add_eq_sum : left + r = sum left r false := by
  rw [← sum_eq left r false width.bits_pos, show BitVec.ofBool false = 0#1 from rfl, BitVec.setWidth_zero,
    BitVec.add_zero]

theorem sub_eq_difference : left - r = difference left r false := by
  rw [← difference_eq left r false, show BitVec.ofBool false = 0#1 from rfl, BitVec.setWidth_zero, BitVec.sub_zero]

/-- Without a carry, the flags are decoded from the operands. -/
theorem add_computes :
    (ArithmeticOp.add.apply names width left r).Computes old (sum left r false)
      (withStatus old (sumFlag left r false)) := by
  have hres := add_eq_sum width left r
  refine ⟨hres, (ofSource_applyTo _ _ old).trans (congrArg (withStatus old) (funext fun flag => ?_))⟩
  show ArithmeticOp.add.flag left r (left + r) false flag = _
  rw [hres]
  exact sum_flag left r false (eight_le_bits width) flag

theorem subtract_computes :
    (ArithmeticOp.subtract.apply names width left r).Computes old (difference left r false)
      (withStatus old (differenceFlag left r false)) := by
  have hres := sub_eq_difference width left r
  refine ⟨hres, (ofSource_applyTo _ _ old).trans (congrArg (withStatus old) (funext fun flag => ?_))⟩
  show ArithmeticOp.subtract.flag left r (left - r) false flag = _
  rw [hres]
  exact difference_flag left r false (eight_le_bits width) flag

theorem logic_computes (operation : LogicOp) :
    let result := (operation.apply names width left r).result
    (operation.apply names width left r).Computes old result (withStatus old (flagsOf result false false false)) :=
  ⟨rfl, (ofSource_applyTo _ _ old).trans
    (congrArg (withStatus old) (funext (logicFlag_eq _ (eight_le_bits width))))⟩

end

end Relocade.Alu
