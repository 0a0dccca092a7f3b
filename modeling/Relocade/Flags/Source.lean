import Relocade.Flags.Condition

/-!
# `Flags.Source` — complete flag descriptions

A status source tells all six status flags of an operation, from its operands and result, and answers conditions
directly where its operands decide them.
-/

namespace Relocade.Flags

section

variable {w : Nat}

/-- One bit of a value. -/
def bit (value : BitVec w) (index : Nat) : Bool := (value >>> index).getLsbD 0

/-- Only parity, zero and sign depend on the result alone. -/
def resultFlag (result : BitVec w) : StatusFlag → Bool
  | .pf => (result &&& 0xff).cpop &&& 1 == 0
  | .zf => result == 0
  | .sf => bit result (w - 1)
  | .cf | .af | .of => false

inductive ArithmeticOp where
  | add | subtract
  deriving DecidableEq, Repr

namespace ArithmeticOp

def result (operation : ArithmeticOp) (left right : BitVec w) : BitVec w :=
  match operation with
  | add => left + right
  | subtract => left - right

/-- A flag of an arithmetic operation. -/
def flag (operation : ArithmeticOp) (left right result : BitVec w) (carryIn : Bool) : StatusFlag → Bool
  | .cf =>
      -- addition compares its wrapped result, subtraction its operands
      let (left, right) :=
        match operation with
        | add => (result, left)
        | subtract => (left, right)
      bif carryIn then left.ule right else left.ult right
  | .af => bit (left ^^^ right ^^^ result) 4
  | .of =>
      let leftXorResult := left ^^^ result
      let overflowPair :=
        match operation with
        | add => right ^^^ result
        | subtract => left ^^^ right
      bit (leftXorResult &&& overflowPair) (w - 1)
  | .pf => resultFlag result .pf
  | .zf => resultFlag result .zf
  | .sf => resultFlag result .sf

end ArithmeticOp

/-- The flags of a bitwise result. AF is architecturally undefined, and zero by policy. -/
def logicFlag (result : BitVec w) : StatusFlag → Bool
  | .cf | .of => false
  | .af => false
  | .pf => resultFlag result .pf
  | .zf => resultFlag result .zf
  | .sf => resultFlag result .sf

/-- A source at one operand width. Every arithmetic source is built with the operation's result. -/
inductive StatusSource (w : Nat) where
  | arithmetic (operation : ArithmeticOp) (left right result : BitVec w) (hresult : result = operation.result left right)
  | logic (result : BitVec w)
  | explicit (flags : StatusFlag → Bool)

namespace StatusSource

def flag : StatusSource w → StatusFlag → Bool
  | arithmetic operation left right result _, flag => operation.flag left right result false flag
  | logic result, flag => logicFlag result flag
  | explicit flags, flag => flags flag

def condition (source : StatusSource w) (condition : Condition) : Bool :=
  let shortcut : Option Bool :=
    match source with
    | arithmetic .subtract left right _ _ => (condition.operandComparison w).map (· left right)
    | logic result => (condition.logicResultComparison w).map (· result)
    | arithmetic .add .. | explicit _ => none
  shortcut.getD (condition.holds source.flag)

end StatusSource

end

/-- The operand widths of x86. -/
inductive Width where
  | byte | word | dword
  deriving DecidableEq, Repr

def Width.bits : Width → Nat
  | byte => 8
  | word => 16
  | dword => 32

/-- A source of any x86 operand width. -/
structure AnyStatusSource where
  width : Width
  source : StatusSource width.bits

def AnyStatusSource.flag (any : AnyStatusSource) (flag : StatusFlag) : Bool := any.source.flag flag

def AnyStatusSource.condition (any : AnyStatusSource) (condition : Condition) : Bool := any.source.condition condition

/-! ## The shortcuts agree with the flags -/

section

variable {w : Nat}

theorem bit_msb (value : BitVec w) : bit value (w - 1) = value.msb := by
  unfold bit
  rw [BitVec.getLsbD_ushiftRight, Nat.add_zero, BitVec.msb_eq_getLsbD_last]

/-- Sign differs from overflow exactly when the left operand is less as a signed number. -/
theorem sign_xor_overflow (left right : BitVec w) (hw : 0 < w) :
    ((left - right).msb ^^ ((left ^^^ (left - right)) &&& (left ^^^ right)).msb) = left.slt right := by
  obtain ⟨n, rfl⟩ : ∃ n, w = n + 1 := ⟨w - 1, by omega⟩
  have hpow : 2 ^ (n + 1) = 2 * 2 ^ n := by rw [Nat.pow_succ, Nat.mul_comm]
  have hl := left.isLt
  have hr := right.isLt
  have hsub : (left - right).toNat = (2 ^ (n + 1) - right.toNat + left.toNat) % 2 ^ (n + 1) := BitVec.toNat_sub ..
  rw [hpow] at hsub hl hr
  rw [BitVec.msb_and, BitVec.msb_xor, BitVec.msb_xor, BitVec.slt_eq_ult]
  simp only [BitVec.msb_eq_decide, BitVec.ult_eq_decide, Nat.add_sub_cancel]
  generalize (left - right).toNat = d at hsub ⊢
  generalize left.toNat = l at *
  generalize right.toNat = r at *
  -- the difference wraps exactly when the right operand is greater
  have hd : d = if r ≤ l then l - r else 2 * 2 ^ n + l - r := by
    rw [hsub]
    split
    next hle =>
      rw [show 2 * 2 ^ n - r + l = (l - r) + 2 * 2 ^ n by omega, Nat.add_mod_right, Nat.mod_eq_of_lt (by omega)]
    next => rw [Nat.mod_eq_of_lt (by omega), Nat.sub_add_comm (by omega)]
  by_cases hleft : 2 ^ n ≤ l <;> by_cases hright : 2 ^ n ≤ r <;> by_cases hle : r ≤ l <;>
    simp only [hle, if_true, if_false] at hd <;> by_cases hdiff : 2 ^ n ≤ d <;>
    simp [hleft, hright, hdiff] <;> omega

theorem sub_beq_zero (left right : BitVec w) : (left - right == 0) = (left == right) := by
  rw [Bool.eq_iff_iff, beq_iff_eq, beq_iff_eq]
  rw [BitVec.sub_eq_iff_eq_add, show (0 : BitVec w) + right = right from BitVec.zero_add right]

theorem ule_eq_ult_or_eq (left right : BitVec w) : left.ule right = (left.ult right || left == right) := by
  rw [Bool.eq_iff_iff]
  simp only [BitVec.ule_eq_decide, BitVec.ult_eq_decide, Bool.or_eq_true, decide_eq_true_eq, beq_iff_eq,
    ← BitVec.toNat_inj]
  omega

/-- The flags of a subtraction that conditions depend on. -/
theorem subtract_flags (left right : BitVec w) (hw : 0 < w) :
    let flags := ArithmeticOp.flag .subtract left right (left - right) false
    flags .cf = left.ult right ∧ flags .zf = (left == right) ∧ (flags .sf ^^ flags .of) = left.slt right := by
  refine ⟨rfl, sub_beq_zero left right, ?_⟩
  rw [← sign_xor_overflow left right hw]
  dsimp only [ArithmeticOp.flag, resultFlag]
  rw [bit_msb, bit_msb]

/-- A comparison of the operands of a subtraction is the condition of its flags. -/
theorem operandComparison_eq {cond : Condition} {compare : BitVec w → BitVec w → Bool}
    (h : cond.operandComparison w = some compare) (left right : BitVec w) (hw : 0 < w) :
    compare left right = cond.holds (ArithmeticOp.flag .subtract left right (left - right) false) := by
  obtain ⟨hcarry, hz, hsign⟩ := subtract_flags left right hw
  have hless : right.ult left = !left.ule right := by rw [BitVec.ule_eq_not_ult, Bool.not_not]
  have hsigned : right.slt left = !left.sle right := by rw [BitVec.sle_eq_not_slt, Bool.not_not]
  cases cond <;> cases h <;> simp only [Condition.holds, Condition.evaluate, Id.run, pure, bind, hcarry, hz, hsign]
  case ne.refl => rfl
  case ae.refl => exact BitVec.ule_eq_not_ult right left
  case be.refl => exact ule_eq_ult_or_eq left right
  case a.refl => rw [hless, ule_eq_ult_or_eq]
  case ge.refl => exact BitVec.sle_eq_not_slt
  case le.refl => rw [BitVec.sle_eq_slt_or_eq, Bool.or_comm]
  case g.refl => rw [hsigned, BitVec.sle_eq_slt_or_eq, Bool.or_comm]

/-- A zero test of a logical result is the condition of its flags. -/
theorem logicResultComparison_eq {cond : Condition} {compare : BitVec w → Bool}
    (h : cond.logicResultComparison w = some compare) (res : BitVec w) :
    compare res = cond.holds (logicFlag res) := by
  cases cond <;> cases h <;> rfl

/-- A source answers every condition as its flags do. -/
theorem StatusSource.condition_eq (source : StatusSource w) (cond : Condition) (hw : 0 < w) :
    source.condition cond = cond.holds source.flag := by
  cases source with
  | arithmetic operation left right result hres =>
    cases operation with
    | add => rfl
    | subtract =>
      subst hres
      cases hcompare : cond.operandComparison w with
      | none => simp [StatusSource.condition, hcompare]
      | some compare =>
        unfold StatusSource.condition
        rw [hcompare]
        exact operandComparison_eq hcompare left right hw
  | logic result =>
    cases hcompare : cond.logicResultComparison w with
    | none => simp [StatusSource.condition, hcompare]
    | some compare =>
      unfold StatusSource.condition
      rw [hcompare]
      exact logicResultComparison_eq hcompare result
  | explicit flags => rfl

theorem Width.bits_pos (width : Width) : 0 < width.bits := by
  cases width <;> decide

theorem AnyStatusSource.condition_eq (any : AnyStatusSource) (cond : Condition) :
    any.condition cond = cond.holds any.flag :=
  any.source.condition_eq cond any.width.bits_pos

end

end Relocade.Flags
