import Mathlib.Order.Basic
import Relocade.Alu.Rotates

/-!
# `Alu.Divide` — division with its faults

Dividends have twice the operand's width. A fault check stands before the division and another after it, so that no
division that the carrier traps on is reached, and a fault is raised exactly when there is no quotient.
-/

namespace Relocade.Alu

open Flags Words
open BitVec (toNat_setWidth eq_of_toInt_eq toInt_signExtend_of_le toInt_inj toInt_srem)

/-! ## Divisions in a carrier -/

section

variable {w : Nat}

/-- A zero divisor traps. -/
def divUnsigned (left right : BitVec w) : Option (BitVec w) :=
  let right := right.setWidth (carrierBits w)
  if right = 0 then none else some ((left.setWidth (carrierBits w) / right).setWidth w)

def remUnsigned (left right : BitVec w) : Option (BitVec w) :=
  let right := right.setWidth (carrierBits w)
  if right = 0 then none else some ((left.setWidth (carrierBits w) % right).setWidth w)

/-- So does the one quotient that the carrier does not hold. -/
def divSigned (left right : BitVec w) : Option (BitVec w) :=
  let left := left.signExtend (carrierBits w)
  let right := right.signExtend (carrierBits w)
  if right = 0 || left = BitVec.intMin (carrierBits w) && right = -1 then none
  else some ((left.sdiv right).setWidth w)

def remSigned (left right : BitVec w) : Option (BitVec w) :=
  let right := right.signExtend (carrierBits w)
  if right = 0 then none else some ((left.signExtend (carrierBits w)).srem right |>.setWidth w)

end

/-! ## The operations -/

inductive DivideOp where
  | unsigned | signed
  deriving DecidableEq, Repr

structure DivisionResult (w : Nat) where
  quotient : BitVec w
  remainder : BitVec w
  /-- A further check of the quotient, where the inputs do not prove that it fits. -/
  overflow : Option Bool
  deriving DecidableEq, Repr

namespace DivideOp

variable {w : Nat} (operation : DivideOp) (dividend : BitVec (2 * w)) (divisor : BitVec w)

/-- Whether the operands already show a fault. -/
def inputFault : Bool :=
  match operation with
  | unsigned => divisor.ule ((shr dividend (BitVec.ofNat 32 w)).setWidth w)
  | signed =>
      let zero : Bool := divisor = 0
      -- the wrapped quotient of a byte division fails the later check
      if w = 8 then zero
      else
        let minimum : BitVec (2 * w) := shl 1 (BitVec.ofNat 32 (w * 2 - 1))
        zero || (dividend = minimum && divisor = -1)

/-- `none` stands for a trap. -/
def apply : Option (DivisionResult w) :=
  match operation with
  | unsigned => do
      let divisor := divisor.setWidth (2 * w)
      let quotient ← divUnsigned dividend divisor
      let remainder ← remUnsigned dividend divisor
      some ⟨quotient.setWidth w, remainder.setWidth w, none⟩
  | signed => do
      let divisor := divisor.signExtend (2 * w)
      let quotient ← divSigned dividend divisor
      let overflow : Bool := quotient ≠ (quotient.setWidth w).signExtend (2 * w)
      let remainder ← remSigned dividend divisor
      some ⟨quotient.setWidth w, remainder.setWidth w, some overflow⟩

end DivideOp

inductive Division (w : Nat) where
  | fault
  | done (quotient remainder : BitVec w)
  deriving DecidableEq, Repr

/-- The fault checks around a division. -/
def divide {w : Nat} (operation : DivideOp) (dividend : BitVec (2 * w)) (divisor : BitVec w) : Option (Division w) :=
  if operation.inputFault dividend divisor then some .fault
  else do
    let result ← operation.apply dividend divisor
    if result.overflow = some true then some .fault else some (.done result.quotient result.remainder)

/-! ## Quotients as numbers -/

namespace DivideOp

variable {w : Nat} (operation : DivideOp)

/-- The number that a word stands for. -/
def number (x : BitVec w) : Int :=
  match operation with
  | unsigned => x.toNat
  | signed => x.toInt

/-- A number is in the range of words. -/
def Fits (w : Nat) (x : Int) : Prop :=
  match operation with
  | unsigned => 0 ≤ x ∧ x < (2 ^ w : Nat)
  | signed => FitsSigned w x

end DivideOp

/-- A fault where there is no quotient, and otherwise the exact quotient and remainder. -/
structure Divides {w : Nat} (operation : DivideOp) (dividend : BitVec (2 * w)) (divisor : BitVec w)
    (outcome : Option (Division w)) : Prop where
  fault : divisor = 0 ∨ ¬ operation.Fits w ((operation.number dividend).tdiv (operation.number divisor)) →
    outcome = some .fault
  done : divisor ≠ 0 → operation.Fits w ((operation.number dividend).tdiv (operation.number divisor)) →
    ∃ quotient remainder, outcome = some (.done quotient remainder) ∧
      operation.number quotient = (operation.number dividend).tdiv (operation.number divisor) ∧
      operation.number remainder = (operation.number dividend).tmod (operation.number divisor)

section

variable {w : Nat} {operation : DivideOp} {dividend quotient remainder : BitVec (2 * w)} {divisor : BitVec w}

theorem apply_unsigned (hquot : divUnsigned dividend (divisor.setWidth (2 * w)) = some quotient)
    (hrem : remUnsigned dividend (divisor.setWidth (2 * w)) = some remainder) :
    DivideOp.unsigned.apply dividend divisor = some ⟨quotient.setWidth w, remainder.setWidth w, none⟩ := by
  simp [DivideOp.apply, hquot, hrem]

theorem apply_signed (hquot : divSigned dividend (divisor.signExtend (2 * w)) = some quotient)
    (hrem : remSigned dividend (divisor.signExtend (2 * w)) = some remainder) :
    DivideOp.signed.apply dividend divisor = some ⟨quotient.setWidth w, remainder.setWidth w,
      some (decide (quotient ≠ (quotient.setWidth w).signExtend (2 * w)))⟩ := by
  simp [DivideOp.apply, hquot, hrem]

theorem divide_of_apply {res : DivisionResult w} (hin : ¬ operation.inputFault dividend divisor = true)
    (happly : operation.apply dividend divisor = some res) (hov : res.overflow ≠ some true) :
    divide operation dividend divisor = some (.done res.quotient res.remainder) := by
  unfold divide
  rw [if_neg hin, happly]
  exact if_neg hov

theorem divide_of_overflow {res : DivisionResult w} (hin : ¬ operation.inputFault dividend divisor = true)
    (happly : operation.apply dividend divisor = some res) (hov : res.overflow = some true) :
    divide operation dividend divisor = some .fault := by
  unfold divide
  rw [if_neg hin, happly]
  exact if_pos hov

end

section

variable (width : Width)

theorem carrierBits_double : 2 * width.bits ≤ carrierBits (2 * width.bits) := by cases width <;> decide

theorem inputFault_unsigned (dividend : BitVec (2 * width.bits)) (divisor : BitVec width.bits) :
    DivideOp.unsigned.inputFault dividend divisor = decide (divisor.toNat * 2 ^ width.bits ≤ dividend.toNat) := by
  have hcnt : (BitVec.ofNat 32 width.bits).toNat % carrierBits (2 * width.bits) = width.bits := by
    cases width <;> rfl
  have hdividend : dividend.toNat < 2 ^ width.bits * 2 ^ width.bits := by
    rw [← Nat.pow_add, ← Nat.two_mul]
    exact dividend.isLt
  have hhi : ((shr dividend (BitVec.ofNat 32 width.bits)).setWidth width.bits).toNat =
      dividend.toNat / 2 ^ width.bits := by
    rw [shr, hcnt, toNat_setWidth, BitVec.toNat_ushiftRight, Nat.shiftRight_eq_div_pow]
    exact Nat.mod_eq_of_lt (Nat.div_lt_of_lt_mul hdividend)
  show divisor.ule _ = _
  rw [BitVec.ule, hhi, decide_eq_decide, Nat.le_div_iff_mul_le (Nat.two_pow_pos _)]

/-- A word in a wider one. -/
theorem toNat_widen {v w : Nat} (h : w ≤ v) (x : BitVec w) : (x.setWidth v).toNat = x.toNat := by
  rw [toNat_setWidth]
  exact Nat.mod_eq_of_lt (x.isLt.trans_le (Nat.pow_le_pow_right Nat.two_pos h))

/-- A number that fits comes through both narrowings. -/
theorem toNat_narrow {u v w : Nat} (huv : w ≤ v) (x : BitVec u) (hx : x.toNat < 2 ^ w) :
    ((x.setWidth v).setWidth w).toNat = x.toNat := by
  rw [toNat_setWidth, toNat_setWidth,
    Nat.mod_eq_of_lt (hx.trans_le (Nat.pow_le_pow_right Nat.two_pos huv)), Nat.mod_eq_of_lt hx]

theorem divide_unsigned (dividend : BitVec (2 * width.bits)) (divisor : BitVec width.bits) :
    Divides .unsigned dividend divisor (divide .unsigned dividend divisor) := by
  have hcar := carrierBits_double width
  have hdouble : width.bits ≤ 2 * width.bits := by omega
  have hin := inputFault_unsigned width dividend divisor
  have hfits : DivideOp.unsigned.Fits width.bits ((dividend.toNat : Int).tdiv divisor.toNat) ↔
      dividend.toNat / divisor.toNat < 2 ^ width.bits := by
    show 0 ≤ ((dividend.toNat / divisor.toNat : Nat) : Int) ∧
      ((dividend.toNat / divisor.toNat : Nat) : Int) < (2 ^ width.bits : Nat) ↔ _
    exact ⟨fun h => Int.ofNat_lt.mp h.2, fun h => ⟨Int.natCast_nonneg _, Int.ofNat_lt.mpr h⟩⟩
  constructor
  · intro h
    refine if_pos (hin.trans (decide_eq_true ?_))
    rcases h with rfl | h
    · exact (Nat.zero_mul _).le.trans (Nat.zero_le _)
    · have hle := Nat.le_of_not_lt (mt hfits.mpr h)
      rw [Nat.mul_comm]
      exact (Nat.mul_le_mul_right _ hle).trans (Nat.div_mul_le_self _ _)
  · intro hne h
    have hpos : 0 < divisor.toNat := Nat.pos_of_ne_zero fun hz => hne (BitVec.eq_of_toNat_eq hz)
    have hlt := hfits.mp h
    have hdiv : ((divisor.setWidth (2 * width.bits)).setWidth (carrierBits (2 * width.bits))).toNat = divisor.toNat :=
      (toNat_widen hcar _).trans (toNat_widen hdouble _)
    have hne' : (divisor.setWidth (2 * width.bits)).setWidth (carrierBits (2 * width.bits)) ≠ 0 := by
      intro hz
      rw [hz] at hdiv
      exact hpos.ne hdiv
    have hin' : ¬ DivideOp.unsigned.inputFault dividend divisor = true := by
      have hmul := (Nat.div_lt_iff_lt_mul hpos).mp hlt
      rw [Nat.mul_comm (2 ^ width.bits) divisor.toNat] at hmul
      rw [hin, decide_eq_true_iff, Nat.not_le]
      exact hmul
    have hquot : divUnsigned dividend (divisor.setWidth (2 * width.bits)) = some _ := if_neg hne'
    have hrem : remUnsigned dividend (divisor.setWidth (2 * width.bits)) = some _ := if_neg hne'
    have houtcome := divide_of_apply hin' (apply_unsigned hquot hrem) nofun
    refine ⟨_, _, houtcome, congrArg Nat.cast ((toNat_narrow hdouble _ ?_).trans ?_),
      congrArg Nat.cast ((toNat_narrow hdouble _ ?_).trans ?_)⟩
    · rw [BitVec.toNat_udiv, hdiv, toNat_widen hcar]
      exact hlt
    · rw [BitVec.toNat_udiv, hdiv, toNat_widen hcar]
    · rw [BitVec.toNat_umod, hdiv, toNat_widen hcar]
      exact (Nat.mod_lt _ hpos).trans divisor.isLt
    · rw [BitVec.toNat_umod, hdiv, toNat_widen hcar]

/-! ## Signed division -/

/-- Narrowing gives the word that has the number. -/
theorem setWidth_eq_of_toInt {u v : Nat} (h : v ≤ u) {x : BitVec u} {y : BitVec v} (hxy : x.toInt = y.toInt) :
    x.setWidth v = y := by
  apply eq_of_toInt_eq
  rw [← BitVec.signExtend_eq_setWidth_of_le _ h, BitVec.toInt_signExtend_eq_toInt_bmod_of_le _ h, hxy,
    BitVec.toInt_bmod_cancel]

theorem fitsSigned_toInt {w : Nat} (hw : 0 < w) (x : BitVec w) : FitsSigned w x.toInt := by
  obtain ⟨n, rfl⟩ : ∃ n, w = n + 1 := ⟨w - 1, by omega⟩
  have hx := x.isLt
  have hpow : 2 ^ (n + 1) = 2 * 2 ^ n := by rw [Nat.pow_succ, Nat.mul_comm]
  rw [FitsSigned, Nat.add_sub_cancel, BitVec.toInt_eq_toNat_cond]
  rw [hpow] at hx ⊢
  split <;> omega

/-- A word has the number of a narrower one when the number fits. -/
theorem exists_narrow {v w : Nat} (hw : 0 < w) (h : w ≤ v) {x : BitVec v} (hx : FitsSigned w x.toInt) :
    (x.setWidth w).toInt = x.toInt := by
  obtain ⟨hlow, hhi⟩ := hx
  have hself : (BitVec.ofInt w x.toInt).toInt = x.toInt := by
    refine BitVec.toInt_ofInt_eq_self hw ?_ ?_
    · exact_mod_cast hlow
    · exact_mod_cast hhi
  rw [setWidth_eq_of_toInt h hself.symm, hself]

theorem narrow_iff {v w : Nat} (hw : 0 < w) (h : w ≤ v) (x : BitVec v) :
    x = (x.setWidth w).signExtend v ↔ FitsSigned w x.toInt := by
  constructor
  · intro heq
    have hfits := fitsSigned_toInt hw (x.setWidth w)
    rw [heq, toInt_signExtend_of_le h]
    exact hfits
  · intro hfits
    apply eq_of_toInt_eq
    rw [toInt_signExtend_of_le h, exists_narrow hw h hfits]

/-- The one quotient of signed words that no word of their width holds. -/
def exceptional (dividend : BitVec (2 * width.bits)) (divisor : BitVec width.bits) : Prop :=
  dividend = BitVec.intMin (2 * width.bits) ∧ divisor = -1

theorem divide_exceptional :
    divide (w := width.bits) .signed (BitVec.intMin (2 * width.bits)) (-1) = some .fault ∧
      ¬ FitsSigned width.bits ((BitVec.intMin (2 * width.bits)).toInt.tdiv (-1 : BitVec width.bits).toInt) := by
  cases width with
  | byte => exact ⟨rfl, by decide⟩
  | word => exact ⟨rfl, by decide⟩
  | dword => exact ⟨rfl, by decide⟩

theorem inputFault_signed {dividend : BitVec (2 * width.bits)} {divisor : BitVec width.bits} (hne : divisor ≠ 0)
    (hexc : ¬ exceptional width dividend divisor) : ¬ DivideOp.signed.inputFault dividend divisor = true := by
  have hminimum : shl (1 : BitVec (2 * width.bits)) (BitVec.ofNat 32 (width.bits * 2 - 1)) =
      BitVec.intMin (2 * width.bits) := by cases width <;> rfl
  have hand : (dividend = BitVec.intMin (2 * width.bits) && divisor = -1 : Bool) = false := by
    rw [Bool.and_eq_false_iff, decide_eq_false_iff_not, decide_eq_false_iff_not]
    exact not_and_or.mp hexc
  unfold DivideOp.inputFault
  dsimp only
  rw [hminimum, hand, decide_eq_false hne, Bool.or_false, ite_self]
  exact Bool.false_ne_true

theorem toInt_minus_one {w : Nat} (hw : 0 < w) : (-1 : BitVec w).toInt = -1 := by
  rw [show (-1 : BitVec w) = -1#w from rfl, BitVec.neg_one_eq_allOnes, BitVec.toInt_allOnes, if_pos hw]

section

variable {v w : Nat} (hw : 0 < w) (h : w ≤ v) (x : BitVec w)

include h

theorem signExtend_eq_zero : x.signExtend v = 0 ↔ x = 0 := by
  rw [← toInt_inj, ← toInt_inj, toInt_signExtend_of_le h]
  exact Iff.of_eq (congrArg (_ = ·) (BitVec.toInt_zero.trans BitVec.toInt_zero.symm))

include hw

theorem signExtend_eq_minus_one : x.signExtend v = -1 ↔ x = -1 := by
  rw [← toInt_inj, ← toInt_inj, toInt_signExtend_of_le h, toInt_minus_one (by omega),
    toInt_minus_one hw]

omit hw in
/-- A wider least number is at most as large. -/
theorem eq_intMin_of_signExtend (hx : x.signExtend v = BitVec.intMin v) : x = BitVec.intMin w := by
  have hle := BitVec.toInt_intMin_le x
  have hle' := BitVec.toInt_intMin_le ((BitVec.intMin w).signExtend v)
  have hval := congrArg BitVec.toInt hx
  rw [toInt_signExtend_of_le h] at hle' hval
  exact eq_of_toInt_eq (by omega)

end

section

variable {width} {n : BitVec (2 * width.bits)} {d : BitVec width.bits} (hz : d ≠ 0)

include hz

theorem remSigned_eq : remSigned n (d.signExtend (2 * width.bits)) =
    some (n.srem (d.signExtend (2 * width.bits))) := by
  have hcar := carrierBits_double width
  have hne : d.signExtend (2 * width.bits) ≠ 0 := mt (signExtend_eq_zero (by omega) d).mp hz
  refine (if_neg (mt (signExtend_eq_zero hcar _).mp hne)).trans (congrArg some (setWidth_eq_of_toInt hcar ?_))
  rw [toInt_srem, toInt_srem, toInt_signExtend_of_le hcar, toInt_signExtend_of_le hcar]

theorem divSigned_eq (hexc : ¬ exceptional width n d) :
    divSigned n (d.signExtend (2 * width.bits)) = some (n.sdiv (d.signExtend (2 * width.bits))) ∧
    (n.sdiv (d.signExtend (2 * width.bits))).toInt = n.toInt.tdiv d.toInt := by
  have hcar := carrierBits_double width
  have hw := width.bits_pos
  have hdouble : width.bits ≤ 2 * width.bits := by omega
  have hne : d.signExtend (2 * width.bits) ≠ 0 := mt (signExtend_eq_zero hdouble d).mp hz
  have hord : n ≠ BitVec.intMin (2 * width.bits) ∨ d.signExtend (2 * width.bits) ≠ -1 := by
    by_contra hboth
    rw [not_or, not_not, not_not] at hboth
    exact hexc ⟨hboth.1, (signExtend_eq_minus_one hw hdouble d).mp hboth.2⟩
  have hord' : n.signExtend (carrierBits (2 * width.bits)) ≠ BitVec.intMin (carrierBits (2 * width.bits)) ∨
      (d.signExtend (2 * width.bits)).signExtend (carrierBits (2 * width.bits)) ≠ -1 :=
    hord.imp (mt (eq_intMin_of_signExtend hcar n)) (mt (signExtend_eq_minus_one (by omega) hcar _).mp)
  have hquot := BitVec.toInt_sdiv_of_ne_or_ne n (d.signExtend (2 * width.bits)) hord
  constructor
  · refine (if_neg ?_).trans (congrArg some (setWidth_eq_of_toInt hcar ?_))
    · rw [Bool.or_eq_true, Bool.and_eq_true, decide_eq_true_iff, decide_eq_true_iff, decide_eq_true_iff, not_or]
      exact ⟨mt (signExtend_eq_zero hcar _).mp hne, not_and_or.mpr hord'⟩
    · rw [hquot, BitVec.toInt_sdiv_of_ne_or_ne _ _ hord', toInt_signExtend_of_le hcar,
        toInt_signExtend_of_le hcar]
  · rw [hquot, toInt_signExtend_of_le hdouble]

/-- A remainder is smaller than its divisor, and fits. -/
theorem remainder_fits : FitsSigned width.bits (n.toInt.tmod d.toInt) := by
  obtain ⟨hlow, hhi⟩ := fitsSigned_toInt width.bits_pos d
  have hne : d.toInt ≠ 0 := fun h => hz (eq_of_toInt_eq (h.trans BitVec.toInt_zero.symm))
  have hlt := Nat.mod_lt n.toInt.natAbs (Int.natAbs_pos.mpr hne)
  rw [← Int.natAbs_tmod] at hlt
  constructor
  · omega
  · omega

end

theorem divide_signed (dividend : BitVec (2 * width.bits)) (divisor : BitVec width.bits) :
    Divides .signed dividend divisor (divide .signed dividend divisor) := by
  have hw := width.bits_pos
  have hdouble : width.bits ≤ 2 * width.bits := by omega
  by_cases hz : divisor = 0
  · refine ⟨fun _ => if_pos ?_, fun hne => absurd hz hne⟩
    unfold DivideOp.inputFault
    dsimp only
    rw [decide_eq_true hz, Bool.true_or, ite_self]
  by_cases hexc : exceptional width dividend divisor
  · obtain ⟨rfl, rfl⟩ := hexc
    obtain ⟨hfault, hfits⟩ := divide_exceptional width
    exact ⟨fun _ => hfault, fun _ h => absurd h hfits⟩
  have hin := inputFault_signed width hz hexc
  obtain ⟨hquot, hval⟩ := divSigned_eq hz hexc
  have happly := apply_signed hquot (remSigned_eq hz)
  have hnarrow := narrow_iff hw hdouble (dividend.sdiv (divisor.signExtend (2 * width.bits)))
  have hrem : (dividend.srem (divisor.signExtend (2 * width.bits))).toInt = dividend.toInt.tmod divisor.toInt := by
    rw [toInt_srem, toInt_signExtend_of_le hdouble]
  rw [hval] at hnarrow
  constructor
  · intro h
    have hfits := h.resolve_left hz
    exact divide_of_overflow hin happly (congrArg some (decide_eq_true (mt hnarrow.mp hfits)))
  · intro _ hfits
    have houtcome := divide_of_apply hin happly fun h => by
      rw [Option.some.injEq, decide_eq_true_iff] at h
      exact h (hnarrow.mpr hfits)
    refine ⟨_, _, houtcome, ?_, ?_⟩
    · refine (exists_narrow hw hdouble ?_).trans hval
      rw [hval]
      exact hfits
    · refine (exists_narrow hw hdouble ?_).trans hrem
      rw [hrem]
      exact remainder_fits hz

theorem divide_computes (operation : DivideOp) (dividend : BitVec (2 * width.bits)) (divisor : BitVec width.bits) :
    Divides operation dividend divisor (divide operation dividend divisor) := by
  cases operation with
  | unsigned => exact divide_unsigned width dividend divisor
  | signed => exact divide_signed width dividend divisor

end

/-! ## All operations -/

/-- A comparison of operands is the condition of their difference's flags. -/
theorem comparison_eq (width : Width) (cond : Condition) (left right : BitVec width.bits)
    {compare : BitVec width.bits → BitVec width.bits → Bool} (h : cond.operandComparison width.bits = some compare) :
    compare left right = cond.holds (differenceFlag left right false) := by
  rw [operandComparison_eq h left right width.bits_pos, sub_eq_difference width left right]
  exact congrArg cond.holds (funext (difference_flag left right false (eight_le_bits width)))

theorem zeroTest_eq (width : Width) (cond : Condition) (res : BitVec width.bits)
    {compare : BitVec width.bits → Bool} (h : cond.logicResultComparison width.bits = some compare) :
    compare res = cond.holds (flagsOf res false false false) := by
  rw [logicResultComparison_eq h]
  exact congrArg cond.holds (funext (logicFlag_eq res (eight_le_bits width)))

/-- Every operation has the result and flags of its definition: sums and differences as numbers, shifts and rotates one
bit at a time, with a zero count changing nothing. Conditions are those of the flags where comparisons answer them, and
divisions fault exactly where there is no quotient, without a trap. -/
theorem alu_exact {N : Type} (naming : Naming N) (names : Names N) (width : Width) (old : Flag → Bool) :
    (∀ left right,
      (ArithmeticOp.add.apply names width left right).Computes old (sum left right false)
        (withStatus old (sumFlag left right false)) ∧
      (ArithmeticOp.subtract.apply names width left right).Computes old (difference left right false)
        (withStatus old (differenceFlag left right false)) ∧
      ∀ carryIn,
        (ArithmeticOp.add.applyWithCarry names width left right carryIn).Computes old (sum left right carryIn)
          (withStatus old (sumFlag left right carryIn)) ∧
        (ArithmeticOp.subtract.applyWithCarry names width left right carryIn).Computes old
          (difference left right carryIn) (withStatus old (differenceFlag left right carryIn))) ∧
    (∀ (input : BitVec width.bits) (count : BitVec 8),
      let n := count.toNat % 32
      (∀ operation : ShiftOp,
        let s := operation.step^[n] ⟨old (.status .cf), input⟩
        (operation.apply naming names width input (maskCount count)).Computes old s.word
          (shiftFlags input n (operation.carryDefined width.bits n && s.carry) s.word old)) ∧
      (∀ (operation : DoubleShiftOp) (source : BitVec width.bits),
        let s := operation.step^[n] ⟨old (.status .cf), input, source⟩
        let fits : Bool := n ≤ width.bits
        let word := if fits then s.word else 0
        (operation.apply naming names width input source (maskCount count)).Computes old word
          (shiftFlags input n (fits && s.carry) word old)) ∧
      ∀ direction : RotateDirection,
        (let s := direction.step^[n] ⟨old (.status .cf), input⟩
        (direction.rotate naming names width input (maskCount count)).Computes old s.word
          (if n ≠ 0 then rotateFlags input n s old else old)) ∧
        let s := direction.throughStep^[n] ⟨old (.status .cf), input⟩
        (direction.rotateThroughCarry naming names width input (maskCount count) (old (.status .cf))).Computes old s.word
          (if n % (width.bits + 1) ≠ 0 then rotateFlags input n s old else old)) ∧
    (∀ condition : Condition,
      (∀ compare ∈ condition.operandComparison width.bits, ∀ left right,
        compare left right = condition.holds (differenceFlag left right false)) ∧
      ∀ compare ∈ condition.logicResultComparison width.bits, ∀ (operation : LogicOp) (left right : BitVec width.bits),
        let outcome := operation.apply names width left right
        compare outcome.result = condition.holds fun flag => outcome.flags.applyTo old (.status flag)) ∧
    ∀ (operation : DivideOp) (dividend : BitVec (2 * width.bits)) (divisor : BitVec width.bits),
      Divides operation dividend divisor (divide operation dividend divisor) := by
  refine ⟨fun left right => ⟨?_, ?_, fun carryIn => ⟨?_, ?_⟩⟩, fun input count => ?_, fun condition => ⟨?_, ?_⟩, ?_⟩
  · exact add_computes names width left right old
  · exact subtract_computes names width left right old
  · exact add_with_carry_computes names width left right carryIn old
  · exact subtract_with_carry_computes names width left right carryIn old
  · have hcount : (maskCount count).toNat < 32 := by
      rw [toNat_maskCount]
      exact Nat.mod_lt _ (by decide)
    intro n
    have hn : n = (maskCount count).toNat := (toNat_maskCount count).symm
    rw [hn]
    exact ⟨fun operation => shift_computes naming names width operation input hcount old,
      fun operation source => doubleShift_computes naming names width operation input source hcount old,
      fun direction => ⟨rotate_computes naming names width direction input (maskCount count) old,
        rotateThroughCarry_computes naming names width direction input hcount old⟩⟩
  · intro compare h left right
    exact comparison_eq width condition left right h
  · intro compare h operation left right outcome
    rw [zeroTest_eq width condition outcome.result h, (logic_computes names width left right old operation).flags_eq]
    rfl
  · exact divide_computes width

end Relocade.Alu
