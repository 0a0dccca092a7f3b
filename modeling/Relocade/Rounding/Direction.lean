import Mathlib.Algebra.Order.Floor.Ring
import Mathlib.Algebra.Ring.Parity
import Mathlib.Tactic.Linarith
import Mathlib.Tactic.Ring

/-!
# `Rounding.Direction` — rounding to integers from a floor and two bits

The four rounding directions, and what decides a rounding: the floor of a magnitude, whether the discarded fraction
reaches a half, and whether anything else of it remains (`Describes`). A direction rounds a signed value to the floor
of its magnitude, incremented as these say (`round_sign_mul`).
-/

namespace Relocade.Rounding

variable {K : Type*} [Field K] [LinearOrder K] [IsStrictOrderedRing K] [FloorRing K]

/-! ## Directions -/

inductive Direction where
  | nearest
  | down
  | up
  | zero
  deriving DecidableEq, Repr

/-- The nearest integer, the even one of two. -/
def roundEven (x : K) : ℤ :=
  if 2 * Int.fract x < 1 then ⌊x⌋
  else if 1 < 2 * Int.fract x then ⌊x⌋ + 1
  else if Even ⌊x⌋ then ⌊x⌋
  else ⌊x⌋ + 1

/-- The integer that a direction gives a value. -/
def Direction.round : Direction → K → ℤ
  | .nearest, x => roundEven x
  | .down, x => ⌊x⌋
  | .up, x => ⌈x⌉
  | .zero, x => if 0 ≤ x then ⌊x⌋ else ⌈x⌉

/-- Rounds to a multiple of `2 ^ q`. -/
def Direction.roundAt (d : Direction) (q : ℤ) (x : K) : K := d.round (x / 2 ^ q) * 2 ^ q

/-- A value with few significant bits. -/
def Fits (precision : ℕ) (x : K) : Prop := ∃ (m : ℕ) (e : ℤ), m < 2 ^ precision ∧ |x| = m * 2 ^ e

/-- Whether a direction leads away from zero on one side of it. -/
def Direction.awayFromZero (d : Direction) (negative : Bool) : Bool :=
  match d with
  | .down => negative
  | .up => !negative
  | _ => false

/-- Whether a magnitude too large to represent becomes infinite. -/
def Direction.overflowToInfinity (d : Direction) (negative : Bool) : Bool := d = .nearest || d.awayFromZero negative

/-! ## Evidence -/

/-- An integer floor and its fraction, described by its first bit and whether anything is left below. -/
structure Describes (floor : ℕ) (guard sticky : Bool) (x : K) : Prop where
  floor_eq : ⌊x⌋ = floor
  guard_iff : guard = true ↔ 1 ≤ 2 * Int.fract x
  sticky_iff : sticky = true ↔ Int.fract x ≠ 0 ∧ 2 * Int.fract x ≠ 1

variable {floor : ℕ} {guard sticky : Bool} {x : K}

namespace Describes

omit [IsStrictOrderedRing K] in
theorem eq_floor_add_fract (h : Describes floor guard sticky x) : x = floor + Int.fract x := by
  have hx := Int.floor_add_fract x
  rw [h.floor_eq] at hx
  exact_mod_cast hx.symm

theorem nonneg (h : Describes floor guard sticky x) : 0 ≤ x := by
  rw [h.eq_floor_add_fract]
  exact add_nonneg (Nat.cast_nonneg floor) (Int.fract_nonneg x)

omit [IsStrictOrderedRing K] in
/-- A value has one description. -/
theorem unique {floor' : ℕ} {guard' sticky' : Bool} (h : Describes floor guard sticky x)
    (h' : Describes floor' guard' sticky' x) : floor = floor' ∧ guard = guard' ∧ sticky = sticky' := by
  refine ⟨?_, ?_, ?_⟩
  · have hfloor := h.floor_eq
    rw [h'.floor_eq] at hfloor
    exact_mod_cast hfloor.symm
  · exact Bool.eq_iff_iff.mpr (h.guard_iff.trans h'.guard_iff.symm)
  · exact Bool.eq_iff_iff.mpr (h.sticky_iff.trans h'.sticky_iff.symm)

/-- Something was discarded. -/
theorem inexact_iff (h : Describes floor guard sticky x) : (guard || sticky) = true ↔ Int.fract x ≠ 0 := by
  rw [Bool.or_eq_true, h.guard_iff, h.sticky_iff]
  constructor
  · rintro (hguard | hsticky) hz
    · rw [hz] at hguard
      linarith
    · exact hsticky.1 hz
  · intro hfract
    by_cases hhalf : 2 * Int.fract x = 1
    · exact Or.inl hhalf.ge
    · exact Or.inr ⟨hfract, hhalf⟩

/-- An integer is described exactly. -/
theorem exact (n : ℕ) : Describes n false false (n : K) where
  floor_eq := Int.floor_natCast n
  guard_iff := by simp
  sticky_iff := by simp

/-- The remainder of a division by a power of two, with its first bit split off. -/
theorem mod_two_pow_succ (n k : ℕ) : n % 2 ^ (k + 1) = n % 2 ^ k + if n.testBit k then 2 ^ k else 0 := by
  rw [Nat.mod_pow_succ, Nat.testBit_eq_decide_div_mod_eq]
  rcases Nat.mod_two_eq_zero_or_one (n / 2 ^ k) with h | h
  · simp [h]
  · simp [h]

/-- The discarded fraction of a quotient is the remainder of the division with the old fraction below it. -/
theorem fract_div_pow (h : Describes floor guard sticky x) (k : ℕ) :
    Int.fract (x / 2 ^ k) * 2 ^ k = (floor % 2 ^ k : ℕ) + Int.fract x := by
  have hpow : (2 : K) ^ k ≠ 0 := by positivity
  have hfloor : ⌊x / 2 ^ k⌋ = (floor / 2 ^ k : ℕ) := by
    have hdiv := Int.floor_div_natCast x (2 ^ k)
    rw [h.floor_eq] at hdiv
    push_cast at hdiv ⊢
    exact hdiv
  have hsplit : (floor : K) = (floor % 2 ^ k : ℕ) + 2 ^ k * (floor / 2 ^ k : ℕ) := by
    exact_mod_cast (Nat.mod_add_div floor (2 ^ k)).symm
  calc Int.fract (x / 2 ^ k) * 2 ^ k = x - (floor / 2 ^ k : ℕ) * 2 ^ k := by
        rw [Int.fract, hfloor, Int.cast_natCast, sub_mul, div_mul_cancel₀ x hpow]
    _ = (floor : K) + Int.fract x - (floor / 2 ^ k : ℕ) * 2 ^ k := by rw [← h.eq_floor_add_fract]
    _ = (floor % 2 ^ k : ℕ) + Int.fract x := by
        rw [hsplit]
        ring

/-- Evidence survives division by a power of two. -/
theorem div_pow (h : Describes floor guard sticky x) (k : ℕ) :
    Describes (floor / 2 ^ (k + 1)) (floor.testBit k) (sticky || guard || decide (floor % 2 ^ k ≠ 0))
      (x / 2 ^ (k + 1)) := by
  have hpow : (0 : K) < 2 ^ k := by positivity
  have hscaled : 2 * Int.fract (x / 2 ^ (k + 1)) * 2 ^ k =
      (floor % 2 ^ k : ℕ) + (if floor.testBit k then 2 ^ k else 0) + Int.fract x := by
    have hfract := h.fract_div_pow (k + 1)
    rw [mod_two_pow_succ] at hfract
    push_cast at hfract
    rw [← hfract]
    ring
  have hnonneg := Int.fract_nonneg x
  have hone := Int.fract_lt_one x
  have hlow0 : (0 : K) ≤ (floor % 2 ^ k : ℕ) := Nat.cast_nonneg _
  have hlow : ((floor % 2 ^ k : ℕ) : K) + 1 ≤ 2 ^ k := by
    exact_mod_cast Nat.succ_le_of_lt (Nat.mod_lt floor (Nat.two_pow_pos k))
  constructor
  · have hdiv := Int.floor_div_natCast x (2 ^ (k + 1))
    rw [h.floor_eq] at hdiv
    push_cast at hdiv ⊢
    exact hdiv
  · rw [← mul_le_mul_iff_left₀ hpow, one_mul, hscaled]
    cases hbit : floor.testBit k with
    | false =>
      rw [if_neg Bool.false_ne_true, add_zero]
      refine ⟨fun h => absurd h Bool.false_ne_true, fun h => ?_⟩
      linarith
    | true =>
      rw [if_pos rfl]
      refine ⟨fun _ => ?_, fun _ => rfl⟩
      linarith
  · have hz : Int.fract (x / 2 ^ (k + 1)) ≠ 0 ↔ 2 * Int.fract (x / 2 ^ (k + 1)) * 2 ^ k ≠ 0 := by
      simp
    have hhalf : 2 * Int.fract (x / 2 ^ (k + 1)) ≠ 1 ↔ 2 * Int.fract (x / 2 ^ (k + 1)) * 2 ^ k ≠ 2 ^ k := by
      rw [not_iff_not, mul_eq_right₀ hpow.ne']
    have hsticky : (sticky || guard || decide (floor % 2 ^ k ≠ 0)) = true ↔
        Int.fract x ≠ 0 ∨ ((floor % 2 ^ k : ℕ) : K) ≠ 0 := by
      rw [Bool.or_eq_true, Bool.or_comm, h.inexact_iff, decide_eq_true_iff, Nat.cast_ne_zero]
    have hrest : (Int.fract x ≠ 0 ∨ ((floor % 2 ^ k : ℕ) : K) ≠ 0) ↔ 0 < ((floor % 2 ^ k : ℕ) : K) + Int.fract x := by
      constructor
      · rintro (hfract | hlow)
        · exact add_pos_of_nonneg_of_pos hlow0 (hnonneg.lt_of_ne' hfract)
        · exact add_pos_of_pos_of_nonneg (hlow0.lt_of_ne' hlow) hnonneg
      · intro hpos
        by_contra hz
        rw [not_or, not_not, not_not] at hz
        linarith
    rw [hsticky, hz, hhalf, hscaled, hrest]
    cases floor.testBit k with
    | false =>
      rw [if_neg Bool.false_ne_true, add_zero]
      exact ⟨fun h => ⟨h.ne', by linarith⟩, fun h => (add_nonneg hlow0 hnonneg).lt_of_ne' h.1⟩
    | true =>
      rw [if_pos rfl]
      refine ⟨fun h => ⟨by linarith, by linarith⟩, fun h => ?_⟩
      refine (add_nonneg hlow0 hnonneg).lt_of_ne' fun hsum => h.2 ?_
      linarith

end Describes

/-! ## Rounding from evidence -/

/-- The sign of a magnitude. -/
def sign (R : Type*) [Ring R] (negative : Bool) : R := if negative then -1 else 1

/-- Whether rounding moves a magnitude up from its floor. -/
def Direction.increments (d : Direction) (negative guard sticky odd : Bool) : Bool :=
  match d with
  | .nearest => guard && (sticky || odd)
  | d => (guard || sticky) && d.awayFromZero negative

theorem Describes.ceil_eq (h : Describes floor guard sticky x) : ⌈x⌉ = (floor + (guard || sticky).toNat : ℕ) := by
  by_cases hfract : Int.fract x = 0
  · have hexact : (guard || sticky) = false := Bool.eq_false_iff.mpr fun hinex => h.inexact_iff.mp hinex hfract
    have hx : x = floor := by
      have hsum := h.eq_floor_add_fract
      rw [hfract, add_zero] at hsum
      exact hsum
    rw [hexact, hx]
    exact Int.ceil_natCast floor
  · have hceil := Int.ceil_eq_add_one_sub_fract hfract
    rw [h.inexact_iff.mpr hfract, Bool.toNat_true]
    have hsum := h.eq_floor_add_fract
    have hcast : (⌈x⌉ : K) = ((floor + 1 : ℕ) : K) := by
      rw [hceil, Nat.cast_succ]
      linarith
    exact_mod_cast hcast

theorem Describes.roundEven_eq (h : Describes floor guard sticky x) :
    roundEven x = (floor + (guard && (sticky || decide (floor % 2 = 1))).toNat : ℕ) := by
  have hodd : Even ⌊x⌋ ↔ ¬ floor % 2 = 1 := by
    rw [h.floor_eq, Int.even_coe_nat, Nat.even_iff]
    omega
  unfold roundEven
  rw [h.floor_eq] at hodd ⊢
  split
  next hbelow =>
    have hguard : guard = false := Bool.eq_false_iff.mpr fun hguard => hbelow.not_ge (h.guard_iff.mp hguard)
    rw [hguard]
    rfl
  next hbelow =>
    have hguard : guard = true := h.guard_iff.mpr (not_lt.mp hbelow)
    rw [hguard, Bool.true_and]
    split
    next habove =>
      have hsticky : sticky = true := h.sticky_iff.mpr ⟨by rintro hz; linarith, habove.ne'⟩
      rw [hsticky]
      rfl
    next habove =>
      have hsticky : sticky = false :=
        Bool.eq_false_iff.mpr fun hsticky =>
          (h.sticky_iff.mp hsticky).2 (le_antisymm (not_lt.mp habove) (not_lt.mp hbelow))
      rw [hsticky, Bool.false_or]
      split
      next heven =>
        rw [decide_eq_false (hodd.mp heven)]
        rfl
      next heven =>
        rw [decide_eq_true (not_not.mp (mt hodd.mpr heven))]
        rfl

theorem roundEven_intCast (n : ℤ) : roundEven (n : K) = n := by simp [roundEven]

theorem roundEven_neg (x : K) : roundEven (-x) = -roundEven x := by
  by_cases hfract : Int.fract x = 0
  · obtain ⟨n, rfl⟩ := Int.fract_eq_zero_iff.mp hfract
    rw [roundEven_intCast, ← Int.cast_neg, roundEven_intCast]
  · have hceil : ⌈x⌉ = ⌊x⌋ + 1 := by
      have hcast : (⌈x⌉ : K) = ((⌊x⌋ + 1 : ℤ) : K) := by
        have hx := Int.floor_add_fract x
        rw [Int.ceil_eq_add_one_sub_fract hfract]
        push_cast
        linarith
      exact_mod_cast hcast
    have hfloor : ⌊-x⌋ = -⌊x⌋ - 1 := by
      rw [Int.floor_neg, hceil]
      omega
    have heven : Even (-⌊x⌋ - 1) ↔ ¬ Even ⌊x⌋ := by rw [Int.even_sub_one, even_neg]
    unfold roundEven
    rw [Int.fract_neg hfract, hfloor]
    rcases lt_trichotomy (2 * Int.fract x) 1 with h | h | h
    · rw [if_neg (by linarith), if_pos (by linarith), if_pos h]
      omega
    · rw [if_neg (show ¬ 2 * (1 - Int.fract x) < 1 by linarith), if_neg (show ¬ 1 < 2 * (1 - Int.fract x) by linarith),
        if_neg h.not_lt, if_neg h.not_gt]
      by_cases hx : Even ⌊x⌋
      · rw [if_neg (not_not.mpr hx ∘ heven.mp), if_pos hx]
        omega
      · rw [if_pos (heven.mpr hx), if_neg hx]
        omega
    · rw [if_pos (by linarith), if_neg (by linarith), if_pos h]
      omega

/-- The nearest integer is the floor or the ceiling. -/
theorem roundEven_bounds (x : K) : ⌊x⌋ ≤ roundEven x ∧ roundEven x ≤ ⌈x⌉ := by
  have hle := Int.floor_le_ceil x
  have hceil (hfract : Int.fract x ≠ 0) : ⌊x⌋ + 1 ≤ ⌈x⌉ := by
    have hx := Int.floor_add_fract x
    have hpos := (Int.fract_nonneg x).lt_of_ne' hfract
    refine Int.add_one_le_iff.mpr (Int.lt_ceil.mpr ?_)
    linarith
  have hz : ¬ 2 * Int.fract x < 1 → Int.fract x ≠ 0 := by
    rintro h hfract
    rw [hfract, mul_zero] at h
    exact h one_pos
  unfold roundEven
  split
  next => exact ⟨le_refl _, hle⟩
  next hhalf =>
    have hup := hceil (hz hhalf)
    split
    next => exact ⟨(Int.lt_succ _).le, hup⟩
    next =>
      split
      next => exact ⟨le_refl _, hle⟩
      next => exact ⟨(Int.lt_succ _).le, hup⟩

/-- The nearest integer is within a half. -/
theorem roundEven_near (x : K) : 2 * x ≤ 2 * roundEven x + 1 ∧ 2 * (roundEven x : K) ≤ 2 * x + 1 := by
  have hx := Int.floor_add_fract x
  have hnonneg := Int.fract_nonneg x
  have hone := Int.fract_lt_one x
  unfold roundEven
  split
  next h => exact ⟨by linarith, by linarith⟩
  next h =>
    split
    next h' =>
      push_cast
      exact ⟨by linarith, by linarith⟩
    next h' =>
      split
      next => exact ⟨by linarith, by linarith⟩
      next =>
        push_cast
        exact ⟨by linarith, by linarith⟩

theorem Direction.round_intCast (d : Direction) (n : ℤ) : d.round (n : K) = n := by
  cases d with
  | nearest => exact roundEven_intCast n
  | down => exact Int.floor_intCast n
  | up => exact Int.ceil_intCast n
  | zero =>
    show (if 0 ≤ (n : K) then ⌊(n : K)⌋ else ⌈(n : K)⌉) = n
    rw [Int.floor_intCast, Int.ceil_intCast, ite_self]

theorem roundEven_nonneg {x : K} (hx : 0 ≤ x) : 0 ≤ roundEven x :=
  (Int.floor_nonneg.mpr hx).trans (roundEven_bounds x).1

/-- Even integers pass through rounding to nearest. -/
theorem roundEven_add_even (x : K) {m : ℤ} (hm : Even m) : roundEven (x + m) = roundEven x + m := by
  unfold roundEven
  rw [Int.fract_add_intCast, Int.floor_add_intCast]
  have heven : Even (⌊x⌋ + m) ↔ Even ⌊x⌋ := by
    rw [Int.even_add]
    exact ⟨fun h => h.mpr hm, fun h => iff_of_true h hm⟩
  rw [if_congr heven rfl rfl, add_right_comm]
  split
  · rfl
  · split
    · rfl
    · split
      · rfl
      · rfl

/-- A quotient with its remainder rounds up above a half, and from an odd integer at one. -/
theorem roundEven_div {X Y rest : K} {q : ℤ} (hY : 0 < Y) (hX : X = q * Y + rest) (hrest : 0 ≤ rest)
    (hlt : rest < Y) :
    roundEven (X / Y) = if Y < 2 * rest ∨ 2 * rest = Y ∧ ¬ Even q then q + 1 else q := by
  have hquot : X / Y = q + rest / Y := by
    rw [hX, add_div, mul_div_cancel_right₀ _ hY.ne']
  have hnonneg : 0 ≤ rest / Y := div_nonneg hrest hY.le
  have hone : rest / Y < 1 := (div_lt_one hY).mpr hlt
  have hfloor : ⌊X / Y⌋ = q := by
    rw [hquot, Int.floor_intCast_add, Int.floor_eq_zero_iff.mpr ⟨hnonneg, hone⟩, add_zero]
  have hfract : Int.fract (X / Y) = rest / Y := by
    rw [hquot, Int.fract_intCast_add, Int.fract_eq_self.mpr ⟨hnonneg, hone⟩]
  have hbelow : 2 * (rest / Y) < 1 ↔ 2 * rest < Y := by rw [← mul_div_assoc, div_lt_one hY]
  have habove : 1 < 2 * (rest / Y) ↔ Y < 2 * rest := by rw [← mul_div_assoc, one_lt_div hY]
  unfold roundEven
  rw [hfloor, hfract, if_congr hbelow rfl rfl, if_congr habove rfl rfl]
  rcases lt_trichotomy (2 * rest) Y with h | h | h
  · rw [if_pos h, if_neg]
    rintro (hgt | ⟨heq, -⟩)
    · exact hgt.not_gt h
    · exact h.ne heq
  · rw [if_neg h.not_lt, if_neg h.not_gt]
    by_cases heven : Even q
    · rw [if_pos heven, if_neg]
      rintro (hgt | ⟨-, hodd⟩)
      · exact hgt.ne' h
      · exact hodd heven
    · rw [if_neg heven, if_pos (Or.inr ⟨h, heven⟩)]
  · rw [if_neg h.not_gt, if_pos h, if_pos (Or.inl h)]

/-- A signed value rounds to its magnitude's floor, incremented as the evidence says. -/
theorem round_sign_mul (h : Describes floor guard sticky x) (d : Direction) (neg : Bool) :
    d.round (sign K neg * x) =
      sign ℤ neg * ((floor + (d.increments neg guard sticky (floor % 2 = 1)).toNat : ℕ) : ℤ) := by
  have hfloor := h.floor_eq
  have hceil := h.ceil_eq
  have heven := h.roundEven_eq
  cases neg with
  | false =>
    simp only [sign, Bool.false_eq_true, if_false, one_mul]
    cases d with
    | nearest => exact heven
    | down => simpa [Direction.round, Direction.increments, Direction.awayFromZero] using hfloor
    | up => simpa [Direction.round, Direction.increments, Direction.awayFromZero] using hceil
    | zero => simpa [Direction.round, Direction.increments, Direction.awayFromZero, h.nonneg] using hfloor
  | true =>
    simp only [sign, if_true, neg_mul, one_mul]
    cases d with
    | nearest => 
      show roundEven (-x) = _
      rw [roundEven_neg, heven]
      rfl
    | down => simp [Direction.round, Direction.increments, Direction.awayFromZero, Int.floor_neg, hceil]
    | up => simp [Direction.round, Direction.increments, Direction.awayFromZero, Int.ceil_neg, hfloor]
    | zero =>
      have hround : (if 0 ≤ -x then ⌊-x⌋ else ⌈-x⌉) = -⌊x⌋ := by
        split
        next hz =>
          rw [le_antisymm (neg_nonneg.mp hz) h.nonneg, neg_zero, Int.floor_zero, neg_zero]
        next => exact Int.ceil_neg
      simp only [Direction.round, hround, hfloor, Direction.increments, Direction.awayFromZero, Bool.and_false,
        Bool.toNat_false, Nat.add_zero]

end Relocade.Rounding
