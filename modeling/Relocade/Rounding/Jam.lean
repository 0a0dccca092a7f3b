import Relocade.Rounding.Direction

/-!
# `Rounding.Jam` — lost bits kept in the last one

An integer stands for a real value if it is the value, or is odd with the value strictly within one of it. Such an
integer keeps every rounding decision at least two bits above its last one (`Jams.describes`), and adding or
subtracting an even integer keeps it so.
-/

namespace Relocade.Rounding

variable {K : Type*} [Field K] [LinearOrder K] [IsStrictOrderedRing K] [FloorRing K]

/-- An integer that is a value, or is odd and strictly within one of it. -/
def Jams (m : ℕ) (x : K) : Prop := x = m ∨ (m % 2 = 1 ∧ (m : K) - 1 < x ∧ x < m + 1)

variable {m : ℕ} {x : K}

omit [IsStrictOrderedRing K] [FloorRing K] in
theorem Jams.of_eq (h : x = m) : Jams m x := Or.inl h

/-- Setting the last bit. -/
theorem or_one_of_odd {n : ℕ} (h : n % 2 = 1) : n ||| 1 = n := by
  have hor := @Nat.shiftLeft_add_eq_or_of_lt 1 1 (by decide) (n / 2)
  have hn : (n / 2) <<< 1 + 1 = n := by
    rw [Nat.shiftLeft_eq]
    omega
  rw [hn] at hor
  rw [hor, Nat.or_assoc, Nat.or_self]

theorem or_one_of_even {n : ℕ} (h : ¬ n % 2 = 1) : n ||| 1 = n + 1 := by
  have hor := @Nat.shiftLeft_add_eq_or_of_lt 1 1 (by decide) (n / 2)
  have hn : (n / 2) <<< 1 = n := by
    rw [Nat.shiftLeft_eq]
    omega
  rw [hn] at hor
  exact hor.symm

omit [FloorRing K] in
/-- A truncated quotient with its last bit set when it is inexact. -/
theorem jams_div (n : ℕ) {d : ℕ} (hd : 0 < d) : Jams (n / d ||| (decide (n % d ≠ 0)).toNat) ((n : K) / d) := by
  have hdK : (0 : K) < d := by exact_mod_cast hd
  have hlt : n % d < d := Nat.mod_lt n hd
  have hsplit : (n : K) = d * (n / d : ℕ) + (n % d : ℕ) := by exact_mod_cast (Nat.div_add_mod n d).symm
  by_cases hrem : n % d = 0
  · left
    rw [decide_eq_false (not_not_intro hrem), Bool.toNat_false, Nat.or_zero, div_eq_iff hdK.ne', hsplit, hrem,
      Nat.cast_zero, add_zero, mul_comm]
  · right
    rw [decide_eq_true hrem, Bool.toNat_true]
    have hremK : (0 : K) < (n % d : ℕ) := by exact_mod_cast Nat.pos_of_ne_zero hrem
    have hltK : ((n % d : ℕ) : K) < d := by exact_mod_cast hlt
    have hlow : ((n / d : ℕ) : K) < n / d := by
      rw [lt_div_iff₀ hdK, hsplit]
      linarith
    have hhi : (n : K) / d < (n / d : ℕ) + 1 := by
      rw [div_lt_iff₀ hdK, hsplit]
      linarith
    by_cases hodd : (n / d) % 2 = 1
    · rw [or_one_of_odd hodd]
      exact ⟨hodd, by linarith, hhi⟩
    · rw [or_one_of_even hodd]
      push_cast
      exact ⟨by omega, by linarith, by linarith⟩

omit [FloorRing K] in
theorem Jams.add_even (h : Jams m x) {l : ℕ} (hl : l % 2 = 0) : Jams (l + m) (l + x) := by
  rcases h with rfl | ⟨hodd, hlow, hhi⟩
  · exact Or.inl (by push_cast; rfl)
  · refine Or.inr ⟨by omega, ?_, ?_⟩
    · push_cast
      linarith
    · push_cast
      linarith

omit [FloorRing K] in
theorem Jams.sub_even (h : Jams m x) {l : ℕ} (hl : l % 2 = 0) (hle : m ≤ l) : Jams (l - m) (l - x) := by
  rcases h with rfl | ⟨hodd, hlow, hhi⟩
  · exact Or.inl (by rw [Nat.cast_sub hle])
  · refine Or.inr ⟨by omega, ?_, ?_⟩
    · rw [Nat.cast_sub hle]
      linarith
    · rw [Nat.cast_sub hle]
      linarith

omit [IsStrictOrderedRing K] in
/-- The evidence of a value with a known floor. -/
theorem describes_fract (h : ⌊x⌋ = m) :
    Describes m (decide (1 ≤ 2 * Int.fract x)) (decide (Int.fract x ≠ 0 ∧ 2 * Int.fract x ≠ 1)) x where
  floor_eq := h
  guard_iff := decide_eq_true_iff
  sticky_iff := decide_eq_true_iff

/-- What stands for a value in its last bit gives the value's evidence two bits above it. -/
theorem Jams.describes (h : Jams m x) {k : ℕ} (hk : 1 ≤ k) :
    Describes (m / 2 ^ (k + 1)) (m.testBit k) (decide (m % 2 ^ k ≠ 0)) (x / 2 ^ (k + 1)) := by
  rcases h with rfl | ⟨hodd, hlow, hhi⟩
  · have hdiv := (Describes.exact (K := K) m).div_pow k
    rwa [Bool.false_or, Bool.false_or] at hdiv
  · -- half the value lies strictly between the integers around half of an odd number
    obtain ⟨j, rfl⟩ : ∃ j, k = j + 1 := ⟨k - 1, by omega⟩
    have hm : (m : K) = 2 * (m / 2 : ℕ) + 1 := by exact_mod_cast (show m = 2 * (m / 2) + 1 by omega)
    have hfloor : ⌊x / 2⌋ = (m / 2 : ℕ) := by
      rw [Int.floor_eq_iff, Int.cast_natCast]
      constructor <;> linarith
    have hfract : Int.fract (x / 2) ≠ 0 := by
      rw [Int.fract, hfloor, Int.cast_natCast]
      intro hz
      linarith
    have hhalf := describes_fract hfloor
    have hinex := hhalf.inexact_iff.mpr hfract
    rw [Bool.or_comm] at hinex
    have hdiv := hhalf.div_pow j
    rw [hinex, Bool.true_or, div_div, ← pow_succ'] at hdiv
    have hquot : m / 2 ^ (j + 1 + 1) = m / 2 / 2 ^ (j + 1) := by rw [Nat.div_div_eq_div_mul, ← Nat.pow_succ']
    have hbit : m.testBit (j + 1) = (m / 2).testBit j := Nat.testBit_add_one m j
    have hsticky : decide (m % 2 ^ (j + 1) ≠ 0) = true := by
      refine decide_eq_true fun hz => ?_
      have hdvd : 2 ∣ m := (Dvd.intro_left (2 ^ j) rfl).trans (Nat.dvd_of_mod_eq_zero hz)
      omega
    rw [hquot, hbit, hsticky]
    exact hdiv

end Relocade.Rounding
