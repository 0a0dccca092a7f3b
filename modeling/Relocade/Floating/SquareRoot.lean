import Mathlib.Analysis.Real.Sqrt
import Relocade.Floating.Finite
import Relocade.Floating.Native
import Relocade.Words.Wide

/-!
# `Floating.SquareRoot` — square roots to 64 bits

A native estimate of the first 53 bits is corrected by one, and eleven more bits follow one by one from an exact
two-word remainder. The root is the integer floor of the radicand's square root (`calculate_root`), and the remainder
decides its rounding.
-/

namespace Relocade.Floating

open Words

namespace SquareRoot

variable (native : Native) (significand : BitVec 64) (odd : Bool)

/-! ## The root -/

/-- The native estimate's 53 bits. -/
def seed : BitVec 64 :=
  let coefficient := (significand >>> 11 &&& fractionMask) ||| exponentField 0
  let estimate := native.sqrt (if odd then native.mul coefficient (exponentField 1) else coefficient)
  (estimate &&& fractionMask) ||| hiddenBit

/-- The radicand's leading bits: the square of a 53-bit root. -/
def scaled : Wide :=
  ⟨significand <<< if odd then 42 else 41, significand >>> if odd then 22 else 23⟩

def square (seed : BitVec 64) : Wide := Wide.mul seed seed

def nextSquare (seed : BitVec 64) : Wide := (square seed).addWord (seed <<< 1 + 1)

def previousSquare (seed : BitVec 64) : Wide := (square seed).subWord (seed <<< 1 - 1)

def down (scaled : Wide) (seed : BitVec 64) : Bool := !scaled.atLeast (square seed)

def up (scaled : Wide) (seed : BitVec 64) : Bool := scaled.atLeast (nextSquare seed)

/-- The corrected seed. -/
def prefixOf (scaled : Wide) (seed : BitVec 64) : BitVec 64 :=
  (seed - if down scaled seed then 1 else 0) + if up scaled seed then 1 else 0

/-- Its square. -/
def prefixSquare (scaled : Wide) (seed : BitVec 64) : Wide :=
  if down scaled seed then previousSquare seed else if up scaled seed then nextSquare seed else square seed

def radicand : Wide :=
  ⟨if odd then 0 else significand <<< 63, if odd then significand else significand >>> 1⟩

/-- The root's bits so far, and what remains of the radicand. -/
structure Root where
  root : BitVec 64
  remainder : Wide
  deriving DecidableEq, Repr

/-- The bit that an iteration tries. -/
def bit (remaining : Nat) : BitVec 64 := (1 : BitVec 64) <<< (remaining - 1)

/-- What taking the bit removes from the remainder. -/
def delta (remaining : Nat) (root : BitVec 64) : Wide :=
  ⟨root <<< remaining ||| bit remaining <<< (remaining - 1), root >>> (64 - remaining)⟩

/-- One more bit. -/
def iterate (remaining : Nat) (state : Root) : Root :=
  let delta := delta remaining state.root
  if state.remainder.atLeast delta then ⟨state.root ||| bit remaining, state.remainder.sub delta⟩ else state

/-- The last `remaining` bits. -/
def refine : Nat → Root → Root
  | 0, state => state
  | remaining + 1, state => refine remaining (iterate (remaining + 1) state)

/-- The product of the prefix's square and the place of its last bit. -/
def product (scaled : Wide) (seed : BitVec 64) : Wide := (prefixSquare scaled seed).shiftLeft 22

/-- The corrected prefix with the remainder. -/
def start : Root :=
  let scaled := scaled significand odd
  let seed := seed native significand odd
  ⟨prefixOf scaled seed <<< 11, (radicand significand odd).sub (product scaled seed)⟩

/-- The radicand is `significand * 2 ^ (63 + odd)`; its root is a normalized 64-bit significand. -/
def calculate : RoundingInput :=
  let result := refine 11 (start native significand odd)
  { integer := result.root
    guard := result.remainder.high ≠ 0 || result.root < result.remainder.low
    sticky := result.remainder.high ||| result.remainder.low ≠ 0 }

/-! ## The seed and its correction -/

variable {native significand odd}

theorem toNat_scaled : (scaled significand odd).toNat = significand.toNat * 2 ^ (41 + odd.toNat) := by
  cases odd with
  | false => exact Wide.toNat_shiftLeft significand (show 41 ≤ 64 by decide)
  | true => exact Wide.toNat_shiftLeft significand (show 42 ≤ 64 by decide)

theorem toNat_radicand : (radicand significand odd).toNat = significand.toNat * 2 ^ (63 + odd.toNat) := by
  cases odd with
  | false => exact Wide.toNat_shiftLeft significand (show 63 ≤ 64 by decide)
  | true =>
    show 0 + 2 ^ 64 * significand.toNat = _
    rw [Nat.zero_add, Nat.mul_comm]
    rfl

theorem seed_bounds : 2 ^ 52 ≤ (seed native significand odd).toNat ∧ (seed native significand odd).toNat < 2 ^ 53 := by
  unfold seed
  dsimp only
  rw [toNat_hidden]
  omega

variable {N : Nat} {seed root : BitVec 64} {scaled : Wide} {state : Root} {remaining : Nat}

theorem toNat_square : (square seed).toNat = seed.toNat ^ 2 := by
  rw [square, Wide.toNat_mul, Nat.pow_two]

theorem square_lt (h : seed.toNat < 2 ^ 53) : seed.toNat ^ 2 < 2 ^ 106 := by
  calc seed.toNat ^ 2 < (2 ^ 53) ^ 2 := Nat.pow_lt_pow_left h (by decide)
    _ = 2 ^ 106 := by decide

theorem toNat_nextSquare (h : seed.toNat < 2 ^ 53) : (nextSquare seed).toNat = (seed.toNat + 1) ^ 2 := by
  have hlt := square_lt h
  have hword : (seed <<< 1 + 1).toNat = 2 * seed.toNat + 1 := by
    rw [BitVec.toNat_add, BitVec.toNat_shiftLeft, Nat.shiftLeft_eq, show (1 : BitVec 64).toNat = 1 from rfl]
    omega
  rw [nextSquare, Wide.toNat_addWord, toNat_square, hword]
  · ring
  · rw [toNat_square, hword]
    omega

theorem toNat_previousSquare (h : 0 < seed.toNat) (h' : seed.toNat < 2 ^ 53) :
    (previousSquare seed).toNat = (seed.toNat - 1) ^ 2 := by
  have hword : (seed <<< 1 - 1).toNat = 2 * seed.toNat - 1 := by
    rw [BitVec.toNat_sub, BitVec.toNat_shiftLeft, Nat.shiftLeft_eq, show (1 : BitVec 64).toNat = 1 from rfl]
    omega
  obtain ⟨n, hn⟩ : ∃ n, seed.toNat = n + 1 := ⟨seed.toNat - 1, by omega⟩
  have hsplit : (n + 1) ^ 2 = n ^ 2 + (2 * n + 1) := by ring
  rw [previousSquare, Wide.toNat_subWord, toNat_square, hword, hn, hsplit, Nat.add_sub_cancel]
  · omega
  · rw [toNat_square, hword, hn, hsplit]
    omega

/-- The seed is off by one at most. -/
def Near (scaled : Wide) (seed : BitVec 64) : Prop :=
  seed.toNat ≤ Nat.sqrt scaled.toNat + 1 ∧ Nat.sqrt scaled.toNat ≤ seed.toNat + 1

/-- Comparing squares restores the floor. -/
theorem prefix_spec (hlow : 2 ^ 52 ≤ seed.toNat) (hhi : seed.toNat < 2 ^ 53) (hnear : Near scaled seed) :
    (prefixOf scaled seed).toNat = Nat.sqrt scaled.toNat ∧
      (prefixSquare scaled seed).toNat = Nat.sqrt scaled.toNat ^ 2 := by
  obtain ⟨habove, hbelow⟩ := hnear
  have hdown : down scaled seed = true ↔ Nat.sqrt scaled.toNat < seed.toNat := by
    rw [down, Bool.not_eq_true', ← Bool.not_eq_true, Wide.atLeast_iff, toNat_square, Nat.not_le, Nat.sqrt_lt']
  have hup : up scaled seed = true ↔ seed.toNat + 1 ≤ Nat.sqrt scaled.toNat := by
    rw [up, Wide.atLeast_iff, toNat_nextSquare hhi, Nat.le_sqrt']
  unfold prefixOf prefixSquare
  by_cases hd : down scaled seed = true
  · have hu : ¬ up scaled seed = true := by
      rw [hup]
      rw [hdown] at hd
      omega
    rw [if_pos hd, if_neg hu, if_pos hd, toNat_previousSquare (by omega) hhi]
    rw [hdown] at hd
    have heq : seed.toNat - 1 = Nat.sqrt scaled.toNat := by omega
    refine ⟨?_, by rw [heq]⟩
    rw [← heq, show seed - 1 + 0 = seed - 1 from BitVec.add_zero _, BitVec.toNat_sub,
      show (1 : BitVec 64).toNat = 1 from rfl]
    omega
  · rw [if_neg hd, if_neg hd, show seed - 0 = seed from BitVec.sub_zero seed]
    rw [hdown] at hd
    by_cases hu : up scaled seed = true
    · rw [if_pos hu, if_pos hu, toNat_nextSquare hhi]
      rw [hup] at hu
      have heq : seed.toNat + 1 = Nat.sqrt scaled.toNat := by omega
      refine ⟨?_, by rw [heq]⟩
      rw [← heq, BitVec.toNat_add, show (1 : BitVec 64).toNat = 1 from rfl]
      omega
    · rw [if_neg hu, if_neg hu, show seed + 0 = seed from BitVec.add_zero seed, toNat_square]
      rw [hup] at hu
      have heq : seed.toNat = Nat.sqrt scaled.toNat := by omega
      rw [heq]
      exact ⟨rfl, rfl⟩

/-! ## The remaining bits -/

/-- The root so far is exact up to its last bits. -/
structure Partial (N remaining : Nat) (state : Root) : Prop where
  dvd : 2 ^ remaining ∣ state.root.toNat
  remainder : state.root.toNat ^ 2 + state.remainder.toNat = N
  below : N < (state.root.toNat + 2 ^ remaining) ^ 2

theorem toNat_bit {k : Nat} (hk : k + 1 ≤ 11) : (bit (k + 1)).toNat = 2 ^ k := by
  rw [bit, Nat.add_sub_cancel, BitVec.toNat_shiftLeft, Nat.shiftLeft_eq, show (1 : BitVec 64).toNat = 1 from rfl,
    Nat.one_mul, Nat.mod_eq_of_lt (Nat.pow_lt_pow_right (by decide) (by omega))]

/-- Words with separate bits add up. -/
theorem or_of_dvd {a b k : Nat} (ha : 2 ^ k ∣ a) (hb : b < 2 ^ k) : a ||| b = a + b := by
  obtain ⟨c, rfl⟩ := ha
  rw [Nat.mul_comm, ← Nat.shiftLeft_eq, ← Nat.shiftLeft_add_eq_or_of_lt hb]

/-- The term that a bit adds to the square. -/
theorem toNat_delta {k : Nat} (hk : k + 1 ≤ 11) (hdvd : 2 ^ (k + 1) ∣ root.toNat) :
    (delta (k + 1) root).toNat = 2 * root.toNat * 2 ^ k + (2 ^ k) ^ 2 := by
  have hsh := Wide.toNat_shiftLeft root (show k + 1 ≤ 64 by omega)
  have hsquare : (bit (k + 1) <<< (k + 1 - 1)).toNat = (2 ^ k) ^ 2 := by
    rw [Nat.add_sub_cancel, BitVec.toNat_shiftLeft, toNat_bit hk, Nat.shiftLeft_eq, ← Nat.pow_two, Nat.mod_eq_of_lt]
    rw [← Nat.pow_mul]
    exact Nat.pow_lt_pow_right (by decide) (by omega)
  have hlow : 2 ^ (2 * k + 2) ∣ (root <<< (k + 1)).toNat := by
    rw [BitVec.toNat_shiftLeft, Nat.shiftLeft_eq]
    refine (Nat.dvd_mod_iff (Nat.pow_dvd_pow 2 (by omega))).mpr ?_
    rw [show 2 * k + 2 = (k + 1) + (k + 1) by omega, Nat.pow_add]
    exact Nat.mul_dvd_mul_right hdvd _
  have hbelow : (2 ^ k) ^ 2 < 2 ^ (2 * k + 2) := by
    rw [← Nat.pow_mul]
    exact Nat.pow_lt_pow_right (by decide) (by omega)
  unfold Wide.toNat at hsh ⊢
  dsimp only at hsh
  rw [delta, BitVec.toNat_or, hsquare, or_of_dvd hlow hbelow, Nat.add_right_comm, hsh, Nat.pow_succ]
  ring

/-- Taking a bit exactly when its square fits halves what is unknown of the root. -/
theorem Partial.iterate {k : Nat} (h : Partial N (k + 1) state) (hk : k + 1 ≤ 11) :
    Partial N k (iterate (k + 1) state) := by
  have hdelta := toNat_delta hk h.dvd
  have hroot : (state.root ||| bit (k + 1)).toNat = state.root.toNat + 2 ^ k := by
    rw [BitVec.toNat_or, toNat_bit hk]
    exact or_of_dvd h.dvd (Nat.pow_lt_pow_right (by decide) (Nat.lt_succ_self k))
  have hsquare : (state.root.toNat + 2 ^ k) ^ 2 = state.root.toNat ^ 2 + (delta (k + 1) state.root).toNat := by
    rw [hdelta]
    ring
  have hdvd : 2 ^ k ∣ state.root.toNat := (Nat.pow_dvd_pow 2 (Nat.le_succ k)).trans h.dvd
  have hrem := h.remainder
  unfold SquareRoot.iterate
  dsimp only
  split
  next htake =>
    rw [Wide.atLeast_iff] at htake
    refine ⟨?_, ?_, ?_⟩
    · dsimp only
      rw [hroot]
      exact Nat.dvd_add hdvd (Nat.dvd_refl _)
    · dsimp only
      rw [hroot, Wide.toNat_sub htake, hsquare]
      omega
    · dsimp only
      rw [hroot, Nat.add_assoc, ← Nat.two_mul, ← Nat.pow_succ']
      exact h.below
  next hleave =>
    rw [Wide.atLeast_iff] at hleave
    refine ⟨hdvd, hrem, ?_⟩
    rw [hsquare]
    omega

theorem Partial.refine (h : Partial N remaining state) (hk : remaining ≤ 11) :
    Partial N 0 (refine remaining state) := by
  induction remaining generalizing state with
  | zero => exact h
  | succ k ih => exact ih (h.iterate hk) (by omega)

/-! ## The whole root -/

/-- The remainder of the corrected prefix. -/
theorem partial_start
    (hnear : Near (SquareRoot.scaled significand odd) (SquareRoot.seed native significand odd)) :
    Partial (significand.toNat * 2 ^ (63 + odd.toNat)) 11 (start native significand odd) := by
  obtain ⟨hlow, hhi⟩ := @seed_bounds native significand odd
  obtain ⟨hhead, hsquare⟩ := prefix_spec hlow hhi hnear
  have hscaled := @toNat_scaled significand odd
  have hradicand := @toNat_radicand significand odd
  unfold start
  dsimp only
  generalize SquareRoot.scaled significand odd = scaled at *
  generalize SquareRoot.seed native significand odd = seed at *
  have hN : significand.toNat * 2 ^ (63 + odd.toNat) = scaled.toNat * 2 ^ 22 := by
    rw [hscaled, Nat.mul_assoc, ← Nat.pow_add, Nat.add_right_comm]
  have hfits : (radicand significand odd).toNat < 2 ^ 128 := Wide.toNat_lt
  rw [hN] at hradicand ⊢
  rw [hradicand] at hfits
  have hle : Nat.sqrt scaled.toNat ^ 2 * 2 ^ 22 ≤ scaled.toNat * 2 ^ 22 :=
    Nat.mul_le_mul_right _ (Nat.sqrt_le' _)
  have hproduct : (product scaled seed).toNat = Nat.sqrt scaled.toNat ^ 2 * 2 ^ 22 := by
    rw [product, Wide.toNat_shiftLeft' (by decide), hsquare]
    rw [hsquare]
    exact Nat.lt_of_le_of_lt hle hfits
  have hroot : (prefixOf scaled seed <<< 11).toNat = Nat.sqrt scaled.toNat * 2 ^ 11 := by
    have hlt : Nat.sqrt scaled.toNat < 2 ^ 53 := by
      rw [Nat.sqrt_lt']
      omega
    have hword : Nat.sqrt scaled.toNat * 2 ^ 11 < 2 ^ 53 * 2 ^ 11 := Nat.mul_lt_mul_of_pos_right hlt (by decide)
    rw [BitVec.toNat_shiftLeft, hhead, Nat.shiftLeft_eq]
    exact Nat.mod_eq_of_lt hword
  refine ⟨?_, ?_, ?_⟩
  · dsimp only
    rw [hroot]
    exact Nat.dvd_mul_left _ _
  · dsimp only
    rw [hroot, Wide.toNat_sub (by rw [hproduct, hradicand]; exact hle), hproduct, hradicand, Nat.mul_pow (Nat.sqrt scaled.toNat)]
    exact Nat.add_sub_cancel' hle
  · dsimp only
    rw [hroot, ← Nat.add_one_mul, Nat.mul_pow (Nat.sqrt scaled.toNat + 1)]
    exact Nat.mul_lt_mul_of_pos_right (Nat.lt_succ_sqrt' _) (by decide)

/-- The root and its remainder are exact. -/
theorem refine_root (hnear : Near (SquareRoot.scaled significand odd) (SquareRoot.seed native significand odd)) :
    (refine 11 (start native significand odd)).root.toNat = Nat.sqrt (significand.toNat * 2 ^ (63 + odd.toNat)) ∧
      (refine 11 (start native significand odd)).root.toNat ^ 2 +
        (refine 11 (start native significand odd)).remainder.toNat = significand.toNat * 2 ^ (63 + odd.toNat) := by
  have hres := (partial_start hnear).refine (Nat.le_refl 11)
  have hrem := hres.remainder
  have hbelow := hres.below
  refine ⟨Nat.eq_sqrt'.mpr ⟨?_, hbelow⟩, hrem⟩
  exact Nat.le.intro hrem

/-- The evidence is that of the exact root. -/
theorem calculate_evidence {N : Nat} (hN : N = significand.toNat * 2 ^ (63 + odd.toNat))
    (hnear : Near (SquareRoot.scaled significand odd) (SquareRoot.seed native significand odd)) :
    (calculate native significand odd).integer.toNat = Nat.sqrt N ∧
      ((calculate native significand odd).guard = true ↔ Nat.sqrt N ^ 2 + Nat.sqrt N < N) ∧
      ((calculate native significand odd).sticky = true ↔ Nat.sqrt N ^ 2 ≠ N) := by
  obtain ⟨hroot, hrem⟩ := refine_root hnear
  unfold calculate
  dsimp only
  rw [← hN] at hroot hrem
  generalize SquareRoot.refine 11 (start native significand odd) = state at hroot hrem ⊢
  have hword := state.root.isLt
  have hlow := state.remainder.low.isLt
  unfold Wide.toNat at hrem
  rw [← hroot]
  refine ⟨rfl, ?_, ?_⟩
  · rw [Bool.or_eq_true, decide_eq_true_iff, decide_eq_true_iff, BitVec.lt_def, ne_zero_iff_toNat]
    omega
  · rw [decide_eq_true_iff, ne_zero_iff_toNat, BitVec.toNat_or, ne_eq, Nat.or_eq_zero_iff]
    omega

/-- The first iterations of the refinement. -/
def iterations (state : Root) : Nat → Root
  | 0 => state
  | n + 1 => iterate (11 - n) (iterations state n)

theorem Partial.iterations (h : Partial N 11 state) {n : Nat} (hn : n ≤ 11) :
    Partial N (11 - n) (iterations state n) := by
  induction n with
  | zero => exact h
  | succ n ih =>
    have hstep := ih (by omega)
    rw [show 11 - n = 11 - (n + 1) + 1 by omega] at hstep
    have hnext := hstep.iterate (by omega)
    rw [show 11 - (n + 1) + 1 = 11 - n by omega] at hnext
    exact hnext

/-- Nothing overflows its two words: every square, product, remainder and trial term is the exact number. -/
structure WordsFit (native : Native) (significand : BitVec 64) (odd : Bool) : Prop where
  scaled : (SquareRoot.scaled significand odd).toNat = significand.toNat * 2 ^ (41 + odd.toNat)
  radicand : (SquareRoot.radicand significand odd).toNat = significand.toNat * 2 ^ (63 + odd.toNat)
  square : (SquareRoot.square (SquareRoot.seed native significand odd)).toNat =
    (SquareRoot.seed native significand odd).toNat ^ 2
  nextSquare : (SquareRoot.nextSquare (SquareRoot.seed native significand odd)).toNat =
    ((SquareRoot.seed native significand odd).toNat + 1) ^ 2
  previousSquare : (SquareRoot.previousSquare (SquareRoot.seed native significand odd)).toNat =
    ((SquareRoot.seed native significand odd).toNat - 1) ^ 2
  remainder : (start native significand odd).root.toNat ^ 2 + (start native significand odd).remainder.toNat =
    (SquareRoot.radicand significand odd).toNat
  iterations : ∀ n, n < 11 →
    let state := SquareRoot.iterations (start native significand odd) n
    let bit := (bit (11 - n)).toNat
    state.root.toNat ^ 2 + state.remainder.toNat = (SquareRoot.radicand significand odd).toNat ∧
      (delta (11 - n) state.root).toNat = 2 * state.root.toNat * bit + bit ^ 2

theorem wordsFit (hnear : Near (SquareRoot.scaled significand odd) (SquareRoot.seed native significand odd)) :
    WordsFit native significand odd := by
  obtain ⟨hlow, hhi⟩ := @seed_bounds native significand odd
  have hst := partial_start hnear
  refine ⟨toNat_scaled, toNat_radicand, toNat_square, toNat_nextSquare hhi, toNat_previousSquare (by omega) hhi,
    ?_, fun n hn => ?_⟩
  · rw [toNat_radicand]
    exact hst.remainder
  · have hstate := hst.iterations (Nat.le_of_lt hn)
    refine ⟨?_, ?_⟩
    · rw [toNat_radicand]
      exact hstate.remainder
    · have hdvd := hstate.dvd
      rw [show 11 - n = 11 - (n + 1) + 1 by omega] at hdvd ⊢
      rw [toNat_delta (by omega) hdvd, toNat_bit (by omega)]

/-! ## The real root -/

theorem fract_sqrt (N : Nat) : Int.fract √(N : ℝ) = √(N : ℝ) - Nat.sqrt N := by
  rw [Int.fract, Real.floor_real_sqrt_eq_nat_sqrt, Int.cast_natCast]

/-- A square root is at least half way exactly when the remainder exceeds its floor. -/
theorem half_le_fract_sqrt (N : Nat) : 1 / 2 ≤ Int.fract √(N : ℝ) ↔ Nat.sqrt N ^ 2 + Nat.sqrt N < N := by
  have hhalf : (0 : ℝ) ≤ Nat.sqrt N + 1 / 2 := by positivity
  rw [fract_sqrt, le_sub_iff_add_le', Real.le_sqrt hhalf (Nat.cast_nonneg N)]
  constructor
  · intro h
    have hlt : ((Nat.sqrt N ^ 2 + Nat.sqrt N : ℕ) : ℝ) < N := by
      push_cast
      nlinarith
    exact_mod_cast hlt
  · intro h
    have hle : ((Nat.sqrt N ^ 2 + Nat.sqrt N + 1 : ℕ) : ℝ) ≤ N := by exact_mod_cast h
    push_cast at hle
    nlinarith

theorem fract_sqrt_ne_zero (N : Nat) : Int.fract √(N : ℝ) ≠ 0 ↔ Nat.sqrt N ^ 2 ≠ N := by
  rw [fract_sqrt, sub_ne_zero, ne_eq, ne_eq, Real.sqrt_eq_iff_eq_sq (Nat.cast_nonneg N) (Nat.cast_nonneg _)]
  rw [← Nat.cast_pow, Nat.cast_inj, eq_comm]

/-- A square root is never half way. -/
theorem fract_sqrt_ne_half (N : Nat) : 2 * Int.fract √(N : ℝ) ≠ 1 := by
  intro hhalf
  have hsquare := Real.sq_sqrt (Nat.cast_nonneg (α := ℝ) N)
  rw [fract_sqrt] at hhalf
  have hroot : 2 * √(N : ℝ) = 2 * Nat.sqrt N + 1 := by linarith
  have heq : ((4 * N : ℕ) : ℝ) = ((2 * Nat.sqrt N + 1) ^ 2 : ℕ) := by
    push_cast
    nlinarith
  have hnat : 4 * N = (2 * Nat.sqrt N + 1) ^ 2 := by exact_mod_cast heq
  have hodd : (2 * Nat.sqrt N + 1) ^ 2 = 4 * (Nat.sqrt N ^ 2 + Nat.sqrt N) + 1 := by ring
  omega

end SquareRoot

/-- A positive root candidate for normalized, nonzero input. -/
def FiniteInput.squareRoot (native : Native) (input : FiniteInput) : FiniteMagnitude where
  significand := SquareRoot.calculate native input.significand (input.exponent &&& 1 ≠ 0)
  exponent := input.exponent.sshiftRight 1
  negative := false


/-- The root of a normalized significand, for either parity of the exponent: its floor, with the leading bit set, and
    evidence of the exact root, for any native estimate within one of the 53-bit floor. -/
theorem squareRoot_exact (native : Native) (input : FiniteInput) (hn : 2 ^ 63 ≤ input.significand.toNat)
    (hseed : SquareRoot.Near (SquareRoot.scaled input.significand (input.exponent &&& 1 ≠ 0))
      (SquareRoot.seed native input.significand (input.exponent &&& 1 ≠ 0))) :
    let odd : Bool := input.exponent &&& 1 ≠ 0
    let N : Nat := input.significand.toNat * 2 ^ (63 + odd.toNat)
    let result := (input.squareRoot native).significand
    (result.integer.toNat : ℤ) = ⌊√(N : ℝ)⌋ ∧ 2 ^ 63 ≤ result.integer.toNat ∧
      (result.guard = true ↔ 1 / 2 ≤ Int.fract √(N : ℝ)) ∧ (result.sticky = true ↔ Int.fract √(N : ℝ) ≠ 0) ∧
      result.Describes √(N : ℝ) ∧ SquareRoot.WordsFit native input.significand odd := by
  intro odd N result
  obtain ⟨hinteger, hguard, hsticky⟩ := SquareRoot.calculate_evidence (N := N) rfl hseed
  have hfloor : ⌊√(N : ℝ)⌋ = (result.integer.toNat : ℤ) := by
    rw [Real.floor_real_sqrt_eq_nat_sqrt, ← hinteger]
    rfl
  have hnormal : 2 ^ 63 ≤ Nat.sqrt N := by
    refine Nat.le_sqrt'.mpr ?_
    calc (2 ^ 63) ^ 2 = 2 ^ 63 * 2 ^ 63 := Nat.pow_two _
      _ ≤ input.significand.toNat * 2 ^ (63 + odd.toNat) :=
          Nat.mul_le_mul hn (Nat.pow_le_pow_right (by decide) (Nat.le_add_right _ _))
  have hguard' := hguard.trans (SquareRoot.half_le_fract_sqrt N).symm
  have hsticky' := hsticky.trans (SquareRoot.fract_sqrt_ne_zero N).symm
  refine ⟨hfloor.symm, hinteger ▸ hnormal, hguard', hsticky', ⟨hfloor, ?_, ?_⟩, SquareRoot.wordsFit hseed⟩
  · refine hguard'.trans ⟨fun h => by linarith, fun h => by linarith⟩
  · exact hsticky'.trans ⟨fun h => ⟨h, SquareRoot.fract_sqrt_ne_half N⟩, fun h => h.1⟩

/-- The root of one, from the native root of one. -/
theorem squareRoot_one :
    let native : Native := ⟨fun x _ => x, fun x _ => x, fun x _ => x, fun x _ => x, fun x => x⟩
    (native.sqrt (exponentField 0) = exponentField 0) ∧
      ((FiniteInput.squareRoot native ⟨BitVec.ofNat 64 (2 ^ 63), 0, false⟩).significand.integer.toNat : ℤ) =
        ⌊√((2 ^ 63 * 2 ^ 63 : ℕ) : ℝ)⌋ := by
  intro native
  have hroot : Nat.sqrt (2 ^ 104) = 2 ^ 52 := by
    rw [show 2 ^ 104 = (2 ^ 52) ^ 2 from by decide]
    exact Nat.sqrt_eq' (2 ^ 52)
  have hscaled : (SquareRoot.scaled (BitVec.ofNat 64 (2 ^ 63)) false).toNat = 2 ^ 104 := by decide
  have hnear : SquareRoot.Near (SquareRoot.scaled (BitVec.ofNat 64 (2 ^ 63)) false)
      (SquareRoot.seed native (BitVec.ofNat 64 (2 ^ 63)) false) := by
    rw [SquareRoot.Near, hscaled, hroot]
    decide
  exact ⟨rfl, (squareRoot_exact native ⟨BitVec.ofNat 64 (2 ^ 63), 0, false⟩ (by decide) hnear).1⟩

end Relocade.Floating
