import Relocade.Words.Bits

/-!
# `Words.Signed` — two's complement readings of words

`signed w x` reads the low `w` bits of `x` as a two's complement integer and `word w i` writes an integer
back as a `w`-bit word. `FitsSigned w s x` says that the `w`-bit reading of `x` needs at most `s` bits, so
that every bit of the word from `s - 1` on repeats the sign; this is the form in which width analyses use it.
-/

namespace Words

/-- The low `w` bits of `x` as a two's complement integer. -/
def signed (w x : Nat) : Int := Int.bmod x (2 ^ w)

/-- The two's complement encoding of an integer in `w` bits. -/
def word (w : Nat) (i : Int) : Nat := (i % ((2 ^ w : Nat) : Int)).toNat

theorem cast_word (w : Nat) (i : Int) : (word w i : Int) = i % ((2 ^ w : Nat) : Int) :=
  Int.toNat_of_nonneg (Int.emod_nonneg i (by positivity))

theorem word_lt (w : Nat) (i : Int) : word w i < 2 ^ w := by
  have h := Int.emod_lt_of_pos i (show (0 : Int) < ((2 ^ w : Nat) : Int) by positivity)
  rw [← cast_word] at h
  exact_mod_cast h

@[simp] theorem word_natCast (w x : Nat) : word w (x : Int) = x % 2 ^ w := by
  unfold word
  rw [← Int.natCast_emod, Int.toNat_natCast]

variable {a b : Nat}

theorem two_pow_dvd (h : b ≤ a) : ((2 ^ b : Nat) : Int) ∣ ((2 ^ a : Nat) : Int) := by
  exact_mod_cast pow_dvd_pow 2 h

/-- Writing at a width and reducing to a narrower one is writing at the narrower one. -/
theorem word_mod (i : Int) (h : b ≤ a) : word a i % 2 ^ b = word b i := by
  have : ((word a i % 2 ^ b : Nat) : Int) = (word b i : Int) := by
    rw [Int.natCast_emod, cast_word, cast_word, Int.emod_emod_of_dvd i (two_pow_dvd h)]
  exact_mod_cast this

/-- Integers that differ by a multiple of `2 ^ w` have one encoding. -/
theorem word_congr {w : Nat} {i j : Int} (h : i % ((2 ^ w : Nat) : Int) = j % ((2 ^ w : Nat) : Int)) :
    word w i = word w j := by
  unfold word
  rw [h]

theorem signed_emod (w x : Nat) : signed w x % ((2 ^ w : Nat) : Int) = x % ((2 ^ w : Nat) : Int) :=
  Int.bmod_emod

/-- Reading a word and writing it back at a width no larger keeps the low bits. -/
theorem word_signed (x : Nat) (h : b ≤ a) : word b (signed a x) = x % 2 ^ b := by
  rw [← word_natCast]
  apply word_congr
  rw [← Int.emod_emod_of_dvd (signed a x) (two_pow_dvd h), signed_emod, Int.emod_emod_of_dvd _ (two_pow_dvd h)]

theorem bmod_congr {w : Nat} {i j : Int} (h : i % ((2 ^ w : Nat) : Int) = j % ((2 ^ w : Nat) : Int)) :
    Int.bmod i (2 ^ w) = Int.bmod j (2 ^ w) := by
  rw [← Int.emod_bmod i, ← Int.emod_bmod j, h]

/-- A narrower reading only looks at its own low bits. -/
theorem signed_mod (x : Nat) (h : b ≤ a) : signed b (x % 2 ^ a) = signed b x := by
  apply bmod_congr
  rw [Int.natCast_emod, Int.emod_emod_of_dvd _ (two_pow_dvd h)]

/-- Words with the same low bits have the same reading. -/
theorem signed_congr {w x y : Nat} (h : x % 2 ^ w = y % 2 ^ w) : signed w x = signed w y := by
  rw [← signed_mod x (Nat.le_refl w), h, signed_mod y (Nat.le_refl w)]

/-- Reading an encoding at a width no larger reduces the integer to that width. -/
theorem signed_word (i : Int) (h : b ≤ a) : signed b (word a i) = Int.bmod i (2 ^ b) := by
  apply bmod_congr
  rw [cast_word, Int.emod_emod_of_dvd _ (two_pow_dvd h)]

theorem two_mul_signed_lt (w x : Nat) : 2 * signed w x < ((2 ^ w : Nat) : Int) := by
  have h := Int.bmod_lt (x := (x : Int)) (Nat.two_pow_pos w)
  unfold signed
  omega

theorem le_two_mul_signed (w x : Nat) : -((2 ^ w : Nat) : Int) ≤ 2 * signed w x := by
  have h := Int.le_bmod (x := (x : Int)) (Nat.two_pow_pos w)
  unfold signed
  omega

/-- An integer in the range of a width is its own balanced remainder. -/
theorem bmod_of_range {w : Nat} {i : Int} (h₁ : -((2 ^ w : Nat) : Int) ≤ 2 * i)
    (h₂ : 2 * i < ((2 ^ w : Nat) : Int)) : Int.bmod i (2 ^ w) = i :=
  Int.bmod_eq_of_le_mul_two (by omega) (by omega)

/-- A word with a clear sign bit reads as itself. -/
theorem signed_of_lt {w u x : Nat} (hx : x < 2 ^ u) (h : u < w) : signed w x = x := by
  have hw : 2 * 2 ^ u ≤ 2 ^ w := by
    rw [← pow_succ']
    exact Nat.pow_le_pow_right (by decide) h
  exact bmod_of_range (by omega) (by omega)

/-! ## Words that fit a signed width -/

/-- The `w`-bit reading of `x` lies in the range of `s` bits. -/
def FitsSigned (w s x : Nat) : Prop :=
  -((2 ^ s : Nat) : Int) ≤ 2 * signed w x ∧ 2 * signed w x < ((2 ^ s : Nat) : Int)

instance (w s x : Nat) : Decidable (FitsSigned w s x) := inferInstanceAs (Decidable (_ ∧ _))

theorem fitsSigned_self (w x : Nat) : FitsSigned w w x := ⟨le_two_mul_signed w x, two_mul_signed_lt w x⟩

theorem FitsSigned.mono {w s t x : Nat} (h : FitsSigned w s x) (hst : s ≤ t) : FitsSigned w t x := by
  have hp : (2 : Nat) ^ s ≤ 2 ^ t := Nat.pow_le_pow_right (by decide) hst
  have hp' : ((2 ^ s : Nat) : Int) ≤ ((2 ^ t : Nat) : Int) := by exact_mod_cast hp
  exact ⟨by have := h.1; omega, by have := h.2; omega⟩

/-- An unsigned word needs one more bit for its nonnegative sign, up to the full width. -/
theorem fitsSigned_of_lt {w u x : Nat} (hx : x < 2 ^ u) : FitsSigned w (min (u + 1) w) x := by
  rcases Nat.lt_or_ge u w with h | h
  · have hs : signed w x = x := signed_of_lt hx h
    have hp : (2 : Nat) ^ (u + 1) = 2 * 2 ^ u := pow_succ' 2 u
    rw [Nat.min_eq_left (by omega)]
    unfold FitsSigned
    rw [hs, hp]
    omega
  · rw [Nat.min_eq_right (by omega)]
    exact fitsSigned_self w x

/-- A word that fits `s` bits has the same reading at every width between `s` and its own. -/
theorem FitsSigned.signed_eq {w s b x : Nat} (h : FitsSigned w s x) (hs : s ≤ b) (hb : b ≤ w) :
    signed b x = signed w x := by
  have hw := h.mono hs
  have : signed b x = Int.bmod (signed w x) (2 ^ b) := by
    apply bmod_congr
    rw [← Int.emod_emod_of_dvd (signed w x) (two_pow_dvd hb), signed_emod, Int.emod_emod_of_dvd _ (two_pow_dvd hb)]
  rw [this]
  exact bmod_of_range hw.1 hw.2

/-- Fitting depends on the low bits of the word only. -/
theorem fitsSigned_congr {w s x y : Nat} (h : x % 2 ^ w = y % 2 ^ w) : FitsSigned w s x ↔ FitsSigned w s y := by
  unfold FitsSigned
  rw [signed_congr h]

/-- Truncating a word that fits `s` bits to a width `b` leaves one that fits. -/
theorem FitsSigned.truncate {w s b x : Nat} (h : FitsSigned w s x) (hb : b ≤ w) : FitsSigned b (min s b) x := by
  rcases Nat.le_total s b with hs | hs
  · rw [Nat.min_eq_left hs]
    unfold FitsSigned
    rw [h.signed_eq hs hb]
    exact h
  · rw [Nat.min_eq_right hs]
    exact fitsSigned_self b x

/-- The encoding of an integer in the range of `s` bits fits `s` bits. -/
theorem fitsSigned_word {w s : Nat} {i : Int} (h₁ : -((2 ^ s : Nat) : Int) ≤ 2 * i)
    (h₂ : 2 * i < ((2 ^ s : Nat) : Int)) (hs : s ≤ w) : FitsSigned w s (word w i) := by
  have hp : (2 : Nat) ^ s ≤ 2 ^ w := Nat.pow_le_pow_right (by decide) hs
  have hp' : ((2 ^ s : Nat) : Int) ≤ ((2 ^ w : Nat) : Int) := by exact_mod_cast hp
  unfold FitsSigned
  rw [signed_word i (Nat.le_refl w), bmod_of_range (by omega) (by omega)]
  exact ⟨h₁, h₂⟩

/-- Sign extension to a width at least as large keeps the reading. -/
theorem signed_word_signed {a b x : Nat} (h : a ≤ b) : signed b (word b (signed a x)) = signed a x := by
  have hp : (2 : Nat) ^ a ≤ 2 ^ b := Nat.pow_le_pow_right (by decide) h
  have hp' : ((2 ^ a : Nat) : Int) ≤ ((2 ^ b : Nat) : Int) := by exact_mod_cast hp
  rw [signed_word _ (Nat.le_refl b)]
  have h₁ := le_two_mul_signed a x
  have h₂ := two_mul_signed_lt a x
  exact bmod_of_range (by omega) (by omega)

/-- The product of words that fit `s` and `u` bits fits `s + u` bits. -/
theorem FitsSigned.mul {w s u x y : Nat} (hx : FitsSigned w s x) (hy : FitsSigned w u y) (h : s + u ≤ w) :
    FitsSigned w (s + u) (x * y % 2 ^ w) := by
  have hprod : signed w (x * y % 2 ^ w) = Int.bmod (signed w x * signed w y) (2 ^ w) := by
    refine bmod_congr ?_
    push_cast
    rw [Int.emod_emod_of_dvd _ (dvd_refl _), Int.mul_emod, Int.mul_emod (signed w x)]
    have h₁ := signed_emod w x
    have h₂ := signed_emod w y
    push_cast at h₁ h₂
    rw [h₁, h₂]
  obtain ⟨hx₁, hx₂⟩ := hx
  obtain ⟨hy₁, hy₂⟩ := hy
  have hpow : ((2 ^ (s + u) : Nat) : Int) = ((2 ^ s : Nat) : Int) * ((2 ^ u : Nat) : Int) := by
    rw [pow_add]
    push_cast
    rfl
  have hle : ((2 ^ (s + u) : Nat) : Int) ≤ ((2 ^ w : Nat) : Int) := by
    exact_mod_cast Nat.pow_le_pow_right (by decide) h
  generalize ((2 ^ s : Nat) : Int) = p at *
  generalize ((2 ^ u : Nat) : Int) = q at *
  have hlo : -(p * q) ≤ 2 * (signed w x * signed w y) := by nlinarith
  have hhi : 2 * (signed w x * signed w y) < p * q := by nlinarith
  have hrng := bmod_of_range (w := w) (i := signed w x * signed w y) (by omega) (by omega)
  exact ⟨by rw [hprod, hrng, hpow]; exact hlo, by rw [hprod, hrng, hpow]; exact hhi⟩

/-- The upper half of a double word whose integer fits one word is its sign. -/
theorem word_shiftRight_high {i : Int} (h₁ : -2 ^ 63 ≤ i) (h₂ : i < 2 ^ 63) :
    word 128 i >>> 64 % 2 ^ 64 = word 64 (i >>> (63 : Nat)) := by
  rw [Int.shiftRight_eq_div_pow, Nat.shiftRight_eq_div_pow]
  unfold word
  rcases lt_or_ge i 0 with h | h
  · have hdiv : i / ((2 ^ 63 : Nat) : Int) = -1 := by omega
    rw [hdiv]
    omega
  · have hdiv : i / ((2 ^ 63 : Nat) : Int) = 0 := by omega
    rw [hdiv]
    omega

end Words
