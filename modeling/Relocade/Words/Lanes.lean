import Relocade.Words.Bits

/-!
# `Words.Lanes` — packed words

A vector is one natural number; its lanes of `w` bits are numbered from the least significant end.
`lane w i x` reads one lane, `pack w f n` assembles `n` lanes from a function, and `replace w i x v` overwrites
one. Everything is characterised by single bits, and two words of `n` lanes are equal when their lanes are.
-/

namespace Words

/-- Lane `i` of `x`, numbered from the low end. -/
def lane (w i x : Nat) : Nat := (x >>> (i * w)) % 2 ^ w

/-- The word whose lane `i` holds the low bits of `f i`, for the lanes below `n`. -/
def pack (w : Nat) (f : Nat → Nat) : Nat → Nat
  | 0 => 0
  | n + 1 => pack w f n ||| (f n % 2 ^ w) <<< (n * w)

/-- Lane-wise assembly that stops at the first undefined lane. -/
def packM (w : Nat) (f : Nat → Option Nat) : Nat → Option Nat
  | 0 => some 0
  | n + 1 => do
    let bits ← packM w f n
    let v ← f n
    return bits ||| (v % 2 ^ w) <<< (n * w)

theorem lane_lt (w i x : Nat) : lane w i x < 2 ^ w := Nat.mod_lt _ (Nat.two_pow_pos w)

theorem testBit_lane (w i x k : Nat) : (lane w i x).testBit k = (decide (k < w) && x.testBit (i * w + k)) := by
  rw [lane, Nat.testBit_mod_two_pow, Nat.testBit_shiftRight]

variable {w : Nat}

theorem testBit_pack (hw : 0 < w) (f : Nat → Nat) (n k : Nat) :
    (pack w f n).testBit k = (decide (k / w < n) && (f (k / w)).testBit (k % w)) := by
  induction n with
  | zero => simp [pack]
  | succ n ih =>
    rw [pack, Nat.testBit_or, ih, Nat.testBit_shiftLeft, Nat.testBit_mod_two_pow]
    by_cases hlt : k / w < n
    · have hk : ¬ n * w ≤ k := fun h => absurd ((Nat.le_div_iff_mul_le hw).mpr h) (Nat.not_le.mpr hlt)
      simp [hlt, hk, Nat.lt_succ_of_lt hlt]
    · by_cases heq : k / w = n
      · have hm : k - n * w = k % w := by
          rw [← heq, Nat.mul_comm, Nat.mod_eq_sub_mul_div]
        have hle : n * w ≤ k := heq ▸ Nat.div_mul_le_self k w
        simp [heq, hm, hle, Nat.mod_lt k hw]
      · have hgt : n + 1 ≤ k / w := by omega
        have hk : (n + 1) * w ≤ k := (Nat.le_div_iff_mul_le hw).mp hgt
        have hk' : ¬ k - n * w < w := by rw [Nat.succ_mul] at hk; omega
        have hn : ¬ k / w < n + 1 := by omega
        simp [hlt, hn, hk']

theorem pack_lt (f : Nat → Nat) (n : Nat) : pack w f n < 2 ^ (n * w) := by
  induction n with
  | zero => simp [pack]
  | succ n ih =>
    rw [pack, Nat.succ_mul]
    apply Nat.or_lt_two_pow
    · exact lt_two_pow_mono ih (Nat.le_add_right _ _)
    · rw [Nat.shiftLeft_eq, pow_add, Nat.mul_comm]
      exact Nat.mul_lt_mul_of_pos_left (Nat.mod_lt _ (Nat.two_pow_pos w)) (Nat.two_pow_pos _)

theorem lane_pack (hw : 0 < w) (f : Nat → Nat) {n i : Nat} (hi : i < n) : lane w i (pack w f n) = f i % 2 ^ w := by
  apply Nat.eq_of_testBit_eq
  intro k
  rw [testBit_lane, testBit_pack hw, Nat.testBit_mod_two_pow]
  by_cases hk : k < w
  · have hd : (i * w + k) / w = i := by
      rw [Nat.mul_comm, Nat.mul_add_div hw, Nat.div_eq_of_lt hk, Nat.add_zero]
    have hm : (i * w + k) % w = k := by
      rw [Nat.mul_comm, Nat.mul_add_mod, Nat.mod_eq_of_lt hk]
    simp [hk, hd, hm, hi]
  · simp [hk]

/-- A bit of a word, found through its lane. -/
theorem testBit_eq_lane (hw : 0 < w) (x k : Nat) : x.testBit k = (lane w (k / w) x).testBit (k % w) := by
  have hk : k / w * w + k % w = k := by
    rw [Nat.mul_comm]
    exact Nat.div_add_mod k w
  rw [testBit_lane, hk]
  simp [Nat.mod_lt k hw]

/-- Words of `n` lanes with equal lanes are equal. -/
theorem eq_of_lane_eq {w n x y : Nat} (hw : 0 < w) (hx : x < 2 ^ (n * w)) (hy : y < 2 ^ (n * w))
    (h : ∀ i < n, lane w i x = lane w i y) : x = y := by
  apply Nat.eq_of_testBit_eq
  intro k
  by_cases hk : k / w < n
  · rw [testBit_eq_lane hw x, testBit_eq_lane hw y, h _ hk]
  · have hge : n * w ≤ k := (Nat.le_div_iff_mul_le hw).mp (Nat.le_of_not_lt hk)
    rw [testBit_of_lt hx hge, testBit_of_lt hy hge]

/-- Packing the lanes of a word gives the word back. -/
theorem pack_lane {w n x : Nat} (hw : 0 < w) (hx : x < 2 ^ (n * w)) : pack w (lane w · x) n = x :=
  eq_of_lane_eq hw (pack_lt _ n) hx (fun i hi => by
    rw [lane_pack hw _ hi, Nat.mod_eq_of_lt (lane_lt w i x)])

theorem pack_congr {f g : Nat → Nat} {n : Nat} (h : ∀ i < n, f i % 2 ^ w = g i % 2 ^ w) :
    pack w f n = pack w g n := by
  induction n with
  | zero => rfl
  | succ n ih =>
    rw [pack, pack, ih (fun i hi => h i (Nat.lt_succ_of_lt hi)), h n (Nat.lt_succ_self n)]

theorem pack_zero {f : Nat → Nat} {n : Nat} (h : ∀ i < n, f i % 2 ^ w = 0) : pack w f n = 0 := by
  induction n with
  | zero => rfl
  | succ n ih =>
    rw [pack, ih (fun i hi => h i (Nat.lt_succ_of_lt hi)), h n (Nat.lt_succ_self n)]
    simp

/-- The low lanes of a packed word do not depend on how many lanes follow them. -/
theorem pack_mod (hw : 0 < w) (f : Nat → Nat) {m n : Nat} (h : m ≤ n) : pack w f n % 2 ^ (m * w) = pack w f m :=
  eq_of_lane_eq hw (Nat.mod_lt _ (Nat.two_pow_pos _)) (pack_lt f m) (fun i hi => by
    have hle : i * w + w ≤ m * w := by
      rw [← Nat.succ_mul]
      exact Nat.mul_le_mul_right w hi
    have hl : lane w i (pack w f n % 2 ^ (m * w)) = lane w i (pack w f n) := by
      apply Nat.eq_of_testBit_eq
      intro k
      rw [testBit_lane, testBit_lane, Nat.testBit_mod_two_pow]
      by_cases hk : k < w
      · have : i * w + k < m * w := by omega
        simp [this]
      · simp [hk]
    rw [hl, lane_pack hw f (Nat.lt_of_lt_of_le hi h), lane_pack hw f hi])

/-- Reading a lane below a truncation width ignores the truncation. -/
theorem lane_mod {w i m x : Nat} (h : i * w + w ≤ m) : lane w i (x % 2 ^ m) = lane w i x := by
  apply Nat.eq_of_testBit_eq
  intro k
  rw [testBit_lane, testBit_lane, Nat.testBit_mod_two_pow]
  by_cases hk : k < w
  · have : i * w + k < m := by omega
    simp [this]
  · simp [hk]

/-- Every lane of an all-ones word is all ones. -/
theorem lane_lowMask {w i n : Nat} (h : i * w + w ≤ n) : lane w i (lowMask n) = lowMask w := by
  apply Nat.eq_of_testBit_eq
  intro k
  rw [testBit_lane, testBit_lowMask, testBit_lowMask]
  by_cases hk : k < w
  · have : i * w + k < n := by omega
    simp [hk, this]
  · simp [hk]

/-- Lane-wise assembly is monotone in what the lanes define. -/
theorem packM_mono {f g : Nat → Option Nat} {n : Nat} (h : ∀ i < n, ∀ v, f i = some v → g i = some v)
    {r : Nat} (hr : packM w f n = some r) : packM w g n = some r := by
  induction n generalizing r with
  | zero => exact hr
  | succ n ih =>
    simp only [packM, Option.bind_eq_bind, Option.bind_eq_some_iff] at hr ⊢
    obtain ⟨b, hb, v, hv, hr⟩ := hr
    exact ⟨b, ih (fun i hi => h i (Nat.lt_succ_of_lt hi)) hb, v, h n (Nat.lt_succ_self n) v hv, hr⟩

theorem packM_lt {f : Nat → Option Nat} {n r : Nat} (hr : packM w f n = some r) : r < 2 ^ (n * w) := by
  induction n generalizing r with
  | zero => simp [packM] at hr; simp [← hr]
  | succ n ih =>
    simp only [packM, Option.bind_eq_bind, Option.bind_eq_some_iff, Option.pure_def, Option.some.injEq] at hr
    obtain ⟨b, hb, v, _, rfl⟩ := hr
    rw [Nat.succ_mul]
    apply Nat.or_lt_two_pow
    · exact lt_two_pow_mono (ih hb) (Nat.le_add_right _ _)
    · rw [Nat.shiftLeft_eq, pow_add, Nat.mul_comm]
      exact Nat.mul_lt_mul_of_pos_left (Nat.mod_lt _ (Nat.two_pow_pos w)) (Nat.two_pow_pos _)

/-! ## Overwriting one lane -/

/-- `x` with lane `i` overwritten by the low bits of `v`: the mask form in which an evaluator computes it,
    for words of at most `n` bits. -/
def replace (n w i x v : Nat) : Nat :=
  (x &&& (lowMask n ^^^ (lowMask w <<< (i * w)))) ||| (v % 2 ^ w) <<< (i * w)

theorem testBit_replace {n w i x v k : Nat} (hi : i * w + w ≤ n) :
    (replace n w i x v).testBit k =
      if i * w ≤ k ∧ k < i * w + w then v.testBit (k - i * w) else (decide (k < n) && x.testBit k) := by
  unfold replace
  rw [Nat.testBit_or, Nat.testBit_and, Nat.testBit_xor, testBit_lowMask, Nat.testBit_shiftLeft,
    Nat.testBit_shiftLeft, testBit_lowMask, Nat.testBit_mod_two_pow]
  by_cases h₁ : i * w ≤ k
  · by_cases h₂ : k < i * w + w
    · have h₃ : k - i * w < w := by omega
      have h₄ : k < n := by omega
      simp [h₁, h₂, h₃, h₄]
    · have h₃ : ¬ k - i * w < w := by omega
      simp [h₂, h₃, Bool.and_comm]
  · simp [h₁, Bool.and_comm]

variable {n w i x v : Nat}

theorem replace_lt (hi : i * w + w ≤ n) : replace n w i x v < 2 ^ n := by
  have hsh : ∀ y, y < 2 ^ w → y <<< (i * w) < 2 ^ n := by
    intro y hy
    rw [Nat.shiftLeft_eq]
    calc y * 2 ^ (i * w) < 2 ^ w * 2 ^ (i * w) := Nat.mul_lt_mul_of_pos_right hy (Nat.two_pow_pos _)
      _ = 2 ^ (i * w + w) := by rw [pow_add, Nat.mul_comm]
      _ ≤ 2 ^ n := Nat.pow_le_pow_right (by decide) hi
  apply Nat.or_lt_two_pow
  · exact Nat.and_lt_two_pow _ (Nat.xor_lt_two_pow (lowMask_lt n) (hsh _ (lowMask_lt w)))
  · exact hsh _ (Nat.mod_lt _ (Nat.two_pow_pos w))

/-- The overwritten lane reads as the new value. -/
theorem lane_replace_self (hi : i * w + w ≤ n) : lane w i (replace n w i x v) = v % 2 ^ w := by
  apply Nat.eq_of_testBit_eq
  intro k
  rw [testBit_lane, testBit_replace hi, Nat.testBit_mod_two_pow]
  by_cases hk : k < w
  · have h : i * w ≤ i * w + k ∧ i * w + k < i * w + w := by omega
    simp [hk, h]
  · simp [hk]

/-- A span that does not meet the overwritten lane reads as before. -/
theorem lane_replace_of_disjoint {n w i u j x v : Nat} (hi : i * w + w ≤ n) (hj : j * u + u ≤ n)
    (h : ¬ (j * u < i * w + w ∧ i * w < j * u + u)) :
    lane u j (replace n w i x v) = lane u j x := by
  apply Nat.eq_of_testBit_eq
  intro k
  rw [testBit_lane, testBit_lane, testBit_replace hi]
  by_cases hk : k < u
  · have hd : ¬ (i * w ≤ j * u + k ∧ j * u + k < i * w + w) := by omega
    have hn : j * u + k < n := by omega
    simp [hk, hd, hn]
  · simp [hk]

/-- Writing a lane twice keeps the second value. -/
theorem replace_replace {n w i x u v : Nat} (hi : i * w + w ≤ n) :
    replace n w i (replace n w i x u) v = replace n w i x v := by
  apply Nat.eq_of_testBit_eq
  intro k
  rw [testBit_replace hi, testBit_replace hi, testBit_replace hi]
  by_cases hk : k < n <;> by_cases h : i * w ≤ k ∧ k < i * w + w <;> simp [hk, h]

/-- Writing back the lane that is already there changes nothing. -/
theorem replace_lane_self (hi : i * w + w ≤ n) (hx : x < 2 ^ n)
    (hv : v % 2 ^ w = lane w i x) : replace n w i x v = x := by
  apply Nat.eq_of_testBit_eq
  intro k
  rw [testBit_replace hi]
  split
  next h =>
    have hk : k - i * w < w := by omega
    have hb := Nat.testBit_mod_two_pow v w (k - i * w)
    rw [hv, testBit_lane] at hb
    simpa [hk, Nat.add_sub_cancel' h.1] using hb.symm
  next h =>
    by_cases hk : k < n
    · simp [hk]
    · rw [testBit_of_lt hx (Nat.le_of_not_lt hk)]
      simp

end Words
