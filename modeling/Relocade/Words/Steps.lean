import Mathlib.Logic.Function.Iterate

/-!
# `Words.Steps` — shifts and rotates one bit at a time

A word with the carry beside it moves by one bit at a time, and the bit that leaves the word is the new carry. Any number
of such steps is one shift or rotate of the word; with the carry in the ring, it is a rotate of one more bit.
-/

namespace Words

variable {w : Nat}

/-- A word with the carry beside it. -/
@[ext]
structure Carried (w : Nat) where
  carry : Bool
  word : BitVec w
  deriving DecidableEq, Repr

namespace Carried

/-! ## Steps -/

def shiftLeft (s : Carried w) : Carried w := ⟨s.word.msb, s.word <<< 1⟩

def shiftRight (s : Carried w) : Carried w := ⟨s.word.getLsbD 0, s.word >>> 1⟩

def sshiftRight (s : Carried w) : Carried w := ⟨s.word.getLsbD 0, s.word.sshiftRight 1⟩

def rotateLeft (s : Carried w) : Carried w := ⟨s.word.msb, s.word <<< 1 ||| (BitVec.ofBool s.word.msb).setWidth w⟩

def rotateRight (s : Carried w) : Carried w :=
  ⟨s.word.getLsbD 0, s.word >>> 1 ||| (BitVec.ofBool (s.word.getLsbD 0)).setWidth w <<< (w - 1)⟩

def rotateLeftThrough (s : Carried w) : Carried w := ⟨s.word.msb, s.word <<< 1 ||| (BitVec.ofBool s.carry).setWidth w⟩

def rotateRightThrough (s : Carried w) : Carried w :=
  ⟨s.word.getLsbD 0, s.word >>> 1 ||| (BitVec.ofBool s.carry).setWidth w <<< (w - 1)⟩

/-! ## Runs -/

/-- A step that only reads the word: the carry of a run is what left the word last. -/
theorem iterate_eq {f : Carried w → Carried w} {o : BitVec w → Bool} {r : Nat → BitVec w}
    (hstep : ∀ carry n, f ⟨carry, r n⟩ = ⟨o (r n), r (n + 1)⟩) (carry : Bool) (n : Nat) :
    f^[n] ⟨carry, r 0⟩ = ⟨if n = 0 then carry else o (r (n - 1)), r n⟩ := by
  induction n with
  | zero => rw [Function.iterate_zero_apply, if_pos rfl]
  | succ n ih =>
    rw [Function.iterate_succ_apply', ih, hstep, if_neg (Nat.succ_ne_zero n)]
    rfl

theorem shiftLeft_iterate (carry : Bool) (word : BitVec w) (n : Nat) :
    shiftLeft^[n] ⟨carry, word⟩ = ⟨if n = 0 then carry else (word <<< (n - 1)).msb, word <<< n⟩ := by
  have hrun := iterate_eq (f := shiftLeft) (r := fun n => word <<< n) (o := BitVec.msb)
    (fun carry n => by rw [shiftLeft, BitVec.shiftLeft_add]) carry n
  rwa [BitVec.shiftLeft_zero] at hrun

theorem shiftRight_iterate (carry : Bool) (word : BitVec w) (n : Nat) :
    shiftRight^[n] ⟨carry, word⟩ = ⟨if n = 0 then carry else (word >>> (n - 1)).getLsbD 0, word >>> n⟩ := by
  have hrun := iterate_eq (f := shiftRight) (r := fun n => word >>> n) (o := fun word => word.getLsbD 0)
    (fun carry n => by rw [shiftRight, BitVec.shiftRight_add]) carry n
  rwa [BitVec.ushiftRight_zero] at hrun

theorem sshiftRight_iterate (carry : Bool) (word : BitVec w) (n : Nat) :
    sshiftRight^[n] ⟨carry, word⟩ =
      ⟨if n = 0 then carry else (word.sshiftRight (n - 1)).getLsbD 0, word.sshiftRight n⟩ := by
  have hrun := iterate_eq (f := sshiftRight) (r := fun n => word.sshiftRight n) (o := fun word => word.getLsbD 0)
    (fun carry n => by rw [sshiftRight, BitVec.sshiftRight_add]) carry n
  rwa [BitVec.sshiftRight_zero] at hrun

theorem succ_mod (n : Nat) {w : Nat} (hw : 0 < w) : (n + 1) % w = if n % w + 1 = w then 0 else n % w + 1 := by
  have hlt := Nat.mod_lt n hw
  rw [← Nat.mod_add_mod]
  split
  next h => rw [h, Nat.mod_self]
  next h => exact Nat.mod_eq_of_lt (by omega)

/-- Rotating by one more takes the leading bit around. -/
theorem rotateLeft_succ (word : BitVec w) (n : Nat) :
    word.rotateLeft (n + 1) = word.rotateLeft n <<< 1 ||| (BitVec.ofBool (word.rotateLeft n).msb).setWidth w := by
  apply BitVec.eq_of_getLsbD_eq
  intro i hi
  have hmod := Nat.mod_lt n (show 0 < w by omega)
  have hsucc := succ_mod n (show 0 < w by omega)
  simp [BitVec.msb_eq_getLsbD_last, hsucc]
  have hrng := word.getLsbD_of_ge
  generalize word.getLsbD = bit at *
  grind

/-- Rotating by one more takes the lowest bit around. -/
theorem rotateRight_succ (word : BitVec w) (n : Nat) :
    word.rotateRight (n + 1) =
      word.rotateRight n >>> 1 ||| (BitVec.ofBool ((word.rotateRight n).getLsbD 0)).setWidth w <<< (w - 1) := by
  apply BitVec.eq_of_getLsbD_eq
  intro i hi
  have hmod := Nat.mod_lt n (show 0 < w by omega)
  have hsucc := succ_mod n (show 0 < w by omega)
  simp [hsucc]
  grind

theorem rotateLeft_zero (word : BitVec w) : word.rotateLeft 0 = word := by
  rw [BitVec.rotateLeft_def, Nat.zero_mod, Nat.sub_zero, BitVec.shiftLeft_zero, BitVec.ushiftRight_eq_zero (Nat.le_refl w),
    BitVec.or_zero]

theorem rotateRight_zero (word : BitVec w) : word.rotateRight 0 = word := by
  rw [BitVec.rotateRight_def, Nat.zero_mod, Nat.sub_zero, BitVec.ushiftRight_zero, BitVec.shiftLeft_eq_zero (Nat.le_refl w),
    BitVec.or_zero]

/-- What leaves a rotate on one side comes in on the other. -/
theorem rotateLeft_iterate (hw : 0 < w) (carry : Bool) (word : BitVec w) (n : Nat) :
    rotateLeft^[n] ⟨carry, word⟩ =
      ⟨if n = 0 then carry else (word.rotateLeft n).getLsbD 0, word.rotateLeft n⟩ := by
  have hrun := iterate_eq (f := rotateLeft) (r := word.rotateLeft) (o := BitVec.msb)
    (fun carry n => by rw [rotateLeft, rotateLeft_succ]) carry n
  rw [rotateLeft_zero] at hrun
  cases n with
  | zero => exact hrun
  | succ n =>
    have hbit : (word.rotateLeft (n + 1)).getLsbD 0 = (word.rotateLeft n).msb := by
      rw [rotateLeft_succ]
      simp [hw]
    rw [hrun, hbit]
    rfl

theorem rotateRight_iterate (hw : 0 < w) (carry : Bool) (word : BitVec w) (n : Nat) :
    rotateRight^[n] ⟨carry, word⟩ = ⟨if n = 0 then carry else (word.rotateRight n).msb, word.rotateRight n⟩ := by
  have hrun := iterate_eq (f := rotateRight) (r := word.rotateRight) (o := fun word => word.getLsbD 0)
    (fun carry n => by rw [rotateRight, rotateRight_succ]) carry n
  rw [rotateRight_zero] at hrun
  cases n with
  | zero => exact hrun
  | succ n =>
    have hbit : (word.rotateRight (n + 1)).msb = (word.rotateRight n).getLsbD 0 := by
      rw [rotateRight_succ]
      rw [BitVec.msb_eq_getLsbD_last, BitVec.getLsbD_or, BitVec.getLsbD_ushiftRight,
        BitVec.getLsbD_of_ge (word.rotateRight n) _ (show w ≤ 1 + (w - 1) by omega), Bool.false_or]
      generalize (word.rotateRight n).getLsbD 0 = lowest
      rw [BitVec.getLsbD_shiftLeft, decide_eq_true (Nat.sub_lt hw Nat.one_pos), decide_eq_false (Nat.lt_irrefl _),
        Nat.sub_self, BitVec.getLsbD_setWidth, decide_eq_true hw, BitVec.getLsbD_ofBool]
      rfl
    rw [hrun, hbit]
    rfl

/-! ## Through the carry -/

/-- The ring of a word and its carry. -/
def ring (s : Carried w) : BitVec (w + 1) := BitVec.cons s.carry s.word

theorem eq_of_ring {s : Carried w} {bits : BitVec (w + 1)} (h : s.ring = bits) : s = ⟨bits.msb, bits.setWidth w⟩ := by
  rw [← h, ring, BitVec.msb_cons, BitVec.setWidth_cons]

theorem ring_rotateLeftThrough (s : Carried w) (hw : 0 < w) :
    s.rotateLeftThrough.ring = s.ring <<< 1 ||| (BitVec.ofBool s.ring.msb).setWidth (w + 1) := by
  apply BitVec.eq_of_getLsbD_eq
  intro i hi
  simp [ring, rotateLeftThrough, BitVec.getLsbD_cons, BitVec.msb_eq_getLsbD_last]
  grind

theorem ring_rotateRightThrough (s : Carried w) (hw : 0 < w) :
    s.rotateRightThrough.ring =
      s.ring >>> 1 ||| (BitVec.ofBool (s.ring.getLsbD 0)).setWidth (w + 1) <<< (w + 1 - 1) := by
  ext i hi
  simp [ring, rotateRightThrough, BitVec.getElem_cons, BitVec.getLsbD_cons]
  grind

theorem rotateLeftThrough_iterate (s : Carried w) (hw : 0 < w) (n : Nat) :
    rotateLeftThrough^[n] s = ⟨(s.ring.rotateLeft n).msb, (s.ring.rotateLeft n).setWidth w⟩ := by
  apply eq_of_ring
  induction n with
  | zero => exact (rotateLeft_zero s.ring).symm
  | succ n ih => rw [Function.iterate_succ_apply', ring_rotateLeftThrough _ hw, ih, ← rotateLeft_succ]

theorem rotateRightThrough_iterate (s : Carried w) (hw : 0 < w) (n : Nat) :
    rotateRightThrough^[n] s = ⟨(s.ring.rotateRight n).msb, (s.ring.rotateRight n).setWidth w⟩ := by
  apply eq_of_ring
  induction n with
  | zero => exact (rotateRight_zero s.ring).symm
  | succ n ih => rw [Function.iterate_succ_apply', ring_rotateRightThrough _ hw, ih, ← rotateRight_succ]

end Carried

/-! ## Pairs -/

/-- A word, its carry and the word that its new bits come from. -/
@[ext]
structure Pair (w : Nat) where
  carry : Bool
  word : BitVec w
  source : BitVec w
  deriving DecidableEq, Repr

namespace Pair

def shiftLeft (s : Pair w) : Pair w where
  carry := s.word.msb
  word := s.word <<< 1 ||| (BitVec.ofBool s.source.msb).setWidth w
  source := s.source <<< 1

def shiftRight (s : Pair w) : Pair w where
  carry := s.word.getLsbD 0
  word := s.word >>> 1 ||| (BitVec.ofBool (s.source.getLsbD 0)).setWidth w <<< (w - 1)
  source := s.source >>> 1

theorem shiftLeft_iterate (carry : Bool) (word source : BitVec w) {n : Nat} (hn : n ≤ w) :
    shiftLeft^[n] ⟨carry, word, source⟩ =
      ⟨if n = 0 then carry else word.getLsbD (w - n), word <<< n ||| source >>> (w - n), source <<< n⟩ := by
  induction n with
  | zero =>
    rw [Nat.sub_zero, BitVec.ushiftRight_eq_zero (Nat.le_refl w), BitVec.or_zero, BitVec.shiftLeft_zero,
      BitVec.shiftLeft_zero, if_pos rfl]
    rfl
  | succ n ih =>
    have hsrc : w - 1 - n = w - (n + 1) := by omega
    rw [Function.iterate_succ_apply', ih (by omega)]
    unfold shiftLeft
    ext i hi
    · simp [BitVec.msb_eq_getLsbD_last]
      grind
    · cases i with
      | zero =>
        simp [BitVec.msb_eq_getLsbD_last, hsrc]
        exact fun _ => ⟨by omega, by omega⟩
      | succ i =>
        have hidx : w - n + i = i + 1 + (w - (n + 1)) := by omega
        simp [hidx, Nat.add_comm i 1]
        grind
    · dsimp only
      rw [BitVec.shiftLeft_add]

theorem shiftRight_iterate (carry : Bool) (word source : BitVec w) {n : Nat} (hn : n ≤ w) :
    shiftRight^[n] ⟨carry, word, source⟩ =
      ⟨if n = 0 then carry else word.getLsbD (n - 1), word >>> n ||| source <<< (w - n), source >>> n⟩ := by
  induction n with
  | zero =>
    rw [Nat.sub_zero, BitVec.shiftLeft_eq_zero (Nat.le_refl w), BitVec.or_zero, BitVec.ushiftRight_zero,
      BitVec.ushiftRight_zero, if_pos rfl]
    rfl
  | succ n ih =>
    rw [Function.iterate_succ_apply', ih (by omega)]
    unfold shiftRight
    ext i hi
    · simp
      grind
    · clear ih
      simp
      rw [← BitVec.getLsbD_eq_getElem]
      have hrng := source.getLsbD_of_ge
      generalize source.getLsbD = bit at *
      grind
    · dsimp only
      rw [BitVec.shiftRight_add]

end Pair

end Words
