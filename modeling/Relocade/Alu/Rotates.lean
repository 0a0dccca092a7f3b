import Relocade.Alu.Shifts

/-!
# `Alu.Rotates` — rotates, alone and through the carry

A rotate through the carry turns a ring of one more bit inside a wider carrier, by a count reduced modulo the ring. Both
kinds are runs of one-bit steps, and change CF and OF only.
-/

namespace Relocade.Alu

open Flags Words

/-! ## The operations -/

inductive RotateDirection where
  | left | right
  deriving DecidableEq, Repr

/-- A masked count is below 32: two subtractions reduce it modulo a narrow ring. -/
def reduceCarryCount (count : BitVec 32) (ringWidth : Nat) : BitVec 32 :=
  [2 * ringWidth, ringWidth].foldl
    (fun count multiple =>
      if multiple < 32 then
        if (BitVec.ofNat 32 multiple).ule count then count - BitVec.ofNat 32 multiple else count
      else count)
    count

namespace RotateDirection

variable {N : Type} (direction : RotateDirection) (naming : Naming N) (names : Names N) (width : Width)

/-- The overflow of a single step. -/
def overflow {w : Nat} (result : BitVec w) (carry : Bool) : Bool :=
  match direction with
  | left => bit result (w - 1) ^^ carry
  | right => bit result (w - 1) ^^ bit result (w - 2)

/-- OF is undefined above a count of one, and zero by policy. -/
def flags (result : BitVec width.bits) (carry : Bool) (count : BitVec 32) : FlagChange N :=
  let overflow := direction.overflow result carry && count = 1
  .partialChange [(.status .cf, ⟨names.flag .cf, carry⟩), (.status .of, ⟨names.flag .of, overflow⟩)]

/-- A rotation; the flags change unless the count is zero. -/
def rotate (input : BitVec width.bits) (count : BitVec 32) : AluResult N width.bits :=
  let result :=
    match direction with
    | left => input.rotateLeft count.toNat
    | right => input.rotateRight count.toNat
  let carry :=
    match direction with
    | left => bit result 0
    | right => bit result (width.bits - 1)
  { result
    flags := (direction.flags names width result carry count).when naming ⟨names.condition, count ≠ 0⟩ }

/-- The ring is narrower than its carrier; only its own bits are observed. -/
def rotateRing {c : Nat} (ring : BitVec c) (width : Nat) (count : BitVec 32) : BitVec c :=
  let wrapCount := BitVec.ofNat 32 width - count
  match direction with
  | left => shl ring count ||| shr ring wrapCount
  | right => shr ring count ||| shl ring wrapCount

/-- The operand and the carry, rotated in a carrier of `c` bits. -/
def rotateIn (c : Nat) {w : Nat} (input : BitVec w) (carry : Bool) (effective : BitVec 32) : BitVec w × Bool :=
  let ring := input.setWidth c ||| shl ((BitVec.ofBool carry).setWidth c) (BitVec.ofNat 32 w)
  let rotated := direction.rotateRing ring (w + 1) effective
  (rotated.setWidth w, bit rotated w)

def rotateThroughCarry (input : BitVec width.bits) (count : BitVec 32) (carry : Bool) : AluResult N width.bits :=
  let effective := reduceCarryCount count (width.bits + 1)
  let rotated := direction.rotateIn (if width.bits = 32 then 64 else 32) input carry effective
  let hasRotation : Bool := effective ≠ 0
  let result := if hasRotation then rotated.1 else input
  let carry := if hasRotation then rotated.2 else carry
  { result
    flags := (direction.flags names width result carry count).when naming ⟨names.condition, hasRotation⟩ }

end RotateDirection

/-! ## Steps -/

namespace RotateDirection

variable {w : Nat}

def step : RotateDirection → Carried w → Carried w
  | left => Carried.rotateLeft
  | right => Carried.rotateRight

def throughStep : RotateDirection → Carried w → Carried w
  | left => Carried.rotateLeftThrough
  | right => Carried.rotateRightThrough

end RotateDirection

/-- The flags after `n` steps of a rotate. OF tells a single step's change of sign. -/
def rotateFlags {w : Nat} (input : BitVec w) (n : Nat) (s : Carried w) (old : Flag → Bool) : Flag → Bool
  | .status .cf => s.carry
  | .status .of => n = 1 && (input.msb ^^ s.word.msb)
  | flag => old flag

/-! ## Rotates are runs of steps -/

theorem partialChange_applyTo {N : Type} (carry overflow : Val N Bool) (old : Flag → Bool) :
    (FlagChange.partialChange [(.status .cf, carry), (.status .of, overflow)]).applyTo old =
      fun flag => if flag = .status .cf then carry.value else if flag = .status .of then overflow.value else old flag := by
  funext flag
  cases flag with
  | status f => cases f <;> rfl
  | tf | df | nt | ac | id | if_ => rfl

theorem toNat_subtractOnce (count : BitVec 32) {multiple : Nat} (h : multiple < 2 ^ 32) :
    (if (BitVec.ofNat 32 multiple).ule count then count - BitVec.ofNat 32 multiple else count).toNat =
      if multiple ≤ count.toNat then count.toNat - multiple else count.toNat := by
  have hmultiple : (BitVec.ofNat 32 multiple).toNat = multiple := Nat.mod_eq_of_lt h
  rw [BitVec.ule, hmultiple]
  by_cases hle : multiple ≤ count.toNat
  · rw [decide_eq_true hle, if_pos rfl, if_pos hle, BitVec.toNat_sub_of_le, hmultiple]
    rw [BitVec.le_def, hmultiple]
    exact hle
  · rw [decide_eq_false hle, if_neg Bool.false_ne_true, if_neg hle]

theorem toNat_reduceCarryCount (width : Width) {count : BitVec 32} (hcnt : count.toNat < 32) :
    (reduceCarryCount count (width.bits + 1)).toNat = count.toNat % (width.bits + 1) := by
  have honce (count : BitVec 32) (multiple : Nat) (h : multiple < 32) := @toNat_subtractOnce count multiple (by omega)
  cases width with
  | byte =>
    have hfst := honce count 18 (by decide)
    have hsnd := honce (if (BitVec.ofNat 32 18).ule count then count - BitVec.ofNat 32 18 else count) 9 (by decide)
    refine hsnd.trans ?_
    rw [hfst]
    show _ = count.toNat % 9
    split <;> split <;> omega
  | word =>
    show (if (BitVec.ofNat 32 17).ule count then count - BitVec.ofNat 32 17 else count).toNat = count.toNat % 17
    rw [honce _ 17 (by decide)]
    split <;> omega
  | dword => exact (Nat.mod_eq_of_lt (Nat.lt_succ_of_lt hcnt)).symm

/-- A ring of `n` bits, in a carrier that holds its wrapped counts. -/
theorem rotateRing_eq (direction : RotateDirection) {n c : Nat} (hc : c = 32 ∨ c = 64) (hn : n < c) (ring : BitVec n)
    {count : BitVec 32} (hcnt : count.toNat < n) :
    (direction.rotateRing (ring.setWidth c) n count).setWidth n =
      match direction with
      | .left => ring.rotateLeft count.toNat
      | .right => ring.rotateRight count.toNat := by
  have hcar : carrierBits c = c := by
    rcases hc with rfl | rfl
    · rfl
    · rfl
  have hwrap : (BitVec.ofNat 32 n - count).toNat = n - count.toNat := by
    rw [BitVec.toNat_sub, BitVec.toNat_ofNat]
    omega
  cases direction with
  | left =>
    show (shl (ring.setWidth c) count ||| shr (ring.setWidth c) (BitVec.ofNat 32 n - count)).setWidth n = _
    rw [shl, shr, hcar, hwrap, Nat.mod_eq_of_lt (by omega), Nat.mod_eq_of_lt (by omega), BitVec.setWidth_or,
      narrow_shiftLeft hn.le, narrow_ushiftRight hn.le, BitVec.rotateLeft_def, Nat.mod_eq_of_lt hcnt]
  | right =>
    show (shr (ring.setWidth c) count ||| shl (ring.setWidth c) (BitVec.ofNat 32 n - count)).setWidth n = _
    rw [shl, shr, hcar, hwrap, Nat.mod_eq_of_lt (by omega), Nat.mod_eq_of_lt (by omega), BitVec.setWidth_or,
      narrow_shiftLeft hn.le, narrow_ushiftRight hn.le, BitVec.rotateRight_def, Nat.mod_eq_of_lt hcnt]

theorem carrier_ring {w c : Nat} (hc : c = 32 ∨ c = 64) (hw : w < c) (input : BitVec w) (carry : Bool) :
    input.setWidth c ||| shl ((BitVec.ofBool carry).setWidth c) (BitVec.ofNat 32 w) =
      (BitVec.cons carry input).setWidth c := by
  have hcar : carrierBits c = c := by
    rcases hc with rfl | rfl
    · rfl
    · rfl
  have hcnt : (BitVec.ofNat 32 w).toNat % c = w := by
    rw [BitVec.toNat_ofNat, Nat.mod_eq_of_lt (show w < 2 ^ 32 by omega), Nat.mod_eq_of_lt hw]
  rw [shl, hcar, hcnt]
  ext i hi
  simp [BitVec.getLsbD_cons]
  grind

section

variable {w c : Nat} (hc : c = 32 ∨ c = 64) (hw : w + 1 < c) (input : BitVec w) (carry : Bool) {effective : BitVec 32}
  (heffective : effective.toNat < w + 1)

include hc hw heffective

/-- Rotating in a carrier runs the steps through the carry. -/
theorem rotateIn_eq (direction : RotateDirection) (hpos : 0 < w) :
    let s := direction.throughStep^[effective.toNat] ⟨carry, input⟩
    direction.rotateIn c input carry effective = (s.word, s.carry) := by
  intro s
  have hring := rotateRing_eq direction hc hw (BitVec.cons carry input) heffective
  unfold RotateDirection.rotateIn
  dsimp only
  rw [carrier_ring hc (by omega)]
  generalize direction.rotateRing ((BitVec.cons carry input).setWidth c) (w + 1) effective = rotated at *
  have hword : rotated.setWidth w = (rotated.setWidth (w + 1)).setWidth w :=
    (BitVec.setWidth_setWidth_of_le _ (Nat.le_succ w)).symm
  have hbit : bit rotated w = (rotated.setWidth (w + 1)).msb := by
    rw [bit, BitVec.getLsbD_ushiftRight, Nat.add_zero, BitVec.msb_eq_getLsbD_last, BitVec.getLsbD_setWidth,
      Nat.add_sub_cancel, decide_eq_true (Nat.lt_succ_self w), Bool.true_and]
  rw [hword, hbit, hring]
  cases direction with
  | left =>
    have hs : s = _ := Carried.rotateLeftThrough_iterate ⟨carry, input⟩ hpos effective.toNat
    rw [hs]
    rfl
  | right =>
    have hs : s = _ := Carried.rotateRightThrough_iterate ⟨carry, input⟩ hpos effective.toNat
    rw [hs]
    rfl

end

/-- The ring comes back to itself after as many steps as it has bits. -/
theorem throughStep_mod {w : Nat} (direction : RotateDirection) (hw : 0 < w) (s : Carried w) (n : Nat) :
    direction.throughStep^[n % (w + 1)] s = direction.throughStep^[n] s := by
  cases direction with
  | left =>
    show Carried.rotateLeftThrough^[n % (w + 1)] s = Carried.rotateLeftThrough^[n] s
    rw [Carried.rotateLeftThrough_iterate _ hw, Carried.rotateLeftThrough_iterate _ hw,
      BitVec.rotateLeft_mod_eq_rotateLeft]
  | right =>
    show Carried.rotateRightThrough^[n % (w + 1)] s = Carried.rotateRightThrough^[n] s
    rw [Carried.rotateRightThrough_iterate _ hw, Carried.rotateRightThrough_iterate _ hw,
      BitVec.rotateRight_mod_eq_rotateRight]

/-! ## The operations are exact -/

section

variable {N : Type} (naming : Naming N) (names : Names N) (width : Width) (direction : RotateDirection)

variable {count : BitVec 32}

theorem flags_applyTo (input : BitVec width.bits) {s : Carried width.bits}
    (hsign : count.toNat = 1 → direction.overflow s.word s.carry = (input.msb ^^ s.word.msb))
    (old : Flag → Bool) :
    (direction.flags names width s.word s.carry count).applyTo old = rotateFlags input count.toNat s old := by
  have hone : decide (count = 1) = decide (count.toNat = 1) := decide_eq_decide.mpr (count_eq_iff count 1 (by decide))
  refine (partialChange_applyTo _ _ old).trans (funext fun flag => ?_)
  cases flag with
  | status f =>
    cases f with
    | of =>
      refine (congrArg (_ && ·) hone).trans ?_
      rw [Bool.and_comm]
      by_cases h : count.toNat = 1
      · exact congrArg (decide (count.toNat = 1) && ·) (hsign h)
      · rw [decide_eq_false h, Bool.false_and, rotateFlags, decide_eq_false h, Bool.false_and]
    | cf | pf | af | zf | sf => rfl
  | tf | df | nt | ac | id | if_ => rfl

/-- A right rotate puts the sign in the second place. -/
theorem second_bit {w : Nat} (hw : 2 ≤ w) (input : BitVec w) (b : Bool) :
    bit (input >>> 1 ||| (BitVec.ofBool b).setWidth w <<< (w - 1)) (w - 2) = input.msb := by
  have hidx : 1 + (w - 2) = w - 1 := by omega
  rw [bit, BitVec.getLsbD_ushiftRight, Nat.add_zero, BitVec.getLsbD_or, BitVec.getLsbD_ushiftRight, hidx,
    BitVec.getLsbD_shiftLeft, decide_eq_true (show w - 2 < w - 1 by omega), Bool.not_true, Bool.and_false, Bool.false_and,
    Bool.or_false, BitVec.msb_eq_getLsbD_last]

theorem through_sign (input : BitVec width.bits) (carry : Bool) {n : Nat} (hn : n = 1) :
    let s := direction.throughStep^[n] ⟨carry, input⟩
    direction.overflow s.word s.carry = (input.msb ^^ s.word.msb) := by
  have hw := eight_le_bits width
  subst hn
  cases direction with
  | left => exact (congrArg (· ^^ _) (bit_msb _)).trans (Bool.xor_comm _ _)
  | right => exact (congrArg₂ (· ^^ ·) (bit_msb _) (second_bit (by omega) input _)).trans (Bool.xor_comm _ _)

/-- A single rotate is one through the bit that it moves. -/
theorem rotate_sign (input : BitVec width.bits) (carry : Bool) {n : Nat} (hn : n = 1) :
    let s := direction.step^[n] ⟨carry, input⟩
    direction.overflow s.word s.carry = (input.msb ^^ s.word.msb) := by
  subst hn
  cases direction with
  | left => exact through_sign (n := 1) width .left input input.msb rfl
  | right => exact through_sign (n := 1) width .right input (input.getLsbD 0) rfl

/-- A guarded change of a rotate. -/
theorem guarded_computes (input : BitVec width.bits) {res : BitVec width.bits} {carry guard : Bool}
    {s : Carried width.bits} (hres : res = s.word) (hcarry : guard = true → carry = s.carry)
    (hsign : count.toNat = 1 → direction.overflow s.word s.carry = (input.msb ^^ s.word.msb)) (old : Flag → Bool) :
    (AluResult.mk res
      ((direction.flags names width res carry count).when naming ⟨names.condition, guard⟩)).Computes old s.word
      (if guard then rotateFlags input count.toNat s old else old) := by
  subst hres
  refine ⟨rfl, (when_applyTo rfl _ _ old).trans ?_⟩
  cases guard with
  | false => rfl
  | true =>
    rw [hcarry rfl]
    exact flags_applyTo names width direction input hsign old

theorem rotate_computes (input : BitVec width.bits) (count : BitVec 32) (old : Flag → Bool) :
    let s := direction.step^[count.toNat] ⟨old (.status .cf), input⟩
    (direction.rotate naming names width input count).Computes old s.word
      (if count.toNat ≠ 0 then rotateFlags input count.toNat s old else old) := by
  intro s
  have hw := width.bits_pos
  have hz : count ≠ 0 ↔ count.toNat ≠ 0 := not_congr (count_eq_iff count 0 (by decide))
  have hguard : (if count.toNat ≠ 0 then rotateFlags input count.toNat s old else old) =
      if decide (count ≠ 0) = true then rotateFlags input count.toNat s old else old :=
    if_congr (hz.symm.trans decide_eq_true_iff.symm) rfl rfl
  rw [hguard]
  cases direction with
  | left =>
    have hs : s = _ := Carried.rotateLeft_iterate hw _ input count.toNat
    refine guarded_computes naming names width .left input (congrArg Carried.word hs).symm (fun hpos => ?_)
      (rotate_sign width .left input _) old
    rw [hs, if_neg (hz.mp (of_decide_eq_true hpos)), bit, BitVec.ushiftRight_zero]
  | right =>
    have hs : s = _ := Carried.rotateRight_iterate hw _ input count.toNat
    refine guarded_computes naming names width .right input (congrArg Carried.word hs).symm (fun hpos => ?_)
      (rotate_sign width .right input _) old
    rw [hs, if_neg (hz.mp (of_decide_eq_true hpos)), bit_msb]

theorem rotateThroughCarry_computes (input : BitVec width.bits) (hcnt : count.toNat < 32)
    (old : Flag → Bool) :
    let s := direction.throughStep^[count.toNat] ⟨old (.status .cf), input⟩
    (direction.rotateThroughCarry naming names width input count (old (.status .cf))).Computes old s.word
      (if count.toNat % (width.bits + 1) ≠ 0 then rotateFlags input count.toNat s old else old) := by
  intro s
  have hw := width.bits_pos
  have hreduced := toNat_reduceCarryCount width hcnt
  have hmod : s = _ := (throughStep_mod direction hw ⟨old (.status .cf), input⟩ count.toNat).symm
  have hrotated : direction.rotateIn (if width.bits = 32 then 64 else 32) input (old (.status .cf))
      (reduceCarryCount count (width.bits + 1)) = (s.word, s.carry) := by
    rw [hmod, ← hreduced]
    refine rotateIn_eq ?_ ?_ input (old (.status .cf)) ?_ direction hw
    · cases width <;> decide
    · cases width <;> decide
    · rw [hreduced]
      exact Nat.mod_lt _ (Nat.succ_pos _)
  have hz : reduceCarryCount count (width.bits + 1) ≠ 0 ↔ count.toNat % (width.bits + 1) ≠ 0 := by
    rw [← hreduced]
    exact not_congr (count_eq_iff _ 0 (by decide))
  have hguard : (if count.toNat % (width.bits + 1) ≠ 0 then rotateFlags input count.toNat s old else old) =
      if decide (reduceCarryCount count (width.bits + 1) ≠ 0) = true then rotateFlags input count.toNat s old else old :=
    if_congr (hz.symm.trans decide_eq_true_iff.symm) rfl rfl
  rw [hguard]
  refine guarded_computes naming names width direction input ?_ (fun hpos => ?_) (through_sign width direction input _) old
  · rw [hrotated]
    split
    next => rfl
    next h =>
      have hnone : count.toNat % (width.bits + 1) = 0 := not_not.mp fun hne => h (decide_eq_true (hz.mpr hne))
      show input = s.word
      rw [hmod, hnone]
      rfl
  · rw [hrotated, if_pos hpos]

end

end Relocade.Alu
