import Relocade.Alu.Arithmetic
import Relocade.Words.Steps

/-!
# `Alu.Shifts` — shifts and double shifts

Shifts of narrow words happen in wide carriers, whose counts wrap; the bit that decides the carry is shifted down for it.
Each is a run of one-bit steps.
-/

namespace Relocade.Alu

open Flags Words

/-! ## Shifts in a carrier -/

/-- The width that a word's shift counts wrap at. -/
def carrierBits (w : Nat) : Nat := if w ≤ 32 then 32 else 64

section

variable {w : Nat} (value : BitVec w) (count : BitVec 32)

def shl : BitVec w := value <<< (count.toNat % carrierBits w)

def shr : BitVec w := value >>> (count.toNat % carrierBits w)

def sar : BitVec w := value.sshiftRight (count.toNat % carrierBits w)

end

/-- Instructions mask their counts to five bits. -/
def maskCount (count : BitVec 8) : BitVec 32 := (count &&& 31).setWidth 32

/-! ## The operations -/

inductive ShiftOp where
  | left | rightLogical | rightArithmetic
  deriving DecidableEq, Repr

inductive DoubleShiftOp where
  | left | right
  deriving DecidableEq, Repr

section

variable {N : Type} (naming : Naming N) (names : Names N) (width : Width)

/-- A zero count changes no flag. -/
def resultWithFlags (result : BitVec width.bits) (carry overflow : Bool) (count : BitVec 32) : AluResult N width.bits :=
  let overflow := overflow && count = 1
  let flags : StatusFlag → Bool
    | .cf => carry
    | .of => overflow
    | .af => false
    | .pf => resultFlag result .pf
    | .zf => resultFlag result .zf
    | .sf => resultFlag result .sf
  { result
    flags := (FlagChange.ofSource ⟨width, .explicit flags⟩ names.flag).when naming ⟨names.condition, count ≠ 0⟩ }

/-- Undefined flags are zero. -/
def ShiftOp.apply (operation : ShiftOp) (input : BitVec width.bits) (count : BitVec 32) : AluResult N width.bits :=
  let bits := BitVec.ofNat 32 width.bits
  let result :=
    match operation with
    | left => shl input count
    | rightLogical => shr input count
    | rightArithmetic => sar input count
  let carry :=
    match operation with
    | left => (shr input (bits - count)).getLsbD 0 && count.ult bits
    | rightLogical => (shr input (count - 1)).getLsbD 0 && count.ult bits
    | rightArithmetic => (sar input (count - 1)).getLsbD 0
  let overflow :=
    match operation with
    | left => bit result (width.bits - 1) ^^ carry
    | rightLogical => bit input (width.bits - 1)
    | rightArithmetic => false
  resultWithFlags naming names width result carry overflow count

/-- Counts beyond the width give a zero result. -/
def DoubleShiftOp.apply (operation : DoubleShiftOp) (input source : BitVec width.bits) (count : BitVec 32) :
    AluResult N width.bits :=
  let bits := BitVec.ofNat 32 width.bits
  let wrapCount := bits - count
  let input32 := input.setWidth 32
  let source32 := source.setWidth 32
  let shifted :=
    match operation with
    | left => shl input32 count ||| shr source32 wrapCount
    | right => shr input32 count ||| shl source32 wrapCount
  -- a dword shift by 32 wraps to zero, and the source would contribute
  let result := if count ≠ 0 then shifted.setWidth width.bits else input
  let carry :=
    (match operation with
      | left => (shr input wrapCount).getLsbD 0
      | right => (shr input (count - 1)).getLsbD 0) &&
    count.ult (bits + 1)
  let overflow := bit input (width.bits - 1) ^^ bit result (width.bits - 1)
  resultWithFlags naming names width result carry overflow count

end

/-! ## Flags of moved words -/

section

variable {w : Nat}

/-- The flags after `n` steps of a shift. OF tells a single step's change of sign. -/
def shiftFlags (input : BitVec w) (n : Nat) (carry : Bool) (result : BitVec w) (old : Flag → Bool) : Flag → Bool :=
  if n = 0 then old
  else withStatus old (flagsOf result carry false (n = 1 && (input.msb ^^ result.msb)))

/-- One step of a shift. -/
def ShiftOp.step : ShiftOp → Carried w → Carried w
  | left => Carried.shiftLeft
  | rightLogical => Carried.shiftRight
  | rightArithmetic => Carried.sshiftRight

/-- The last bit that leaves is the carry, except where a logical shift's count reaches the width. -/
def ShiftOp.carryDefined (operation : ShiftOp) (w n : Nat) : Bool := operation = rightArithmetic || n < w

def DoubleShiftOp.step : DoubleShiftOp → Pair w → Pair w
  | left => Pair.shiftLeft
  | right => Pair.shiftRight

end

theorem toNat_maskCount (count : BitVec 8) : (maskCount count).toNat = count.toNat % 32 := by
  have hmask : (count &&& 31).toNat = count.toNat % 32 := Nat.and_two_pow_sub_one_eq_mod count.toNat 5
  rw [maskCount, BitVec.toNat_setWidth, hmask]
  omega

theorem carrierBits_width (width : Width) : carrierBits width.bits = 32 := by cases width <;> rfl

/-- A difference of small counts, as carriers wrap it. -/
theorem sub_count (k : Nat) {count : BitVec 32} (hk : k ≤ 64) (hcnt : count.toNat < 32) :
    (BitVec.ofNat 32 k - count).toNat % 32 = (k + 32 - count.toNat) % 32 := by
  rw [BitVec.toNat_sub, BitVec.toNat_ofNat]
  omega

section

variable {N : Type} (naming : Naming N) (names : Names N) (width : Width) (count : BitVec 32)

theorem count_eq_iff (k : Nat) (hk : k < 2 ^ 32) : count = BitVec.ofNat 32 k ↔ count.toNat = k := by
  rw [← BitVec.toNat_inj, BitVec.toNat_ofNat, Nat.mod_eq_of_lt hk]

theorem resultWithFlags_computes (old : Flag → Bool) (input : BitVec width.bits) {res word : BitVec width.bits}
    {carry overflow carry' : Bool} (hres : res = word) (hcarry : count.toNat ≠ 0 → carry = carry')
    (hov : count.toNat = 1 → overflow = (input.msb ^^ word.msb)) :
    (resultWithFlags naming names width res carry overflow count).Computes old word
      (shiftFlags input count.toNat carry' word old) := by
  refine ⟨hres, (when_applyTo rfl _ _ old).trans ?_⟩
  subst hres
  have hz : count = 0 ↔ count.toNat = 0 := count_eq_iff count 0 (by decide)
  have hone : count = 1 ↔ count.toNat = 1 := count_eq_iff count 1 (by decide)
  rw [ofSource_applyTo, shiftFlags]
  by_cases hcnt : count.toNat = 0
  · rw [if_pos hcnt]
    refine if_neg ?_
    rw [decide_eq_true_iff, not_not]
    exact hz.mpr hcnt
  · rw [if_neg hcnt]
    refine (if_pos ?_).trans (congrArg (withStatus old) (funext fun flag => ?_))
    · exact decide_eq_true fun h => hcnt (hz.mp h)
    cases flag with
    | cf => exact hcarry hcnt
    | pf => exact resultFlag_parity _ (eight_le_bits width)
    | af => rfl
    | zf => exact resultFlag_zero _
    | sf => exact resultFlag_sign _
    | of =>
      show (overflow && decide (count = 1)) = (decide (count.toNat = 1) && _)
      rw [decide_eq_decide.mpr hone, Bool.and_comm]
      by_cases h : count.toNat = 1
      · rw [hov h]
      · rw [decide_eq_false h, Bool.false_and, Bool.false_and]

end

/-! ## Shifts are runs of steps -/

section

variable {N : Type} (naming : Naming N) (names : Names N) (width : Width)

theorem bits_le (width : Width) : width.bits ≤ 32 := by cases width <;> decide

section

variable {width} {input : BitVec width.bits} {count : BitVec 32} (hcnt : count.toNat < 32)

include hcnt

theorem shl_eq : shl input count = input <<< count.toNat := by
  rw [shl, carrierBits_width, Nat.mod_eq_of_lt hcnt]

theorem shr_eq : shr input count = input >>> count.toNat := by
  rw [shr, carrierBits_width, Nat.mod_eq_of_lt hcnt]

theorem sar_eq : sar input count = input.sshiftRight count.toNat := by
  rw [sar, carrierBits_width, Nat.mod_eq_of_lt hcnt]

theorem toNat_sub_one (hpos : count.toNat ≠ 0) : (count - 1).toNat = count.toNat - 1 := by
  rw [BitVec.toNat_sub, show (1 : BitVec 32).toNat = 1 from rfl]
  omega

/-- The bit that a left shift moves out last. -/
theorem shr_wrap (hpos : count.toNat ≠ 0) (hle : count.toNat ≤ width.bits) :
    (shr input (BitVec.ofNat 32 width.bits - count)).getLsbD 0 = input.getLsbD (width.bits - count.toNat) := by
  have hbits := bits_le width
  rw [shr, carrierBits_width, sub_count _ (by omega) hcnt, BitVec.getLsbD_ushiftRight, Nat.add_zero]
  congr 1
  omega

end

theorem shift_computes (op : ShiftOp) (input : BitVec width.bits) {count : BitVec 32} (hcnt : count.toNat < 32)
    (old : Flag → Bool) :
    let s := op.step^[count.toNat] ⟨old (.status .cf), input⟩
    (op.apply naming names width input count).Computes old s.word
      (shiftFlags input count.toNat (op.carryDefined width.bits count.toNat && s.carry) s.word old) := by
  intro s
  have hw := eight_le_bits width
  have hw' := bits_le width
  have hult : count.ult (BitVec.ofNat 32 width.bits) = decide (count.toNat < width.bits) := by
    rw [BitVec.ult, BitVec.toNat_ofNat, Nat.mod_eq_of_lt (by omega)]
  cases op with
  | left =>
    have hs : s = _ := Carried.shiftLeft_iterate _ input count.toNat
    have hcarry (hpos : count.toNat ≠ 0) (hlt : count.toNat < width.bits) :
        (shr input (BitVec.ofNat 32 width.bits - count)).getLsbD 0 = (input <<< (count.toNat - 1)).msb := by
      rw [shr_wrap hcnt hpos hlt.le, BitVec.msb_eq_getLsbD_last, BitVec.getLsbD_shiftLeft,
        decide_eq_true (by omega), decide_eq_false (by omega), Bool.not_false, Bool.and_true, Bool.true_and]
      congr 1
      omega
    rw [hs]
    refine resultWithFlags_computes naming names width count old input (shl_eq hcnt) (fun hpos => ?_) fun hone => ?_
    · dsimp only
      rw [hult, if_neg hpos, Bool.and_comm]
      by_cases hlt : count.toNat < width.bits
      · rw [hcarry hpos hlt]
        rfl
      · rw [decide_eq_false hlt, Bool.false_and, ShiftOp.carryDefined, decide_eq_false hlt]
        rfl
    · dsimp only
      rw [bit_msb, shl_eq hcnt, hult, hcarry (by omega) (by omega), hone, decide_eq_true (by omega),
        BitVec.shiftLeft_zero, Bool.and_true, Bool.xor_comm]
  | rightLogical =>
    have hs : s = _ := Carried.shiftRight_iterate _ input count.toNat
    rw [hs]
    refine resultWithFlags_computes naming names width count old input (shr_eq hcnt) (fun hpos => ?_) fun hone => ?_
    · dsimp only
      rw [hult, if_neg hpos, Bool.and_comm, shr_eq (by rw [toNat_sub_one hcnt hpos]; omega),
        toNat_sub_one hcnt hpos]
      rfl
    · dsimp only
      rw [bit_msb, hone, BitVec.msb_ushiftRight, decide_eq_true Nat.one_pos, Bool.not_true, Bool.false_and, Bool.xor_false]
  | rightArithmetic =>
    have hs : s = _ := Carried.sshiftRight_iterate _ input count.toNat
    rw [hs]
    refine resultWithFlags_computes naming names width count old input (sar_eq hcnt) (fun hpos => ?_) fun hone => ?_
    · dsimp only
      rw [if_neg hpos, sar_eq (by rw [toNat_sub_one hcnt hpos]; omega), toNat_sub_one hcnt hpos]
      rfl
    · dsimp only
      rw [BitVec.msb_sshiftRight, Bool.xor_self]

/-! ## Double shifts -/

/-- A carrier's bits below a word's width come back to it. -/
theorem narrow_shiftLeft {w c : Nat} (hc : w ≤ c) (value : BitVec w) (n : Nat) :
    (value.setWidth c <<< n).setWidth w = value <<< n := by
  rw [BitVec.setWidth_shiftLeft_of_le hc, BitVec.setWidth_setWidth_of_le _ hc, BitVec.setWidth_eq]

theorem narrow_ushiftRight {w c : Nat} (hc : w ≤ c) (value : BitVec w) (n : Nat) :
    (value.setWidth c >>> n).setWidth w = value >>> n := by
  rw [← BitVec.setWidth_ushiftRight hc, BitVec.setWidth_setWidth_of_le _ hc, BitVec.setWidth_eq]

section

variable {width} {count : BitVec 32} (hcnt : count.toNat < 32) (hpos : count.toNat ≠ 0)

include hcnt hpos

theorem doubleLeft_eq (input source : BitVec width.bits) :
    (shl (input.setWidth 32) count ||| shr (source.setWidth 32) (BitVec.ofNat 32 width.bits - count)).setWidth width.bits =
      if count.toNat ≤ width.bits then input <<< count.toNat ||| source >>> (width.bits - count.toNat) else 0 := by
  have hw := bits_le width
  rw [shl, shr, show carrierBits 32 = 32 from rfl, sub_count width.bits (by omega) hcnt, Nat.mod_eq_of_lt hcnt,
    BitVec.setWidth_or, narrow_shiftLeft hw, narrow_ushiftRight hw]
  split
  next hle => rw [show (width.bits + 32 - count.toNat) % 32 = width.bits - count.toNat by omega]
  next hgt =>
    rw [BitVec.shiftLeft_eq_zero (by omega), BitVec.ushiftRight_eq_zero (by omega)]
    exact BitVec.or_self

theorem doubleRight_eq (input source : BitVec width.bits) :
    (shr (input.setWidth 32) count ||| shl (source.setWidth 32) (BitVec.ofNat 32 width.bits - count)).setWidth width.bits =
      if count.toNat ≤ width.bits then input >>> count.toNat ||| source <<< (width.bits - count.toNat) else 0 := by
  have hw := bits_le width
  rw [shl, shr, show carrierBits 32 = 32 from rfl, sub_count width.bits (by omega) hcnt, Nat.mod_eq_of_lt hcnt,
    BitVec.setWidth_or, narrow_shiftLeft hw, narrow_ushiftRight hw]
  split
  next hle => rw [show (width.bits + 32 - count.toNat) % 32 = width.bits - count.toNat by omega]
  next hgt =>
    rw [BitVec.ushiftRight_eq_zero (by omega), BitVec.shiftLeft_eq_zero (by omega)]
    exact BitVec.or_self

end

/-- Up to its width a double shift is a run of steps; beyond, it leaves nothing. -/
theorem doubleShift_computes (op : DoubleShiftOp) (input source : BitVec width.bits) {count : BitVec 32}
    (hcnt : count.toNat < 32) (old : Flag → Bool) :
    let s := op.step^[count.toNat] ⟨old (.status .cf), input, source⟩
    let fits : Bool := count.toNat ≤ width.bits
    let word := if fits then s.word else 0
    (op.apply naming names width input source count).Computes old word
      (shiftFlags input count.toNat (fits && s.carry) word old) := by
  intro s fits word
  have hw := eight_le_bits width
  have hw' := bits_le width
  have hz : count = 0 ↔ count.toNat = 0 := count_eq_iff count 0 (by decide)
  have hult : count.ult (BitVec.ofNat 32 width.bits + 1) = fits := by
    rw [BitVec.ult, BitVec.toNat_add, BitVec.toNat_ofNat, show (1 : BitVec 32).toNat = 1 from rfl]
    exact decide_eq_decide.mpr (by omega)
  have hnone (h : count.toNat = 0) : word = input := by
    have hs : s = ⟨old (.status .cf), input, source⟩ := by
      show op.step^[count.toNat] _ = _
      rw [h]
      rfl
    show (if fits then s.word else 0) = input
    rw [hs, show fits = true from decide_eq_true (by omega), if_pos rfl]
  have hword {moved : BitVec width.bits} (hmoved : count.toNat ≠ 0 → moved = word) :
      (if count ≠ 0 then moved else input) = word := by
    by_cases h : count.toNat = 0
    · rw [hnone h]
      exact if_neg (not_not.mpr (hz.mpr h))
    · rw [← hmoved h]
      exact if_pos fun hcount0 => h (hz.mp hcount0)
  have hfit {moved : BitVec width.bits} (hmoved : count.toNat ≤ width.bits → s.word = moved) :
      (if count.toNat ≤ width.bits then moved else 0) = word := by
    show _ = if decide (count.toNat ≤ width.bits) = true then s.word else 0
    split
    next hle => rw [decide_eq_true hle, if_pos rfl, hmoved hle]
    next hgt => rw [decide_eq_false hgt, if_neg Bool.false_ne_true]
  cases op with
  | left =>
    have hs (hle : count.toNat ≤ width.bits) : s = _ := Pair.shiftLeft_iterate _ input source hle
    have hres := hword fun hpos =>
      (doubleLeft_eq hcnt hpos input source).trans (hfit fun hle => congrArg _ (hs hle))
    refine resultWithFlags_computes naming names width count old input hres (fun hpos => ?_) fun hone => ?_
    · dsimp only
      rw [hult, Bool.and_comm]
      cases hfits : fits with
      | false => rfl
      | true =>
        have hle : count.toNat ≤ width.bits := of_decide_eq_true hfits
        rw [shr_wrap hcnt hpos hle, hs hle, if_neg hpos]
    · refine (congrArg₂ (· ^^ ·) (bit_msb _) ?_)
      exact (congrArg (bit · (width.bits - 1)) hres).trans (bit_msb _)
  | right =>
    have hs (hle : count.toNat ≤ width.bits) : s = _ := Pair.shiftRight_iterate _ input source hle
    have hres := hword fun hpos =>
      (doubleRight_eq hcnt hpos input source).trans (hfit fun hle => congrArg _ (hs hle))
    refine resultWithFlags_computes naming names width count old input hres (fun hpos => ?_) fun hone => ?_
    · dsimp only
      rw [hult, Bool.and_comm]
      cases hfits : fits with
      | false => rfl
      | true =>
        have hle : count.toNat ≤ width.bits := of_decide_eq_true hfits
        rw [shr_eq (by rw [toNat_sub_one hcnt hpos]; omega), toNat_sub_one hcnt hpos, hs hle, if_neg hpos,
          BitVec.getLsbD_ushiftRight, Nat.add_zero]
    · refine (congrArg₂ (· ^^ ·) (bit_msb _) ?_)
      exact (congrArg (bit · (width.bits - 1)) hres).trans (bit_msb _)

end

end Relocade.Alu
