import Mathlib.Data.Nat.ModEq
import Relocade.Compiler.Carrier

/-!
# `Compiler.Emit.Bytes` — which bytes of its operands an operation reads

Demand for bytes of a result becomes demand for bytes of the operands. Modular arithmetic needs the lower bytes of a
lane, comparisons and saturation whole lanes, and layout operations the bytes they move. Masks use physical byte
positions.
-/

namespace Relocade.Compiler.Emit

open Words
open Bool (and_eq_true)
open List (mem_cons_self mem_cons_of_mem)

/-! ## Masks -/

/-- Every byte of a carrier. -/
def allBytes : Nat := 0xFFFF

def laneBytes (width lane : Nat) : Nat := ((1 <<< width) - 1) <<< (lane * width) % 2 ^ 16

/-- The bytes of whole lanes, or of their prefixes, that the bytes of the result depend on. -/
def inputBytes (bytes width : Nat) (isPrefix : Bool) : Nat :=
  (List.range (16 / width)).foldl (fun needed lane =>
    let mask := laneBytes width lane
    let observed := bytes &&& mask
    if observed ≠ 0 then
      -- Modular arithmetic needs the lower bytes for carries and borrows.
      needed ||| if isPrefix then (0xFFFF >>> (16 - bitLength observed)) &&& mask else mask
    else needed) 0

/-- The bytes of both inputs of a shuffle that its bytes come from. -/
def shuffleBytes (bytes : Nat) (mask : ShuffleMask) : Nat × Nat :=
  (List.range 16).foldl (fun inputs byte =>
    if bytes &&& 1 <<< byte ≠ 0 then
      if mask.index byte / 16 = 0 then (inputs.1 ||| 1 <<< (mask.index byte % 16), inputs.2)
      else (inputs.1, inputs.2 ||| 1 <<< (mask.index byte % 16))
    else inputs) (0, 0)

/-- Whether modular arithmetic needs only a prefix of its lanes. Width-changing lane dependencies remain opaque. -/
def lanePrefix : LaneBinaryOp → Option Bool
  | .add | .sub | .mul => some true
  | .eq | .gtSigned | .addSatSigned | .addSatUnsigned | .subSatSigned | .subSatUnsigned => some false
  | _ => none

/-- The bytes of both inputs that bytes of the result depend on, for operations whose bytes are followed. -/
def binaryBytes (bytes : Nat) : BinaryOp → Option (Nat × Nat)
  | .bitwise _ => some (bytes, bytes)
  | .vector operator laneType =>
      (lanePrefix operator).map fun isPrefix =>
        let needed := inputBytes bytes (laneType.bits / 8) isPrefix
        (needed, needed)
  | .shuffleImmediate mask => some (shuffleBytes bytes mask)
  | _ => none

theorem testBit_allBytes (b : Nat) : allBytes.testBit b = decide (b < 16) := testBit_lowMask 16 b

theorem testBit_laneBytes (width lane b : Nat) :
    (laneBytes width lane).testBit b = true ↔ b < 16 ∧ lane * width ≤ b ∧ b < lane * width + width := by
  have hmask : (1 <<< width) - 1 = lowMask width := by rw [Nat.shiftLeft_eq, Nat.one_mul]; rfl
  rw [laneBytes, hmask, Nat.testBit_mod_two_pow, Nat.testBit_shiftLeft, testBit_lowMask]
  simp only [and_eq_true, decide_eq_true_eq]
  omega

/-- Some bit at or above a position is set exactly when the number is long enough. -/
theorem lt_bitLength_iff {x b : Nat} : b < bitLength x ↔ ∃ c, b ≤ c ∧ x.testBit c = true := by
  rw [← Nat.not_le, bitLength_le_iff]
  constructor
  · intro h
    obtain ⟨c, hc, hbit⟩ := Nat.exists_ge_and_testBit_of_ge_two_pow (Nat.not_lt.mp h)
    exact ⟨c, hc, hbit⟩
  · rintro ⟨c, hc, hbit⟩ hlt
    rw [testBit_of_lt hlt hc] at hbit
    cases hbit

theorem ne_zero_iff_testBit {x : Nat} : x ≠ 0 ↔ ∃ c, x.testBit c = true := by
  constructor
  · exact Nat.exists_testBit_of_ne_zero
  · rintro ⟨c, hc⟩ rfl
    rw [Nat.zero_testBit] at hc
    cases hc

theorem testBit_foldl_or {α : Type} {P : α → Prop} [DecidablePred P] (f : α → Nat) (l : List α) (n b : Nat) :
    (l.foldl (fun n a => if P a then n ||| f a else n) n).testBit b = true ↔
      n.testBit b = true ∨ ∃ a ∈ l, P a ∧ (f a).testBit b = true := by
  induction l generalizing n with
  | nil => simp
  | cons a l ih =>
    rw [List.foldl_cons, ih]
    by_cases ha : P a
    · rw [if_pos ha, Nat.testBit_or, Bool.or_eq_true, or_assoc, List.exists_mem_cons_iff]
      exact or_congr_right (or_congr_left (and_iff_right ha).symm)
    · rw [if_neg ha, List.exists_mem_cons_iff]
      exact or_congr_right (or_iff_right fun h => ha h.1).symm

/-- A byte is in a lane exactly when the lane is its own. -/
theorem testBit_laneBytes_iff {width : Nat} (hwidth : 0 < width) (lane b : Nat) :
    (laneBytes width lane).testBit b = true ↔ b < 16 ∧ b / width = lane := by
  rw [testBit_laneBytes, Nat.div_eq_iff hwidth]
  constructor
  · rintro ⟨hb, hle, hlt⟩
    exact ⟨hb, hle, by omega⟩
  · rintro ⟨hb, hle, hlt⟩
    exact ⟨hb, hle, by omega⟩

variable {isPrefix : Bool}

/-- A byte is needed exactly when a byte of its lane is, one not below it for a prefix. -/
theorem testBit_inputBytes {bs width : Nat} (hwidth : width ∣ 16) (b : Nat) :
    (inputBytes bs width isPrefix).testBit b = true ↔
      b < 16 ∧ ∃ c, c < 16 ∧ bs.testBit c = true ∧ c / width = b / width ∧ (isPrefix = true → b ≤ c) := by
  have hpos : 0 < width := Nat.pos_of_dvd_of_pos hwidth (by decide)
  have hobs : ∀ lane c, (bs &&& laneBytes width lane).testBit c = true ↔
      bs.testBit c = true ∧ c < 16 ∧ c / width = lane := by
    intro lane c
    rw [Nat.testBit_and, and_eq_true, testBit_laneBytes_iff hpos]
  have hlane : ∀ lane, (bs &&& laneBytes width lane ≠ 0 ∧
      (if isPrefix then (0xFFFF >>> (16 - bitLength (bs &&& laneBytes width lane))) &&& laneBytes width lane
        else laneBytes width lane).testBit b = true) ↔
      (b < 16 ∧ b / width = lane) ∧
        ∃ c, (bs.testBit c = true ∧ c < 16 ∧ c / width = lane) ∧ (isPrefix = true → b ≤ c) := by
    intro lane
    cases isPrefix with
    | false =>
      simp only [Bool.false_eq_true, if_false, false_implies, and_true, testBit_laneBytes_iff hpos]
      rw [and_comm, and_congr_right_iff]
      intro _
      rw [ne_zero_iff_testBit]
      exact exists_congr (hobs lane)
    | true =>
      have hshort : bitLength (bs &&& laneBytes width lane) ≤ 16 :=
        bitLength_le_iff.mpr (Nat.and_lt_two_pow _ (Nat.mod_lt _ (Nat.two_pow_pos 16)))
      have hones : (0xFFFF >>> (16 - bitLength (bs &&& laneBytes width lane))).testBit b = true ↔
          b < bitLength (bs &&& laneBytes width lane) := by
        have hword : Nat.testBit 0xFFFF = Nat.testBit (lowMask 16) := rfl
        rw [Nat.testBit_shiftRight, hword, testBit_lowMask, decide_eq_true_eq]
        omega
      rw [if_pos rfl, Nat.testBit_and, and_eq_true, hones, testBit_laneBytes_iff hpos, lt_bitLength_iff]
      constructor
      · rintro ⟨-, ⟨c, hle, hc⟩, hb⟩
        exact ⟨hb, c, (hobs lane c).mp hc, fun _ => hle⟩
      · rintro ⟨hb, c, hc, hle⟩
        have hc := (hobs lane c).mpr hc
        exact ⟨ne_zero_iff_testBit.mpr ⟨c, hc⟩, ⟨c, hle rfl, hc⟩, hb⟩
  have hfold : (inputBytes bs width isPrefix).testBit b = true ↔ _ := testBit_foldl_or
    (P := fun lane => bs &&& laneBytes width lane ≠ 0) (fun lane =>
      if isPrefix then (0xFFFF >>> (16 - bitLength (bs &&& laneBytes width lane))) &&& laneBytes width lane
      else laneBytes width lane) (List.range (16 / width)) 0 b
  rw [hfold, Nat.zero_testBit]
  constructor
  · rintro (h | ⟨lane, -, h⟩)
    · cases h
    · obtain ⟨⟨hb, rfl⟩, c, ⟨hc, hlt, hsame⟩, hle⟩ := (hlane lane).mp h
      exact ⟨hb, c, hlt, hc, hsame, hle⟩
  · rintro ⟨hb, c, hlt, hc, hsame, hle⟩
    refine Or.inr ⟨b / width, List.mem_range.mpr (Nat.div_lt_div_of_lt_of_dvd hwidth hb), ?_⟩
    exact (hlane (b / width)).mpr ⟨⟨hb, rfl⟩, c, ⟨hc, hlt, hsame⟩, hle⟩

theorem and_one_shiftLeft_ne_zero {x b : Nat} : x &&& 1 <<< b ≠ 0 ↔ x.testBit b = true := by
  rw [ne_zero_iff_testBit]
  simp only [Nat.testBit_and, Nat.one_shiftLeft, Nat.testBit_two_pow, and_eq_true, decide_eq_true_eq]
  constructor
  · rintro ⟨c, hc, rfl⟩
    exact hc
  · exact fun h => ⟨b, h, rfl⟩

/-- The bytes of both inputs that a shuffle reads for its bytes. -/
theorem testBit_shuffleBytes (bs : Nat) (mask : ShuffleMask) (b : Nat) :
    ((shuffleBytes bs mask).1.testBit b = true ↔
      ∃ byte < 16, bs.testBit byte = true ∧ mask.index byte / 16 = 0 ∧ mask.index byte % 16 = b) ∧
    ((shuffleBytes bs mask).2.testBit b = true ↔
      ∃ byte < 16, bs.testBit byte = true ∧ mask.index byte / 16 ≠ 0 ∧ mask.index byte % 16 = b) := by
  have hfold : ∀ (l : List Nat) (inputs : Nat × Nat),
      ((l.foldl (fun inputs byte =>
        if bs &&& 1 <<< byte ≠ 0 then
          if mask.index byte / 16 = 0 then (inputs.1 ||| 1 <<< (mask.index byte % 16), inputs.2)
          else (inputs.1, inputs.2 ||| 1 <<< (mask.index byte % 16))
        else inputs) inputs).1.testBit b = true ↔ inputs.1.testBit b = true ∨
          ∃ byte ∈ l, bs.testBit byte = true ∧ mask.index byte / 16 = 0 ∧ mask.index byte % 16 = b) ∧
      ((l.foldl (fun inputs byte =>
        if bs &&& 1 <<< byte ≠ 0 then
          if mask.index byte / 16 = 0 then (inputs.1 ||| 1 <<< (mask.index byte % 16), inputs.2)
          else (inputs.1, inputs.2 ||| 1 <<< (mask.index byte % 16))
        else inputs) inputs).2.testBit b = true ↔ inputs.2.testBit b = true ∨
          ∃ byte ∈ l, bs.testBit byte = true ∧ mask.index byte / 16 ≠ 0 ∧ mask.index byte % 16 = b) := by
    intro l
    induction l with
    | nil => simp
    | cons byte l ih =>
      intro inputs
      have hbit : ∀ n, (n ||| 1 <<< (mask.index byte % 16)).testBit b = true ↔
          n.testBit b = true ∨ mask.index byte % 16 = b := by
        intro n
        rw [Nat.testBit_or, Nat.one_shiftLeft, Nat.testBit_two_pow, Bool.or_eq_true, decide_eq_true_eq]
      simp only [List.foldl_cons, List.exists_mem_cons_iff, ih]
      by_cases hbyte : bs.testBit byte = true
      · rw [if_pos (and_one_shiftLeft_ne_zero.mpr hbyte)]
        by_cases hidx : mask.index byte / 16 = 0
        · rw [if_pos hidx]
          simp only [hbit, hbyte, hidx, true_and, or_assoc, ne_eq, not_true_eq_false, false_and, and_false,
            false_or, and_self]
        · rw [if_neg hidx]
          simp only [hbit, hbyte, hidx, true_and, or_assoc, ne_eq, not_false_eq_true, false_and, and_false,
            false_or, and_self]
      · rw [if_neg (fun h => hbyte (and_one_shiftLeft_ne_zero.mp h))]
        simp only [hbyte, false_and, false_or, Bool.false_eq_true, and_self]
  have h := hfold (List.range 16) (0, 0)
  simp only [Nat.zero_testBit, Bool.false_eq_true, false_or, List.mem_range] at h
  exact h

/-! ## Carriers that agree on bytes -/

/-- A mask inside another. -/
def Within (bytes bytes' : Nat) : Prop := ∀ b, bytes.testBit b = true → bytes'.testBit b = true

/-- Carriers that agree on bytes. -/
def Agree (bytes x y : Nat) : Prop := ∀ k, bytes.testBit (k / 8) = true → x.testBit k = y.testBit k

/-- What is known agrees on bytes. -/
def Keeps (bytes : Nat) (x y : Option Nat) : Prop := ∀ v, x = some v → ∃ v', y = some v' ∧ Agree bytes v v'

theorem Within.refl (bs : Nat) : Within bs bs := fun _ h => h

theorem Within.trans {a b c : Nat} (h : Within a b) (h' : Within b c) : Within a c := fun i hi => h' i (h i hi)

theorem Agree.refl (bs x : Nat) : Agree bs x x := fun _ _ => rfl

theorem Agree.trans {bs x y z : Nat} (h : Agree bs x y) (h' : Agree bs y z) : Agree bs x z :=
  fun k hk => (h k hk).trans (h' k hk)

theorem Agree.mono {bs bytes' x y : Nat} (h : Agree bytes' x y) (hle : Within bs bytes') : Agree bs x y :=
  fun k hk => h k (hle _ hk)

/-- Carriers that agree on every byte are equal. -/
theorem Agree.eq {x y : Nat} (h : Agree allBytes x y) (hx : x < 2 ^ 128) (hy : y < 2 ^ 128) : x = y := by
  refine Nat.eq_of_testBit_eq fun k => ?_
  by_cases hk : k < 128
  · refine h k ?_
    rw [testBit_allBytes, decide_eq_true_eq]
    omega
  · rw [testBit_of_lt hx (Nat.not_lt.mp hk), testBit_of_lt hy (Nat.not_lt.mp hk)]

theorem Keeps.refl (bs : Nat) (x : Option Nat) : Keeps bs x x := fun v hv => ⟨v, hv, Agree.refl bs v⟩

variable {bs : Nat}

theorem Keeps.trans {x y z : Option Nat} (h : Keeps bs x y) (h' : Keeps bs y z) : Keeps bs x z := by
  intro v hv
  obtain ⟨v', hv', hagree⟩ := h v hv
  obtain ⟨v'', hv'', hagree'⟩ := h' v' hv'
  exact ⟨v'', hv'', hagree.trans hagree'⟩

theorem Keeps.mono {bs bytes' : Nat} {x y : Option Nat} (h : Keeps bytes' x y) (hle : Within bs bytes') :
    Keeps bs x y := by
  intro v hv
  obtain ⟨v', hv', hagree⟩ := h v hv
  exact ⟨v', hv', hagree.mono hle⟩

/-! ## Lanes that agree -/

/-- Packed lanes agree where the observed bits of their lanes do. -/
theorem agree_pack {w bs n : Nat} (hw : 0 < w) {f g : Nat → Nat}
    (h : ∀ i j, i < n → j < w → bs.testBit ((i * w + j) / 8) = true → (f i).testBit j = (g i).testBit j) :
    Agree bs (pack w f n) (pack w g n) := by
  intro k hk
  rw [testBit_pack hw, testBit_pack hw]
  by_cases hlt : k / w < n
  · rw [h (k / w) (k % w) hlt (Nat.mod_lt _ hw)]
    rw [Nat.div_add_mod']
    exact hk
  · simp only [hlt, decide_false, Bool.false_and]

variable {a : Ty}

/-- The byte of a bit of a lane is in the lane. -/
theorem byte_div_lane (ha : a.isLane = true) {i j : Nat} (hj : j < a.bits) :
    (i * a.bits + j) / 8 / (a.bits / 8) = i := by
  have hbits : 8 * (a.bits / 8) = a.bits := by cases a <;> first | rfl | cases ha
  rw [Nat.div_div_eq_div_mul, hbits]
  refine (Nat.div_eq_iff (a.bits_pos)).mpr ⟨?_, ?_⟩ <;> omega

theorem width_dvd (ha : a.isLane = true) : a.bits / 8 ∣ 16 := by
  cases a <;> first | decide | cases ha

/-- A lane with an observed byte agrees whole, where whole lanes are needed. -/
theorem lane_eq_of_agree (ha : a.isLane = true) {bs x y i j : Nat}
    (h : Agree (inputBytes bs (a.bits / 8) false) x y) (hi : i * a.bits + j < 128) (hj : j < a.bits)
    (hobs : bs.testBit ((i * a.bits + j) / 8) = true) : lane a.bits i x = lane a.bits i y := by
  refine Nat.eq_of_testBit_eq fun k => ?_
  rw [testBit_lane, testBit_lane]
  by_cases hk : k < a.bits
  · rw [h (i * a.bits + k)]
    refine (testBit_inputBytes (width_dvd ha) _).mpr ⟨?_, (i * a.bits + j) / 8, ?_, hobs, ?_, fun h => by cases h⟩
    · have hlane := byte_div_lane ha (i := i) hk
      have hlane' := byte_div_lane ha (i := i) hj
      have hlt := Nat.div_lt_div_of_lt_of_dvd (width_dvd ha) (Nat.div_lt_of_lt_mul hi : (i * a.bits + j) / 8 < 16)
      rw [hlane', ← hlane] at hlt
      have hpos : 0 < a.bits / 8 := Nat.pos_of_dvd_of_pos (width_dvd ha) (by decide)
      rw [Nat.div_lt_iff_lt_mul hpos, Nat.div_mul_cancel (width_dvd ha)] at hlt
      exact hlt
    · exact Nat.div_lt_of_lt_mul hi
    · rw [byte_div_lane ha hj, byte_div_lane ha hk]
  · simp [hk]

/-- The low bits of a lane agree up to an observed bit, where prefixes are needed. -/
theorem lane_modEq_of_agree (ha : a.isLane = true) {bs x y i j : Nat}
    (h : Agree (inputBytes bs (a.bits / 8) true) x y) (hi : i * a.bits + j < 128) (hj : j < a.bits)
    (hobs : bs.testBit ((i * a.bits + j) / 8) = true) :
    lane a.bits i x ≡ lane a.bits i y [MOD 2 ^ (j + 1)] := by
  refine Nat.eq_of_testBit_eq fun k => ?_
  rw [Nat.testBit_mod_two_pow, Nat.testBit_mod_two_pow, testBit_lane, testBit_lane]
  by_cases hk : k < j + 1
  · rw [h (i * a.bits + k)]
    have hbyte : (i * a.bits + k) / 8 ≤ (i * a.bits + j) / 8 := Nat.div_le_div_right (by omega)
    have hlast : (i * a.bits + j) / 8 < 16 := Nat.div_lt_of_lt_mul hi
    refine (testBit_inputBytes (width_dvd ha) _).mpr
      ⟨Nat.lt_of_le_of_lt hbyte hlast, (i * a.bits + j) / 8, hlast, hobs, ?_, fun _ => hbyte⟩
    rw [byte_div_lane ha hj, byte_div_lane ha (by omega : k < a.bits)]
  · simp [hk]

variable {o : LaneBinaryOp}

/-- Modular lane arithmetic needs the operands up to the bit. -/
theorem laneResult_modEq (ho : lanePrefix o = some true) (a : Ty) {n l l' r r' : Nat}
    (hr : r < 2 ^ 64) (hr' : r' < 2 ^ 64) (hleft : l ≡ l' [MOD 2 ^ n]) (hright : r ≡ r' [MOD 2 ^ n]) :
    Packed.laneResult o a l r ≡ Packed.laneResult o a l' r' [MOD 2 ^ n] := by
  cases o with
  | add => exact hleft.add hright
  | mul => exact hleft.mul hright
  | sub =>
    refine hleft.add (Nat.ModEq.add_right_cancel hright ?_)
    rw [Nat.sub_add_cancel (Nat.le_of_lt hr), Nat.sub_add_cancel (Nat.le_of_lt hr')]
  | _ => cases ho

theorem testBit_eq_of_modEq {x y j : Nat} (h : x ≡ y [MOD 2 ^ (j + 1)]) : x.testBit j = y.testBit j := by
  have hbit : ∀ z, z.testBit j = (z % 2 ^ (j + 1)).testBit j := by
    intro z
    rw [Nat.testBit_mod_two_pow, decide_eq_true (Nat.lt_succ_self j), Bool.true_and]
  rw [hbit x, hbit y, h]

variable {bs x x' y y' : Nat}

/-- Lane operations that keep their width need the lanes of their operands. -/
theorem agree_vector (ha : a.isLane = true)
    (ho : lanePrefix o = some isPrefix)
    (hleft : Agree (inputBytes bs (a.bits / 8) isPrefix) x x')
    (hright : Agree (inputBytes bs (a.bits / 8) isPrefix) y y') :
    Agree bs (Packed.binary o a x y) (Packed.binary o a x' y') := by
  have hbinary : ∀ x y, Packed.binary o a x y = pack a.bits
      (fun i => Packed.laneResult o a (lane a.bits i x) (lane a.bits i y)) (128 / a.bits) := by
    intro x y
    cases o <;> first | rfl | cases ho
  rw [hbinary, hbinary]
  refine agree_pack a.bits_pos fun i j hi hj hobs => ?_
  have hlt : i * a.bits + j < 128 := by
    have hle := Nat.mul_le_mul_right a.bits (Nat.succ_le_of_lt hi)
    rw [Ty.lanes_mul, Nat.succ_mul] at hle
    omega
  have hword : ∀ z, lane a.bits i z < 2 ^ 64 := fun z => Nat.lt_of_lt_of_le (lane_lt _ _ _)
    (Nat.pow_le_pow_right (by decide) (by cases a <;> first | decide | cases ha))
  cases isPrefix with
  | true =>
    exact testBit_eq_of_modEq (laneResult_modEq ho a (hword y) (hword y')
      (lane_modEq_of_agree ha hleft hlt hj hobs) (lane_modEq_of_agree ha hright hlt hj hobs))
  | false =>
    rw [lane_eq_of_agree ha hleft hlt hj hobs, lane_eq_of_agree ha hright hlt hj hobs]

/-- A lane shift needs whole lanes. -/
theorem agree_laneShift (o : Integer.ShiftOp) (ha : a.isLane = true) {bs x x' : Nat} (count : Nat)
    (h : Agree (inputBytes bs (a.bits / 8) false) x x') :
    Agree bs (Packed.shift o a x count) (Packed.shift o a x' count) := by
  refine agree_pack a.bits_pos fun i j hi hj hobs => ?_
  have hlt : i * a.bits + j < 128 := by
    have hle := Nat.mul_le_mul_right a.bits (Nat.succ_le_of_lt hi)
    rw [Ty.lanes_mul, Nat.succ_mul] at hle
    omega
  dsimp only
  rw [lane_eq_of_agree ha h hlt hj hobs]

/-- A shuffle needs the bytes that it routes. -/
theorem agree_shuffle (mask : ShuffleMask) (hleft : Agree (shuffleBytes bs mask).1 x x')
    (hright : Agree (shuffleBytes bs mask).2 y y') :
    Agree bs (Packed.shuffle x y mask) (Packed.shuffle x' y' mask) := by
  refine agree_pack (by decide) fun i j hi hj hobs => ?_
  have hbyte : (i * 8 + j) / 8 = i := by omega
  rw [hbyte] at hobs
  rw [Packed.routed, Packed.routed, testBit_lane, testBit_lane]
  have hsrc : (mask.index i % 16 * 8 + j) / 8 = mask.index i % 16 := by omega
  split
  · next hidx =>
      rw [hleft (mask.index i % 16 * 8 + j)]
      rw [hsrc]
      exact (testBit_shuffleBytes bs mask _).1.mpr ⟨i, hi, hobs, hidx, rfl⟩
  · next hidx =>
      rw [hright (mask.index i % 16 * 8 + j)]
      rw [hsrc]
      exact (testBit_shuffleBytes bs mask _).2.mpr ⟨i, hi, hobs, hidx, rfl⟩

/-! ## The bytes that operations read -/

/-- Bytes less those that are replaced. -/
def removeBytes (bytes removed : Nat) : Nat := bytes &&& (allBytes ^^^ removed)

/-- The bytes of an operand that bytes of the result depend on. -/
def operandBytes (ty : Ty) (e : Expression Nat) (bytes k : Nat) : Nat :=
  match e with
  | .unary (.extractLane lane) _ => laneBytes (ty.bits / 8) lane
  | .binary (.replaceLane laneType lane) _ _ =>
      if k = 0 then removeBytes bytes (laneBytes (laneType.bits / 8) lane) else allBytes
  | .binary operator _ _ =>
      match binaryBytes bytes operator with
      | some inputs => if k = 0 then inputs.1 else inputs.2
      | none => allBytes
  | .shift (.lanes _ laneType) _ _ => if k = 0 then inputBytes bytes (laneType.bits / 8) false else allBytes
  | _ => allBytes

/-- A lane operation that keeps its width reads the same bytes of both operands. -/
theorem operandBytes_vector (h : lanePrefix o = some isPrefix) (ty a : Ty)
    (i j bs k : Nat) :
    operandBytes ty (.binary (.vector o a) i j) bs k = inputBytes bs (a.bits / 8) isPrefix := by
  simp only [operandBytes, binaryBytes, h, Option.map_some, ite_self]

/-- Width-changing operations read whole operands. -/
theorem operandBytes_whole (h : lanePrefix o = none) (ty a : Ty) (i j bs k : Nat) :
    operandBytes ty (.binary (.vector o a) i j) bs k = allBytes := by
  simp only [operandBytes, binaryBytes, h, Option.map_none]

/-- What is followed is read through both operands. -/
theorem operandBytes_binary {o : BinaryOp} {inputs : Nat × Nat} (h : binaryBytes bs o = some inputs)
    (ty : Ty) (i j k : Nat) :
    operandBytes ty (.binary o i j) bs k = if k = 0 then inputs.1 else inputs.2 := by
  cases o with
  | replaceLane => cases h
  | _ => simp only [operandBytes, h]

/-- What is followed keeps the carrier. -/
theorem carrier_of_binaryBytes {o : BinaryOp} {inputs : Nat × Nat} (h : binaryBytes bs o = some inputs)
    {left right ty : Ty} (hw : o.wellTyped left right ty = true) (hty : ty.carrier = .v128) :
    left.carrier = .v128 ∧ right.carrier = .v128 := by
  cases o with
  | bitwise | vector | shuffleImmediate =>
    simp only [BinaryOp.wellTyped, and_eq_true, decide_eq_true_eq, hty] at hw
    simp only [hw, and_self]
  | _ => cases h

section Masks

variable {bs bytes' : Nat} (h : Within bs bytes')

include h

theorem inputBytes_mono {width : Nat} (hwidth : width ∣ 16) (isPrefix : Bool) :
    Within (inputBytes bs width isPrefix) (inputBytes bytes' width isPrefix) := by
  intro b hb
  obtain ⟨hlt, c, hc, hbyte, hrest⟩ := (testBit_inputBytes hwidth b).mp hb
  exact (testBit_inputBytes hwidth b).mpr ⟨hlt, c, hc, h c hbyte, hrest⟩

theorem shuffleBytes_mono (mask : ShuffleMask) : Within (shuffleBytes bs mask).1 (shuffleBytes bytes' mask).1 ∧
    Within (shuffleBytes bs mask).2 (shuffleBytes bytes' mask).2 := by
  refine ⟨fun b hb => ?_, fun b hb => ?_⟩
  · obtain ⟨i, hi, hbyte, hrest⟩ := (testBit_shuffleBytes bs mask b).1.mp hb
    exact (testBit_shuffleBytes bytes' mask b).1.mpr ⟨i, hi, h i hbyte, hrest⟩
  · obtain ⟨i, hi, hbyte, hrest⟩ := (testBit_shuffleBytes bs mask b).2.mp hb
    exact (testBit_shuffleBytes bytes' mask b).2.mpr ⟨i, hi, h i hbyte, hrest⟩

theorem removeBytes_mono (removed : Nat) : Within (removeBytes bs removed) (removeBytes bytes' removed) := by
  intro b hb
  rw [removeBytes, Nat.testBit_and, and_eq_true] at hb ⊢
  exact ⟨h b hb.1, hb.2⟩

/-- Fewer bytes of the result need no more bytes of an operand. -/
theorem operandBytes_mono {t : ValueTable} {ty : Ty} {e : Expression Nat} (hw : (e.map t.ty).wellTyped ty = true)
    (k : Nat) : Within (operandBytes ty e bs k) (operandBytes ty e bytes' k) := by
  cases e with
  | unary o i => cases o <;> exact Within.refl _
  | ternary o i j k => exact Within.refl _
  | multiplyWide s i j => exact Within.refl _
  | shift o i j =>
    cases o with
    | lanes o a =>
      simp only [Expression.map, Expression.wellTyped, ShiftOp.wellTyped, and_eq_true] at hw
      rw [operandBytes, operandBytes]
      split
      · exact inputBytes_mono h (width_dvd hw.1.1.1) false
      · exact Within.refl _
    | _ => exact Within.refl _
  | binary o i j =>
    cases o with
    | replaceLane a l =>
      rw [operandBytes, operandBytes]
      split
      · exact removeBytes_mono h _
      · exact Within.refl _
    | bitwise o =>
      simp only [operandBytes, binaryBytes, ite_self]
      exact h
    | vector o a =>
      simp only [Expression.map, Expression.wellTyped, BinaryOp.wellTyped, and_eq_true] at hw
      cases hprefix : lanePrefix o with
      | none =>
        rw [operandBytes_whole hprefix, operandBytes_whole hprefix]
        exact Within.refl _
      | some isPrefix =>
        rw [operandBytes_vector hprefix, operandBytes_vector hprefix]
        exact inputBytes_mono h (width_dvd (LaneBinaryOp.isLane_of_supports hw.1.1.1)) isPrefix
    | shuffleImmediate mask =>
      simp only [operandBytes, binaryBytes]
      split
      · exact (shuffleBytes_mono h mask).1
      · exact (shuffleBytes_mono h mask).2
    | _ => exact Within.refl _

end Masks

/-- Operands have no other bytes. -/
theorem operandBytes_within {t : ValueTable} {ty : Ty} {e : Expression Nat} (hw : (e.map t.ty).wellTyped ty = true)
    (h : Within bs allBytes) (k : Nat) : Within (operandBytes ty e bs k) allBytes := by
  have hlt : ∀ {n}, (∀ b, n.testBit b = true → b < 16) → Within n allBytes := fun h b hb => by
    rw [testBit_allBytes, decide_eq_true_eq]
    exact h b hb
  cases e with
  | unary o i =>
    cases o with
    | extractLane l => exact hlt fun b hb => ((testBit_laneBytes _ l b).mp hb).1
    | _ => exact Within.refl _
  | ternary o i j k => exact Within.refl _
  | multiplyWide s i j => exact Within.refl _
  | shift o i j =>
    cases o with
    | lanes o a =>
      simp only [Expression.map, Expression.wellTyped, ShiftOp.wellTyped, and_eq_true] at hw
      rw [operandBytes]
      split
      · exact hlt fun b hb => ((testBit_inputBytes (width_dvd hw.1.1.1) b).mp hb).1
      · exact Within.refl _
    | _ => exact Within.refl _
  | binary o i j =>
    cases o with
    | replaceLane a l =>
      rw [operandBytes]
      split
      · intro b hb
        rw [removeBytes, Nat.testBit_and, and_eq_true] at hb
        exact h b hb.1
      · exact Within.refl _
    | bitwise o =>
      simp only [operandBytes, binaryBytes, ite_self]
      exact h
    | vector o a =>
      simp only [Expression.map, Expression.wellTyped, BinaryOp.wellTyped, and_eq_true] at hw
      cases hprefix : lanePrefix o with
      | none =>
        rw [operandBytes_whole hprefix]
        exact Within.refl _
      | some isPrefix =>
        rw [operandBytes_vector hprefix]
        exact hlt fun b hb =>
          ((testBit_inputBytes (width_dvd (LaneBinaryOp.isLane_of_supports hw.1.1.1)) b).mp hb).1
    | shuffleImmediate mask =>
      simp only [operandBytes, binaryBytes]
      split
      · refine hlt fun b hb => ?_
        obtain ⟨byte, -, -, -, rfl⟩ := (testBit_shuffleBytes bs mask b).1.mp hb
        exact Nat.mod_lt _ (by decide)
      · refine hlt fun b hb => ?_
        obtain ⟨byte, -, -, -, rfl⟩ := (testBit_shuffleBytes bs mask b).2.mp hb
        exact Nat.mod_lt _ (by decide)
    | _ => exact Within.refl _

/-- Replacing a lane keeps the other bytes. -/
theorem agree_replace (ha : a.isLane = true) {l bs x : Nat} (payload : Nat) (hl : (l + 1) * a.bits ≤ 128)
    (hx : x < 2 ^ 128) (h : ∀ b, bs.testBit b = true → (laneBytes (a.bits / 8) l).testBit b = false) :
    Agree bs (replace 128 a.bits l x payload) x := by
  intro k hk
  rw [Nat.add_mul, Nat.one_mul] at hl
  rw [testBit_replace hl]
  split
  · next hlane =>
      have hbits : 8 * (a.bits / 8) = a.bits := by cases a <;> first | rfl | cases ha
      have hbyte := h _ hk
      rw [Bool.eq_false_iff, ne_eq, testBit_laneBytes] at hbyte
      refine absurd ⟨?_, ?_, ?_⟩ hbyte
      · omega
      · rw [Nat.le_div_iff_mul_le (by decide), Nat.mul_assoc, Nat.mul_comm _ 8, hbits]
        exact hlane.1
      · rw [Nat.div_lt_iff_lt_mul (by decide), Nat.add_mul, Nat.mul_assoc, Nat.mul_comm _ 8, hbits]
        exact hlane.2
  · by_cases hlt : k < 128
    · rw [decide_eq_true hlt, Bool.true_and]
    · rw [testBit_of_lt hx (Nat.not_lt.mp hlt), Bool.and_false]

/-- Replacing a lane needs the other bytes of the vector. -/
theorem agree_replaceLane (ha : a.isLane = true) {l bs x x' payload : Nat} (hl : (l + 1) * a.bits ≤ 128)
    (h : Agree (removeBytes bs (laneBytes (a.bits / 8) l)) x x') :
    Agree bs (replace 128 a.bits l x payload) (replace 128 a.bits l x' payload) := by
  intro k hk
  rw [Nat.add_mul, Nat.one_mul] at hl
  rw [testBit_replace hl, testBit_replace hl]
  split
  · rfl
  · next hlane =>
      by_cases hlt : k < 128
      · rw [h k]
        have hbits : 8 * (a.bits / 8) = a.bits := by cases a <;> first | rfl | cases ha
        rw [removeBytes, Nat.testBit_and, Nat.testBit_xor, hk, testBit_allBytes,
          decide_eq_true (Nat.div_lt_of_lt_mul hlt : k / 8 < 16), Bool.true_and, Bool.true_xor, Bool.not_eq_true',
          Bool.eq_false_iff, ne_eq, testBit_laneBytes]
        rintro ⟨-, hle, hlt'⟩
        rw [Nat.le_div_iff_mul_le (by decide), Nat.mul_assoc, Nat.mul_comm _ 8, hbits] at hle
        rw [Nat.div_lt_iff_lt_mul (by decide), Nat.add_mul, Nat.mul_assoc, Nat.mul_comm _ 8, hbits] at hlt'
        exact hlane ⟨hle, hlt'⟩
      · rw [decide_eq_false hlt, Bool.false_and, Bool.false_and]

/-- The bytes of a lane are all that its extraction reads. -/
theorem lane_eq_of_laneBytes (ha : a.isLane = true) {l x y : Nat} (hl : (l + 1) * a.bits ≤ 128)
    (h : Agree (laneBytes (a.bits / 8) l) x y) : lane a.bits l x = lane a.bits l y := by
  refine Nat.eq_of_testBit_eq fun k => ?_
  rw [testBit_lane, testBit_lane]
  by_cases hk : k < a.bits
  · rw [h (l * a.bits + k)]
    rw [Nat.add_mul, Nat.one_mul] at hl
    have hpos : 0 < a.bits / 8 := Nat.pos_of_dvd_of_pos (width_dvd ha) (by decide)
    refine (testBit_laneBytes_iff hpos l _).mpr ⟨Nat.div_lt_of_lt_mul (by omega), byte_div_lane ha hk⟩
  · simp only [hk, decide_false, Bool.false_and]

theorem agree_bitwise (o : BitwiseOp) (hleft : Agree bs x x') (hright : Agree bs y y') :
    Agree bs (o.apply x y) (o.apply x' y') := by
  intro k hk
  cases o with
  | and => rw [BitwiseOp.apply, BitwiseOp.apply, Nat.testBit_and, Nat.testBit_and, hleft k hk, hright k hk]
  | or => rw [BitwiseOp.apply, BitwiseOp.apply, Nat.testBit_or, Nat.testBit_or, hleft k hk, hright k hk]
  | xor => rw [BitwiseOp.apply, BitwiseOp.apply, Nat.testBit_xor, Nat.testBit_xor, hleft k hk, hright k hk]

/-! ## Operations on operands that agree -/

section Operands

variable {F : Floating} {t : ValueTable} {σ τ : Nat → Option Nat} {ty : Ty} {e : Expression Nat} {bs c x : Nat}

/-- Operands that an operation reads whole are equal. -/
theorem evalExpr_whole (hσ : ∀ i ∈ e.inputs, ∀ x, σ i = some x → x < 2 ^ (t.ty i).carrier.bits)
    (hτ : ∀ i ∈ e.inputs, ∀ x, τ i = some x → x < 2 ^ (t.ty i).carrier.bits)
    (h : ∀ i ∈ e.inputs, Keeps allBytes (σ i) (τ i)) (hx : evalExpr F t σ ty e c = some x) :
    evalExpr F t τ ty e c = some x := by
  rw [← hx]
  refine evalExpr_congr fun i hi => ?_
  obtain ⟨v, hv⟩ := evalExpr_inputs hx i hi
  obtain ⟨v', hv', hagree⟩ := h i hi v hv
  have hbits : ∀ v, v < 2 ^ (t.ty i).carrier.bits → v < 2 ^ 128 := fun v hv =>
    Nat.lt_of_lt_of_le hv (Nat.pow_le_pow_right (by decide) (Ty.bits_le _))
  rw [hv, hv', hagree.eq (hbits v (hσ i hi v hv)) (hbits v' (hτ i hi v' hv'))]

/-- Operands that agree on the bytes that an operation reads make results that agree. -/
theorem evalExpr_agree (hw : (e.map t.ty).wellTyped ty = true)
    (hσ : ∀ i ∈ e.inputs, ∀ x, σ i = some x → x < 2 ^ (t.ty i).carrier.bits)
    (hτ : ∀ i ∈ e.inputs, ∀ x, τ i = some x → x < 2 ^ (t.ty i).carrier.bits)
    (h : ∀ k i, e.inputs[k]? = some i → Keeps (operandBytes ty e bs k) (σ i) (τ i))
    (hx : evalExpr F t σ ty e c = some x) : ∃ y, evalExpr F t τ ty e c = some y ∧ Agree bs x y := by
  have hwhole : (∀ k, operandBytes ty e bs k = allBytes) →
      ∃ y, evalExpr F t τ ty e c = some y ∧ Agree bs x y := by
    intro hall
    refine ⟨x, evalExpr_whole hσ hτ (fun i hi => ?_) hx, Agree.refl bs x⟩
    obtain ⟨k, hk⟩ := List.mem_iff_getElem?.mp hi
    exact hall k ▸ h k i hk
  have hread := evalExpr_inputs hx
  have hword : ∀ {i v : Nat}, v < 2 ^ (t.ty i).carrier.bits → v < 2 ^ 128 := fun hv =>
    Nat.lt_of_lt_of_le hv (Nat.pow_le_pow_right (by decide) (Ty.bits_le _))
  cases e with
  | ternary o i j k => exact hwhole fun _ => rfl
  | multiplyWide s i j => exact hwhole fun _ => rfl
  | unary o i =>
    cases o with
    | extractLane l =>
      simp only [Expression.map, Expression.wellTyped, UnaryOp.wellTyped, and_eq_true,
        decide_eq_true_eq] at hw
      obtain ⟨v, hv⟩ := hread i mem_cons_self
      obtain ⟨v', hv', hagree⟩ := h 0 i rfl v hv
      rw [evalExpr_extractLane hv] at hx
      rw [evalExpr_extractLane hv', ← lane_eq_of_laneBytes hw.1.2 hw.2 hagree]
      exact ⟨x, hx, Agree.refl bs x⟩
    | _ => exact hwhole fun _ => rfl
  | shift o i j =>
    cases o with
    | lanes o a =>
      obtain ⟨v, hv⟩ := hread i mem_cons_self
      obtain ⟨n, hn⟩ := hread j (mem_cons_of_mem _ mem_cons_self)
      obtain ⟨v', hv', hagree⟩ := h 0 i rfl v hv
      obtain ⟨n', hn', hagree'⟩ := h 1 j rfl n hn
      have hlane := hw
      simp only [Expression.map, Expression.wellTyped, ShiftOp.wellTyped, and_eq_true] at hlane
      have hcnt : n = n' := hagree'.eq
        (hword (hσ j (mem_cons_of_mem _ mem_cons_self) n hn))
        (hword (hτ j (mem_cons_of_mem _ mem_cons_self) n' hn'))
      subst hcnt
      rw [eval_laneShift hv hn (hσ i mem_cons_self v hv)
        (hσ j (mem_cons_of_mem _ mem_cons_self) n hn) hw] at hx
      cases hx
      exact ⟨_, eval_laneShift hv' hn' (hτ i mem_cons_self v' hv')
        (hτ j (mem_cons_of_mem _ mem_cons_self) n hn') hw,
        agree_laneShift o hlane.1.1.1 _ hagree⟩
    | _ => exact hwhole fun _ => rfl
  | binary o i j =>
    obtain ⟨v, hv⟩ := hread i mem_cons_self
    obtain ⟨n, hn⟩ := hread j (mem_cons_of_mem _ mem_cons_self)
    obtain ⟨v', hv', hagree⟩ := h 0 i rfl v hv
    obtain ⟨n', hn', hagree'⟩ := h 1 j rfl n hn
    have hv₁ := hσ i mem_cons_self v hv
    have hv₂ := hτ i mem_cons_self v' hv'
    have hn₁ := hσ j (mem_cons_of_mem _ mem_cons_self) n hn
    have hn₂ := hτ j (mem_cons_of_mem _ mem_cons_self) n' hn'
    cases o with
    | bitwise o =>
      rw [eval_bitwise hv hn hv₁ hn₁ hw] at hx
      cases hx
      exact ⟨_, eval_bitwise hv' hn' hv₂ hn₂ hw, agree_bitwise o hagree hagree'⟩
    | shuffleImmediate mask =>
      rw [eval_shuffleImmediate hv hn hv₁ hn₁ hw] at hx
      cases hx
      exact ⟨_, eval_shuffleImmediate hv' hn' hv₂ hn₂ hw, agree_shuffle mask hagree hagree'⟩
    | vector o a =>
      cases hprefix : lanePrefix o with
      | none => exact hwhole fun k => operandBytes_whole hprefix ..
      | some isPrefix =>
        have hlane := hw
        simp only [Expression.map, Expression.wellTyped, BinaryOp.wellTyped, and_eq_true] at hlane
        rw [operandBytes_vector hprefix] at hagree hagree'
        rw [eval_vector hv hn hv₁ hn₁ hw] at hx
        cases hx
        exact ⟨_, eval_vector hv' hn' hv₂ hn₂ hw,
          agree_vector (LaneBinaryOp.isLane_of_supports hlane.1.1.1) hprefix hagree hagree'⟩
    | replaceLane a l =>
      have hlane := hw
      simp only [Expression.map, Expression.wellTyped, BinaryOp.wellTyped, and_eq_true,
        decide_eq_true_eq] at hlane
      have hpay : n = n' := hagree'.eq (hword hn₁) (hword hn₂)
      subst hpay
      rw [eval_replaceLane hv hn hv₁ hn₁ hw] at hx
      cases hx
      exact ⟨_, eval_replaceLane hv' hn' hv₂ hn₂ hw, agree_replaceLane hlane.1.1.1.1 hlane.2 hagree⟩
    | _ => exact hwhole fun _ => rfl

end Operands

end Relocade.Compiler.Emit
