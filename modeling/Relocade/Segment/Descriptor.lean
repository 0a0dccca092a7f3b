import Relocade.Memory
import Relocade.Segment.Profile

/-!
# `Segment.Descriptor` — host descriptors and their packed form

A host descriptor has typed fields; a packed one is the eight bytes of a table entry. Packing loses nothing
(`codeData_pack`), and byte conversion is a bijection (`toBytes_fromBytes`, `fromBytes_toBytes`).
-/

namespace Relocade.Segmentation

/-! ## Limits -/

/-- An inclusive 20-bit descriptor limit with byte or 4 KiB page granularity. -/
structure SegmentLimit where
  encoded : BitVec 32
  pageGranular : Bool
  bounded : encoded ≤ 0xfffff
  deriving DecidableEq, Repr

@[ext]
theorem SegmentLimit.ext {a b : SegmentLimit} (he : a.encoded = b.encoded) (hg : a.pageGranular = b.pageGranular) :
    a = b := by
  cases a
  cases b
  subst he hg
  rfl

namespace SegmentLimit

/-- A byte-granular limit. -/
def bytes (limit : BitVec 32) : Option SegmentLimit := if h : limit ≤ 0xfffff then some ⟨limit, false, h⟩ else none

/-- A page-granular limit from an inclusive page index. -/
def pages (limit : BitVec 32) : Option SegmentLimit := if h : limit ≤ 0xfffff then some ⟨limit, true, h⟩ else none

/-- The inclusive effective byte limit. -/
def effective (limit : SegmentLimit) : BitVec 32 :=
  if limit.pageGranular then limit.encoded <<< 12 ||| 0xfff else limit.encoded

end SegmentLimit

/-! ## Host descriptors -/

inductive PrivilegeLevel where
  | ring0
  | ring1
  | ring2
  | ring3
  deriving DecidableEq, Repr

def PrivilegeLevel.toByte : PrivilegeLevel → BitVec 8
  | .ring0 => 0
  | .ring1 => 1
  | .ring2 => 2
  | .ring3 => 3

inductive SegmentDescriptorKind where
  | data (writable expandDown : Bool)
  | code (readable conforming : Bool)
  deriving DecidableEq, Repr

/-- A host-managed descriptor. -/
structure SegmentDescriptor where
  base : BitVec 32
  limit : SegmentLimit
  kind : SegmentDescriptorKind
  defaultSize : SegmentDefaultSize
  dpl : PrivilegeLevel
  present : Bool
  available : Bool
  deriving DecidableEq, Repr

/-- Conforming code is visible at every DPL. -/
def SegmentDescriptor.userVisible (descriptor : SegmentDescriptor) : Bool :=
  descriptor.dpl = .ring3 ||
    match descriptor.kind with
    | .code _ true => true
    | _ => false

inductive Exception where
  | generalProtection (errorCode : BitVec 32)
  | stackFault (errorCode : BitVec 32)
  | segmentNotPresent (errorCode : BitVec 32)
  deriving DecidableEq, Repr

/-- Information visible at CPL=3. -/
structure SegmentDescriptorInfo where
  larValid : Bool
  lslValid : Bool
  readable : Bool
  writable : Bool
  accessRights : BitVec 32
  limit : BitVec 32
  deriving DecidableEq, Repr

def SegmentDescriptorInfo.default : SegmentDescriptorInfo := ⟨false, false, false, false, 0, 0⟩

/-! ## Packed descriptors -/

def TYPE_MASK : BitVec 8 := 0x0f
def ACCESSED : BitVec 8 := 0x01
def READ_WRITE : BitVec 8 := 0x02
def CONFORMING_EXPAND_DOWN : BitVec 8 := 0x04
def EXECUTABLE : BitVec 8 := 0x08
def CODE_DATA : BitVec 8 := 0x10
def DPL_MASK : BitVec 8 := 0x60
def PRESENT : BitVec 8 := 0x80

def LIMIT_HIGH_MASK : BitVec 8 := 0x0f
def FLAGS_MASK : BitVec 8 := 0xf0
def AVAILABLE : BitVec 8 := 0x10
def DEFAULT_32 : BitVec 8 := 0x40
def PAGE_GRANULAR : BitVec 8 := 0x80

/-- Eight-byte legacy descriptor, preserving raw table attributes. -/
structure Descriptor where
  limitLow : BitVec 16
  baseLow : BitVec 16
  baseMiddle : BitVec 8
  access : BitVec 8
  limitAndFlags : BitVec 8
  baseHigh : BitVec 8
  deriving DecidableEq, Repr

def bit (b : Bool) : BitVec 8 := if b then 1 else 0

namespace Descriptor

def default : Descriptor := ⟨0, 0, 0, 0, 0, 0⟩

def fromBytes (bytes : Vector (BitVec 8) 8) : Descriptor where
  limitLow := Memory.ofBytes 16 [bytes.getD 0 0, bytes.getD 1 0]
  baseLow := Memory.ofBytes 16 [bytes.getD 2 0, bytes.getD 3 0]
  baseMiddle := bytes.getD 4 0
  access := bytes.getD 5 0
  limitAndFlags := bytes.getD 6 0
  baseHigh := bytes.getD 7 0

variable (d : Descriptor)

def toBytes : Vector (BitVec 8) 8 :=
  #v[d.limitLow.setWidth 8, (d.limitLow >>> 8).setWidth 8, d.baseLow.setWidth 8, (d.baseLow >>> 8).setWidth 8,
    d.baseMiddle, d.access, d.limitAndFlags, d.baseHigh]

def base : BitVec 32 :=
  d.baseLow.setWidth 32 ||| d.baseMiddle.setWidth 32 <<< 16 ||| d.baseHigh.setWidth 32 <<< 24

/-- The twenty bits of the limit. -/
def limitBits : BitVec 32 := d.limitLow.setWidth 32 ||| (d.limitAndFlags &&& LIMIT_HIGH_MASK).setWidth 32 <<< 16

theorem limitBits_le : d.limitBits ≤ 0xfffff := by
  have hlow : (d.limitLow.setWidth 32).toNat < 2 ^ 20 := by
    rw [BitVec.toNat_setWidth]
    have := d.limitLow.isLt
    omega
  have hhi : ((d.limitAndFlags &&& LIMIT_HIGH_MASK).setWidth 32 <<< 16).toNat < 2 ^ 20 := by
    have hmask : (d.limitAndFlags &&& LIMIT_HIGH_MASK).toNat ≤ 0x0f := by
      rw [BitVec.toNat_and]
      exact Nat.and_le_right
    rw [BitVec.toNat_shiftLeft, BitVec.toNat_setWidth, Nat.shiftLeft_eq]
    omega
  have hor : d.limitBits.toNat < 2 ^ 20 := by
    unfold limitBits
    rw [BitVec.toNat_or]
    exact Nat.or_lt_two_pow hlow hhi
  exact Nat.le_of_lt_succ hor

/-- Packed limits have twenty bits. -/
def limit : SegmentLimit := ⟨d.limitBits, d.limitAndFlags &&& PAGE_GRANULAR ≠ 0, d.limitBits_le⟩

/-- `limit` is what the checked constructors give. -/
theorem limit_eq :
    (if d.limitAndFlags &&& PAGE_GRANULAR ≠ 0 then SegmentLimit.pages d.limitBits else SegmentLimit.bytes d.limitBits) =
      some d.limit := by
  unfold SegmentLimit.pages SegmentLimit.bytes limit
  rw [dif_pos d.limitBits_le, dif_pos d.limitBits_le]
  split
  next h => rw [decide_eq_true h]
  next h => rw [decide_eq_false h]

def accessRights : BitVec 32 := d.access.setWidth 32 <<< 8 ||| (d.limitAndFlags &&& FLAGS_MASK).setWidth 32 <<< 16

/-- Sets the accessed flag on a code/data descriptor. -/
def withAccessed : Descriptor :=
  if d.access &&& CODE_DATA ≠ 0 then { d with access := d.access ||| ACCESSED } else d

/-- Decodes permission information at CPL=3. -/
def queryUser : SegmentDescriptorInfo :=
  let kind := d.access &&& TYPE_MASK
  let codeData : Bool := d.access &&& CODE_DATA ≠ 0
  let executable : Bool := kind &&& EXECUTABLE ≠ 0
  let conforming := codeData && executable && kind &&& CONFORMING_EXPAND_DOWN ≠ 0
  if d.access &&& DPL_MASK ≠ DPL_MASK ∧ ¬ conforming then
    SegmentDescriptorInfo.default
  else
    let larValid : Bool := codeData || [1, 2, 3, 4, 5, 9, 11, 12].contains kind
    let lslValid : Bool := codeData || [1, 2, 3, 9, 11].contains kind
    { larValid := larValid
      lslValid := lslValid
      readable := codeData && (!executable || kind &&& READ_WRITE ≠ 0)
      writable := codeData && !executable && kind &&& READ_WRITE ≠ 0
      accessRights := if larValid then d.accessRights else 0
      limit := if lslValid then d.limit.effective else 0 }

/-- Descriptors of system segments are not decoded. -/
def codeData : Option SegmentDescriptor :=
  if d.access &&& CODE_DATA = 0 then none
  else
    some
      { base := d.base
        limit := d.limit
        kind :=
          if d.access &&& EXECUTABLE ≠ 0 then
            .code (d.access &&& READ_WRITE ≠ 0) (d.access &&& CONFORMING_EXPAND_DOWN ≠ 0)
          else .data (d.access &&& READ_WRITE ≠ 0) (d.access &&& CONFORMING_EXPAND_DOWN ≠ 0)
        defaultSize := if d.limitAndFlags &&& DEFAULT_32 ≠ 0 then .bits32 else .bits16
        dpl :=
          match ((d.access &&& DPL_MASK) >>> 5).toNat with
          | 0 => .ring0
          | 1 => .ring1
          | 2 => .ring2
          | _ => .ring3
        present := d.access &&& PRESENT ≠ 0
        available := d.limitAndFlags &&& AVAILABLE ≠ 0 }

/-- The type bits of a kind, accessed. -/
def kindBits : SegmentDescriptorKind → BitVec 8
  | .data writable expandDown => ACCESSED ||| bit writable <<< 1 ||| bit expandDown <<< 2
  | .code readable conforming => ACCESSED ||| EXECUTABLE ||| bit readable <<< 1 ||| bit conforming <<< 2

/-- `Descriptor::from` a host descriptor. -/
def pack (descriptor : SegmentDescriptor) : Descriptor :=
  let granular := descriptor.limit.pageGranular
  let limit := if granular then descriptor.limit.effective >>> 12 else descriptor.limit.effective
  { limitLow := limit.setWidth 16
    baseLow := descriptor.base.setWidth 16
    baseMiddle := (descriptor.base >>> 16).setWidth 8
    access := kindBits descriptor.kind ||| CODE_DATA ||| descriptor.dpl.toByte <<< 5 ||| bit descriptor.present <<< 7
    limitAndFlags := (limit >>> 16).setWidth 8 ||| bit descriptor.available <<< 4 |||
      bit (descriptor.defaultSize = .bits32) <<< 6 ||| bit granular <<< 7
    baseHigh := (descriptor.base >>> 24).setWidth 8 }

end Descriptor

/-! ## Loads -/

def SegmentDescriptor.queryUser (descriptor : SegmentDescriptor) : SegmentDescriptorInfo :=
  (Descriptor.pack descriptor).queryUser

/-- The error code of a selector. -/
def errorCode (selector : BitVec 16) : BitVec 32 := (selector &&& ~~~3).setWidth 32

/-- The attributes that a kind gives a cache. -/
def SegmentDescriptorKind.fill (kind : SegmentDescriptorKind) (cache : SegmentRegister) : SegmentRegister :=
  match kind with
  | .data writable expandDown => { cache with readable := 1, writable := bit writable, expandDown := bit expandDown }
  | .code readable _ => { cache with readable := bit readable, executable := 1 }

def SegmentRegister.default : SegmentRegister := ⟨0, 0, 0, 0, 0, 0, 0, 0, 0⟩

def SegmentRegister.unusable (selector : BitVec 16) : SegmentRegister := { SegmentRegister.default with selector }

/-- What a direct load at CPL=3 leaves. -/
def SegmentDescriptor.resolveUser (descriptor : SegmentDescriptor) (destination : Segment) (selector : BitVec 16) :
    Except Exception SegmentRegister :=
  let accessible : Bool :=
    match destination, descriptor.kind with
    | .ss, .data true _ => descriptor.dpl = .ring3 && selector &&& 3 = 3
    | .cs, .code _ _ => descriptor.userVisible
    | .ss, _ => false
    | .cs, _ => false
    | _, _ => descriptor.queryUser.readable
  if ¬ accessible then
    .error (.generalProtection (errorCode selector))
  else if ¬ descriptor.present then
    .error (if destination = .ss then .stackFault (errorCode selector) else .segmentNotPresent (errorCode selector))
  else
    .ok (descriptor.kind.fill { SegmentRegister.default with
      base := descriptor.base
      limit := descriptor.limit.effective
      selector := if destination = .cs then selector ||| 3 else selector
      usable := 1
      big := bit (descriptor.defaultSize = .bits32) })

/-- Checks a direct code/data load at CPL=3. Null selectors ignore the descriptor bytes entirely. -/
def Descriptor.resolveUserSegment (d : Descriptor) (destination : Segment) (selector : BitVec 16) :
    Except Exception SegmentRegister :=
  if selector &&& ~~~3 = 0 then
    match destination with
    | .ss => .error (.generalProtection 0)
    | .cs => .error (.generalProtection 0)
    | _ => .ok (SegmentRegister.unusable selector)
  else
    match d.codeData with
    | none => .error (.generalProtection (errorCode selector))
    | some descriptor => descriptor.resolveUser destination selector

/-! ## Round trips -/

theorem lowBytes_two (value : BitVec 16) :
    Memory.lowBytes 2 value = [value.setWidth 8, (value >>> 8).setWidth 8] := by
  simp [Memory.lowBytes, List.range_succ]

namespace Descriptor

theorem fromBytes_toBytes (d : Descriptor) : fromBytes d.toBytes = d := by
  have word (value : BitVec 16) : Memory.ofBytes 16 [value.setWidth 8, (value >>> 8).setWidth 8] = value := by
    rw [← lowBytes_two]
    exact Memory.ofBytes_lowBytes value rfl
  obtain ⟨limitLow, baseLow, baseMiddle, access, limitAndFlags, baseHigh⟩ := d
  simp only [fromBytes, toBytes, Descriptor.mk.injEq]
  exact ⟨word limitLow, word baseLow, rfl, rfl, rfl, rfl⟩

theorem toBytes_fromBytes (bytes : Vector (BitVec 8) 8) : (fromBytes bytes).toBytes = bytes := by
  have word (a b : BitVec 8) :
      (Memory.ofBytes 16 [a, b]).setWidth 8 = a ∧ (Memory.ofBytes 16 [a, b] >>> 8).setWidth 8 = b := by
    have h := @Memory.lowBytes_ofBytes 16 [a, b] (by simp)
    rw [List.length_cons, List.length_singleton, lowBytes_two] at h
    injection h with h0 h1
    injection h1 with h1
    exact ⟨h0, h1⟩
  have byte (i : Nat) (hi : i < 8) : bytes.getD i 0 = bytes[i] := Array.getElem_eq_getD 0 |>.symm
  refine Vector.ext fun i hi => ?_
  match i, hi with
  | 0, _ => exact (word _ _).1.trans (byte 0 (by decide))
  | 1, _ => exact (word _ _).2.trans (byte 1 (by decide))
  | 2, _ => exact (word _ _).1.trans (byte 2 (by decide))
  | 3, _ => exact (word _ _).2.trans (byte 3 (by decide))
  | 4, _ => exact byte 4 (by decide)
  | 5, _ => exact byte 5 (by decide)
  | 6, _ => exact byte 6 (by decide)
  | 7, _ => exact byte 7 (by decide)

/-- The base fields hold the base. -/
theorem base_fields (base : BitVec 32) :
    (base.setWidth 16).setWidth 32 ||| ((base >>> 16).setWidth 8).setWidth 32 <<< 16 |||
      ((base >>> 24).setWidth 8).setWidth 32 <<< 24 = base := by
  apply BitVec.eq_of_getLsbD_eq
  intro i hi
  simp only [BitVec.getLsbD_or, BitVec.getLsbD_setWidth, BitVec.getLsbD_shiftLeft, BitVec.getLsbD_ushiftRight]
  by_cases hlow : i < 16
  · simp [hi, hlow, show i < 24 by omega]
  · by_cases hmiddle : i < 24
    · simp [hi, hlow, hmiddle, show 16 + (i - 16) = i by omega, show i - 16 < 8 by omega, show i - 16 < 32 by omega]
    · simp [hi, hlow, hmiddle, show 24 + (i - 24) = i by omega, show i - 24 < 8 by omega, show i - 24 < 32 by omega,
        show ¬ i - 16 < 8 by omega]

theorem kind_access (kind : SegmentDescriptorKind) (dpl : PrivilegeLevel) (present : Bool)
    {access : BitVec 8} (h : access = kindBits kind ||| CODE_DATA ||| dpl.toByte <<< 5 ||| bit present <<< 7) :
    access &&& CODE_DATA ≠ 0 ∧
      (if access &&& EXECUTABLE ≠ 0 then
            SegmentDescriptorKind.code (access &&& READ_WRITE ≠ 0) (access &&& CONFORMING_EXPAND_DOWN ≠ 0)
          else .data (access &&& READ_WRITE ≠ 0) (access &&& CONFORMING_EXPAND_DOWN ≠ 0)) = kind ∧
      (match ((access &&& DPL_MASK) >>> 5).toNat with
          | 0 => PrivilegeLevel.ring0
          | 1 => .ring1
          | 2 => .ring2
          | _ => .ring3) = dpl ∧
      decide (access &&& PRESENT ≠ 0) = present := by
  subst h
  cases kind with
  | data a b => cases a <;> cases b <;> cases dpl <;> cases present <;> decide
  | code a b => cases a <;> cases b <;> cases dpl <;> cases present <;> decide

theorem flag_bits : ∀ (nibble : BitVec 4) (available big granular : Bool),
    let flags := nibble.setWidth 8 ||| bit available <<< 4 ||| bit big <<< 6 ||| bit granular <<< 7
    flags &&& LIMIT_HIGH_MASK = nibble.setWidth 8 ∧ decide (flags &&& AVAILABLE ≠ 0) = available ∧
      decide (flags &&& DEFAULT_32 ≠ 0) = big ∧ decide (flags &&& PAGE_GRANULAR ≠ 0) = granular := by
  decide

/-- Bits from the twentieth on are clear. -/
theorem bounded_getLsbD {limit : BitVec 32} (h : limit ≤ 0xfffff) {i : Nat} (hi : 20 ≤ i) :
    limit.getLsbD i = false := by
  have hlimit : limit.toNat < 2 ^ 20 := Nat.lt_succ_of_le h
  exact Nat.testBit_lt_two_pow (Nat.lt_of_lt_of_le hlimit (Nat.pow_le_pow_right (by decide) hi))

theorem limit_fields {limit : BitVec 32} (h : limit ≤ 0xfffff) :
    (limit.setWidth 16).setWidth 32 ||| (((limit >>> 16).setWidth 4).setWidth 8).setWidth 32 <<< 16 = limit := by
  apply BitVec.eq_of_getLsbD_eq
  intro i hi
  simp only [BitVec.getLsbD_or, BitVec.getLsbD_setWidth, BitVec.getLsbD_shiftLeft, BitVec.getLsbD_ushiftRight]
  by_cases hlow : i < 16
  · simp [hi, hlow]
  · by_cases hhi : i < 20
    · simp [hi, hlow, show 16 + (i - 16) = i by omega, show i - 16 < 4 by omega, show i - 16 < 8 by omega,
        show i - 16 < 32 by omega]
    · rw [bounded_getLsbD h (Nat.le_of_not_lt hhi)]
      simp [hlow, show ¬ i - 16 < 4 by omega]

/-- The packed limit is the encoded one. -/
theorem encoded_effective (limit : SegmentLimit) :
    (if limit.pageGranular then limit.effective >>> 12 else limit.effective) = limit.encoded := by
  unfold SegmentLimit.effective
  cases limit.pageGranular with
  | false => rfl
  | true =>
    rw [if_pos rfl, if_pos rfl]
    apply BitVec.eq_of_getLsbD_eq
    intro i hi
    have hmask : (0xfff : BitVec 32).getLsbD (12 + i) = false :=
      Nat.testBit_lt_two_pow (Nat.lt_of_lt_of_le (by decide : 0xfff < 2 ^ 12) (Nat.pow_le_pow_right (by decide) (by omega)))
    rw [BitVec.getLsbD_ushiftRight, BitVec.getLsbD_or, BitVec.getLsbD_shiftLeft, hmask, Bool.or_false,
      Nat.add_sub_cancel_left]
    by_cases hlow : i < 20
    · simp [show 12 + i < 32 by omega]
    · rw [bounded_getLsbD limit.bounded (Nat.le_of_not_lt hlow), Bool.and_false]

/-- The flags byte of a packed descriptor. -/
theorem flags_pack (desc : SegmentDescriptor) :
    let flags := (pack desc).limitAndFlags
    flags &&& LIMIT_HIGH_MASK = ((desc.limit.encoded >>> 16).setWidth 4).setWidth 8 ∧
      decide (flags &&& AVAILABLE ≠ 0) = desc.available ∧
      decide (flags &&& DEFAULT_32 ≠ 0) = decide (desc.defaultSize = .bits32) ∧
      decide (flags &&& PAGE_GRANULAR ≠ 0) = desc.limit.pageGranular := by
  have hnibble : (desc.limit.encoded >>> 16).setWidth 8 = ((desc.limit.encoded >>> 16).setWidth 4).setWidth 8 := by
    apply BitVec.eq_of_getLsbD_eq
    intro i hi
    simp only [BitVec.getLsbD_setWidth, BitVec.getLsbD_ushiftRight]
    by_cases hlow : i < 4
    · simp [hlow]
    · simp [hlow, bounded_getLsbD desc.limit.bounded (show 20 ≤ 16 + i by omega)]
  intro flags
  have hflags : flags = ((desc.limit.encoded >>> 16).setWidth 4).setWidth 8 ||| bit desc.available <<< 4 |||
      bit (desc.defaultSize = .bits32) <<< 6 ||| bit desc.limit.pageGranular <<< 7 := by
    rw [← hnibble, ← encoded_effective]
    rfl
  rw [hflags]
  exact flag_bits _ _ _ _

theorem limit_pack (desc : SegmentDescriptor) : (pack desc).limit = desc.limit := by
  obtain ⟨hhi, -, -, hgranular⟩ := flags_pack desc
  have hlow : (pack desc).limitLow = desc.limit.encoded.setWidth 16 := by
    rw [← encoded_effective]
    rfl
  have hencoded : (pack desc).limit.encoded = desc.limit.encoded := by
    show (pack desc).limitBits = _
    rw [limitBits, hlow, hhi]
    exact limit_fields desc.limit.bounded
  exact SegmentLimit.ext hencoded hgranular

/-- Packing loses no field. -/
theorem codeData_pack (desc : SegmentDescriptor) : (pack desc).codeData = some desc := by
  obtain ⟨hcode, hkind, hdpl, hpresent⟩ :=
    kind_access desc.kind desc.dpl desc.present (show (pack desc).access = _ from rfl)
  obtain ⟨-, hav, hbig, -⟩ := flags_pack desc
  have hsize : (if (pack desc).limitAndFlags &&& DEFAULT_32 ≠ 0 then SegmentDefaultSize.bits32 else .bits16) =
      desc.defaultSize := by
    cases h : desc.defaultSize with
    | bits16 =>
      rw [h] at hbig
      exact if_neg (of_decide_eq_false hbig)
    | bits32 =>
      rw [h] at hbig
      exact if_pos (of_decide_eq_true hbig)
  rw [codeData, if_neg hcode, limit_pack, hkind, hdpl, hpresent, hav, hsize]
  have hbase : (pack desc).base = desc.base := base_fields desc.base
  rw [hbase]

end Descriptor

end Relocade.Segmentation
