import Relocade.X87.Fields
import Relocade.X87.Registers

/-!
# `X87.Status` — control and status words in split fields

Control and status live in independent byte fields, and a word is put together only where it is observed. Loading a word
and observing it again gives its architectural bits back (`controlWord_load`, `statusWord_load`).
-/

namespace Relocade.X87

open Flags (Val)
open Ssa (StateFields)

/-! ## Fields -/

/-- Maskable exceptions share bit positions in the control and status words. -/
inductive Exception where
  | invalid | denormal | zeroDivide | overflow | underflow | precision
  deriving DecidableEq, Repr

namespace Exception

def all : List Exception := [invalid, denormal, zeroDivide, overflow, underflow, precision]

/-- `exception as u32`. -/
def code : Exception → Nat
  | invalid => 0
  | denormal => 1
  | zeroDivide => 2
  | overflow => 3
  | underflow => 4
  | precision => 5

theorem mem_all (x : Exception) : x ∈ all := by
  cases x <;> decide

end Exception

inductive ConditionCode where
  | c0 | c1 | c2 | c3
  deriving DecidableEq, Repr

inductive ControlField where
  | mask (exception : Exception)
  | precisionControl | roundingControl | infinityControl
  | reservedBits
  deriving DecidableEq, Repr

inductive StatusField where
  | flag (exception : Exception)
  | stackFault
  | condition (code : ConditionCode)
  | errorSummary | busy
  deriving DecidableEq, Repr

inductive MetadataField where
  | opcode | instructionOffset | instructionSelector | dataOffset | dataSelector
  deriving DecidableEq, Repr

def ControlField.all : List ControlField :=
  Exception.all.map .mask ++ [.precisionControl, .roundingControl, .infinityControl, .reservedBits]

def StatusField.all : List StatusField :=
  Exception.all.map .flag ++
    [.stackFault, .condition .c0, .condition .c1, .condition .c2, .condition .c3, .errorSummary, .busy]

def MetadataField.all : List MetadataField :=
  [.opcode, .instructionOffset, .instructionSelector, .dataOffset, .dataSelector]

theorem ControlField.mem_all (field : ControlField) : field ∈ all := by
  cases field with
  | mask x => exact List.mem_append_left _ (List.mem_map_of_mem x.mem_all)
  | precisionControl | roundingControl | infinityControl | reservedBits => decide

theorem StatusField.mem_all (field : StatusField) : field ∈ all := by
  cases field with
  | flag x => exact List.mem_append_left _ (List.mem_map_of_mem x.mem_all)
  | condition code => cases code <;> decide
  | stackFault | errorSummary | busy => decide

theorem MetadataField.mem_all (field : MetadataField) : field ∈ all := by
  cases field <;> decide

/-- `cpu_location!(x87.control…)`. -/
def ControlField.offset : ControlField → Nat
  | mask exception => 176 + exception.code
  | precisionControl => 182
  | roundingControl => 183
  | infinityControl => 184
  | reservedBits => 186

def ControlField.type : ControlField → MemoryType
  | reservedBits => .word
  | _ => .byte

/-- `cpu_location!(x87.status…)`. -/
def StatusField.offset : StatusField → Nat
  | flag exception => 204 + exception.code
  | stackFault => 210
  | condition .c0 => 212
  | condition .c1 => 213
  | condition .c2 => 214
  | condition .c3 => 215
  | errorSummary => 216
  | busy => 217

def MetadataField.offset : MetadataField → Nat
  | opcode => 190
  | instructionOffset => 192
  | dataOffset => 196
  | instructionSelector => 200
  | dataSelector => 202

def MetadataField.type : MetadataField → MemoryType
  | instructionOffset | dataOffset => .dword
  | opcode | instructionSelector | dataSelector => .word

theorem ControlField.apart : ∀ f ∈ all, ∀ g ∈ all, f ≠ g →
    f.offset + f.type.bytes ≤ g.offset ∨ g.offset + g.type.bytes ≤ f.offset := by decide

theorem StatusField.apart : ∀ f ∈ all, ∀ g ∈ all, f ≠ g → f.offset + 1 ≤ g.offset ∨ g.offset + 1 ≤ f.offset := by decide

theorem MetadataField.apart : ∀ f ∈ all, ∀ g ∈ all, f ≠ g →
    f.offset + f.type.bytes ≤ g.offset ∨ g.offset + g.type.bytes ≤ f.offset := by decide

def controlFields : Placement ControlField where
  offset := ControlField.offset
  type := ControlField.type
  apart f g := ControlField.apart f f.mem_all g g.mem_all
  short
    | .reservedBits => by decide
    | .mask _ | .precisionControl | .roundingControl | .infinityControl => show 1 ≤ 4 by decide

def statusFields : Placement StatusField where
  offset := StatusField.offset
  type _ := .byte
  apart f g := StatusField.apart f f.mem_all g g.mem_all
  short _ := by decide

def metadataFields : Placement MetadataField where
  offset := MetadataField.offset
  type := MetadataField.type
  apart f g := MetadataField.apart f f.mem_all g g.mem_all
  short f := by cases f <;> decide

/-! ## The code -/

/-- How the builder identifies the expressions of the words. -/
structure WordNaming (N : Type) where
  registers : Naming N
  /-- `word.shr(shift).and(mask)`. -/
  part : N → Nat → Nat → N
  low : N → N
  not : N → N
  or : N → N → N

/-- The bits of a word from a shift on, as a byte field holds them. -/
def fieldOf (word : BitVec 16) (shift mask : Nat) : BitVec 32 :=
  ((word >>> shift &&& BitVec.ofNat 16 mask).setWidth 8).setWidth 32

/-- The bits that a byte field gives to a word. -/
def bitsOf (field : BitVec 32) (shift mask : Nat) : BitVec 16 :=
  (field.setWidth 8 &&& BitVec.ofNat 8 mask).setWidth 16 <<< shift

section

variable {N : Type} [DecidableEq N] (naming : WordNaming N)

def WordNaming.field (word : Val N (BitVec 16)) (shift mask : Nat) : Val N (BitVec 32) :=
  ⟨naming.part word.name shift mask, fieldOf word.value shift mask⟩

/-- `Val<I1>` extended to a byte. -/
def WordNaming.byte (bit : Val N Bool) : Val N (BitVec 32) :=
  ⟨naming.registers.extend bit.name, (BitVec.ofBool bit.value).setWidth 32⟩

namespace Control

/-- A field, the bits that it uses, and where they stand in the word. -/
def modeFields : List (ControlField × Nat × Nat) :=
  [(.precisionControl, 3, 8), (.roundingControl, 3, 10), (.infinityControl, 1, 12)]

def read (field : ControlField) : FieldBuild N (Val N (BitVec 32)) :=
    readField naming.registers.toNaming controlFields field

def unmasked (exception : Exception) : FieldBuild N (Val N Bool) := do
  let mask ← read naming (.mask exception)
  return ⟨naming.not (naming.low mask.name), !mask.value.getLsbD 0⟩

/-- Packing preserves reserved bits, and unused bits of a field affect no other. -/
def word : FieldBuild N (BitVec 16) := do
  let reserved ← read naming .reservedBits
  let word ← Exception.all.foldlM (fun word (exception : Exception) => do
    let mask ← read naming (.mask exception)
    return word ||| bitsOf mask.value exception.code 1) (reserved.value.setWidth 16 &&& 0xe0c0)
  modeFields.foldlM (fun word (location, mask, shift) => do
    let field ← read naming location
    return word ||| bitsOf field.value shift mask) word

def loadWord (word : Val N (BitVec 16)) : FieldBuild N Unit := do
  Exception.all.forM fun exception =>
    defineField controlFields (.mask exception) (naming.field word exception.code 1)
  modeFields.forM fun (location, mask, shift) => defineField controlFields location (naming.field word shift mask)
  defineField controlFields .reservedBits
    ⟨naming.registers.masked word.name 0xe0c0, (word.value &&& 0xe0c0).setWidth 32⟩

end Control

namespace Status

def flagFields : List (StatusField × Nat) :=
  [(.stackFault, 6), (.errorSummary, 7), (.condition .c0, 8), (.condition .c1, 9), (.condition .c2, 10),
    (.condition .c3, 14), (.busy, 15)]

def flag (location : StatusField) : FieldBuild N (Val N Bool) := do
  let field ← readField naming.registers.toNaming statusFields location
  return ⟨naming.low field.name, field.value.getLsbD 0⟩

def exceptionRaised (exception : Exception) : FieldBuild N (Val N Bool) := flag naming (.flag exception)

def word (top : BitVec 32) : FieldBuild N (BitVec 16) := do
  let word ← Exception.all.foldlM (fun word (exception : Exception) => do
    let bit ← exceptionRaised naming exception
    return word ||| (BitVec.ofBool bit.value).setWidth 16 <<< exception.code) (top.setWidth 16 <<< 11)
  flagFields.foldlM (fun word (location, shift) => do
    let bit ← flag naming location
    return word ||| (BitVec.ofBool bit.value).setWidth 16 <<< shift) word

/-- TOP belongs to the register bank; ES and B are computed again once a whole environment is in place. -/
def loadWord (word : Val N (BitVec 16)) : FieldBuild N Unit := do
  Exception.all.forM fun exception =>
    defineField statusFields (.flag exception) (naming.field word exception.code 1)
  flagFields.forM fun (location, shift) => defineField statusFields location (naming.field word shift 1)

end Status

end

/-! ## The same on the fields' values -/

/-- `Control::word`. -/
def controlWord (fields : ControlField → BitVec 32) : BitVec 16 :=
  Control.modeFields.foldl (fun word (location, mask, shift) => word ||| bitsOf (fields location) shift mask)
    (Exception.all.foldl (fun word exception => word ||| bitsOf (fields (.mask exception)) exception.code 1)
      ((fields .reservedBits).setWidth 16 &&& 0xe0c0))

/-- `Control::load_word`. -/
def loadControl (word : BitVec 16) : ControlField → BitVec 32
  | .mask exception => fieldOf word exception.code 1
  | .precisionControl => fieldOf word 8 3
  | .roundingControl => fieldOf word 10 3
  | .infinityControl => fieldOf word 12 1
  | .reservedBits => (word &&& 0xe0c0).setWidth 32

/-- `Status::word`. -/
def statusWord (top : BitVec 32) (fields : StatusField → BitVec 32) : BitVec 16 :=
  Status.flagFields.foldl
    (fun word (location, shift) => word ||| (BitVec.ofBool ((fields location).getLsbD 0)).setWidth 16 <<< shift)
    (Exception.all.foldl
      (fun word exception => word ||| (BitVec.ofBool ((fields (.flag exception)).getLsbD 0)).setWidth 16 <<<
          exception.code)
      (top.setWidth 16 <<< 11))

/-- `Status::load_word`. -/
def loadStatus (word : BitVec 16) : StatusField → BitVec 32
  | .flag exception => fieldOf word exception.code 1
  | .stackFault => fieldOf word 6 1
  | .errorSummary => fieldOf word 7 1
  | .condition .c0 => fieldOf word 8 1
  | .condition .c1 => fieldOf word 9 1
  | .condition .c2 => fieldOf word 10 1
  | .condition .c3 => fieldOf word 14 1
  | .busy => fieldOf word 15 1

/-- Whether an exception is flagged that is not masked. -/
def pendingException (control : ControlField → BitVec 32) (status : StatusField → BitVec 32) : Bool :=
  Exception.all.foldl
    (fun pending exception => pending || (status (.flag exception)).getLsbD 0 && !(control (.mask exception)).getLsbD 0)
        false

/-- `Status::update_pending_exception`. -/
def summarize (control : ControlField → BitVec 32) (status : StatusField → BitVec 32) : StatusField → BitVec 32 :=
  let pending := (BitVec.ofBool (pendingException control status)).setWidth 32
  Function.update (Function.update status .errorSummary pending) .busy pending

/-! ## Words give their fields back -/

/-- A word with the error summary and busy bits of its own flags, under the masks of a control word. -/
def withSummary (control status : BitVec 16) : BitVec 16 :=
  let pending := Exception.all.any fun exception => status.getLsbD exception.code && !control.getLsbD exception.code
  status &&& 0x7f7f ||| if pending then 0x8080 else 0

section

variable {word : BitVec 16} {shift : Nat}

theorem getLsbD_fieldOf (word : BitVec 16) (shift : Nat) : (fieldOf word shift 1).getLsbD 0 = word.getLsbD shift := by
  simp [fieldOf]

/-- The bits of a word that a field holds and gives back. -/
theorem bitsOf_fieldOf {mask : Nat} (hmask : mask < 256) :
    bitsOf (fieldOf word shift mask) shift mask = word &&& BitVec.ofNat 16 mask <<< shift := by
  refine BitVec.eq_of_getLsbD_eq fun i hi => ?_
  have hbits : ∀ k, 8 ≤ k → mask.testBit k = false := fun k hk =>
    Nat.testBit_lt_two_pow (Nat.lt_of_lt_of_le hmask (Nat.pow_le_pow_right Nat.two_pos hk))
  simp only [bitsOf, fieldOf, BitVec.getLsbD_shiftLeft, BitVec.getLsbD_setWidth, BitVec.getLsbD_and,
    BitVec.getLsbD_ushiftRight, BitVec.getLsbD_ofNat, hi, decide_true, Bool.true_and]
  by_cases hlow : i < shift
  · simp [hlow]
  · rw [Nat.add_sub_cancel' (Nat.le_of_not_lt hlow)]
    by_cases hin : i - shift < 8
    · simp [hlow, hin, show i - shift < 16 by omega, show i - shift < 32 by omega]
    · simp [hin, hbits (i - shift) (by omega)]

/-- One bit of a word. -/
theorem bit_placed (word : BitVec 16) {shift : Nat} :
    (BitVec.ofBool (word.getLsbD shift)).setWidth 16 <<< shift = word &&& (1 : BitVec 16) <<< shift := by
  refine BitVec.eq_of_getLsbD_eq fun i hi => ?_
  by_cases hsh : i = shift
  · subst hsh
    simp [hi]
  · by_cases hlow : i < shift
    · simp [hlow]
    · have hhi : i - shift ≠ 0 := by omega
      simp [hi, hlow, hhi]

/-- The control word keeps every bit. -/
theorem controlWord_load (word : BitVec 16) : controlWord (loadControl word) = word := by
  have hresv : ((word &&& 0xe0c0).setWidth 32).setWidth 16 &&& 0xe0c0 = word &&& 0xe0c0 := by
    rw [BitVec.setWidth_setWidth_of_le _ (by decide), BitVec.setWidth_eq, BitVec.and_assoc, BitVec.and_self]
  simp only [controlWord, Control.modeFields, Exception.all, List.foldl_cons, List.foldl_nil, loadControl, hresv,
    bitsOf_fieldOf (show (1 : Nat) < 256 by decide), bitsOf_fieldOf (show (3 : Nat) < 256 by decide),
    ← BitVec.and_or_distrib_left]
  exact BitVec.and_allOnes

theorem getLsbD_summary_mask {k : Nat} (hk : k < 16) : (0x7f7f : BitVec 16).getLsbD k = decide (k ≠ 7 ∧ k ≠ 15) := by
  have hall : ∀ k : Fin 16, (0x7f7f : BitVec 16).getLsbD k = decide (k.val ≠ 7 ∧ k.val ≠ 15) := by decide
  exact hall ⟨k, hk⟩

theorem getLsbD_summary {k : Nat} (hk : k < 16) : (0x8080 : BitVec 16).getLsbD k = decide (k = 7 ∨ k = 15) := by
  have hall : ∀ k : Fin 16, (0x8080 : BitVec 16).getLsbD k = decide (k.val = 7 ∨ k.val = 15) := by decide
  exact hall ⟨k, hk⟩

/-- Only the error summary and busy bits are computed again. -/
theorem getLsbD_withSummary (control status : BitVec 16) {k : Nat} (hk : k < 16) :
    (withSummary control status).getLsbD k =
      if k = 7 ∨ k = 15 then
        Exception.all.any fun x => status.getLsbD x.code && !control.getLsbD x.code
      else status.getLsbD k := by
  unfold withSummary
  dsimp only
  generalize Exception.all.any (fun x => status.getLsbD x.code && !control.getLsbD x.code) = pending
  rw [BitVec.getLsbD_or, BitVec.getLsbD_and, getLsbD_summary_mask hk]
  by_cases h : k = 7 ∨ k = 15
  · rw [if_pos h, decide_eq_false (by omega), Bool.and_false, Bool.false_or]
    cases pending with
    | true => exact (getLsbD_summary hk).trans (decide_eq_true h)
    | false => exact BitVec.getLsbD_zero
  · rw [if_neg h, decide_eq_true (by omega), Bool.and_true]
    have hsummary : (if pending = true then (0x8080 : BitVec 16) else 0).getLsbD k = false := by
      cases pending with
      | true => exact (getLsbD_summary hk).trans (decide_eq_false h)
      | false => exact BitVec.getLsbD_zero
    rw [hsummary, Bool.or_false]

/-- Bits taken out of a word and put back. -/
theorem shift_back (word mask : BitVec 16) (shift : Nat) : (word >>> shift &&& mask) <<< shift =
    word &&& mask <<< shift := by
  refine BitVec.eq_of_getLsbD_eq fun i hi => ?_
  simp only [BitVec.getLsbD_shiftLeft, BitVec.getLsbD_and, BitVec.getLsbD_ushiftRight, hi, decide_true, Bool.true_and]
  by_cases hlow : i < shift
  · simp [hlow]
  · simp [hlow, Nat.add_sub_cancel' (Nat.le_of_not_lt hlow)]

/-- A status word with its own TOP keeps every bit. -/
theorem statusWord_load (word : BitVec 16) : statusWord ((word >>> 11 &&& (7 : BitVec 16)).setWidth 32)
    (loadStatus word) = word := by
  have htop : ((word >>> 11 &&& (7 : BitVec 16)).setWidth 32).setWidth 16 <<< 11 = word &&& (7 : BitVec 16) <<< 11 := by
    rw [BitVec.setWidth_setWidth_of_le _ (by decide), BitVec.setWidth_eq]
    exact shift_back word 7 11
  simp only [statusWord, Status.flagFields, Exception.all, List.foldl_cons, List.foldl_nil, loadStatus, htop,
    getLsbD_fieldOf, bit_placed, ← BitVec.and_or_distrib_left]
  exact BitVec.and_allOnes

theorem fieldOf_bit (word : BitVec 16) (shift : Nat) :
    fieldOf word shift 1 = (BitVec.ofBool (word.getLsbD shift)).setWidth 32 := by
  refine BitVec.eq_of_getLsbD_eq fun i hi => ?_
  by_cases hz : i = 0
  · subst hz
    simp [fieldOf]
  · simp [fieldOf, hi, hz]

theorem pendingException_load (control status : BitVec 16) : pendingException (loadControl control) (loadStatus status)
    =
    Exception.all.any fun x => status.getLsbD x.code && !control.getLsbD x.code := by
  simp only [pendingException, loadControl, loadStatus, getLsbD_fieldOf, Exception.all, List.foldl_cons, List.foldl_nil,
    List.any_cons, List.any_nil, Bool.or_assoc, Bool.false_or, Bool.or_false]

/-- The summary of loaded fields is that of the words. -/
theorem summarize_load (control status : BitVec 16) :
    summarize (loadControl control) (loadStatus status) = loadStatus (withSummary control status) := by
  have hkept : ∀ k, k < 16 → k ≠ 7 → k ≠ 15 → fieldOf (withSummary control status) k 1 = fieldOf status k 1 := by
    intro k hk hes hbusy
    rw [fieldOf_bit, fieldOf_bit, getLsbD_withSummary control status hk, if_neg (by omega)]
  have hsummary : ∀ k, k < 16 → (k = 7 ∨ k = 15) → fieldOf (withSummary control status) k 1 =
      (BitVec.ofBool (pendingException (loadControl control) (loadStatus status))).setWidth 32 := by
    intro k hk h
    rw [fieldOf_bit, getLsbD_withSummary control status hk, if_pos h, pendingException_load]
  funext field
  cases field with
  | flag x =>
    have hcode : x.code < 7 := by cases x <;> decide
    exact (hkept x.code (by omega) (by omega) (by omega)).symm
  | stackFault => exact (hkept 6 (by decide) (by decide) (by decide)).symm
  | condition code =>
    cases code with
    | c0 => exact (hkept 8 (by decide) (by decide) (by decide)).symm
    | c1 => exact (hkept 9 (by decide) (by decide) (by decide)).symm
    | c2 => exact (hkept 10 (by decide) (by decide) (by decide)).symm
    | c3 => exact (hkept 14 (by decide) (by decide) (by decide)).symm
  | errorSummary => exact (hsummary 7 (by decide) (.inl rfl)).symm
  | busy => exact (hsummary 15 (by decide) (.inr rfl)).symm

theorem getLsbD_seven {i : Nat} (hi : i < 16) : (7 : BitVec 16).getLsbD i = decide (i < 3) := by
  have hall : ∀ i : Fin 16, (7 : BitVec 16).getLsbD i = decide (i.val < 3) := by decide
  exact hall ⟨i, hi⟩

/-- The summary leaves TOP. -/
theorem withSummary_top (control status : BitVec 16) :
    withSummary control status >>> 11 &&& (7 : BitVec 16) = status >>> 11 &&& (7 : BitVec 16) := by
  refine BitVec.eq_of_getLsbD_eq fun i hi => ?_
  rw [BitVec.getLsbD_and, BitVec.getLsbD_and, BitVec.getLsbD_ushiftRight, BitVec.getLsbD_ushiftRight, getLsbD_seven hi]
  by_cases hlow : i < 3
  · rw [getLsbD_withSummary control status (by omega), if_neg (by omega)]
  · rw [decide_eq_false hlow, Bool.and_false, Bool.and_false]

/-- After an environment is loaded, the status word is the image's with its summary computed again. -/
theorem statusWord_restored (control status : BitVec 16) :
    statusWord ((status >>> 11 &&& (7 : BitVec 16)).setWidth 32) (summarize (loadControl control) (loadStatus status)) =
      withSummary control status := by
  rw [summarize_load, ← withSummary_top control status]
  exact statusWord_load _

end

/-! ## The code does what its values say -/

section

variable {N : Type} {naming : WordNaming N} {m : Memory} {s : StateFields (Val N (BitVec 32)) × Memory}
variable {control : ControlField → BitVec 32} {status : StatusField → BitVec 32}

theorem narrow_field (word : BitVec 16) (shift mask : Nat) : Narrow 1 (fieldOf word shift mask) :=
  narrow_setWidth _ (by decide)

namespace Control

theorem read_spec (h : Keeps naming.registers.toNaming controlFields m control s) (field : ControlField) :
    Total s (read naming field) fun value s' =>
      value.value = control field ∧ Keeps naming.registers.toNaming controlFields m control s' :=
  readField_spec h field

theorem unmasked_spec (h : Keeps naming.registers.toNaming controlFields m control s) (x : Exception) :
    Total s (unmasked naming x) fun value s' =>
      value.value = !(control (.mask x)).getLsbD 0 ∧
          Keeps naming.registers.toNaming controlFields m control s' := by
  refine Total.bind (read_spec h (.mask x)) fun value s' ⟨hval, hkeeps⟩ => Total.pure ⟨?_, hkeeps⟩
  rw [hval]

theorem word_spec (h : Keeps naming.registers.toNaming controlFields m control s) :
    Total s (word naming) fun word s' =>
      word = controlWord control ∧ Keeps naming.registers.toNaming controlFields m control s' := by
  refine Total.bind (read_spec h .reservedBits) fun reserved s' ⟨hresv, hkeeps⟩ => ?_
  rw [hresv]
  refine Total.bind (Total.foldlM
    (I := fun word built s => built = word ∧ Keeps naming.registers.toNaming controlFields m control s)
    (g := fun word x => word ||| bitsOf (control (.mask x)) x.code 1)
    (fun x _ word _ s ⟨hword, h⟩ => ?_) ⟨rfl, hkeeps⟩) fun word s' ⟨hword, hkeeps⟩ => ?_
  · refine Total.bind (read_spec h (.mask x)) fun mask s' ⟨hmask, hkeeps⟩ => Total.pure ⟨?_, hkeeps⟩
    rw [hmask, hword]
  · refine Total.foldlM
      (I := fun word built s => built = word ∧ Keeps naming.registers.toNaming controlFields m control s)
      (g := fun word (entry : ControlField × Nat × Nat) => word ||| bitsOf (control entry.1) entry.2.2 entry.2.1)
      (fun entry _ word _ s ⟨hword, h⟩ => ?_) ⟨hword, hkeeps⟩
    refine Total.bind (read_spec h entry.1) fun field s' ⟨hfld, hkeeps⟩ => Total.pure ⟨?_, hkeeps⟩
    rw [hfld, hword]

theorem loadWord_spec [DecidableEq N] (h : Keeps naming.registers.toNaming controlFields m control s)
    (word : Val N (BitVec 16)) :
    Total s (loadWord naming word) fun _ s' =>
      Keeps naming.registers.toNaming controlFields m (loadControl word.value) s' := by
  refine Total.bind (Total.forM (I := fun values => Keeps naming.registers.toNaming controlFields m values)
    (g := fun values x => Function.update values (.mask x) (fieldOf word.value x.code 1))
    (fun x _ values s h => defineField_spec h (.mask x) ?_) h) fun _ s' hmasks => ?_
  · exact narrow_field word.value x.code 1
  have hbyte : ∀ entry ∈ modeFields, (controlFields.type entry.1).bytes = 1 := by decide
  refine Total.bind (Total.forM (I := fun values => Keeps naming.registers.toNaming controlFields m values)
    (g := fun values entry => Function.update values entry.1 (fieldOf word.value entry.2.2 entry.2.1))
    (fun entry hent values s h => defineField_spec h entry.1 ?_) hmasks) fun _ s' hmodes => ?_
  · rw [hbyte entry hent]
    exact narrow_field word.value entry.2.2 entry.2.1
  · refine (defineField_spec hmodes .reservedBits (narrow_setWidth _ (Nat.le_refl 16))).mono fun _ s' hresv => ?_
    refine Eq.mp (congrArg (Keeps naming.registers.toNaming controlFields m · s') ?_) hresv
    funext field
    cases field with
    | mask x => cases x <;> rfl
    | precisionControl | roundingControl | infinityControl | reservedBits => rfl

end Control

namespace Status

theorem flag_spec (h : Keeps naming.registers.toNaming statusFields m status s) (field : StatusField) :
    Total s (flag naming field) fun bit s' =>
      bit.value = (status field).getLsbD 0 ∧ Keeps naming.registers.toNaming statusFields m status s' := by
  refine Total.bind (readField_spec h field) fun value s' ⟨hval, hkeeps⟩ => Total.pure ⟨?_, hkeeps⟩
  rw [hval]

theorem word_spec (h : Keeps naming.registers.toNaming statusFields m status s) (top : BitVec 32) :
    Total s (word naming top) fun word s' =>
      word = statusWord top status ∧ Keeps naming.registers.toNaming statusFields m status s' := by
  refine Total.bind (Total.foldlM
    (I := fun word built s => built = word ∧ Keeps naming.registers.toNaming statusFields m status s)
    (g := fun word x => word ||| (BitVec.ofBool ((status (.flag x)).getLsbD 0)).setWidth 16 <<< x.code)
    (fun x _ word _ s ⟨hword, h⟩ => ?_) ⟨rfl, h⟩) fun word s' ⟨hword, hkeeps⟩ => ?_
  · refine Total.bind (flag_spec h (.flag x)) fun bit s' ⟨hbit, hkeeps⟩ => Total.pure ⟨?_, hkeeps⟩
    rw [hbit, hword]
  · refine Total.foldlM
      (I := fun word built s => built = word ∧ Keeps naming.registers.toNaming statusFields m status s)
      (g := fun word (entry : StatusField × Nat) =>
        word ||| (BitVec.ofBool ((status entry.1).getLsbD 0)).setWidth 16 <<< entry.2)
      (fun entry _ word _ s ⟨hword, h⟩ => ?_) ⟨hword, hkeeps⟩
    refine Total.bind (flag_spec h entry.1) fun bit s' ⟨hbit, hkeeps⟩ => Total.pure ⟨?_, hkeeps⟩
    rw [hbit, hword]

theorem loadWord_spec [DecidableEq N] (h : Keeps naming.registers.toNaming statusFields m status s)
    (word : Val N (BitVec 16)) :
    Total s (loadWord naming word) fun _ s' =>
      Keeps naming.registers.toNaming statusFields m (loadStatus word.value) s' := by
  refine Total.bind (Total.forM (I := fun values => Keeps naming.registers.toNaming statusFields m values)
    (g := fun values x => Function.update values (.flag x) (fieldOf word.value x.code 1))
    (fun x _ values s h => defineField_spec h (.flag x) ?_) h) fun _ s' hflags => ?_
  · exact narrow_field word.value x.code 1
  refine (Total.forM (I := fun values => Keeps naming.registers.toNaming statusFields m values)
    (g := fun values entry => Function.update values entry.1 (fieldOf word.value entry.2 1))
    (fun entry _ values s h => defineField_spec h entry.1 ?_) hflags).mono fun _ s' hfields => ?_
  · exact narrow_field word.value entry.2 1
  refine Eq.mp (congrArg (Keeps naming.registers.toNaming statusFields m · s') ?_) hfields
  funext field
  cases field with
  | flag x => cases x <;> rfl
  | condition code => cases code <;> rfl
  | stackFault | errorSummary | busy => rfl

end Status

end

end Relocade.X87
