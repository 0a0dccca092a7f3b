import Relocade.Flags.Direct
import Relocade.X87.Bank

/-!
# `X87.Registers` — stack-relative and physical accesses to one register bank

Slots are named relative to the bank's origin. The stack's top is followed speculatively, as if every movement had been
enabled; TOP itself is kept exactly.
-/

namespace Relocade.X87

open Flags (Val)
open Ssa (StateFields)

/-- A slot of the current bank. -/
abbrev Slot := Fin 8

/-- An address relative to a register-bank origin. -/
structure Address (N : Type) where
  origin : Val N (BitVec 32)
  offset : Fin 8

structure Registers (N : Type) where
  topFields : StateFields (Val N (BitVec 8))
  bank : Option (Bank N)

inductive RegisterCode (N : Type) where
  | known (code : BitVec 8)
  | indexed (code : Val N (BitVec 32))

/-- Construction over the tracker and the memory; it fails where the source would panic. -/
abbrev Build (N : Type) := StateT (Registers N × Memory) Option

/-- A movement of the stack, modulo eight. -/
def slotOf (delta : Int) : Fin 8 := ⟨(delta % 8).toNat, by omega⟩

namespace Registers

variable {N : Type} [DecidableEq N] (naming : Naming N)

def new : Registers N := ⟨.withBase ⟨naming.base, 0⟩, none⟩

/-! ## The state -/

def readTop : Build N (Val N (BitVec 8)) := fun (registers, m) => do
  let (value, top, m) ← Flags.readDirect naming.toNaming m registers.topFields topOffset
  return (value, { registers with topFields := top }, m)

def defineTop (value : Val N (BitVec 8)) : Build N Unit := fun (registers, m) => do
  let (top, m) ← Flags.defineDirect m registers.topFields topOffset value
  return ((), { registers with topFields := top }, m)

def getBank : Build N (Option (Bank N)) := return (← get).1.bank

def setBank (bank : Option (Bank N)) : Build N Unit := modify fun (registers, m) => ({ registers with bank := bank }, m)

/-- An access to the bank that was located. -/
def withBank {α : Type} (access : Memory → Bank N → α × Bank N) : Build N α := fun (registers, m) => do
  let bank ← registers.bank
  let (a, bank) := access m bank
  return (a, { registers with bank := some bank }, m)

/-! ## Addressing -/

/-- TOP's position. -/
def top : Build N (Val N (BitVec 32)) := do
  let top := naming.mask (← readTop naming) 7
  return ⟨naming.extend top.name, top.value.setWidth 32⟩

/-- Publishes unresolved guards and forgets only the register address mapping. -/
def rebase : Build N Unit := modify fun (registers, m) =>
  ({ registers with bank := none }, (registers.bank.map (·.publish naming m)).getD m)

/-- A different symbolic origin may alias any retained register, so its pending writes are resolved first. -/
def locate (address : Address N) : Build N Slot := do
  let retained ← getBank
  if retained.any (·.origin = address.origin) then
    return address.offset
  else
    let physical := naming.mask (naming.sum address.origin (naming.int 32 address.offset)) 7
    match retained.bind fun bank => knownSlot naming (naming.mask (naming.difference physical bank.origin) 7) with
    | some relative => return relative
    | none =>
        rebase naming
        let (origin, relative) :=
          match knownSlot naming physical with
          | some index => (naming.int 32 0, index)
          | none => (address.origin, address.offset)
        setBank (some (.new origin))
        return relative

/-- The physical slot of a stack position. -/
def slot (index : Val N (BitVec 32)) : Build N Slot := do
  let top ← top naming
  let retained ← getBank
  match knownSlot naming index, retained.bind (·.stackTop) with
  | some index, some stackTop => return stackTop + index
  | some index, none =>
      let slot ← locate naming ⟨top, index⟩
      withBank fun _ bank => ((), { bank with stackTop := some (slot - index) })
      return slot
  | none, _ => locate naming ⟨naming.mask (naming.sum top index) 7, slotAt (0 : BitVec 32)⟩

def physical : RegisterCode N → Build N Slot
  | .known code => locate naming ⟨naming.int 32 0, slotAt code⟩
  | .indexed code => locate naming ⟨naming.mask code 7, slotAt (0 : BitVec 32)⟩

/-- Advances the speculative stack mapping together with TOP. A suppressed movement sets ES, so the next waiting
    instruction exits before using that mapping. -/
def advance (delta : Int) (enabled : Val N Bool) : Build N Unit := do
  let retained ← getBank
  let updated ←
    match retained, retained.bind (·.stackTop) with
    | some bank, some stackTop => do
        setBank (some { bank with stackTop := some (stackTop + slotOf delta) })
        pure (bank.physical naming (stackTop + slotOf delta))
    | _, _ => do
        let top ← top naming
        pure (naming.mask (naming.sum top (naming.int 32 (slotOf delta))) 7)
  let previous ← readTop naming
  defineTop (enabled.select naming.toNaming ⟨naming.truncate updated.name, updated.value.setWidth 8⟩ previous)

/-! ## Accesses to a slot -/

def tag (slot : Slot) : Build N (Val N (BitVec 16)) := withBank fun m bank => bank.tag naming m slot

def setTag (slot : Slot) (tag : Val N (BitVec 16)) (enabled : Val N Bool) : Build N Unit :=
  withBank fun m bank => ((), bank.setTag naming m slot tag enabled)

def read (slot : Slot) : Build N (ExtendedValue N) := withBank fun m bank => bank.read naming m slot

def writeValue (slot : Slot) (value : ExtendedValue N) (enabled : Val N Bool) : Build N Unit :=
  withBank fun m bank => ((), bank.write naming m slot value enabled)

def write (slot : Slot) (value : ExtendedValue N) (tag : Val N (BitVec 16)) (enabled : Val N Bool) : Build N Unit := do
  writeValue naming slot value enabled
  setTag naming slot tag enabled

def discardWriteGuards : Build N Unit := do
  setBank ((← getBank).map (·.discardWriteGuards))

/-- Resets TOP and the tag word while retaining every payload. -/
def reset (tags : BitVec 16) : Build N Unit := do
  defineTop (naming.int 8 0)
  let bank := (← getBank).getD (.new (naming.int 32 0))
  let offset := naming.mask (naming.difference (naming.int 32 0) bank.origin) 7
  setBank (some (Bank.resetTags naming { bank with stackTop := knownSlot naming offset } tags))

/-- `initialize`. -/
def initializeState : Build N Unit := do
  rebase naming
  reset naming 0xffff

def publish (registers : Registers N) (m : Memory) : Memory :=
  let m := Ssa.execute Flags.byteValue m registers.topFields.publish
  (registers.bank.map (·.publish naming m)).getD m

/-! ## Whole images -/

/-- A bank for an image that does not depend on TOP. -/
def imageBank : Build N Unit := do
  setBank (some ((← getBank).getD (.new (naming.int 32 0))))

def tagWord : Build N (BitVec 16) := do
  imageBank naming
  withBank fun m bank => bank.readPackedTags naming m

def savedTagWord : Build N (BitVec 16) := do
  imageBank naming
  withBank fun m bank => bank.savedTagWord naming m

/-- `bank.stack_top = None`. -/
def forgetStackTop : Build N Unit := do
  setBank ((← getBank).map fun bank => { bank with stackTop := none })

/-- A save that does not wait can follow a suppressed movement, so positions are resolved against TOP itself. -/
def stackBits : Build N (List ExtendedBits) := do
  forgetStackTop
  (List.finRange 8).mapM fun (index : Fin 8) => do
    let slot ← slot naming (naming.int 32 index)
    return (← read naming slot).value

/-- The tag of a restored register: emptiness comes from the image, and an occupied one is classified. -/
def restoredTag (origin : Val N (BitVec 32)) (tags : Val N (BitVec 16)) (value : ExtendedValue N) (index : Fin 8) :
    Val N (BitVec 16) :=
  let physical := naming.mask (naming.sum origin (naming.int 32 index)) 7
  let empty : Val N Bool :=
    ⟨naming.empty tags.name physical.name, tags.value >>> (2 * physical.value.toNat) &&& 3 = emptyTag⟩
  empty.select naming.toNaming (naming.int 16 3) ⟨naming.classified value.name, value.value.tag⟩

/-- One register of a restored image. -/
def restoreRegister (origin : Val N (BitVec 32)) (tags : Val N (BitVec 16)) (values : Option (Fin 8 → ExtendedValue N))
    (index : Fin 8) : Build N Unit := do
  let slot ← locate naming ⟨origin, index⟩
  let value ←
    match values with
    | some values => do
        writeValue naming slot (values index) (naming.bool true)
        pure (values index)
    | none => read naming slot
  setTag naming slot (restoredTag naming origin tags value index) (naming.bool true)

/-- A full restore replaces every payload in stack order; otherwise they are kept in place. Both rebuild the occupied
    tags from the resulting values. -/
def restore (top : Val N (BitVec 32)) (tags : Val N (BitVec 16)) (values : Option (Fin 8 → ExtendedValue N)) :
    Build N Unit := do
  let position := naming.mask top 7
  defineTop ⟨naming.truncate position.name, position.value.setWidth 8⟩
  let origin ←
    match values with
    | some _ => do
        setBank (some (Bank.resetTags naming { Bank.new top with stackTop := some (slotAt (0 : BitVec 32)) } 0xffff))
        pure top
    | none => do
        forgetStackTop
        pure (naming.int 32 0)
  (List.finRange 8).forM (restoreRegister naming origin tags values)

end Registers

/-! ## What instructions use -/

/-- A value on the stack and its tag. -/
structure StackValue (N : Type) where
  value : ExtendedValue N
  tag : Val N (BitVec 16)

namespace X87Access

variable {N : Type} [DecidableEq N] (naming : Naming N)

/-- `value.classification().tag()`. -/
def classified (value : ExtendedValue N) : Val N (BitVec 16) := ⟨naming.classified value.name, value.value.tag⟩

/-- A condition that is constant while building. -/
def constantBits (condition : Val N Bool) : Option Bool :=
  if naming.isConstant condition.name then some condition.value else none

def both (condition enabled : Val N Bool) : Val N Bool :=
  ⟨naming.and condition.name enabled.name, condition.value && enabled.value⟩

def readStack (index : Val N (BitVec 32)) : Build N (StackValue N) := do
  let slot ← Registers.slot naming index
  let tag ← Registers.tag naming slot
  let value ← Registers.read naming slot
  return ⟨value, tag⟩

def pushTag : Build N (Val N (BitVec 16)) := do
  let target ← Registers.slot naming (naming.int 32 7)
  Registers.tag naming target

/-- The write and the movement of a push. -/
def pushGuarded (value : ExtendedValue N) (enabled : Val N Bool) : Build N Unit := do
  let target ← Registers.slot naming (naming.int 32 7)
  Registers.write naming target value (classified naming value) enabled
  Registers.advance naming (-1) enabled

/-- A conditional push may leave TOP unchanged with no exception pending, so that choice is published before relative
    slots are used again. -/
def pushWhen (value : ExtendedValue N) (condition enabled : Val N Bool) : Build N Unit := do
  let constant := constantBits naming condition
  if constant = some false then return ()
  else
    pushGuarded naming value (both naming condition enabled)
    if constant = some true then return () else Registers.rebase naming

/-- A disabled push must leave an exception pending. -/
def push (value : ExtendedValue N) (enabled : Val N Bool) : Build N Unit :=
  pushWhen naming value (naming.bool true) enabled

def writeStack (index : Val N (BitVec 32)) (value : StackValue N) (enabled : Val N Bool) : Build N Unit := do
  let slot ← Registers.slot naming index
  Registers.write naming slot value.value value.tag enabled

/-- An ordinary condition remains part of the value and tag after the guard is discarded. -/
def writeStackWhen (index : Val N (BitVec 32)) (value : StackValue N) (condition enabled : Val N Bool) : Build N Unit :=
  match constantBits naming condition with
  | some false => return ()
  | some true => writeStack naming index value enabled
  | none => do
      let previous ← readStack naming index
      let value : StackValue N :=
        ⟨condition.select naming.toNaming value.value previous.value, condition.select naming.toNaming value.tag previous.tag⟩
      writeStack naming index value enabled

/-- A disabled pop must leave an exception pending. All tags use the position on entry. -/
def popN (count : Nat) (enabled : Val N Bool) : Build N Unit := do
  if count = 0 then return ()
  else
    (List.range count).forM fun index => do
      let slot ← Registers.slot naming (naming.int 32 index)
      Registers.setTag naming slot (naming.int 16 3) enabled
    Registers.advance naming count enabled

def free (index : Val N (BitVec 32)) : Build N Unit := do
  let slot ← Registers.slot naming index
  Registers.setTag naming slot (naming.int 16 3) (naming.bool true)

def rotate (increment : Bool) : Build N Unit :=
  Registers.advance naming (if increment then 1 else -1) (naming.bool true)

def readMmx (register : RegisterCode N) : Build N (BitVec 64) := do
  let slot ← Registers.physical naming register
  return (← Registers.read naming slot).value.significand

/-- The value is named by its significand. -/
def writeMmx (register : RegisterCode N) (value : Val N (BitVec 64)) : Build N Unit := do
  let slot ← Registers.physical naming register
  Registers.writeValue naming slot ⟨value.name, ⟨value.value, 0xffff⟩⟩ (naming.bool true)

def completeMmx : Build N Unit := Registers.reset naming 0

def emptyMmx : Build N Unit := Registers.reset naming 0xffff

/-- Clearing ES does not prove that a suppressed write succeeded. -/
def clearExceptions : Build N Unit := Registers.rebase naming

def maskExceptions : Build N Unit := Registers.rebase naming

end X87Access

end Relocade.X87
