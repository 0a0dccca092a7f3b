import Relocade.MemoryType
import Relocade.Physical.Map

/-!
# `Physical.Transfer` — transfers through the installed table

A transfer within one page of backing memory is direct. All others go part by part: a byte of backing memory or a
callback for adjacent MMIO bytes, with a lookup before each part, since a callback may have changed the table.
-/

namespace Relocade.Physical

/-! ## The table -/

structure Entry where
  kind : BitVec 32
  /-- Bus address after the A20 gate, also used for MMIO callbacks. -/
  address : BitVec 32
  backing : BitVec 32
  deriving DecidableEq, Repr

namespace Entry

def readable (entry : Entry) : Bool := entry.kind = ramKind ∨ entry.kind = romKind

def backingAddress (entry : Entry) : BitVec 32 := entry.backing + (entry.address &&& pageMask)

end Entry

def lookup (table : Memory) (address : BitVec 32) : Entry :=
  let mask : BitVec 32 := table.load 32 PhysicalMemoryMap.a20MaskOffset 4
  let address := address &&& mask
  let offset := (address >>> pageShift) <<< 3
  ⟨table.load 32 offset.toNat 4, address, table.load 32 (offset.toNat + 4) 4⟩

inductive Intent where
  | read
  | readOrExecute
  | fetch
  | write
  deriving DecidableEq, Repr

structure DirectRange where
  unavailable : Bool
  physical : BitVec 32
  deriving DecidableEq, Repr

/-- Whether a span may be transferred directly, and where it then is. -/
def directRange (table : Memory) (address bytes : BitVec 32) (intent : Intent) : DirectRange :=
  let entry := lookup table address
  let allowed : Bool :=
    match intent with
    | .read | .readOrExecute | .fetch => entry.readable
    | .write => entry.kind = ramKind
  { unavailable := allowed = false ∨ bytes = 0 ∨ bytes ≥ pageBytes + 1 ∨ address &&& pageMask ≥ pageBytes + 1 - bytes
    physical := entry.backingAddress }

/-- How many bytes the next part transfers. -/
def transferBytes (table : Memory) (entry : Entry) (remaining : BitVec 32) : BitVec 32 :=
  let inPage := pageBytes - (entry.address &&& pageMask)
  let count :=
    if inPage < remaining then
      let nextAddress := entry.address + inPage
      if entry.kind = mmioKind then
        let next := lookup table nextAddress
        -- even two MMIO pages split when A20 wraps their bus addresses
        if next.kind = mmioKind ∧ next.address = nextAddress then remaining else inPage
      else inPage
    else remaining
  if entry.kind = mmioKind then count else 1

/-! ## Parts -/

/-- The memories the code transfers between and the state of the devices. -/
structure Bus (D : Type) where
  backing : Memory
  table : Memory
  device : D

/-- A table that holds the image of a constructed map, with A20 either way. -/
def Installed (table : Memory) : Prop :=
  ∃ regions map enabled, PhysicalMemoryMap.new regions = .ok map ∧
    table.read 0 PhysicalMemoryMap.byteLen = (map.setA20Enabled enabled).toBytes

/-- The MMIO callbacks. They may change everything, but leave a constructed map installed. -/
structure Host (D : Type) where
  readMmio (address bytes : BitVec 32) (bus : Bus D) : BitVec 64 × Bus D
  writeMmio (address bytes : BitVec 32) (value : BitVec 64) (bus : Bus D) : Bus D
  readMmio_installed {address bytes : BitVec 32} {bus : Bus D} :
    Installed bus.table → Installed (readMmio address bytes bus).2.table
  writeMmio_installed {address bytes : BitVec 32} {value : BitVec 64} {bus : Bus D} :
    Installed bus.table → Installed (writeMmio address bytes value bus).table

/-- Covers one through eight bytes without a shift by the carrier's full width. -/
def byteMask (bytes : BitVec 32) : BitVec 64 := BitVec.allOnes 64 >>> (((8 - bytes) <<< 3).toNat % 64)

section

variable {D : Type} (host : Host D) (bus : Bus D)

def readPart (entry : Entry) (bytes : BitVec 32) : BitVec 64 × Bus D :=
  if entry.kind = mmioKind then host.readMmio entry.address bytes bus
  else if entry.readable then ((bus.backing entry.backingAddress.toNat).setWidth 64, bus)
  else (BitVec.allOnes 64, bus)

def writePart (entry : Entry) (bytes : BitVec 32) (value : BitVec 64) : Bus D :=
  if entry.kind = mmioKind then host.writeMmio entry.address bytes (value &&& byteMask bytes) bus
  else if entry.kind = ramKind then
    { bus with backing := bus.backing.write entry.backingAddress.toNat [value.setWidth 8] }
  else bus

/-- The general reader, from the byte `done` on. It gives nothing when the fuel runs out. -/
def readLoop (address bytes : BitVec 32) : Nat → BitVec 32 → BitVec 64 → Bus D → Option (BitVec 64 × Bus D)
  | 0, _, _, _ => none
  | fuel + 1, done, value, bus =>
      let current := address + done
      let entry := lookup bus.table current
      let count := transferBytes bus.table entry (bytes - done)
      let (bits, bus') := readPart host bus entry count
      let value := value ||| ((bits &&& byteMask count) <<< ((done <<< 3).toNat % 64))
      let next := done + count
      if next = bytes then some (value, bus') else readLoop address bytes fuel next value bus'

/-- The general writer, from the byte `done` on. -/
def writeLoop (address bytes : BitVec 32) (value : BitVec 64) : Nat → BitVec 32 → Bus D → Option (Bus D)
  | 0, _, _ => none
  | fuel + 1, done, bus =>
      let current := address + done
      let entry := lookup bus.table current
      let count := transferBytes bus.table entry (bytes - done)
      let shifted := value >>> ((done <<< 3).toNat % 64)
      let bus' := writePart host bus entry count shifted
      let next := done + count
      if next = bytes then some bus' else writeLoop address bytes value fuel next bus'

/-! ## Typed transfers -/

/-- A typed read as calls of the general reader: one, or two for the halves of a vector. -/
def readParts (fuel : Nat) (type : MemoryType) (address : BitVec 32) : Option (BitVec 128 × Bus D) :=
  match type with
  | .vector => do
      let (low, bus) ← readLoop host (address + 0) 8 fuel 0 0 bus
      let (high, bus) ← readLoop host (address + 8) 8 fuel 0 0 bus
      return (low.setWidth 128 ||| (high.setWidth 128 <<< 64), bus)
  | type => do
      let (value, bus) ← readLoop host (address + 0) (BitVec.ofNat 32 type.bytes) fuel 0 0 bus
      -- truncated to the type
      return ((value.setWidth (8 * type.bytes)).setWidth 128, bus)

def writeParts (fuel : Nat) (type : MemoryType) (address : BitVec 32) (value : BitVec 128) : Option (Bus D) :=
  match type with
  | .vector => do
      let bus ← writeLoop host (address + 0) 8 (value.setWidth 64) fuel 0 bus
      writeLoop host (address + 8) 8 ((value >>> 64).setWidth 64) fuel 0 bus
  | type =>
      writeLoop host (address + 0) (BitVec.ofNat 32 type.bytes) ((value.setWidth (8 * type.bytes)).setWidth 64) fuel 0 bus

/-- A typed read at a linear address. -/
def read (fuel : Nat) (type : MemoryType) (address : BitVec 32) : Option (BitVec 128 × Bus D) :=
  let direct := directRange bus.table address (BitVec.ofNat 32 type.bytes) .read
  if direct.unavailable then readParts host bus fuel type address
  else some (bus.backing.load 128 direct.physical.toNat type.bytes, bus)

/-- A typed write at a linear address. -/
def write (fuel : Nat) (type : MemoryType) (address : BitVec 32) (value : BitVec 128) : Option (Bus D) :=
  let direct := directRange bus.table address (BitVec.ofNat 32 type.bytes) .write
  if direct.unavailable then writeParts host bus fuel type address value
  else some { bus with backing := bus.backing.write direct.physical.toNat (Memory.lowBytes type.bytes value) }

end

end Relocade.Physical
