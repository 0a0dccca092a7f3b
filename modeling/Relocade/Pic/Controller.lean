import Mathlib.Data.Fin.Basic
import Mathlib.Data.List.FinRange
import Relocade.Run

/-!
# `Pic.Controller` — the PC master 8259A

Three registers decide which interrupt is delivered: requests, the mask, and the interrupts in service. The service
order is a rotation of the eight inputs. Commands and data bytes initialize the controller in up to four steps and
change its modes afterwards. A `Pic` shares one controller between the guest's ports, the interrupt lines of the
peripherals and the CPU, which leaves a waker behind when it finds nothing to deliver.
-/

namespace Relocade.Pic

/-- One of the eight inputs. -/
abbrev Irq := Fin 8

abbrev Byte := BitVec 8

/-- The register bit of an input. -/
def bit (irq : Irq) : Byte := 1#8 <<< irq.val

/-- Whether a register has the bit of an input set. -/
def has (bits : Byte) (irq : Irq) : Bool := bits &&& bit irq ≠ 0

def commandPort : Nat := 0x20
def maskPort : Nat := 0x21

-- Initialization Command Words (ICW1 and ICW4).
def icw1Initialize : Byte := 1#8 <<< 4
def icw1LevelTriggered : Byte := 1#8 <<< 3
def icw1SingleController : Byte := 1#8 <<< 1
def icw1ExpectIcw4 : Byte := 1
def icw4AutoEoi : Byte := 1#8 <<< 1

-- Operation Command Word 2: end of interrupt and priority rotation.
def ocw2Eoi : Byte := 1#8 <<< 5
def ocw2SpecificIrq : Byte := 1#8 <<< 6
def ocw2Rotate : Byte := 1#8 <<< 7

-- Operation Command Word 3: register reads, polling and special mask mode.
def ocw3Select : Byte := 1#8 <<< 3
def ocw3SelectReadRegister : Byte := 1#8 <<< 1
def ocw3ReadInService : Byte := 1
def ocw3Poll : Byte := 1#8 <<< 2
def ocw3ChangeSpecialMask : Byte := 1#8 <<< 6
def ocw3SpecialMask : Byte := 1#8 <<< 5
def pollHasInterrupt : Byte := 1#8 <<< 7

/-- What the next data byte means. -/
inductive Initialization where
  | ready
  | vectorBase (needsCascade needsIcw4 : Bool)
  | cascade (needsIcw4 : Bool)
  | mode
  deriving DecidableEq

/-- The controller's registers. `W` is the type of the CPU's wakers. -/
structure Controller (W : Type) where
  vectorBase : Byte
  -- interrupt mask, interrupt request and in-service registers (IMR/IRR/ISR)
  mask : Byte
  requests : Byte
  inService : Byte
  levels : Byte
  highestPriorityIrq : Irq
  levelTriggered : Bool
  autoEoi : Bool
  rotateOnAutoEoi : Bool
  specialMask : Bool
  readInService : Bool
  pollPending : Bool
  initialization : Initialization
  waker : Option W

namespace Controller

variable {W : Type} (c : Controller W)

/-- An initialized controller with every request masked. -/
def new (vectorBase : Byte) : Controller W where
  vectorBase := vectorBase
  mask := 0xFF
  requests := 0
  inService := 0
  levels := 0
  highestPriorityIrq := 0
  levelTriggered := false
  autoEoi := false
  rotateOnAutoEoi := false
  specialMask := false
  readInService := false
  pollPending := false
  initialization := .ready
  waker := none

/-- The first set input in service order. -/
def highestPriority (bits : Byte) : Option Irq :=
  ((List.finRange 8).map fun offset => c.highestPriorityIrq + offset).find? (has bits)

/-- Rank zero is highest; rotation wraps around the eight interrupt inputs. -/
def priorityRank (irq : Irq) : Nat := (irq - c.highestPriorityIrq).val

def setLowestPriority (irq : Irq) : Controller W := { c with highestPriorityIrq := irq + 1 }

def blockingService : Byte := if c.specialMask then c.inService &&& ~~~c.mask else c.inService

def nextIrq : Option Irq :=
  if c.initialization ≠ .ready then none
  else
    (c.highestPriority (c.requests &&& ~~~c.mask)).bind fun pending =>
      match c.highestPriority c.blockingService with
      | some active => if c.priorityRank pending ≥ c.priorityRank active then none else some pending
      | none => some pending

def refreshLevels : Controller W := if c.levelTriggered then { c with requests := c.levels } else c

/-- Takes the next request into service. -/
def acknowledge : Controller W × Option Irq :=
  match c.nextIrq with
  | none => (c, none)
  | some irq =>
      let c := { c with requests := c.requests &&& ~~~bit irq }
      let c :=
        if c.autoEoi then if c.rotateOnAutoEoi then c.setLowestPriority irq else c
        else { c with inService := c.inService ||| bit irq }
      (c.refreshLevels, some irq)

def recordLevel (irq : Irq) (high : Bool) : Controller W :=
  let c := { c with levels := if high then c.levels ||| bit irq else c.levels &&& ~~~bit irq }
  c.refreshLevels

def setLevel (irq : Irq) (high : Bool) : Controller W :=
  let c := if high ∧ ¬ has c.levels irq then { c with requests := c.requests ||| bit irq } else c
  c.recordLevel irq high

/-- A poll acknowledges; the other reads leave the interrupts alone. -/
def readCommand : Controller W × Byte :=
  if c.pollPending then
    let r := { c with pollPending := false }.acknowledge
    (r.1, match r.2 with
      | some irq => pollHasInterrupt ||| BitVec.ofNat 8 irq.val
      | none => 0)
  else if c.readInService then (c, c.inService)
  else (c, c.requests)

def initializeWith (value : Byte) : Controller W :=
  { (new 0 : Controller W) with
    waker := c.waker
    levels := c.levels
    mask := 0
    levelTriggered := value &&& icw1LevelTriggered ≠ 0
    initialization := .vectorBase (value &&& icw1SingleController = 0) (value &&& icw1ExpectIcw4 ≠ 0) }

/-- The input an OCW2 names in its low three bits. -/
def namedIrq (value : Byte) : Irq := ⟨value.toNat % 8, Nat.mod_lt _ (by decide)⟩

/-- Ends interrupts and rotates priorities. -/
def writeOcw2 (value : Byte) : Controller W :=
  let specific : Bool := value &&& ocw2SpecificIrq ≠ 0
  let rotate : Bool := value &&& ocw2Rotate ≠ 0
  if value &&& ocw2Eoi ≠ 0 then
    match if specific then some (namedIrq value) else c.highestPriority c.blockingService with
    | some irq =>
        let c := { c with inService := c.inService &&& ~~~bit irq }
        if rotate then c.setLowestPriority irq else c
    | none => c
  else if ¬ specific then { c with rotateOnAutoEoi := rotate }
  else if rotate then c.setLowestPriority (namedIrq value)
  else c

def writeOcw3 (value : Byte) : Controller W :=
  let c := if value &&& ocw3SelectReadRegister ≠ 0 then { c with readInService := value &&& ocw3ReadInService ≠ 0 } else c
  let c := if value &&& ocw3ChangeSpecialMask ≠ 0 then { c with specialMask := value &&& ocw3SpecialMask ≠ 0 } else c
  { c with pollPending := value &&& ocw3Poll ≠ 0 }

def command (value : Byte) : Controller W :=
  if value &&& icw1Initialize ≠ 0 then c.initializeWith value
  else if value &&& ocw3Select ≠ 0 then c.writeOcw3 value
  else c.writeOcw2 value

/-- Writes the mask, or the next initialization word. -/
def data (value : Byte) : Controller W :=
  let c : Controller W :=
    match c.initialization with
    | .ready => { c with mask := value }
    | .vectorBase needsCascade needsIcw4 =>
        -- ICW2 supplies the upper vector bits; the IRQ supplies the low three.
        { c with
          vectorBase := value &&& ~~~7#8
          initialization := if needsCascade then .cascade needsIcw4 else if needsIcw4 then .mode else .ready }
    -- only the master's eight inputs are connected by this device
    | .cascade needsIcw4 => { c with initialization := if needsIcw4 then .mode else .ready }
    | .mode => { c with autoEoi := value &&& icw4AutoEoi ≠ 0, initialization := .ready }
  c.refreshLevels

end Controller

/-! ## Operations -/

/-- What the guest, the peripherals and the CPU do with the device. -/
inductive Op (W : Type) where
  /-- A peripheral connects a line at its starting level. -/
  | connect (irq : Irq) (high : Bool)
  | unmaskIrq (irq : Irq)
  | setLevel (irq : Irq) (high : Bool)
  | readPort (port bytes : Nat)
  | writePort (port bytes : Nat) (value : BitVec 32)
  | pollInterrupt (waker : W)

/-- One low/high/low pulse of a line. -/
def pulse {W : Type} (irq : Irq) : List (Op W) := [.setLevel irq false, .setLevel irq true, .setLevel irq false]

/-- What an operation answers. -/
inductive Reply where
  | done
  | read (value : BitVec 32)
  /-- The vector handed to the CPU, or none while nothing can be delivered. -/
  | poll (vector : Option Byte)
  deriving DecidableEq

structure Outcome (W : Type) where
  controller : Controller W
  reply : Reply
  woken : Option W

/-- A change that may make an interrupt deliverable wakes the CPU's waker. -/
def update {W : Type} (c : Controller W) (change : Controller W → Controller W) : Outcome W :=
  let c := change c
  match c.nextIrq with
  | some _ => ⟨{ c with waker := none }, .done, c.waker⟩
  | none => ⟨c, .done, none⟩

def readPort {W : Type} (c : Controller W) (port bytes : Nat) : Outcome W :=
  if bytes ≠ 1 then ⟨c, .read (BitVec.allOnes 32), none⟩
  else if port = commandPort then
    let r := c.readCommand
    ⟨r.1, .read (r.2.setWidth 32), none⟩
  else if port = maskPort then ⟨c, .read (c.mask.setWidth 32), none⟩
  else ⟨c, .read (BitVec.allOnes 32), none⟩

def writePort {W : Type} (c : Controller W) (port bytes : Nat) (value : BitVec 32) : Outcome W :=
  if bytes ≠ 1 then ⟨c, .done, none⟩
  else
    update c fun c =>
      if port = commandPort then c.command (value.setWidth 8)
      else if port = maskPort then c.data (value.setWidth 8)
      else c

def pollInterrupt {W : Type} (c : Controller W) (waker : W) : Outcome W :=
  let c := { c with waker := some waker }
  let r := c.acknowledge
  ⟨r.1, .poll (r.2.map fun irq => c.vectorBase ||| BitVec.ofNat 8 irq.val), none⟩

def perform {W : Type} (c : Controller W) : Op W → Outcome W
  | .connect irq high => update c fun c => c.recordLevel irq high
  | .unmaskIrq irq => update c fun c => { c with mask := c.mask &&& ~~~bit irq }
  | .setLevel irq high => update c fun c => c.setLevel irq high
  | .readPort port bytes => readPort c port bytes
  | .writePort port bytes value => writePort c port bytes value
  | .pollInterrupt waker => pollInterrupt c waker

/-- The controller after an operation. -/
def step {W : Type} (c : Controller W) (op : Op W) : Controller W := (perform c op).controller

/-- The controller after a list of operations. -/
def run {W : Type} (c : Controller W) (ops : List (Op W)) : Controller W := Run.after step c ops

end Relocade.Pic
