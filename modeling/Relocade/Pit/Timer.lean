import Relocade.Pic.Arbitration
import Relocade.Pit.Counter

/-!
# `Pit.Timer` — the PC timer on its clock and its interrupt line

The timer synchronizes its two counters to the machine clock whenever it is touched or woken, then applies the access.
Channel 0 drives IRQ0 of a PIC. A synchronization asks for at most one pulse and then sets the line to OUT0.
-/

namespace Relocade

open Pic

namespace Pit

/-! ## The clock -/

/-- Nominal PC/AT input frequency. -/
def inputHz : Nat := 1193182

/-- Completed input clocks at a time in nanoseconds. -/
def clocksAt (time : Nat) : Nat := time * inputHz / 1000000000

/-! ## The registers -/

def channel0Port : Nat := 0x40
def channel2Port : Nat := 0x42
def controlPort : Nat := 0x43

def timerIrq : Irq := ⟨0, by decide⟩

end Pit

/-- The timer's registers as of its last synchronization. -/
structure Pit where
  atTime : Nat
  channel0 : Pit.Counter
  channel2 : Pit.Counter
  channel2Update : Option Pit.Counter
  deriving DecidableEq, Repr

namespace Pit

/-- Channel 0 starts in BIOS mode 3 with divisor 65536, already loaded and with OUT high. -/
def withClock (now : Nat) : Pit where
  atTime := now
  channel0 := ((((Counter.default.setGate true).program 0x36).write 0).write 0 |>.advance 1).1
  channel2 := .default
  channel2Update := none

section

variable {W : Type} (p : Pit)

/-- Advances both channels to the clock, with the operations on IRQ0. -/
def syncToClock (now : Nat) : Pit × List (Op W) :=
  let clocks := clocksAt now - clocksAt p.atTime
  -- one pending edge survives even if a delayed wake skipped whole periods
  let edge : List (Op W) :=
    match p.channel0.nextRisingEdge with
    | some edge => if edge ≤ clocks then pulse timerIrq else []
    | none => []
  let channel0 := (p.channel0.advance clocks).1
  ({ p with atTime := now, channel0 := channel0, channel2 := (p.channel2.advance clocks).1 },
    edge ++ [.setLevel timerIrq channel0.output])

/-- A read of a synchronized register. -/
def readRegister (port : Nat) : Pit × BitVec 32 :=
  if port = channel0Port then ({ p with channel0 := p.channel0.read.1 }, p.channel0.read.2.setWidth 32)
  else if port = channel2Port then ({ p with channel2 := p.channel2.read.1 }, p.channel2.read.2.setWidth 32)
  else (p, BitVec.allOnes 32)

/-- A read-back command: its selection bits are high-active, its requests low-active. -/
def readBack (value : BitVec 8) : Pit :=
  let latch (bit : BitVec 8) (counter : Counter) : Counter :=
    if value &&& bit ≠ 0 then counter.latch (value &&& 0x20 = 0) (value &&& 0x10 = 0) else counter
  if value &&& 1 = 0 then { p with channel0 := latch 2 p.channel0, channel2 := latch 8 p.channel2 } else p

/-- The channel a write names, unless it names none or is a read-back command. -/
def writtenChannel (port : Nat) (value : BitVec 8) : Option Nat :=
  if port = channel0Port then some 0
  else if port = channel2Port then some 2
  else if port = controlPort then some (value >>> 6).toNat
  else none

/-- A write of a synchronized register. -/
def writeRegister (port : Nat) (value : BitVec 8) : Pit × List (Op W) :=
  if port = controlPort ∧ (value >>> 6).toNat = 3 then (p.readBack value, [])
  else
    let access (counter : Counter) : Counter := if port = controlPort then counter.program value else counter.write value
    -- a latch command changes no programming
    let latches : Bool := port = controlPort ∧ value &&& 0x30 = 0
    match writtenChannel port value with
    | some 0 =>
        let p := { p with channel0 := access p.channel0 }
        (p, if latches then [] else [.setLevel timerIrq p.channel0.output])
    | some 2 =>
        let p := { p with channel2 := access p.channel2 }
        (if latches then p else { p with channel2Update := some p.channel2 }, [])
    | _ => (p, [])

end

/-! ## Events -/

/-- What happens to the timer and its PIC. A wake stands for every synchronization that does nothing else. -/
inductive Event (W : Type) where
  | wake (now : Nat)
  | readPort (now port bytes : Nat)
  | writePort (now port bytes : Nat) (value : BitVec 32)
  | setChannel2Gate (now : Nat) (high : Bool)
  | takeChannel2Update
  | pic (op : Op W)

namespace Event

variable {W : Type}

/-- The clock at an event that synchronizes. -/
def now? : Event W → Option Nat
  | wake now | readPort now _ _ | writePort now _ _ _ | setChannel2Gate now _ => some now
  | takeChannel2Update | pic _ => none

/-- The change an event makes to the synchronized timer. -/
def apply : Event W → Pit → Pit × List (Op W)
  | readPort _ port bytes, p => (if bytes = 1 then (p.readRegister port).1 else p, [])
  | writePort _ port bytes value, p => if bytes = 1 then p.writeRegister port (value.setWidth 8) else (p, [])
  | setChannel2Gate _ high, p =>
      let p := { p with channel2 := p.channel2.setGate high }
      ({ p with channel2Update := some p.channel2 }, [])
  | takeChannel2Update, p => ({ p with channel2Update := none }, [])
  | wake _, p | pic _, p => (p, [])

end Event

/-- The timer after an event, with the operations on IRQ0. -/
def step {W : Type} (p : Pit) (e : Event W) : Pit × List (Op W) :=
  match e.now? with
  | some now =>
      let (p, sync) := p.syncToClock now
      let (p, line) := e.apply p
      (p, sync ++ line)
  | none => e.apply p

/-- A timer and its PIC. -/
structure Timer (W : Type) where
  pit : Pit
  pic : Controller W

namespace Timer

variable {W : Type}

/-- A timer connected to a new PIC. -/
def withClock (now : Nat) (base : Byte) : Timer W :=
  let pit := Pit.withClock now
  ⟨pit, Pic.step (.new base) (.connect timerIrq pit.channel0.output)⟩

def step (t : Timer W) : Event W → Timer W
  | .pic op => { t with pic := Pic.step t.pic op }
  | e =>
      let (pit, ops) := t.pit.step e
      ⟨pit, Pic.run t.pic ops⟩

def run (t : Timer W) (events : List (Event W)) : Timer W := Run.after step t events

end Timer

end Pit

end Relocade
