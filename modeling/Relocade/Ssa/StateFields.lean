import Mathlib.Data.List.Sort
import Relocade.MemoryType
import Relocade.Run

/-!
# `Ssa.StateFields` — fields of the CPU state retained in SSA

`StateFields` keeps the current values of typed fields of one backing memory while straight-line code is built. It
emits loads and stores only where the backing memory must be consulted or synchronized. A value is known at build
time by the identity of its expression, `V`; what it denotes on a run is given by a valuation of `V`.
-/

namespace Relocade.Ssa

/-- A half-open range of field offsets. -/
structure Span where
  start : Nat
  stop : Nat
  deriving DecidableEq, Repr

namespace Span

def new (offset bytes : Nat) : Span := ⟨offset, offset + bytes⟩

def overlaps (a b : Span) : Bool := a.start < b.stop ∧ b.start < a.stop

def covers (a b : Span) : Bool := a.start ≤ b.start ∧ b.stop ≤ a.stop

end Span

inductive Address (V : Type) where
  | fixed (offset : Nat)
  /-- The displacement is relative to the span's start and includes any subfield offset. -/
  | indexed (span : Span) (displacement : V)

structure Location (V : Type) where
  type : MemoryType
  address : Address V

structure LocationKey where
  offset : Nat
  bytes : Nat
  deriving DecidableEq, Repr

/-- The key of a fixed field. -/
def LocationKey.of (offset : Nat) (type : MemoryType) : LocationKey := ⟨offset, type.bytes⟩

def LocationKey.span (key : LocationKey) : Span := .new key.offset key.bytes

/-! ## Tracked values -/

/-- A current definition and whether its owner has yet to publish it. -/
structure TrackedValue (V : Type) where
  value : V
  dirty : Bool
  deriving DecidableEq, Repr

namespace TrackedValue

variable {V : Type} [DecidableEq V]

def new (value : V) : TrackedValue V := ⟨value, false⟩

def defined (value : V) : TrackedValue V := { new value with dirty := true }

/-- Defining the same expression again leaves the dirty state alone; the flag says whether the value changed. -/
def define (tracked : TrackedValue V) (value : V) : TrackedValue V × Bool :=
  if tracked.value = value then (tracked, false) else (⟨value, true⟩, true)

def markClean (tracked : TrackedValue V) : TrackedValue V := { tracked with dirty := false }

end TrackedValue

/-! ## Emitted code -/

/-- An address operand: a base, or a base plus a displacement in 32-bit arithmetic. -/
inductive Pointer (V : Type) where
  | base (base : V)
  | displaced (base displacement : V)
  deriving DecidableEq, Repr

/-- A memory access at an address operand plus a constant offset, which does not wrap. -/
inductive Instr (V : Type) where
  | load (type : MemoryType) (pointer : Pointer V) (offset : Nat) (result : V)
  | store (type : MemoryType) (pointer : Pointer V) (offset : Nat) (value : V)
  deriving DecidableEq, Repr

/-! ## The cache -/

structure Definition (V : Type) where
  location : LocationKey
  type : MemoryType
  value : TrackedValue V
  firstWrite : Option Nat
  deriving DecidableEq, Repr

/-- The fields retained on one straight-line path, and how many of them have been written. -/
structure StateFields (V : Type) where
  base : V
  definitions : List (Definition V)
  writes : Nat

namespace Definition

variable {V : Type} (base : V) (entry : Definition V)

def span : Span := entry.location.span

def store : Instr V := .store entry.type (.base base) entry.location.offset entry.value.value

def markClean : Definition V := { entry with value := entry.value.markClean }

end Definition

/-- The order of first writes; an entry that was never written comes first. -/
def earlier : Option Nat → Option Nat → Bool
  | none, _ => true
  | some _, none => false
  | some a, some b => a ≤ b

namespace StateFields

variable {V : Type} [DecidableEq V] (s : StateFields V)

def withBase (base : V) : StateFields V := ⟨base, [], 0⟩

/-- The entries to publish, by their first write. -/
def dirty : List (Definition V) :=
  (s.definitions.filter fun entry => entry.value.dirty).insertionSort fun a b => earlier a.firstWrite b.firstWrite = true

/-- Whether an access of a span must first store an entry. A covering definition replaces every byte of the older
    value, a partial overlap must preserve its remaining bytes. -/
def mustStore (span : Span) (replacing : Bool) (entry : Definition V) : Bool :=
  span.overlaps entry.span && !(replacing && span.covers entry.span)

/-- Stores the dirty entries an access of the span would otherwise miss. -/
def flush (span : Span) (replacing : Bool) : List (Instr V) × StateFields V :=
  ((s.dirty.filter (mustStore span replacing)).map (·.store s.base),
    { s with definitions := s.definitions.map fun entry =>
        if entry.value.dirty && mustStore span replacing entry then entry.markClean else entry })

/-- Forgets the entries that a span overlaps. -/
def retain (span : Span) : StateFields V :=
  { s with definitions := s.definitions.filter fun entry => !span.overlaps entry.span }

def push (entry : Definition V) : StateFields V := { s with definitions := s.definitions ++ [entry] }

/-- Reads a field, giving its expression and the emitted code. `loaded` is the expression a load would get here.
    No result stands for the unreachable case of a retained value of another type. -/
def read (location : Location V) (loaded : V) : Option (V × List (Instr V) × StateFields V) :=
  match location.address with
  | .indexed span displacement =>
      let (code, s') := s.flush span false
      some (loaded, code ++ [.load location.type (.displaced s.base displacement) span.start loaded], s')
  | .fixed offset =>
      let key := LocationKey.of offset location.type
      match s.definitions.find? (·.location = key) with
      | some entry => if entry.type = location.type then some (entry.value.value, [], s) else none
      | none =>
          let (code, s') := s.flush key.span false
          some (loaded, code ++ [.load location.type (.base s.base) offset loaded],
            (s'.retain key.span).push ⟨key, location.type, .new loaded, none⟩)

/-- Redefines the entry of a location, which takes its place among the writes when it first changes. -/
def redefine (key : LocationKey) (entry : Definition V) (value : V) : StateFields V :=
  let (tracked, changed) := entry.value.define value
  let first : Bool := changed ∧ entry.firstWrite = none
  { s with
    definitions := s.definitions.map fun e =>
      if e.location = key then
        { entry with value := tracked, firstWrite := if first then some s.writes else entry.firstWrite }
      else e
    writes := if first then s.writes + 1 else s.writes }

/-- Defines a field, giving the emitted code. -/
def define (location : Location V) (value : V) : Option (List (Instr V) × StateFields V) :=
  match location.address with
  | .indexed span displacement =>
      let (code, s') := s.flush span false
      some (code ++ [.store location.type (.displaced s.base displacement) span.start value], s'.retain span)
  | .fixed offset =>
      let key := LocationKey.of offset location.type
      match s.definitions.find? (·.location = key) with
      | some entry => if entry.type = location.type then some ([], s.redefine key entry value) else none
      | none =>
          let (code, s') := s.flush key.span true
          let s' := (s'.retain key.span).push ⟨key, location.type, .defined value, some s'.writes⟩
          some (code, { s' with writes := s'.writes + 1 })

/-- Stores every dirty entry and leaves the definitions as they are. -/
def publish : List (Instr V) := s.dirty.map (·.store s.base)

end StateFields

/-! ## Straight-line paths -/

/-- A read, which a load would name `loaded`, or a definition. -/
inductive Access (V : Type) where
  | read (location : Location V) (loaded : V)
  | define (location : Location V) (value : V)

/-- What happens along a path: accesses, and publications of clones of the fields. -/
inductive Event (V : Type) where
  | access (access : Access V)
  | publishClone

/-- What a path has built: the typed expressions its reads gave, the code, and the fields at its end. -/
structure Built (V : Type) where
  reads : List (MemoryType × V)
  code : List (Instr V)
  fields : StateFields V

/-- Builds the accesses of a path. -/
def build {V : Type} [DecidableEq V] (s : StateFields V) : List (Event V) → Option (Built V)
  | [] => some ⟨[], [], s⟩
  | .access (.read location loaded) :: events => do
      let (value, code, s') ← s.read location loaded
      let rest ← build s' events
      some ⟨(location.type, value) :: rest.reads, code ++ rest.code, rest.fields⟩
  | .access (.define location value) :: events => do
      let (code, s') ← s.define location value
      let rest ← build s' events
      some { rest with code := code ++ rest.code }
  | .publishClone :: events => do
      let rest ← build s events
      some { rest with code := s.publish ++ rest.code }

/-! ## Running the code -/

section

variable {V : Type} (ρ : V → BitVec 128)

def Pointer.address : Pointer V → Nat
  | .base b => ((ρ b).setWidth 32).toNat
  | .displaced b d => ((ρ b).setWidth 32 + (ρ d).setWidth 32).toNat

/-- The memory after an instruction; a store discards the bits beyond its width. -/
def Instr.execute (m : Memory) : Instr V → Memory
  | .load .. => m
  | .store type pointer offset value => m.write (pointer.address ρ + offset) (Memory.lowBytes type.bytes (ρ value))

/-- The memory after a list of instructions. -/
def execute (m : Memory) (code : List (Instr V)) : Memory := Run.after (Instr.execute ρ) m code

/-- Whether every load of the code gives its expression the bytes it finds. -/
def Loads (m : Memory) : List (Instr V) → Prop
  | [] => True
  | .load type pointer offset result :: code =>
      Memory.lowBytes type.bytes (ρ result) = m.read (pointer.address ρ + offset) type.bytes ∧ Loads m code
  | instr@(.store ..) :: code => Loads (instr.execute ρ m) code

end

end Relocade.Ssa
