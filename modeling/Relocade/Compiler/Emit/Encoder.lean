import Mathlib.Algebra.Group.Nat.Defs
import Relocade.Compiler.Emit.Locals

/-!
# `Compiler.Emit.Encoder` — function encoding with symbolic locals

Instructions are buffered without their accesses to slots, which are inserted once every slot has a local. Code is
structured: an execution is a path through it, whose reads give what was last written. Reusing locals changes no read.
-/

namespace Relocade.Compiler.Encoder

open Function (update update_self update_of_ne)
open List (mem_cons_self mem_cons_of_mem append_assoc nil_append append_nil length_append map_append mem_append_right)
open Locals (ValType)

inductive LocalOp where
  | get
  | set
  | tee
  deriving DecidableEq, Repr

inductive Instruction where
  | localGet (index : Nat)
  | localSet (index : Nat)
  | localTee (index : Nat)
  | block
  | loop
  | ifThen
  | otherwise
  | close
  | br (depth : Nat)
  | brIf (depth : Nat)
  | brTable (targets : List Nat) (default : Nat)
  /-- Returns, tail calls and traps. -/
  | leave (opcode : Nat)
  | other (opcode : Nat)
  deriving DecidableEq, Repr

def LocalOp.instruction (index : Nat) : LocalOp → Instruction
  | .get => .localGet index
  | .set => .localSet index
  | .tee => .localTee index

/-! ## The encoder -/

structure LocalEvent where
  /-- Position before deferred local instructions are inserted. -/
  offset : Nat
  slot : Nat
  operation : LocalOp
  deriving DecidableEq, Repr

inductive ControlFrame where
  | block
  | loop (firstAccess : Nat)
  deriving DecidableEq, Repr

/-- The code so far, with the accesses to slots kept apart. -/
structure FunctionEncoder where
  parameterCount : Nat
  slotTypes : List ValType
  /-- Encoded instructions other than accesses to slots. -/
  bytes : List Instruction
  events : List LocalEvent
  controls : List ControlFrame
  loopRanges : List (Nat × Nat)
  deriving DecidableEq, Repr

structure Function where
  /-- The types of the locals after the parameters. -/
  types : List ValType
  body : List Instruction
  deriving DecidableEq, Repr

def FunctionEncoder.new (parameterCount : Nat) (slotTypes : List ValType) : FunctionEncoder :=
  ⟨parameterCount, slotTypes, [], [], [], []⟩

def Instruction.access : Instruction → Option (LocalOp × Nat)
  | .localGet index => some (.get, index)
  | .localSet index => some (.set, index)
  | .localTee index => some (.tee, index)
  | _ => none

namespace FunctionEncoder

variable (e : FunctionEncoder)

def localEvent (slot : Nat) (operation : LocalOp) : FunctionEncoder :=
  { e with events := e.events ++ [⟨e.bytes.length, slot, operation⟩] }

def encode (instruction : Instruction) : FunctionEncoder := { e with bytes := e.bytes ++ [instruction] }

/-- Local lifetimes use access positions, independent of the number of instructions between accesses. An ending
    instruction that closes no control panics. -/
def control : Instruction → Option FunctionEncoder
  | .block | .ifThen => some { e with controls := .block :: e.controls }
  | .loop => some { e with controls := .loop e.events.length :: e.controls }
  | .close =>
      match e.controls with
      | [] => none
      | .block :: controls => some { e with controls := controls }
      | .loop firstAccess :: controls =>
          some { e with controls := controls, loopRanges := e.loopRanges ++ [(firstAccess, e.events.length)] }
  | _ => some e

/-- Local indices below the parameter count name parameters. Higher indices name slots. -/
def instruction (instruction : Instruction) : Option FunctionEncoder :=
  match instruction.access with
  | some (operation, index) =>
      if e.parameterCount ≤ index then some (e.localEvent (index - e.parameterCount) operation)
      else some (e.encode instruction)
  | none => (e.control instruction).map (·.encode instruction)

end FunctionEncoder

/-- Insert local instructions into the buffered code. -/
def insertLocals (index : Nat → Nat) (bytes : List Instruction) (previous : Nat) : List LocalEvent → List Instruction
  | [] => bytes.drop previous
  | event :: events =>
      (bytes.drop previous).take (event.offset - previous) ++
        event.operation.instruction (index event.slot) :: insertLocals index bytes event.offset events

/-- A local beyond the index space panics. -/
def FunctionEncoder.finish (e : FunctionEncoder) : Option Function :=
  match Locals.allocate (e.events.map LocalEvent.slot) e.slotTypes e.loopRanges with
  | none => none
  | some allocated =>
      if e.events.all fun event =>
          (allocated.indices event.slot).any fun index => e.parameterCount + index < 2 ^ 32 then
        some ⟨allocated.types, insertLocals (fun slot => e.parameterCount + (allocated.indices slot).getD 0)
          (e.bytes ++ [.close]) 0 e.events⟩
      else none

/-- The function encoded from instructions whose controls are closed. -/
def encodeFunction (parameterCount : Nat) (slotTypes : List ValType) (instructions : List Instruction) :
    Option Function :=
  match instructions.foldlM FunctionEncoder.instruction (.new parameterCount slotTypes) with
  | some e => if e.controls = [] then e.finish else none
  | none => none

/-! ## Structured code -/

/-- Structured code over slots. -/
inductive Code where
  | empty
  | access (operation : LocalOp) (index : Nat)
  | br (depth : Nat)
  | brIf (depth : Nat)
  | brTable (targets : List Nat) (default : Nat)
  | leave (opcode : Nat)
  | other (opcode : Nat)
  | seq (first second : Code)
  | block (body : Code)
  | loop (body : Code)
  | ifThen (body : Code)
  | ifElse (yes no : Code)
  deriving Repr

namespace Code

def instructions : Code → List Instruction
  | .empty => []
  | .access operation index => [operation.instruction index]
  | .br depth => [.br depth]
  | .brIf depth => [.brIf depth]
  | .brTable targets default => [.brTable targets default]
  | .leave opcode => [.leave opcode]
  | .other opcode => [.other opcode]
  | .seq first second => first.instructions ++ second.instructions
  | .block body => .block :: body.instructions ++ [.close]
  | .loop body => .loop :: body.instructions ++ [.close]
  | .ifThen body => .ifThen :: body.instructions ++ [.close]
  | .ifElse yes no => .ifThen :: yes.instructions ++ .otherwise :: no.instructions ++ [.close]

/-- Rename the locals of every access. -/
def rename (local' : Nat → Nat) : Code → Code
  | .access operation index => .access operation (local' index)
  | .seq first second => .seq (first.rename local') (second.rename local')
  | .block body => .block (body.rename local')
  | .loop body => .loop (body.rename local')
  | .ifThen body => .ifThen (body.rename local')
  | .ifElse yes no => .ifElse (yes.rename local') (no.rename local')
  | code => code

end Code

/-! ## Executions -/

/-- What an execution does with its locals. -/
inductive Event (V : Type) where
  | read (index : Nat)
  | write (index : Nat) (value : V)

/-- Where an execution of a part of the code ends: after it, at an enclosing label, or anywhere in it. -/
inductive Outcome where
  | next
  | branch (depth : Nat)
  | stopped
  deriving DecidableEq, Repr

/-- A branch to a frame's own label ends the frame. -/
def Outcome.leave : Outcome → Outcome
  | .branch 0 => .next
  | .branch (depth + 1) => .branch depth
  | outcome => outcome

/-- Executions of code, whatever its conditions and the values it writes. -/
inductive Path {V : Type} : Code → List (Event V) → Outcome → Prop where
  | stop (code : Code) : Path code [] .stopped
  | empty : Path .empty [] .next
  | get (index : Nat) : Path (.access .get index) [.read index] .next
  | set (index : Nat) (value : V) : Path (.access .set index) [.write index value] .next
  | tee (index : Nat) (value : V) : Path (.access .tee index) [.write index value] .next
  | br (depth : Nat) : Path (.br depth) [] (.branch depth)
  | brIf (depth : Nat) : Path (.brIf depth) [] (.branch depth)
  | brIfNot (depth : Nat) : Path (.brIf depth) [] .next
  | brTable (targets : List Nat) (default depth : Nat) (h : depth ∈ targets ++ [default]) :
      Path (.brTable targets default) [] (.branch depth)
  | other (opcode : Nat) : Path (.other opcode) [] .next
  | seq {first second : Code} {events events' : List (Event V)} {outcome : Outcome} (hfirst : Path first events .next)
      (hsecond : Path second events' outcome) : Path (.seq first second) (events ++ events') outcome
  | seqLeave {first second : Code} {events : List (Event V)} {outcome : Outcome} (hfirst : Path first events outcome)
      (hleave : outcome ≠ .next) : Path (.seq first second) events outcome
  | block {body : Code} {events : List (Event V)} {outcome : Outcome} (h : Path body events outcome) :
      Path (.block body) events outcome.leave
  | loop {body : Code} {events : List (Event V)} {outcome : Outcome} (h : Path body events outcome)
      (hleave : outcome ≠ .branch 0) : Path (.loop body) events outcome.leave
  | again {body : Code} {events events' : List (Event V)} {outcome : Outcome} (h : Path body events (.branch 0))
      (hagain : Path (.loop body) events' outcome) : Path (.loop body) (events ++ events') outcome
  | ifThen {body : Code} {events : List (Event V)} {outcome : Outcome} (h : Path body events outcome) :
      Path (.ifThen body) events outcome.leave
  | ifNot (body : Code) : Path (.ifThen body) [] .next
  | ifYes {yes no : Code} {events : List (Event V)} {outcome : Outcome} (h : Path yes events outcome) :
      Path (.ifElse yes no) events outcome.leave
  | ifNo {yes no : Code} {events : List (Event V)} {outcome : Outcome} (h : Path no events outcome) :
      Path (.ifElse yes no) events outcome.leave

section Values

variable {V : Type}

namespace Event

def apply (locals : Nat → V) : Event V → Nat → V
  | .read _ => locals
  | .write index value => update locals index value

def rename (local' : Nat → Nat) : Event V → Event V
  | .read index => .read (local' index)
  | .write index value => .write (local' index) value

end Event

/-- The locals after an execution. -/
def after (locals : Nat → V) (events : List (Event V)) : Nat → V := events.foldl Event.apply locals

/-- What the reads of an execution give, in order. -/
def reads (locals : Nat → V) : List (Event V) → List V
  | [] => []
  | .read index :: events => locals index :: reads locals events
  | .write index value :: events => reads (update locals index value) events

/-- Every read of a slot that `written` does not have follows a write to the slot. -/
def WrittenFirst (parameterCount : Nat) (written : Nat → Prop) (events : List (Event V)) : Prop :=
  ∀ before index rest, events = before ++ .read index :: rest → parameterCount ≤ index →
    written (index - parameterCount) ∨ ∃ value, .write index value ∈ before

end Values

/-! ## The code an encoder holds -/

/-- The local of a code's index when slots have locals. -/
def slotLocal (parameterCount : Nat) (index : Nat → Nat) (local' : Nat) : Nat :=
  if parameterCount ≤ local' then index (local' - parameterCount) else local'

namespace Code

variable (parameterCount : Nat)

/-- The slots that the code accesses, in the order of its instructions. -/
def slots : Code → List Nat
  | .access _ index => if parameterCount ≤ index then [index - parameterCount] else []
  | .seq first second => first.slots ++ second.slots
  | .block body => body.slots
  | .loop body => body.slots
  | .ifThen body => body.slots
  | .ifElse yes no => yes.slots ++ no.slots
  | _ => []

/-- The loops of the code at a position, each with the accesses in it. -/
def ranges : Code → Nat → List (Nat × Nat)
  | .seq first second, position =>
      first.ranges position ++ second.ranges (position + (first.slots parameterCount).length)
  | .block body, position => body.ranges position
  | .loop body, position => body.ranges position ++ [(position, position + (body.slots parameterCount).length)]
  | .ifThen body, position => body.ranges position
  | .ifElse yes no, position =>
      yes.ranges position ++ no.ranges (position + (yes.slots parameterCount).length)
  | _, _ => []

end Code

theorem insertLocals_append {index : Nat → Nat} {bytes rest : List Instruction} {prev : Nat}
    {events : List LocalEvent} (hevents : ∀ event ∈ events, event.offset ≤ bytes.length)
    (hprev : prev ≤ bytes.length) :
    insertLocals index (bytes ++ rest) prev events = insertLocals index bytes prev events ++ rest := by
  induction events generalizing prev with
  | nil => exact List.drop_append_of_le_length hprev
  | cons event events ih =>
    have hoff := hevents event mem_cons_self
    have htake : event.offset - prev ≤ (bytes.drop prev).length := by
      rw [List.length_drop]
      omega
    rw [insertLocals, insertLocals, List.drop_append_of_le_length hprev, List.take_append_of_le_length htake,
      ih (fun other hother => hevents other (mem_cons_of_mem _ hother)) hoff, append_assoc,
      List.cons_append]

theorem insertLocals_event {index : Nat → Nat} {bytes : List Instruction} {prev : Nat} {events : List LocalEvent}
    (hevents : ∀ event ∈ events, event.offset ≤ bytes.length) (hprev : prev ≤ bytes.length) (slot : Nat)
    (op : LocalOp) :
    insertLocals index bytes prev (events ++ [⟨bytes.length, slot, op⟩]) =
      insertLocals index bytes prev events ++ [op.instruction (index slot)] := by
  induction events generalizing prev with
  | nil =>
    rw [nil_append, insertLocals, insertLocals, insertLocals, List.drop_length,
      List.take_of_length_le (Nat.le_of_eq List.length_drop)]
  | cons event events ih =>
    rw [List.cons_append, insertLocals, insertLocals,
      ih (fun other hother => hevents other (mem_cons_of_mem _ hother)) (hevents event mem_cons_self),
      append_assoc, List.cons_append]

/-- What an encoder that was given a part of the code holds in addition. -/
structure Encodes (slots : List Nat) (ranges : List (Nat × Nat)) (controls : List ControlFrame)
    (instructions : (Nat → Nat) → List Instruction) (e e' : FunctionEncoder) : Prop where
  parameterCount : e'.parameterCount = e.parameterCount
  slotTypes : e'.slotTypes = e.slotTypes
  controls : e'.controls = controls
  slots : e'.events.map LocalEvent.slot = e.events.map LocalEvent.slot ++ slots
  ranges : e'.loopRanges = e.loopRanges ++ ranges
  offsets : ∀ event ∈ e'.events, event.offset ≤ e'.bytes.length
  inserted : ∀ index, insertLocals index e'.bytes 0 e'.events =
    insertLocals index e.bytes 0 e.events ++ instructions index

namespace Encodes

variable {slots slots' : List Nat} {ranges ranges' : List (Nat × Nat)} {controls controls' : List ControlFrame}
  {instructions instructions' : (Nat → Nat) → List Instruction} {e e' e'' : FunctionEncoder}

theorem refl (hoffs : ∀ event ∈ e.events, event.offset ≤ e.bytes.length) :
    Encodes [] [] e.controls (fun _ => []) e e where
  parameterCount := rfl
  slotTypes := rfl
  controls := rfl
  slots := (append_nil _).symm
  ranges := (append_nil _).symm
  offsets := hoffs
  inserted := fun _ => (append_nil _).symm

theorem trans (h : Encodes slots ranges controls instructions e e')
    (h' : Encodes slots' ranges' controls' instructions' e' e'') :
    Encodes (slots ++ slots') (ranges ++ ranges') controls' (fun index => instructions index ++ instructions' index)
      e e'' where
  parameterCount := h'.parameterCount.trans h.parameterCount
  slotTypes := h'.slotTypes.trans h.slotTypes
  controls := h'.controls
  slots := by rw [h'.slots, h.slots, append_assoc]
  ranges := by rw [h'.ranges, h.ranges, append_assoc]
  offsets := h'.offsets
  inserted := fun index => by rw [h'.inserted, h.inserted, append_assoc]

theorem length_events (h : Encodes slots ranges controls instructions e e') :
    e'.events.length = e.events.length + slots.length := by
  rw [← List.length_map (f := LocalEvent.slot), h.slots, length_append, List.length_map]

end Encodes

section Encoding

variable {e : FunctionEncoder} (hoffs : ∀ event ∈ e.events, event.offset ≤ e.bytes.length)

include hoffs

/-- An instruction that accesses no local is buffered after its effect on the controls. -/
theorem instruction_encodes {i : Instruction} (hacc : i.access = none) {controls : List ControlFrame}
    {ranges : List (Nat × Nat)}
    (hctl : e.control i = some { e with controls := controls, loopRanges := e.loopRanges ++ ranges }) :
    ∃ e', e.instruction i = some e' ∧ Encodes [] ranges controls (fun _ => [i]) e e' := by
  refine ⟨FunctionEncoder.encode { e with controls := controls, loopRanges := e.loopRanges ++ ranges } i,
    by rw [FunctionEncoder.instruction, hacc, hctl]; rfl, {
    parameterCount := rfl
    slotTypes := rfl
    controls := rfl
    slots := (append_nil _).symm
    ranges := rfl
    offsets := fun event hevent => ?_
    inserted := fun index => insertLocals_append hoffs (Nat.zero_le _) }⟩
  rw [FunctionEncoder.encode, length_append]
  exact (hoffs event hevent).trans (Nat.le_add_right ..)

/-- An instruction without an effect on the ranges of loops. -/
theorem plain_encodes {i : Instruction} (hacc : i.access = none) {controls : List ControlFrame}
    (hctl : e.control i = some { e with controls := controls }) :
    ∃ e', e.instruction i = some e' ∧ Encodes [] [] controls (fun _ => [i]) e e' :=
  instruction_encodes hoffs hacc (by rw [hctl, append_nil])

/-- An access to a parameter is buffered, an access to a slot is an event. -/
theorem access_encodes (op : LocalOp) (index : Nat) :
    ∃ e', e.instruction (op.instruction index) = some e' ∧
      Encodes (if e.parameterCount ≤ index then [index - e.parameterCount] else []) [] e.controls
        (fun indices => [op.instruction (slotLocal e.parameterCount indices index)]) e e' := by
  have hacc : (op.instruction index).access = some (op, index) := by cases op <;> rfl
  rw [FunctionEncoder.instruction, hacc]
  by_cases hslot : e.parameterCount ≤ index
  · refine ⟨e.localEvent (index - e.parameterCount) op, if_pos hslot, {
      parameterCount := rfl
      slotTypes := rfl
      controls := rfl
      slots := ?_
      ranges := (append_nil _).symm
      offsets := fun event hevent => ?_
      inserted := fun indices => ?_ }⟩
    · rw [if_pos hslot]
      exact map_append
    · rcases List.mem_append.mp hevent with hevent | hevent
      · exact hoffs event hevent
      · rw [List.mem_singleton.mp hevent]
        exact Nat.le_refl _
    · rw [slotLocal, if_pos hslot]
      exact insertLocals_event hoffs (Nat.zero_le _) _ op
  · refine ⟨e.encode (op.instruction index), if_neg hslot, {
      parameterCount := rfl
      slotTypes := rfl
      controls := rfl
      slots := ?_
      ranges := (append_nil _).symm
      offsets := fun event hevent => ?_
      inserted := fun indices => ?_ }⟩
    · rw [if_neg hslot]
      exact (append_nil _).symm
    · rw [FunctionEncoder.encode, length_append]
      exact (hoffs event hevent).trans (Nat.le_add_right ..)
    · rw [slotLocal, if_neg hslot]
      exact insertLocals_append hoffs (Nat.zero_le _)

end Encoding

theorem foldlM_append {instructions instructions' : List Instruction} {e e' e'' : FunctionEncoder}
    (h : instructions.foldlM FunctionEncoder.instruction e = some e')
    (h' : instructions'.foldlM FunctionEncoder.instruction e' = some e'') :
    (instructions ++ instructions').foldlM FunctionEncoder.instruction e = some e'' := by
  rw [List.foldlM_append, h]
  exact h'

theorem foldlM_single {i : Instruction} {e e' : FunctionEncoder} (h : e.instruction i = some e') :
    [i].foldlM FunctionEncoder.instruction e = some e' := by
  rw [List.foldlM_cons, h]
  rfl

/-- What encoding code adds. -/
def Encodable (code : Code) : Prop :=
  ∀ e : FunctionEncoder, (∀ event ∈ e.events, event.offset ≤ e.bytes.length) →
    ∃ e', code.instructions.foldlM FunctionEncoder.instruction e = some e' ∧
      Encodes (code.slots e.parameterCount) (code.ranges e.parameterCount e.events.length) e.controls
        (fun index => (code.rename (slotLocal e.parameterCount index)).instructions) e e'

variable {code : Code}

theorem Encodable.of_eq (h : Encodable code) {e : FunctionEncoder}
    (hoffs : ∀ event ∈ e.events, event.offset ≤ e.bytes.length) {parameterCount position : Nat}
    (hparams : e.parameterCount = parameterCount) (hlen : e.events.length = position) :
    ∃ e', code.instructions.foldlM FunctionEncoder.instruction e = some e' ∧
      Encodes (code.slots parameterCount) (code.ranges parameterCount position) e.controls
        (fun index => (code.rename (slotLocal parameterCount index)).instructions) e e' := by
  rw [← hparams, ← hlen]
  exact h e hoffs

theorem encodable_plain {i : Instruction} (hinstructions : code.instructions = [i])
    (hacc : i.access = none) (hctl : ∀ e : FunctionEncoder, e.control i = some e)
    (hslots : ∀ p, code.slots p = []) (hranges : ∀ p position, code.ranges p position = [])
    (hrename : ∀ local', code.rename local' = code) : Encodable code := by
  intro e hoffs
  obtain ⟨e', hinstr, henc⟩ := plain_encodes hoffs hacc (hctl e)
  refine ⟨e', by rw [hinstructions]; exact foldlM_single hinstr, ?_⟩
  simpa only [hslots, hranges, hrename, hinstructions] using henc

/-- A frame: an opening, what it encloses, and an end that closes it. -/
theorem frame_encodes {e : FunctionEncoder} (opening : Instruction) (inner : List Instruction)
    (closed : Nat → List (Nat × Nat)) (hoffs : ∀ event ∈ e.events, event.offset ≤ e.bytes.length)
    {frame : ControlFrame} {slots : List Nat} {ranges : List (Nat × Nat)} {renamed : (Nat → Nat) → List Instruction}
    (hacc : opening.access = none) (hopen : e.control opening = some { e with controls := frame :: e.controls })
    (hinner : ∀ e₁ : FunctionEncoder, (∀ event ∈ e₁.events, event.offset ≤ e₁.bytes.length) →
      e₁.parameterCount = e.parameterCount → e₁.events.length = e.events.length →
      ∃ e₂, inner.foldlM FunctionEncoder.instruction e₁ = some e₂ ∧ Encodes slots ranges e₁.controls renamed e₁ e₂)
    (hclose : ∀ e₂ : FunctionEncoder, e₂.controls = frame :: e.controls →
      e₂.control Instruction.close = some { e₂ with
        controls := e.controls
        loopRanges := e₂.loopRanges ++ closed e₂.events.length }) :
    ∃ e', (opening :: inner ++ [Instruction.close]).foldlM FunctionEncoder.instruction e = some e' ∧
      Encodes slots (ranges ++ closed (e.events.length + slots.length)) e.controls
        (fun index => opening :: renamed index ++ [Instruction.close]) e e' := by
  obtain ⟨e₁, hopening, hencodes₁⟩ := plain_encodes hoffs hacc hopen
  obtain ⟨e₂, hbody, hencodes₂⟩ := hinner e₁ hencodes₁.offsets hencodes₁.parameterCount hencodes₁.length_events
  obtain ⟨e₃, hclosing, hencodes₃⟩ := instruction_encodes (i := .close) hencodes₂.offsets rfl
    (hclose e₂ (hencodes₂.controls.trans hencodes₁.controls))
  rw [hencodes₂.length_events, hencodes₁.length_events] at hencodes₃
  refine ⟨e₃, foldlM_append (foldlM_append (foldlM_single hopening) hbody) (foldlM_single hclosing), ?_⟩
  have henc := (hencodes₁.trans hencodes₂).trans hencodes₃
  rw [nil_append, append_nil, nil_append] at henc
  exact henc

/-- Encoding the instructions of code. -/
theorem encodes (code : Code) : Encodable code := by
  induction code with
  | empty => exact fun e hoffs => ⟨e, rfl, .refl hoffs⟩
  | access operation index =>
    intro e hoffs
    obtain ⟨e', hinstr, henc⟩ := access_encodes hoffs operation index
    exact ⟨e', foldlM_single hinstr, henc⟩
  | br depth => exact encodable_plain rfl rfl (fun _ => rfl) (fun _ => rfl) (fun _ _ => rfl) fun _ => rfl
  | brIf depth => exact encodable_plain rfl rfl (fun _ => rfl) (fun _ => rfl) (fun _ _ => rfl) fun _ => rfl
  | brTable targets default =>
    exact encodable_plain rfl rfl (fun _ => rfl) (fun _ => rfl) (fun _ _ => rfl) fun _ => rfl
  | leave opcode => exact encodable_plain rfl rfl (fun _ => rfl) (fun _ => rfl) (fun _ _ => rfl) fun _ => rfl
  | other opcode => exact encodable_plain rfl rfl (fun _ => rfl) (fun _ => rfl) (fun _ _ => rfl) fun _ => rfl
  | seq first second ihfirst ihsecond =>
    intro e hoffs
    obtain ⟨e₁, hfst, hencodes₁⟩ := ihfirst e hoffs
    obtain ⟨e₂, hsnd, hencodes₂⟩ := ihsecond e₁ hencodes₁.offsets
    rw [hencodes₁.parameterCount, hencodes₁.length_events, hencodes₁.controls] at hencodes₂
    exact ⟨e₂, foldlM_append hfst hsnd, hencodes₁.trans hencodes₂⟩
  | block body ih =>
    intro e hoffs
    obtain ⟨e', hencoded, henc⟩ := frame_encodes .block _ (fun _ => []) hoffs rfl rfl
      (fun _ hoffsets₁ hparams hlen => ih.of_eq hoffsets₁ hparams hlen)
      fun e₂ hcontrols => by rw [FunctionEncoder.control, hcontrols, append_nil]
    rw [append_nil] at henc
    exact ⟨e', hencoded, henc⟩
  | loop body ih =>
    intro e hoffs
    exact frame_encodes .loop _ (fun last => [(e.events.length, last)]) hoffs rfl rfl
      (fun _ hoffsets₁ hparams hlen => ih.of_eq hoffsets₁ hparams hlen)
      fun e₂ hcontrols => by rw [FunctionEncoder.control, hcontrols]
  | ifThen body ih =>
    intro e hoffs
    obtain ⟨e', hencoded, henc⟩ := frame_encodes .ifThen _ (fun _ => []) hoffs rfl rfl
      (fun _ hoffsets₁ hparams hlen => ih.of_eq hoffsets₁ hparams hlen)
      fun e₂ hcontrols => by rw [FunctionEncoder.control, hcontrols, append_nil]
    rw [append_nil] at henc
    exact ⟨e', hencoded, henc⟩
  | ifElse yes no ihyes ihno =>
    intro e hoffs
    obtain ⟨e', hencoded, henc⟩ := frame_encodes .ifThen
      (yes.instructions ++ .otherwise :: no.instructions) (fun _ => []) hoffs rfl rfl
      (fun e₁ hoffsets₁ hparams hlen => by
        obtain ⟨e₂, hyes, hencodes₂⟩ := ihyes e₁ hoffsets₁
        obtain ⟨e₃, hotherwise, hencodes₃⟩ := plain_encodes (i := .otherwise) hencodes₂.offsets rfl rfl
        obtain ⟨e₄, hno, hencodes₄⟩ := ihno e₃ hencodes₃.offsets
        have henc := hencodes₂.trans (hencodes₃.trans hencodes₄)
        rw [hencodes₃.controls, hencodes₂.controls, hencodes₃.parameterCount, hencodes₂.parameterCount,
          hencodes₃.length_events, hencodes₂.length_events, hparams, hlen, nil_append,
          nil_append] at henc
        exact ⟨e₄, foldlM_append hyes (foldlM_append (foldlM_single hotherwise) hno), henc⟩)
      fun e₂ hcontrols => by rw [FunctionEncoder.control, hcontrols, append_nil]
    rw [append_nil] at henc
    exact ⟨e', hencoded, henc⟩

/-- Encoding is allocation, then the code with the locals of its slots, closed. -/
theorem encodeFunction_eq (parameterCount : Nat) (slotTypes : List ValType) :
    encodeFunction parameterCount slotTypes code.instructions =
      (Locals.allocate (code.slots parameterCount) slotTypes (code.ranges parameterCount 0)).bind fun allocated =>
        if (code.slots parameterCount).all fun slot =>
            (allocated.indices slot).any fun index => parameterCount + index < 2 ^ 32 then
          some ⟨allocated.types, (code.rename (slotLocal parameterCount fun slot =>
            parameterCount + (allocated.indices slot).getD 0)).instructions ++ [.close]⟩
        else none := by
  obtain ⟨e, hfold, henc⟩ := encodes code (.new parameterCount slotTypes) nofun
  have hslots : e.events.map LocalEvent.slot = code.slots parameterCount := henc.slots
  have hranges : e.loopRanges = code.ranges parameterCount 0 := henc.ranges
  have hcontrols : e.controls = [] := henc.controls
  have htypes : e.slotTypes = slotTypes := henc.slotTypes
  rw [encodeFunction, hfold]
  dsimp only
  rw [if_pos hcontrols, FunctionEncoder.finish, hslots, hranges, htypes]
  cases Locals.allocate (code.slots parameterCount) slotTypes (code.ranges parameterCount 0) with
  | none => rfl
  | some allocated =>
    dsimp only
    rw [insertLocals_append henc.offsets (Nat.zero_le _), henc.inserted, henc.parameterCount, Option.bind_some, ← hslots,
      List.all_map]
    rfl

/-- The finished function is the code with the locals of its slots, closed. -/
theorem encodeFunction_spec {parameterCount : Nat} {slotTypes : List ValType} {func : Function}
    (h : encodeFunction parameterCount slotTypes code.instructions = some func) :
    ∃ allocated, Locals.allocate (code.slots parameterCount) slotTypes (code.ranges parameterCount 0) =
        some allocated ∧ func.types = allocated.types ∧
      func.body = (code.rename (slotLocal parameterCount fun slot =>
        parameterCount + (allocated.indices slot).getD 0)).instructions ++ [.close] := by
  rw [encodeFunction_eq] at h
  obtain ⟨allocated, hallocated, h⟩ := Option.bind_eq_some_iff.mp h
  split at h
  · cases h
    exact ⟨allocated, hallocated, rfl, rfl⟩
  · cases h

/-- Code is encoded where its slots have types and every slot has room for a local. -/
theorem encodeFunction_typed {parameterCount : Nat} {slotTypes : List ValType}
    (hslots : ∀ slot ∈ code.slots parameterCount, slot < slotTypes.length)
    (hroom : parameterCount + slotTypes.length ≤ 2 ^ 32) :
    ∃ func, encodeFunction parameterCount slotTypes code.instructions = some func := by
  obtain ⟨allocated, hallocated, hlen⟩ := @Locals.allocate_typed _ _ (code.ranges parameterCount 0) hslots
  obtain ⟨_, _, hindexed, -⟩ := Locals.allocate_spec hallocated
  rw [encodeFunction_eq, hallocated]
  refine ⟨_, if_pos (List.all_eq_true.mpr fun slot hslot => ?_)⟩
  obtain ⟨-, index, hindex, htype⟩ := hindexed slot hslot
  rw [List.getElem?_eq_getElem (hslots slot hslot)] at htype
  have hlt := (List.getElem?_eq_some_iff.mp htype).1
  rw [hindex]
  exact decide_eq_true (by omega)

/-! ## Slots that are still needed -/

/-- Locals that serve every slot while it lives. -/
structure Reuse (accesses : List Nat) (loopRanges : List (Nat × Nat)) (first last index : Nat → Nat) : Prop where
  lives : ∀ slot ∈ accesses, Locals.Lives accesses loopRanges slot (first slot) (last slot)
  apart : ∀ slot ∈ accesses, ∀ other ∈ accesses, slot ≠ other → index slot = index other →
    last slot < first other ∨ last other < first slot

/-- A later access of the slot may come: after the position, or in another iteration of a loop that the slot enters
    alive. -/
def Needed (accesses : List Nat) (first : Nat → Nat) (loops : List (Nat × Nat)) (position slot : Nat) : Prop :=
  (∃ access, accesses[access]? = some slot ∧ position ≤ access) ∨
    ∃ range ∈ loops, first slot < range.1 ∧ ∃ access, accesses[access]? = some slot ∧ range.1 ≤ access

section Sharing

variable {accesses : List Nat} {loopRanges : List (Nat × Nat)} {first last index : Nat → Nat}
  {loops : List (Nat × Nat)} {position slot : Nat}

theorem Needed.mem (h : Needed accesses first loops position slot) : slot ∈ accesses := by
  rcases h with ⟨_, hacc, -⟩ | ⟨_, -, -, _, hacc, -⟩
  · exact List.mem_of_getElem? hacc
  · exact List.mem_of_getElem? hacc

/-- A slot lives as long as it is needed. -/
theorem Needed.le_last (hreuse : Reuse accesses loopRanges first last index)
    (hloops : ∀ range ∈ loops, range ∈ loopRanges ∧ position ≤ range.2)
    (h : Needed accesses first loops position slot) : position ≤ last slot := by
  have hlives := hreuse.lives slot h.mem
  rcases h with ⟨access, hacc, hle⟩ | ⟨range, hrng, hfst, access, hacc, hle⟩
  · exact hle.trans (hlives.within access hacc).2
  · obtain ⟨hmem, hend⟩ := hloops range hrng
    exact hend.trans (hlives.loops range hmem access hacc hfst hle)

/-- Moving forward, and out of loops, needs no slot anew. -/
theorem Needed.mono {position' : Nat} {loops' : List (Nat × Nat)} (hpos : position ≤ position')
    (hloops : ∀ range ∈ loops', range ∈ loops) (h : Needed accesses first loops' position' slot) :
    Needed accesses first loops position slot := by
  rcases h with ⟨access, hacc, hle⟩ | ⟨range, hrng, hneeded⟩
  · exact Or.inl ⟨access, hacc, hpos.trans hle⟩
  · exact Or.inr ⟨range, hloops range hrng, hneeded⟩

/-- A slot that enters a loop alive is needed throughout the loop if it is needed at its beginning. -/
theorem Needed.enter {head tail position' : Nat} (hfst : first slot < head)
    (h : Needed accesses first loops head slot) :
    Needed accesses first ((head, tail) :: loops) position' slot := by
  rcases h with ⟨access, hacc, hle⟩ | ⟨range, hrng, hneeded⟩
  · exact Or.inr ⟨(head, tail), mem_cons_self, hfst, access, hacc, hle⟩
  · exact Or.inr ⟨range, mem_cons_of_mem _ hrng, hneeded⟩

end Sharing

/-- At a position, the locals of slots that were written and are still needed hold their values. -/
structure Agrees {V : Type} (parameterCount : Nat) (accesses : List Nat) (first index : Nat → Nat)
    (loops : List (Nat × Nat)) (position : Nat) (written : Nat → Prop) (locals locals' : Nat → V) : Prop where
  parameters : ∀ local' < parameterCount, locals' local' = locals local'
  begun : ∀ slot, written slot → first slot < position
  agree : ∀ slot, written slot → Needed accesses first loops position slot →
    locals' (parameterCount + index slot) = locals (parameterCount + slot)

section Reads

variable {V : Type} {pc : Nat} {acc : List Nat} {lr : List (Nat × Nat)}
  {first last index : Nat → Nat} {loops : List (Nat × Nat)} {position : Nat} {w : Nat → Prop}
  {locals locals' : Nat → V}

theorem Agrees.forward {position' : Nat} {loops' : List (Nat × Nat)}
    (h : Agrees pc acc first index loops position w locals locals')
    (hpos : position ≤ position') (hloops : ∀ range ∈ loops', range ∈ loops) :
    Agrees pc acc first index loops' position' w locals locals' where
  parameters := h.parameters
  begun := fun slot hslot => Nat.lt_of_lt_of_le (h.begun slot hslot) hpos
  agree := fun slot hslot hneeded => h.agree slot hslot (hneeded.mono hpos hloops)

/-- Back at the head of a loop, what entered the loop agrees. -/
theorem Agrees.back {head tail : Nat} {more : Nat → Prop}
    (h : Agrees pc acc first index ((head, tail) :: loops) position
      (fun slot => w slot ∨ more slot) locals locals')
    (hentered : ∀ slot, w slot → first slot < head) :
    Agrees pc acc first index loops head w locals locals' where
  parameters := h.parameters
  begun := hentered
  agree := fun slot hslot hneeded => h.agree slot (Or.inl hslot) (hneeded.enter (hentered slot hslot))

theorem Agrees.weaken {written' : Nat → Prop}
    (h : Agrees pc acc first index loops position w locals locals')
    (hwr : ∀ slot, written' slot → w slot) :
    Agrees pc acc first index loops position written' locals locals' where
  parameters := h.parameters
  begun := fun slot hslot => h.begun slot (hwr slot hslot)
  agree := fun slot hslot => h.agree slot (hwr slot hslot)

/-- Writing a slot leaves the slots that are still needed alone. -/
theorem Agrees.write (hreuse : Reuse acc lr first last index)
    (hloops : ∀ range ∈ loops, range ∈ lr ∧ position + 1 ≤ range.2)
    (h : Agrees pc acc first index loops position w locals locals') {slot : Nat}
    (hacc : acc[position]? = some slot) (value : V) :
    Agrees pc acc first index loops (position + 1) (fun other => w other ∨ other = slot)
      (update locals (pc + slot) value)
      (update locals' (pc + index slot) value) := by
  have hmem := List.mem_of_getElem? hacc
  have hwithin := (hreuse.lives slot hmem).within position hacc
  refine ⟨fun local' hlocal => ?_, fun other hother => ?_, fun other hother hneeded => ?_⟩
  · rw [update_of_ne (by omega), update_of_ne (by omega)]
    exact h.parameters local' hlocal
  · rcases hother with hother | rfl
    · exact Nat.lt_succ_of_lt (h.begun other hother)
    · exact Nat.lt_succ_of_le hwithin.1
  · by_cases heq : other = slot
    · subst heq
      rw [update_self, update_self]
    · have hother := hother.resolve_right heq
      have hbegun := h.begun other hother
      have hlast := hneeded.le_last hreuse hloops
      -- both slots live at the write
      have hne : index other ≠ index slot := by
        intro hshared
        rcases hreuse.apart other hneeded.mem slot hmem heq hshared with hbef | hafter
        · omega
        · omega
      rw [update_of_ne (by omega), update_of_ne (by omega)]
      exact h.agree other hother (hneeded.mono (Nat.le_succ _) fun _ hrng => hrng)

variable (es events' : List (Event V))

theorem reads_append (locals : Nat → V) :
    reads locals (es ++ events') = reads locals es ++ reads (after locals es) events' := by
  induction es generalizing locals with
  | nil => rfl
  | cons event es ih =>
    cases event with
    | read index => exact congrArg (locals index :: ·) (ih locals)
    | write index value => exact ih _

theorem after_append (locals : Nat → V) : after locals (es ++ events') = after (after locals es) events' :=
  List.foldl_append

/-- The slots that an execution writes. -/
def Writes (parameterCount : Nat) (events : List (Event V)) (slot : Nat) : Prop :=
  ∃ value, Event.write (parameterCount + slot) value ∈ events

/-! ## Executions of parts of the code -/

/-- Where a part of the code stands: its accesses and loops are those of the whole code, and the loops around it do not
    end before it. -/
structure At (parameterCount : Nat) (accesses : List Nat) (loopRanges loops : List (Nat × Nat)) (position : Nat)
    (code : Code) : Prop where
  slots : ∀ (k : Nat) (slot : Nat), (code.slots parameterCount)[k]? = some slot → accesses[position + k]? = some slot
  ranges : ∀ range ∈ code.ranges parameterCount position, range ∈ loopRanges
  around : ∀ range ∈ loops, range ∈ loopRanges ∧ position + (code.slots parameterCount).length ≤ range.2

/-- No execution reads a slot that it has not written and that was not written before. -/
def Initialized (V : Type) (parameterCount : Nat) (written : Nat → Prop) (code : Code) : Prop :=
  ∀ (events : List (Event V)) (outcome : Outcome), Path code events outcome →
    WrittenFirst parameterCount written events

/-- An execution leaves the locals in agreement on what some execution of the code writes, the last iterations of its
    loops. -/
def Leaves (V : Type) (parameterCount : Nat) (accesses : List Nat) (first index : Nat → Nat) (loops : List (Nat × Nat))
    (position : Nat) (code : Code) (outcome : Outcome) (written : Nat → Prop) (locals locals' : Nat → V) : Prop :=
  outcome ≠ .stopped → ∃ (lasting : List (Event V)) (reached : Nat), Path code lasting outcome ∧ position ≤ reached ∧
    reached ≤ position + (code.slots parameterCount).length ∧
    (outcome = .next → reached = position + (code.slots parameterCount).length) ∧
    Agrees parameterCount accesses first index loops reached
      (fun slot => written slot ∨ Writes parameterCount lasting slot) locals locals'

theorem WrittenFirst.append {before es : List (Event V)}
    (h : WrittenFirst pc w (before ++ es)) :
    WrittenFirst pc (fun slot => w slot ∨ Writes pc before slot) es := by
  intro start index rest heq hidx
  rcases h (before ++ start) index rest (by rw [heq, append_assoc]) hidx with hwr | ⟨value, hval⟩
  · exact Or.inl (Or.inl hwr)
  · rcases List.mem_append.mp hval with hbef | hst
    · refine Or.inl (Or.inr ⟨value, ?_⟩)
      rw [Nat.add_sub_cancel' hidx]
      exact hbef
    · exact Or.inr ⟨value, hst⟩

/-- A first read is of a slot that was written before. -/
theorem WrittenFirst.read {index : Nat} (h : WrittenFirst (V := V) pc w [.read index])
    (hidx : pc ≤ index) : w (index - pc) :=
  (h [] index [] rfl hidx).resolve_right fun ⟨_, hval⟩ => nomatch hval

theorem Agrees.read
    (h : Agrees pc acc first index loops position w locals locals') (local' : Nat)
    (hacc : pc ≤ local' → acc[position]? = some (local' - pc))
    (hwr : pc ≤ local' → w (local' - pc)) :
    locals local' = locals' (slotLocal pc (fun slot => pc + index slot) local') := by
  rw [slotLocal]
  split
  · next hslot =>
      rw [h.agree _ (hwr hslot) (Or.inl ⟨position, hacc hslot, Nat.le_refl _⟩), Nat.add_sub_cancel' hslot]
  · next hparam => exact (h.parameters local' (Nat.not_le.mp hparam)).symm

/-- The events of an execution with the locals of its slots. -/
def located (parameterCount : Nat) (index : Nat → Nat) (events : List (Event V)) : List (Event V) :=
  events.map (Event.rename (slotLocal parameterCount fun slot => parameterCount + index slot))

/-- Code that accesses nothing leaves the locals as they were. -/
theorem leaves_plain {code : Code} {outcome : Outcome} (hpath : Path (V := V) code [] outcome)
    (hslots : code.slots pc = [])
    (h : Agrees pc acc first index loops position w locals locals') :
    Leaves V pc acc first index loops position code outcome w locals locals' := by
  intro _
  refine ⟨[], position, hpath, Nat.le_refl _, Nat.le_add_right .., fun _ => ?_, h.weaken fun slot hslot => ?_⟩
  · rw [hslots]
    rfl
  · exact hslot.resolve_right fun ⟨_, hval⟩ => nomatch hval

/-- Writing a local, in the code and where its slot is. -/
theorem leaves_write (hreuse : Reuse acc lr first last index) {op : LocalOp} {local' : Nat}
    {value : V} (hpath : Path (.access op local') [.write local' value] .next)
    (hat : At pc acc lr loops position (.access op local'))
    (h : Agrees pc acc first index loops position w locals locals') :
    Leaves V pc acc first index loops position (.access op local') .next w
      (update locals local' value)
      (update locals' (slotLocal pc (fun slot => pc + index slot) local') value) := by
  intro _
  by_cases hslot : pc ≤ local'
  · have hslots : (Code.access op local').slots pc = [local' - pc] := if_pos hslot
    have hacc : acc[position]? = some (local' - pc) := hat.slots 0 _ (by rw [hslots]; rfl)
    have haround := hat.around
    rw [hslots] at haround
    have hwrite := h.write hreuse haround hacc value
    rw [Nat.add_sub_cancel' hslot] at hwrite
    rw [slotLocal, if_pos hslot]
    refine ⟨_, position + 1, hpath, Nat.le_succ _, by rw [hslots]; exact Nat.le_refl _, fun _ => by rw [hslots]; rfl,
      hwrite.weaken fun slot hwr => ?_⟩
    rcases hwr with hwr | ⟨other, hother⟩
    · exact Or.inl hwr
    · cases List.mem_singleton.mp hother
      exact Or.inr (Nat.add_sub_cancel_left ..).symm
  · have hslots : (Code.access op local').slots pc = [] := if_neg hslot
    rw [slotLocal, if_neg hslot]
    refine ⟨_, position, hpath, Nat.le_refl _, Nat.le_add_right .., fun _ => by rw [hslots]; rfl, ?_, ?_, ?_⟩
    · intro parameter hparam
      by_cases heq : parameter = local'
      · rw [heq, update_self, update_self]
      · rw [update_of_ne heq, update_of_ne heq]
        exact h.parameters parameter hparam
    · rintro slot (hwr | ⟨other, hother⟩)
      · exact h.begun slot hwr
      · cases List.mem_singleton.mp hother
        exact absurd (Nat.le_add_right ..) hslot
    · rintro slot (hwr | ⟨other, hother⟩) hneeded
      · rw [update_of_ne (by omega), update_of_ne (by omega)]
        exact h.agree slot hwr hneeded
      · cases List.mem_singleton.mp hother
        exact absurd (Nat.le_add_right ..) hslot

/-- Leaving a part of the code leaves the code. -/
theorem Leaves.lift {code part : Code} {outcome outcome' : Outcome} {loops' : List (Nat × Nat)} {position' : Nat}
    (h : Leaves V pc acc first index loops' position' part outcome w locals locals')
    (hpath : ∀ es : List (Event V), Path part es outcome → Path code es outcome')
    (hstopped : outcome = .stopped → outcome' = .stopped) (hst : position ≤ position')
    (hend : position' + (part.slots pc).length ≤ position + (code.slots pc).length)
    (hloops : ∀ range ∈ loops, range ∈ loops') :
    Leaves V pc acc first index loops position code outcome' w locals locals' := by
  intro hne
  obtain ⟨lasting, reached, hlasting, hfrom, hto, -, hagr⟩ := h (mt hstopped hne)
  by_cases hnext : outcome' = .next
  · exact ⟨lasting, _, hpath lasting hlasting, Nat.le_add_right .., Nat.le_refl _, fun _ => rfl,
      hagr.forward (hto.trans hend) hloops⟩
  · exact ⟨lasting, reached, hpath lasting hlasting, hst.trans hfrom, hto.trans hend, fun h => absurd h hnext,
      hagr.forward (Nat.le_refl _) hloops⟩

theorem Initialized.part {code part : Code} (h : Initialized V pc w code)
    (hpath : ∀ (es : List (Event V)) outcome, Path part es outcome → ∃ outcome', Path code es outcome') :
    Initialized V pc w part := by
  intro es outcome hpart
  obtain ⟨outcome', hcode⟩ := hpath es outcome hpart
  exact h es outcome' hcode

theorem Initialized.seqFirst {first second : Code} (h : Initialized V pc w (.seq first second)) :
    Initialized V pc w first := by
  refine h.part fun es outcome hpath => ?_
  by_cases hnext : outcome = .next
  · subst hnext
    exact ⟨.stopped, by rw [← append_nil es]; exact hpath.seq (.stop second)⟩
  · exact ⟨outcome, hpath.seqLeave hnext⟩

theorem Initialized.seqSecond {first second : Code} (h : Initialized V pc w (.seq first second))
    {before : List (Event V)} (hfst : Path first before .next) :
    Initialized V pc (fun slot => w slot ∨ Writes pc before slot) second :=
  fun es outcome hpath => (h (before ++ es) outcome (hfst.seq hpath)).append

theorem Initialized.body {body : Code} (h : Initialized V pc w (.loop body)) : Initialized V pc w body := by
  refine h.part fun es outcome hpath => ?_
  by_cases hagain : outcome = .branch 0
  · subst hagain
    exact ⟨.stopped, by rw [← append_nil es]; exact hpath.again (.stop (.loop body))⟩
  · exact ⟨_, hpath.loop hagain⟩

theorem At.seqFirst {first second : Code}
    (h : At pc acc lr loops position (.seq first second)) :
    At pc acc lr loops position first where
  slots := fun k slot hslot => h.slots k slot (by
    rw [Code.slots, List.getElem?_append_left (List.getElem?_eq_some_iff.mp hslot).1]
    exact hslot)
  ranges := fun range hrng => h.ranges range (List.mem_append_left _ hrng)
  around := fun range hrng => by
    obtain ⟨hmem, hend⟩ := h.around range hrng
    rw [Code.slots, length_append] at hend
    exact ⟨hmem, by omega⟩

theorem At.seqSecond {first second : Code}
    (h : At pc acc lr loops position (.seq first second)) :
    At pc acc lr loops (position + (first.slots pc).length) second where
  slots := fun k slot hslot => by
    rw [Nat.add_assoc]
    refine h.slots _ slot ?_
    rw [Code.slots, List.getElem?_append_right (Nat.le_add_right ..), Nat.add_sub_cancel_left]
    exact hslot
  ranges := fun range hrng => h.ranges range (mem_append_right _ hrng)
  around := fun range hrng => by
    obtain ⟨hmem, hend⟩ := h.around range hrng
    rw [Code.slots, length_append] at hend
    exact ⟨hmem, by omega⟩

/-- The body of a loop stands in the loop. -/
theorem At.body {body : Code} (h : At pc acc lr loops position (.loop body)) :
    At pc acc lr ((position, position + (body.slots pc).length) :: loops)
      position body where
  slots := h.slots
  ranges := fun range hrng => h.ranges range (List.mem_append_left _ hrng)
  around := by
    intro range hrng
    rcases List.mem_cons.mp hrng with rfl | hrng
    · exact ⟨h.ranges _ (mem_append_right _ (List.mem_singleton_self _)), Nat.le_refl _⟩
    · exact h.around range hrng

/-- At its head, a loop needs nothing that is not needed without it. -/
theorem Agrees.enter {tail : Nat}
    (h : Agrees pc acc first index loops position w locals locals') :
    Agrees pc acc first index ((position, tail) :: loops) position w locals locals' where
  parameters := h.parameters
  begun := h.begun
  agree := by
    intro slot hslot hneeded
    refine h.agree slot hslot ?_
    rcases hneeded with hacc | ⟨range, hrng, hfst, hacc⟩
    · exact Or.inl hacc
    · rcases List.mem_cons.mp hrng with rfl | hrng
      · exact Or.inl hacc
      · exact Or.inr ⟨range, hrng, hfst, hacc⟩

theorem located_append :
    located pc index (es ++ events') = located pc index es ++ located pc index events' :=
  map_append

/-- Executions read the same values, and what a later part of the code may read keeps agreeing. -/
theorem path_agrees (hreuse : Reuse acc lr first last index) {code : Code} {es : List (Event V)}
    {outcome : Outcome} (hpath : Path code es outcome)
    (hat : At pc acc lr loops position code)
    (hinit : Initialized V pc w code)
    (h : Agrees pc acc first index loops position w locals locals') :
    reads locals es = reads locals' (located pc index es) ∧
      Leaves V pc acc first index loops position code outcome w (after locals es)
        (after locals' (located pc index es)) := by
  -- by the execution; only a write hands its slot on, and a part of the code stays within its own positions
  induction hpath generalizing loops position w locals locals' with
  | stop code => exact ⟨rfl, fun hstopped => absurd rfl hstopped⟩
  | empty => exact ⟨rfl, leaves_plain .empty rfl h⟩
  | get local' =>
    have hread := h.read local'
      (fun hslot => hat.slots 0 _ (by rw [Code.slots, if_pos hslot]; rfl))
      (fun hslot => (hinit [.read local'] .next (.get local')).read hslot)
    refine ⟨congrArg (· :: []) hread, fun _ => ⟨[.read local'], _, .get local', Nat.le_add_right .., Nat.le_refl _,
      fun _ => rfl, ?_⟩⟩
    refine (h.forward (Nat.le_add_right ..) fun _ hrng => hrng).weaken fun slot hslot => ?_
    rcases hslot with hslot | ⟨value, hval⟩
    · exact hslot
    · cases List.mem_singleton.mp hval
  | set local' value => exact ⟨rfl, leaves_write hreuse (.set local' value) hat h⟩
  | tee local' value => exact ⟨rfl, leaves_write hreuse (.tee local' value) hat h⟩
  | br depth => exact ⟨rfl, leaves_plain (.br depth) rfl h⟩
  | brIf depth => exact ⟨rfl, leaves_plain (.brIf depth) rfl h⟩
  | brIfNot depth => exact ⟨rfl, leaves_plain (.brIfNot depth) rfl h⟩
  | brTable targets default depth hdepth => exact ⟨rfl, leaves_plain (.brTable targets default depth hdepth) rfl h⟩
  | other opcode => exact ⟨rfl, leaves_plain (.other opcode) rfl h⟩
  | @seq firstCode secondCode es events' outcome hfst hsnd ihfirst ihsecond =>
    -- what the first part surely writes is initialized in the second
    obtain ⟨hrd, hleaves⟩ := ihfirst hat.seqFirst hinit.seqFirst h
    obtain ⟨lasting, reached, hlasting, -, -, hreached, hagr⟩ := hleaves (by decide)
    obtain rfl := hreached rfl
    obtain ⟨hrd', hleaves'⟩ := ihsecond hat.seqSecond (hinit.seqSecond hlasting) hagr
    rw [located_append, reads_append, reads_append, after_append, after_append, hrd, hrd']
    refine ⟨rfl, fun hne => ?_⟩
    obtain ⟨lasting', reached', hlasting', hfrom, hto, hnext, hagr'⟩ := hleaves' hne
    have hlen : position + (firstCode.slots pc).length + (secondCode.slots pc).length =
        position + ((Code.seq firstCode secondCode).slots pc).length := by
      rw [Code.slots, length_append, Nat.add_assoc]
    rw [hlen] at hto hnext
    refine ⟨lasting ++ lasting', reached', hlasting.seq hlasting', (Nat.le_add_right ..).trans hfrom, hto, hnext,
      hagr'.weaken fun slot hslot => ?_⟩
    rcases hslot with hslot | ⟨value, hval⟩
    · exact Or.inl (Or.inl hslot)
    · rcases List.mem_append.mp hval with hval | hval
      · exact Or.inl (Or.inr ⟨value, hval⟩)
      · exact Or.inr ⟨value, hval⟩
  | seqLeave hfst hleave ih =>
    obtain ⟨hrd, hleaves⟩ := ih hat.seqFirst hinit.seqFirst h
    refine ⟨hrd, hleaves.lift (fun _ hpath => hpath.seqLeave hleave) id (Nat.le_refl _) ?_ fun _ hrng => hrng⟩
    rw [Code.slots, length_append]
    omega
  | block hbody ih =>
    obtain ⟨hrd, hleaves⟩ := ih ⟨hat.slots, hat.ranges, hat.around⟩
      (hinit.part fun _ _ hpath => ⟨_, hpath.block⟩) h
    exact ⟨hrd, hleaves.lift (fun _ hpath => hpath.block) (fun heq => by rw [heq]; rfl) (Nat.le_refl _)
      (Nat.le_refl _) fun _ hrng => hrng⟩
  | loop hbody hleave ih =>
    obtain ⟨hrd, hleaves⟩ := ih hat.body hinit.body h.enter
    exact ⟨hrd, hleaves.lift (fun _ hpath => hpath.loop hleave) (fun heq => by rw [heq]; rfl) (Nat.le_refl _)
      (Nat.le_refl _) fun _ hrng => mem_cons_of_mem _ hrng⟩
  | again hbody hagain ih ihagain =>
    -- the next iteration starts like the first, with what was w before the loop
    obtain ⟨hrd, hleaves⟩ := ih hat.body hinit.body h.enter
    obtain ⟨lasting, reached, -, -, -, -, hagr⟩ := hleaves (by decide)
    obtain ⟨hrd', hleaves'⟩ := ihagain hat hinit (hagr.back h.begun)
    rw [located_append, reads_append, reads_append, after_append, after_append, hrd, hrd']
    exact ⟨rfl, hleaves'⟩
  | ifThen hbody ih =>
    obtain ⟨hrd, hleaves⟩ := ih ⟨hat.slots, hat.ranges, hat.around⟩
      (hinit.part fun _ _ hpath => ⟨_, hpath.ifThen⟩) h
    exact ⟨hrd, hleaves.lift (fun _ hpath => hpath.ifThen) (fun heq => by rw [heq]; rfl) (Nat.le_refl _)
      (Nat.le_refl _) fun _ hrng => hrng⟩
  | ifNot body =>
    refine ⟨rfl, fun _ => ⟨[], _, .ifNot body, Nat.le_add_right .., Nat.le_refl _, fun _ => rfl, ?_⟩⟩
    exact (h.forward (Nat.le_add_right ..) fun _ hrng => hrng).weaken fun slot hslot =>
      hslot.resolve_right fun ⟨_, hval⟩ => nomatch hval
  | @ifYes yes no es outcome hyes ih =>
    have hseq : At pc acc lr loops position (.seq yes no) :=
      ⟨hat.slots, hat.ranges, hat.around⟩
    obtain ⟨hrd, hleaves⟩ := ih hseq.seqFirst (hinit.part fun _ _ hpath => ⟨_, hpath.ifYes⟩) h
    refine ⟨hrd, hleaves.lift (fun _ hpath => hpath.ifYes) (fun heq => by rw [heq]; rfl) (Nat.le_refl _) ?_
      fun _ hrng => hrng⟩
    rw [Code.slots, length_append]
    omega
  | @ifNo yes no es outcome hno ih =>
    have hseq : At pc acc lr loops position (.seq yes no) :=
      ⟨hat.slots, hat.ranges, hat.around⟩
    obtain ⟨hrd, hleaves⟩ := ih hseq.seqSecond (hinit.part fun _ _ hpath => ⟨_, hpath.ifNo⟩)
      (h.forward (Nat.le_add_right ..) fun _ hrng => hrng)
    refine ⟨hrd, hleaves.lift (fun _ hpath => hpath.ifNo) (fun heq => by rw [heq]; rfl) (Nat.le_add_right ..) ?_
      fun _ hrng => hrng⟩
    rw [Code.slots, length_append]
    omega

end Reads

/-! ## The finished function -/

/-- Executions of code with renamed locals are those of the code, renamed. -/
theorem path_rename {V : Type} (local' : Nat → Nat) {events : List (Event V)} {outcome : Outcome}
    (h : Path code events outcome) : Path (code.rename local') (events.map (Event.rename local')) outcome := by
  induction h with
  | stop code => exact .stop _
  | empty => exact .empty
  | get index => exact .get _
  | set index value => exact .set _ value
  | tee index value => exact .tee _ value
  | br depth => exact .br depth
  | brIf depth => exact .brIf depth
  | brIfNot depth => exact .brIfNot depth
  | brTable targets default depth hdepth => exact .brTable targets default depth hdepth
  | other opcode => exact .other opcode
  | seq hfst hsnd ihfirst ihsecond =>
    rw [map_append]
    exact ihfirst.seq ihsecond
  | seqLeave hfst hleave ih => exact ih.seqLeave hleave
  | block hbody ih => exact ih.block
  | loop hbody hleave ih => exact ih.loop hleave
  | again hbody hagain ih ihagain =>
    rw [map_append]
    exact ih.again ihagain
  | ifThen hbody ih => exact ih.ifThen
  | ifNot body => exact .ifNot _
  | ifYes hyes ih => exact ih.ifYes
  | ifNo hno ih => exact ih.ifNo

/-- Every execution of renamed code is a renamed execution. -/
theorem path_of_rename {V : Type} {local' : Nat → Nat} {events : List (Event V)} {outcome : Outcome}
    (h : Path (code.rename local') events outcome) :
    ∃ events', Path code events' outcome ∧ events = events'.map (Event.rename local') := by
  generalize hcode : code.rename local' = renamed at h
  induction h generalizing code with
  | stop _ => exact ⟨[], .stop code, rfl⟩
  | empty => cases code <;> cases hcode; exact ⟨[], .empty, rfl⟩
  | get _ => cases code <;> cases hcode; exact ⟨_, .get _, rfl⟩
  | set _ value => cases code <;> cases hcode; exact ⟨_, .set _ value, rfl⟩
  | tee _ value => cases code <;> cases hcode; exact ⟨_, .tee _ value, rfl⟩
  | br depth => cases code <;> cases hcode; exact ⟨[], .br depth, rfl⟩
  | brIf depth => cases code <;> cases hcode; exact ⟨[], .brIf depth, rfl⟩
  | brIfNot depth => cases code <;> cases hcode; exact ⟨[], .brIfNot depth, rfl⟩
  | brTable targets default depth hdepth =>
    cases code <;> cases hcode
    exact ⟨[], .brTable targets default depth hdepth, rfl⟩
  | other opcode => cases code <;> cases hcode; exact ⟨[], .other opcode, rfl⟩
  | seq _ _ ihfirst ihsecond =>
    cases code <;> cases hcode
    obtain ⟨events, hfst, rfl⟩ := ihfirst rfl
    obtain ⟨events', hsnd, rfl⟩ := ihsecond rfl
    exact ⟨events ++ events', hfst.seq hsnd, map_append.symm⟩
  | seqLeave _ hleave ih =>
    cases code <;> cases hcode
    obtain ⟨events, hfst, rfl⟩ := ih rfl
    exact ⟨events, hfst.seqLeave hleave, rfl⟩
  | block _ ih =>
    cases code <;> cases hcode
    obtain ⟨events, hbody, rfl⟩ := ih rfl
    exact ⟨events, hbody.block, rfl⟩
  | loop _ hleave ih =>
    cases code <;> cases hcode
    obtain ⟨events, hbody, rfl⟩ := ih rfl
    exact ⟨events, hbody.loop hleave, rfl⟩
  | again _ _ ih ihagain =>
    obtain ⟨events', hagain, rfl⟩ := ihagain hcode
    cases code <;> cases hcode
    obtain ⟨events, hbody, rfl⟩ := ih rfl
    exact ⟨events ++ events', hbody.again hagain, map_append.symm⟩
  | ifThen _ ih =>
    cases code <;> cases hcode
    obtain ⟨events, hbody, rfl⟩ := ih rfl
    exact ⟨events, hbody.ifThen, rfl⟩
  | ifNot _ => cases code <;> cases hcode; exact ⟨[], .ifNot _, rfl⟩
  | ifYes _ ih =>
    cases code <;> cases hcode
    obtain ⟨events, hyes, rfl⟩ := ih rfl
    exact ⟨events, hyes.ifYes, rfl⟩
  | ifNo _ ih =>
    cases code <;> cases hcode
    obtain ⟨events, hno, rfl⟩ := ih rfl
    exact ⟨events, hno.ifNo, rfl⟩

/-- The whole code stands at its beginning, outside of loops. -/
theorem at_start (parameterCount : Nat) (code : Code) :
    At parameterCount (code.slots parameterCount) (code.ranges parameterCount 0) [] 0 code where
  slots := fun k slot hslot => by rw [Nat.zero_add]; exact hslot
  ranges := fun _ hrng => hrng
  around := nofun

/-- Every slot has a local of its type, and no execution reads another value than with a local for every slot. -/
theorem finish_reads {V : Type} {parameterCount : Nat} {slotTypes : List ValType} {code : Code} {function : Function}
    (hencode : encodeFunction parameterCount slotTypes code.instructions = some function)
    (hwritten : ∀ (events : List (Event V)) (outcome : Outcome), Path code events outcome →
      WrittenFirst parameterCount (fun _ => False) events) :
    ∃ index : Nat → Nat,
      function.body = (code.rename (slotLocal parameterCount fun slot => parameterCount + index slot)).instructions ++
        [.close] ∧
      (∀ slot ∈ code.slots parameterCount, ∃ ty, slotTypes[slot]? = some ty ∧
        function.types[index slot]? = some ty) ∧
      (∀ (events : List (Event V)) (outcome : Outcome),
        Path (code.rename (slotLocal parameterCount fun slot => parameterCount + index slot)) events outcome ↔
          ∃ events', Path code events' outcome ∧ events = located parameterCount index events') ∧
      ∀ (events : List (Event V)) (outcome : Outcome), Path code events outcome → ∀ locals locals' : Nat → V,
        (∀ parameter < parameterCount, locals' parameter = locals parameter) →
        reads locals' (located parameterCount index events) = reads locals events := by
  obtain ⟨allocated, hallocate, htypes, hbody⟩ := encodeFunction_spec hencode
  obtain ⟨first, last, hslots, hapart⟩ := Locals.allocate_spec hallocate
  have hindex : ∀ slot ∈ code.slots parameterCount,
      allocated.indices slot = some ((allocated.indices slot).getD 0) := by
    intro slot hslot
    obtain ⟨-, index, hindex, -⟩ := hslots slot hslot
    rw [hindex, Option.getD_some]
  refine ⟨fun slot => (allocated.indices slot).getD 0, hbody, fun slot hslot => ?_, fun events outcome => ⟨?_, ?_⟩, ?_⟩
  · obtain ⟨-, index, hindex, htype⟩ := hslots slot hslot
    have hlt := Locals.slot_lt_of_allocate hallocate slot hslot
    rw [List.getElem?_eq_getElem hlt] at htype
    refine ⟨slotTypes[slot], List.getElem?_eq_getElem hlt, ?_⟩
    dsimp only
    rw [htypes, hindex]
    exact htype
  · exact path_of_rename
  · rintro ⟨events', hpath, rfl⟩
    exact path_rename _ hpath
  · intro events outcome hpath locals locals' hparameters
    have hreuse : Reuse (code.slots parameterCount) (code.ranges parameterCount 0) first last
        fun slot => (allocated.indices slot).getD 0 := by
      refine ⟨fun slot hslot => (hslots slot hslot).1, fun slot hslot other hother hne hshared => ?_⟩
      refine hapart slot hslot other hother hne ?_
      rw [hindex slot hslot, hindex other hother]
      exact congrArg some hshared
    exact (path_agrees hreuse hpath (at_start parameterCount code) hwritten
      ⟨hparameters, fun _ h => h.elim, fun _ h => h.elim⟩).1.symm

section Sample

variable {V : Type} {pc : Nat} {w : Nat → Prop} {es : List (Event V)}

theorem WrittenFirst.write {index : Nat} (value : V)
    (h : WrittenFirst pc (fun slot => w slot ∨ pc + slot = index) es) :
    WrittenFirst pc w (.write index value :: es) := by
  intro before local' rest heq hslot
  cases before with
  | nil => cases heq
  | cons event before =>
    obtain ⟨rfl, hevents⟩ := List.cons.inj heq
    rcases h before local' rest hevents hslot with (hwr | hidx) | ⟨other, hother⟩
    · exact Or.inl hwr
    · rw [Nat.add_sub_cancel' hslot] at hidx
      subst hidx
      exact Or.inr ⟨value, mem_cons_self⟩
    · exact Or.inr ⟨other, mem_cons_of_mem _ hother⟩

/-- Executions read what the code accesses. -/
theorem path_reads {code : Code} {outcome : Outcome} (h : Path code es outcome) {index : Nat}
    (hread : .read index ∈ es) (hslot : pc ≤ index) :
    index - pc ∈ code.slots pc := by
  induction h with
  | stop _ | empty | br _ | brIf _ | brIfNot _ | brTable _ _ _ _ | other _ | ifNot _ => cases hread
  | get _ =>
    cases List.mem_singleton.mp hread
    rw [Code.slots, if_pos hslot]
    exact List.mem_singleton_self _
  | set _ _ | tee _ _ => cases List.mem_singleton.mp hread
  | seq _ _ ihfirst ihsecond =>
    rcases List.mem_append.mp hread with hread | hread
    · exact List.mem_append_left _ (ihfirst hread)
    · exact mem_append_right _ (ihsecond hread)
  | seqLeave _ _ ih | ifYes _ ih => exact List.mem_append_left _ (ih hread)
  | block _ ih | loop _ _ ih | ifThen _ ih => exact ih hread
  | again _ _ ih ihagain =>
    rcases List.mem_append.mp hread with hread | hread
    · exact ih hread
    · exact ihagain hread
  | ifNo _ ih => exact mem_append_right _ (ih hread)

/-- Code that accesses only what was written before. -/
theorem initialized_of_slots {code : Code} (h : ∀ slot ∈ code.slots pc, w slot) : Initialized V pc w code := by
  rintro es outcome hpath before index rest rfl hslot
  exact Or.inl (h _ (path_reads hpath (mem_append_right _ mem_cons_self) hslot))

/-- Code that begins by writing a local. -/
theorem Initialized.set {index : Nat} {code : Code}
    (h : Initialized V pc (fun slot => w slot ∨ pc + slot = index) code) :
    Initialized V pc w (.seq (.access .set index) code) := by
  intro es outcome hpath
  have hnil : WrittenFirst (V := V) pc w [] := fun before _ _ heq => by cases before <;> cases heq
  cases hpath with
  | stop _ => exact hnil
  | seq hset hcode =>
    cases hset with
    | set _ value => exact (h _ _ hcode).write value
  | seqLeave hset hleave =>
    cases hset with
    | stop _ => exact hnil
    | set _ _ => exact absurd rfl hleave

/-- A value written before a loop and read in it. -/
def sample : Code := .seq (.access .set 1) (.loop (.seq (.access .get 1) (.brIf 0)))

theorem sample_encoded : encodeFunction 1 [.i32] sample.instructions =
    some ⟨[.i32], [.localSet 1, .loop, .localGet 1, .brIf 0, .close, .close]⟩ := by
  decide +kernel

theorem sample_initialized : Initialized V 1 (fun _ => False) sample := by
  refine Initialized.set (initialized_of_slots fun slot hslot => Or.inr ?_)
  rw [List.mem_singleton.mp hslot]

end Sample

theorem finish_reads_sample :
    ∃ index : Nat → Nat,
      [Instruction.localSet 1, .loop, .localGet 1, .brIf 0, .close, .close] =
        (sample.rename (slotLocal 1 fun slot => 1 + index slot)).instructions ++ [.close] ∧
      (∀ slot ∈ sample.slots 1, ∃ ty, [ValType.i32][slot]? = some ty ∧ [ValType.i32][index slot]? = some ty) ∧
      (∀ (events : List (Event (BitVec 32))) (outcome : Outcome),
        Path (sample.rename (slotLocal 1 fun slot => 1 + index slot)) events outcome ↔
          ∃ events', Path sample events' outcome ∧ events = located 1 index events') ∧
      ∀ (events : List (Event (BitVec 32))) (outcome : Outcome), Path sample events outcome →
        ∀ locals locals' : Nat → BitVec 32, (∀ parameter < 1, locals' parameter = locals parameter) →
        reads locals' (located 1 index events) = reads locals events :=
  finish_reads sample_encoded sample_initialized

end Relocade.Compiler.Encoder
