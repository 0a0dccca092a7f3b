import Relocade.Flags.Record
import Relocade.Ssa.StateFields

/-!
# `Flags.Tracker` — architectural flag state: admission, queries and terminal publication

Status changes follow one complete status source in program order: the stored record, or the latest unconditional
replacement. Queries compose them on demand; publication selects one record from the last active change. Control and
system flags are bytes retained in SSA. An error of the source is `none`.
-/

namespace Relocade.Flags

open Ssa (StateFields)

/-! ## State -/

/-- Answers already read from the stored record. -/
structure CpuFlagCache where
  /-- By canonical condition. -/
  conditions : Condition → Option Bool
  auxiliary : Option Bool

namespace CpuFlagCache

def empty : CpuFlagCache := ⟨fun _ => none, none⟩

def setCondition (cache : CpuFlagCache) (condition : Condition) (value : Bool) : CpuFlagCache :=
  { cache with conditions := fun c => if c = condition then some value else cache.conditions c }

/-- Single-flag conditions and subset reads share a slot. AF has no condition. -/
def flagSlot (cache : CpuFlagCache) (flag : StatusFlag) : Option Bool :=
  match flag.condition with
  | none => cache.auxiliary
  | some condition => cache.conditions condition

def setFlagSlot (cache : CpuFlagCache) (flag : StatusFlag) (value : Bool) : CpuFlagCache :=
  match flag.condition with
  | none => { cache with auxiliary := some value }
  | some condition => cache.setCondition condition value

end CpuFlagCache

inductive StatusBase where
  | stored (cache : CpuFlagCache)
  | localSource (source : AnyStatusSource)

/-- Unconditional replacements discard only the older status history. -/
structure StatusState (N : Type) where
  base : StatusBase
  updates : List (FlagChange N)

structure FlagTracker (N : Type) where
  status : StatusState N
  direct : StateFields (Val N (BitVec 8))

/-! ## Composition on demand -/

/-- The last position of a list that satisfies a predicate. -/
def rposition {α : Type} (p : α → Bool) : List α → Option Nat
  | [] => none
  | x :: xs =>
      match rposition p xs with
      | some i => some (i + 1)
      | none => if p x then some 0 else none

/-- A value for each status flag, unless one fails. -/
def StatusFlag.tryMap {α : Type} (f : StatusFlag → Option α) : Option (StatusFlag → α) := do
  let cf ← f .cf
  let pf ← f .pf
  let af ← f .af
  let zf ← f .zf
  let sf ← f .sf
  let of ← f .of
  return fun
    | .cf => cf
    | .pf => pf
    | .af => af
    | .zf => zf
    | .sf => sf
    | .of => of

/-- The status flags that satisfy a test. -/
def FlagMask.ofStatus (p : StatusFlag → Bool) : FlagMask := ((StatusFlag.all.filter p).map .status).toFinset

/-- Reads the needed flags that are not retained, in one dispatch. -/
def CpuFlagCache.readMissing (m : Memory) (cache : CpuFlagCache) (needed : FlagMask) : Option CpuFlagCache :=
  let missing := FlagMask.ofStatus fun flag => .status flag ∈ needed ∧ (cache.flagSlot flag).isNone
  if missing = ∅ then some cache
  else (readFlags m missing).map fun flags =>
    StatusFlag.all.foldl (fun cache flag => (flags flag).elim cache (cache.setFlagSlot flag)) cache

/-- A canonical condition, from the record unless it is retained. -/
def CpuFlagCache.readCanonical (m : Memory) (cache : CpuFlagCache) (canonical : Condition) :
    Option (Bool × CpuFlagCache) :=
  match cache.conditions canonical with
  | some value => some (value, cache)
  | none => (readCondition m canonical).map fun value => (value, cache.setCondition canonical value)

section

variable {N : Type} (m : Memory)

namespace StatusBase

/-- A base's condition, and the base that has retained it. -/
def condition (base : StatusBase) (condition : Condition) : Option (Bool × StatusBase) :=
  match base with
  | localSource source => some (source.condition condition, base)
  | stored cache => do
      let (value, cache) ← cache.readCanonical m condition.canonical
      return (if condition.isInverted then !value else value, stored cache)

/-- Reads flags of a base; stored ones are loaded once. -/
def readFlags (base : StatusBase) (needed : FlagMask) : Option ((StatusFlag → Option Bool) × StatusBase) :=
  match base with
  | localSource source => some (fun flag => if .status flag ∈ needed then some (source.flag flag) else none, base)
  | stored cache => do
      let cache ← cache.readMissing m needed
      let flags ← StatusFlag.tryMap fun flag =>
        if .status flag ∈ needed then (cache.flagSlot flag).map some else some none
      return (flags, stored cache)

end StatusBase

/-- A later update of one flag. -/
def merge (flag : Flag) (value : Bool) (update : FlagChange N) : Option Bool :=
  if flag ∈ update.writes then
    (update.flag flag).map fun changed =>
      match update.condition with
      | some condition => bif condition.value then changed.value else value
      | none => changed.value
  else some value

/-- An unconditional definition cuts off the older history of a flag. -/
def start (updates : List (FlagChange N)) (flag : StatusFlag) : Option Nat :=
  rposition (fun update => update.condition.isNone ∧ .status flag ∈ update.writes) updates

def resolveFlag (updates : List (FlagChange N)) (flag : StatusFlag) (inherited : Option Bool) : Option Bool :=
  match start updates flag with
  | some index => do
      let update ← updates[index]?
      let value ← update.flag (.status flag)
      (updates.drop (index + 1)).foldlM (merge (.status flag)) value.value
  | none => do updates.foldlM (merge (.status flag)) (← inherited)

def resolveFlags (base : StatusBase) (updates : List (FlagChange N)) (needed : FlagMask) :
    Option ((StatusFlag → Option Bool) × StatusBase) := do
  let inherited := FlagMask.ofStatus fun flag => .status flag ∈ needed ∧ (start updates flag).isNone
  let (flags, base) ← base.readFlags m inherited
  let flags ← StatusFlag.tryMap fun flag =>
    if .status flag ∈ needed then (resolveFlag updates flag (flags flag)).map some else some (flags flag)
  return (flags, base)

/-! ## Status queries and publication -/

namespace StatusState

variable (state : StatusState N)

def new : StatusState N := ⟨.stored .empty, []⟩

def apply (change : FlagChange N) : StatusState N :=
  let pushed := { state with updates := state.updates ++ [change] }
  if change.condition.isNone ∧ change.writes = FlagMask.status then
    match change.values with
    | .status source _ => ⟨.localSource source, []⟩
    | .explicit _ => pushed
  else pushed

/-- A relevant source's answer to a condition, over the older one. -/
def follow (condition : Condition) (value : Bool) (update : FlagChange N) : Bool :=
  match update.statusSource condition.flags with
  | some source =>
      let changed := source.condition condition
      match update.condition with
      | some predicate => bif predicate.value then changed else value
      | none => changed
  | none => value

/-- An unconditional source of every needed flag. -/
def replaces (needed : FlagMask) (update : FlagChange N) : Bool :=
  update.condition.isNone ∧ (update.statusSource needed).isSome

/-- An update of needed flags that is no source of all of them. -/
def isPartial (needed : FlagMask) (update : FlagChange N) : Bool :=
  update.writes ∩ needed ≠ ∅ ∧ (update.statusSource needed).isNone

/-- The newest answer that older updates do not affect, with the updates that follow it. -/
def settled (condition : Condition) : Option (Bool × List (FlagChange N) × StatusBase) :=
  let needed := condition.flags
  let updates := state.updates
  let replacement := rposition (replaces needed) updates
  let partialUpdate := (rposition (isPartial needed) updates).filter fun index => replacement.all (index > ·)
  match partialUpdate, replacement with
  | some index, _ => do
      let (flags, base) ← resolveFlags m state.base (updates.take (index + 1)) needed
      let value ← condition.evaluate flags
      some (value, updates.drop (index + 1), base)
  | none, some index => do
      let update ← updates[index]?
      let source ← update.statusSource needed
      some (source.condition condition, updates.drop (index + 1), state.base)
  | none, none => do
      let (value, base) ← state.base.condition m condition
      some (value, updates, base)

/-- Remaining relevant sources cover every condition dependency, even when they preserve other flags. -/
def condition (condition : Condition) : Option (Bool × StatusState N) := do
  let (value, following, base) ← state.settled m condition
  return (following.foldl (follow condition) value, { state with base := base })

def readFlag (flag : StatusFlag) : Option (Bool × StatusState N) :=
  match flag.condition with
  | some condition => state.condition m condition
  | none => do
      let (flags, base) ← resolveFlags m state.base state.updates {.status flag}
      let value ← flags flag
      return (value, { state with base := base })

def publishConcrete : Option Memory := do
  -- a clone of the base: the reads stay in the publication arm
  let (flags, _) ← resolveFlags m state.base state.updates FlagMask.status
  let status ← StatusFlag.tryMap flags
  return writeConcrete m status

def publishBase : Memory :=
  match state.base with
  | .stored _ => m
  | .localSource source => publishSource m source

/-- The last active replacement owns the record. -/
def publishReplacement : List (FlagChange N) → Option Memory
  | [] => some (state.publishBase m)
  | update :: older =>
      match update.statusSource FlagMask.status with
      | some source => do
          let condition ← update.condition
          if condition.value then some (publishSource m source) else publishReplacement older
      | none => publishReplacement older

/-- Whether the last active update is partial, as an expression. -/
def needsConcrete (naming : Naming N) : Val N Bool :=
  state.updates.foldl (fun needsConcrete update =>
    let isPartial := (update.statusSource FlagMask.status).isNone
    match update.condition with
    | some condition => condition.select naming (naming.bool isPartial) needsConcrete
    | none => naming.bool isPartial) (naming.bool false)

/-- Stores the flags as the base and the updates leave them. -/
def publish [DecidableEq N] (naming : Naming N) : Option Memory :=
  if state.updates = [] then some (state.publishBase m)
  else
    let hasPartial := state.updates.any fun update => (update.statusSource FlagMask.status).isNone
    let needsConcrete := state.needsConcrete naming
    if hasPartial ∧ needsConcrete = naming.bool true then state.publishConcrete m
    else if hasPartial ∧ needsConcrete ≠ naming.bool false ∧ needsConcrete.value then state.publishConcrete m
    else state.publishReplacement m state.updates.reverse

end StatusState

end

/-! ## The tracker -/

section

variable {N : Type} [DecidableEq N] (naming : Naming N) (m : Memory)

/-- The bits of a retained byte. -/
def byteValue (value : Val N (BitVec 8)) : BitVec 128 := value.value.setWidth 128

def byteLocation (offset : Nat) : Ssa.Location (Val N (BitVec 8)) := ⟨.byte, .fixed offset⟩

/-- Reads a direct byte; a load names it by its place. -/
def readDirect (direct : StateFields (Val N (BitVec 8))) (offset : Nat) :
    Option (Val N (BitVec 8) × StateFields (Val N (BitVec 8)) × Memory) := do
  let (value, code, direct) ← direct.read (byteLocation offset) ⟨naming.loaded offset, m offset⟩
  return (value, direct, Ssa.execute byteValue m code)

def defineDirect (direct : StateFields (Val N (BitVec 8))) (offset : Nat) (value : Val N (BitVec 8)) :
    Option (StateFields (Val N (BitVec 8)) × Memory) := do
  let (code, direct) ← direct.define (byteLocation offset) value
  return (direct, Ssa.execute byteValue m code)

namespace FlagTracker

def new : FlagTracker N := ⟨.new, .withBase ⟨naming.base, 0⟩⟩

variable (tracker : FlagTracker N)

/-- One flag of a change, if it has direct backing. -/
def applyDirect (change : FlagChange N) (state : StateFields (Val N (BitVec 8)) × Memory) (flag : Flag) :
    Option (StateFields (Val N (BitVec 8)) × Memory) :=
  match directLocation flag with
  | none => some state
  | some location => do
      let value ← change.flag flag
      let value : Val N (BitVec 8) := ⟨naming.extend value.name, (BitVec.ofBool value.value).setWidth 8⟩
      match change.condition with
      | some condition => do
          let (old, direct, m) ← readDirect naming state.2 state.1 location
          defineDirect m direct location (condition.select naming value old)
      | none => defineDirect state.2 state.1 location value

/-- `FlagTracker::apply`. -/
def apply (change : FlagChange N) : Option (FlagTracker N × Memory) :=
  if change.writes = ∅ then some (tracker, m)
  else if change.condition = some (naming.bool false) then some (tracker, m)
  else do
    let change := if change.condition = some (naming.bool true) then { change with condition := none } else change
    let (direct, m) ← change.writes.flags.foldlM (applyDirect naming change) (tracker.direct, m)
    let change := change.retaining FlagMask.status
    let status := if change.writes = ∅ then tracker.status else tracker.status.apply change
    return (⟨status, direct⟩, m)

def read (flag : Flag) : Option (Bool × FlagTracker N × Memory) :=
  match flag with
  | .status flag => do
      let (value, status) ← tracker.status.readFlag m flag
      return (value, { tracker with status := status }, m)
  | flag => do
      let (value, direct, m) ← readDirect naming m tracker.direct (← directLocation flag)
      return (value.value.getLsbD 0, { tracker with direct := direct }, m)

/-- Reads logical flags in request order. -/
def readFlags (requested : List Flag) : Option (List Bool × FlagTracker N × Memory) := do
  let needed : FlagMask := requested.toFinset
  let (status, base) ← resolveFlags m tracker.status.base tracker.status.updates (needed ∩ FlagMask.status)
  let tracker := { tracker with status := { tracker.status with base := base } }
  let (values, tracker, m) ← needed.flags.foldlM (fun (values, tracker, m) flag =>
    match flag with
    | .status f => (status f).map fun value => (values ++ [(flag, value)], tracker, m)
    | flag => (tracker.read naming m flag).map fun (value, tracker, m) => (values ++ [(flag, value)], tracker, m))
    (([] : List (Flag × Bool)), tracker, m)
  let answers ← requested.mapM fun flag => values.lookup flag
  return (answers, tracker, m)

def condition (condition : Condition) : Option (Bool × FlagTracker N) := do
  let (value, status) ← tracker.status.condition m condition
  return (value, { tracker with status := status })

def publish : Option Memory := do
  let m ← tracker.status.publish m naming
  return Ssa.execute byteValue m tracker.direct.publish

end FlagTracker

end

end Relocade.Flags
