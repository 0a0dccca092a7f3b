import Mathlib.Data.Sigma.Basic
import Mathlib.Logic.Function.Basic
import Relocade.Segment.Profile

/-!
# `Segment.Access` — segment permissions and offset spans

The probe that generated code makes before a guest access. It is modelled by the values its code computes on a run:
what the builder knows while it builds the code, a constant or a field read before, is marked on the value and decides
which code there is.
-/

namespace Relocade.Segmentation

/-! ## Values -/

/-- An expression's value on a run, and whether the builder knows it. -/
structure Val (w : Nat) where
  value : BitVec w
  known : Bool
  deriving DecidableEq, Repr

namespace Val

variable {w : Nat}

def literal (value : BitVec w) : Val w := ⟨value, true⟩

def constantBits (v : Val w) : Option (BitVec w) := if v.known then some v.value else none

/-- Equal literals are one expression; two loads are not. -/
def sameExpression (v v' : Val w) : Bool := v.known && v'.known && v.value == v'.value

end Val

/-- A segment index, with a hint for the address decoder's DS/SS default. -/
structure SegmentSelection where
  segment : Segment
  known : Bool
  dsOrSs : Bool
  default : dsOrSs = true → segment = .ds ∨ segment = .ss

/-- A fixed segment. -/
def SegmentSelection.of (segment : Segment) : SegmentSelection := ⟨segment, true, false, fun h => by cases h⟩

inductive Intent where
  | fetch
  | read
  /-- Data-read paging checks, with access to execute-only code segments too. -/
  | readOrExecute
  | write
  deriving DecidableEq, Repr

/-- Cached fields that a probe reads, by the width of their values. -/
inductive Field : Nat → Type where
  | base : Field 32
  | limit : Field 32
  | usable : Field 1
  | readable : Field 1
  | writable : Field 1
  | executable : Field 1
  | expandDown : Field 1
  | big : Field 1
  deriving DecidableEq, Repr

/-- A byte that is not zero. -/
def flag (byte : BitVec 8) : BitVec 1 := BitVec.ofBool (byte != 0)

/-- A field of a loaded cache. -/
def Field.load {w : Nat} : Field w → SegmentRegister → BitVec w
  | .base, r => r.base
  | .limit, r => r.limit
  | .usable, r => flag r.usable
  | .readable, r => flag r.readable
  | .writable, r => flag r.writable
  | .executable, r => flag r.executable
  | .expandDown, r => flag r.expandDown
  | .big, r => flag r.big

/-- A comparison's result. -/
def test (condition : Bool) : BitVec 1 := BitVec.ofBool condition

def select {w : Nat} (condition : BitVec 1) (yes no : BitVec w) : BitVec w := if condition = 1 then yes else no

/-- A non-faulting segment probe. A profile-proven span needs no runtime guard. -/
structure SegmentCheck where
  linear : BitVec 32
  denied : Option (BitVec 1)
  deriving DecidableEq, Repr

/-- Whether the probe denies the access on the run. -/
def SegmentCheck.isDenied (check : SegmentCheck) : Bool := check.denied = some 1

/-! ## Reads -/

/-- Known values of fields. -/
abbrev SegmentReadCache := (field : (w : Nat) × Field w) → Option (Val field.1)

def SegmentAssumptions.known (facts : SegmentAssumptions) {w : Nat} : Field w → Option (Val w)
  | .base => facts.base.map Val.literal
  | .limit => facts.limit.map Val.literal
  | .usable => facts.usable.map fun value => Val.literal (flag value)
  | .readable => facts.readable.map fun value => Val.literal (flag value)
  | .writable => facts.writable.map fun value => Val.literal (flag value)
  | .executable => facts.executable.map fun value => Val.literal (flag value)
  | .expandDown => facts.expandDown.map fun value => Val.literal (flag value)
  | .big => facts.big.map fun value => Val.literal (flag value)

def SegmentReadCache.new (profile : ExecutionProfile) (segment : Segment) : SegmentReadCache :=
  match profile with
  | .real16 => fun field => { SegmentAssumptions.default with limit := some 0xffff, big := some 0 }.known field.2
  | .protectedMode profile => fun field => (profile.assumptions segment).known field.2

/-- Reads of segment fields that remain fixed until the entry dispatches. -/
structure SegmentReads where
  profile : ExecutionProfile
  cached : Segment → SegmentReadCache

namespace SegmentReads

def new (profile : ExecutionProfile) : SegmentReads := ⟨profile, SegmentReadCache.new profile⟩

variable (reads : SegmentReads) (segments : Segments) (selection : SegmentSelection)

section

variable {w : Nat} (field : Field w)

def known (segment : Segment) : Option (Val w) := reads.cached segment ⟨w, field⟩

/-- A field that DS and SS have in common. -/
def common : Option (Val w) :=
  match reads.known field .ds, reads.known field .ss with
  | some ds, some ss => if ds.sameExpression ss then some ds else none
  | _, _ => none

def store (segment : Segment) (value : Val w) : SegmentReads :=
  { reads with
    cached := Function.update reads.cached segment (Function.update (reads.cached segment) ⟨w, field⟩ (some value)) }

/-- Reads a field once; what the profile knows is not loaded. -/
def readField : Val w × SegmentReads :=
  let loaded : Val w := ⟨field.load (segments selection.segment), false⟩
  if selection.known then
    match reads.known field selection.segment with
    | some value => (value, reads)
    | none => (loaded, reads.store field selection.segment loaded)
  else
    match if selection.dsOrSs then reads.common field else none with
    | some value => (value, reads)
    | none => (loaded, reads)

end

/-! ## Probes -/

/-- Whether a segment has the permission of an intent. -/
def permitted (intent : Intent) : BitVec 1 × SegmentReads :=
  match intent with
  | .read =>
      let (readable, reads) := reads.readField segments selection .readable
      (readable.value, reads)
  | .readOrExecute =>
      let (readable, reads) := reads.readField segments selection .readable
      let (executable, reads) := reads.readField segments selection .executable
      (readable.value ||| executable.value, reads)
  | .write =>
      let (writable, reads) := reads.readField segments selection .writable
      (writable.value, reads)
  | .fetch =>
      let (executable, reads) := reads.readField segments selection .executable
      (executable.value, reads)

/-- Whether a span is denied in protected mode. -/
def accessDenied (offset bytes : BitVec 32) (intent : Intent) : BitVec 1 × SegmentReads :=
  let (usable, reads) := reads.readField segments selection .usable
  let (permitted, reads) := reads.permitted segments selection intent
  let permitted := usable.value &&& permitted
  let (limit, reads) := reads.readField segments selection .limit
  let (expandDown, reads) := reads.readField segments selection .expandDown
  -- a known full-size expand-up segment has no offset restriction
  if expandDown.constantBits = some 0 ∧ limit.constantBits = some 0xffffffff then
    (test (permitted = 0), reads)
  else
    let last := offset + (bytes - 1)
    let noWrap := test (offset ≤ last)
    -- full-size expand-up segments permit wrapping offsets
    let expandUp := test (limit.value = 0xffffffff) ||| (noWrap &&& test (last ≤ limit.value))
    let (big, reads) := reads.readField segments selection .big
    let upper : BitVec 32 := select big.value 0xffffffff 0xffff
    let downRange := test (limit.value < offset) &&& noWrap &&& test (last ≤ upper)
    (test (permitted &&& select expandDown.value downRange expandUp = 0), reads)

/-- Whether a span is denied, in the mode of the profile. -/
def denied (offset bytes : BitVec 32) (intent : Intent) : BitVec 1 × SegmentReads :=
  match reads.profile with
  -- canonical real-mode limits apply without protected-mode type permissions
  | .real16 => (test ((0x10001 : BitVec 32) ≤ bytes) ||| test ((0x10001 : BitVec 32) - bytes ≤ offset), reads)
  | .protectedMode _ => reads.accessDenied segments selection offset bytes intent

/-- Probes permissions and an offset span; `none` is the failed assertion that the span is not empty. The builder may
    or may not have folded the denial to a constant. -/
def check (offset bytes : Val 32) (intent : Intent) (folded : Bool) : Option (SegmentCheck × SegmentReads) :=
  if bytes.constantBits = some 0 then
    none
  else
    let (base, reads) := reads.readField segments selection .base
    let (denied, reads) := reads.denied segments selection offset.value bytes.value intent
    some (⟨base.value + offset.value, if (⟨denied, folded⟩ : Val 1).constantBits = some 0 then none else some denied⟩,
      reads)

end SegmentReads

end Relocade.Segmentation
