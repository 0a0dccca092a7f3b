import Mathlib.Logic.Basic

/-!
# `Segment.Profile` — loaded segments and compilation assumptions

The six segment caches, the facts that a profile assumes of each, and compatibility of loaded caches with them.
-/

namespace Relocade.Segmentation

/-! ## Loaded state -/

/-- Segments in encoding order. -/
inductive Segment where
  | es
  | cs
  | ss
  | ds
  | fs
  | gs
  deriving DecidableEq, Repr

def Segment.ALL : List Segment := [.es, .cs, .ss, .ds, .fs, .gs]

/-- A visible selector and the cached properties used for address translation. -/
structure SegmentRegister where
  base : BitVec 32
  /-- Inclusive byte limit, after applying descriptor granularity. -/
  limit : BitVec 32
  selector : BitVec 16
  usable : BitVec 8
  readable : BitVec 8
  writable : BitVec 8
  executable : BitVec 8
  expandDown : BitVec 8
  /-- CS instruction defaults, SS stack width, or the expand-down upper bound. -/
  big : BitVec 8
  deriving DecidableEq, Repr

namespace SegmentRegister

def flatData32 (selector : BitVec 16) : SegmentRegister where
  base := 0
  limit := 0xffffffff
  selector := selector
  usable := 1
  readable := 1
  writable := 1
  executable := 0
  expandDown := 0
  big := 1

def flatCode32 (selector : BitVec 16) : SegmentRegister := { flatData32 selector with writable := 0, executable := 1 }

/-- Canonical ordinary real-mode cache. -/
def realMode (segment : Segment) (selector : BitVec 16) : SegmentRegister :=
  { (match segment with
      | .cs => flatCode32 selector
      | _ => flatData32 selector) with
    base := selector.setWidth 32 <<< 4
    limit := 0xffff
    big := 0 }

end SegmentRegister

abbrev Segments := Segment → SegmentRegister

/-! ## Assumptions -/

inductive SegmentProfile where
  | flat32
  | segmented32
  | segmented16
  deriving DecidableEq, Repr

inductive SegmentDefaultSize where
  | bits16
  | bits32
  deriving DecidableEq, Repr

def SegmentProfile.codeDefaultSize : SegmentProfile → SegmentDefaultSize
  | .flat32 => .bits32
  | .segmented32 => .bits32
  | .segmented16 => .bits16

/-- Facts shared by runtime compatibility checks and generated cache reads. -/
structure SegmentAssumptions where
  base : Option (BitVec 32)
  limit : Option (BitVec 32)
  usable : Option (BitVec 8)
  readable : Option (BitVec 8)
  writable : Option (BitVec 8)
  executable : Option (BitVec 8)
  expandDown : Option (BitVec 8)
  big : Option (BitVec 8)
  deriving DecidableEq, Repr

def SegmentAssumptions.default : SegmentAssumptions := ⟨none, none, none, none, none, none, none, none⟩

/-- An assumed value is the loaded one. -/
def agrees {w : Nat} (assumed : Option (BitVec w)) (loaded : BitVec w) : Bool :=
  match assumed with
  | none => true
  | some value => loaded = value

def SegmentAssumptions.isMatch (assumptions : SegmentAssumptions) (cache : SegmentRegister) : Bool :=
  agrees assumptions.base cache.base && agrees assumptions.limit cache.limit &&
    agrees assumptions.usable cache.usable && agrees assumptions.readable cache.readable &&
    agrees assumptions.writable cache.writable && agrees assumptions.executable cache.executable &&
    agrees assumptions.expandDown cache.expandDown && agrees assumptions.big cache.big

/-- The facts of a flat segment. -/
def flatAssumptions (segment : Segment) : SegmentAssumptions where
  base := some 0
  limit := some 0xffffffff
  usable := some 1
  readable := some 1
  writable := some (if segment ≠ .cs then 1 else 0)
  executable := some (if segment = .cs then 1 else 0)
  expandDown := some 0
  big := if segment = .ss then some 1 else none

/-- What a profile knows of a segment. -/
def SegmentProfile.assumptions (profile : SegmentProfile) (segment : Segment) : SegmentAssumptions :=
  let assumptions :=
    if profile = .flat32 ∧ (segment = .cs ∨ segment = .ds ∨ segment = .es ∨ segment = .ss) then
      flatAssumptions segment
    else SegmentAssumptions.default
  if segment = .cs then
    { assumptions with big := some (if profile.codeDefaultSize = .bits32 then 1 else 0) }
  else assumptions

/-- Tests the properties assumed by this profile. -/
def SegmentProfile.isCompatibleWith (profile : SegmentProfile) (segments : Segments) : Bool :=
  Segment.ALL.all fun segment => (profile.assumptions segment).isMatch (segments segment)

inductive ExecutionProfile where
  | protectedMode (profile : SegmentProfile)
  | real16
  deriving DecidableEq, Repr

end Relocade.Segmentation
