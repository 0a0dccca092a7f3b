import Relocade.Physical.Transfer
import Relocade.Virtual.PageTable

/-!
# `Virtual.Access` — complete byte-span resolution, with optional architectural fault handling

What the code of a resolution computes, given what is known when the code is made: whether the length is a constant,
whether a denial faults, and whether a loop retains the first entry.
-/

namespace Relocade.Virtual

open Physical (Intent)

def requiredPermissions : Intent → BitVec 32
  | .fetch | .read | .readOrExecute => present
  | .write => present ||| writable

def baseErrorCode : Intent → BitVec 32
  | .fetch => 16
  | .read | .readOrExecute => 0
  | .write => 2

/-- A span's length, which the code may know when it is made. -/
inductive Length where
  | constant (bytes : BitVec 32)
  | dynamic (bytes : BitVec 32)
  deriving DecidableEq

namespace Length

def bytes : Length → BitVec 32
  | constant bytes => bytes
  | dynamic bytes => bytes

def constantBytes : Length → Option (BitVec 32)
  | constant bytes => some bytes
  | dynamic _ => none

end Length

/-- Resolution of a complete span before any guest transfer. Denied spans are unavailable for direct transfer; the other
    unavailable ones have scattered backing. -/
structure Access where
  linear : BitVec 32
  physical : BitVec 32
  denied : Bool
  unavailable : Bool
  intent : Intent
  constantBytes : Option (BitVec 32)
  deriving DecidableEq

/-- Permitted spans that need scattered transfer. -/
def Access.scattered (access : Access) : Bool := access.unavailable && !access.denied

/-- The operands of a page fault. -/
structure PageFault where
  linearAddress : BitVec 32
  errorCode : BitVec 32
  deriving DecidableEq

/-- `u32::is_power_of_two`. -/
def isPowerOfTwo (bytes : BitVec 32) : Bool := (List.range 32).any fun k => bytes = 1#32 <<< k

/-- The low bit. -/
def isPresent (word : BitVec 32) : Bool := word.getLsbD 0

section

variable (table : Memory) (start : BitVec 32) (length : Length) (intent : Intent) (faulting : Bool)
  (firstEntry : BitVec 32)

/-- What a resolution word says: the denied address with its presence, or whether the backing is scattered and where it
    starts. -/
def unpack (resolutionWord : BitVec 32) : Except (BitVec 32 × Bool) (Bool × BitVec 32) :=
  let required := requiredPermissions intent
  if resolutionWord &&& required ≠ required then
    .error (if resolutionWord &&& laterDenial ≠ 0 then resolutionWord &&& frameMask else start, isPresent resolutionWord)
  else .ok (resolutionWord &&& scatteredFlag ≠ 0, physicalAddress resolutionWord start)

/-- The range resolver's answer. -/
def resolvePages : Except (BitVec 32 × Bool) (Bool × BitVec 32) :=
  unpack start intent (rangeResolver table start (length.bytes - 1) firstEntry (requiredPermissions intent))

/-- The checks of a span that is not a faulting byte. -/
def checks : Except (BitVec 32 × Bool) (Bool × BitVec 32) :=
  let required := requiredPermissions intent
  let pages := resolvePages table start length intent firstEntry
  match length with
  | .constant bytes =>
      if bytes ≤ pageBytes then
        -- aligned power-of-two operands fit in one page
        let mayCross : Bool := if isPowerOfTwo bytes then start &&& (bytes - 1) ≠ 0 else true
        if mayCross && crossesPage start bytes then pages
        else if firstEntry &&& required ≠ required then .error (start, isPresent firstEntry)
        else .ok (false, physicalAddress firstEntry start)
      else if !faulting && bytes = 0 then .error (start, isPresent firstEntry)
      else pages
  | .dynamic bytes => if !faulting && bytes = 0 then .error (start, isPresent firstEntry) else pages

/-- A denial raises the fault, or is returned to the caller. -/
def finishDenial (address : BitVec 32) (isPresent : Bool) : Except PageFault Access :=
  if faulting then
    let errorCode :=
      match intent with
      | .write => (BitVec.ofBool isPresent).setWidth 32 ||| baseErrorCode intent
      -- presence is the only read and fetch permission
      | .read | .readOrExecute | .fetch => baseErrorCode intent
    .error ⟨address, errorCode⟩
  else .ok ⟨start, physicalAddress firstEntry start, true, true, intent, length.constantBytes⟩

/-- The resolution of a span whose first entry is known. -/
def resolveFrom : Except PageFault Access :=
  let required := requiredPermissions intent
  let firstDenied : Bool := firstEntry &&& required ≠ required
  let access (physical : BitVec 32) (denied unavailable : Bool) : Access :=
    ⟨start, physical, denied, unavailable, intent, length.constantBytes⟩
  match length with
  | .constant bytes =>
      if !faulting ∧ bytes ≤ pageBytes then
        let physical := physicalAddress firstEntry start
        if bytes = 0 then .ok (access physical true true)
        else if crossesPage start bytes then
          let nextEntry := entry table (start + (bytes - 1))
          let denied : Bool := firstEntry &&& nextEntry &&& required ≠ required
          let scattered := scatteredBacking (firstEntry &&& frameMask) nextEntry
          .ok (access physical denied (denied || scattered))
        else .ok (access physical firstDenied firstDenied)
      else if bytes = 1 ∧ faulting then
        -- a byte needs only the first page check
        if firstDenied then finishDenial start length intent faulting firstEntry start (isPresent firstEntry)
        else .ok (access (physicalAddress firstEntry start) false false)
      else
        match checks table start length intent faulting firstEntry with
        | .error (address, isPresent) => finishDenial start length intent faulting firstEntry address isPresent
        | .ok (unavailable, physical) => .ok (access physical false unavailable)
  | .dynamic _ =>
      match checks table start length intent faulting firstEntry with
      | .error (address, isPresent) => finishDenial start length intent faulting firstEntry address isPresent
      | .ok (unavailable, physical) => .ok (access physical false unavailable)

/-- `VirtualMemory::resolve_access`, with the cache it leaves. -/
def resolveAccess (cache : Option PageCache) : Except PageFault Access × Option PageCache :=
  match cache with
  | some cache =>
      let (firstEntry, cache) := cache.lookup table start
      (resolveFrom table start length intent faulting firstEntry, some cache)
  | none => (resolveFrom table start length intent faulting (entry table start), none)

end

end Relocade.Virtual
