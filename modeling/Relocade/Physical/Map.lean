import Mathlib.Algebra.Group.Nat.Defs
import Mathlib.Data.List.FinRange
import Relocade.Memory

/-!
# `Physical.Map` — host-owned routing of physical pages

A map sends each 4-KiB page below 0x110000 to backing memory, to MMIO devices or nowhere. Its serialized image is what
the translated program reads.
-/

namespace Relocade.Physical

def pageShift : Nat := 12
def pageBytes : BitVec 32 := 1#32 <<< pageShift
def pageMask : BitVec 32 := pageBytes - 1
def pageCount : Nat := 272

-- the kinds of a serialized page
def unmappedKind : BitVec 32 := 0
def ramKind : BitVec 32 := 1
def romKind : BitVec 32 := 2
def mmioKind : BitVec 32 := 3

/-- Where a physical address is routed. Backing offsets address bytes of the host's backing memory. -/
inductive PhysicalMapping where
  /-- Reads return FF bytes and writes are ignored. -/
  | unmapped
  | ram (backingOffset : BitVec 32)
  /-- Reads access backing memory; writes are ignored. -/
  | rom (backingOffset : BitVec 32)
  | mmio
  deriving DecidableEq, Repr

namespace PhysicalMapping

def backingOffset : PhysicalMapping → Option (BitVec 32)
  | unmapped | mmio => none
  | ram backingOffset | rom backingOffset => some backingOffset

def advance (mapping : PhysicalMapping) (bytes : BitVec 32) : PhysicalMapping :=
  match mapping with
  | unmapped => unmapped
  | ram backingOffset => ram (backingOffset + bytes)
  | rom backingOffset => rom (backingOffset + bytes)
  | mmio => mmio

/-- The two words of a serialized page. -/
def words : PhysicalMapping → BitVec 32 × BitVec 32
  | unmapped => (unmappedKind, 0)
  | ram backingOffset => (ramKind, backingOffset)
  | rom backingOffset => (romKind, backingOffset)
  | mmio => (mmioKind, 0)

end PhysicalMapping

inductive PhysicalMapError where
  | emptyRange
  | unalignedRange
  | rangeOutOfBounds
  | unalignedBacking
  | backingOverflow
  deriving DecidableEq, Repr

/-- One mapping for each page below 0x110000, and the A20 gate. -/
structure PhysicalMemoryMap where
  pages : Fin pageCount → PhysicalMapping
  a20Enabled : Bool

namespace PhysicalMemoryMap

/-- The offset of the trailing address mask. -/
def a20MaskOffset : Nat := pageCount * 8
def byteLen : Nat := a20MaskOffset + 4

/-- An inclusive range of physical addresses and its mapping. -/
structure Region where
  start : BitVec 32
  stop : BitVec 32
  mapping : PhysicalMapping

/-- The pages after a region replaces those of its range, or what is wrong with it. -/
def addRegion (pages : Fin pageCount → PhysicalMapping) (region : Region) :
    Except PhysicalMapError (Fin pageCount → PhysicalMapping) :=
  let ⟨start, stop, mapping⟩ := region
  if stop < start then .error .emptyRange
  else if start &&& pageMask ≠ 0 ∨ stop &&& pageMask ≠ pageMask then .error .unalignedRange
  else
    let firstPage := (start >>> pageShift).toNat
    let endPage := (stop >>> pageShift).toNat + 1
    if endPage > pageCount then .error .rangeOutOfBounds
    else
      let pages' : Fin pageCount → PhysicalMapping := fun page =>
        if firstPage ≤ page.val ∧ page.val < endPage then
          mapping.advance (BitVec.ofNat 32 (page.val - firstPage) <<< pageShift)
        else pages page
      match mapping.backingOffset with
      | some backing =>
          if backing &&& pageMask ≠ 0 then .error .unalignedBacking
          -- the sum is of 64-bit numbers
          else if backing.toNat + (stop.toNat - start.toNat + 1) > 2 ^ 32 then .error .backingOverflow
          else .ok pages'
      | none => .ok pages'

/-- The map of a list of regions, later ones over earlier ones, with A20 disabled. -/
def new (regions : List Region) : Except PhysicalMapError PhysicalMemoryMap := do
  let pages ← regions.foldlM addRegion fun _ => .unmapped
  return ⟨pages, false⟩

def setA20Enabled (map : PhysicalMemoryMap) (enabled : Bool) : PhysicalMemoryMap := { map with a20Enabled := enabled }

variable (map : PhysicalMemoryMap)

def addressMask : BitVec 32 := if map.a20Enabled then BitVec.allOnes 32 else ~~~(1#32 <<< 20)

/-- The address on the physical bus, after the A20 gate. -/
def busAddress (address : BitVec 32) : BitVec 32 := address &&& map.addressMask

/-- Where one byte is routed. Addresses outside the table are unmapped. -/
def get (address : BitVec 32) : PhysicalMapping :=
  if address.toNat ≥ pageCount * pageBytes.toNat then .unmapped
  else
    let address := map.busAddress address
    let page := (address >>> pageShift).toNat
    (if h : page < pageCount then map.pages ⟨page, h⟩ else .unmapped).advance (address &&& pageMask)

/-- Entries of a kind and a backing offset each, then the address mask, all little-endian. -/
def toBytes : List (BitVec 8) :=
  (List.finRange pageCount).flatMap (fun page =>
    Memory.lowBytes 4 (map.pages page).words.1 ++ Memory.lowBytes 4 (map.pages page).words.2) ++
  Memory.lowBytes 4 map.addressMask

end PhysicalMemoryMap

end Relocade.Physical
