import Relocade.Physical.Devices
import Relocade.Physical.Routing
import Relocade.Segment.Profile

/-!
# `Physical.View` — host access to guest memory

The host reads and writes guest addresses through the same map as execution. A checked range is walked as spans of one
mapping: a page, or adjacent MMIO pages at adjacent bus addresses, which are transferred in chunks of eight bytes.
-/

namespace Relocade.Physical

open Segmentation (SegmentRegister)
open BitVec (toNat_add toNat_ofNat ofNat_toNat setWidth_eq)

inductive MemoryError where
  | addressRange
  | segmentRange
deriving DecidableEq

def rangeFits (address : BitVec 32) (len limit : Nat) : Prop := address.toNat + len ≤ limit

instance (address : BitVec 32) (len limit : Nat) : Decidable (rangeFits address len limit) :=
  inferInstanceAs (Decidable (_ ≤ _))

/-! ## Spans -/

/-- Bytes of one mapping, from a bus address on. -/
structure Span where
  mapping : PhysicalMapping
  address : BitVec 32
  len : Nat

/-- What is left of a checked range. -/
structure Spans where
  map : PhysicalMemoryMap
  address : BitVec 32
  remaining : Nat

namespace Spans

/-- The bytes from an address to the end of its page. -/
def inPage (address : BitVec 32) : Nat := (pageBytes - address % pageBytes).toNat

theorem inPage_eq (a : BitVec 32) : inPage a = 4096 - a.toNat % 4096 := by
  have hpage : pageBytes.toNat = 4096 := rfl
  have hmod : (a % pageBytes).toNat = a.toNat % 4096 := by rw [BitVec.toNat_umod, hpage]
  rw [inPage, BitVec.toNat_sub, hmod, hpage]
  omega

/-- The length of an MMIO span: a width-aware device access is kept intact across adjacent MMIO pages, but never
across an A20 discontinuity. -/
def extend (map : PhysicalMemoryMap) (start address : BitVec 32) (remaining len : Nat) : Nat :=
  if len < remaining then
    let next := start + BitVec.ofNat 32 len
    if map.get next ≠ .mmio ∨ map.busAddress next ≠ address + BitVec.ofNat 32 len then len
    else extend map start address remaining (len + min (remaining - len) (inPage next))
  else len
termination_by remaining - len
decreasing_by
  rw [inPage_eq]
  omega

/-- The first span. -/
def first (spans : Spans) : Span :=
  let len := min spans.remaining (inPage spans.address)
  let mapping := spans.map.get spans.address
  let address := spans.map.busAddress spans.address
  ⟨mapping, address, if mapping = .mmio then extend spans.map spans.address address spans.remaining len else len⟩

/-- A checked range may end exactly at `2 ^ 32`; no span follows that wrap. -/
def rest (spans : Spans) : Spans :=
  { spans with
    remaining := spans.remaining - spans.first.len
    address := spans.address + BitVec.ofNat 32 spans.first.len }

def next (spans : Spans) : Option (Span × Spans) :=
  if spans.remaining = 0 then none else some (spans.first, spans.rest)

theorem le_extend (map : PhysicalMemoryMap) (start a : BitVec 32) (rem len : Nat) :
    len ≤ extend map start a rem len := by
  induction len using extend.induct map start a rem with
  | case1 len hlt next hstop =>
    rw [extend, if_pos hlt, if_pos hstop]
  | case2 len hlt next hgo ih =>
    rw [extend, if_pos hlt, if_neg hgo]
    exact Nat.le_trans (Nat.le_add_right _ _) ih
  | case3 len hge => rw [extend, if_neg hge]

theorem first_pos (spans : Spans) (h : spans.remaining ≠ 0) : 0 < spans.first.len := by
  have hpage := inPage_eq spans.address
  rw [first]
  dsimp only
  split
  · exact Nat.lt_of_lt_of_le (by omega) (le_extend _ _ _ _ _)
  · omega

/-- The spans of a range, in order. -/
def collect (spans : Spans) : List Span :=
  if spans.remaining = 0 then [] else spans.first :: collect spans.rest
termination_by spans.remaining
decreasing_by
  next h =>
    have := first_pos spans h
    rw [rest]
    show spans.remaining - spans.first.len < spans.remaining
    omega

end Spans

/-! ## Reading and writing -/

/-- Guest memory through a map, with the devices where a bus is attached. -/
structure MemoryView where
  map : PhysicalMemoryMap
  io : Option IoBus

/-- A segment and an offset in it. -/
structure FarPointer where
  segment : BitVec 16
  offset : BitVec 16

namespace MemoryView

variable {D : Type} (devices : Devices D)

/-- Checks the range before walking its mappings. -/
def resolve (view : MemoryView) (address : BitVec 32) (len : Nat) : Except MemoryError Spans :=
  if rangeFits address len (2 ^ 32) then .ok ⟨view.map, address, len⟩ else .error .addressRange

/-- The chunks of an MMIO span from an index on; `none` is a panic. -/
def readChunks (io : IoBus) (address : BitVec 32) (index len : Nat) (state : HostState D) :
    Option (List (BitVec 8) × HostState D) :=
  if len = 0 then some ([], state)
  else
    (io.readMmio devices (address + BitVec.ofNat 32 (index * 8)) (min 8 len) state).bind fun read =>
      (readChunks io address (index + 1) (len - 8) read.2).map fun rest =>
        (Memory.lowBytes (min 8 len) read.1 ++ rest.1, rest.2)
termination_by len

def readSpan (view : MemoryView) (span : Span) (state : HostState D) : Option (List (BitVec 8) × HostState D) :=
  match span.mapping with
  | .ram offset | .rom offset => some (state.backing.read offset.toNat span.len, state)
  | .mmio => view.io.bind fun io => readChunks devices io span.address 0 span.len state
  | .unmapped => some (List.replicate span.len 0xff, state)

def readSpans (view : MemoryView) : List Span → HostState D → Option (List (BitVec 8) × HostState D)
  | [], state => some ([], state)
  | span :: spans, state =>
      (view.readSpan devices span state).bind fun read =>
        (readSpans view spans read.2).map fun rest => (read.1 ++ rest.1, rest.2)

/-- Reads a range of guest addresses. -/
def read (view : MemoryView) (address : BitVec 32) (len : Nat) (state : HostState D) :
    Option (Except MemoryError (List (BitVec 8)) × HostState D) :=
  match view.resolve address len with
  | .error error => some (.error error, state)
  | .ok spans => (view.readSpans devices spans.collect state).map fun result => (.ok result.1, result.2)

def writeChunks (io : IoBus) (address : BitVec 32) (index : Nat) (bytes : List (BitVec 8)) (state : HostState D) :
    Option (HostState D) :=
  if bytes.length = 0 then some state
  else
    (io.writeMmio devices (address + BitVec.ofNat 32 (index * 8)) (bytes.take 8).length
        (Memory.ofBytes 64 (bytes.take 8)) state).bind fun state =>
      writeChunks io address (index + 1) (bytes.drop 8) state
termination_by bytes.length
decreasing_by
  rw [List.length_drop]
  omega

def writeSpan (view : MemoryView) (span : Span) (bytes : List (BitVec 8)) (state : HostState D) :
    Option (HostState D) :=
  match span.mapping with
  | .ram offset => some { state with backing := state.backing.write offset.toNat bytes }
  | .mmio => view.io.bind fun io => writeChunks devices io span.address 0 bytes state
  | .rom _ | .unmapped => some state

def writeSpans (view : MemoryView) : List Span → List (BitVec 8) → HostState D → Option (HostState D)
  | [], _, state => some state
  | span :: spans, bytes, state =>
      if span.len ≤ bytes.length then
        (view.writeSpan devices span (bytes.take span.len) state).bind fun state =>
          writeSpans view spans (bytes.drop span.len) state
      else none

/-- Writes a range of guest addresses. -/
def write (view : MemoryView) (address : BitVec 32) (bytes : List (BitVec 8)) (state : HostState D) :
    Option (Except MemoryError Unit × HostState D) :=
  match view.resolve address bytes.length with
  | .error error => some (.error error, state)
  | .ok spans => (view.writeSpans devices spans.collect bytes state).map fun after => (.ok (), after)

/-! ## Segments -/

def segmentAddress (segment : SegmentRegister) (offset : BitVec 32) (len : Nat) : Except MemoryError (BitVec 32) :=
  if rangeFits offset len (segment.limit.toNat + 1) then
    if segment.base.toNat + offset.toNat < 2 ^ 32 then .ok (segment.base + offset) else .error .addressRange
  else .error .segmentRange

def readSegment (view : MemoryView) (segment : SegmentRegister) (offset : BitVec 32) (len : Nat)
    (state : HostState D) : Option (Except MemoryError (List (BitVec 8)) × HostState D) :=
  match segmentAddress segment offset len with
  | .error error => some (.error error, state)
  | .ok address => view.read devices address len state

def writeSegment (view : MemoryView) (segment : SegmentRegister) (offset : BitVec 32) (bytes : List (BitVec 8))
    (state : HostState D) : Option (Except MemoryError Unit × HostState D) :=
  match segmentAddress segment offset bytes.length with
  | .error error => some (.error error, state)
  | .ok address => view.write devices address bytes state

/-- The parts of a buffer from an offset on, which wraps within the segment. -/
def readParts (view : MemoryView) (segment : SegmentRegister) (offset : BitVec 16) (len : Nat) (state : HostState D) :
    Option (Except MemoryError (List (BitVec 8)) × HostState D) :=
  if len = 0 then some (.ok [], state)
  else
    (view.readSegment devices segment (offset.setWidth 32) (min len (0x10000 - offset.toNat)) state).bind fun part =>
      match part.1 with
      | .error error => some (.error error, part.2)
      | .ok bytes =>
          (readParts view segment 0 (len - min len (0x10000 - offset.toNat)) part.2).map fun rest =>
            (rest.1.map (bytes ++ ·), rest.2)
termination_by len

/-- Reads a real-mode buffer, wrapping its 16-bit offset within the same segment. -/
def readWrapping (view : MemoryView) (pointer : FarPointer) (len : Nat) (state : HostState D) :
    Option (Except MemoryError (List (BitVec 8)) × HostState D) :=
  view.readParts devices (SegmentRegister.realMode .ds pointer.segment) pointer.offset len state

/-- Writes up to the end of the segment, then from its start. -/
def writeParts (view : MemoryView) (segment : SegmentRegister) (offset : BitVec 16) (bytes : List (BitVec 8))
    (state : HostState D) : Option (Except MemoryError Unit × HostState D) :=
  if bytes.length = 0 then some (.ok (), state)
  else
    (view.writeSegment devices segment (offset.setWidth 32) (bytes.take (min bytes.length (0x10000 - offset.toNat)))
        state).bind fun part =>
      match part.1 with
      | .error error => some (.error error, part.2)
      | .ok () => writeParts view segment 0 (bytes.drop (min bytes.length (0x10000 - offset.toNat))) part.2
termination_by bytes.length
decreasing_by
  rw [List.length_drop]
  omega

/-- Writes a real-mode buffer, wrapping its 16-bit offset within the same segment. -/
def writeWrapping (view : MemoryView) (pointer : FarPointer) (bytes : List (BitVec 8)) (state : HostState D) :
    Option (Except MemoryError Unit × HostState D) :=
  view.writeParts devices (SegmentRegister.realMode .ds pointer.segment) pointer.offset bytes state

end MemoryView

/-! ## Where each byte goes -/

section Routes

variable {map : PhysicalMemoryMap}

/-- Where the map sends the byte of an address. -/
def PhysicalMemoryMap.route (map : PhysicalMemoryMap) (address : Nat) : Route :=
  match map.get (.ofNat 32 address) with
  | .ram offset => .ram offset.toNat
  | .rom offset => .rom offset.toNat
  | .unmapped => .hole
  | .mmio => .bus (map.busAddress (.ofNat 32 address)).toNat

/-- Within a page the mapping advances with the address. -/
theorem get_within {a j : Nat} (haj : a + j < 0x110000) (hj : a % 4096 + j < 4096) :
    map.get (.ofNat 32 (a + j)) = (map.get (.ofNat 32 a)).advance (.ofNat 32 j) := by
  have ha' : (BitVec.ofNat 32 a).toNat < 0x110000 := by rw [toNat_ofNat_lt] <;> omega
  have haj' : (BitVec.ofNat 32 (a + j)).toNat < 0x110000 := by rwa [toNat_ofNat_lt haj]
  have hbus := busAddress_add map haj hj
  have hmod : (map.busAddress (.ofNat 32 a)).toNat % 4096 = a % 4096 := busAddress_mod (by omega)
  have hpage : page map (.ofNat 32 (a + j)) haj' = page map (.ofNat 32 a) ha' := by
    simp only [page, toNat_page, hbus]
    congr 2
    omega
  have hmask : map.busAddress (.ofNat 32 (a + j)) &&& pageMask =
      (map.busAddress (.ofNat 32 a) &&& pageMask) + .ofNat 32 j := by
    refine BitVec.eq_of_toNat_eq ?_
    rw [toNat_add, toNat_pageMask, toNat_pageMask, hbus, toNat_ofNat]
    omega
  rw [get_eq ha', get_eq haj', hpage, hmask]
  cases page map (.ofNat 32 a) ha' with
  | unmapped => rfl
  | mmio => rfl
  | ram backing => simp only [PhysicalMapping.advance, BitVec.add_assoc]
  | rom backing => simp only [PhysicalMapping.advance, BitVec.add_assoc]

/-- Past the table there are holes. -/
theorem get_past {a : Nat} (ha : 0x110000 ≤ a) (hlt : a < 2 ^ 32) : map.get (.ofNat 32 a) = .unmapped := by
  refine if_pos ?_
  rw [toNat_ofNat, Nat.mod_eq_of_lt hlt]
  exact ha

theorem lt_of_get {a : Nat} (hlt : a < 2 ^ 32) (h : map.get (.ofNat 32 a) ≠ .unmapped) : a < 0x110000 := by
  by_contra hge
  exact h (get_past (Nat.not_lt.mp hge) hlt)

theorem busAddress_le (map : PhysicalMemoryMap) (a : BitVec 32) : (map.busAddress a).toNat ≤ a.toNat := by
  rw [PhysicalMemoryMap.busAddress, BitVec.toNat_and]
  exact Nat.and_le_left

end Routes

/-! ## Spans tile a range -/

namespace Spans

variable {map : PhysicalMemoryMap}

/-- The bytes of a span are routed together. -/
def Covers (map : PhysicalMemoryMap) (a : Nat) (span : Span) : Prop :=
  match span.mapping with
  | .ram offset => ∀ j < span.len, map.route (a + j) = .ram (offset.toNat + j)
  | .rom offset => ∀ j < span.len, map.route (a + j) = .rom (offset.toNat + j)
  | .unmapped => ∀ j < span.len, map.route (a + j) = .hole
  | .mmio => span.address.toNat + span.len ≤ 2 ^ 32 ∧
      ∀ j < span.len, map.route (a + j) = .bus (span.address.toNat + j)

/-- Spans that follow each other from one address to another. -/
inductive Tiles (map : PhysicalMemoryMap) : Nat → Nat → List Span → Prop where
  | nil {a} : Tiles map a a []
  | cons {a stop span spans} : 0 < span.len → Covers map a span → Tiles map (a + span.len) stop spans →
      Tiles map a stop (span :: spans)

theorem Tiles.le {a stop : Nat} {spans : List Span} (h : Tiles map a stop spans) : a ≤ stop := by
  induction h with
  | nil => exact Nat.le_refl _
  | cons _ _ _ ih => exact Nat.le_trans (Nat.le_add_right _ _) ih

/-- Every byte of an extended MMIO span is MMIO, at the next bus address. -/
theorem extend_spec {a rem len : Nat} (hfits : a + rem ≤ 2 ^ 32) (hlen : len ≤ rem)
    (hmmio : ∀ j < len, map.get (.ofNat 32 (a + j)) = .mmio ∧
      (map.busAddress (.ofNat 32 (a + j))).toNat = (map.busAddress (.ofNat 32 a)).toNat + j) :
    let extended := extend map (.ofNat 32 a) (map.busAddress (.ofNat 32 a)) rem len
    extended ≤ rem ∧ ∀ j < extended, map.get (.ofNat 32 (a + j)) = .mmio ∧
      (map.busAddress (.ofNat 32 (a + j))).toNat = (map.busAddress (.ofNat 32 a)).toNat + j := by
  induction len using extend.induct map (.ofNat 32 a) (map.busAddress (.ofNat 32 a)) rem with
  | case1 len hlt next hstop =>
    rw [extend, if_pos hlt, if_pos hstop]
    exact ⟨hlen, hmmio⟩
  | case2 len hlt next hgo ih =>
    rw [extend, if_pos hlt, if_neg hgo]
    rw [not_or, not_not, not_not] at hgo
    have hnext : next = .ofNat 32 (a + len) := (BitVec.ofNat_add a len).symm
    have hnat : next.toNat = a + len := by
      rw [hnext, toNat_ofNat]
      omega
    rw [hnext] at hgo
    have hbound := @lt_of_get map (a + len) (by omega) (by rw [hgo.1]; exact fun h => by cases h)
    have hbus : (map.busAddress (.ofNat 32 (a + len))).toNat = (map.busAddress (.ofNat 32 a)).toNat + len := by
      have hle := busAddress_le map (.ofNat 32 a)
      rw [toNat_ofNat] at hle
      rw [hgo.2, toNat_add, toNat_ofNat]
      omega
    refine ih (by omega) fun j hj => ?_
    rw [inPage_eq, hnat] at hj
    rcases Nat.lt_or_ge j len with hold | hnew
    · exact hmmio j hold
    · obtain ⟨k, rfl⟩ := Nat.exists_eq_add_of_le hnew
      rw [← Nat.add_assoc]
      refine ⟨?_, ?_⟩
      · rw [get_within (by omega) (by omega), hgo.1]
        rfl
      · rw [busAddress_add map (by omega) (by omega), hbus, Nat.add_assoc]
  | case3 len hge =>
    rw [extend, if_neg hge]
    exact ⟨hlen, hmmio⟩

/-- The first span covers bytes of the range. -/
theorem first_covers (hal : Aligned map.pages) {a rem : Nat} (hfits : a + rem ≤ 2 ^ 32)
    (hpos : rem ≠ 0) :
    let span := (⟨map, .ofNat 32 a, rem⟩ : Spans).first
    span.len ≤ rem ∧ Covers map a span := by
  have hpage := inPage_eq (.ofNat 32 a)
  have ha : (BitVec.ofNat 32 a).toNat = a := by
    rw [toNat_ofNat]
    omega
  rw [ha] at hpage
  intro span
  cases hget : map.get (.ofNat 32 a) with
  | unmapped =>
    have hspan : span = ⟨.unmapped, map.busAddress (.ofNat 32 a), min rem (inPage (.ofNat 32 a))⟩ := by
      simp [span, first, hget]
    rw [hspan]
    refine ⟨Nat.min_le_left _ _, fun j hj => ?_⟩
    dsimp only at hj
    have hunmapped : map.get (.ofNat 32 (a + j)) = .unmapped := by
      rcases Nat.lt_or_ge (a + j) 0x110000 with hlt | hge
      · rw [get_within hlt (by omega), hget]
        rfl
      · exact get_past hge (by omega)
    rw [PhysicalMemoryMap.route, hunmapped]
  | ram o =>
    have hbound := @lt_of_get map a (by omega) (by rw [hget]; exact fun h => by cases h)
    have hspan : span = ⟨.ram o, map.busAddress (.ofNat 32 a), min rem (inPage (.ofNat 32 a))⟩ := by
      simp [span, first, hget]
    rw [hspan]
    refine ⟨Nat.min_le_left _ _, fun j hj => ?_⟩
    dsimp only at hj
    obtain ⟨advanced, hoff, hram⟩ := (get_add hal (a := a) (j := j) (by omega) (by omega) o).1 hget
    rw [PhysicalMemoryMap.route, hram, ← hoff]
  | rom o =>
    have hbound := @lt_of_get map a (by omega) (by rw [hget]; exact fun h => by cases h)
    have hspan : span = ⟨.rom o, map.busAddress (.ofNat 32 a), min rem (inPage (.ofNat 32 a))⟩ := by
      simp [span, first, hget]
    rw [hspan]
    refine ⟨Nat.min_le_left _ _, fun j hj => ?_⟩
    dsimp only at hj
    obtain ⟨advanced, hoff, hrom⟩ := (get_add hal (a := a) (j := j) (by omega) (by omega) o).2 hget
    rw [PhysicalMemoryMap.route, hrom, ← hoff]
  | mmio =>
    have hbound := @lt_of_get map a (by omega) (by rw [hget]; exact fun h => by cases h)
    have hspan : span = ⟨.mmio, map.busAddress (.ofNat 32 a), extend map (.ofNat 32 a)
        (map.busAddress (.ofNat 32 a)) rem (min rem (inPage (.ofNat 32 a)))⟩ := by
      simp [span, first, hget]
    obtain ⟨hle, hmmio⟩ := extend_spec hfits (Nat.min_le_left rem (inPage (.ofNat 32 a)))
      fun j hj => by
        refine ⟨?_, busAddress_add map (by omega) (by omega)⟩
        rw [get_within (by omega) (by omega), hget]
        rfl
    have hbus := busAddress_le map (.ofNat 32 a)
    rw [hspan]
    refine ⟨hle, ?_, fun j hj => ?_⟩
    · show (map.busAddress (.ofNat 32 a)).toNat + extend map (.ofNat 32 a) (map.busAddress (.ofNat 32 a)) rem
        (min rem (inPage (.ofNat 32 a))) ≤ 2 ^ 32
      omega
    · obtain ⟨hmmio, hbus⟩ := hmmio j hj
      rw [PhysicalMemoryMap.route, hmmio, ← hbus]

/-- The walk over a checked range ends, and its spans tile the range. -/
theorem collect_tiles (hal : Aligned map.pages) {a rem : Nat} (hfits : a + rem ≤ 2 ^ 32) :
    Tiles map a (a + rem) (collect ⟨map, .ofNat 32 a, rem⟩) := by
  induction rem using Nat.strongRecOn generalizing a with
  | ind rem ih =>
    rw [collect]
    by_cases hpos : rem = 0
    · rw [if_pos hpos, hpos]
      exact .nil
    · rw [if_neg hpos]
      obtain ⟨hle, hcov⟩ := first_covers hal hfits hpos
      have hlen := first_pos ⟨map, .ofNat 32 a, rem⟩ hpos
      refine .cons hlen hcov ?_
      have hrest : (⟨map, .ofNat 32 a, rem⟩ : Spans).rest =
          ⟨map, .ofNat 32 (a + (⟨map, .ofNat 32 a, rem⟩ : Spans).first.len),
            rem - (⟨map, .ofNat 32 a, rem⟩ : Spans).first.len⟩ := by
        rw [rest, BitVec.ofNat_add]
      have htiles := ih (rem - (⟨map, .ofNat 32 a, rem⟩ : Spans).first.len) (by omega)
        (a := a + (⟨map, .ofNat 32 a, rem⟩ : Spans).first.len) (by omega)
      rw [hrest]
      rwa [show a + (⟨map, .ofNat 32 a, rem⟩ : Spans).first.len +
        (rem - (⟨map, .ofNat 32 a, rem⟩ : Spans).first.len) = a + rem by omega] at htiles

end Spans

/-! ## Ranges follow the route -/

namespace MemoryView

variable {D : Type} (devices : Devices D) {map : PhysicalMemoryMap} (io : IoBus) {route : Nat → Route}

/-- Backing bytes that are adjacent. -/
theorem reads_backing {i n o : Nat} (state : HostState D)
    (h : ∀ j < n, route (i + j) = .ram (o + j) ∨ route (i + j) = .rom (o + j)) :
    Transfer.Reads devices io route i (i + n) state (state.backing.read o n) state := by
  induction n generalizing i o with
  | zero => exact .done
  | succ n ih =>
    rw [Memory.read_succ]
    refine .backing (h 0 (Nat.succ_pos n)) ?_
    rw [Nat.add_comm n 1, ← Nat.add_assoc]
    refine ih fun j hj => ?_
    rw [Nat.add_assoc, Nat.add_assoc]
    exact h (1 + j) (by omega)

theorem reads_hole {i n : Nat} (state : HostState D) (h : ∀ j < n, route (i + j) = .hole) :
    Transfer.Reads devices io route i (i + n) state (List.replicate n 0xff) state := by
  induction n generalizing i with
  | zero => exact .done
  | succ n ih =>
    refine .hole (h 0 (Nat.succ_pos n)) ?_
    rw [Nat.add_comm n 1, ← Nat.add_assoc]
    refine ih fun j hj => ?_
    rw [Nat.add_assoc]
    exact h (1 + j) (by omega)

variable {address a : BitVec 32}

/-- The chunks of an MMIO span are read from its devices. -/
theorem readChunks_spec (index i : Nat) {len : Nat}
    (hfits : len ≠ 0 → a.toNat + index * 8 + len ≤ 2 ^ 32)
    (hroute : ∀ j < len, route (i + j) = .bus (a.toNat + index * 8 + j)) (state : HostState D) :
    ∃ bs after, readChunks devices io a index len state = some (bs, after) ∧
      Transfer.Reads devices io route i (i + len) state bs after := by
  induction len using Nat.strongRecOn generalizing index i state with
  | ind len ih =>
    rw [readChunks]
    by_cases hlen : len = 0
    · rw [if_pos hlen, hlen]
      exact ⟨[], state, rfl, .done⟩
    · rw [if_neg hlen]
      have hfits := hfits hlen
      have hcur : (a + BitVec.ofNat 32 (index * 8)).toNat = a.toNat + index * 8 := by
        rw [toNat_add, toNat_ofNat]
        omega
      have hcheck : IoBus.checkMmioRange (a + BitVec.ofNat 32 (index * 8)) (min 8 len) :=
        ⟨by omega, Nat.min_le_left _ _, by omega⟩
      obtain ⟨read, middle, hread, hrd⟩ := IoBus.readMmio_spec devices io hcheck (i := i)
        (fun j hj => by rw [hcur]; exact hroute j (by omega)) state
      obtain ⟨rest, after, hrest, hlast⟩ := ih (len - 8) (by omega) (index + 1)
        (i + min 8 len) (by omega) (fun j hj => by
          rw [Nat.add_assoc, hroute (min 8 len + j) (by omega), show min 8 len = 8 by omega, Nat.add_one_mul]
          congr 1
          omega) middle
      have hlength := hrd.length
      have hbytes : Memory.lowBytes (min 8 len) (Memory.ofBytes 64 read) = read := by
        have hcnt : read.length = min 8 len := by omega
        rw [← hcnt]
        exact Memory.lowBytes_ofBytes (by omega)
      refine ⟨read ++ rest, after, ?_, ?_⟩
      · rw [hread, Option.bind_some, hrest, Option.map_some, hbytes]
      · rw [show i + min 8 len + (len - 8) = i + len by omega] at hlast
        exact hrd.trans hlast

/-- A span that is covered is read where its bytes are routed. -/
theorem readSpan_spec {a : Nat} {span : Span} (hcov : Spans.Covers map a span) (state : HostState D) :
    ∃ bs after, (⟨map, some io⟩ : MemoryView).readSpan devices span state = some (bs, after) ∧
      Transfer.Reads devices io map.route a (a + span.len) state bs after := by
  rw [Spans.Covers] at hcov
  rw [readSpan]
  cases hmapping : span.mapping with
  | unmapped =>
    rw [hmapping] at hcov
    exact ⟨_, _, rfl, reads_hole devices io state hcov⟩
  | ram o =>
    rw [hmapping] at hcov
    exact ⟨_, _, rfl, reads_backing devices io state fun j hj => Or.inl (hcov j hj)⟩
  | rom o =>
    rw [hmapping] at hcov
    exact ⟨_, _, rfl, reads_backing devices io state fun j hj => Or.inr (hcov j hj)⟩
  | mmio =>
    rw [hmapping] at hcov
    exact readChunks_spec devices io 0 a (fun _ => by omega)
      (fun j hj => by rw [hcov.2 j hj, Nat.zero_mul, Nat.add_zero]) state

theorem readSpans_spec {a stop : Nat} {spans : List Span} (htiles : Spans.Tiles map a stop spans)
    (state : HostState D) :
    ∃ bs after, (⟨map, some io⟩ : MemoryView).readSpans devices spans state = some (bs, after) ∧
      Transfer.Reads devices io map.route a stop state bs after := by
  induction htiles generalizing state with
  | nil => exact ⟨[], state, rfl, .done⟩
  | cons hpos hcov _ ih =>
    obtain ⟨bs, middle, hspan, hrd⟩ := readSpan_spec devices io hcov state
    obtain ⟨rest, after, hrest, hlast⟩ := ih middle
    refine ⟨bs ++ rest, after, ?_, hrd.trans hlast⟩
    rw [readSpans, hspan, Option.bind_some, hrest, Option.map_some]

/-- A read of a range of addresses is the read of its bytes, where the map sends them. -/
theorem read_spec (hal : Aligned map.pages) {len : Nat}
    (hfits : a.toNat + len ≤ 2 ^ 32) (state : HostState D) :
    ∃ bs after, (⟨map, some io⟩ : MemoryView).read devices a len state = some (.ok bs, after) ∧
      Transfer.Reads devices io map.route a.toNat (a.toNat + len) state bs after := by
  have haddr : BitVec.ofNat 32 a.toNat = a := by rw [ofNat_toNat, setWidth_eq]
  have htiles := Spans.collect_tiles hal hfits
  rw [haddr] at htiles
  obtain ⟨bs, after, hspans, hrd⟩ := readSpans_spec devices io htiles state
  refine ⟨bs, after, ?_, hrd⟩
  have hrsv : (⟨map, some io⟩ : MemoryView).resolve a len = .ok ⟨map, a, len⟩ := if_pos hfits
  rw [read, hrsv]
  dsimp only
  rw [hspans]
  rfl

variable {bytes bs : List (BitVec 8)}

/-- Backing bytes may be written one by one. -/
theorem writes_ram {i o : Nat} (state : HostState D)
    (h : ∀ j < bs.length, route (i + j) = .ram (o + j)) :
    Transfer.Writes devices io route i (i + bs.length) bs state
      { state with backing := state.backing.write o bs } := by
  induction bs generalizing i o state with
  | nil =>
    rw [Memory.write_nil]
    exact .done
  | cons byte bs ih =>
    refine .ram (h 0 (Nat.succ_pos _)) ?_
    have hrest := @ih (i + 1) (o + 1)
      { state with backing := state.backing.write o [byte] } fun j hj => by
        rw [Nat.add_assoc, Nat.add_assoc]
        exact h (1 + j) (by rw [List.length_cons]; omega)
    dsimp only at hrest
    rw [Memory.write_cons] at hrest
    rwa [List.length_cons, Nat.add_comm bs.length 1, ← Nat.add_assoc]

theorem writes_dropped {i : Nat} (state : HostState D)
    (h : ∀ j < bs.length, route (i + j) = .hole ∨ ∃ o, route (i + j) = .rom o) :
    Transfer.Writes devices io route i (i + bs.length) bs state state := by
  induction bs generalizing i with
  | nil => exact .done
  | cons byte bs ih =>
    refine .dropped (h 0 (Nat.succ_pos _)) ?_
    rw [List.length_cons, Nat.add_comm bs.length 1, ← Nat.add_assoc]
    refine ih fun j hj => ?_
    rw [Nat.add_assoc]
    exact h (1 + j) (by rw [List.length_cons]; omega)

/-- The chunks of an MMIO span are written to its devices. -/
theorem writeChunks_spec (index i : Nat) (bs : List (BitVec 8))
    (hfits : bs.length ≠ 0 → a.toNat + index * 8 + bs.length ≤ 2 ^ 32)
    (hroute : ∀ j < bs.length, route (i + j) = .bus (a.toNat + index * 8 + j)) (state : HostState D) :
    ∃ after, writeChunks devices io a index bs state = some after ∧
      Transfer.Writes devices io route i (i + bs.length) bs state after := by
  induction hlen : bs.length using Nat.strongRecOn generalizing index i bs state with
  | ind len ih =>
    rw [writeChunks]
    by_cases hemp : bs.length = 0
    · rw [if_pos hemp, ← hlen, List.length_eq_zero_iff.mp hemp]
      exact ⟨state, rfl, .done⟩
    · rw [if_neg hemp]
      have hfits := hfits hemp
      have hcur : (a + BitVec.ofNat 32 (index * 8)).toNat = a.toNat + index * 8 := by
        rw [toNat_add, toNat_ofNat]
        omega
      have htake : (bs.take 8).length = min 8 len := by rw [List.length_take, hlen]
      have hdrop : (bs.drop 8).length = len - 8 := by rw [List.length_drop, hlen]
      have hcheck : IoBus.checkMmioRange (a + BitVec.ofNat 32 (index * 8)) (bs.take 8).length :=
        ⟨by omega, by omega, by omega⟩
      obtain ⟨middle, hwr, hwrites⟩ := IoBus.writeMmio_spec devices io hcheck (i := i)
        (fun j hj => by rw [hcur]; exact hroute j (by omega)) (Memory.ofBytes 64 (bs.take 8)) state
      rw [Memory.lowBytes_ofBytes (by omega)] at hwrites
      obtain ⟨after, hrest, hlast⟩ := ih (len - 8) (by omega) (index + 1)
        (i + min 8 len) (bs.drop 8) (by omega) (fun j hj => by
          rw [Nat.add_assoc, hroute (min 8 len + j) (by omega), show min 8 len = 8 by omega, Nat.add_one_mul]
          congr 1
          omega) middle hdrop
      refine ⟨after, ?_, ?_⟩
      · rw [hwr, Option.bind_some, hrest]
      · rw [show i + min 8 len + (len - 8) = i + len by omega] at hlast
        rw [htake] at hwrites
        have hall := hwrites.trans hlast
        rwa [List.take_append_drop] at hall

theorem writeSpan_spec {a : Nat} {span : Span} (hcov : Spans.Covers map a span) (bs : List (BitVec 8))
    (hlength : bs.length = span.len) (state : HostState D) :
    ∃ after, (⟨map, some io⟩ : MemoryView).writeSpan devices span bs state = some after ∧
      Transfer.Writes devices io map.route a (a + span.len) bs state after := by
  rw [Spans.Covers, ← hlength] at hcov
  rw [writeSpan, ← hlength]
  cases hmapping : span.mapping with
  | unmapped =>
    rw [hmapping] at hcov
    exact ⟨_, rfl, writes_dropped devices io state fun j hj => Or.inl (hcov j hj)⟩
  | ram o =>
    rw [hmapping] at hcov
    exact ⟨_, rfl, writes_ram devices io state hcov⟩
  | rom o =>
    rw [hmapping] at hcov
    exact ⟨_, rfl, writes_dropped devices io state fun j hj => Or.inr ⟨_, hcov j hj⟩⟩
  | mmio =>
    rw [hmapping] at hcov
    exact writeChunks_spec devices io 0 a bs (fun _ => by omega)
      (fun j hj => by rw [hcov.2 j hj, Nat.zero_mul, Nat.add_zero]) state

theorem writeSpans_spec {a stop : Nat} {spans : List Span} (htiles : Spans.Tiles map a stop spans)
    (bs : List (BitVec 8)) (hlength : a + bs.length = stop) (state : HostState D) :
    ∃ after, (⟨map, some io⟩ : MemoryView).writeSpans devices spans bs state = some after ∧
      Transfer.Writes devices io map.route a stop bs state after := by
  induction htiles generalizing bs state with
  | nil =>
    obtain rfl : bs = [] := List.length_eq_zero_iff.mp (by omega)
    exact ⟨state, rfl, .done⟩
  | @cons a stop span spans hpos hcov htiles ih =>
    have hle : span.len ≤ bs.length := by
      have := htiles.le
      omega
    obtain ⟨middle, hspan, hwrites⟩ := writeSpan_spec devices io hcov
      (bs.take span.len) (by rw [List.length_take]; omega) state
    obtain ⟨after, hrest, hlast⟩ := ih (bs.drop span.len) (by rw [List.length_drop]; omega) middle
    refine ⟨after, ?_, ?_⟩
    · rw [writeSpans, if_pos hle, hspan, Option.bind_some, hrest]
    · have hall := hwrites.trans hlast
      rwa [List.take_append_drop] at hall

theorem write_spec (hal : Aligned map.pages)
    (hfits : a.toNat + bs.length ≤ 2 ^ 32) (state : HostState D) :
    ∃ after, (⟨map, some io⟩ : MemoryView).write devices a bs state = some (.ok (), after) ∧
      Transfer.Writes devices io map.route a.toNat (a.toNat + bs.length) bs state after := by
  have haddr : BitVec.ofNat 32 a.toNat = a := by rw [ofNat_toNat, setWidth_eq]
  have htiles := Spans.collect_tiles hal hfits
  rw [haddr] at htiles
  obtain ⟨after, hspans, hwrites⟩ := writeSpans_spec devices io htiles bs rfl state
  refine ⟨after, ?_, hwrites⟩
  have hrsv : (⟨map, some io⟩ : MemoryView).resolve a bs.length = .ok ⟨map, a, bs.length⟩ :=
    if_pos hfits
  rw [write, hrsv]
  dsimp only
  rw [hspans]
  rfl

/-! ## Buffers that wrap in a segment -/

/-- The linear address of a byte of a buffer, whose 16-bit offset wraps. -/
def wrapped (pointer : FarPointer) (i : Nat) : Nat := pointer.segment.toNat * 16 + (pointer.offset.toNat + i) % 2 ^ 16

/-- A part of a buffer that does not wrap lies in the segment and in the address space. -/
theorem segmentAddress_spec (seg o : BitVec 16) {len : Nat} (hlen : o.toNat + len ≤ 2 ^ 16) :
    ∃ a : BitVec 32,
      segmentAddress (SegmentRegister.realMode .ds seg) (o.setWidth 32) len = .ok a ∧
        a.toNat = seg.toNat * 16 + o.toNat ∧ a.toNat + len ≤ 2 ^ 32 := by
  have hseg := seg.isLt
  have hoff : (o.setWidth 32).toNat = o.toNat := BitVec.toNat_setWidth_of_le (by omega)
  have hbase : (SegmentRegister.realMode .ds seg).base.toNat = seg.toNat * 16 := by
    show (seg.setWidth 32 <<< 4).toNat = _
    rw [BitVec.toNat_shiftLeft, BitVec.toNat_setWidth_of_le (by omega), Nat.shiftLeft_eq]
    omega
  have hlimit : (SegmentRegister.realMode .ds seg).limit.toNat = 0xffff := rfl
  have hsum : ((SegmentRegister.realMode .ds seg).base + o.setWidth 32).toNat = seg.toNat * 16 + o.toNat := by
    rw [toNat_add, hbase, hoff]
    omega
  refine ⟨_, ?_, hsum, by omega⟩
  rw [segmentAddress, if_pos (by rw [rangeFits, hoff, hlimit]; omega), if_pos (by rw [hbase, hoff]; omega)]

/-- A part that does not wrap is read at its wrapped addresses. -/
theorem readSegment_spec (hal : Aligned map.pages) (seg o : BitVec 16) (len : Nat)
    (hlen : o.toNat + len ≤ 2 ^ 16) (state : HostState D) :
    ∃ bs after, (⟨map, some io⟩ : MemoryView).readSegment devices (SegmentRegister.realMode .ds seg)
        (o.setWidth 32) len state = some (.ok bs, after) ∧
      Transfer.Reads devices io (fun i => map.route (wrapped ⟨seg, o⟩ i)) 0 len state bs after := by
  obtain ⟨a, hseg, haddr, hfits⟩ := segmentAddress_spec seg o hlen
  obtain ⟨bs, after, hread, hrd⟩ := read_spec devices io hal hfits state
  refine ⟨bs, after, ?_, ?_⟩
  · rw [readSegment, hseg]
    exact hread
  · have hlength := hrd.length
    have hixd := hrd.reindex (fun i => map.route (wrapped ⟨seg, o⟩ i)) 0 fun j hj => by
      show map.route (seg.toNat * 16 + (o.toNat + (0 + j)) % 2 ^ 16) = map.route (a.toNat + j)
      rw [haddr, Nat.mod_eq_of_lt (by omega)]
      congr 1
      omega
    rwa [show 0 + bs.length = len by omega] at hixd

theorem writeSegment_spec (hal : Aligned map.pages) (seg o : BitVec 16) (bs : List (BitVec 8))
    (hlen : o.toNat + bs.length ≤ 2 ^ 16) (state : HostState D) :
    ∃ after, (⟨map, some io⟩ : MemoryView).writeSegment devices (SegmentRegister.realMode .ds seg)
        (o.setWidth 32) bs state = some (.ok (), after) ∧
      Transfer.Writes devices io (fun i => map.route (wrapped ⟨seg, o⟩ i)) 0 bs.length bs state
        after := by
  obtain ⟨a, hseg, haddr, hfits⟩ := segmentAddress_spec seg o hlen
  obtain ⟨after, hwr, hwrites⟩ := write_spec devices io hal hfits state
  refine ⟨after, ?_, ?_⟩
  · rw [writeSegment, hseg]
    exact hwr
  · have hixd := hwrites.reindex (fun i => map.route (wrapped ⟨seg, o⟩ i)) 0 fun j hj => by
      show map.route (seg.toNat * 16 + (o.toNat + (0 + j)) % 2 ^ 16) = map.route (a.toNat + j)
      rw [haddr, Nat.mod_eq_of_lt (by omega)]
      congr 1
      omega
    rwa [Nat.zero_add] at hixd

/-- After a part that reaches the end of the segment, the buffer goes on at its start. -/
theorem wrapped_next (seg o : BitVec 16) {len j : Nat} (hj : j < len - min len (0x10000 - o.toNat)) :
    wrapped ⟨seg, o⟩ (min len (0x10000 - o.toNat) + j) = wrapped ⟨seg, 0⟩ (0 + j) := by
  have hoff := o.isLt
  show seg.toNat * 16 + (o.toNat + (min len (0x10000 - o.toNat) + j)) % 2 ^ 16 =
    seg.toNat * 16 + (0 + (0 + j)) % 2 ^ 16
  omega

theorem readParts_spec (hal : Aligned map.pages) (seg o : BitVec 16) (len : Nat) (state : HostState D) :
    ∃ bs after, (⟨map, some io⟩ : MemoryView).readParts devices (SegmentRegister.realMode .ds seg) o len
        state = some (.ok bs, after) ∧
      Transfer.Reads devices io (fun i => map.route (wrapped ⟨seg, o⟩ i)) 0 len state bs after := by
  induction len using Nat.strongRecOn generalizing o state with
  | ind len ih =>
    rw [readParts]
    by_cases hlen : len = 0
    · rw [if_pos hlen, hlen]
      exact ⟨[], state, rfl, .done⟩
    · rw [if_neg hlen]
      have hoff := o.isLt
      obtain ⟨bs, middle, hread, hrd⟩ := readSegment_spec devices io hal seg o
        (min len (0x10000 - o.toNat)) (by omega) state
      obtain ⟨rest, after, hrest, hlast⟩ := ih (len - min len (0x10000 - o.toNat)) (by omega) 0 middle
      have hlength := hlast.length
      have hnext := hlast.reindex (fun i => map.route (wrapped ⟨seg, o⟩ i))
        (min len (0x10000 - o.toNat)) fun j hj => by
          show map.route _ = map.route _
          rw [wrapped_next seg o (by omega)]
      rw [show min len (0x10000 - o.toNat) + rest.length = len by omega] at hnext
      refine ⟨bs ++ rest, after, ?_, hrd.trans hnext⟩
      rw [hread, Option.bind_some]
      dsimp only
      rw [hrest]
      rfl

theorem writeParts_spec (hal : Aligned map.pages) (seg o : BitVec 16) (bs : List (BitVec 8))
    (state : HostState D) :
    ∃ after, (⟨map, some io⟩ : MemoryView).writeParts devices (SegmentRegister.realMode .ds seg) o bs
        state = some (.ok (), after) ∧
      Transfer.Writes devices io (fun i => map.route (wrapped ⟨seg, o⟩ i)) 0 bs.length bs state
        after := by
  induction hlen : bs.length using Nat.strongRecOn generalizing o bs state with
  | ind len ih =>
    rw [writeParts]
    by_cases hemp : bs.length = 0
    · rw [if_pos hemp, ← hlen, List.length_eq_zero_iff.mp hemp]
      exact ⟨state, rfl, .done⟩
    · rw [if_neg hemp, hlen]
      have hoff := o.isLt
      have htake : (bs.take (min len (0x10000 - o.toNat))).length = min len (0x10000 - o.toNat) := by
        rw [List.length_take, hlen]
        omega
      have hdrop : (bs.drop (min len (0x10000 - o.toNat))).length =
          len - min len (0x10000 - o.toNat) := by rw [List.length_drop, hlen]
      obtain ⟨middle, hwr, hwrites⟩ := writeSegment_spec devices io hal seg o
        (bs.take (min len (0x10000 - o.toNat))) (by omega) state
      obtain ⟨after, hrest, hlast⟩ := ih (len - min len (0x10000 - o.toNat)) (by omega) 0
        (bs.drop (min len (0x10000 - o.toNat))) middle hdrop
      have hnext := hlast.reindex (fun i => map.route (wrapped ⟨seg, o⟩ i))
        (min len (0x10000 - o.toNat)) fun j hj => by
          show map.route _ = map.route _
          rw [wrapped_next seg o (by omega)]
      rw [hdrop, show min len (0x10000 - o.toNat) + (len - min len (0x10000 - o.toNat)) = len by omega]
        at hnext
      rw [htake] at hwrites
      have hall := hwrites.trans hnext
      rw [List.take_append_drop] at hall
      refine ⟨after, ?_, hall⟩
      rw [hwr, Option.bind_some]
      exact hrest

end MemoryView

/-! ## Main results -/

section Agreement

variable {D : Type}

variable {devices : Devices D}

/-- What an access returns and leaves when its range does not fit. -/
theorem MemoryView.read_error {view : MemoryView} {a : BitVec 32} {len : Nat}
    (h : ¬ a.toNat + len ≤ 2 ^ 32) (state : HostState D) :
    view.read devices a len state = some (.error .addressRange, state) := by
  have hrsv : view.resolve a len = .error .addressRange := if_neg h
  rw [read, hrsv]

theorem MemoryView.write_error {view : MemoryView} {a : BitVec 32}
    {bs : List (BitVec 8)} (h : ¬ a.toNat + bs.length ≤ 2 ^ 32) (state : HostState D) :
    view.write devices a bs state = some (.error .addressRange, state) := by
  have hrsv : view.resolve a bs.length = .error .addressRange := if_neg h
  rw [write, hrsv]

/-- A write through a segment register either does what a write does or changes nothing. -/
theorem MemoryView.writeSegment_error {map : PhysicalMemoryMap} {io : IoBus}
    (hal : Aligned map.pages) (seg : SegmentRegister) (o : BitVec 32) (bs : List (BitVec 8))
    (state : HostState D) :
    ∃ result after, (⟨map, some io⟩ : MemoryView).writeSegment devices seg o bs state =
        some (result, after) ∧ (result ≠ .ok () → after = state) := by
  rw [writeSegment]
  cases segmentAddress seg o bs.length with
  | error error => exact ⟨_, _, rfl, fun _ => rfl⟩
  | ok a =>
    by_cases hfits : a.toNat + bs.length ≤ 2 ^ 32
    · obtain ⟨after, hwr, _⟩ := write_spec devices io hal hfits state
      exact ⟨_, _, hwr, fun h => absurd rfl h⟩
    · exact ⟨_, _, write_error hfits state, fun _ => rfl⟩

/-- A view agrees with the map it reads and writes through, whatever regions the map was constructed from, with A20 on
or off, and whatever devices there are:

* the spans of a range end, and they tile the range in order;
* a read or a write transfers each byte where the map sends its address, in accesses to the one device that decodes it;
* a range past the address space is refused, and so is one past a segment, without changing anything;
* a buffer that wraps in its segment is transferred at its wrapped addresses. -/
theorem view_agrees (devices : Devices D) (io : IoBus) {regions : List PhysicalMemoryMap.Region}
    {map : PhysicalMemoryMap} (hnew : PhysicalMemoryMap.new regions = .ok map) (enabled : Bool) (state : HostState D) :
    let view : MemoryView := ⟨map.setA20Enabled enabled, some io⟩
    (∀ (address : BitVec 32) (len : Nat), address.toNat + len ≤ 2 ^ 32 →
        Spans.Tiles view.map address.toNat (address.toNat + len) (Spans.collect ⟨view.map, address, len⟩) ∧
        ∃ bytes after, view.read devices address len state = some (.ok bytes, after) ∧
          Transfer.Reads devices io view.map.route address.toNat (address.toNat + len) state bytes after) ∧
      (∀ (address : BitVec 32) (bytes : List (BitVec 8)), address.toNat + bytes.length ≤ 2 ^ 32 →
        ∃ after, view.write devices address bytes state = some (.ok (), after) ∧
          Transfer.Writes devices io view.map.route address.toNat (address.toNat + bytes.length) bytes state after) ∧
      (∀ (address : BitVec 32) (bytes : List (BitVec 8)), ¬ address.toNat + bytes.length ≤ 2 ^ 32 →
        view.read devices address bytes.length state = some (.error .addressRange, state) ∧
        view.write devices address bytes state = some (.error .addressRange, state)) ∧
      (∀ (segment : SegmentRegister) (offset : BitVec 32) (bytes : List (BitVec 8)), ∃ result after,
        view.writeSegment devices segment offset bytes state = some (result, after) ∧
          (result ≠ .ok () → after = state)) ∧
      (∀ (pointer : FarPointer) (len : Nat), ∃ bytes after,
        view.readWrapping devices pointer len state = some (.ok bytes, after) ∧
          Transfer.Reads devices io (fun i => view.map.route (MemoryView.wrapped pointer i)) 0 len state bytes
            after) ∧
      (∀ (pointer : FarPointer) (bytes : List (BitVec 8)), ∃ after,
        view.writeWrapping devices pointer bytes state = some (.ok (), after) ∧
          Transfer.Writes devices io (fun i => view.map.route (MemoryView.wrapped pointer i)) 0 bytes.length bytes
            state after) ∧
      ∀ device other address, io.Decodes device address → io.Decodes other address → device = other := by
  intro view
  have hal : Aligned map.pages := new_aligned hnew
  have hal : Aligned view.map.pages := hal
  refine ⟨fun address len hfits => ⟨?_, ?_⟩, fun address bytes hfits => ?_, fun address bytes hover => ?_,
    fun segment offset bytes => ?_, fun pointer len => ?_, fun pointer bytes => ?_, fun device other address => ?_⟩
  · have htiles := Spans.collect_tiles hal hfits
    rwa [ofNat_toNat, setWidth_eq] at htiles
  · exact MemoryView.read_spec devices io hal hfits state
  · exact MemoryView.write_spec devices io hal hfits state
  · exact ⟨MemoryView.read_error hover state, MemoryView.write_error hover state⟩
  · exact MemoryView.writeSegment_error hal segment offset bytes state
  · exact MemoryView.readParts_spec devices io hal pointer.segment pointer.offset len state
  · exact MemoryView.writeParts_spec devices io hal pointer.segment pointer.offset bytes state
  · exact io.decodes_unique

/-- A bus with one device. -/
def oneDevice : IoBus := ⟨[[⟨0x1000, 0x1FFF⟩]], by simp [validateRanges, separated, Range.isEmpty]⟩

def answeringDevices : Devices Unit := ⟨fun _ _ _ state => (0x44332211, state), fun _ _ _ _ state => state⟩

/-- Four bytes across the end of RAM, the last two of a device. -/
theorem view_agrees_twoPages : ∃ after,
    (⟨twoPages.setA20Enabled true, some oneDevice⟩ : MemoryView).read answeringDevices 0xFFE 4 ⟨fun _ => 7, ()⟩ =
        some (.ok [7, 7, 0x11, 0x22], after) ∧
      Transfer.Reads answeringDevices oneDevice (twoPages.setA20Enabled true).route 0xFFE 0x1002 ⟨fun _ => 7, ()⟩
        [7, 7, 0x11, 0x22] after := by
  obtain ⟨bytes, after, hread, hreads⟩ :=
    ((view_agrees answeringDevices oneDevice twoPages_new true ⟨fun _ => 7, ()⟩).1 0xFFE 4 (by decide)).2
  have hbytes : ((⟨twoPages.setA20Enabled true, some oneDevice⟩ : MemoryView).read answeringDevices 0xFFE 4
      ⟨fun _ => 7, ()⟩).bind (fun result => result.1.toOption) = some [7, 7, 0x11, 0x22] := by
    decide +kernel
  rw [hread] at hbytes
  obtain rfl : bytes = [7, 7, 0x11, 0x22] := Option.some.inj hbytes
  exact ⟨after, hread, hreads⟩

end Agreement

end Relocade.Physical
