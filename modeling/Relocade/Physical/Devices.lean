import Mathlib.Algebra.Group.Nat.Defs
import Mathlib.Data.List.Pairwise
import Relocade.Memory

/-!
# `Physical.Devices` — device ranges on the bus

Every device connection decodes ranges of bus addresses, and no two ranges overlap. A transfer of one through eight
bytes is split only where a device's range begins or ends; bytes that no device decodes read as FF.
-/

namespace Relocade.Physical

/-- An inclusive range of bus addresses. -/
structure Range where
  start : BitVec 32
  stop : BitVec 32
deriving DecidableEq

namespace Range

def contains (range : Range) (address : BitVec 32) : Prop := range.start ≤ address ∧ address ≤ range.stop

instance (range : Range) (address : BitVec 32) : Decidable (range.contains address) :=
  inferInstanceAs (Decidable (_ ∧ _))

def isEmpty (range : Range) : Bool := range.stop < range.start

end Range

/-! ## Connections -/

/-- Whether every range ends before the next one starts. -/
def separated : List Range → Bool
  | first :: second :: rest => first.stop < second.start && separated (second :: rest)
  | _ => true

/-- Whether no range is empty and no two overlap. -/
def validateRanges (ranges : List Range) : Bool :=
  ranges.all (fun range => !range.isEmpty) && separated (ranges.mergeSort fun a b => a.start ≤ b.start)

/-- The memory ranges of every connection. -/
structure IoBus where
  connections : List (List Range)
  valid : validateRanges connections.flatten = true

namespace IoBus

/-- Connects devices; `none` is a panic. -/
def new (connections : List (List Range)) : Option IoBus :=
  if valid : validateRanges connections.flatten = true then some ⟨connections, valid⟩ else none

/-- The ranges with their devices, in connection order. -/
def ranges (io : IoBus) : List (Nat × Range) :=
  io.connections.zipIdx.flatMap fun connection => connection.1.map fun range => (connection.2, range)

/-- The first range that contains an address; without one, how far the next range is. -/
def spanFrom (address : BitVec 32) : List (Nat × Range) → Nat → Option Nat × Nat
  | [], count => (none, count)
  | (device, range) :: ranges, count =>
      if range.contains address then (some device, min count (range.stop.toNat - address.toNat + 1))
      else
        spanFrom address ranges
          (if address < range.start then min count (range.start.toNat - address.toNat) else count)

def mmioSpan (io : IoBus) (address : BitVec 32) (bytes : Nat) : Option Nat × Nat := spanFrom address io.ranges bytes

end IoBus

/-! ## Transfers -/

/-- The backing memory and the state of the devices. -/
structure HostState (D : Type) where
  backing : Memory
  device : D

/-- What the devices do. They may change everything. -/
structure Devices (D : Type) where
  readMmio (device : Nat) (address : BitVec 32) (bytes : Nat) (state : HostState D) : BitVec 64 × HostState D
  writeMmio (device : Nat) (address : BitVec 32) (bytes : Nat) (value : BitVec 64) (state : HostState D) : HostState D

namespace IoBus

variable {D : Type} (devices : Devices D) (io : IoBus)

/-- The bytes from `done` on; `none` when the fuel runs out. -/
def readFrom (address : BitVec 32) (bytes : Nat) : Nat → Nat → HostState D → Option (List (BitVec 8) × HostState D)
  | 0, _, _ => none
  | fuel + 1, done, state =>
      if done < bytes then
        let current := address + BitVec.ofNat 32 done
        let span := io.mmioSpan current (bytes - done)
        match span.1 with
        | some device =>
            let read := devices.readMmio device current span.2 state
            (readFrom address bytes fuel (done + span.2) read.2).map fun rest =>
              (Memory.lowBytes span.2 read.1 ++ rest.1, rest.2)
        | none =>
            (readFrom address bytes fuel (done + span.2) state).map fun rest =>
              (List.replicate span.2 0xff ++ rest.1, rest.2)
      else some ([], state)

/-- One through eight bytes that stay in the address space. -/
def checkMmioRange (address : BitVec 32) (bytes : Nat) : Prop :=
  1 ≤ bytes ∧ bytes ≤ 8 ∧ address.toNat + bytes ≤ 2 ^ 32

instance (address : BitVec 32) (bytes : Nat) : Decidable (checkMmioRange address bytes) :=
  inferInstanceAs (Decidable (_ ∧ _))

/-- Reads one through eight bytes, splitting only at device boundaries; `none` is a panic. Unused carrier bytes are
zero. -/
def readMmio (address : BitVec 32) (bytes : Nat) (state : HostState D) : Option (BitVec 64 × HostState D) :=
  if checkMmioRange address bytes then
    (readFrom devices io address bytes 9 0 state).map fun result => (Memory.ofBytes 64 result.1, result.2)
  else none

/-- Writes what is left, device by device. -/
def writeFrom (address : BitVec 32) (bytes : Nat) (value : List (BitVec 8)) :
    Nat → Nat → HostState D → Option (HostState D)
  | 0, _, _ => none
  | fuel + 1, done, state =>
      if done < bytes then
        let current := address + BitVec.ofNat 32 done
        let span := io.mmioSpan current (bytes - done)
        match span.1 with
        | some device =>
            let part := Memory.ofBytes 64 ((value.drop done).take span.2)
            writeFrom address bytes value fuel (done + span.2) (devices.writeMmio device current span.2 part state)
        | none => writeFrom address bytes value fuel (done + span.2) state
      else some state

/-- Writes the low bytes, splitting only at device boundaries; `none` is a panic. -/
def writeMmio (address : BitVec 32) (bytes : Nat) (value : BitVec 64) (state : HostState D) : Option (HostState D) :=
  if checkMmioRange address bytes then
    writeFrom devices io address bytes (Memory.lowBytes 8 value) 9 0 state
  else none

end IoBus

/-! ## What a transfer is made of -/

/-- Where one byte goes. -/
inductive Route where
  | ram (offset : Nat)
  | rom (offset : Nat)
  | hole
  | bus (address : Nat)

/-- A device decodes a bus address. -/
def IoBus.Decodes (io : IoBus) (device address : Nat) : Prop :=
  ∃ range, (device, range) ∈ io.ranges ∧ range.start.toNat ≤ address ∧ address ≤ range.stop.toNat

section Transfers

variable {D : Type} (devices : Devices D) (io : IoBus) (route : Nat → Route)

/-- A read of the bytes from `i` to `stop`: each byte comes from where its route leads, and the bytes of a device come
in accesses of at most eight bytes at adjacent bus addresses that the device decodes. -/
inductive Transfer.Reads : Nat → Nat → HostState D → List (BitVec 8) → HostState D → Prop where
  | done {i state} : Reads i i state [] state
  | backing {i stop state bytes after offset} : route i = .ram offset ∨ route i = .rom offset →
      Reads (i + 1) stop state bytes after → Reads i stop state (state.backing offset :: bytes) after
  | hole {i stop state bytes after} : route i = .hole → Reads (i + 1) stop state bytes after →
      Reads i stop state (0xff :: bytes) after
  | unconnected {i stop state bytes after address} : route i = .bus address →
      (∀ device, ¬ io.Decodes device address) → Reads (i + 1) stop state bytes after →
      Reads i stop state (0xff :: bytes) after
  | device {i stop state bytes after} (device n : Nat) (address : BitVec 32) : 1 ≤ n → n ≤ 8 →
      (∀ j < n, route (i + j) = .bus (address.toNat + j) ∧ io.Decodes device (address.toNat + j)) →
      Reads (i + n) stop (devices.readMmio device address n state).2 bytes after →
      Reads i stop state (Memory.lowBytes n (devices.readMmio device address n state).1 ++ bytes) after

/-- A write of the bytes from `i` to `stop`: writes to ROM, to holes and to unconnected addresses are dropped. -/
inductive Transfer.Writes : Nat → Nat → List (BitVec 8) → HostState D → HostState D → Prop where
  | done {i state} : Writes i i [] state state
  | ram {i stop byte bytes state after offset} : route i = .ram offset →
      Writes (i + 1) stop bytes { state with backing := state.backing.write offset [byte] } after →
      Writes i stop (byte :: bytes) state after
  | dropped {i stop byte bytes state after} : route i = .hole ∨ (∃ offset, route i = .rom offset) →
      Writes (i + 1) stop bytes state after → Writes i stop (byte :: bytes) state after
  | unconnected {i stop byte bytes state after address} : route i = .bus address →
      (∀ device, ¬ io.Decodes device address) → Writes (i + 1) stop bytes state after →
      Writes i stop (byte :: bytes) state after
  | device {i stop bytes state after} (device : Nat) (address : BitVec 32) (part : List (BitVec 8)) :
      1 ≤ part.length → part.length ≤ 8 →
      (∀ j < part.length, route (i + j) = .bus (address.toNat + j) ∧ io.Decodes device (address.toNat + j)) →
      Writes (i + part.length) stop bytes
        (devices.writeMmio device address part.length (Memory.ofBytes 64 part) state) after →
      Writes i stop (part ++ bytes) state after

end Transfers

namespace Transfer

variable {D : Type} {devices : Devices D} {io : IoBus} {route : Nat → Route}

theorem Reads.trans {a b c : Nat} {state middle after : HostState D} {xs ys : List (BitVec 8)}
    (h : Reads devices io route a b state xs middle) (h' : Reads devices io route b c middle ys after) :
    Reads devices io route a c state (xs ++ ys) after := by
  induction h with
  | done => exact h'
  | backing hroute _ ih => exact .backing hroute (ih h')
  | hole hroute _ ih => exact .hole hroute (ih h')
  | unconnected hroute hopen _ ih => exact .unconnected hroute hopen (ih h')
  | device device n address hpos hle hroute _ ih =>
    rw [List.append_assoc]
    exact .device device n address hpos hle hroute (ih h')

theorem Writes.trans {a b c : Nat} {state middle after : HostState D} {xs ys : List (BitVec 8)}
    (h : Writes devices io route a b xs state middle) (h' : Writes devices io route b c ys middle after) :
    Writes devices io route a c (xs ++ ys) state after := by
  induction h with
  | done => exact h'
  | ram hroute _ ih => exact .ram hroute (ih h')
  | dropped hroute _ ih => exact .dropped hroute (ih h')
  | unconnected hroute hopen _ ih => exact .unconnected hroute hopen (ih h')
  | device device address part hpos hle hroute _ ih =>
    rw [List.append_assoc]
    exact .device device address part hpos hle hroute (ih h')

variable {state after : HostState D}

variable {bytes : List (BitVec 8)}

/-- A read of as many bytes as it covers. -/
theorem Reads.length {a b : Nat}
    (h : Reads devices io route a b state bytes after) : a + bytes.length = b := by
  induction h with
  | done => rfl
  | backing _ _ ih => rw [List.length_cons]; omega
  | hole _ _ ih => rw [List.length_cons]; omega
  | unconnected _ _ _ ih => rw [List.length_cons]; omega
  | device _ n _ _ _ _ _ ih => rw [List.length_append, Memory.length_lowBytes]; omega

/-- Routes that agree still agree past a part of what they cover. -/
theorem route_drop {other : Nat → Route} {k a m n : Nat} (h : ∀ j < m + n, other (k + j) = route (a + j)) :
    ∀ j < n, other (k + m + j) = route (a + m + j) := by
  intro j hj
  rw [Nat.add_assoc, h (m + j) (by omega), Nat.add_assoc]

theorem route_tail {other : Nat → Route} {k a n : Nat} (h : ∀ j < n + 1, other (k + j) = route (a + j)) :
    other k = route a ∧ ∀ j < n, other (k + 1 + j) = route (a + 1 + j) :=
  ⟨h 0 (Nat.succ_pos n), route_drop (Nat.add_comm n 1 ▸ h)⟩

/-- A read may be counted from another place where the routes agree. -/
theorem Reads.reindex (other : Nat → Route) {a b : Nat}
    (h : Reads devices io route a b state bytes after) (k : Nat)
    (hroute : ∀ j < bytes.length, other (k + j) = route (a + j)) :
    Reads devices io other k (k + bytes.length) state bytes after := by
  induction h generalizing k with
  | done => exact .done
  | backing h _ ih =>
    obtain ⟨hfst, hrest⟩ := route_tail hroute
    exact .backing (hfst ▸ h) (Nat.add_right_comm k 1 _ ▸ ih (k + 1) hrest)
  | hole h _ ih =>
    obtain ⟨hfst, hrest⟩ := route_tail hroute
    exact .hole (hfst ▸ h) (Nat.add_right_comm k 1 _ ▸ ih (k + 1) hrest)
  | unconnected h hopen _ ih =>
    obtain ⟨hfst, hrest⟩ := route_tail hroute
    exact .unconnected (hfst ▸ h) hopen (Nat.add_right_comm k 1 _ ▸ ih (k + 1) hrest)
  | device device n address hpos hle h _ ih =>
    rw [List.length_append, Memory.length_lowBytes] at hroute ⊢
    refine .device device n address hpos hle (fun j hj => ?_) (Nat.add_assoc k n _ ▸ ih (k + n) (route_drop hroute))
    rw [hroute j (by omega)]
    exact h j hj

theorem Writes.reindex (other : Nat → Route) {a b : Nat}
    (h : Writes devices io route a b bytes state after) (k : Nat)
    (hroute : ∀ j < bytes.length, other (k + j) = route (a + j)) :
    Writes devices io other k (k + bytes.length) bytes state after := by
  induction h generalizing k with
  | done => exact .done
  | ram h _ ih =>
    obtain ⟨hfst, hrest⟩ := route_tail hroute
    exact .ram (hfst ▸ h) (Nat.add_right_comm k 1 _ ▸ ih (k + 1) hrest)
  | dropped h _ ih =>
    obtain ⟨hfst, hrest⟩ := route_tail hroute
    exact .dropped (hfst ▸ h) (Nat.add_right_comm k 1 _ ▸ ih (k + 1) hrest)
  | unconnected h hopen _ ih =>
    obtain ⟨hfst, hrest⟩ := route_tail hroute
    exact .unconnected (hfst ▸ h) hopen (Nat.add_right_comm k 1 _ ▸ ih (k + 1) hrest)
  | device device address part hpos hle h _ ih =>
    rw [List.length_append] at hroute ⊢
    refine .device device address part hpos hle (fun j hj => ?_)
      (Nat.add_assoc k part.length _ ▸ ih (k + part.length) (route_drop hroute))
    rw [hroute j (by omega)]
    exact h j hj

end Transfer

/-! ## Device boundaries -/

section Boundaries

variable {D : Type} {devices : Devices D} {io : IoBus} {route : Nat → Route}

/-- How far the search over a list of ranges reaches: a device decodes every byte of its span, and no listed range
decodes a byte of the span of no device. -/
theorem IoBus.spanFrom_spec (address : BitVec 32) (ranges : List (Nat × Range)) {count : Nat} (hcnt : 1 ≤ count) :
    let span := IoBus.spanFrom address ranges count
    1 ≤ span.2 ∧ span.2 ≤ count ∧
      (∀ device, span.1 = some device → ∃ range, (device, range) ∈ ranges ∧
        ∀ j < span.2, range.start.toNat ≤ address.toNat + j ∧ address.toNat + j ≤ range.stop.toNat) ∧
      (span.1 = none → ∀ j < span.2, ∀ device range, (device, range) ∈ ranges →
        ¬ (range.start.toNat ≤ address.toNat + j ∧ address.toNat + j ≤ range.stop.toNat)) := by
  induction ranges generalizing count with
  | nil =>
    exact ⟨hcnt, Nat.le_refl _, fun _ h => (by cases h), fun _ _ _ _ _ h => absurd h List.not_mem_nil⟩
  | cons first ranges ih =>
    obtain ⟨device, range⟩ := first
    rw [IoBus.spanFrom]
    by_cases hcont : range.contains address
    · rw [if_pos hcont]
      have hlo := BitVec.le_def.mp hcont.1
      have hhi := BitVec.le_def.mp hcont.2
      refine ⟨by omega, Nat.min_le_left _ _, fun other h => ?_, fun h => by cases h⟩
      cases h
      exact ⟨range, List.mem_cons_self, fun j hj => by omega⟩
    · rw [if_neg hcont]
      have hnext : 1 ≤ (if address < range.start then min count (range.start.toNat - address.toNat) else count) ∧
          (if address < range.start then min count (range.start.toNat - address.toNat) else count) ≤ count := by
        split
        · next hlt =>
            have := BitVec.lt_def.mp hlt
            omega
        · exact ⟨hcnt, Nat.le_refl _⟩
      obtain ⟨hpos, hle, hsome, hnone⟩ := ih hnext.1
      refine ⟨hpos, Nat.le_trans hle hnext.2, fun other h => ?_, fun h j hj other held hmem => ?_⟩
      · obtain ⟨held, hmem, hbytes⟩ := hsome other h
        exact ⟨held, List.mem_cons_of_mem _ hmem, hbytes⟩
      · rcases List.mem_cons.mp hmem with heq | hmem
        · -- The span ends before the range starts, or starts after it ends.
          cases heq
          intro hbyte
          by_cases hlt : address < range.start
          · rw [if_pos hlt] at hle
            have := BitVec.lt_def.mp hlt
            rw [if_pos hlt] at hj
            omega
          · refine hcont ⟨BitVec.not_lt.mp hlt, BitVec.le_def.mpr ?_⟩
            omega
        · exact hnone h j hj other held hmem

variable {bytes : Nat}

/-- A device decodes its whole span; no device decodes a byte of the others. -/
theorem IoBus.mmioSpan_spec (io : IoBus) (address : BitVec 32) (hbytes : 1 ≤ bytes) :
    let span := io.mmioSpan address bytes
    1 ≤ span.2 ∧ span.2 ≤ bytes ∧
      (∀ device, span.1 = some device → ∀ j < span.2, io.Decodes device (address.toNat + j)) ∧
      (span.1 = none → ∀ j < span.2, ∀ device, ¬ io.Decodes device (address.toNat + j)) := by
  obtain ⟨hpos, hle, hsome, hnone⟩ := IoBus.spanFrom_spec address io.ranges hbytes
  refine ⟨hpos, hle, fun device h j hj => ?_, fun h j hj device => ?_⟩
  · obtain ⟨range, hmem, hall⟩ := hsome device h
    exact ⟨range, hmem, hall j hj⟩
  · rintro ⟨range, hmem, hbyte⟩
    exact hnone h j hj device range hmem hbyte

/-! ## Transfers over the devices -/

/-- Bytes that no device decodes. -/
theorem Transfer.Reads.unconnected_span {i n stop address : Nat} {state after : HostState D} {bytes : List (BitVec 8)}
    (hroute : ∀ j < n, route (i + j) = .bus (address + j) ∧ ∀ device, ¬ io.Decodes device (address + j))
    (h : Transfer.Reads devices io route (i + n) stop state bytes after) :
    Transfer.Reads devices io route i stop state (List.replicate n 0xff ++ bytes) after := by
  induction n generalizing i address with
  | zero => exact h
  | succ n ih =>
    refine .unconnected (hroute 0 (Nat.succ_pos n)).1 (hroute 0 (Nat.succ_pos n)).2 (@ih (i + 1) (address + 1) ?_ ?_)
    · intro j hj
      have := hroute (j + 1) (Nat.succ_lt_succ hj)
      rw [show i + 1 + j = i + (j + 1) by omega, show address + 1 + j = address + (j + 1) by omega]
      exact this
    · rw [show i + 1 + n = i + (n + 1) by omega]
      exact h

variable {address : BitVec 32}

/-- What the next span of a transfer is: it advances, stays in the transfer, and is decoded by one device or by none. -/
theorem IoBus.nextSpan_spec (hfits : address.toNat + bytes ≤ 2 ^ 32) (hbytes : bytes ≤ 8) {i : Nat}
    (hroute : ∀ j < bytes, route (i + j) = .bus (address.toNat + j)) {done : Nat} (hlt : done < bytes) :
    let cursor := address + BitVec.ofNat 32 done
    let span := io.mmioSpan cursor (bytes - done)
    cursor.toNat = address.toNat + done ∧ 1 ≤ span.2 ∧ span.2 ≤ bytes - done ∧
      (∀ j < span.2, route (i + done + j) = .bus (address.toNat + done + j)) ∧
      (∀ device, span.1 = some device → ∀ j < span.2, io.Decodes device (address.toNat + done + j)) ∧
      (span.1 = none → ∀ j < span.2, ∀ device, ¬ io.Decodes device (address.toNat + done + j)) := by
  intro cursor span
  have hcur : cursor.toNat = address.toNat + done := by
    rw [BitVec.toNat_add, BitVec.toNat_ofNat]
    omega
  obtain ⟨hpos, hle, hsome, hnone⟩ := io.mmioSpan_spec cursor (show 1 ≤ bytes - done by omega)
  rw [hcur] at hsome hnone
  refine ⟨hcur, hpos, hle, fun j hj => ?_, hsome, hnone⟩
  have hin : j < bytes - done := Nat.lt_of_lt_of_le hj hle
  rw [Nat.add_assoc, hroute (done + j) (by omega), Nat.add_assoc]

variable (devices io) in
/-- The walk over the spans reads what is left of the transfer. -/
theorem IoBus.readFrom_spec (hfits : address.toNat + bytes ≤ 2 ^ 32)
    (hbytes : bytes ≤ 8) {i : Nat} (hroute : ∀ j < bytes, route (i + j) = .bus (address.toNat + j)) {fuel done : Nat}
    (hdone : done ≤ bytes) (hfuel : bytes - done < fuel) (state : HostState D) :
    ∃ read after, IoBus.readFrom devices io address bytes fuel done state = some (read, after) ∧
      Transfer.Reads devices io route (i + done) (i + bytes) state read after := by
  induction fuel generalizing done state with
  | zero => exact absurd hfuel (Nat.not_lt_zero _)
  | succ fuel ih =>
    rw [IoBus.readFrom]
    by_cases hlt : done < bytes
    · rw [if_pos hlt]
      obtain ⟨hcur, hpos, hle, hspan, hsome, hnone⟩ := io.nextSpan_spec hfits hbytes hroute hlt
      dsimp only
      generalize io.mmioSpan (address + BitVec.ofNat 32 done) (bytes - done) = span at *
      cases hdevice : span.1 with
      | none =>
        obtain ⟨read, after, hrest, hrd⟩ := @ih (done + span.2) (by omega) (by omega) state
        refine ⟨_, after, congrArg (Option.map _) hrest, ?_⟩
        exact Transfer.Reads.unconnected_span (fun j hj => ⟨hspan j hj, hnone hdevice j hj⟩)
          (by rw [Nat.add_assoc]; exact hrd)
      | some device =>
        obtain ⟨read, after, hrest, hrd⟩ := @ih (done + span.2) (by omega) (by omega)
          (devices.readMmio device (address + BitVec.ofNat 32 done) span.2 state).2
        refine ⟨_, after, congrArg (Option.map _) hrest, ?_⟩
        refine .device device _ (address + BitVec.ofNat 32 done) hpos (by omega) (fun j hj => ?_)
          (by rw [Nat.add_assoc]; exact hrd)
        rw [hcur]
        exact ⟨hspan j hj, hsome device hdevice j hj⟩
    · rw [if_neg hlt, show done = bytes by omega]
      exact ⟨[], state, rfl, .done⟩

variable (devices io) in
/-- A transfer that is checked reads its bytes from the devices. -/
theorem IoBus.readMmio_spec (hcheck : IoBus.checkMmioRange address bytes) {i : Nat}
    (hroute : ∀ j < bytes, route (i + j) = .bus (address.toNat + j)) (state : HostState D) :
    ∃ read after, io.readMmio devices address bytes state = some (Memory.ofBytes 64 read, after) ∧
      Transfer.Reads devices io route i (i + bytes) state read after := by
  obtain ⟨read, after, hread, hrd⟩ := IoBus.readFrom_spec devices io hcheck.2.2 hcheck.2.1 hroute
    (Nat.zero_le bytes) (show bytes - 0 < 9 by have := hcheck.2.1; omega) state
  refine ⟨read, after, ?_, hrd⟩
  rw [IoBus.readMmio, if_pos hcheck, hread]
  rfl

theorem Transfer.Writes.unconnected_span {i stop address : Nat} {part bytes : List (BitVec 8)}
    {state after : HostState D}
    (hroute : ∀ j < part.length, route (i + j) = .bus (address + j) ∧ ∀ device, ¬ io.Decodes device (address + j))
    (h : Transfer.Writes devices io route (i + part.length) stop bytes state after) :
    Transfer.Writes devices io route i stop (part ++ bytes) state after := by
  induction part generalizing i address with
  | nil => exact h
  | cons byte part ih =>
    have hfst := hroute 0 (Nat.succ_pos _)
    refine .unconnected hfst.1 hfst.2 (@ih (i + 1) (address + 1) ?_ ?_)
    · intro j hj
      have := hroute (j + 1) (Nat.succ_lt_succ hj)
      rw [show i + 1 + j = i + (j + 1) by omega, show address + 1 + j = address + (j + 1) by omega]
      exact this
    · rw [show i + 1 + part.length = i + (byte :: part).length by rw [List.length_cons]; omega]
      exact h

/-- What is left to write, cut after its first bytes. -/
theorem drop_take_add {value : List (BitVec 8)} {bytes done count : Nat} (hcnt : done + count ≤ bytes) :
    (value.take bytes).drop done = (value.drop done).take count ++ (value.take bytes).drop (done + count) := by
  rw [← List.drop_drop, List.drop_take]
  conv_lhs => rw [← List.take_append_drop count ((value.drop done).take (bytes - done)), List.take_take,
    Nat.min_eq_left (by omega)]

variable (devices io) in
/-- The walk over the spans writes what is left of the transfer. -/
theorem IoBus.writeFrom_spec (hfits : address.toNat + bytes ≤ 2 ^ 32)
    (hbytes : bytes ≤ 8) {i : Nat} (hroute : ∀ j < bytes, route (i + j) = .bus (address.toNat + j))
    (value : List (BitVec 8)) (hval : bytes ≤ value.length) {fuel done : Nat} (hdone : done ≤ bytes)
    (hfuel : bytes - done < fuel) (state : HostState D) :
    ∃ after, IoBus.writeFrom devices io address bytes value fuel done state = some after ∧
      Transfer.Writes devices io route (i + done) (i + bytes) ((value.take bytes).drop done) state after := by
  induction fuel generalizing done state with
  | zero => exact absurd hfuel (Nat.not_lt_zero _)
  | succ fuel ih =>
    rw [IoBus.writeFrom]
    by_cases hlt : done < bytes
    · rw [if_pos hlt]
      obtain ⟨hcur, hpos, hle, hspan, hsome, hnone⟩ := io.nextSpan_spec hfits hbytes hroute hlt
      dsimp only
      generalize io.mmioSpan (address + BitVec.ofNat 32 done) (bytes - done) = span at *
      have hpart : ((value.drop done).take span.2).length = span.2 := by
        rw [List.length_take, List.length_drop]
        omega
      rw [drop_take_add (show done + span.2 ≤ bytes by omega)]
      cases hdevice : span.1 with
      | none =>
        obtain ⟨after, hrest, hwrites⟩ := @ih (done + span.2) (by omega) (by omega) state
        refine ⟨after, hrest, ?_⟩
        exact Transfer.Writes.unconnected_span (fun j hj => by
            rw [hpart] at hj
            exact ⟨hspan j hj, hnone hdevice j hj⟩)
          (by rw [hpart, Nat.add_assoc]; exact hwrites)
      | some device =>
        obtain ⟨after, hrest, hwrites⟩ := @ih
          (done + span.2) (by omega) (by omega)
          (devices.writeMmio device (address + BitVec.ofNat 32 done)
            span.2
            (Memory.ofBytes 64 ((value.drop done).take
              span.2)) state)
        refine ⟨after, hrest, ?_⟩
        refine .device device (address + BitVec.ofNat 32 done) _ (by omega) (by omega) (fun j hj => ?_) ?_
        · rw [hpart] at hj
          rw [hcur]
          exact ⟨hspan j hj, hsome device hdevice j hj⟩
        · rw [hpart, Nat.add_assoc]
          exact hwrites
    · rw [if_neg hlt, show done = bytes by omega, List.drop_of_length_le (by rw [List.length_take]; omega)]
      exact ⟨state, rfl, .done⟩

variable (devices io) in
/-- A transfer that is checked writes its low bytes to the devices. -/
theorem IoBus.writeMmio_spec (hcheck : IoBus.checkMmioRange address bytes) {i : Nat}
    (hroute : ∀ j < bytes, route (i + j) = .bus (address.toNat + j)) (value : BitVec 64) (state : HostState D) :
    ∃ after, io.writeMmio devices address bytes value state = some after ∧
      Transfer.Writes devices io route i (i + bytes) (Memory.lowBytes bytes value) state after := by
  have hlen : (Memory.lowBytes 8 value).length = 8 := Memory.length_lowBytes 8 value
  obtain ⟨after, hwr, hwrites⟩ := IoBus.writeFrom_spec devices io hcheck.2.2 hcheck.2.1 hroute
    (Memory.lowBytes 8 value) (by rw [hlen]; exact hcheck.2.1) (Nat.zero_le bytes)
    (show bytes - 0 < 9 by have := hcheck.2.1; omega) state
  have hlow : (Memory.lowBytes 8 value).take bytes = Memory.lowBytes bytes value := by
    rw [Memory.lowBytes, ← List.map_take, List.take_range, Nat.min_eq_left hcheck.2.1]
    rfl
  rw [List.drop_zero, hlow] at hwrites
  refine ⟨after, ?_, hwrites⟩
  rw [IoBus.writeMmio, if_pos hcheck, hwr]

end Boundaries

/-! ## Disjoint ranges -/

/-- Two ranges share no address. -/
def Range.Disjoint (a b : Range) : Prop := a.stop < b.start ∨ b.stop < a.start

theorem separated_pairwise {ranges : List Range} (hemp : ∀ range ∈ ranges, range.isEmpty = false)
    (h : separated ranges = true) : ranges.Pairwise fun a b => a.stop < b.start := by
  induction ranges with
  | nil => exact .nil
  | cons first ranges ih =>
    have hrest : separated ranges = true ∧ ∀ second ∈ ranges.head?, first.stop < second.start := by
      cases ranges with
      | nil => exact ⟨rfl, fun _ h => by cases h⟩
      | cons second rest =>
        rw [separated, Bool.and_eq_true, decide_eq_true_iff] at h
        refine ⟨h.2, fun other hother => ?_⟩
        cases hother
        exact h.1
    have hpairs := ih (fun range hmem => hemp range (List.mem_cons_of_mem _ hmem)) hrest.1
    refine List.pairwise_cons.mpr ⟨fun other hmem => ?_, hpairs⟩
    cases ranges with
    | nil => cases hmem
    | cons second rest =>
      have hnext := BitVec.lt_def.mp (hrest.2 second rfl)
      rcases List.mem_cons.mp hmem with rfl | hmem
      · exact hrest.2 _ rfl
      · have hfar := BitVec.lt_def.mp (List.rel_of_pairwise_cons hpairs hmem)
        have hsnd := hemp second (List.mem_cons_of_mem _ List.mem_cons_self)
        have hle := BitVec.le_def.mp (BitVec.not_lt.mp (of_decide_eq_false hsnd))
        exact BitVec.lt_def.mpr (by omega)

/-- The ranges of a bus are disjoint. -/
theorem IoBus.pairwise_disjoint (io : IoBus) : io.connections.flatten.Pairwise Range.Disjoint := by
  have hvalid := io.valid
  rw [validateRanges, Bool.and_eq_true, List.all_eq_true] at hvalid
  have hperm := List.mergeSort_perm io.connections.flatten fun a b => decide (a.start ≤ b.start)
  have hsorted := separated_pairwise (fun range hmem => by
    have := hvalid.1 range (hperm.mem_iff.mp hmem)
    simpa using this) hvalid.2
  have hdisj : (io.connections.flatten.mergeSort fun a b => decide (a.start ≤ b.start)).Pairwise Range.Disjoint :=
    hsorted.imp Or.inl
  exact (hperm.pairwise_iff fun {a b} h => h.symm).mp hdisj

theorem IoBus.mem_ranges {io : IoBus} {device : Nat} {range : Range} :
    (device, range) ∈ io.ranges ↔ ∃ ranges, io.connections[device]? = some ranges ∧ range ∈ ranges := by
  rw [IoBus.ranges, List.mem_flatMap]
  constructor
  · rintro ⟨⟨ranges, index⟩, hmem, hrng⟩
    obtain ⟨held, hheld, heq⟩ := List.mem_map.mp hrng
    cases heq
    exact ⟨ranges, List.mem_zipIdx_iff_getElem?.mp hmem, hheld⟩
  · rintro ⟨ranges, hget, hrng⟩
    exact ⟨(ranges, device), List.mem_zipIdx_iff_getElem?.mpr hget, List.mem_map.mpr ⟨range, hrng, rfl⟩⟩

/-- No two devices decode one address. -/
theorem IoBus.decodes_unique (io : IoBus) {device other address : Nat} (h : io.Decodes device address)
    (h' : io.Decodes other address) : device = other := by
  have hpairs := (List.pairwise_flatten.mp io.pairwise_disjoint).2
  have hordered : ∀ first second, first < second → io.Decodes first address → ¬ io.Decodes second address := by
    rintro first second hlt ⟨range, hmem, hlo, hhi⟩ ⟨range', hmem', hlo', hhi'⟩
    obtain ⟨ranges, hget, hrng⟩ := IoBus.mem_ranges.mp hmem
    obtain ⟨ranges', hget', hrng'⟩ := IoBus.mem_ranges.mp hmem'
    obtain ⟨hfst, rfl⟩ := List.getElem?_eq_some_iff.mp hget
    obtain ⟨hsnd, rfl⟩ := List.getElem?_eq_some_iff.mp hget'
    rcases List.pairwise_iff_getElem.mp hpairs first second hfst hsnd hlt range hrng range' hrng' with
      hbef | hbef
    · have := BitVec.lt_def.mp hbef
      omega
    · have := BitVec.lt_def.mp hbef
      omega
  rcases Nat.lt_trichotomy device other with hlt | heq | hgt
  · exact absurd h' (hordered device other hlt h)
  · exact heq
  · exact absurd h (hordered other device hgt h')

end Relocade.Physical
