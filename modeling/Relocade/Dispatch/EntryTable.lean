import Mathlib.Algebra.Group.Nat.Defs
import Mathlib.Data.Nat.Log
import Relocade.Memory
import Relocade.Probing

/-!
# `Dispatch.EntryTable` — the address table and its generated lookup

Linear execution addresses are mapped to function-table slots. The table is serialized for open-addressed lookup: a
mask followed by rows of an address and a slot, where slot zero marks an empty row. The generated code probes these
bytes from the address's home row on.
-/

namespace Relocade.Dispatch

/-- Linear execution addresses mapped to function-table slots. Slot zero is reserved for empty rows. -/
structure EntryTable where
  entries : Std.TreeMap (BitVec 32) (BitVec 32)
  nonzero : ∀ address slot : BitVec 32, entries[address]? = some slot → slot ≠ 0

namespace EntryTable

def hashMultiplier : BitVec 32 := 0x9e3779b1#32

/-- The slot of the interpreter fallback. -/
def interpreterSlot : BitVec 32 := 1

def default : EntryTable := ⟨∅, fun address slot h => by simp at h⟩

def get (table : EntryTable) (address : BitVec 32) : Option (BitVec 32) := table.entries[address]?

/-- Publishes a callable slot, with the slot it replaces; slot zero is refused. -/
def insert (table : EntryTable) (address slot : BitVec 32) : Option (Option (BitVec 32) × EntryTable) :=
  if h : slot ≠ 0 then
    some (table.get address, {
      entries := table.entries.insert address slot
      nonzero := fun other held hheld => by
        rw [Std.TreeMap.getElem?_insert] at hheld
        split at hheld
        · exact Option.some.inj hheld ▸ h
        · exact table.nonzero other held hheld })
  else none

/-- Withdraws an address, with the slot it had. -/
def remove (table : EntryTable) (address : BitVec 32) : Option (BitVec 32) × EntryTable :=
  (table.get address, {
    entries := table.entries.erase address
    nonzero := fun other held hheld => by
      rw [Std.TreeMap.getElem?_erase] at hheld
      split at hheld
      · cases hheld
      · exact table.nonzero other held hheld })

section Changes

variable {table : EntryTable} {address slot : BitVec 32}

/-- What an insert does. -/
theorem insert_eq (table : EntryTable) (address : BitVec 32) (h : slot ≠ 0) :
    ∃ after, table.insert address slot = some (table.get address, after) ∧
      after.entries = table.entries.insert address slot := by
  refine ⟨_, dif_pos h, rfl⟩

theorem get_of_insert {after : EntryTable} (h : after.entries = table.entries.insert address slot) (other : BitVec 32) :
    after.get other = if address = other then some slot else table.get other := by
  rw [get, h, Std.TreeMap.getElem?_insert]
  exact if_congr Std.compare_eq_iff_eq rfl rfl

end Changes

/-! ## Serialization -/

abbrev Row := BitVec 32 × BitVec 32

/-- The number of rows: a power of two of which at most half are occupied. -/
def capacity (table : EntryTable) : Nat := 2 ^ Nat.clog 2 (max (table.entries.size * 2) 2)

/-- The home row of an address. -/
def homeBucket (mask address : BitVec 32) : BitVec 32 :=
  let product := address * hashMultiplier
  (product ^^^ product >>> 16) &&& mask

/-- The first row from `bucket` on whose slot is zero; `none` when a row is outside the table or none is met. -/
def emptyRow (rows : List Row) (mask : BitVec 32) : Nat → BitVec 32 → Option (BitVec 32)
  | 0, _ => none
  | fuel + 1, bucket =>
      rows[bucket.toNat]?.bind fun row =>
        if row.2 ≠ 0 then emptyRow rows mask fuel ((bucket + 1) &&& mask) else some bucket

/-- Lays one entry out. -/
def placeEntry (mask : BitVec 32) (rows : List Row) (entry : Row) : Option (List Row) :=
  (emptyRow rows mask rows.length (homeBucket mask entry.1)).map fun bucket => rows.set bucket.toNat entry

/-- The mask of a capacity, which has to fit 32 bits. -/
def rowMask (capacity : Nat) : Option (BitVec 32) :=
  if capacity - 1 < 2 ^ 32 then some (BitVec.ofNat 32 (capacity - 1)) else none

def rowBytes (row : Row) : List (BitVec 8) := Memory.lowBytes 4 row.1 ++ Memory.lowBytes 4 row.2

/-- Serializes a mask followed by address/slot rows; `none` when the table does not fit a 32-bit mask. -/
def toBytes (table : EntryTable) : Option (List (BitVec 8)) :=
  (rowMask table.capacity).bind fun mask =>
    (table.entries.toList.foldlM (placeEntry mask) (List.replicate table.capacity (0, 0))).map fun rows =>
      Memory.lowBytes 4 mask ++ rows.flatMap rowBytes

/-! ## The generated lookup -/

/-- The probe loop from a row on: the addresses it loads words from, and the slot it enters. The row's address wraps
at 32 bits; the displacement of a load does not. -/
def probe (memory : Memory) (mask address : BitVec 32) : Nat → BitVec 32 → Option (List Nat × BitVec 32)
  | 0, _ => none
  | fuel + 1, bucket =>
      let row := bucket * 8 + 4
      let slot : BitVec 32 := memory.load 32 (row.toNat + 4) 4
      if slot = 0 then some ([row.toNat + 4], interpreterSlot)
      else
        let candidate : BitVec 32 := memory.load 32 row.toNat 4
        if candidate = address then some ([row.toNat + 4, row.toNat], slot)
        else
          (probe memory mask address fuel ((bucket + 1) &&& mask)).map fun found =>
            ((row.toNat + 4) :: row.toNat :: found.1, found.2)

/-- The generated lookup of an address in the table at the start of a memory. -/
def lookup (memory : Memory) (address : BitVec 32) (fuel : Nat) : Option (List Nat × BitVec 32) :=
  let mask : BitVec 32 := memory.load 32 0 4
  let product := address * hashMultiplier
  let bucket := (product ^^^ product >>> 16) &&& mask
  (probe memory mask address fuel bucket).map fun found => (0 :: found.1, found.2)

/-- The memory of the table, of up to `2 ^ 32` bytes. A load outside it traps. -/
structure EntryMemory where
  contents : Memory
  size : Nat
  fits : size ≤ 2 ^ 32

/-- A table is written at offset zero; anything may follow it. -/
def EntryMemory.Holds (memory : EntryMemory) (bytes : List (BitVec 8)) : Prop :=
  bytes.length ≤ memory.size ∧ memory.contents.read 0 bytes.length = bytes

/-! ## Runs of inserts and removes -/

/-- A change of the table; an inserted slot is not zero. -/
inductive Operation where
  | insert (address : BitVec 32) (slot : {slot : BitVec 32 // slot ≠ 0})
  | remove (address : BitVec 32)

def apply (table : EntryTable) : Operation → Option EntryTable
  | .insert address slot => (table.insert address slot.1).map Prod.snd
  | .remove address => some (table.remove address).2

/-- The table after a sequence of changes. -/
def run (operations : List Operation) : Option EntryTable := operations.foldlM apply default

/-! ## Rows as a ring of buckets -/

section Rows

variable {rows : List Row} {mask bucket address : BitVec 32} {k : Nat}

/-- The rows as buckets: a row is empty when its slot is zero. -/
def view (rows : List Row) (b : Nat) : Option Row := rows[b]?.filter fun row => row.2 ≠ 0

theorem view_of_getElem {b : Nat} {row : Row} (h : rows[b]? = some row) :
    view rows b = if row.2 ≠ 0 then some row else none := by
  rw [view, h, Option.filter_some]
  by_cases hslot : row.2 ≠ 0 <;> simp

theorem view_replicate (n : Nat) : view (List.replicate n (0, 0)) = fun _ => none := by
  funext b
  rw [view, List.getElem?_replicate]
  split <;> rfl

theorem view_set {b : Nat} (hb : b < rows.length) {entry : Row} (h : entry.2 ≠ 0) :
    view (rows.set b entry) = Function.update (view rows) b (some entry) := by
  funext c
  by_cases hcb : c = b
  · rw [hcb, Function.update_self, view_of_getElem (List.getElem?_set_self hb), if_pos h]
  · rw [Function.update_of_ne hcb, view, List.getElem?_set_ne (fun hbc => hcb hbc.symm)]
    rfl

/-- The home of an address in the ring. -/
def home (mask address : BitVec 32) : Nat := (homeBucket mask address).toNat

variable (hk : k ≤ 32) (hmask : mask = BitVec.ofNat 32 (2 ^ k - 1))

include hk hmask

theorem toNat_and_mask (x : BitVec 32) : (x &&& mask).toNat = x.toNat % 2 ^ k := by
  have hpow : 2 ^ k ≤ 2 ^ 32 := Nat.pow_le_pow_right (by decide) hk
  have hpos : 0 < 2 ^ k := Nat.two_pow_pos k
  rw [hmask, BitVec.toNat_and, BitVec.toNat_ofNat, Nat.mod_eq_of_lt (by omega), Nat.and_two_pow_sub_one_eq_mod]

/-- A step of the walk: the mask takes the next bucket into the ring, also where the sum wraps. -/
theorem toNat_next (bucket : BitVec 32) : ((bucket + 1) &&& mask).toNat = (bucket.toNat + 1) % 2 ^ k := by
  rw [toNat_and_mask hk hmask, BitVec.toNat_add]
  exact Nat.mod_mod_of_dvd _ (Nat.pow_dvd_pow 2 hk)

theorem home_lt (address : BitVec 32) : home mask address < 2 ^ k := by
  rw [home, homeBucket, toNat_and_mask hk hmask]
  exact Nat.mod_lt _ (Nat.two_pow_pos k)

/-- The loop for an empty row is a walk of the ring. -/
theorem emptyRow_eq (hlen : rows.length = 2 ^ k)
    (hbucket : bucket.toNat < 2 ^ k) {fuel b : Nat}
    (h : Probing.search (2 ^ k) (fun b => (view rows b).isNone) fuel bucket.toNat = some b) :
    ∃ found, emptyRow rows mask fuel bucket = some found ∧ found.toNat = b := by
  induction fuel generalizing bucket with
  | zero => cases h
  | succ fuel ih =>
    obtain ⟨row, hrow⟩ : ∃ row, rows[bucket.toNat]? = some row := ⟨_, List.getElem?_eq_getElem (hlen ▸ hbucket)⟩
    have hview := view_of_getElem hrow
    rw [emptyRow, hrow, Option.bind_some]
    by_cases hslot : row.2 ≠ 0
    · rw [if_pos hslot] at hview ⊢
      rw [Probing.search, if_neg (by rw [hview]; exact Bool.false_ne_true), ← toNat_next hk hmask] at h
      refine ih ?_ h
      rw [toNat_next hk hmask]
      exact Nat.mod_lt _ (Nat.two_pow_pos k)
    · rw [if_neg hslot] at hview ⊢
      rw [Probing.search, if_pos (by rw [hview]; rfl)] at h
      exact ⟨bucket, rfl, Option.some.inj h⟩

/-- Laying out entries places them in the ring. -/
theorem foldlM_placeEntry {entries : List Row}
    (hslots : ∀ entry ∈ entries, entry.2 ≠ 0) (hlen : rows.length = 2 ^ k) {after : Nat → Option Row}
    (h : entries.foldlM (Probing.place (2 ^ k) (home mask)) (view rows) = some after) :
    ∃ laid, entries.foldlM (placeEntry mask) rows = some laid ∧ laid.length = 2 ^ k ∧ view laid = after := by
  induction entries generalizing rows with
  | nil => exact ⟨rows, rfl, hlen, Option.some.inj h⟩
  | cons entry entries ih =>
    rw [List.foldlM_cons, Option.bind_eq_bind, Option.bind_eq_some_iff] at h
    obtain ⟨ring, hpl, hrest⟩ := h
    obtain ⟨b, hsearch, rfl⟩ := Option.map_eq_some_iff.mp hpl
    obtain ⟨found, hfound, rfl⟩ := emptyRow_eq hk hmask hlen (home_lt hk hmask _) hsearch
    have hb : found.toNat < rows.length := by
      rw [hlen]
      exact Probing.search_lt (home_lt hk hmask _) hsearch
    rw [← view_set hb (hslots entry List.mem_cons_self)] at hrest
    obtain ⟨laid, hlaid, hres⟩ := ih (fun entry hent => hslots entry (List.mem_cons_of_mem _ hent))
      (by rw [List.length_set, hlen]) hrest
    refine ⟨laid, ?_, hres⟩
    rw [List.foldlM_cons, placeEntry, hlen, hfound]
    exact hlaid

end Rows

/-! ## The serialized table -/

section Serialized

variable {table : EntryTable}

/-- The exponent of the capacity. -/
def order (table : EntryTable) : Nat := Nat.clog 2 (max (table.entries.size * 2) 2)

def tableMask (table : EntryTable) : BitVec 32 := BitVec.ofNat 32 (2 ^ table.order - 1)

theorem order_le {k : Nat} (hk : 0 < k) (h : table.entries.size ≤ 2 ^ (k - 1)) : table.order ≤ k := by
  rw [order, Nat.clog_le_iff_le_pow (by decide)]
  have hpow : 2 ^ k = 2 ^ (k - 1) * 2 := by rw [← Nat.pow_succ, Nat.succ_eq_add_one, Nat.sub_add_cancel hk]
  have hpos : 0 < 2 ^ (k - 1) := Nat.two_pow_pos _
  omega

/-- At most half of the rows are occupied, and one is not. -/
theorem size_lt_capacity : table.entries.size < 2 ^ table.order := by
  have := Nat.le_pow_clog (b := 2) (by decide) (max (table.entries.size * 2) 2)
  rw [order]
  omega

theorem mem_entries {address slot : BitVec 32} :
    (address, slot) ∈ table.entries.toList ↔ table.get address = some slot :=
  Std.TreeMap.mem_toList_iff_getElem?_eq_some

theorem nodup_addresses : (table.entries.toList.map Prod.fst).Nodup := by
  rw [List.Nodup, List.pairwise_map]
  exact Std.TreeMap.distinct_keys_toList.imp fun hne heq => hne (by rw [heq]; exact Std.ReflCmp.compare_self)

/-- What is laid out: every entry, in the ring of rows. -/
theorem toBytes_eq (table : EntryTable) (h : table.entries.size ≤ 2 ^ 31) :
    ∃ rows, table.toBytes = some (Memory.lowBytes 4 table.tableMask ++ rows.flatMap rowBytes) ∧
      rows.length = 2 ^ table.order ∧
      Probing.Chained (2 ^ table.order) (home table.tableMask) (view rows) ∧
      Probing.Single (2 ^ table.order) (view rows) ∧
      (Probing.occupied (2 ^ table.order) (view rows)).card < 2 ^ table.order ∧
      ∀ address slot, Probing.Holds (2 ^ table.order) (view rows) address slot ↔ table.get address = some slot := by
  have hk : table.order ≤ 32 := order_le (by decide) h
  have hemp : (Probing.occupied (2 ^ table.order) fun _ => (none : Option Row)).card = 0 := by
    rw [Finset.card_eq_zero]
    exact Finset.filter_false_of_mem fun _ _ h => by cases h
  have hroom : table.entries.toList.length < 2 ^ table.order := by
    rw [Std.TreeMap.length_toList]
    exact size_lt_capacity
  have hnone : ∀ address slot, ¬ Probing.Holds (2 ^ table.order) (fun _ => (none : Option Row)) address slot := by
    rintro address slot ⟨b, -, hb⟩
    cases hb
  obtain ⟨after, hpl, hchain, hsingle, hcard, hholds⟩ := Probing.foldlM_place (n := 2 ^ table.order)
    (home_lt hk rfl) nodup_addresses (fun entry _ slot => hnone entry.1 slot) (fun b _ address slot h => by cases h)
    (fun b _ c _ address slot other h => by cases h) (by rw [hemp, Nat.zero_add]; exact hroom)
  have hview : view (List.replicate (2 ^ table.order) (0, 0)) = fun _ => none := view_replicate _
  obtain ⟨rows, hlaid, hlen, hrows⟩ := foldlM_placeEntry hk rfl
    (fun entry hent => table.nonzero entry.1 entry.2 (mem_entries.mp hent)) List.length_replicate
    (by rw [hview]; exact hpl)
  refine ⟨rows, ?_, hlen, hrows ▸ hchain, hrows ▸ hsingle, ?_, fun address slot => ?_⟩
  · have hmask : rowMask table.capacity = some table.tableMask := by
      have hpow : 2 ^ table.order ≤ 2 ^ 32 := Nat.pow_le_pow_right (by decide) hk
      have hpos : 0 < 2 ^ table.order := Nat.two_pow_pos _
      exact if_pos (show 2 ^ table.order - 1 < 2 ^ 32 by omega)
    rw [toBytes, hmask, Option.bind_some]
    exact congrArg (Option.map _) hlaid
  · rw [hrows]
    rw [hemp, Nat.zero_add] at hcard
    exact Nat.lt_of_le_of_lt hcard hroom
  · rw [hrows, hholds, mem_entries]
    exact or_iff_right (hnone address slot)

end Serialized

/-! ## The lookup over the serialized table -/

section Lookup

variable {memory : Memory} {mask bucket address : BitVec 32} {rows : List Row} {k : Nat}

/-- A memory starts with the serialization of a mask and rows. -/
def Starts (memory : Memory) (mask : BitVec 32) (rows : List Row) : Prop :=
  memory.read 0 (4 + 8 * rows.length) = Memory.lowBytes 4 mask ++ rows.flatMap rowBytes

theorem length_rowBytes (row : Row) : (rowBytes row).length = 8 := by
  rw [rowBytes, List.length_append, Memory.length_lowBytes, Memory.length_lowBytes]

theorem length_serialized (mask : BitVec 32) (rows : List Row) :
    (Memory.lowBytes 4 mask ++ rows.flatMap rowBytes).length = 4 + 8 * rows.length := by
  rw [List.length_append, Memory.length_lowBytes, List.length_flatMap, Nat.add_left_cancel_iff]
  induction rows with
  | nil => rfl
  | cons row rows ih =>
    rw [List.map_cons, List.sum_cons, length_rowBytes, ih, List.length_cons]
    omega

/-- A table is serialized while its mask fits 32 bits. -/
theorem serialized_iff {table : EntryTable} :
    (∃ bytes, table.toBytes = some bytes) ↔ table.entries.size ≤ 2 ^ 31 := by
  constructor
  · rintro ⟨bytes, h⟩
    have hcapacity : table.entries.size * 2 ≤ 2 ^ table.order :=
      Nat.le_trans (Nat.le_max_left _ _) (Nat.le_pow_clog (by decide) _)
    have horder : table.capacity = 2 ^ table.order := rfl
    rw [toBytes, rowMask] at h
    split at h
    · omega
    · cases h
  · intro h
    obtain ⟨rows, hbytes, -⟩ := toBytes_eq table h
    exact ⟨_, hbytes⟩

/-- The bytes of a table fit a 32-bit memory while it has at most `2 ^ 27` addresses. -/
theorem length_le_iff {table : EntryTable} {bytes : List (BitVec 8)} (h : table.toBytes = some bytes) :
    bytes.length ≤ 2 ^ 32 ↔ table.entries.size ≤ 2 ^ 27 := by
  obtain ⟨rows, hbytes, hrows, -⟩ := toBytes_eq table (serialized_iff.mp ⟨_, h⟩)
  obtain rfl := Option.some.inj (h.symm.trans hbytes)
  rw [length_serialized, hrows]
  constructor
  · intro hlen
    have horder : table.order ≤ 28 := by
      by_contra hlt
      have hpow : 2 ^ 29 ≤ 2 ^ table.order := Nat.pow_le_pow_right (by decide) (by omega)
      omega
    have hpow : 2 ^ table.order ≤ 2 ^ 28 := Nat.pow_le_pow_right (by decide) horder
    have hcapacity : table.entries.size * 2 ≤ 2 ^ table.order :=
      Nat.le_trans (Nat.le_max_left _ _) (Nat.le_pow_clog (by decide) _)
    omega
  · intro hsize
    have hpow : 2 ^ table.order ≤ 2 ^ 28 := Nat.pow_le_pow_right (by decide) (order_le (by decide) hsize)
    omega

theorem starts_split (h : Starts memory mask rows) :
    memory.read 0 4 = Memory.lowBytes 4 mask ∧ memory.read 4 (8 * rows.length) = rows.flatMap rowBytes := by
  rw [Starts, Memory.read_add] at h
  exact List.append_inj h (by rw [Memory.length_read, Memory.length_lowBytes])

theorem load_mask (h : Starts memory mask rows) : memory.load 32 0 4 = mask := by
  rw [Memory.load, (starts_split h).1, Memory.ofBytes_lowBytes mask rfl]

theorem load_row (h : Starts memory mask rows) {b : Nat} {row : Row} (hrow : rows[b]? = some row) :
    memory.load 32 (8 * b + 4) 4 = row.1 ∧ memory.load 32 (8 * b + 4 + 4) 4 = row.2 := by
  obtain ⟨hb, rfl⟩ := List.getElem?_eq_some_iff.mp hrow
  have hread := Memory.read_flatMap length_rowBytes (starts_split h).2 hb
  rw [Nat.add_comm 4 (8 * b)] at hread
  obtain ⟨haddr, hslot⟩ := List.append_inj ((Memory.read_add memory (8 * b + 4) 4 4).symm.trans hread)
    (by rw [Memory.length_read, Memory.length_lowBytes])
  constructor
  · rw [Memory.load, haddr, Memory.ofBytes_lowBytes rows[b].1 rfl]
  · rw [Memory.load, hslot, Memory.ofBytes_lowBytes rows[b].2 rfl]

/-- A row's address does not wrap in a table of up to `2 ^ 29` rows. -/
theorem toNat_row (hbucket : bucket.toNat < 2 ^ 29) : (bucket * 8 + 4).toNat = 8 * bucket.toNat + 4 := by
  rw [BitVec.toNat_add, BitVec.toNat_mul, show (8 : BitVec 32).toNat = 8 from rfl,
    show (4 : BitVec 32).toNat = 4 from rfl]
  omega

/-- The slot entered where the walk ends. -/
def entered (row : Option Row) : BitVec 32 := row.elim interpreterSlot Prod.snd

/-- The generated loop is a walk of the ring, inside the table. -/
theorem probe_eq (h : Starts memory mask rows) (hk : k ≤ 29) (hmask : mask = BitVec.ofNat 32 (2 ^ k - 1))
    (hlen : rows.length = 2 ^ k) (hbucket : bucket.toNat < 2 ^ k) {fuel b : Nat}
    (hsearch : Probing.search (2 ^ k) (fun b => Probing.stops (view rows) address b) fuel bucket.toNat = some b) :
    ∃ reads, probe memory mask address fuel bucket = some (reads, entered (view rows b)) ∧
      ∀ read ∈ reads, read + 4 ≤ 4 + 8 * rows.length := by
  induction fuel generalizing bucket with
  | zero => cases hsearch
  | succ fuel ih =>
    have hpow : 2 ^ k ≤ 2 ^ 29 := Nat.pow_le_pow_right (by decide) hk
    have hk32 : k ≤ 32 := Nat.le_trans hk (by decide)
    obtain ⟨row, hrow⟩ : ∃ row, rows[bucket.toNat]? = some row := ⟨_, List.getElem?_eq_getElem (hlen ▸ hbucket)⟩
    obtain ⟨haddr, hslot⟩ := load_row h hrow
    have hview := view_of_getElem hrow
    have hnext := toNat_next hk32 hmask bucket
    rw [probe, toNat_row (Nat.lt_of_lt_of_le hbucket hpow), haddr, hslot]
    have hin : 8 * bucket.toNat + 4 + 4 + 4 ≤ 4 + 8 * rows.length := by omega
    by_cases hemp : row.2 = 0
    · rw [if_neg (not_not.mpr hemp)] at hview
      rw [Probing.search, if_pos (Probing.stops_iff.mpr (Or.inl hview))] at hsearch
      rw [if_pos hemp, ← Option.some.inj hsearch, hview]
      exact ⟨_, rfl, by simpa using hin⟩
    · rw [if_pos hemp] at hview
      rw [if_neg hemp]
      by_cases hhit : row.1 = address
      · rw [Probing.search, if_pos (Probing.stops_iff.mpr (Or.inr ⟨row.2, by rw [hview, ← hhit]⟩))] at hsearch
        rw [if_pos hhit, ← Option.some.inj hsearch, hview]
        exact ⟨_, rfl, by simp; omega⟩
      · have hgo : ¬ Probing.stops (view rows) address bucket.toNat := by
          rw [Probing.stops, hview]
          simpa using hhit
        rw [Probing.search, if_neg hgo, ← toNat_next hk32 hmask] at hsearch
        obtain ⟨reads, hprobe, hrd⟩ := ih (by rw [toNat_next hk32 hmask]; exact Nat.mod_lt _ (Nat.two_pow_pos k))
          hsearch
        rw [if_neg hhit, hprobe]
        refine ⟨_, rfl, fun read hread => ?_⟩
        rcases List.mem_cons.mp hread with rfl | hread
        · exact hin
        · rcases List.mem_cons.mp hread with rfl | hread
          · omega
          · exact hrd read hread

/-- Over the bytes of a table that fits, the loop enters the slot of the address. -/
theorem lookup_eq (table : EntryTable) (h : table.entries.size ≤ 2 ^ 28) :
    ∃ bytes, table.toBytes = some bytes ∧ ∀ memory : Memory, memory.read 0 bytes.length = bytes → ∀ address,
      ∃ fuel reads, lookup memory address fuel = some (reads, (table.get address).getD interpreterSlot) ∧
        ∀ read ∈ reads, read + 4 ≤ bytes.length := by
  have hk : table.order ≤ 29 := order_le (by decide) h
  have hk32 : table.order ≤ 32 := Nat.le_trans hk (by decide)
  obtain ⟨rows, hbytes, hlen, hchain, hsingle, hroom, hholds⟩ := toBytes_eq table (Nat.le_trans h (by decide))
  refine ⟨_, hbytes, fun memory hmem address => ?_⟩
  rw [length_serialized] at hmem ⊢
  have hhome : home table.tableMask address < 2 ^ table.order := home_lt hk32 rfl address
  obtain ⟨b, hsearch, hentered⟩ : ∃ b, Probing.search (2 ^ table.order)
      (fun b => Probing.stops (view rows) address b) (2 ^ table.order) (home table.tableMask address) = some b ∧
      entered (view rows b) = (table.get address).getD interpreterSlot := by
    cases hget : table.get address with
    | none =>
      obtain ⟨b, -, hsearch, hb⟩ := Probing.search_absent hhome hroom
        (fun slot hold => by rw [hholds, hget] at hold; cases hold)
      exact ⟨b, hsearch, by rw [hb]; rfl⟩
    | some slot =>
      obtain ⟨b, hb, hrow⟩ := (hholds address slot).mpr hget
      exact ⟨b, Probing.search_held hchain hsingle hhome hb hrow, by rw [hrow]; rfl⟩
  obtain ⟨reads, hprobe, hrd⟩ := probe_eq hmem hk rfl hlen hhome hsearch
  refine ⟨2 ^ table.order, 0 :: reads, ?_, fun read hread => ?_⟩
  · rw [lookup, load_mask hmem, ← hentered]
    exact congrArg (Option.map _) hprobe
  · rcases List.mem_cons.mp hread with rfl | hread
    · omega
    · exact hrd read hread

end Lookup

/-! ## Every run -/

theorem run_concat {ops : List Operation} {op : Operation} {table : EntryTable}
    (h : run ops = some table) : run (ops ++ [op]) = table.apply op := by
  rw [run] at h
  rw [run, List.foldlM_append, h]
  show (do let after ← some table; [op].foldlM apply after) = _
  simp

/-- No insert of a nonzero slot is refused. -/
theorem run_total (ops : List Operation) : ∃ table, run ops = some table := by
  have hstep : ∀ op table, ∃ after, apply table op = some after := by
    intro op table
    cases op with
    | insert address slot => exact ⟨_, by rw [apply, insert, dif_pos slot.2]; rfl⟩
    | remove address => exact ⟨_, rfl⟩
  suffices h : ∀ table, ∃ after, ops.foldlM apply table = some after from h default
  induction ops with
  | nil => exact fun table => ⟨table, rfl⟩
  | cons op ops ih =>
    intro table
    obtain ⟨after, hafter⟩ := hstep op table
    rw [List.foldlM_cons, hafter]
    exact ih after

/-- After any sequence of inserts and removes, the table is serialized exactly when it has at most `2 ^ 31` addresses,
and over its bytes in a memory, whatever follows them, the generated loop ends in the slot of the address or the
interpreter's and loads words of the table only. -/
theorem lookup_agrees (operations : List Operation) :
    ∃ table, run operations = some table ∧
      ((∃ bytes, table.toBytes = some bytes) ↔ table.entries.size ≤ 2 ^ 31) ∧
      ∀ bytes, table.toBytes = some bytes → ∀ memory : EntryMemory, memory.Holds bytes → ∀ address,
        ∃ fuel reads, lookup memory.contents address fuel =
            some (reads, (table.get address).getD interpreterSlot) ∧
          ∀ read ∈ reads, read + 4 ≤ bytes.length := by
  obtain ⟨table, hrun⟩ := run_total operations
  refine ⟨table, hrun, serialized_iff, fun bytes hbytes memory hmemory => ?_⟩
  have hsize : table.entries.size ≤ 2 ^ 27 := (length_le_iff hbytes).mp (Nat.le_trans hmemory.1 memory.fits)
  obtain ⟨bytes', hbytes', hlookup⟩ := lookup_eq table (Nat.le_trans hsize (by decide))
  obtain rfl : bytes = bytes' := Option.some.inj (hbytes.symm.trans hbytes')
  exact hlookup memory.contents hmemory.2

/-- Address zero is an address like any other: it is entered while it is in the table. -/
theorem address_zero_entered : ∃ table bytes,
    run [.insert 0 ⟨5, by decide⟩, .insert 1 ⟨6, by decide⟩, .remove 1] = some table ∧
    table.toBytes = some bytes ∧ ∃ memory : EntryMemory, memory.Holds bytes ∧
      ∃ fuel reads, lookup memory.contents 0 fuel = some (reads, 5) ∧ ∀ read ∈ reads, read + 4 ≤ bytes.length := by
  obtain ⟨table, hrun, hserialized, h⟩ := lookup_agrees [.insert 0 ⟨5, by decide⟩, .insert 1 ⟨6, by decide⟩, .remove 1]
  have htable : table.entries.size = 1 ∧ table.get 0 = some 5 := by
    obtain rfl := Option.some.inj hrun
    decide
  obtain ⟨bytes, hbytes⟩ := hserialized.mpr (by rw [htable.1]; decide)
  have hfits : bytes.length ≤ 2 ^ 32 := (length_le_iff hbytes).mpr (by rw [htable.1]; decide)
  have hholds : (EntryMemory.mk (Memory.ofList bytes) bytes.length hfits).Holds bytes :=
    ⟨Nat.le_refl _, Memory.read_ofList bytes⟩
  have hzero := h bytes hbytes _ hholds 0
  rw [htable.2] at hzero
  exact ⟨table, bytes, hrun, hbytes, _, hholds, hzero⟩

/-! ## Larger tables -/

section Larger

/-- Inserts of the first addresses. -/
def inserts (count : Nat) : List Operation :=
  (List.range count).map fun i => .insert (BitVec.ofNat 32 i) ⟨2, by decide⟩

theorem inserts_succ (count : Nat) :
    inserts (count + 1) = inserts count ++ [.insert (BitVec.ofNat 32 count) ⟨2, by decide⟩] := by
  rw [inserts, inserts, List.range_succ, List.map_append, List.map_singleton]

/-- The table after these inserts. -/
theorem run_inserts (count : Nat) (h : count ≤ 2 ^ 32) :
    ∃ table, run (inserts count) = some table ∧ table.entries.size = count ∧
      ∀ address slot, table.get address = some slot → address.toNat < count := by
  induction count with
  | zero => exact ⟨default, rfl, rfl, fun address slot hget => by simp [default, get] at hget⟩
  | succ count ih =>
    obtain ⟨table, hrun, hsize, hget⟩ := ih (Nat.le_of_succ_le h)
    obtain ⟨after, hinsert, hentries⟩ := insert_eq table (BitVec.ofNat 32 count) (show (2 : BitVec 32) ≠ 0 by decide)
    have hcount : (BitVec.ofNat 32 count).toNat = count := by
      rw [BitVec.toNat_ofNat, Nat.mod_eq_of_lt h]
    have hfresh : table.get (BitVec.ofNat 32 count) = none := by
      refine Option.eq_none_iff_forall_ne_some.mpr fun slot hslot => ?_
      have hlt := hget _ slot hslot
      omega
    refine ⟨after, ?_, ?_, fun address slot hslot => ?_⟩
    · rw [inserts_succ, run_concat hrun, apply, hinsert]
      rfl
    · rw [hentries, Std.TreeMap.size_insert, if_neg, hsize]
      rw [Std.TreeMap.contains_eq_isSome_getElem?, ← get, hfresh]
      exact Bool.false_ne_true
    · rw [get_of_insert hentries] at hslot
      split at hslot
      · next heq =>
          rw [← heq, hcount]
          exact Nat.lt_succ_self count
      · exact Nat.lt_succ_of_lt (hget address slot hslot)

/-- With one address more the mask does not fit, and there are no bytes. -/
theorem larger_table_refused : ¬ ∀ operations, ∃ table, run operations = some table ∧
    ∃ bytes, table.toBytes = some bytes ∧ ∀ memory : EntryMemory, memory.Holds bytes → ∀ address,
      ∃ fuel reads, lookup memory.contents address fuel = some (reads, (table.get address).getD interpreterSlot) ∧
        ∀ read ∈ reads, read + 4 ≤ bytes.length := by
  intro hall
  obtain ⟨table, hrun, bytes, hbytes, -⟩ := hall (inserts (2 ^ 31 + 1))
  obtain ⟨table', hrun', hsize, -⟩ := run_inserts (2 ^ 31 + 1) (by decide)
  obtain rfl : table = table' := Option.some.inj (hrun.symm.trans hrun')
  have hfew : table.entries.size ≤ 2 ^ 31 := serialized_iff.mp ⟨bytes, hbytes⟩
  omega

end Larger

end EntryTable

end Relocade.Dispatch
