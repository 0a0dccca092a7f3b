import Relocade.Segment.Descriptor

/-!
# `Segment.Tables` — descriptor tables and their packed form

A collection of descriptors is a map from slots to entries (`run_slots`). Packing it lays out every slot's eight
bytes in order (`packedEntry_eq`), so that loads and queries decoded from the bytes are those of the collection,
but for null selectors, whose queries the collection answers without reading slot zero (`packed_tables_faithful`).
-/

namespace Relocade.Segmentation

/-! ## The collection -/

/-- The local bit and the index of a selector. -/
def slot (selector : BitVec 16) : Bool × Nat := (selector &&& 4 ≠ 0, (selector >>> 3).toNat)

/-- Host-managed global and local descriptor slots. -/
structure DescriptorTables where
  tables : Bool → List (Option SegmentDescriptor)

namespace DescriptorTables

def default : DescriptorTables := ⟨fun _ => []⟩

variable (tables : DescriptorTables)

/-- What a slot holds. -/
def entry (table : Bool) (index : Nat) : Option SegmentDescriptor := (tables.tables table)[index]?.join

def get (selector : BitVec 16) : Option SegmentDescriptor := tables.entry (slot selector).1 (slot selector).2

/-- Replaces one table. -/
def setTable (table : Bool) (entries : List (Option SegmentDescriptor)) : DescriptorTables :=
  ⟨fun other => if other = table then entries else tables.tables other⟩

/-- `entries.resize(index + 1, None)` where the index is out of range. -/
def grow (entries : List (Option SegmentDescriptor)) (index : Nat) : List (Option SegmentDescriptor) :=
  if index ≥ entries.length then entries ++ List.replicate (index + 1 - entries.length) none else entries

/-- Installs a descriptor and returns any previous entry. -/
def insert (selector : BitVec 16) (descriptor : SegmentDescriptor) : Option SegmentDescriptor × DescriptorTables :=
  let table := (slot selector).1
  let index := (slot selector).2
  let entries := grow (tables.tables table) index
  (entries[index]?.join, tables.setTable table (entries.set index (some descriptor)))

/-- Removes a descriptor and returns it. -/
def remove (selector : BitVec 16) : Option SegmentDescriptor × DescriptorTables :=
  let table := (slot selector).1
  let index := (slot selector).2
  match (tables.tables table)[index]? with
  | none => (none, tables)
  | some old => (old, tables.setTable table ((tables.tables table).set index none))

/-- The packed form of a slot, a zero descriptor where it is empty. -/
def packEntry (entry : Option SegmentDescriptor) : Descriptor := (entry.map Descriptor.pack).getD Descriptor.default

/-- Packs both tables, retaining empty slots as zero descriptors. Each table has at least one slot. -/
def toPackedTables (table : Bool) : List (BitVec 8) :=
  (List.range (max (tables.tables table).length 1)).flatMap fun index =>
    (packEntry (tables.entry table index)).toBytes.toList

/-- Null selectors, missing slots and privilege-inaccessible descriptors are not visible. -/
def queryUserSegmentDescriptor (selector : BitVec 16) : SegmentDescriptorInfo :=
  if selector &&& ~~~3 = 0 then SegmentDescriptorInfo.default
  else ((tables.get selector).map SegmentDescriptor.queryUser).getD SegmentDescriptorInfo.default

def resolveUserSegment (destination : Segment) (selector : BitVec 16) : Except Exception SegmentRegister :=
  (packEntry (tables.get selector)).resolveUserSegment destination selector

end DescriptorTables

/-! ## Runs -/

inductive Op where
  | insert (selector : BitVec 16) (descriptor : SegmentDescriptor)
  | remove (selector : BitVec 16)

def Op.apply (op : Op) (tables : DescriptorTables) : Option SegmentDescriptor × DescriptorTables :=
  match op with
  | .insert selector descriptor => tables.insert selector descriptor
  | .remove selector => tables.remove selector

/-- The tables after a sequence of operations. -/
def run (ops : List Op) : DescriptorTables := ops.foldl (fun tables op => (op.apply tables).2) DescriptorTables.default

/-- The slot of an operation and what it leaves there. -/
def Op.effect : Op → (Bool × Nat) × Option SegmentDescriptor
  | .insert selector descriptor => (slot selector, some descriptor)
  | .remove selector => (slot selector, none)

/-- What the collection is for: a map from slots to descriptors, each written by its last operation. -/
def slots (ops : List Op) : Bool × Nat → Option SegmentDescriptor :=
  ops.foldl (fun map op at' => if at' = op.effect.1 then op.effect.2 else map at') fun _ => none

namespace DescriptorTables

variable (entries : List (Option SegmentDescriptor))

theorem grow_entry (index i : Nat) : (grow entries index)[i]?.join = entries[i]?.join := by
  unfold grow
  split
  · by_cases hi : i < entries.length
    · rw [List.getElem?_append_left hi]
    · have hi := Nat.le_of_not_lt hi
      rw [List.getElem?_append_right hi, List.getElem?_eq_none hi, List.getElem?_replicate]
      split <;> rfl
  · rfl

theorem lt_length_grow (index : Nat) : index < (grow entries index).length := by
  unfold grow
  split
  · rw [List.length_append, List.length_replicate]
    omega
  · omega

variable {tables : DescriptorTables}

@[simp]
theorem tables_setTable (table other : Bool) :
    (tables.setTable table entries).tables other = if other = table then entries else tables.tables other := rfl

/-- Setting one entry of one table. -/
theorem entry_setTable_set {table other : Bool} {entries : List (Option SegmentDescriptor)} {index i : Nat}
    {value : Option SegmentDescriptor} (hidx : index < entries.length)
    (hentries : ∀ i, entries[i]?.join = tables.entry table i) :
    (tables.setTable table (entries.set index value)).entry other i =
      if (other, i) = (table, index) then value else tables.entry other i := by
  rw [entry, tables_setTable]
  by_cases htable : other = table
  · subst htable
    rw [if_pos rfl]
    by_cases hi : i = index
    · subst hi
      rw [List.getElem?_set_self hidx, if_pos rfl]
      rfl
    · rw [List.getElem?_set_ne (Ne.symm hi), if_neg fun h => hi (Prod.mk.inj h).2]
      exact hentries i
  · rw [if_neg htable, if_neg fun h => htable (Prod.mk.inj h).1]
    rfl

theorem insert_spec (sel : BitVec 16) (desc : SegmentDescriptor) (table : Bool) (index : Nat) :
    (tables.insert sel desc).1 = tables.get sel ∧
      (tables.insert sel desc).2.entry table index =
        if (table, index) = slot sel then some desc else tables.entry table index :=
  ⟨grow_entry _ _ _, entry_setTable_set (lt_length_grow _ _) (grow_entry _ _)⟩

theorem remove_spec (sel : BitVec 16) (table : Bool) (index : Nat) :
    (tables.remove sel).1 = tables.get sel ∧
      (tables.remove sel).2.entry table index =
        if (table, index) = slot sel then none else tables.entry table index := by
  unfold get
  cases h : (tables.tables (slot sel).1)[(slot sel).2]? with
  | none =>
    have hremove : tables.remove sel = (none, tables) := by simp only [remove, h]
    have hnone : tables.entry (slot sel).1 (slot sel).2 = none := by
      rw [entry, h]
      rfl
    rw [hremove]
    refine ⟨hnone.symm, ?_⟩
    split
    next hat =>
      rw [← hat] at hnone
      exact hnone
    next => rfl
  | some old =>
    have hremove : tables.remove sel =
        (old, tables.setTable (slot sel).1 ((tables.tables (slot sel).1).set (slot sel).2 none)) := by
      simp only [remove, h]
    rw [hremove]
    refine ⟨?_, entry_setTable_set (List.getElem?_eq_some_iff.mp h).1 fun _ => rfl⟩
    rw [entry, h]
    rfl

/-- An operation writes its own slot and returns what was there. -/
theorem apply_spec (op : Op) (table : Bool) (index : Nat) :
    (op.apply tables).1 = tables.entry op.effect.1.1 op.effect.1.2 ∧
      (op.apply tables).2.entry table index =
        if (table, index) = op.effect.1 then op.effect.2 else tables.entry table index := by
  cases op with
  | insert selector descriptor => exact insert_spec selector descriptor table index
  | remove selector => exact remove_spec selector table index

/-- Every slot holds what its last operation left there. -/
theorem run_slots (ops : List Op) (table : Bool) (index : Nat) : (run ops).entry table index = slots ops (table, index) := by
  suffices h : ∀ (ops : List Op) (tables : DescriptorTables) (map : Bool × Nat → Option SegmentDescriptor),
      (∀ at', tables.entry at'.1 at'.2 = map at') →
      ∀ at', (ops.foldl (fun tables op => (op.apply tables).2) tables).entry at'.1 at'.2 =
        ops.foldl (fun map op at' => if at' = op.effect.1 then op.effect.2 else map at') map at' from
    h ops default (fun _ => none) (fun _ => rfl) (table, index)
  intro ops
  induction ops with
  | nil =>
    intro tables map h
    exact h
  | cons op ops ih =>
    intro tables map h
    refine ih _ _ fun at' => ?_
    rw [(apply_spec op at'.1 at'.2).2, h at']

end DescriptorTables

/-! ## Packed entries -/

/-- The descriptor in the eight bytes at an index, a zero descriptor past the end. -/
def decodeEntry (bytes : List (BitVec 8)) (index : Nat) : Descriptor :=
  if 8 * index + 8 ≤ bytes.length then
    Descriptor.fromBytes (Vector.ofFn fun i => bytes.getD (8 * index + i.val) 0)
  else Descriptor.default

/-- The packed descriptor that a selector names. -/
def DescriptorTables.packedEntry (tables : DescriptorTables) (selector : BitVec 16) : Descriptor :=
  decodeEntry (tables.toPackedTables (slot selector).1) (slot selector).2

theorem length_flatMap_block (f : Nat → Vector (BitVec 8) 8) (count : Nat) :
    ((List.range count).flatMap fun index => (f index).toList).length = 8 * count := by
  induction count with
  | zero => rfl
  | succ count ih =>
    rw [List.range_succ, List.flatMap_append, List.length_append, ih, List.flatMap_singleton, Vector.length_toList]
    omega

/-- Blocks laid end to end are found at multiples of their length. -/
theorem getD_flatMap_block (f : Nat → Vector (BitVec 8) 8) {count index i : Nat} (hidx : index < count) (hi : i < 8) :
    ((List.range count).flatMap fun index => (f index).toList).getD (8 * index + i) 0 = (f index)[i] := by
  induction count with
  | zero => cases hidx
  | succ count ih =>
    have hlen := length_flatMap_block f count
    rw [List.range_succ, List.flatMap_append, List.flatMap_singleton]
    rcases Nat.lt_succ_iff_lt_or_eq.mp hidx with h | rfl
    · rw [List.getD_eq_getElem?_getD, List.getElem?_append_left (by omega), ← List.getD_eq_getElem?_getD]
      exact ih h
    · rw [List.getD_eq_getElem?_getD, List.getElem?_append_right (by omega), hlen, Nat.add_sub_cancel_left,
        List.getElem?_eq_getElem (by rw [Vector.length_toList]; exact hi), Option.getD_some]
      exact Vector.getElem_toList _

/-- The packed entry of a selector is its slot's. -/
theorem packedEntry_eq (tables : DescriptorTables) (sel : BitVec 16) :
    tables.packedEntry sel = DescriptorTables.packEntry (tables.get sel) := by
  have hlen := length_flatMap_block
    (fun index => (DescriptorTables.packEntry (tables.entry (slot sel).1 index)).toBytes)
    (max (tables.tables (slot sel).1).length 1)
  unfold DescriptorTables.packedEntry DescriptorTables.toPackedTables decodeEntry
  rw [hlen]
  split
  next h =>
    rw [← Descriptor.fromBytes_toBytes (DescriptorTables.packEntry (tables.get sel))]
    congr 1
    refine Vector.ext fun i hi => ?_
    rw [Vector.getElem_ofFn]
    exact getD_flatMap_block _ (by omega) hi
  next h =>
    have hget : tables.get sel = none := by
      rw [DescriptorTables.get, DescriptorTables.entry, List.getElem?_eq_none (by omega)]
      rfl
    rw [hget]
    rfl

/-! ## Accessed descriptors -/

variable (d : Descriptor)

/-- Masks without the accessed bit read what they read before. -/
theorem and_withAccessed (mask : BitVec 8) (h : ACCESSED &&& mask = 0) :
    d.withAccessed.access &&& mask = d.access &&& mask := by
  unfold Descriptor.withAccessed
  split
  · show (d.access ||| ACCESSED) &&& mask = d.access &&& mask
    rw [BitVec.and_or_distrib_right, h]
    exact BitVec.or_zero
  · rfl

theorem withAccessed_eq : d.withAccessed = { d with access := d.withAccessed.access } := by
  unfold Descriptor.withAccessed
  split
  · rfl
  · rfl

theorem codeData_withAccessed : d.withAccessed.codeData = d.codeData := by
  have hand := and_withAccessed d
  rw [withAccessed_eq]
  generalize d.withAccessed.access = access at hand
  unfold Descriptor.codeData
  show (if access &&& CODE_DATA = 0 then none else _) = _
  rw [hand CODE_DATA rfl, hand EXECUTABLE rfl, hand READ_WRITE rfl, hand CONFORMING_EXPAND_DOWN rfl, hand DPL_MASK rfl,
    hand PRESENT rfl]
  rfl

/-- The accessed bit is the only one that changes, and only in code and data descriptors. -/
theorem withAccessed_bits (i : Nat) :
    d.withAccessed.access.getLsbD i = (d.access.getLsbD i || (decide (i = 0) && decide (d.access &&& CODE_DATA ≠ 0))) := by
  unfold Descriptor.withAccessed
  split
  next h =>
    show (d.access ||| ACCESSED).getLsbD i = _
    rw [BitVec.getLsbD_or, decide_eq_true h, Bool.and_true]
    exact congrArg (d.access.getLsbD i || ·) BitVec.getLsbD_one
  next h => rw [decide_eq_false h, Bool.and_false, Bool.or_false]

/-- No resolution depends on the accessed bit. -/
theorem resolveUserSegment_withAccessed (destination : Segment) (sel : BitVec 16) :
    d.withAccessed.resolveUserSegment destination sel = d.resolveUserSegment destination sel := by
  unfold Descriptor.resolveUserSegment
  rw [codeData_withAccessed]

/-! ## The packed tables of every run -/

theorem queryUser_packEntry (entry : Option SegmentDescriptor) :
    (DescriptorTables.packEntry entry).queryUser =
      (entry.map SegmentDescriptor.queryUser).getD SegmentDescriptorInfo.default := by
  cases entry with
  | none => decide
  | some descriptor => rfl

/-- The packed tables of every run hold what each slot was last given, and answer loads and queries as the collection
does; packing, bytes and the accessed bit lose nothing. -/
theorem packed_tables_faithful :
    (∀ (ops : List Op) (selector : BitVec 16) (destination : Segment),
      (run ops).packedEntry selector = DescriptorTables.packEntry (slots ops (slot selector)) ∧
        ((run ops).packedEntry selector).resolveUserSegment destination selector =
          (run ops).resolveUserSegment destination selector ∧
        (run ops).queryUserSegmentDescriptor selector =
          if selector &&& ~~~3 = 0 then SegmentDescriptorInfo.default
          else ((run ops).packedEntry selector).queryUser) ∧
      (∀ descriptor, (Descriptor.pack descriptor).codeData = some descriptor) ∧
      (∀ bytes, (Descriptor.fromBytes bytes).toBytes = bytes) ∧
      (∀ d : Descriptor, Descriptor.fromBytes d.toBytes = d) ∧
      (∀ d : Descriptor, d.withAccessed = { d with access := d.withAccessed.access } ∧
        (∀ i, d.withAccessed.access.getLsbD i =
          (d.access.getLsbD i || (decide (i = 0) && decide (d.access &&& CODE_DATA ≠ 0)))) ∧
        ∀ destination selector,
          d.withAccessed.resolveUserSegment destination selector = d.resolveUserSegment destination selector) := by
  refine ⟨fun ops selector destination => ⟨?_, ?_, ?_⟩, Descriptor.codeData_pack, Descriptor.toBytes_fromBytes,
    Descriptor.fromBytes_toBytes, fun d => ⟨withAccessed_eq d, withAccessed_bits d, resolveUserSegment_withAccessed d⟩⟩
  · rw [packedEntry_eq, DescriptorTables.get, DescriptorTables.run_slots]
  · rw [packedEntry_eq]
    rfl
  · rw [packedEntry_eq, queryUser_packEntry]
    rfl

/-- A flat data descriptor. -/
def flatData : SegmentDescriptor :=
  ⟨0, ⟨0xfffff, true, by decide⟩, .data true false, .bits32, .ring3, true, false⟩

/-- A descriptor in the null slot is packed and visible there, while the collection's query never sees it. -/
theorem null_slot_visible :
    ¬ ∀ (ops : List Op) (selector : BitVec 16),
      ((run ops).packedEntry selector).queryUser = (run ops).queryUserSegmentDescriptor selector := by
  intro h
  have hnull := h [.insert 0 flatData] 0
  rw [packedEntry_eq] at hnull
  revert hnull
  decide

end Relocade.Segmentation
