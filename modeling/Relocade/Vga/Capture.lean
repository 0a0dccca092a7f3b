import Relocade.CopyOnWrite
import Relocade.Memory
import Relocade.Vga.Pages

/-!
# `Vga.Capture` — physical memory, captures and uploads

Video memory is kept in shared blocks. Captures hold blocks and the dirty pages since a baseline; publishing
accumulates them, taking resets them, and an upload writes only what the last upload does not already hold.
-/

namespace Relocade.Vga

open CopyOnWrite

/-! ## Blocks -/

/-- The bytes of a block. -/
abbrev Block := Nat → BitVec 8

/-- Complete immutable blocks covering a captured prefix of physical VRAM. -/
structure MemorySnapshot where
  blocks : List Nat
  length_le : blocks.length ≤ BLOCKS
  deriving DecidableEq

/-- The bytes of physical VRAM that a layout covers. -/
abbrev Extent := { bytes : Nat // bytes ≤ VIDEO_MEMORY_BYTES }

/-- Complete interleaved groups of four blocks. -/
def blockCount (bytes : Nat) : Nat := (bytes + (4 * BLOCK_BYTES - 1)) / (4 * BLOCK_BYTES) * 4

theorem blockCount_le (extent : Extent) : blockCount extent.val ≤ BLOCKS := by
  have h := extent.property
  unfold blockCount BLOCKS VIDEO_MEMORY_BYTES BLOCK_BYTES at *
  omega

structure Storage where
  blocks : Nat → Nat
  changed : DirtyPages

namespace Storage

/-- The block and the offset of a physical address. -/
def location (address : Nat) : Nat × Nat :=
  (address / (4 * BLOCK_BYTES) * 4 + address % 4, address / 4 % BLOCK_BYTES)

variable (storage : Storage)

/-- Capture complete interleaved groups through the requested physical byte extent. -/
def snapshot (extent : Extent) : MemorySnapshot where
  blocks := (List.range (blockCount extent.val)).map storage.blocks
  length_le := by
    rw [List.length_map, List.length_range]
    exact blockCount_le extent

/-- Every cleared block must be visible to the next upload. -/
def clear (heap : Heap Block) : Storage × Heap Block :=
  let zero := heap.alloc fun _ => 0
  (⟨fun _ => zero.1, (List.range BLOCKS).foldl DirtyPages.markBlock DirtyPages.default⟩, zero.2)

/-- Whether no other block and no other holder shares a block. -/
def unique (held : List (List Nat)) (block : Nat) : Bool :=
  ((List.range BLOCKS).all fun other => other = block || storage.blocks other ≠ storage.blocks block) &&
    held.all fun ids => !ids.contains (storage.blocks block)

/-- A retained snapshot copies at most one block on its first change. -/
def write (heap : Heap Block) (held : List (List Nat)) (address : Nat) (value : BitVec 8) : Storage × Heap Block :=
  let block := (location address).1
  let offset := (location address).2
  if heap.contents (storage.blocks block) offset = value then (storage, heap)
  else
    let changed := heap.makeMut (storage.blocks block) (storage.unique held block) fun bytes i =>
      if i = offset then value else bytes i
    (⟨fun other => if other = block then changed.1 else storage.blocks other, storage.changed.mark block offset⟩,
      changed.2)

end Storage

/-! ## Captures -/

/-- Changes since a known immutable memory version. -/
structure MemoryChanges where
  baseline : MemorySnapshot
  pages : DirtyPages

/-- Display settings other than memory, with the extent that they cover. -/
structure Inputs (ρ : Type) where
  extent : Extent
  settings : ρ
  deriving DecidableEq

/-- A complete display snapshot independent of the live device and other captures. -/
structure DisplaySnapshot (ρ : Type) where
  inputs : Inputs ρ
  memory : MemorySnapshot
  changes : Option MemoryChanges

namespace DisplaySnapshot

variable {ρ : Type} [DecidableEq ρ] (display other : DisplaySnapshot ρ)

/-- Conservative input comparison: block identities, not bytes. -/
def sameInputs : Bool := display.inputs = other.inputs && display.memory = other.memory

/-- The block lists that a snapshot holds. -/
def held : List (List Nat) :=
  match display.changes with
  | none => [display.memory.blocks]
  | some changes => [display.memory.blocks, changes.baseline.blocks]

/-- Only the pending upload hints are consumed. -/
def consumed : DisplaySnapshot ρ := { display with changes := some ⟨display.memory, DirtyPages.default⟩ }

/-- A later capture over pending changes, which must have a baseline of its own. -/
def accumulate (pending : MemoryChanges) : Option (DisplaySnapshot ρ) :=
  display.changes.map fun changes =>
    { display with changes := some ⟨pending.baseline, changes.pages.merge pending.pages⟩ }

end DisplaySnapshot

/-! ## Uploads -/

/-- The hints that apply to a block: those whose baseline is the block last uploaded. -/
def applicable (previous : Option Nat) (changes : Option MemoryChanges) (block : Nat) : Option MemoryChanges :=
  changes.filter fun changes =>
    match previous, changes.baseline.blocks[block]? with
    | some previous, some baseline => previous = baseline
    | _, _ => false

/-- The writes of one block. -/
def writeBlock (bytes : Block) (changes : Option MemoryChanges) (block : Nat) : List (Nat × List (BitVec 8)) :=
  match changes with
  | some changes =>
      (changes.pages.ranges block).map fun range =>
        (block * BLOCK_BYTES + range.1, Memory.read bytes range.1 (range.2 - range.1))
  | none => [(block * BLOCK_BYTES, Memory.read bytes 0 BLOCK_BYTES)]

/-- The writes of an upload, after `previous`. -/
def writeBlocks {ρ : Type} (heap : Heap Block) (previous : Option MemorySnapshot) (snapshot : DisplaySnapshot ρ) :
    List (Nat × List (BitVec 8)) :=
  (List.range snapshot.memory.blocks.length).flatMap fun block =>
    let bytes := snapshot.memory.blocks.getD block 0
    let previous := previous.bind fun memory => memory.blocks[block]?
    if previous = some bytes then []
    else writeBlock (heap.contents bytes) (applicable previous snapshot.changes block) block

/-! ## The system -/

/-- The device with its frame source, a renderer's memory, and the snapshots that are still held. -/
structure System (ρ : Type) where
  heap : Heap Block
  storage : Storage
  inputs : Inputs ρ
  /-- The latest published capture. -/
  frame : Option (DisplaySnapshot ρ)
  /-- A capture prepared at a retrace and not yet swapped in. -/
  sampled : Option (DisplaySnapshot ρ)
  retained : List (DisplaySnapshot ρ)
  /-- Immutable block identities describing the last queued upload. -/
  previous : Option MemorySnapshot
  buffer : Memory

namespace System

variable {ρ : Type} [DecidableEq ρ] (s : System ρ)

/-- Every block list that something holds. -/
def held : List (List Nat) :=
  s.frame.toList.flatMap DisplaySnapshot.held ++ s.sampled.toList.flatMap DisplaySnapshot.held ++
    s.retained.flatMap DisplaySnapshot.held ++ s.previous.toList.map MemorySnapshot.blocks

/-- A capture before its first frame. -/
def initial (inputs : Inputs ρ) (buffer : Memory) : System ρ where
  heap := ⟨fun _ _ => 0, 1⟩
  storage := ⟨fun _ => 0, DirtyPages.default⟩
  inputs := inputs
  frame := none
  sampled := none
  retained := []
  previous := none
  buffer := buffer

/-- Captures current display inputs immediately. -/
def snapshot : DisplaySnapshot ρ where
  inputs := s.inputs
  memory := s.storage.snapshot s.inputs.extent
  changes := s.frame.map fun previous => ⟨previous.memory, s.storage.changed⟩

def write (address : Nat) (value : BitVec 8) : System ρ :=
  let written := s.storage.write s.heap s.held address value
  { s with storage := written.1, heap := written.2 }

def clear : System ρ :=
  let cleared := Storage.clear s.heap
  { s with storage := cleared.1, heap := cleared.2 }

/-- Prepares a capture when inputs changed. Only publication starts a new dirty interval. -/
def sample : System ρ :=
  if s.frame.any fun previous => s.snapshot.sameInputs previous then s
  else { s with sampled := some s.snapshot, storage := { s.storage with changed := DirtyPages.default } }

/-- The capture that replaces the frame, where it has the baseline that pending changes need. -/
def merged (frame : DisplaySnapshot ρ) : Option (DisplaySnapshot ρ) :=
  match s.frame.bind DisplaySnapshot.changes with
  | none => some frame
  | some pending => frame.accumulate pending

/-- Swaps the prepared capture in. -/
def publish : System ρ :=
  match s.sampled with
  | none => s
  | some frame =>
      match s.merged frame with
      | none => s
      | some frame => { s with frame := some frame, sampled := none }

/-- Hands a snapshot out. -/
def retain (display : DisplaySnapshot ρ) : System ρ := { s with retained := display :: s.retained }

/-- Takes the latest capture; it stays readable without its hints. -/
def take : System ρ :=
  match s.frame with
  | none => s
  | some frame => { s.retain frame with frame := some frame.consumed }

def upload (display : DisplaySnapshot ρ) : System ρ :=
  { s with
    buffer := s.buffer.writeAll (writeBlocks s.heap s.previous display)
    previous := some display.memory }

end System

/-- What the device, its consumers and a renderer do. -/
inductive Op (ρ : Type) where
  | write (address : Nat) (value : BitVec 8)
  | clear
  | program (inputs : Inputs ρ)
  | snapshot
  | retrace (inputs : Inputs ρ)
  | publish
  | take
  | read
  | drop (n : Nat)
  | upload (n : Nat)

namespace System

variable {ρ : Type} [DecidableEq ρ]

/-- The device does nothing else between preparing a capture and publishing it; consumers may. -/
def step (s : System ρ) (op : Op ρ) : System ρ :=
  match op with
  | .write address value =>
      if s.sampled.isNone ∧ address < VIDEO_MEMORY_BYTES then s.write address value else s
  | .clear => if s.sampled.isNone then s.clear else s
  | .program inputs => if s.sampled.isNone then { s with inputs } else s
  | .snapshot => if s.sampled.isNone then s.retain s.snapshot else s
  | .retrace inputs => if s.sampled.isNone then { s with inputs }.sample else s
  | .publish => s.publish
  | .take => s.take
  | .read =>
      match s.frame with
      | none => s
      | some frame => s.retain frame
  | .drop n => { s with retained := s.retained.eraseIdx n }
  | .upload n =>
      match s.retained[n]? with
      | none => s
      | some display => s.upload display

end System

end Relocade.Vga
