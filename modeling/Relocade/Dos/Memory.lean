import Relocade.Memory

/-!
# `Dos.Memory` — DOS paragraph allocation

The guest's chain of memory control blocks is the source of truth: every call reads it from conventional memory,
edits the list of blocks and writes their headers back. Additions of 16-bit values are checked: `none` is a panic, of
an overflow, an index out of range or an access beyond conventional memory.
-/

namespace Relocade.Dos

/-! ## Arena -/

def PARAGRAPH_BYTES : Nat := 16

def CONVENTIONAL_MEMORY_SIZE : Nat := 0xa0000

def FIRST_SEGMENT : Nat := 0x1000

def FIRST_MCB : Nat := FIRST_SEGMENT - 1

def END_SEGMENT : Nat := CONVENTIONAL_MEMORY_SIZE / PARAGRAPH_BYTES

def AVAILABLE_PARAGRAPHS : Nat := END_SEGMENT - FIRST_SEGMENT

/-- A block of the arena. `paragraphs` excludes the MCB's own paragraph. -/
structure Block where
  mcb : Nat
  /-- PSP segment, or zero for free memory. -/
  owner : BitVec 16
  paragraphs : Nat
  deriving DecidableEq, Repr

inductive DosError where
  | memoryCorrupted
  | insufficientMemory (available : Nat)
  | invalidMemoryBlock
  deriving DecidableEq, Repr

/-- A sum of 16-bit values. -/
def add16 (a b : Nat) : Option Nat := if a + b < 0x10000 then some (a + b) else none

/-- A difference of 16-bit values. -/
def sub16 (a b : Nat) : Option Nat := if b ≤ a then some (a - b) else none

/-! ## Chain -/

/-- The five bytes at an address of conventional memory. -/
def readHeader (m : Memory) (address : Nat) : Option (List (BitVec 8)) :=
  if address + 5 ≤ CONVENTIONAL_MEMORY_SIZE then some (m.read address 5) else none

def writeHeader (m : Memory) (address : Nat) (bytes : List (BitVec 8)) : Option Memory :=
  if address + bytes.length ≤ CONVENTIONAL_MEMORY_SIZE then some (m.write address bytes) else none

/-- MCB offsets: 0 = 'M'/'Z' marker, 1 = owner PSP, 3 = paragraph count. -/
def marker (last : Bool) : BitVec 8 := if last then 0x5a else 0x4d

def Block.header (block : Block) (last : Bool) : List (BitVec 8) :=
  marker last :: (Memory.lowBytes 2 block.owner ++ Memory.lowBytes 2 (BitVec.ofNat 16 block.paragraphs))

/-- `read_chain` from an MCB on. -/
def readFrom (m : Memory) (mcb : Nat) : Option (Except DosError (List Block)) := do
  let header ← readHeader m (mcb * PARAGRAPH_BYTES)
  let owner := Memory.ofBytes 16 ((header.drop 1).take 2)
  let paragraphs := (Memory.ofBytes 16 ((header.drop 3).take 2)).toNat
  let next := mcb + 1 + paragraphs
  let first := header.getD 0 0
  let last : Bool := first = marker true
  if _h : ¬ (first = marker false ∨ first = marker true) ∨ END_SEGMENT < next ∨ last ≠ decide (next = END_SEGMENT) then
    pure (.error .memoryCorrupted)
  else if last then
    pure (.ok [⟨mcb, owner, paragraphs⟩])
  else
    match ← readFrom m (next % 0x10000) with
    | .error e => pure (.error e)
    | .ok blocks => pure (.ok (⟨mcb, owner, paragraphs⟩ :: blocks))
termination_by END_SEGMENT - mcb
decreasing_by
  have hmod : next % 0x10000 = next := Nat.mod_eq_of_lt (by have hend : END_SEGMENT = 0xa000 := rfl; omega)
  omega

def readChain (m : Memory) : Option (Except DosError (List Block)) := readFrom m FIRST_MCB

/-- Every header, the last one with the last marker. -/
def writeChain (m : Memory) : List Block → Option Memory
  | [] => some m
  | block :: rest => do
      let m ← writeHeader m (block.mcb * PARAGRAPH_BYTES) (block.header rest.isEmpty)
      writeChain m rest

/-! ## Blocks -/

/-- The index of the first block that a test accepts. -/
def position (test : Block → Option Bool) : List Block → Option (Option Nat)
  | [] => some none
  | block :: rest => do
      if ← test block then
        pure (some 0)
      else
        let index ← position test rest
        pure (index.map (· + 1))

/-- A block grown over the block after it. -/
def absorb (block next : Block) : Option Block := do
  let size ← add16 1 next.paragraphs
  let paragraphs ← add16 block.paragraphs size
  pure { block with paragraphs }

/-- `coalesce` from a block on. -/
def coalesceFrom (block : Block) : List Block → Option (List Block)
  | [] => some [block]
  | next :: rest =>
      if block.owner = 0 ∧ next.owner = 0 then do
        let block ← absorb block next
        coalesceFrom block rest
      else do
        let blocks ← coalesceFrom next rest
        pure (block :: blocks)

def coalesce : List Block → Option (List Block)
  | [] => some []
  | block :: rest => coalesceFrom block rest

/-- Cuts a block after its first paragraphs. -/
def split (blocks : List Block) (index paragraphs : Nat) : Option (List Block) := do
  let block ← blocks[index]?
  if paragraphs < block.paragraphs then
    let data ← add16 block.mcb 1
    let mcb ← add16 data paragraphs
    let rest ← sub16 block.paragraphs paragraphs
    let rest ← sub16 rest 1
    pure ((blocks.set index { block with paragraphs }).insertIdx (index + 1) ⟨mcb, 0, rest⟩)
  else
    pure blocks

def allocatedBlock (blocks : List Block) (segment : BitVec 16) : Option (Except DosError Nat) := do
  let index ← position (fun block => do
    let data ← add16 block.mcb 1
    pure (data = segment.toNat ∧ block.owner ≠ 0)) blocks
  match index with
  | none => pure (.error .invalidMemoryBlock)
  | some index => pure (.ok index)

/-- The size of the largest free block. -/
def largestFree (blocks : List Block) : Nat :=
  (((blocks.filter fun block => block.owner = 0).map Block.paragraphs).max?).getD 0

/-! ## Calls -/

def reset (m : Memory) : Option Memory := writeChain m [⟨FIRST_MCB, 0, AVAILABLE_PARAGRAPHS⟩]

/-- Gives the first free block that is large enough. -/
def allocate (m : Memory) (paragraphs owner : BitVec 16) : Option (Except DosError Nat × Memory) := do
  match ← readChain m with
  | .error e => pure (.error e, m)
  | .ok blocks =>
      let blocks ← coalesce blocks
      match ← position (fun block => pure (block.owner = 0 ∧ paragraphs.toNat ≤ block.paragraphs)) blocks with
      | none => pure (.error (.insufficientMemory (largestFree blocks)), m)
      | some index =>
          let blocks ← split blocks index paragraphs.toNat
          let block ← blocks[index]?
          let segment ← add16 block.mcb 1
          let m ← writeChain m (blocks.set index { block with owner })
          pure (.ok segment, m)

/-- Releases a block, and joins it to free ones. -/
def free (m : Memory) (segment : BitVec 16) : Option (Except DosError Unit × Memory) := do
  match ← readChain m with
  | .error e => pure (.error e, m)
  | .ok blocks =>
      match ← allocatedBlock blocks segment with
      | .error e => pure (.error e, m)
      | .ok index =>
          let block ← blocks[index]?
          let blocks ← coalesce (blocks.set index { block with owner := 0 })
          let m ← writeChain m blocks
          pure (.ok (), m)

/-- `resize` takes in a free block after the block when the request needs it. -/
def grow (blocks : List Block) (index paragraphs : Nat) : Option (List Block) := do
  let block ← blocks[index]?
  match blocks[index + 1]? with
  | some next =>
      if block.paragraphs < paragraphs ∧ next.owner = 0 then
        let block ← absorb block next
        pure ((blocks.eraseIdx (index + 1)).set index block)
      else
        pure blocks
  | none => pure blocks

/-- DOS grows the block as far as possible even when the request fails. -/
def resize (m : Memory) (segment paragraphs : BitVec 16) : Option (Except DosError Unit × Memory) := do
  match ← readChain m with
  | .error e => pure (.error e, m)
  | .ok blocks =>
      let blocks ← coalesce blocks
      match ← allocatedBlock blocks segment with
      | .error e => pure (.error e, m)
      | .ok index =>
          let blocks ← grow blocks index paragraphs.toNat
          let block ← blocks[index]?
          if block.paragraphs < paragraphs.toNat then
            let blocks ← coalesce blocks
            let m ← writeChain m blocks
            pure (.error (.insufficientMemory block.paragraphs), m)
          else
            let blocks ← split blocks index paragraphs.toNat
            let blocks ← coalesce blocks
            let m ← writeChain m blocks
            pure (.ok (), m)

/-- A call, with the values of its registers. -/
inductive Call where
  | allocate (paragraphs owner : BitVec 16)
  | free (segment : BitVec 16)
  | resize (segment paragraphs : BitVec 16)
  deriving DecidableEq, Repr

/-- A call's result, with the segment of an allocation, and the memory after it. -/
def Call.perform (m : Memory) : Call → Option (Except DosError (Option Nat) × Memory)
  | .allocate paragraphs owner => do
      let (result, m) ← Dos.allocate m paragraphs owner
      pure (result.map some, m)
  | .free segment => do
      let (result, m) ← Dos.free m segment
      pure (result.map fun _ => none, m)
  | .resize segment paragraphs => do
      let (result, m) ← Dos.resize m segment paragraphs
      pure (result.map fun _ => none, m)

/-- The memory after a list of calls. -/
def run (m : Memory) : List Call → Option Memory
  | [] => some m
  | call :: calls => do
      let (_, m) ← call.perform m
      run m calls

end Relocade.Dos
