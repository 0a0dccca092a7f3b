import Relocade.Dos.Startup

/-!
# `Dos.Mz` — MZ headers, relocation and entry state

A file is checked in full before its process replaces the current one. The module goes above the program segment
prefix, or to the end of the block when the header limits the block to neither size.
-/

namespace Relocade.Dos.Mz

open Segmentation (Segment SegmentRegister)
open Option (bind_eq_bind bind_some)

def HEADER_BYTES : Nat := 28

def FILE_PAGE_BYTES : Nat := 512

/-! ## Words -/

def word (bytes : List (BitVec 8)) (offset : Nat) : Option (BitVec 16) := do
  let low ← bytes[offset]?
  let high ← bytes[offset + 1]?
  pure (Memory.ofBytes 16 [low, high])

def slice (bytes : List (BitVec 8)) (start stop : Nat) : Option (List (BitVec 8)) :=
  if start ≤ stop ∧ stop ≤ bytes.length then some ((bytes.drop start).take (stop - start)) else none

/-- Whole chunks of four bytes. -/
def asChunks : List (BitVec 8) → List (List (BitVec 8))
  | a :: b :: c :: d :: rest => [a, b, c, d] :: asChunks rest
  | _ => []

def relocationOffset (entry : List (BitVec 8)) : Option Nat := do
  let segment ← word entry 2
  let offset ← word entry 0
  pure (segment.toNat * PARAGRAPH_BYTES + offset.toNat)

/-! ## Images -/

/-- The header's values, the module and its relocations. -/
structure Image where
  module : List (BitVec 8)
  relocations : List (BitVec 8)
  minExtra : BitVec 16
  maxExtra : BitVec 16
  ss : BitVec 16
  sp : BitVec 16
  cs : BitVec 16
  ip : BitVec 16

/-- The relocation table of a file. -/
def relocationTable (file : List (BitVec 8)) (relocationCount headerBytes : Nat) :
    Option (Except LoadError (List (BitVec 8))) := do
  if relocationCount = 0 then
    pure (.ok [])
  else
    let start := (← word file 0x18).toNat
    let stop := start + relocationCount * 4
    if start < HEADER_BYTES ∨ headerBytes < stop then
      pure (.error .invalidRelocation)
    else
      let table ← slice file start stop
      pure (.ok table)

/-- Every relocated word lies in the module. -/
def relocationsFit (length : Nat) : List (List (BitVec 8)) → Option Bool
  | [] => some true
  | relocation :: rest => do
      let offset ← relocationOffset relocation
      if length < offset + 2 then pure false else relocationsFit length rest

/-- Checks the header, and cuts the module and its relocations out. -/
def Image.parse (file : List (BitVec 8)) : Option (Except LoadError Image) := do
  if file.length < HEADER_BYTES ∨ ¬ (file.take 2 = [0x4d, 0x5a] ∨ file.take 2 = [0x5a, 0x4d]) then
    pure (.error .invalidMzHeader)
  else
    let lastPageBytes := (← word file 0x02).toNat
    let pages := (← word file 0x04).toNat
    let relocationCount := (← word file 0x06).toNat
    let headerBytes := (← word file 0x08).toNat * PARAGRAPH_BYTES
    if pages = 0 ∨ FILE_PAGE_BYTES ≤ lastPageBytes then
      pure (.error .invalidMzHeader)
    else
      let whole ← sub16 pages 1
      let fileBytes := whole * FILE_PAGE_BYTES + if lastPageBytes = 0 then FILE_PAGE_BYTES else lastPageBytes
      if headerBytes < HEADER_BYTES ∨ fileBytes ≤ headerBytes ∨ file.length < fileBytes then
        pure (.error .invalidMzHeader)
      else if (← word file 0x1a) ≠ 0 then
        pure (.error .unsupportedOverlay)
      else
        let module ← slice file headerBytes fileBytes
        match ← relocationTable file relocationCount headerBytes with
        | .error e => pure (.error e)
        | .ok relocations =>
            if ← relocationsFit module.length (asChunks relocations) then
              pure (.ok {
                module, relocations
                minExtra := ← word file 0x0a
                maxExtra := ← word file 0x0c
                ss := ← word file 0x0e
                sp := ← word file 0x10
                ip := ← word file 0x14
                cs := ← word file 0x16 })
            else
              pure (.error .invalidRelocation)

/-! ## Loading -/

/-- Both limits of a header are zero. -/
def Image.LoadHigh (image : Image) : Prop := image.minExtra = 0 ∧ image.maxExtra = 0

instance (image : Image) : Decidable image.LoadHigh := inferInstanceAs (Decidable (_ ∧ _))

/-- The paragraphs of a module with its program segment prefix. -/
def Image.baseParagraphs (image : Image) : Nat := PSP_PARAGRAPHS + paragraphsOf image.module.length

/-- The size that a header asks for. -/
def Image.maximum (image : Image) : Nat :=
  if image.LoadHigh then AVAILABLE_PARAGRAPHS else image.baseParagraphs + image.maxExtra.toNat

def Image.loadSegment (image : Image) (allocation : Allocation) : Option Nat := do
  if image.LoadHigh then
    let stop ← add16 allocation.segment allocation.paragraphs
    sub16 stop (paragraphsOf image.module.length % 0x10000)
  else
    add16 allocation.segment PSP_PARAGRAPHS

/-- Adds the load segment to the words that a relocation table lists. -/
def relocate (loadSegment : Nat) : List (List (BitVec 8)) → List (BitVec 8) → Option (List (BitVec 8))
  | [], module => some module
  | relocation :: rest, module => do
      let offset ← relocationOffset relocation
      let segment := (← word module offset) + BitVec.ofNat 16 loadSegment
      let module ← splice module offset (Memory.lowBytes 2 segment)
      relocate loadSegment rest module

structure Machine (R : Type) where
  memory : Memory
  cpu : CpuState R

/-- Restores a compatible CPU snapshot. The machine has the real-mode profile. -/
def Machine.restore {R : Type} (machine : Machine R) (snapshot : CpuState R) :
    Except ConfigurationError (Machine R) :=
  (validateCpu .real16 snapshot).map fun _ => { machine with cpu := snapshot }

/-- The entry state of an image. -/
def Image.entry {R : Type} [Inhabited R] (image : Image) (pspSegment loadSegment : Nat) : CpuState R :=
  let cpu := initialCpu (BitVec.ofNat 16 pspSegment)
  { cpu with
    segments := fun segment =>
      match segment with
      | .cs => SegmentRegister.realMode .cs (BitVec.ofNat 16 loadSegment + image.cs)
      | .ss => SegmentRegister.realMode .ss (BitVec.ofNat 16 loadSegment + image.ss)
      | other => cpu.segments other
    eip := image.ip.setWidth 32
    registers := { cpu.registers with esp := image.sp.setWidth 32 } }

/-- Replaces the current process by the program of a file. -/
def load {R : Type} [Inhabited R] (machine : Machine R) (file : List (BitVec 8)) (options : LoadOptions) :
    Option (Except LoadError Nat × Machine R) := do
  match ← Image.parse file with
  | .error e => pure (.error e, machine)
  | .ok image =>
      -- All file and allocation checks precede replacing the current process.
      match ← Process.allocate machine.memory (image.baseParagraphs + image.minExtra.toNat) image.maximum options with
      | (.error e, memory) => pure (.error e, { machine with memory })
      | (.ok allocation, memory) =>
          let loadSegment ← image.loadSegment allocation
          let module ← relocate loadSegment (asChunks image.relocations) image.module
          let memory ← store memory (loadSegment * PARAGRAPH_BYTES) module
          match Machine.restore { machine with memory } (image.entry allocation.segment loadSegment) with
          | .error _ => none
          | .ok machine => pure (.ok allocation.segment, machine)

/-! ## What a file says -/

/-- A word of a file. -/
def field (file : List (BitVec 8)) (offset : Nat) : BitVec 16 := (Memory.ofList file).load 16 offset 2

def headerBytes (file : List (BitVec 8)) : Nat := (field file 0x08).toNat * PARAGRAPH_BYTES

/-- Pages of 512 bytes, the last of which may be partial. -/
def fileBytes (file : List (BitVec 8)) : Nat :=
  ((field file 0x04).toNat - 1) * FILE_PAGE_BYTES +
    if (field file 0x02).toNat = 0 then FILE_PAGE_BYTES else (field file 0x02).toNat

/-- The offsets of the relocated words in the module, in table order. -/
def offsets (file : List (BitVec 8)) : List Nat :=
  (List.range (field file 0x06).toNat).map fun i =>
    (field file ((field file 0x18).toNat + 4 * i + 2)).toNat * PARAGRAPH_BYTES +
      (field file ((field file 0x18).toNat + 4 * i)).toNat

/-- An image is what its file says, and its file has room for what it says. -/
structure Image.Of (file : List (BitVec 8)) (image : Image) : Prop where
  extent : HEADER_BYTES ≤ headerBytes file ∧ headerBytes file < fileBytes file ∧ fileBytes file ≤ file.length
  module_eq : image.module = (Memory.ofList file).read (headerBytes file) (fileBytes file - headerBytes file)
  relocations_eq : (asChunks image.relocations).map relocationOffset = (offsets file).map some
  fits : ∀ offset ∈ offsets file, offset + 2 ≤ image.module.length
  minExtra_eq : image.minExtra = field file 0x0a
  maxExtra_eq : image.maxExtra = field file 0x0c
  ss_eq : image.ss = field file 0x0e
  sp_eq : image.sp = field file 0x10
  ip_eq : image.ip = field file 0x14
  cs_eq : image.cs = field file 0x16

theorem word_eq {bytes : List (BitVec 8)} {offset : Nat} (h : offset + 2 ≤ bytes.length) :
    word bytes offset = some (field bytes offset) := by
  have hlow : bytes[offset]? = some (Memory.ofList bytes offset) := by
    rw [Memory.ofList, List.getD_eq_getElem?_getD, List.getElem?_eq_getElem (by omega)]
    rfl
  have hhigh : bytes[offset + 1]? = some (Memory.ofList bytes (offset + 1)) := by
    rw [Memory.ofList, List.getD_eq_getElem?_getD, List.getElem?_eq_getElem (by omega)]
    rfl
  rw [word, hlow, hhigh]
  rfl

theorem slice_eq {bytes : List (BitVec 8)} {start stop : Nat} (h : start ≤ stop) (hstop : stop ≤ bytes.length) :
    slice bytes start stop = some ((Memory.ofList bytes).read start (stop - start)) := by
  rw [slice, if_pos ⟨h, hstop⟩]
  congr 1
  refine List.ext_getElem ?_ fun i hi hi' => ?_
  · rw [List.length_take, List.length_drop, Memory.length_read]
    omega
  · rw [Memory.length_read] at hi'
    simp [Memory.read, Memory.ofList, show start + i < bytes.length by omega]

theorem asChunks_read (m : Memory) (start count : Nat) :
    asChunks (m.read start (4 * count)) = (List.range count).map fun i => m.read (start + 4 * i) 4 := by
  induction count generalizing start with
  | zero => rfl
  | succ count ih =>
    rw [Nat.mul_succ, Nat.add_comm, Memory.read_add, List.range_succ_eq_map, List.map_cons, List.map_map]
    have hfst : asChunks (m.read start 4 ++ m.read (start + 4) (4 * count)) =
        m.read start 4 :: asChunks (m.read (start + 4) (4 * count)) := rfl
    rw [hfst, ih]
    congr 1
    refine List.map_congr_left fun i _ => ?_
    show m.read (start + 4 + 4 * i) 4 = m.read (start + 4 * (i + 1)) 4
    rw [show start + 4 + 4 * i = start + 4 * (i + 1) by omega]

theorem relocationOffset_read (m : Memory) (start : Nat) : relocationOffset (m.read start 4) =
    some ((m.load 16 (start + 2) 2).toNat * PARAGRAPH_BYTES + (m.load 16 start 2).toNat) := rfl

/-- A relocation table lies between the fixed fields and the end of the header. -/
def TableFits (file : List (BitVec 8)) : Prop :=
  (field file 0x06).toNat = 0 ∨ HEADER_BYTES ≤ (field file 0x18).toNat ∧
    (field file 0x18).toNat + (field file 0x06).toNat * 4 ≤ headerBytes file

/-- The chunks of a relocation table are its entries. -/
theorem relocationTable_spec {file : List (BitVec 8)} (hfile : HEADER_BYTES ≤ file.length)
    (hheader : headerBytes file ≤ file.length) :
    (∃ table, relocationTable file (field file 0x06).toNat (headerBytes file) = some (.ok table) ∧
      (asChunks table).map relocationOffset = (offsets file).map some ∧ TableFits file) ∨
    (∃ e, relocationTable file (field file 0x06).toNat (headerBytes file) = some (.error e)) ∧ ¬ TableFits file := by
  have hbytes : HEADER_BYTES = 28 := rfl
  rw [relocationTable]
  by_cases hcnt : (field file 0x06).toNat = 0
  · refine Or.inl ⟨[], if_pos hcnt, ?_, Or.inl hcnt⟩
    rw [offsets, hcnt]
    rfl
  · rw [if_neg hcnt, word_eq (by omega), bind_eq_bind, bind_some]
    dsimp only
    split
    · next hextent =>
        refine Or.inr ⟨⟨_, rfl⟩, fun h => ?_⟩
        rcases h with h | h <;> omega
    · next hextent =>
        rw [slice_eq (Nat.le_add_right _ _) (by omega), bind_eq_bind, bind_some, Nat.add_sub_cancel_left,
          Nat.mul_comm]
        refine Or.inl ⟨_, rfl, ?_, Or.inr (by omega)⟩
        rw [asChunks_read, offsets, List.map_map, List.map_map]
        exact List.map_congr_left fun i _ => relocationOffset_read _ _

theorem relocationsFit_spec (length : Nat) {relocations : List (List (BitVec 8))} {offsets : List Nat}
    (h : relocations.map relocationOffset = offsets.map some) :
    relocationsFit length relocations = some (decide (∀ offset ∈ offsets, offset + 2 ≤ length)) := by
  induction relocations generalizing offsets with
  | nil =>
    cases offsets with
    | nil => rfl
    | cons offset offsets => exact nomatch h
  | cons relocation rest ih =>
    cases offsets with
    | nil => exact nomatch h
    | cons offset offsets =>
      rw [List.map_cons, List.map_cons, List.cons.injEq] at h
      rw [relocationsFit, h.1, bind_eq_bind, bind_some]
      by_cases hfits : length < offset + 2
      · rw [if_pos hfits,
          decide_eq_false fun hall => absurd (hall offset List.mem_cons_self) (Nat.not_le.mpr hfits)]
        rfl
      · rw [if_neg hfits, ih h.2]
        congr 1
        rw [decide_eq_decide, List.forall_mem_cons]
        exact ⟨fun hall => ⟨Nat.not_lt.mp hfits, hall⟩, fun hall => hall.2⟩

/-- A file to load: it is large enough for its header, its module and its relocations, and it is no overlay. -/
structure Accepted (file : List (BitVec 8)) : Prop where
  header : HEADER_BYTES ≤ file.length ∧ (file.take 2 = [0x4d, 0x5a] ∨ file.take 2 = [0x5a, 0x4d])
  pages : (field file 0x04).toNat ≠ 0 ∧ (field file 0x02).toNat < FILE_PAGE_BYTES
  extent : HEADER_BYTES ≤ headerBytes file ∧ headerBytes file < fileBytes file ∧ fileBytes file ≤ file.length
  overlay : field file 0x1a = 0
  table : TableFits file
  fits : ∀ offset ∈ offsets file, offset + 2 ≤ fileBytes file - headerBytes file

/-- A file is parsed without a panic: to an image of what it says, or to an error where it is not one to load. -/
theorem parse_spec (file : List (BitVec 8)) :
    (∃ image, Image.parse file = some (.ok image) ∧ Image.Of file image ∧ Accepted file) ∨
      (∃ e, Image.parse file = some (.error e)) ∧ ¬ Accepted file := by
  have hbytes : HEADER_BYTES = 28 := rfl
  rw [Image.parse]
  split
  next hbad => exact Or.inr ⟨⟨_, rfl⟩, fun h => hbad.elim (Nat.not_lt.mpr h.header.1) (· h.header.2)⟩
  next hheader =>
    rw [not_or, Nat.not_lt, not_not] at hheader
    have hfile : 28 ≤ file.length := hheader.1
    simp only [bind_eq_bind, word_eq (show 0x02 + 2 ≤ file.length by omega),
      word_eq (show 0x04 + 2 ≤ file.length by omega), word_eq (show 0x06 + 2 ≤ file.length by omega),
      word_eq (show 0x08 + 2 ≤ file.length by omega), word_eq (show 0x0a + 2 ≤ file.length by omega),
      word_eq (show 0x0c + 2 ≤ file.length by omega), word_eq (show 0x0e + 2 ≤ file.length by omega),
      word_eq (show 0x10 + 2 ≤ file.length by omega), word_eq (show 0x14 + 2 ≤ file.length by omega),
      word_eq (show 0x16 + 2 ≤ file.length by omega), word_eq (show 0x1a + 2 ≤ file.length by omega), bind_some]
    split
    next hbad => exact Or.inr ⟨⟨_, rfl⟩, fun h => hbad.elim h.pages.1 (Nat.not_le.mpr h.pages.2)⟩
    next hpages =>
      rw [not_or, Nat.not_le] at hpages
      have hheaderBytes : (field file 0x08).toNat * PARAGRAPH_BYTES = headerBytes file := rfl
      have hfileBytes : ((field file 0x04).toNat - 1) * FILE_PAGE_BYTES +
          (if (field file 0x02).toNat = 0 then FILE_PAGE_BYTES else (field file 0x02).toNat) = fileBytes file := rfl
      rw [sub16_eq (by omega), bind_some, hheaderBytes, hfileBytes]
      split
      next hbad =>
        refine Or.inr ⟨⟨_, rfl⟩, fun h => ?_⟩
        have hextent := h.extent
        omega
      next hextent =>
        rw [not_or, not_or, Nat.not_lt, Nat.not_le, Nat.not_lt] at hextent
        split
        next hoverlay => exact Or.inr ⟨⟨_, rfl⟩, fun h => hoverlay h.overlay⟩
        next hoverlay =>
          rw [slice_eq (Nat.le_of_lt hextent.2.1) hextent.2.2, bind_some]
          obtain ⟨relocations, htable, hchunks, hfitsTable⟩ | ⟨⟨e, htable⟩, hbad⟩ :=
            relocationTable_spec hheader.1 (hextent.2.1.le.trans hextent.2.2)
          · rw [htable, bind_some]
            dsimp only
            rw [relocationsFit_spec _ hchunks, bind_some, Memory.length_read]
            split
            next hfits =>
              have hfits := of_decide_eq_true hfits
              refine Or.inl ⟨_, rfl, ⟨hextent, rfl, hchunks, fun offset hoff => ?_, rfl, rfl, rfl, rfl, rfl, rfl⟩,
                ⟨hheader, hpages, hextent, not_not.mp hoverlay, hfitsTable, hfits⟩⟩
              rw [Memory.length_read]
              exact hfits offset hoff
            next hbad => exact Or.inr ⟨⟨_, rfl⟩, fun h => hbad (decide_eq_true h.fits)⟩
          · rw [htable]
            exact Or.inr ⟨⟨e, rfl⟩, fun h => hbad h.table⟩

theorem parse_accepts (file : List (BitVec 8)) : (∃ image, Image.parse file = some (.ok image)) ↔ Accepted file := by
  rcases parse_spec file with ⟨image, hparse, -, haccepted⟩ | ⟨⟨e, hparse⟩, hrefused⟩
  · exact iff_of_true ⟨image, hparse⟩ haccepted
  · refine iff_of_false ?_ hrefused
    rintro ⟨image, himage⟩
    cases hparse.symm.trans himage

/-! ## Relocation -/

/-- A word with the load segment added to it. -/
def relocateWord (loadSegment : Nat) (m : Memory) (offset : Nat) : Memory :=
  m.write offset (Memory.lowBytes 2 (m.load 16 offset 2 + BitVec.ofNat 16 loadSegment))

/-- A module is relocated without a panic, word by word in table order. -/
theorem relocate_spec (loadSegment : Nat) {relocations : List (List (BitVec 8))} {offsets : List Nat}
    (h : relocations.map relocationOffset = offsets.map some) (module : List (BitVec 8))
    (hfits : ∀ offset ∈ offsets, offset + 2 ≤ module.length) :
    ∃ out, relocate loadSegment relocations module = some out ∧ out.length = module.length ∧
      Memory.ofList out = offsets.foldl (relocateWord loadSegment) (Memory.ofList module) := by
  induction relocations generalizing offsets module with
  | nil =>
    cases offsets with
    | nil => exact ⟨module, rfl, rfl, rfl⟩
    | cons offset offsets => exact nomatch h
  | cons relocation rest ih =>
    cases offsets with
    | nil => exact nomatch h
    | cons offset offsets =>
      rw [List.map_cons, List.map_cons, List.cons.injEq] at h
      have hoff := hfits offset List.mem_cons_self
      have hword := Memory.length_lowBytes 2 (field module offset + BitVec.ofNat 16 loadSegment)
      obtain ⟨middle, hsplice, hlen, hmiddle⟩ := splice_some
        (show offset + (Memory.lowBytes 2 (field module offset + BitVec.ofNat 16 loadSegment)).length ≤
          module.length by rw [hword]; exact hoff)
      obtain ⟨out, hrelocate, hout, heq⟩ := ih h.2 middle fun other hother => by
        rw [hlen]
        exact hfits other (List.mem_cons_of_mem _ hother)
      refine ⟨out, ?_, hout.trans hlen, ?_⟩
      · simp only [relocate, h.1, word_eq hoff, hsplice, hrelocate, bind_eq_bind, bind_some]
      · rw [heq, hmiddle]
        rfl

/-! ## Main results -/

/-- A program that is loaded from a file: what memory and the CPU hold. -/
structure Loaded {R : Type} [Inhabited R] (before after : Machine R) (file : List (BitVec 8)) (options : LoadOptions)
    (image : Image) (paragraphs loadSegment : Nat) (environment psp : List (BitVec 8)) (rest : List Block) : Prop where
  /-- The chain holds the program's block and the environment's, and the rest of the arena is free. -/
  represents : Represents after.memory (Process.blocks paragraphs environment rest)
  free : ∀ b ∈ rest, b.owner = 0
  /-- The block has what the header asks for, as far as there is. -/
  minimum : image.baseParagraphs + image.minExtra.toNat ≤ paragraphs
  size : paragraphs = min (max image.maximum (image.baseParagraphs + image.minExtra.toNat))
    (AVAILABLE_PARAGRAPHS - paragraphsOf environment.length - 1)
  /-- The module lies in the block above the prefix. -/
  above : FIRST_SEGMENT + PSP_PARAGRAPHS ≤ loadSegment
  inside : loadSegment + paragraphsOf image.module.length ≤ FIRST_SEGMENT + paragraphs
  low : ¬ image.LoadHigh → loadSegment = FIRST_SEGMENT + PSP_PARAGRAPHS
  high : image.LoadHigh → loadSegment + paragraphsOf image.module.length = FIRST_SEGMENT + paragraphs
  module_bytes : after.memory.read (loadSegment * PARAGRAPH_BYTES) image.module.length =
    ((offsets file).foldl (relocateWord loadSegment) (Memory.ofList image.module)).read 0 image.module.length
  apart : ∀ x, Within (loadSegment * PARAGRAPH_BYTES) image.module x →
    ¬ Within (FIRST_SEGMENT * PARAGRAPH_BYTES) psp x ∧
      ¬ Within ((FIRST_SEGMENT + paragraphs + 1) * PARAGRAPH_BYTES) environment x
  psp_eq : programSegment FIRST_SEGMENT (FIRST_SEGMENT + paragraphs) (FIRST_SEGMENT + paragraphs + 1)
    (before.memory.read VECTOR_TABLE 12) options.commandTail = some psp
  psp_bytes : after.memory.read (FIRST_SEGMENT * PARAGRAPH_BYTES) PSP_BYTES = psp
  environment_eq : environment = options.strings ++ [0, 1, 0] ++ options.programPath ++ [0]
  environment_bytes : after.memory.read ((FIRST_SEGMENT + paragraphs + 1) * PARAGRAPH_BYTES) environment.length =
    environment
  /-- The rest of memory is as it was. -/
  frame : ∀ x, (x < FIRST_MCB * PARAGRAPH_BYTES ∨ END_SEGMENT * PARAGRAPH_BYTES ≤ x ∨
      ∃ b ∈ Process.blocks paragraphs environment rest, b.Data x) →
    ¬ Within (loadSegment * PARAGRAPH_BYTES) image.module x → ¬ Within (FIRST_SEGMENT * PARAGRAPH_BYTES) psp x →
    ¬ Within ((FIRST_SEGMENT + paragraphs + 1) * PARAGRAPH_BYTES) environment x →
    after.memory x = before.memory x
  /-- The entry registers are those of the header. -/
  cs_eq : after.cpu.segments .cs = SegmentRegister.realMode .cs (BitVec.ofNat 16 loadSegment + field file 0x16)
  ip_eq : after.cpu.eip = (field file 0x14).setWidth 32
  ss_eq : after.cpu.segments .ss = SegmentRegister.realMode .ss (BitVec.ofNat 16 loadSegment + field file 0x0e)
  sp_eq : after.cpu.registers.esp = (field file 0x10).setWidth 32
  data_eq : after.cpu.segments .ds = SegmentRegister.realMode .ds (BitVec.ofNat 16 FIRST_SEGMENT) ∧
    after.cpu.segments .es = SegmentRegister.realMode .es (BitVec.ofNat 16 FIRST_SEGMENT)

/-- The segment of a module: it is in its block, above the prefix. -/
theorem loadSegment_spec (image : Image) (paras : Nat) (hbase : image.baseParagraphs ≤ paras)
    (hend : FIRST_SEGMENT + paras < END_SEGMENT) :
    ∃ loadSegment, image.loadSegment ⟨FIRST_SEGMENT, paras⟩ = some loadSegment ∧
      FIRST_SEGMENT + PSP_PARAGRAPHS ≤ loadSegment ∧
      loadSegment + paragraphsOf image.module.length ≤ FIRST_SEGMENT + paras ∧
      (¬ image.LoadHigh → loadSegment = FIRST_SEGMENT + PSP_PARAGRAPHS) ∧
      (image.LoadHigh → loadSegment + paragraphsOf image.module.length = FIRST_SEGMENT + paras) := by
  have hsixteen : PSP_PARAGRAPHS = 16 := rfl
  have hfst : FIRST_SEGMENT = 0x1000 := rfl
  have hlast : END_SEGMENT = 0xa000 := rfl
  rw [Image.baseParagraphs] at hbase
  rw [Image.loadSegment]
  dsimp only
  by_cases hhigh : image.LoadHigh
  · have hmod : paragraphsOf image.module.length % 0x10000 = paragraphsOf image.module.length :=
      Nat.mod_eq_of_lt (by omega)
    refine ⟨FIRST_SEGMENT + paras - paragraphsOf image.module.length, ?_, by omega, by omega,
      fun hlow => absurd hhigh hlow, fun _ => by omega⟩
    rw [if_pos hhigh, add16_eq (by omega), bind_eq_bind, bind_some, hmod, sub16_eq (by omega)]
  · refine ⟨FIRST_SEGMENT + PSP_PARAGRAPHS, ?_, Nat.le_refl _, by omega, fun _ => rfl, fun h => absurd h hhigh⟩
    rw [if_neg hhigh]
    exact add16_eq (by omega)

/-- Writing a module into a process that is laid out. -/
theorem module_write {m m' : Memory} {paras loadSegment : Nat} {env psp : List (BitVec 8)}
    {rest : List Block} (module : List (BitVec 8)) (h : Process.LaidOut m m' paras env psp rest)
    (hpsp : psp.length = PSP_BYTES)
    (habove : FIRST_SEGMENT + PSP_PARAGRAPHS ≤ loadSegment)
    (hinside : loadSegment + paragraphsOf module.length ≤ FIRST_SEGMENT + paras) :
    let after := m'.write (loadSegment * PARAGRAPH_BYTES) module
    Represents after (Process.blocks paras env rest) ∧
      (∀ x, Within (loadSegment * PARAGRAPH_BYTES) module x → ¬ Within (FIRST_SEGMENT * PARAGRAPH_BYTES) psp x ∧
        ¬ Within ((FIRST_SEGMENT + paras + 1) * PARAGRAPH_BYTES) env x) ∧
      after.read (FIRST_SEGMENT * PARAGRAPH_BYTES) PSP_BYTES = psp ∧
      after.read ((FIRST_SEGMENT + paras + 1) * PARAGRAPH_BYTES) env.length = env := by
  intro after
  have hlow : FIRST_SEGMENT * PARAGRAPH_BYTES + PSP_BYTES ≤ loadSegment * PARAGRAPH_BYTES := by
    have := Nat.mul_le_mul_right PARAGRAPH_BYTES habove
    rwa [Nat.add_mul] at this
  have hhigh : loadSegment * PARAGRAPH_BYTES + module.length ≤ (FIRST_SEGMENT + paras) * PARAGRAPH_BYTES := by
    have := Nat.mul_le_mul_right PARAGRAPH_BYTES hinside
    rw [Nat.add_mul] at this
    exact (Nat.add_le_add_left (le_paragraphsOf module.length) _).trans this
  have hnext : (FIRST_SEGMENT + paras) * PARAGRAPH_BYTES ≤ (FIRST_SEGMENT + paras + 1) * PARAGRAPH_BYTES :=
    Nat.mul_le_mul_right _ (Nat.le_succ _)
  have hst : FIRST_SEGMENT * PARAGRAPH_BYTES ≤ loadSegment * PARAGRAPH_BYTES := (Nat.le_add_right _ _).trans hlow
  refine ⟨h.represents.write List.mem_cons_self hst hhigh, fun x hx => ⟨fun hin => ?_, fun hin => ?_⟩, ?_, ?_⟩
  · have := hin.2
    rw [hpsp] at this
    exact absurd (this.trans_le hlow) (Nat.not_lt.mpr hx.1)
  · exact absurd (hx.2.trans_le (hhigh.trans hnext)) (Nat.not_lt.mpr hin.1)
  · rw [← h.psp_bytes]
    refine Memory.read_congr.mpr fun x hlo hhi => Memory.write_outside fun hin => ?_
    exact absurd (hhi.trans_le hlow) (Nat.not_lt.mpr hin.1)
  · refine Eq.trans (Memory.read_congr.mpr fun x hlo hhi => Memory.write_outside fun hin => ?_) h.environment_bytes
    exact absurd (hin.2.trans_le (hhigh.trans hnext)) (Nat.not_lt.mpr hlo)

/-- The entry state of an image is valid in real mode. -/
theorem restore_entry {R : Type} [Inhabited R] (machine : Machine R) (image : Image) (pspSegment loadSegment : Nat) :
    machine.restore (image.entry pspSegment loadSegment) =
      .ok { machine with cpu := image.entry pspSegment loadSegment } := by
  have hvalid : validateCpu .real16 (image.entry pspSegment loadSegment : CpuState R) = .ok () :=
    validateCpu_initial (BitVec.ofNat 16 pspSegment)
      (fun seg => by cases seg <;> exact ⟨_, rfl⟩) (image.ip.setWidth 32) _
  rw [Machine.restore, hvalid]
  rfl

theorem within_congr {addr x : Nat} {xs ys : List (BitVec 8)} (h : xs.length = ys.length) :
    Within addr xs x ↔ Within addr ys x := by
  rw [Within, Within, h]

/-- Loading a program is exact or has no effect, whatever the file and the options: a refused program leaves the machine
as it was, and a loaded one is in memory as its file says. -/
theorem load_exact {R : Type} [Inhabited R] (machine : Machine R) (file : List (BitVec 8)) (options : LoadOptions) :
    (∃ e, load machine file options = some (.error e, machine)) ∨
      ∃ after image paragraphs loadSegment environment psp rest,
        load machine file options = some (.ok FIRST_SEGMENT, after) ∧ Image.Of file image ∧
          Loaded machine after file options image paragraphs loadSegment environment psp rest := by
  rw [load]
  rcases parse_spec file with ⟨image, hparse, himage, -⟩ | ⟨⟨e, hparse⟩, -⟩
  · rw [hparse, bind_eq_bind, bind_some]
    have hbase : PSP_PARAGRAPHS ≤ image.baseParagraphs + image.minExtra.toNat := by
      rw [Image.baseParagraphs]
      omega
    rcases Process.allocate_spec machine.memory hbase image.maximum options with
      ⟨e, hallocate⟩ | ⟨environment, paragraphs, psp, rest, m', hallocate, henvironment, hminimum, hsize, hpsp, hlaid⟩
    · refine Or.inl ⟨e, ?_⟩
      dsimp only
      rw [hallocate]
      rfl
    · have hbounds := hlaid.represents.bounds
      obtain ⟨loadSegment, hsegment, habove, hinside, hlow, hhigh⟩ :=
        loadSegment_spec image paragraphs (by omega) (by omega)
      have hlength : psp.length = PSP_BYTES := by rw [← hlaid.psp_bytes, Memory.length_read]
      obtain ⟨module, hrelocate, hmodule, hbytes⟩ :=
        relocate_spec loadSegment himage.relocations_eq image.module himage.fits
      obtain ⟨hrepresents, hapart, hpspBytes, henvironmentBytes⟩ :=
        module_write module hlaid hlength habove (by rw [hmodule]; exact hinside)
      have hfits : loadSegment * PARAGRAPH_BYTES + module.length ≤ CONVENTIONAL_MEMORY_SIZE := by
        have htop : (loadSegment + paragraphsOf module.length) * PARAGRAPH_BYTES ≤ END_SEGMENT * PARAGRAPH_BYTES :=
          Nat.mul_le_mul_right _ (by rw [hmodule]; omega)
        rw [Nat.add_mul] at htop
        exact (Nat.add_le_add_left (le_paragraphsOf module.length) _).trans htop
      refine Or.inr ⟨⟨m'.write (loadSegment * PARAGRAPH_BYTES) module, image.entry FIRST_SEGMENT loadSegment⟩, image,
        paragraphs, loadSegment, environment, psp, rest, ?_, himage, ?_⟩
      · simp only [hallocate, hsegment, hrelocate, store_eq _ hfits, restore_entry, bind_eq_bind,
          bind_some]
        rfl
      · exact {
          represents := hrepresents
          free := hlaid.free
          minimum := hminimum
          size := hsize
          above := habove
          inside := hinside
          low := hlow
          high := hhigh
          module_bytes := by
            rw [← hbytes, ← hmodule, Memory.read_ofList]
            exact Memory.read_write m' (loadSegment * PARAGRAPH_BYTES) module
          apart := fun x hx => hapart x ((within_congr hmodule).mpr hx)
          psp_eq := hpsp
          psp_bytes := hpspBytes
          environment_eq := henvironment
          environment_bytes := henvironmentBytes
          frame := fun x hx hmodule' hpsp' henvironment' => by
            rw [← hlaid.frame x hx hpsp' henvironment']
            exact Memory.write_outside fun hin => hmodule' ((within_congr hmodule).mp hin)
          cs_eq := by rw [← himage.cs_eq]; rfl
          ip_eq := by rw [← himage.ip_eq]; rfl
          ss_eq := by rw [← himage.ss_eq]; rfl
          sp_eq := by rw [← himage.sp_eq]; rfl
          data_eq := ⟨rfl, rfl⟩ }
  · rw [hparse]
    exact Or.inl ⟨e, rfl⟩

def bareMachine : Machine Unit := ⟨fun _ => 0, initialCpu 0⟩

/-- A word to relocate, after a header of two paragraphs. -/
def relocated : List (BitVec 8) :=
  [0x4d, 0x5a, 0x22, 0, 1, 0, 1, 0, 2, 0, 0, 0, 0xff, 0xff, 0, 0, 0, 1, 0, 0, 0, 0, 0, 0, 0x1c, 0, 0, 0, 0, 0, 0, 0,
    0x34, 0x12]

theorem load_exact_relocated : ∃ after image paragraphs loadSegment environment psp rest,
    load bareMachine relocated ⟨[], [], []⟩ = some (.ok FIRST_SEGMENT, after) ∧ Image.Of relocated image ∧
      Loaded bareMachine after relocated ⟨[], [], []⟩ image paragraphs loadSegment environment psp rest := by
  refine (load_exact bareMachine relocated ⟨[], [], []⟩).resolve_left ?_
  rintro ⟨e, he⟩
  have hload : ((load bareMachine relocated ⟨[], [], []⟩).map (·.1.toBool)) = some true := by decide +kernel
  rw [he] at hload
  cases hload

end Relocade.Dos.Mz
