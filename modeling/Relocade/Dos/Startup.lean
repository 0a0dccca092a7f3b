import Relocade.Dos.Arena
import Relocade.Segment.Profile

/-!
# `Dos.Startup` — initialization shared by the program loaders

A process has a block for its program segment prefix and program, and one for its environment. Inputs and memory
requirements are validated before either is allocated. Conventional memory is RAM; `none` is a panic.
-/

namespace Relocade.Dos

open Segmentation (Segment SegmentRegister Segments ExecutionProfile)
open BitVec (ofNat toNat_ofNat)
open Option (bind_eq_bind bind_some)

/-! ## Inputs -/

inductive LoadError where
  | commandTailTooLong
  | invalidEnvironment
  | environmentTooLarge
  | invalidMzHeader
  | invalidRelocation
  | insufficientMemory
  | unsupportedOverlay
  deriving DecidableEq, Repr

def COMMAND_TAIL_OFFSET : Nat := 0x80

def PSP_BYTES : Nat := 0x100

def PSP_PARAGRAPHS : Nat := 0x10

/-- DOS scans the environment block with 16-bit offsets. -/
def SEGMENT_BYTES : Nat := 0x10000

/-- Byte strings in the guest's encoding. -/
structure LoadOptions where
  commandTail : List (BitVec 8)
  environment : List (List (BitVec 8))
  programPath : List (BitVec 8)

/-- Bytes rounded up to paragraphs. -/
def paragraphsOf (bytes : Nat) : Nat := (bytes + 15) / PARAGRAPH_BYTES

/-- A name stands before the equals sign of an entry. -/
def hasName (entry : List (BitVec 8)) : Bool :=
  match entry.findIdx? (· = 0x3d) with
  | some index => 0 < index
  | none => false

namespace LoadOptions

def validateCommandTail (options : LoadOptions) : Except LoadError Unit :=
  if PSP_BYTES - COMMAND_TAIL_OFFSET - 2 < options.commandTail.length then .error .commandTailTooLong else .ok ()

/-- The entries after some bytes, each with its terminator. -/
def entriesFrom : List (List (BitVec 8)) → List (BitVec 8) → Option (Except LoadError (List (BitVec 8)))
  | [], bytes => some (.ok bytes)
  | entry :: rest, bytes =>
      if entry.contains 0 ∨ ¬ hasName entry then
        some (.error .invalidEnvironment)
      else do
        let left ← sub16 SEGMENT_BYTES bytes.length
        if left ≤ entry.length then
          pure (.error .environmentTooLarge)
        else
          entriesFrom rest (bytes ++ entry ++ [0])

/-- The variables, each ended by a zero, and the path of the program. -/
def environmentBlock (options : LoadOptions) : Option (Except LoadError (List (BitVec 8))) := do
  if options.programPath.contains 0 then
    pure (.error .invalidEnvironment)
  else
    match ← entriesFrom options.environment [] with
    | .error e => pure (.error e)
    | .ok bytes =>
        -- Even an empty environment begins with two zero bytes.
        let bytes := if bytes.isEmpty then [0] else bytes
        if SEGMENT_BYTES < bytes.length + 4 then
          pure (.error .environmentTooLarge)
        else
          let left ← sub16 SEGMENT_BYTES bytes.length
          let left ← sub16 left 4
          if left < options.programPath.length then
            pure (.error .environmentTooLarge)
          else
            pure (.ok (bytes ++ [0, 1, 0] ++ options.programPath ++ [0]))

/-- The strings of an environment block. -/
def strings (options : LoadOptions) : List (BitVec 8) :=
  if options.environment.isEmpty then [0] else options.environment.flatMap (· ++ [0])

theorem entriesFrom_spec (entries : List (List (BitVec 8))) (bytes : List (BitVec 8))
    (hbytes : bytes.length ≤ SEGMENT_BYTES) :
    ∃ result, entriesFrom entries bytes = some result ∧
      ∀ out, result = .ok out → out = bytes ++ entries.flatMap (· ++ [0]) ∧ out.length ≤ SEGMENT_BYTES := by
  induction entries generalizing bytes with
  | nil =>
    refine ⟨_, rfl, fun out hout => ?_⟩
    cases hout
    exact ⟨by rw [List.flatMap_nil, List.append_nil], hbytes⟩
  | cons entry rest ih =>
    rw [entriesFrom, sub16_eq hbytes, bind_eq_bind, bind_some]
    split
    · exact ⟨_, rfl, nofun⟩
    · split
      · exact ⟨_, rfl, nofun⟩
      · next hleft =>
          have hlen : (bytes ++ entry ++ [0]).length ≤ SEGMENT_BYTES := by
            rw [List.length_append, List.length_append, List.length_singleton]
            omega
          obtain ⟨result, hres, hspec⟩ := ih _ hlen
          refine ⟨result, hres, fun out hout => ?_⟩
          obtain ⟨heq, hout⟩ := hspec out hout
          refine ⟨?_, hout⟩
          rw [heq, List.flatMap_cons, List.append_assoc, List.append_assoc, List.append_assoc]

/-- An environment block is made without a panic, and fits in a segment. -/
theorem environmentBlock_spec (options : LoadOptions) : ∃ result, options.environmentBlock = some result ∧
    ∀ block, result = .ok block → block = options.strings ++ [0, 1, 0] ++ options.programPath ++ [0] ∧
      block.length ≤ SEGMENT_BYTES := by
  rw [environmentBlock]
  split
  · exact ⟨_, rfl, nofun⟩
  · obtain ⟨entries, hentries, hspec⟩ := entriesFrom_spec options.environment [] (Nat.zero_le SEGMENT_BYTES)
    rw [hentries, bind_eq_bind, bind_some]
    cases entries with
    | error e => exact ⟨_, rfl, nofun⟩
    | ok bytes =>
      obtain ⟨heq, hlen⟩ := hspec bytes rfl
      have hstrings : (if bytes.isEmpty then [0] else bytes) = options.strings := by
        rw [strings, heq]
        cases options.environment with
        | nil => rfl
        | cons entry rest => simp
      dsimp only
      rw [hstrings]
      split
      · exact ⟨_, rfl, nofun⟩
      · next hfits =>
          rw [sub16_eq (by omega), bind_eq_bind, bind_some, sub16_eq (by omega), bind_some]
          split
          · exact ⟨_, rfl, nofun⟩
          · refine ⟨_, rfl, fun block hblk => ?_⟩
            cases hblk
            refine ⟨rfl, ?_⟩
            simp only [List.length_append, List.length_cons, List.length_nil]
            omega

end LoadOptions

/-! ## Memory -/

/-- Bytes put in place of others. -/
def splice (bytes : List (BitVec 8)) (offset : Nat) (part : List (BitVec 8)) : Option (List (BitVec 8)) :=
  if offset + part.length ≤ bytes.length then
    some (bytes.take offset ++ part ++ bytes.drop (offset + part.length))
  else none

theorem length_splice {bytes part out : List (BitVec 8)} {offset : Nat} (h : splice bytes offset part = some out) :
    out.length = bytes.length := by
  rw [splice] at h
  split at h
  · cases h
    simp only [List.length_append, List.length_take, List.length_drop]
    omega
  · exact nomatch h

theorem splice_some {bytes part : List (BitVec 8)} {offset : Nat} (h : offset + part.length ≤ bytes.length) :
    ∃ out, splice bytes offset part = some out ∧ out.length = bytes.length ∧
      Memory.ofList out = (Memory.ofList bytes).write offset part := by
  have hsome : splice bytes offset part = some (bytes.take offset ++ part ++ bytes.drop (offset + part.length)) :=
    if_pos h
  refine ⟨_, hsome, length_splice hsome, funext fun x => ?_⟩
  rw [Memory.ofList, Memory.write]
  simp only [List.getD_eq_getElem?_getD]
  by_cases hlo : x < offset
  · rw [if_neg (by omega), List.append_assoc, List.getElem?_append_left (by rw [List.length_take]; omega),
      List.getElem?_take_of_lt hlo]
    rfl
  · have htake : (bytes.take offset).length = offset := by
      rw [List.length_take]
      omega
    rw [List.append_assoc, List.getElem?_append_right (by omega), htake]
    by_cases hhi : x < offset + part.length
    · rw [if_pos ⟨by omega, hhi⟩, List.getElem?_append_left (by omega)]
    · rw [if_neg (by omega), List.getElem?_append_right (by omega), List.getElem?_drop,
        show offset + part.length + (x - offset - part.length) = x by omega]
      rfl

/-- Bytes of conventional memory. -/
def fetch (m : Memory) (address count : Nat) : Option (List (BitVec 8)) :=
  if address + count ≤ CONVENTIONAL_MEMORY_SIZE then some (m.read address count) else none

def store (m : Memory) (address : Nat) (bytes : List (BitVec 8)) : Option Memory :=
  if address + bytes.length ≤ CONVENTIONAL_MEMORY_SIZE then some (m.write address bytes) else none

theorem fetch_eq (m : Memory) {addr count : Nat} (h : addr + count ≤ CONVENTIONAL_MEMORY_SIZE) :
    fetch m addr count = some (m.read addr count) := if_pos h

theorem store_eq (m : Memory) {addr : Nat} {bytes : List (BitVec 8)}
    (h : addr + bytes.length ≤ CONVENTIONAL_MEMORY_SIZE) : store m addr bytes = some (m.write addr bytes) :=
  if_pos h

/-! ## Processes -/

/-- The far pointer of INT 22h (termination); those of 23h (Ctrl-Break) and 24h (critical error) follow. -/
def VECTOR_TABLE : Nat := 0x22 * 4

/-- The program segment prefix. `stop` is the first paragraph beyond the block. -/
def programSegment (segment stop environmentSegment : Nat) (vectors tail : List (BitVec 8)) :
    Option (List (BitVec 8)) := do
  let psp := List.replicate PSP_BYTES (0 : BitVec 8)
  -- INT 20h, the process termination instruction.
  let psp ← splice psp 0 [0xcd, 0x20]
  let psp ← splice psp 2 (Memory.lowBytes 2 (ofNat 16 stop))
  let psp ← splice psp 0x0a vectors
  -- The root process is its own parent.
  let psp ← splice psp 0x16 (Memory.lowBytes 2 (ofNat 16 segment))
  let psp ← splice psp 0x2c (Memory.lowBytes 2 (ofNat 16 environmentSegment))
  let psp ← splice psp COMMAND_TAIL_OFFSET [ofNat 8 tail.length]
  let psp ← splice psp (COMMAND_TAIL_OFFSET + 1) tail
  splice psp (COMMAND_TAIL_OFFSET + 1 + tail.length) [0x0d]

theorem programSegment_some (seg stop environmentSegment : Nat) {vectors tail : List (BitVec 8)}
    (hvectors : vectors.length = 12) (htail : tail.length ≤ 126) :
    ∃ psp, programSegment seg stop environmentSegment vectors tail = some psp ∧ psp.length = PSP_BYTES := by
  have hbytes : PSP_BYTES = 256 := rfl
  have hoff : COMMAND_TAIL_OFFSET = 128 := rfl
  have hz : (List.replicate PSP_BYTES (0 : BitVec 8)).length = 256 := List.length_replicate
  have hword : ∀ value : BitVec 16, (Memory.lowBytes 2 value).length = 2 := Memory.length_lowBytes 2
  obtain ⟨entry, hent, hlength₁, -⟩ := splice_some (show 0 + [(0xcd : BitVec 8), 0x20].length ≤ _ by
    rw [hz]; decide)
  obtain ⟨stopped, hstopped, hlength₂, -⟩ := splice_some
    (show 2 + (Memory.lowBytes 2 (ofNat 16 stop)).length ≤ entry.length by rw [hword]; omega)
  obtain ⟨saved, hsaved, hlength₃, -⟩ := splice_some (show 0x0a + vectors.length ≤ stopped.length by omega)
  obtain ⟨parented, hparented, hlength₄, -⟩ := splice_some
    (show 0x16 + (Memory.lowBytes 2 (ofNat 16 seg)).length ≤ saved.length by rw [hword]; omega)
  obtain ⟨housed, hhoused, hlength₅, -⟩ := splice_some
    (show 0x2c + (Memory.lowBytes 2 (ofNat 16 environmentSegment)).length ≤ parented.length by
      rw [hword]; omega)
  obtain ⟨counted, hcounted, hlength₆, -⟩ := splice_some
    (show COMMAND_TAIL_OFFSET + [ofNat 8 tail.length].length ≤ housed.length by
      rw [List.length_singleton]; omega)
  obtain ⟨tailed, htailed, hlength₇, -⟩ := splice_some
    (show COMMAND_TAIL_OFFSET + 1 + tail.length ≤ counted.length by omega)
  obtain ⟨psp, hpsp, hlength₈, -⟩ := splice_some
    (show COMMAND_TAIL_OFFSET + 1 + tail.length + [(0x0d : BitVec 8)].length ≤ tailed.length by
      rw [List.length_singleton]; omega)
  refine ⟨psp, ?_, by omega⟩
  simp only [programSegment, bind_eq_bind, hent, hstopped, hsaved, hparented, hhoused, hcounted, htailed,
    bind_some]
  exact hpsp

structure Allocation where
  segment : Nat
  paragraphs : Nat

/-- Validates startup inputs and memory requirements before initializing the process. -/
def Process.allocate (memory : Memory) (minimum maximum : Nat) (options : LoadOptions) :
    Option (Except LoadError Allocation × Memory) := do
  match options.validateCommandTail with
  | .error e => pure (.error e, memory)
  | .ok () =>
      match ← options.environmentBlock with
      | .error e => pure (.error e, memory)
      | .ok environment =>
          let environmentParagraphs := paragraphsOf environment.length % 0x10000
          -- Reserve the environment's data and its MCB in the same arena.
          let available ← sub16 AVAILABLE_PARAGRAPHS environmentParagraphs
          let available ← sub16 available 1
          if available < minimum then
            pure (.error .insufficientMemory, memory)
          else
            let paragraphs := min (max maximum minimum) available % 0x10000
            let memory ← reset memory
            match ← Dos.allocate memory (ofNat 16 paragraphs) (ofNat 16 FIRST_SEGMENT) with
            | (.error _, _) => none
            | (.ok segment, memory) =>
                match ← Dos.allocate memory (ofNat 16 environmentParagraphs) (ofNat 16 segment) with
                | (.error _, _) => none
                | (.ok environmentSegment, memory) =>
                    let memory ← store memory (environmentSegment * PARAGRAPH_BYTES) environment
                    let stop ← add16 segment paragraphs
                    let vectors ← fetch memory VECTOR_TABLE 12
                    let psp ← programSegment segment stop environmentSegment vectors options.commandTail
                    let memory ← store memory (segment * PARAGRAPH_BYTES) psp
                    pure (.ok ⟨segment, paragraphs⟩, memory)

/-! ## An arena with one free block -/

section LastFree

variable {m m' : Memory} {blocks pre : List Block} {free : Block}

/-- A chain whose blocks but the last are allocated is coalesced. -/
theorem coalesceFrom_last (block : Block) (rest : List Block) (h : ∀ b ∈ (block :: rest).dropLast, b.owner ≠ 0) :
    coalesceFrom block rest = some (block :: rest) := by
  induction rest generalizing block with
  | nil => rfl
  | cons next rest ih =>
    rw [List.dropLast_cons_cons] at h
    have hblk := h block List.mem_cons_self
    rw [coalesceFrom, if_neg (fun hfree => hblk hfree.1), ih next fun b hb => h b (List.mem_cons_of_mem _ hb)]
    rfl

theorem coalesce_last (hpre : ∀ b ∈ pre, b.owner ≠ 0) : coalesce (pre ++ [free]) = some (pre ++ [free]) := by
  cases pre with
  | nil => rfl
  | cons block rest =>
    refine coalesceFrom_last block (rest ++ [free]) fun b hb => ?_
    rw [← List.cons_append, List.dropLast_concat] at hb
    exact hpre b hb

/-- `allocate` takes the first paragraphs of the last block when the others are allocated. -/
theorem allocate_last (h : Represents m (pre ++ [free])) (hpre : ∀ b ∈ pre, b.owner ≠ 0) (hfree : free.owner = 0)
    (paragraphs owner : BitVec 16) (hle : paragraphs.toNat ≤ free.paragraphs) :
    ∃ m', allocate m paragraphs owner = some (.ok (free.mcb + 1), m') ∧
      Rewritten m m' (pre ++ ⟨free.mcb, owner, paragraphs.toNat⟩ :: remainder free paragraphs.toNat) := by
  have hmem := h.tiles.mem (List.mem_append_right pre (List.mem_singleton_self free))
  have hmcb := @Block.mcb_lt_next free
  have hpos : position (fun block => pure (block.owner = 0 ∧ paragraphs.toNat ≤ block.paragraphs))
      (pre ++ [free]) = some (some pre.length) := by
    rcases @position_spec (pre ++ [free]) (fun block => block.owner = 0 ∧ paragraphs.toNat ≤ block.paragraphs) _
      (fun block => pure (block.owner = 0 ∧ paragraphs.toNat ≤ block.paragraphs)) (fun _ _ => rfl)
      with ⟨-, hnone⟩ | ⟨before, b, after, hsplit, hpos, hz, -⟩
    · exact absurd ⟨hfree, hle⟩ (hnone free (List.mem_append_right pre (List.mem_singleton_self free)))
    · cases after with
      | nil =>
        obtain ⟨rfl, -⟩ := List.append_inj' hsplit rfl
        exact hpos
      | cons next after =>
        have hb : b ∈ pre := by
          have hdrop := congrArg List.dropLast hsplit
          rw [List.dropLast_concat, List.dropLast_append_cons, List.dropLast_cons_cons] at hdrop
          rw [hdrop]
          exact List.mem_append_right before List.mem_cons_self
        exact absurd hz (hpre b hb)
  have hsplit : split (pre ++ [free]) pre.length paragraphs.toNat =
      some (pre ++ { free with paragraphs := paragraphs.toNat } :: remainder free paragraphs.toNat) := by
    rw [split_spec hmem.2 hle, List.append_nil]
  have htiles := @tiles_split _ _ _ _ _ _ owner h.tiles hle
  rw [List.append_nil] at htiles
  obtain ⟨m', hwr, hrew⟩ := rewritten m htiles
  refine ⟨m', ?_, hrew⟩
  rw [allocate, readChain_iff.mpr h]
  simp only [bind_eq_bind, bind_some, coalesce_last hpre, hpos, hsplit, getElem?_length, set_length,
    add16_eq (show free.mcb + 1 ≤ END_SEGMENT by omega), hwr]
  rfl

/-- Headers depend on their bytes only. -/
theorem Headers.congr (h : Headers m blocks) (heq : ∀ b ∈ blocks, ∀ x, b.Header x → m' x = m x) :
    Headers m' blocks := by
  induction blocks with
  | nil => trivial
  | cons block rest ih =>
    refine ⟨?_, ih h.2 fun b hb => heq b (List.mem_cons_of_mem _ hb)⟩
    rw [← h.1]
    exact Memory.read_congr.mpr fun x hlo hhi => heq block List.mem_cons_self x ⟨hlo, hhi⟩

/-- A write to a block's data keeps the chain. -/
theorem Represents.write (h : Represents m blocks) {block : Block} (hblk : block ∈ blocks) {addr : Nat}
    {bytes : List (BitVec 8)} (hlo : (block.mcb + 1) * PARAGRAPH_BYTES ≤ addr)
    (hhi : addr + bytes.length ≤ block.next * PARAGRAPH_BYTES) : Represents (m.write addr bytes) blocks := by
  refine ⟨h.tiles, h.headers.congr fun b hb x hx => Memory.write_outside fun hin => ?_⟩
  exact h.tiles.not_header hblk hb ⟨by omega, by omega⟩ hx

end LastFree

/-! ## The blocks of a process -/

/-- The blocks of a process: its own, its environment's, and what is left. -/
def Process.blocks (paragraphs : Nat) (environment : List (BitVec 8)) (rest : List Block) : List Block :=
  ⟨FIRST_MCB, ofNat 16 FIRST_SEGMENT, paragraphs⟩ ::
    ⟨FIRST_SEGMENT + paragraphs, ofNat 16 FIRST_SEGMENT, paragraphsOf environment.length⟩ :: rest

/-- The bytes of a block of bytes in memory. -/
def Within (address : Nat) (bytes : List (BitVec 8)) (x : Nat) : Prop := address ≤ x ∧ x < address + bytes.length

/-- A process is laid out: memory holds its blocks, its prefix and its environment, and is otherwise as it was. -/
structure Process.LaidOut (before after : Memory) (paragraphs : Nat) (environment psp : List (BitVec 8))
    (rest : List Block) : Prop where
  represents : Represents after (Process.blocks paragraphs environment rest)
  free : ∀ b ∈ rest, b.owner = 0
  psp_bytes : after.read (FIRST_SEGMENT * PARAGRAPH_BYTES) PSP_BYTES = psp
  environment_bytes : after.read ((FIRST_SEGMENT + paragraphs + 1) * PARAGRAPH_BYTES) environment.length = environment
  frame : ∀ x, (x < FIRST_MCB * PARAGRAPH_BYTES ∨ END_SEGMENT * PARAGRAPH_BYTES ≤ x ∨
      ∃ b ∈ Process.blocks paragraphs environment rest, b.Data x) →
    ¬ Within (FIRST_SEGMENT * PARAGRAPH_BYTES) psp x →
    ¬ Within ((FIRST_SEGMENT + paragraphs + 1) * PARAGRAPH_BYTES) environment x → after x = before x

theorem le_paragraphsOf (bytes : Nat) : bytes ≤ paragraphsOf bytes * PARAGRAPH_BYTES := by
  unfold paragraphsOf PARAGRAPH_BYTES
  omega

theorem data_iff {b : Block} {x : Nat} :
    b.Data x ↔ (b.mcb + 1) * 16 ≤ x ∧ x < (b.mcb + 1 + b.paragraphs) * 16 := Iff.rfl

/-- The data of what is left of a block was the block's. -/
theorem data_remainder {block b : Block} {paras x : Nat} (h : b ∈ remainder block paras) (hx : b.Data x) :
    block.Data x := by
  unfold remainder at h
  split at h
  · next hlt =>
      rw [List.mem_singleton.mp h, data_iff] at hx
      have hnext : block.mcb + 1 + paras + 1 + (block.paragraphs - paras - 1) =
          block.mcb + 1 + block.paragraphs := by omega
      have hlo : (block.mcb + 1) * 16 ≤ (block.mcb + 1 + paras + 1) * 16 := Nat.mul_le_mul_right _ (by omega)
      exact data_iff.mpr ⟨hlo.trans hx.1, hnext ▸ hx.2⟩
  · exact absurd h List.not_mem_nil

theorem data_smaller (block : Block) {owner : BitVec 16} {paras x : Nat} (hle : paras ≤ block.paragraphs)
    (hx : Block.Data ⟨block.mcb, owner, paras⟩ x) : block.Data x := by
  rw [data_iff] at hx ⊢
  dsimp only at hx
  omega

section Layout

variable {m : Memory} {ps : Nat} {env : List (BitVec 8)}

/-- A reset arena gives a process its two blocks. -/
theorem reset_blocks (m : Memory) (env : List (BitVec 8))
    (hroom : ps + paragraphsOf env.length + 1 ≤ AVAILABLE_PARAGRAPHS) :
    ∃ m₀ m₁ m₂ rest, reset m = some m₀ ∧
      allocate m₀ (ofNat 16 ps) (ofNat 16 FIRST_SEGMENT) = some (.ok FIRST_SEGMENT, m₁) ∧
      allocate m₁ (ofNat 16 (paragraphsOf env.length)) (ofNat 16 FIRST_SEGMENT) =
        some (.ok (FIRST_SEGMENT + ps + 1), m₂) ∧
      Represents m₂ (Process.blocks ps env rest) ∧ (∀ b ∈ rest, b.owner = 0) ∧
      (∀ x, (x < FIRST_MCB * PARAGRAPH_BYTES ∨ END_SEGMENT * PARAGRAPH_BYTES ≤ x ∨
        ∃ b ∈ Process.blocks ps env rest, b.Data x) → m₂ x = m x) := by
  have hav : AVAILABLE_PARAGRAPHS = 0x9000 := rfl
  have hsize : (ofNat 16 ps).toNat = ps := by
    rw [toNat_ofNat]
    omega
  have hsize' : (ofNat 16 (paragraphsOf env.length)).toNat = paragraphsOf env.length := by
    rw [toNat_ofNat]
    omega
  have htiles : Tiles END_SEGMENT FIRST_MCB [⟨FIRST_MCB, 0, AVAILABLE_PARAGRAPHS⟩] := ⟨rfl, rfl⟩
  obtain ⟨m₀, hreset, hrewritten₀⟩ := rewritten m htiles
  have hall : ∀ b ∈ ([] : List Block), b.owner ≠ 0 := fun b hb => absurd hb List.not_mem_nil
  obtain ⟨m₁, hallocate₁, hrewritten₁⟩ := @allocate_last m₀ [] ⟨FIRST_MCB, 0, AVAILABLE_PARAGRAPHS⟩
    hrewritten₀.represents hall rfl (ofNat 16 ps) (ofNat 16 FIRST_SEGMENT)
    (by rw [hsize]; show ps ≤ AVAILABLE_PARAGRAPHS; omega)
  rw [hsize] at hrewritten₁
  have hfst : remainder ⟨FIRST_MCB, 0, AVAILABLE_PARAGRAPHS⟩ ps =
      [⟨FIRST_SEGMENT + ps, 0, AVAILABLE_PARAGRAPHS - ps - 1⟩] :=
    if_pos (show ps < AVAILABLE_PARAGRAPHS by omega)
  rw [hfst] at hrewritten₁
  have hall : ∀ b ∈ [(⟨FIRST_MCB, ofNat 16 FIRST_SEGMENT, ps⟩ : Block)], b.owner ≠ 0 := by
    intro b hb
    rw [List.mem_singleton.mp hb]
    exact (by decide : ofNat 16 FIRST_SEGMENT ≠ 0)
  obtain ⟨m₂, hallocate₂, hrewritten₂⟩ := @allocate_last m₁ [⟨FIRST_MCB, ofNat 16 FIRST_SEGMENT, ps⟩]
    ⟨FIRST_SEGMENT + ps, 0, AVAILABLE_PARAGRAPHS - ps - 1⟩ hrewritten₁.represents hall rfl
    (ofNat 16 (paragraphsOf env.length)) (ofNat 16 FIRST_SEGMENT)
    (by rw [hsize']; show paragraphsOf env.length ≤ AVAILABLE_PARAGRAPHS - ps - 1; omega)
  rw [hsize'] at hrewritten₂
  refine ⟨m₀, m₁, m₂, _, hreset, hallocate₁, hallocate₂, hrewritten₂.represents, fun b => remainder_free, ?_⟩
  rintro x (hx | hx | ⟨b, hb, hx⟩)
  · rw [hrewritten₂.outside x (Or.inl hx), hrewritten₁.outside x (Or.inl hx), hrewritten₀.outside x (Or.inl hx)]
  · rw [hrewritten₂.outside x (Or.inr hx), hrewritten₁.outside x (Or.inr hx), hrewritten₀.outside x (Or.inr hx)]
  · rw [hrewritten₂.data b hb x hx]
    -- The blocks of the process lie in the two blocks of the first allocation, and these in the free block.
    have hcut : ∃ c ∈ [(⟨FIRST_MCB, ofNat 16 FIRST_SEGMENT, ps⟩ : Block),
        ⟨FIRST_SEGMENT + ps, 0, AVAILABLE_PARAGRAPHS - ps - 1⟩], c.Data x := by
      rcases List.mem_cons.mp hb with rfl | hb
      · exact ⟨_, List.mem_cons_self, hx⟩
      · refine ⟨_, List.mem_cons_of_mem _ List.mem_cons_self, ?_⟩
        rcases List.mem_cons.mp hb with rfl | hb
        · exact data_smaller ⟨FIRST_SEGMENT + ps, 0, AVAILABLE_PARAGRAPHS - ps - 1⟩
            (show paragraphsOf env.length ≤ AVAILABLE_PARAGRAPHS - ps - 1 by omega) hx
        · exact data_remainder hb hx
    obtain ⟨c, hc, hcx⟩ := hcut
    rw [hrewritten₁.data c hc x hcx]
    refine hrewritten₀.data _ (List.mem_singleton_self _) x ?_
    rcases List.mem_cons.mp hc with rfl | hc
    · exact data_smaller ⟨FIRST_MCB, 0, AVAILABLE_PARAGRAPHS⟩
        (show ps ≤ AVAILABLE_PARAGRAPHS by omega) hcx
    · exact data_remainder (hfst ▸ hc) hcx

/-- A block of a process lies in the arena. -/
theorem Represents.bounds {rest : List Block} (h : Represents m (Process.blocks ps env rest)) :
    FIRST_SEGMENT + ps + 1 + paragraphsOf env.length ≤ END_SEGMENT :=
  (h.tiles.mem (List.mem_cons_of_mem _ List.mem_cons_self)).2

/-- What was written is read back after a write before it. -/
theorem read_write_apart (m : Memory) {a b : Nat} {xs ys : List (BitVec 8)} (h : a + xs.length ≤ b) :
    ((m.write b ys).write a xs).read b ys.length = ys := by
  have hkept : ((m.write b ys).write a xs).read b ys.length = (m.write b ys).read b ys.length :=
    Memory.read_congr.mpr fun x hlo hhi => Memory.write_outside (by omega)
  rw [hkept, Memory.read_write]

/-- Writing the environment and the prefix of a process leaves it laid out. -/
theorem laidOut_write {m₂ : Memory} {psp : List (BitVec 8)} {rest : List Block}
    (hparagraphs : PSP_PARAGRAPHS ≤ ps) (hpsp : psp.length = PSP_BYTES)
    (hrepresents : Represents m₂ (Process.blocks ps env rest))
    (hfree : ∀ b ∈ rest, b.owner = 0)
    (hframe : ∀ x, (x < FIRST_MCB * PARAGRAPH_BYTES ∨ END_SEGMENT * PARAGRAPH_BYTES ≤ x ∨
      ∃ b ∈ Process.blocks ps env rest, b.Data x) → m₂ x = m x) :
    Process.LaidOut m ((m₂.write ((FIRST_SEGMENT + ps + 1) * PARAGRAPH_BYTES) env).write
      (FIRST_SEGMENT * PARAGRAPH_BYTES) psp) ps env psp rest := by
  have hbytes := le_paragraphsOf env.length
  have hpage : PSP_BYTES = PSP_PARAGRAPHS * PARAGRAPH_BYTES := rfl
  have hhouse : (FIRST_SEGMENT + ps + 1) * PARAGRAPH_BYTES + env.length ≤
      (FIRST_SEGMENT + ps + 1 + paragraphsOf env.length) * PARAGRAPH_BYTES := by
    rw [Nat.add_mul (FIRST_SEGMENT + ps + 1)]
    exact Nat.add_le_add_left hbytes _
  have hfits : FIRST_SEGMENT * PARAGRAPH_BYTES + psp.length ≤ (FIRST_SEGMENT + ps) * PARAGRAPH_BYTES := by
    rw [Nat.add_mul, hpsp, hpage]
    exact Nat.add_le_add_left (Nat.mul_le_mul_right PARAGRAPH_BYTES hparagraphs) _
  have hapart : (FIRST_SEGMENT + ps) * PARAGRAPH_BYTES ≤ (FIRST_SEGMENT + ps + 1) * PARAGRAPH_BYTES :=
    Nat.mul_le_mul_right _ (Nat.le_succ _)
  have hhoused : Represents (m₂.write ((FIRST_SEGMENT + ps + 1) * PARAGRAPH_BYTES) env)
      (Process.blocks ps env rest) :=
    hrepresents.write (List.mem_cons_of_mem _ List.mem_cons_self) (Nat.le_refl _) hhouse
  refine ⟨hhoused.write List.mem_cons_self (Nat.le_refl _) hfits, hfree, ?_, ?_, fun x hx hpsp' henv => ?_⟩
  · have hread := Memory.read_write (m₂.write ((FIRST_SEGMENT + ps + 1) * PARAGRAPH_BYTES) env)
      (FIRST_SEGMENT * PARAGRAPH_BYTES) psp
    rwa [hpsp] at hread
  · exact read_write_apart m₂ (hfits.trans hapart)
  · rw [Memory.write_outside hpsp', Memory.write_outside henv, hframe x hx]

/-- A process is refused without a change, or it is laid out with as much memory as it asks for and there is. -/
theorem Process.allocate_spec (m : Memory) {minimum : Nat} (hminimum : PSP_PARAGRAPHS ≤ minimum) (maximum : Nat)
    (options : LoadOptions) :
    (∃ e, Process.allocate m minimum maximum options = some (.error e, m)) ∨
      ∃ env ps psp rest m', Process.allocate m minimum maximum options = some (.ok ⟨FIRST_SEGMENT, ps⟩, m') ∧
        env = options.strings ++ [0, 1, 0] ++ options.programPath ++ [0] ∧
        minimum ≤ ps ∧ ps = min (max maximum minimum) (AVAILABLE_PARAGRAPHS - paragraphsOf env.length - 1) ∧
        programSegment FIRST_SEGMENT (FIRST_SEGMENT + ps) (FIRST_SEGMENT + ps + 1)
          (m.read VECTOR_TABLE 12) options.commandTail = some psp ∧
        Process.LaidOut m m' ps env psp rest := by
  have hav : AVAILABLE_PARAGRAPHS = 0x9000 := rfl
  have hfst : FIRST_SEGMENT = 0x1000 := rfl
  have hend : END_SEGMENT = 0xa000 := rfl
  have hsixteen : PSP_PARAGRAPHS = 16 := rfl
  rw [Process.allocate, LoadOptions.validateCommandTail]
  by_cases htail : PSP_BYTES - COMMAND_TAIL_OFFSET - 2 < options.commandTail.length
  · rw [if_pos htail]
    exact Or.inl ⟨_, rfl⟩
  rw [if_neg htail]
  obtain ⟨result, hres, hspec⟩ := options.environmentBlock_spec
  dsimp only
  rw [hres, bind_eq_bind, bind_some]
  cases result with
  | error e => exact Or.inl ⟨e, rfl⟩
  | ok env =>
    obtain ⟨henv, hlen⟩ := hspec env rfl
    have hsmall : paragraphsOf env.length ≤ 0x1000 := by
      have hbytes : SEGMENT_BYTES = 0x10000 := rfl
      unfold paragraphsOf PARAGRAPH_BYTES
      omega
    have hmod : paragraphsOf env.length % 0x10000 = paragraphsOf env.length :=
      Nat.mod_eq_of_lt (by omega)
    dsimp only
    rw [hmod, sub16_eq (by omega), bind_eq_bind, bind_some, sub16_eq (by omega), bind_some]
    by_cases hroom : AVAILABLE_PARAGRAPHS - paragraphsOf env.length - 1 < minimum
    · rw [if_pos hroom]
      exact Or.inl ⟨_, rfl⟩
    rw [if_neg hroom]
    generalize hparagraphs : min (max maximum minimum) (AVAILABLE_PARAGRAPHS - paragraphsOf env.length - 1) = ps
    have hmod : ps % 0x10000 = ps := Nat.mod_eq_of_lt (by omega)
    obtain ⟨m₀, m₁, m₂, rest, hreset, hallocate₁, hallocate₂, hrepresents, hfree, hframe⟩ :=
      @reset_blocks ps m env (by omega)
    have hbounds := hrepresents.bounds
    have hvectors : (m.read VECTOR_TABLE 12).length = 12 := Memory.length_read 12
    obtain ⟨psp, hpsp, hpspLength⟩ := programSegment_some FIRST_SEGMENT (FIRST_SEGMENT + ps)
      (FIRST_SEGMENT + ps + 1) hvectors (Nat.not_lt.mp htail)
    refine Or.inr ⟨env, ps, psp, rest, _, ?_, henv, by omega, hparagraphs.symm, hpsp,
      laidOut_write (by omega) hpspLength hrepresents hfree hframe⟩
    have hbytes := le_paragraphsOf env.length
    have hhouse : (FIRST_SEGMENT + ps + 1) * PARAGRAPH_BYTES + env.length ≤ CONVENTIONAL_MEMORY_SIZE := by
      have htop := Nat.mul_le_mul_right PARAGRAPH_BYTES hbounds
      rw [Nat.add_mul (FIRST_SEGMENT + ps + 1)] at htop
      exact (Nat.add_le_add_left hbytes _).trans htop
    have hprefix : FIRST_SEGMENT * PARAGRAPH_BYTES + psp.length ≤ CONVENTIONAL_MEMORY_SIZE := by
      rw [hpspLength]
      decide
    have hread : (m₂.write ((FIRST_SEGMENT + ps + 1) * PARAGRAPH_BYTES) env).read VECTOR_TABLE 12 =
        m.read VECTOR_TABLE 12 := by
      refine Memory.read_congr.mpr fun x hlo hhi => ?_
      have hlow : x < FIRST_MCB * PARAGRAPH_BYTES := hhi.trans (by decide)
      have habove : FIRST_MCB * PARAGRAPH_BYTES ≤ (FIRST_SEGMENT + ps + 1) * PARAGRAPH_BYTES :=
        Nat.mul_le_mul_right _ (show FIRST_SEGMENT - 1 ≤ FIRST_SEGMENT + ps + 1 by omega)
      rw [Memory.write_outside (fun hin => absurd (hlow.trans_le habove) (Nat.not_lt.mpr hin.1)),
        hframe x (Or.inl hlow)]
    have hstop : add16 FIRST_SEGMENT ps = some (FIRST_SEGMENT + ps) := add16_eq (by omega)
    simp only [bind_eq_bind, bind_some, hmod, hreset, hallocate₁, hallocate₂, store_eq _ hhouse, hstop,
      fetch_eq _ (show VECTOR_TABLE + 12 ≤ CONVENTIONAL_MEMORY_SIZE by decide), hread, hpsp, store_eq _ hprefix]
    rfl

end Layout

/-! ## Entry state -/

structure Registers where
  eax : BitVec 32
  ecx : BitVec 32
  edx : BitVec 32
  ebx : BitVec 32
  esp : BitVec 32
  ebp : BitVec 32
  esi : BitVec 32
  edi : BitVec 32

structure DescriptorTableRegister where
  base : BitVec 32
  limit : BitVec 16

structure SystemSegmentRegister where
  base : BitVec 32
  limit : BitVec 32
  selector : BitVec 16
  usable : BitVec 8
  accessRights : BitVec 32

/-- CPU state. `rest` holds what no program entry sets: the other flags, counters, x87 and SIMD state. -/
structure CpuState (R : Type) where
  interruptFlag : BitVec 8
  registers : Registers
  eip : BitVec 32
  segments : Segments
  gdtr : DescriptorTableRegister
  idtr : DescriptorTableRegister
  ldtr : SystemSegmentRegister
  tr : SystemSegmentRegister
  rest : R

inductive ConfigurationError where
  | incompatibleCpu
  | invalidTableRegister

/-- Tests a segment cache against the fixed assumptions of a profile. -/
def isSegmentCompatible (profile : ExecutionProfile) (segment : Segment) (cache : SegmentRegister) : Bool :=
  match profile with
  | .protectedMode profile => (profile.assumptions segment).isMatch cache
  | .real16 => cache = SegmentRegister.realMode segment cache.selector

def validateIdtr (profile : ExecutionProfile) (idtr : DescriptorTableRegister) : Except ConfigurationError Unit :=
  if profile = .real16 ∧ (idtr.base ≠ 0 ∨ idtr.limit ≠ 0x3ff) then .error .invalidTableRegister else .ok ()

def validateSystemSegment (segment : SystemSegmentRegister) (ldt : Bool) : Except ConfigurationError Unit :=
  if segment.usable = 0 then .ok ()
  else
    let kind := (segment.accessRights >>> 8) &&& 15
    let validType : Bool := if ldt then kind = 2 else kind = 1 ∨ kind = 3 ∨ kind = 9 ∨ kind = 11
    if segment.selector &&& ~~~3 = 0 ∨ segment.selector &&& 4 ≠ 0 ∨ segment.accessRights &&& 0x9000 ≠ 0x8000 ∨
        ¬ validType then .error .invalidTableRegister
    else .ok ()

def validateCpu {R : Type} (profile : ExecutionProfile) (cpu : CpuState R) : Except ConfigurationError Unit :=
  if Segment.ALL.all fun segment => isSegmentCompatible profile segment (cpu.segments segment) then do
    validateIdtr profile cpu.idtr
    validateSystemSegment cpu.ldtr true
    validateSystemSegment cpu.tr false
  else .error .incompatibleCpu

/-- The entry state of a program, but for its code and stack. -/
def initialCpu {R : Type} [Inhabited R] (pspSegment : BitVec 16) : CpuState R where
  interruptFlag := 1
  registers := ⟨0, 0, 0, 0, 0, 0, 0, 0⟩
  eip := 0
  segments := fun segment =>
    match segment with
    | .cs | .ds | .es | .ss => SegmentRegister.realMode segment pspSegment
    | .fs | .gs => SegmentRegister.realMode segment 0
  gdtr := ⟨0, 0⟩
  idtr := ⟨0, 0x3ff⟩
  ldtr := ⟨0, 0, 0, 0, 0⟩
  tr := ⟨0, 0, 0, 0, 0⟩
  rest := default

/-- An entry state in real mode with canonical caches is valid. -/
theorem validateCpu_initial {R : Type} [Inhabited R] (pspSegment : BitVec 16) {segments : Segments}
    (h : ∀ seg, ∃ sel, segments seg = SegmentRegister.realMode seg sel) (eip : BitVec 32)
    (registers : Registers) :
    validateCpu .real16 { (initialCpu pspSegment : CpuState R) with segments, eip, registers } = .ok () := by
  have hall : (Segment.ALL.all fun seg => isSegmentCompatible .real16 seg (segments seg)) = true := by
    rw [List.all_eq_true]
    intro seg _
    obtain ⟨sel, hselector⟩ := h seg
    have hkept : (SegmentRegister.realMode seg sel).selector = sel := by
      cases seg <;> rfl
    rw [isSegmentCompatible, hselector, hkept]
    exact decide_eq_true rfl
  rw [validateCpu, if_pos hall]
  rfl

end Relocade.Dos
