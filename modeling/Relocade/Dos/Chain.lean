import Relocade.Dos.Memory

/-!
# `Dos.Chain` — the chain of blocks in memory

A list of blocks represents the arena when its blocks with their headers tile it and memory holds the headers. A
memory represents at most one list, `readChain` finds it (`readChain_iff`) and reports a corrupted memory exactly when
there is none; `writeChain` makes memory represent a tiling and changes nothing but its headers (`writeChain_spec`).
-/

namespace Relocade.Dos

variable {m : Memory} {blocks rest : List Block} {block : Block} {start mid finish : Nat}

/-! ## Tilings -/

/-- The paragraph after a block. -/
def Block.next (block : Block) : Nat := block.mcb + 1 + block.paragraphs

/-- Blocks with their headers that fill the paragraphs between two. -/
def Tiles (finish : Nat) : Nat → List Block → Prop
  | start, [] => start = finish
  | start, block :: rest => block.mcb = start ∧ Tiles finish block.next rest

theorem Block.mcb_lt_next : block.mcb < block.next := by
  unfold Block.next
  omega

theorem Tiles.le (h : Tiles finish start blocks) : start ≤ finish := by
  induction blocks generalizing start with
  | nil => exact Nat.le_of_eq h
  | cons block rest ih =>
    have hlt := @Block.mcb_lt_next block
    have hrest := ih h.2
    have hmcb := h.1
    omega

theorem Tiles.mem (h : Tiles finish start blocks) (hblk : block ∈ blocks) :
    start ≤ block.mcb ∧ block.next ≤ finish := by
  induction blocks generalizing start with
  | nil => exact absurd hblk List.not_mem_nil
  | cons first rest ih =>
    rcases List.mem_cons.mp hblk with rfl | hmem
    · exact ⟨Nat.le_of_eq h.1.symm, h.2.le⟩
    · have hlt := @Block.mcb_lt_next first
      have hrest := ih h.2 hmem
      have hmcb := h.1
      omega

theorem Tiles.ne_nil (h : Tiles finish start blocks) (hlt : start < finish) : blocks ≠ [] := by
  rintro rfl
  exact Nat.lt_irrefl _ (h ▸ hlt)

theorem tiles_append {xs ys : List Block} :
    Tiles finish start (xs ++ ys) ↔ ∃ mid, Tiles mid start xs ∧ Tiles finish mid ys := by
  induction xs generalizing start with
  | nil => exact ⟨fun h => ⟨start, rfl, h⟩, fun ⟨_, hmid, h⟩ => hmid ▸ h⟩
  | cons x xs ih =>
    constructor
    · rintro ⟨hmcb, h⟩
      obtain ⟨mid, hxs, hys⟩ := ih.mp h
      exact ⟨mid, ⟨hmcb, hxs⟩, hys⟩
    · rintro ⟨mid, ⟨hmcb, hxs⟩, hys⟩
      exact ⟨hmcb, ih.mpr ⟨mid, hxs, hys⟩⟩

/-- The blocks of a tiling are apart. -/
theorem Tiles.pairwise (h : Tiles finish start blocks) : blocks.Pairwise fun a b => a.next ≤ b.mcb := by
  induction blocks generalizing start with
  | nil => exact List.Pairwise.nil
  | cons first rest ih => exact List.pairwise_cons.mpr ⟨fun b hb => (h.2.mem hb).1, ih h.2⟩

theorem Tiles.apart (h : Tiles finish start blocks) {a b : Block} (ha : a ∈ blocks) (hb : b ∈ blocks) (hne : a ≠ b) :
    a.next ≤ b.mcb ∨ b.next ≤ a.mcb := by
  induction blocks generalizing start with
  | nil => exact absurd ha List.not_mem_nil
  | cons first rest ih =>
    rcases List.mem_cons.mp ha with rfl | hmem
    · exact Or.inl (h.2.mem ((List.mem_cons.mp hb).resolve_left hne.symm)).1
    · rcases List.mem_cons.mp hb with rfl | hmem'
      · exact Or.inr (h.2.mem hmem).1
      · exact ih h.2 hmem hmem'

/-! ## Chains -/

/-- Memory holds the header of every block, the last one with the last marker. -/
def Headers (m : Memory) : List Block → Prop
  | [] => True
  | block :: rest => m.read (block.mcb * PARAGRAPH_BYTES) 5 = block.header rest.isEmpty ∧ Headers m rest

/-- Memory holds a chain of blocks that tile the arena. -/
structure Represents (m : Memory) (blocks : List Block) : Prop where
  tiles : Tiles END_SEGMENT FIRST_MCB blocks
  headers : Headers m blocks

def Valid (m : Memory) : Prop := ∃ blocks, Represents m blocks

@[simp] theorem length_header (block : Block) (last : Bool) : (block.header last).length = 5 := by
  simp [Block.header]

theorem header_within (h : block.mcb < END_SEGMENT) :
    block.mcb * PARAGRAPH_BYTES + 5 ≤ CONVENTIONAL_MEMORY_SIZE := by
  have hend : END_SEGMENT = 0xa000 := rfl
  unfold PARAGRAPH_BYTES CONVENTIONAL_MEMORY_SIZE
  omega

/-- The bytes of a block's header. -/
def Block.Header (block : Block) (x : Nat) : Prop :=
  block.mcb * PARAGRAPH_BYTES ≤ x ∧ x < block.mcb * PARAGRAPH_BYTES + 5

theorem writeChain_spec (h : Tiles finish start blocks) (hfinish : finish ≤ END_SEGMENT) :
    ∃ m', writeChain m blocks = some m' ∧ Headers m' blocks ∧ ∀ x, (∀ block ∈ blocks, ¬ block.Header x) → m' x = m x := by
  induction blocks generalizing m start with
  | nil => exact ⟨m, rfl, trivial, fun _ _ => rfl⟩
  | cons block rest ih =>
    have hwithin := @header_within block (Nat.lt_of_lt_of_le Block.mcb_lt_next (Nat.le_trans h.2.le hfinish))
    obtain ⟨m', hwr, hheaders, hframe⟩ :=
      ih (m := m.write (block.mcb * PARAGRAPH_BYTES) (block.header rest.isEmpty)) h.2
    refine ⟨m', ?_, ⟨?_, hheaders⟩, fun x hx => ?_⟩
    · rw [writeChain, writeHeader, length_header, if_pos hwithin]
      exact hwr
    · have hread := Memory.read_write m (block.mcb * PARAGRAPH_BYTES) (block.header rest.isEmpty)
      rw [length_header] at hread
      refine Eq.trans (Memory.read_congr.mpr fun x _ hhi => hframe x fun c hc hin => ?_) hread
      -- the later headers start at the next block or after it
      have hnext := (h.2.mem hc).1
      unfold Block.Header PARAGRAPH_BYTES at *
      have hlt := @Block.mcb_lt_next block
      omega
    · rw [hframe x fun c hc => hx c (List.mem_cons_of_mem _ hc), Memory.write_outside]
      rw [length_header]
      exact hx block List.mem_cons_self

/-- Bytes that are a block's header. -/
theorem eq_header_iff {bytes : List (BitVec 8)} {last : Bool} (hbytes : bytes.length = 5)
    (hsize : block.paragraphs < 0x10000) : bytes = block.header last ↔
      bytes.getD 0 0 = marker last ∧ Memory.ofBytes 16 ((bytes.drop 1).take 2) = block.owner ∧
        (Memory.ofBytes 16 ((bytes.drop 3).take 2)).toNat = block.paragraphs := by
  obtain ⟨a, b, c, d, e, rfl⟩ : ∃ a b c d e, bytes = [a, b, c, d, e] := by
    match bytes, hbytes with
    | [a, b, c, d, e], _ => exact ⟨a, b, c, d, e, rfl⟩
  have howner : [b, c] = Memory.lowBytes 2 block.owner ↔ Memory.ofBytes 16 [b, c] = block.owner := by
    constructor
    · intro h
      rw [h, @Memory.ofBytes_lowBytes 16 2 _ rfl]
    · intro h
      rw [← h]
      exact (@Memory.lowBytes_ofBytes 16 [b, c] (Nat.le_refl 16)).symm
  have hparagraphs : [d, e] = Memory.lowBytes 2 (BitVec.ofNat 16 block.paragraphs) ↔
      (Memory.ofBytes 16 [d, e]).toNat = block.paragraphs := by
    constructor
    · intro h
      rw [h, @Memory.ofBytes_lowBytes 16 2 _ rfl, BitVec.toNat_ofNat]
      exact Nat.mod_eq_of_lt hsize
    · intro h
      rw [← h, BitVec.ofNat_toNat, BitVec.setWidth_eq]
      exact (@Memory.lowBytes_ofBytes 16 [d, e] (Nat.le_refl 16)).symm
  have hsplit : [a, b, c, d, e] = block.header last ↔
      a = marker last ∧ [b, c] = Memory.lowBytes 2 block.owner ∧
        [d, e] = Memory.lowBytes 2 (BitVec.ofNat 16 block.paragraphs) := by
    unfold Block.header
    rw [List.cons.injEq]
    refine and_congr_right fun _ => ?_
    exact ⟨fun h => List.append_inj (show [b, c] ++ [d, e] = _ from h) (by simp), fun h => by rw [← h.1, ← h.2]; rfl⟩
  rw [hsplit, howner, hparagraphs]
  rfl

/-- The block whose header is at an MCB. -/
def blockAt (m : Memory) (mcb : Nat) : Block where
  mcb := mcb
  owner := Memory.ofBytes 16 (((m.read (mcb * PARAGRAPH_BYTES) 5).drop 1).take 2)
  paragraphs := (Memory.ofBytes 16 (((m.read (mcb * PARAGRAPH_BYTES) 5).drop 3).take 2)).toNat

/-- The marker at an MCB. -/
def markerAt (m : Memory) (mcb : Nat) : BitVec 8 := (m.read (mcb * PARAGRAPH_BYTES) 5).getD 0 0

theorem header_iff {last : Bool} (hnext : block.next ≤ END_SEGMENT) :
    m.read (block.mcb * PARAGRAPH_BYTES) 5 = block.header last ↔
      markerAt m block.mcb = marker last ∧ blockAt m block.mcb = block := by
  have hend : END_SEGMENT = 0xa000 := rfl
  rw [eq_header_iff (Memory.length_read 5) (by unfold Block.next at hnext; omega)]
  refine and_congr_right fun _ => ?_
  obtain ⟨mcb, owner, paragraphs⟩ := block
  simp only [blockAt, Block.mk.injEq, true_and]

theorem readFrom_eq (h : start < END_SEGMENT) : readFrom m start =
    if (markerAt m start = marker false ∧ (blockAt m start).next < END_SEGMENT) then
      (readFrom m (blockAt m start).next).map fun result => result.map (blockAt m start :: ·)
    else if markerAt m start = marker true ∧ (blockAt m start).next = END_SEGMENT then
      some (.ok [blockAt m start])
    else some (.error .memoryCorrupted) := by
  have hend : END_SEGMENT = 0xa000 := rfl
  have hmarkers : marker true ≠ marker false := by decide
  have hmarker : (m.read (start * PARAGRAPH_BYTES) 5).getD 0 0 = markerAt m start := rfl
  have hblk : (⟨start, Memory.ofBytes 16 (((m.read (start * PARAGRAPH_BYTES) 5).drop 1).take 2),
      (Memory.ofBytes 16 (((m.read (start * PARAGRAPH_BYTES) 5).drop 3).take 2)).toNat⟩ : Block) = blockAt m start := rfl
  have hnext : start + 1 + (Memory.ofBytes 16 (((m.read (start * PARAGRAPH_BYTES) 5).drop 3).take 2)).toNat =
      (blockAt m start).next := rfl
  rw [readFrom, readHeader, if_pos (@header_within ⟨start, 0, 0⟩ h)]
  simp only [Option.bind_eq_bind, Option.bind_some]
  rw [hblk, hnext, hmarker]
  have htest : (¬ (markerAt m start = marker false ∨ markerAt m start = marker true) ∨
      END_SEGMENT < (blockAt m start).next ∨
        decide (markerAt m start = marker true) ≠ decide ((blockAt m start).next = END_SEGMENT)) ↔
      ¬ (markerAt m start = marker false ∧ (blockAt m start).next < END_SEGMENT) ∧
        ¬ (markerAt m start = marker true ∧ (blockAt m start).next = END_SEGMENT) := by
    rw [ne_eq, decide_eq_decide]
    by_cases hlast : markerAt m start = marker true
    · simp only [hlast, hmarkers, false_or, true_iff, true_and, false_and, not_true, not_false_iff]
      omega
    · simp only [hlast, or_false, false_iff, false_and, not_false_iff, and_true, not_not]
      by_cases hfst : markerAt m start = marker false
      · simp only [hfst, not_true, false_or, true_and]
        omega
      · simp only [hfst, not_false_iff, true_or, false_and]
  by_cases hfst : markerAt m start = marker false ∧ (blockAt m start).next < END_SEGMENT
  · have hlast : ¬ decide (markerAt m start = marker true) = true := fun h =>
      hmarkers ((of_decide_eq_true h).symm.trans hfst.1)
    rw [dif_neg (fun h => (htest.mp h).1 hfst), if_neg hlast, if_pos hfst, Nat.mod_eq_of_lt (by omega)]
    cases readFrom m (blockAt m start).next with
    | none => rfl
    | some result => cases result <;> rfl
  · rw [if_neg hfst]
    by_cases hlast : markerAt m start = marker true ∧ (blockAt m start).next = END_SEGMENT
    · have htrue : decide (markerAt m start = marker true) = true := decide_eq_true hlast.1
      rw [dif_neg (fun h => (htest.mp h).2 hlast), if_pos htrue, if_pos hlast]
      rfl
    · rw [dif_pos (htest.mpr ⟨hfst, hlast⟩), if_neg hlast]
      rfl

/-- `read_chain` from an MCB on finds the tiling whose headers memory holds. -/
theorem readFrom_iff (h : start < END_SEGMENT) :
    readFrom m start = some (.ok blocks) ↔ Tiles END_SEGMENT start blocks ∧ Headers m blocks := by
  induction hn : END_SEGMENT - start using Nat.strongRecOn generalizing start blocks with
  | ind n ih =>
    have hlt : start < (blockAt m start).next := @Block.mcb_lt_next (blockAt m start)
    rw [readFrom_eq h]
    constructor
    · intro hread
      split at hread
      next hfst =>
        obtain ⟨result, hres, hmap⟩ := Option.map_eq_some_iff.mp hread
        cases result with
        | error e => cases hmap
        | ok rest =>
          cases hmap
          obtain ⟨htiles, hheaders⟩ := (ih _ (by omega) hfst.2 rfl).mp hres
          have hrest : rest.isEmpty = false := List.isEmpty_eq_false_iff.mpr (htiles.ne_nil hfst.2)
          refine ⟨⟨rfl, htiles⟩, ?_, hheaders⟩
          rw [hrest]
          exact (header_iff (Nat.le_of_lt hfst.2)).mpr ⟨hfst.1, rfl⟩
      next =>
        split at hread
        next hlast =>
          cases hread
          exact ⟨⟨rfl, hlast.2⟩, (header_iff (Nat.le_of_eq hlast.2)).mpr ⟨hlast.1, rfl⟩, trivial⟩
        next => cases hread
    · rintro ⟨htiles, hheaders⟩
      cases blocks with
      | nil => exact absurd h (Nat.not_lt.mpr (Nat.le_of_eq htiles.symm))
      | cons block rest =>
        obtain ⟨hmcb, hrest⟩ := htiles
        obtain ⟨hmarker, hblk⟩ := (header_iff hrest.le).mp hheaders.1
        rw [hmcb] at hmarker hblk
        rw [hblk]
        cases rest with
        | nil => rw [if_neg (fun hfst => Nat.ne_of_lt hfst.2 hrest), if_pos ⟨hmarker, hrest⟩]
        | cons second others =>
          have hnext : block.next < END_SEGMENT := by
            rw [← hrest.1]
            exact Nat.lt_of_lt_of_le Block.mcb_lt_next hrest.2.le
          rw [hblk] at hlt
          rw [if_pos ⟨hmarker, hnext⟩, (ih _ (by omega) hnext rfl).mpr ⟨hrest, hheaders.2⟩]
          rfl

theorem readFrom_total (h : start < END_SEGMENT) :
    (∃ blocks, readFrom m start = some (.ok blocks)) ∨ readFrom m start = some (.error .memoryCorrupted) := by
  induction hn : END_SEGMENT - start using Nat.strongRecOn generalizing start with
  | ind n ih =>
    have hlt : start < (blockAt m start).next := @Block.mcb_lt_next (blockAt m start)
    rw [readFrom_eq h]
    split
    next hfst =>
      rcases ih _ (by omega) hfst.2 rfl with ⟨blocks, hread⟩ | hread
      · exact Or.inl ⟨blockAt m start :: blocks, by rw [hread]; rfl⟩
      · exact Or.inr (by rw [hread]; rfl)
    next =>
      split
      · exact Or.inl ⟨_, rfl⟩
      · exact Or.inr rfl

theorem first_lt_end : FIRST_MCB < END_SEGMENT := by decide

theorem readChain_iff : readChain m = some (.ok blocks) ↔ Represents m blocks :=
  (readFrom_iff first_lt_end).trans ⟨fun h => ⟨h.1, h.2⟩, fun h => ⟨h.tiles, h.headers⟩⟩

theorem readChain_corrupted (h : ¬ Valid m) : readChain m = some (.error .memoryCorrupted) := by
  rcases @readFrom_total m _ first_lt_end with ⟨blocks, hread⟩ | hread
  · exact absurd ⟨blocks, readChain_iff.mp hread⟩ h
  · exact hread

/-- A memory represents at most one list of blocks. -/
theorem Represents.unique {others : List Block} (h : Represents m blocks) (h' : Represents m others) :
    blocks = others := by
  have hread := readChain_iff.mpr h
  rw [readChain_iff.mpr h'] at hread
  cases hread
  rfl

end Relocade.Dos
