import Mathlib.Data.List.Chain
import Relocade.Dos.Chain

/-!
# `Dos.Arena` — the arena stays a partition

What the edits of the list of blocks do to a tiling, and from it what every call does. `coalesce` keeps the allocated
blocks and turns every maximal run of free blocks into one (`coalesce_spec`), `split` and `grow` move a block's end.
A call returns on every memory; on a valid chain it meets its specification and the chain stays valid, and on any
other it reports the corruption and writes nothing (`arena_partition`).
-/

namespace Relocade.Dos

open Option (bind_eq_bind bind_some)
open List (mem_cons_self mem_cons_of_mem not_mem_nil mem_append_right)

variable {m m' : Memory} {blocks rest pre post : List Block} {block : Block} {start finish size : Nat}

/-! ## Room -/

/-- The paragraphs of blocks with their headers. -/
def total : List Block → Nat
  | [] => 0
  | block :: rest => block.paragraphs + 1 + total rest

/-- The paragraphs of a maximal run of adjacent free blocks, as one block. -/
def FreeRun (blocks : List Block) (size : Nat) : Prop :=
  ∃ pre run post, blocks = pre ++ run ++ post ∧ run ≠ [] ∧ (∀ b ∈ run, b.owner = 0) ∧
    (∀ b ∈ pre.getLast?, b.owner ≠ 0) ∧ (∀ b ∈ post.head?, b.owner ≠ 0) ∧
    size + 1 = total run

/-- A block may have a size where it is: the arena and no allocated block ends it sooner. -/
def Fits (blocks : List Block) (block : Block) (size : Nat) : Prop :=
  block.mcb + 1 + size ≤ END_SEGMENT ∧
    ∀ b ∈ blocks, b.owner ≠ 0 → block.mcb < b.mcb → block.mcb + 1 + size ≤ b.mcb

/-- A run of free blocks is at the front or after the first block. -/
theorem freeRun_cons : FreeRun (block :: rest) size ↔
    (block.owner = 0 ∧ ∃ run post, rest = run ++ post ∧ (∀ b ∈ run, b.owner = 0) ∧ (∀ b ∈ post.head?, b.owner ≠ 0) ∧
      size = block.paragraphs + total run) ∨
    ∃ pre run post, rest = pre ++ run ++ post ∧ run ≠ [] ∧ (∀ b ∈ run, b.owner = 0) ∧
      (∀ b ∈ (block :: pre).getLast?, b.owner ≠ 0) ∧ (∀ b ∈ post.head?, b.owner ≠ 0) ∧
      size + 1 = total run := by
  constructor
  · rintro ⟨pre, run, post, heq, hne, hrun, hpre, hpost, hsize⟩
    cases pre with
    | nil =>
      cases run with
      | nil => exact absurd rfl hne
      | cons first run =>
        obtain ⟨rfl, rfl⟩ := List.cons.inj heq
        refine Or.inl ⟨hrun _ mem_cons_self, run, post, rfl, fun b hb => hrun b (mem_cons_of_mem _ hb),
          hpost, ?_⟩
        rw [total] at hsize
        omega
    | cons first pre =>
      obtain ⟨rfl, rfl⟩ := List.cons.inj heq
      exact Or.inr ⟨pre, run, post, rfl, hne, hrun, hpre, hpost, hsize⟩
  · rintro (⟨hfree, run, post, rfl, hrun, hpost, hsize⟩ | ⟨pre, run, post, rfl, hne, hrun, hpre, hpost, hsize⟩)
    · refine ⟨[], block :: run, post, rfl, List.cons_ne_nil _ _, ?_, fun b hb => (by cases hb), hpost, ?_⟩
      · intro b hb
        rcases List.mem_cons.mp hb with rfl | hb
        · exact hfree
        · exact hrun b hb
      · rw [total]
        omega
    · exact ⟨block :: pre, run, post, rfl, hne, hrun, hpre, hpost, hsize⟩

theorem getLast?_cons_allocated {P : Block → Prop} (hblk : P block) :
    (∀ b ∈ (block :: pre).getLast?, P b) ↔ ∀ b ∈ pre.getLast?, P b := by
  cases pre with
  | nil => simp [hblk]
  | cons first pre => rw [List.getLast?_cons_cons]

theorem freeRun_allocated (h : block.owner ≠ 0) : FreeRun (block :: rest) size ↔ FreeRun rest size := by
  rw [freeRun_cons]
  simp only [h, false_and, false_or, getLast?_cons_allocated (P := fun b => b.owner ≠ 0) h]
  rfl

/-- A free block before an allocated one is a run. -/
theorem freeRun_free (h : block.owner = 0) (hrest : ∀ b ∈ rest.head?, b.owner ≠ 0) :
    FreeRun (block :: rest) size ↔ size = block.paragraphs ∨ FreeRun rest size := by
  rw [freeRun_cons]
  refine or_congr ⟨?_, ?_⟩ ⟨?_, ?_⟩
  · rintro ⟨-, run, post, rfl, hrun, -, hsize⟩
    cases run with
    | nil => exact hsize
    | cons first run => exact absurd (hrun first mem_cons_self) (hrest first rfl)
  · exact fun hsize => ⟨h, [], rest, rfl, fun b hb => absurd hb not_mem_nil, hrest, hsize⟩
  · rintro ⟨pre, run, post, rfl, hne, hrun, hpre, hpost, hsize⟩
    cases pre with
    | nil => exact absurd h (hpre block rfl)
    | cons first pre => exact ⟨first :: pre, run, post, rfl, hne, hrun, hpre, hpost, hsize⟩
  · rintro ⟨pre, run, post, rfl, hne, hrun, hpre, hpost, hsize⟩
    cases pre with
    | nil =>
      cases run with
      | nil => exact absurd rfl hne
      | cons first run => exact absurd (hrun first mem_cons_self) (hrest first rfl)
    | cons first pre => exact ⟨first :: pre, run, post, rfl, hne, hrun, hpre, hpost, hsize⟩

/-- Two adjacent free blocks are as one. -/
theorem freeRun_merge {next both : Block} (h : block.owner = 0) (hnext : next.owner = 0) (hboth : both.owner = 0)
    (hsize : both.paragraphs = block.paragraphs + (1 + next.paragraphs)) :
    FreeRun (block :: next :: rest) size ↔ FreeRun (both :: rest) size := by
  rw [freeRun_cons, freeRun_cons]
  refine or_congr ⟨?_, ?_⟩ ⟨?_, ?_⟩
  · rintro ⟨-, run, post, heq, hrun, hpost, hs⟩
    cases run with
    | nil =>
      rw [List.nil_append] at heq
      rw [← heq] at hpost
      exact absurd hnext (hpost next rfl)
    | cons first run =>
      obtain ⟨rfl, rfl⟩ := List.cons.inj heq
      refine ⟨hboth, run, post, rfl, fun b hb => hrun b (mem_cons_of_mem _ hb), hpost, ?_⟩
      rw [total] at hs
      omega
  · rintro ⟨-, run, post, rfl, hrun, hpost, hs⟩
    refine ⟨h, next :: run, post, rfl, ?_, hpost, ?_⟩
    · intro b hb
      rcases List.mem_cons.mp hb with rfl | hb
      · exact hnext
      · exact hrun b hb
    · rw [total]
      omega
  · rintro ⟨pre, run, post, heq, hne, hrun, hpre, hpost, hs⟩
    cases pre with
    | nil => exact absurd h (hpre block rfl)
    | cons first pre =>
      obtain ⟨rfl, rfl⟩ := List.cons.inj heq
      refine ⟨pre, run, post, rfl, hne, hrun, ?_, hpost, hs⟩
      cases pre with
      | nil => exact absurd hnext (hpre next rfl)
      | cons second pre => exact hpre
  · rintro ⟨pre, run, post, rfl, hne, hrun, hpre, hpost, hs⟩
    refine ⟨next :: pre, run, post, rfl, hne, hrun, ?_, hpost, hs⟩
    cases pre with
    | nil => exact absurd hboth (hpre both rfl)
    | cons second pre => exact hpre

/-! ## Edits -/

theorem add16_eq {a b : Nat} (h : a + b ≤ END_SEGMENT) : add16 a b = some (a + b) := by
  have hend : END_SEGMENT = 0xa000 := rfl
  exact if_pos (by omega)

theorem sub16_eq {a b : Nat} (h : b ≤ a) : sub16 a b = some (a - b) := if_pos h

/-- No two adjacent blocks are free. -/
def Apart (blocks : List Block) : Prop := blocks.IsChain fun a b => ¬ (a.owner = 0 ∧ b.owner = 0)

/-- The allocated blocks of two lists are the same. -/
def SameAllocated (blocks out : List Block) : Prop := ∀ b : Block, b.owner ≠ 0 → (b ∈ out ↔ b ∈ blocks)

/-- A block with the block after it. -/
def Block.merge (block next : Block) : Block := { block with paragraphs := block.paragraphs + (1 + next.paragraphs) }

theorem Block.next_merge {next : Block} (h : next.mcb = block.next) : (block.merge next).next = next.next := by
  unfold Block.next Block.merge at *
  show block.mcb + 1 + (block.paragraphs + (1 + next.paragraphs)) = _
  omega

theorem absorb_eq {next : Block} (hmcb : next.mcb = block.next) (hend : next.next ≤ END_SEGMENT) :
    absorb block next = some (block.merge next) := by
  unfold Block.next at *
  rw [absorb, add16_eq (by omega), bind_eq_bind, bind_some, add16_eq (by omega)]
  rfl

/-- `coalesce` makes every maximal run of free blocks one block. -/
structure Coalesced (blocks out : List Block) : Prop where
  apart : Apart out
  same : SameAllocated blocks out
  free : ∀ size, (∃ b ∈ out, b.owner = 0 ∧ b.paragraphs = size) ↔ FreeRun blocks size

theorem freeRun_nil : ¬ FreeRun [] size := by
  rintro ⟨pre, run, post, heq, hne, -⟩
  exact hne (List.append_eq_nil_iff.mp (List.append_eq_nil_iff.mp heq.symm).1).2

/-- The runs from a block on, where no free block follows a free one. -/
theorem freeRun_apart (h : ¬ (block.owner = 0 ∧ ∃ b ∈ rest.head?, b.owner = 0)) :
    FreeRun (block :: rest) size ↔ (block.owner = 0 ∧ block.paragraphs = size) ∨ FreeRun rest size := by
  by_cases hfree : block.owner = 0
  · rw [freeRun_free hfree fun b hb hb' => h ⟨hfree, b, hb, hb'⟩, eq_comm]
    exact or_congr_left ⟨fun hsize => ⟨hfree, hsize⟩, fun hsize => hsize.2⟩
  · rw [freeRun_allocated hfree]
    exact ⟨Or.inr, fun hor => hor.resolve_left fun hsize => hfree hsize.1⟩

theorem coalesceFrom_spec (h : Tiles finish start (block :: rest)) (hfinish : finish ≤ END_SEGMENT) :
    ∃ out, coalesceFrom block rest = some out ∧ Tiles finish start out ∧ Coalesced (block :: rest) out ∧
      ∀ b ∈ out.head?, b.owner = block.owner := by
  induction rest generalizing block start with
  | nil =>
    refine ⟨[block], rfl, h, ⟨List.isChain_singleton _, fun _ _ => Iff.rfl, fun size => ?_⟩, ?_⟩
    · rw [freeRun_apart (by rintro ⟨-, b, hb, -⟩; cases hb)]
      simp only [List.mem_singleton, exists_eq_left, freeRun_nil, or_false]
    · intro b hb
      cases hb
      rfl
  | cons next rest ih =>
    obtain ⟨hmcb, hnext, hrest⟩ := h
    rw [coalesceFrom]
    by_cases hfree : block.owner = 0 ∧ next.owner = 0
    · rw [if_pos hfree, absorb_eq hnext (Nat.le_trans hrest.le hfinish)]
      have htiles : Tiles finish start (block.merge next :: rest) := ⟨hmcb, by rw [Block.next_merge hnext]; exact hrest⟩
      obtain ⟨out, hout, hout', hcoal, hhead⟩ := ih htiles
      refine ⟨out, hout, hout', ⟨hcoal.apart, fun b hb => ?_, fun size => ?_⟩, hhead⟩
      · rw [hcoal.same b hb]
        have hblk : b ≠ block := fun h => hb (h ▸ hfree.1)
        have hnext : b ≠ next := fun h => hb (h ▸ hfree.2)
        have hboth : b ≠ block.merge next := fun h => hb (h ▸ hfree.1)
        simp only [List.mem_cons, hblk, hnext, hboth, false_or]
      · rw [hcoal.free size]
        exact (freeRun_merge hfree.1 hfree.2 (show (block.merge next).owner = 0 from hfree.1) rfl).symm
    · obtain ⟨out, hout, hout', hcoal, hhead⟩ := ih ⟨hnext, hrest⟩
      rw [if_neg hfree, hout]
      refine ⟨block :: out, rfl, ⟨hmcb, hout'⟩, ⟨?_, fun b hb => ?_, fun size => ?_⟩, ?_⟩
      · refine List.isChain_cons.mpr ⟨fun b hb => ?_, hcoal.apart⟩
        rw [hhead b hb]
        exact hfree
      · rw [List.mem_cons, List.mem_cons, hcoal.same b hb]
      · rw [freeRun_apart, ← hcoal.free size]
        · simp only [List.exists_mem_cons_iff]
        · rintro ⟨hblk, b, hb, hb'⟩
          cases hb
          exact hfree ⟨hblk, hb'⟩
      · intro b hb
        cases hb
        rfl

theorem coalesce_spec (h : Tiles finish start blocks) (hfinish : finish ≤ END_SEGMENT) :
    ∃ out, coalesce blocks = some out ∧ Tiles finish start out ∧ Coalesced blocks out := by
  cases blocks with
  | nil =>
    refine ⟨[], rfl, h, List.isChain_nil, fun _ _ => Iff.rfl, fun size => ?_⟩
    simp only [not_mem_nil, false_and, exists_false, freeRun_nil]
  | cons block rest =>
    obtain ⟨out, hout, htiles, hcoal, -⟩ := coalesceFrom_spec h hfinish
    exact ⟨out, hout, htiles, hcoal⟩

/-- The first block that passes a test, or none does. -/
theorem position_spec {P : Block → Prop} [DecidablePred P] {test : Block → Option Bool}
    (h : ∀ b ∈ blocks, test b = some (decide (P b))) :
    (position test blocks = some none ∧ ∀ b ∈ blocks, ¬ P b) ∨
      ∃ pre b post, blocks = pre ++ b :: post ∧ position test blocks = some (some pre.length) ∧ P b := by
  induction blocks with
  | nil => exact Or.inl ⟨rfl, fun b hb => absurd hb not_mem_nil⟩
  | cons block rest ih =>
    rw [position, h block mem_cons_self, bind_eq_bind, bind_some]
    by_cases hblk : P block
    · refine Or.inr ⟨[], block, rest, rfl, ?_, hblk⟩
      rw [if_pos (decide_eq_true hblk)]
      rfl
    · have hfalse : ¬ decide (P block) = true := fun h => hblk (of_decide_eq_true h)
      rw [if_neg hfalse]
      rcases ih fun b hb => h b (mem_cons_of_mem _ hb) with ⟨hpos, hnone⟩ | ⟨pre, b, post, rfl, hpos, hb⟩
      · refine Or.inl ⟨by rw [hpos]; rfl, fun b hb => ?_⟩
        rcases List.mem_cons.mp hb with rfl | hb
        · exact hblk
        · exact hnone b hb
      · exact Or.inr ⟨block :: pre, b, post, rfl, by rw [hpos]; rfl, hb⟩

/-- The free block that `split` leaves. -/
def remainder (block : Block) (paragraphs : Nat) : List Block :=
  if paragraphs < block.paragraphs then [⟨block.mcb + 1 + paragraphs, 0, block.paragraphs - paragraphs - 1⟩] else []

theorem getElem?_length (pre : List Block) (block : Block) (post : List Block) :
    (pre ++ block :: post)[pre.length]? = some block := by
  rw [List.getElem?_append_right (Nat.le_refl _), Nat.sub_self]
  rfl

theorem set_length (pre : List Block) (block new : Block) (post : List Block) :
    (pre ++ block :: post).set pre.length new = pre ++ new :: post := by
  rw [List.set_append_right _ _ (Nat.le_refl _), Nat.sub_self]
  rfl

theorem insertIdx_length (pre : List Block) (block new : Block) (post : List Block) :
    (pre ++ block :: post).insertIdx (pre.length + 1) new = pre ++ block :: new :: post := by
  induction pre with
  | nil => rfl
  | cons first pre ih => exact congrArg (first :: ·) ih

variable {paragraphs ps : Nat}

theorem split_spec (hend : block.next ≤ END_SEGMENT) (h : ps ≤ block.paragraphs) :
    split (pre ++ block :: post) pre.length ps =
      some (pre ++ { block with paragraphs := ps } :: (remainder block ps ++ post)) := by
  rw [split, getElem?_length]
  simp only [bind_eq_bind, bind_some]
  unfold Block.next at hend
  by_cases hlt : ps < block.paragraphs
  · rw [if_pos hlt, remainder, if_pos hlt, add16_eq (by omega), bind_some, add16_eq (by omega), bind_some,
      sub16_eq h, bind_some, sub16_eq (by omega), bind_some, set_length, insertIdx_length]
    rfl
  · have heq : ps = block.paragraphs := Nat.le_antisymm h (Nat.not_lt.mp hlt)
    rw [if_neg hlt, remainder, if_neg hlt, heq]
    rfl

/-- The block and its remainder tile what the block did. -/
theorem tiles_split {owner : BitVec 16} (h : Tiles finish start (pre ++ block :: post))
    (hle : ps ≤ block.paragraphs) :
    Tiles finish start (pre ++ ⟨block.mcb, owner, ps⟩ :: (remainder block ps ++ post)) := by
  obtain ⟨mid, hpre, hmcb, hpost⟩ := tiles_append.mp h
  refine tiles_append.mpr ⟨mid, hpre, hmcb, ?_⟩
  unfold Block.next at *
  by_cases hlt : ps < block.paragraphs
  · rw [remainder, if_pos hlt]
    refine ⟨rfl, ?_⟩
    show Tiles finish (block.mcb + 1 + ps + 1 + (block.paragraphs - ps - 1)) post
    rw [show block.mcb + 1 + ps + 1 + (block.paragraphs - ps - 1) = block.mcb + 1 + block.paragraphs by omega]
    exact hpost
  · rw [remainder, if_neg hlt, Nat.le_antisymm hle (Nat.not_lt.mp hlt)]
    exact hpost

theorem remainder_free {b : Block} (h : b ∈ remainder block ps) : b.owner = 0 := by
  unfold remainder at h
  split at h
  · rw [List.mem_singleton.mp h]
  · exact absurd h not_mem_nil

/-! ## Growth -/

/-- What `grow` can make of a block: it takes in a free block after it. -/
def room (block : Block) : List Block → Nat
  | [] => block.paragraphs
  | next :: _ => if next.owner = 0 then (block.merge next).paragraphs else block.paragraphs

theorem le_room : block.paragraphs ≤ room block post := by
  cases post with
  | nil => exact Nat.le_refl _
  | cons next post =>
    rw [room]
    split
    · exact Nat.le_add_right _ _
    · exact Nat.le_refl _

/-- In a chain without adjacent free blocks the room is the largest size that fits. -/
theorem fits_iff (h : Tiles END_SEGMENT start (pre ++ block :: post)) (happart : Apart (pre ++ block :: post)) :
    Fits (pre ++ block :: post) block size ↔ size ≤ room block post := by
  obtain ⟨mid, hpre, hmcb, hpost⟩ := tiles_append.mp h
  -- an allocated block after this one is in `post`
  have hafter : ∀ c ∈ pre ++ block :: post, block.mcb < c.mcb → c ∈ post := by
    intro c hc hlt
    rcases List.mem_append.mp hc with hc | hc
    · have hc' := (hpre.mem hc).2
      have hc'' := @Block.mcb_lt_next c
      omega
    · rcases List.mem_cons.mp hc with rfl | hc
      · exact absurd hlt (Nat.lt_irrefl _)
      · exact hc
  have hmem : ∀ c ∈ post, c ∈ pre ++ block :: post := fun c hc =>
    mem_append_right _ (mem_cons_of_mem _ hc)
  unfold Fits
  cases post with
  | nil =>
    have hnext : block.next = END_SEGMENT := hpost
    unfold Block.next at hnext
    rw [room]
    constructor
    · intro hfits
      have hend := hfits.1
      omega
    · intro hsize
      exact ⟨by omega, fun c hc _ hlt => absurd (hafter c hc hlt) not_mem_nil⟩
  | cons next post =>
    obtain ⟨hnext, hrest⟩ := hpost
    have hblk := @Block.mcb_lt_next block
    have hend := hrest.le
    rw [room]
    by_cases hfree : next.owner = 0
    · have hmerge := Block.next_merge hnext
      rw [if_pos hfree]
      unfold Block.next at hmerge
      have hmcb' : (block.merge next).mcb = block.mcb := rfl
      constructor
      · rintro ⟨hfits, hall⟩
        cases post with
        | nil =>
          have hlast : next.next = END_SEGMENT := hrest
          unfold Block.next at hlast
          omega
        | cons third post =>
          have hthird : third.owner ≠ 0 := fun hthird =>
            (List.isChain_cons_cons.mp (List.isChain_cons_cons.mp (List.isChain_append.mp happart).2.1).2).1
              ⟨hfree, hthird⟩
          have hnext' := @Block.mcb_lt_next next
          have hthird' := hrest.1
          have hall' := hall third (hmem third (mem_cons_of_mem _ mem_cons_self)) hthird (by omega)
          unfold Block.next at hthird'
          omega
      · intro hsize
        unfold Block.next at hend
        refine ⟨by omega, fun c hc hc' hlt => ?_⟩
        have hc := (List.mem_cons.mp (hafter c hc hlt)).resolve_left fun heq => hc' (heq ▸ hfree)
        have hmem := (hrest.mem hc).1
        unfold Block.next at hmem
        omega
    · rw [if_neg hfree]
      unfold Block.next at hnext
      constructor
      · rintro ⟨-, hall⟩
        have hall' := hall next (hmem next mem_cons_self) hfree (by omega)
        omega
      · intro hsize
        have hnext' := @Block.mcb_lt_next next
        refine ⟨by omega, fun c hc _ hlt => ?_⟩
        rcases List.mem_cons.mp (hafter c hc hlt) with rfl | hc
        · omega
        · have hmem := (hrest.mem hc).1
          omega

theorem eraseIdx_length (pre : List Block) (block next : Block) (post : List Block) :
    (pre ++ block :: next :: post).eraseIdx (pre.length + 1) = pre ++ block :: post := by
  induction pre with
  | nil => rfl
  | cons first pre ih => exact congrArg (first :: ·) ih

theorem getElem?_length_succ (pre : List Block) (block : Block) (post : List Block) :
    (pre ++ block :: post)[pre.length + 1]? = post.head? := by
  rw [List.getElem?_append_right (Nat.le_succ _), show pre.length.succ - pre.length = 1 by omega,
    List.getElem?_cons_succ, List.head?_eq_getElem?]

/-- A block grown into its room, when a request needs it. -/
theorem grow_spec (h : Tiles END_SEGMENT start (pre ++ block :: post)) :
    ∃ size post', grow (pre ++ block :: post) pre.length ps =
        some (pre ++ { block with paragraphs := size } :: post') ∧
      Tiles END_SEGMENT start (pre ++ { block with paragraphs := size } :: post') ∧ SameAllocated post post' ∧
      (ps ≤ size ↔ ps ≤ room block post) ∧ (size < ps → size = room block post) := by
  rw [grow, getElem?_length, getElem?_length_succ, bind_eq_bind, bind_some]
  have hkeep : SameAllocated post post := fun _ _ => Iff.rfl
  cases post with
  | nil => exact ⟨block.paragraphs, [], rfl, h, hkeep, Iff.rfl, fun _ => rfl⟩
  | cons next post =>
    rw [List.head?_cons, room]
    dsimp only
    by_cases hgrow : block.paragraphs < ps ∧ next.owner = 0
    · obtain ⟨mid, hpre, hmcb, hnext, hrest⟩ := tiles_append.mp h
      rw [if_pos hgrow, if_pos hgrow.2, absorb_eq hnext hrest.le, bind_some, eraseIdx_length, set_length]
      refine ⟨(block.merge next).paragraphs, post, rfl, tiles_append.mpr ⟨mid, hpre, hmcb, ?_⟩, ?_, Iff.rfl, fun _ => rfl⟩
      · have hmerge := Block.next_merge hnext
        unfold Block.merge at *
        rw [hmerge]
        exact hrest
      · intro b hb
        have hne : b ≠ next := fun h => hb (h ▸ hgrow.2)
        simp only [List.mem_cons, hne, false_or]
    · rw [if_neg hgrow]
      refine ⟨block.paragraphs, next :: post, rfl, h, hkeep, ?_, fun hlt => ?_⟩
      · by_cases hlt : block.paragraphs < ps
        · rw [if_neg fun hfree => hgrow ⟨hlt, hfree⟩]
        · have hle := @le_room (next :: post) block
          rw [room] at hle
          exact iff_of_true (Nat.not_lt.mp hlt) (Nat.le_trans (Nat.not_lt.mp hlt) hle)
      · rw [if_neg fun hfree => hgrow ⟨hlt, hfree⟩]

/-! ## Calls -/

/-- The bytes of a block's data area. -/
def Block.Data (block : Block) (x : Nat) : Prop :=
  (block.mcb + 1) * PARAGRAPH_BYTES ≤ x ∧ x < block.next * PARAGRAPH_BYTES

/-- A memory with a valid chain that differs from another in the headers of its chain at most. -/
structure Rewritten (m m' : Memory) (blocks : List Block) : Prop where
  represents : Represents m' blocks
  disjoint : blocks.Pairwise fun a b => ∀ x, ¬ (a.Data x ∧ b.Data x)
  data : ∀ b ∈ blocks, ∀ x, b.Data x → m' x = m x
  outside : ∀ x, (x < FIRST_MCB * PARAGRAPH_BYTES ∨ END_SEGMENT * PARAGRAPH_BYTES ≤ x) → m' x = m x

/-- The data areas of a tiling are disjoint. -/
theorem Tiles.disjoint (h : Tiles finish start blocks) : blocks.Pairwise fun a b => ∀ x, ¬ (a.Data x ∧ b.Data x) := by
  refine h.pairwise.imp fun {a b} hle x hx => ?_
  unfold Block.Data PARAGRAPH_BYTES at hx
  omega

/-- No header of a tiling is in a data area. -/
theorem Tiles.not_header (h : Tiles finish start blocks) {a b : Block} (ha : a ∈ blocks) (hb : b ∈ blocks) {x : Nat}
    (hx : a.Data x) : ¬ b.Header x := by
  intro hx'
  unfold Block.Data Block.Header PARAGRAPH_BYTES at *
  have hnext := @Block.mcb_lt_next b
  by_cases hne : a = b
  · subst hne
    omega
  · have hapart := h.apart ha hb hne
    omega

theorem rewritten (m : Memory) (h : Tiles END_SEGMENT FIRST_MCB blocks) :
    ∃ m', writeChain m blocks = some m' ∧ Rewritten m m' blocks := by
  obtain ⟨m', hwr, hheaders, hframe⟩ := writeChain_spec (m := m) h (Nat.le_refl _)
  refine ⟨m', hwr, ⟨h, hheaders⟩, h.disjoint, fun a ha x hx => hframe x fun b hb => h.not_header ha hb hx,
    fun x hx => hframe x fun b hb hx' => ?_⟩
  have hmem := h.mem hb
  have hnext := @Block.mcb_lt_next b
  unfold Block.Header PARAGRAPH_BYTES at *
  omega

theorem Represents.rewritten (h : Represents m blocks) : Rewritten m m blocks :=
  ⟨h, h.tiles.disjoint, fun _ _ _ _ => rfl, fun _ _ => rfl⟩

/-- An allocated block by the segment of its data. -/
structure AllocatedAt (blocks : List Block) (segment : BitVec 16) (block : Block) : Prop where
  mem : block ∈ blocks
  owner : block.owner ≠ 0
  segment : block.mcb + 1 = segment.toNat

/-- What `allocate` does: a run of free blocks that holds the request gives a new block, otherwise the largest run is
    reported. -/
structure AllocateMeets (paragraphs owner : BitVec 16) (blocks blocks' : List Block)
    (result : Except DosError (Option Nat)) (m m' : Memory) : Prop where
  success : (∃ size, FreeRun blocks size ∧ paragraphs.toNat ≤ size) → ∃ new ∈ blocks', new.owner = owner ∧
    new.paragraphs = paragraphs.toNat ∧ result = .ok (some (new.mcb + 1)) ∧
      ∀ b : Block, b.owner ≠ 0 → (b ∈ blocks' ↔ b ∈ blocks ∨ b = new)
  failure : (∀ size, FreeRun blocks size → size < paragraphs.toNat) → ∃ available, m' = m ∧
    result = .error (.insufficientMemory available) ∧ (∀ size, FreeRun blocks size → size ≤ available) ∧
      (FreeRun blocks available ∨ available = 0 ∧ ∀ size, ¬ FreeRun blocks size)

/-- What `free` does: it needs an allocated block and frees it. -/
structure FreeMeets (segment : BitVec 16) (blocks blocks' : List Block) (result : Except DosError (Option Nat))
    (m m' : Memory) : Prop where
  success : ∀ block, AllocatedAt blocks segment block → result = .ok none ∧
    ∀ b : Block, b.owner ≠ 0 → (b ∈ blocks' ↔ b ∈ blocks ∧ b ≠ block)
  failure : (∀ block, ¬ AllocatedAt blocks segment block) → result = .error .invalidMemoryBlock ∧ m' = m

/-- What `resize` does: it needs an allocated block and gives it the size of the request, or the largest size that it
    can have where it is. -/
structure ResizeMeets (segment paragraphs : BitVec 16) (blocks blocks' : List Block)
    (result : Except DosError (Option Nat)) (m m' : Memory) : Prop where
  success : ∀ block, AllocatedAt blocks segment block → ∃ room, (∀ size, Fits blocks block size ↔ size ≤ room) ∧
    result = (if paragraphs.toNat ≤ room then .ok none else .error (.insufficientMemory room)) ∧
      ∀ b : Block, b.owner ≠ 0 → (b ∈ blocks' ↔
        (b ∈ blocks ∧ b ≠ block) ∨ b = { block with paragraphs := min paragraphs.toNat room })
  failure : (∀ block, ¬ AllocatedAt blocks segment block) → result = .error .invalidMemoryBlock ∧ m' = m

def Call.Meets (blocks blocks' : List Block) (result : Except DosError (Option Nat)) (m m' : Memory) : Call → Prop
  | .allocate paragraphs owner => AllocateMeets paragraphs owner blocks blocks' result m m'
  | .free segment => FreeMeets segment blocks blocks' result m m'
  | .resize segment paragraphs => ResizeMeets segment paragraphs blocks blocks' result m m'

theorem largestFree_spec (blocks : List Block) : (∀ b ∈ blocks, b.owner = 0 → b.paragraphs ≤ largestFree blocks) ∧
    ((∃ b ∈ blocks, b.owner = 0 ∧ b.paragraphs = largestFree blocks) ∨
      largestFree blocks = 0 ∧ ∀ b ∈ blocks, b.owner ≠ 0) := by
  have hmem : ∀ size, size ∈ (blocks.filter fun block => block.owner = 0).map Block.paragraphs ↔
      ∃ b ∈ blocks, b.owner = 0 ∧ b.paragraphs = size := by
    intro size
    simp only [List.mem_map, List.mem_filter, decide_eq_true_eq, and_assoc]
  unfold largestFree
  cases hmax : ((blocks.filter fun block => block.owner = 0).map Block.paragraphs).max? with
  | none =>
    have hnil := List.max?_eq_none_iff.mp hmax
    have hall : ∀ b ∈ blocks, b.owner ≠ 0 := fun b hb hfree =>
      not_mem_nil (hnil ▸ (hmem b.paragraphs).mpr ⟨b, hb, hfree, rfl⟩)
    exact ⟨fun b hb hfree => absurd hfree (hall b hb), Or.inr ⟨rfl, hall⟩⟩
  | some largest =>
    obtain ⟨hlargest, hle⟩ := List.max?_eq_some_iff.mp hmax
    exact ⟨fun b hb hfree => hle _ ((hmem _).mpr ⟨b, hb, hfree, rfl⟩), Or.inl ((hmem _).mp hlargest)⟩

theorem allocate_meets (h : Represents m blocks) (ps owner : BitVec 16) :
    ∃ result m' blocks', (Call.allocate ps owner).perform m = some (result, m') ∧ Rewritten m m' blocks' ∧
      AllocateMeets ps owner blocks blocks' result m m' := by
  obtain ⟨out, hout, htiles, hcoal⟩ := coalesce_spec h.tiles (Nat.le_refl _)
  rw [Call.perform, allocate, readChain_iff.mpr h]
  simp only [bind_eq_bind, bind_some, hout]
  rcases @position_spec out (fun block => block.owner = 0 ∧ ps.toNat ≤ block.paragraphs) _
    (fun block => pure (block.owner = 0 ∧ ps.toNat ≤ block.paragraphs)) (fun _ _ => rfl)
    with ⟨hpos, hnone⟩ | ⟨pre, b, post, rfl, hpos, hfree, hsize⟩
  · have hlarger : ∀ size, FreeRun blocks size → size < ps.toNat := by
      intro size hrun
      obtain ⟨b, hb, hfree, rfl⟩ := (hcoal.free size).mpr hrun
      exact Nat.not_le.mp fun hle => hnone b hb ⟨hfree, hle⟩
    obtain ⟨hle, hlargest⟩ := largestFree_spec out
    rw [hpos]
    refine ⟨_, _, _, rfl, h.rewritten, ⟨fun hroom => ?_, fun _ => ⟨largestFree out, rfl, rfl, ?_, ?_⟩⟩⟩
    · obtain ⟨size, hrun, hle⟩ := hroom
      exact absurd hle (Nat.not_le.mpr (hlarger size hrun))
    · intro size hrun
      obtain ⟨b, hb, hfree, rfl⟩ := (hcoal.free size).mpr hrun
      exact hle b hb hfree
    · rcases hlargest with hfound | ⟨hz, hall⟩
      · exact Or.inl ((hcoal.free _).mp hfound)
      · refine Or.inr ⟨hz, fun size hrun => ?_⟩
        obtain ⟨b, hb, hfree, -⟩ := (hcoal.free size).mpr hrun
        exact hall b hb hfree
  · have hb := htiles.mem (mem_append_right pre mem_cons_self)
    have hmcb := @Block.mcb_lt_next b
    rw [hpos]
    simp only [bind_some, split_spec hb.2 hsize, getElem?_length, set_length,
      add16_eq (show b.mcb + 1 ≤ END_SEGMENT by omega)]
    have hsplit : Tiles END_SEGMENT FIRST_MCB (pre ++ ⟨b.mcb, owner, ps.toNat⟩ ::
        (remainder b ps.toNat ++ post)) := tiles_split htiles hsize
    obtain ⟨m', hwr, hrew⟩ := rewritten m hsplit
    rw [hwr]
    refine ⟨_, _, _, rfl, hrew, ⟨fun _ => ?_, fun hlarger => ?_⟩⟩
    · refine ⟨⟨b.mcb, owner, ps.toNat⟩, mem_append_right pre mem_cons_self, rfl, rfl, rfl, ?_⟩
      intro c hc
      have hne : c ≠ b := fun h => hc (h ▸ hfree)
      have hrem : c ∉ remainder b ps.toNat := fun h => hc (remainder_free h)
      rw [← hcoal.same c hc]
      simp only [List.mem_append, List.mem_cons, hne, hrem, false_or]
      exact ⟨fun h => h.elim (fun h => Or.inl (Or.inl h)) fun h => h.elim Or.inr fun h => Or.inl (Or.inr h),
        fun h => h.elim (fun h => h.imp_right Or.inr) fun h => Or.inr (Or.inl h)⟩
    · have hrun := (hcoal.free b.paragraphs).mp ⟨b, mem_append_right pre mem_cons_self, hfree, rfl⟩
      exact absurd hsize (Nat.not_le.mpr (hlarger _ hrun))

theorem SameAllocated.allocatedAt {out : List Block} (h : SameAllocated blocks out) {seg : BitVec 16} :
    AllocatedAt out seg block ↔ AllocatedAt blocks seg block :=
  ⟨fun h' => ⟨(h block h'.owner).mp h'.mem, h'.owner, h'.segment⟩,
    fun h' => ⟨(h block h'.owner).mpr h'.mem, h'.owner, h'.segment⟩⟩

/-- A segment is of one block at most. -/
theorem AllocatedAt.unique (h : Tiles finish start blocks) {seg : BitVec 16} {a b : Block}
    (ha : AllocatedAt blocks seg a) (hb : AllocatedAt blocks seg b) : a = b := by
  by_contra hne
  have hapart := h.apart ha.mem hb.mem hne
  have hmcb := ha.segment.trans hb.segment.symm
  have hanext := @Block.mcb_lt_next a
  have hbnext := @Block.mcb_lt_next b
  omega

theorem allocatedBlock_spec (h : Tiles END_SEGMENT start blocks) (seg : BitVec 16) :
    (allocatedBlock blocks seg = some (.error .invalidMemoryBlock) ∧ ∀ b, ¬ AllocatedAt blocks seg b) ∨
      ∃ pre b post, blocks = pre ++ b :: post ∧ allocatedBlock blocks seg = some (.ok pre.length) ∧
        AllocatedAt blocks seg b := by
  have htest : ∀ b ∈ blocks, (do let data ← add16 b.mcb 1; pure (data = seg.toNat ∧ b.owner ≠ 0) : Option Bool) =
      some (decide (b.mcb + 1 = seg.toNat ∧ b.owner ≠ 0)) := by
    intro b hb
    have hnext := (h.mem hb).2
    have hmcb := @Block.mcb_lt_next b
    rw [add16_eq (by omega)]
    rfl
  unfold allocatedBlock
  rcases position_spec htest with ⟨hpos, hnone⟩ | ⟨pre, b, post, rfl, hpos, hseg, howner⟩
  · rw [hpos]
    exact Or.inl ⟨rfl, fun b hb => hnone b hb.mem ⟨hb.segment, hb.owner⟩⟩
  · rw [hpos]
    exact Or.inr ⟨pre, b, post, rfl, rfl, mem_append_right pre mem_cons_self, howner, hseg⟩

/-- A block of a tiling is there once. -/
theorem Tiles.not_mem (h : Tiles finish start (pre ++ block :: post)) : block ∉ pre ∧ block ∉ post := by
  obtain ⟨mid, hpre, hmcb, hpost⟩ := tiles_append.mp h
  have hnext := @Block.mcb_lt_next block
  constructor
  · intro hmem
    have hmem' := (hpre.mem hmem).2
    omega
  · intro hmem
    have hmem' := (hpost.mem hmem).1
    omega

theorem free_meets (h : Represents m blocks) (seg : BitVec 16) :
    ∃ result m' blocks', (Call.free seg).perform m = some (result, m') ∧ Rewritten m m' blocks' ∧
      FreeMeets seg blocks blocks' result m m' := by
  rw [Call.perform, free, readChain_iff.mpr h]
  simp only [bind_eq_bind, bind_some]
  rcases allocatedBlock_spec h.tiles seg with ⟨hblk, hnone⟩ | ⟨pre, b, post, rfl, hblk, hb⟩
  · rw [hblk]
    exact ⟨_, _, _, rfl, h.rewritten, fun block hblk => absurd hblk (hnone block), fun _ => ⟨rfl, rfl⟩⟩
  · have htiles : Tiles END_SEGMENT FIRST_MCB (pre ++ { b with owner := 0 } :: post) := by
      obtain ⟨mid, hpre, hmcb, hpost⟩ := tiles_append.mp h.tiles
      exact tiles_append.mpr ⟨mid, hpre, hmcb, hpost⟩
    obtain ⟨out, hout, hout', hcoal⟩ := coalesce_spec htiles (Nat.le_refl _)
    obtain ⟨m', hwr, hrew⟩ := rewritten m hout'
    rw [hblk]
    simp only [bind_some, getElem?_length, set_length, hout, hwr]
    refine ⟨_, _, _, rfl, hrew, fun block hblk => ⟨rfl, fun c hc => ?_⟩, fun hnone => absurd hb (hnone b)⟩
    obtain rfl := AllocatedAt.unique h.tiles hblk hb
    obtain ⟨hpre, hpost⟩ := h.tiles.not_mem
    have hfree : c ≠ { block with owner := 0 } := fun h => hc (h ▸ rfl)
    rw [hcoal.same c hc]
    simp only [List.mem_append, List.mem_cons, hfree, false_or]
    constructor
    · rintro (hmem | hmem)
      · exact ⟨Or.inl hmem, fun h => hpre (h ▸ hmem)⟩
      · exact ⟨Or.inr (Or.inr hmem), fun h => hpost (h ▸ hmem)⟩
    · rintro ⟨hmem, hne⟩
      exact hmem.imp_right fun hmem => hmem.resolve_left hne

theorem SameAllocated.fits {out : List Block} (h : SameAllocated blocks out) :
    Fits out block size ↔ Fits blocks block size :=
  and_congr_right fun _ => ⟨fun hall b hb hb' => hall b ((h b hb').mpr hb) hb', fun hall b hb hb' =>
    hall b ((h b hb').mp hb) hb'⟩

/-- The allocated blocks when a block is replaced in a tiling. -/
theorem mem_replaced {new c : Block} {post' : List Block} (h : Tiles finish start (pre ++ block :: post))
    (hpost : SameAllocated post post') (hc : c.owner ≠ 0) :
    c ∈ pre ++ new :: post' ↔ (c ∈ pre ++ block :: post ∧ c ≠ block) ∨ c = new := by
  obtain ⟨hpre, hpost'⟩ := h.not_mem
  rw [List.mem_append, List.mem_cons, hpost c hc, List.mem_append, List.mem_cons]
  constructor
  · rintro (hmem | hnew | hmem)
    · exact Or.inl ⟨Or.inl hmem, fun h => hpre (h ▸ hmem)⟩
    · exact Or.inr hnew
    · exact Or.inl ⟨Or.inr (Or.inr hmem), fun h => hpost' (h ▸ hmem)⟩
  · rintro (⟨hmem | hblk | hmem, hne⟩ | hnew)
    · exact Or.inl hmem
    · exact absurd hblk hne
    · exact Or.inr (Or.inr hmem)
    · exact Or.inr (Or.inl hnew)

theorem resize_meets (h : Represents m blocks) (seg ps : BitVec 16) :
    ∃ result m' blocks', (Call.resize seg ps).perform m = some (result, m') ∧ Rewritten m m' blocks' ∧
      ResizeMeets seg ps blocks blocks' result m m' := by
  obtain ⟨out, hout, htiles, hcoal⟩ := coalesce_spec h.tiles (Nat.le_refl _)
  rw [Call.perform, resize, readChain_iff.mpr h]
  simp only [bind_eq_bind, bind_some, hout]
  rcases allocatedBlock_spec htiles seg with ⟨hblk, hnone⟩ | ⟨pre, b, post, rfl, hblk, hb⟩
  · rw [hblk]
    exact ⟨_, _, _, rfl, h.rewritten, fun block hblk => absurd (hcoal.same.allocatedAt.mpr hblk) (hnone block),
      fun _ => ⟨rfl, rfl⟩⟩
  · have hb' := hcoal.same.allocatedAt.mp hb
    have hfits := fun size => hcoal.same.fits.symm.trans (@fits_iff pre post b _ size htiles hcoal.apart)
    obtain ⟨grown, post', hgrow, htiles', hsame, hle, hroom⟩ := @grow_spec pre post b _ ps.toNat htiles
    rw [hblk]
    simp only [bind_some, hgrow, getElem?_length]
    have hmeets : ∀ {result out' m'} post'',
        result = (if ps.toNat ≤ room b post then .ok none else .error (.insufficientMemory (room b post))) →
          SameAllocated post post'' →
            Coalesced (pre ++ { b with paragraphs := min ps.toNat (room b post) } :: post'') out' →
              ResizeMeets seg ps blocks out' result m m' := by
      intro result out' m' post'' hres hsame' hcoal'
      refine ⟨fun block hblk => ?_, fun hnone => absurd hb' (hnone b)⟩
      obtain rfl := AllocatedAt.unique h.tiles hblk hb'
      refine ⟨room block post, hfits, hres, fun c hc => ?_⟩
      rw [hcoal'.same c hc, mem_replaced htiles hsame' hc, hcoal.same c hc]
    by_cases hlt : grown < ps.toNat
    · obtain ⟨out', hout', htiles'', hcoal'⟩ := coalesce_spec htiles' (Nat.le_refl _)
      obtain ⟨m', hwr, hrew⟩ := rewritten m htiles''
      obtain rfl := hroom hlt
      simp only [if_pos hlt, hout', bind_some, hwr]
      refine ⟨_, _, _, rfl, hrew, hmeets post' (if_neg (Nat.not_le.mpr hlt)).symm hsame ?_⟩
      rw [Nat.min_eq_right (Nat.le_of_lt hlt)]
      exact hcoal'
    · have hsize := Nat.not_lt.mp hlt
      have hend := (htiles'.mem (mem_append_right pre mem_cons_self)).2
      have hsplit : Tiles END_SEGMENT FIRST_MCB (pre ++ { b with paragraphs := ps.toNat } ::
          (remainder { b with paragraphs := grown } ps.toNat ++ post')) := tiles_split htiles' hsize
      obtain ⟨out', hout', htiles'', hcoal'⟩ := coalesce_spec hsplit (Nat.le_refl _)
      obtain ⟨m', hwr, hrew⟩ := rewritten m htiles''
      have hsame' : SameAllocated post (remainder { b with paragraphs := grown } ps.toNat ++ post') := by
        intro c hc
        rw [List.mem_append, hsame c hc]
        exact or_iff_right fun hmem => hc (remainder_free hmem)
      simp only [if_neg hlt, split_spec hend hsize, bind_some, hout', hwr]
      refine ⟨_, _, _, rfl, hrew, hmeets _ (if_pos (hle.mp hsize)).symm hsame' ?_⟩
      rw [Nat.min_eq_left (hle.mp hsize)]
      exact hcoal'

/-- Every call on a valid chain does what it is meant to. -/
theorem Call.meets (call : Call) (h : Represents m blocks) :
    ∃ result m' blocks', call.perform m = some (result, m') ∧ Rewritten m m' blocks' ∧
      call.Meets blocks blocks' result m m' := by
  cases call with
  | allocate ps owner => exact allocate_meets h ps owner
  | free segment => exact free_meets h segment
  | resize segment ps => exact resize_meets h segment ps

/-- A chain that is not valid is reported and left alone. -/
theorem Call.corrupted (call : Call) (h : ¬ Valid m) : call.perform m = some (.error .memoryCorrupted, m) := by
  have hread := readChain_corrupted h
  cases call with
  | allocate ps owner => rw [Call.perform, Dos.allocate, hread]; rfl
  | free segment => rw [Call.perform, Dos.free, hread]; rfl
  | resize segment ps => rw [Call.perform, Dos.resize, hread]; rfl

/-- No call on a valid chain reports a corrupted memory. -/
theorem Call.Meets.not_corrupted {call : Call} {blocks' : List Block} {res : Except DosError (Option Nat)}
    (h : call.Meets blocks blocks' res m m') : res ≠ .error .memoryCorrupted := by
  rintro rfl
  cases call with
  | allocate ps owner =>
    by_cases hroom : ∃ size, FreeRun blocks size ∧ ps.toNat ≤ size
    · obtain ⟨new, -, -, -, hres, -⟩ := AllocateMeets.success h hroom
      cases hres
    · obtain ⟨available, -, hres, -⟩ :=
        AllocateMeets.failure h fun size hrun => Nat.not_le.mp fun hle => hroom ⟨size, hrun, hle⟩
      cases hres
  | free segment =>
    by_cases hblk : ∃ block, AllocatedAt blocks segment block
    · obtain ⟨block, hblk⟩ := hblk
      cases (FreeMeets.success h block hblk).1
    · cases (FreeMeets.failure h fun block hb => hblk ⟨block, hb⟩).1
  | resize segment ps =>
    by_cases hblk : ∃ block, AllocatedAt blocks segment block
    · obtain ⟨block, hblk⟩ := hblk
      obtain ⟨room, -, hres, -⟩ := ResizeMeets.success h block hblk
      split at hres
      · cases hres
      · cases hres
    · cases (ResizeMeets.failure h fun block hb => hblk ⟨block, hb⟩).1

/-- A call always returns. It reports a corrupted memory exactly when the chain is not valid and then writes nothing;
    on a valid chain it does what it is meant to. -/
theorem Call.spec (call : Call) (m : Memory) : ∃ result m', call.perform m = some (result, m') ∧
    (result = .error .memoryCorrupted ↔ ¬ Valid m) ∧ (¬ Valid m → m' = m) ∧
      ∀ blocks, Represents m blocks → ∃ blocks', Rewritten m m' blocks' ∧ call.Meets blocks blocks' result m m' := by
  by_cases hvalid : Valid m
  · obtain ⟨blocks, hblocks⟩ := hvalid
    obtain ⟨result, m', blocks', hperform, hrew, hmeets⟩ := call.meets hblocks
    refine ⟨result, m', hperform, ?_, fun h => absurd ⟨blocks, hblocks⟩ h, fun others hothers => ?_⟩
    · exact iff_of_false hmeets.not_corrupted fun h => h ⟨blocks, hblocks⟩
    · obtain rfl := hothers.unique hblocks
      exact ⟨blocks', hrew, hmeets⟩
  · exact ⟨_, m, call.corrupted hvalid, iff_of_true rfl hvalid, fun _ => rfl,
      fun blocks hblocks => absurd ⟨blocks, hblocks⟩ hvalid⟩

/-- A reset arena is one free block. -/
theorem reset_represents (m : Memory) :
    ∃ m', reset m = some m' ∧ Represents m' [⟨FIRST_MCB, 0, AVAILABLE_PARAGRAPHS⟩] := by
  have htiles : Tiles END_SEGMENT FIRST_MCB [⟨FIRST_MCB, 0, AVAILABLE_PARAGRAPHS⟩] := ⟨rfl, rfl⟩
  obtain ⟨m', hwr, hrew⟩ := rewritten m htiles
  exact ⟨m', hwr, hrew.represents⟩

theorem run_valid (m : Memory) (calls : List Call) : ∃ now, run m calls = some now ∧ (Valid m → Valid now) := by
  induction calls generalizing m with
  | nil => exact ⟨m, rfl, id⟩
  | cons call calls ih =>
    obtain ⟨result, m', hperform, -, -, hspec⟩ := call.spec m
    obtain ⟨now, hrun, hvalid⟩ := ih m'
    refine ⟨now, ?_, fun hvalid' => ?_⟩
    · rw [run, hperform]
      exact hrun
    · obtain ⟨blocks, hblocks⟩ := hvalid'
      obtain ⟨blocks', hrew, -⟩ := hspec blocks hblocks
      exact hvalid ⟨blocks', hrew.represents⟩

/-- The arena stays a partition. A list of calls returns and keeps a valid chain valid; the next call returns, reports
    a corrupted memory exactly when the chain is not valid and then writes nothing, and otherwise leaves a valid chain
    with disjoint data areas and all their bytes as they were, and meets its specification. -/
theorem arena_partition (m : Memory) (calls : List Call) : ∃ now, run m calls = some now ∧ (Valid m → Valid now) ∧
    ∀ call : Call, ∃ result m', call.perform now = some (result, m') ∧
      (result = .error .memoryCorrupted ↔ ¬ Valid now) ∧ (¬ Valid now → m' = now) ∧
        ∀ blocks, Represents now blocks →
          ∃ blocks', Rewritten now m' blocks' ∧ call.Meets blocks blocks' result now m' := by
  obtain ⟨now, hrun, hvalid⟩ := run_valid m calls
  exact ⟨now, hrun, hvalid, fun call => call.spec now⟩

end Relocade.Dos
