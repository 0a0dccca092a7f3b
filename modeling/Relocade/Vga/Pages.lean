import Mathlib.Data.List.Basic

/-!
# `Vga.Pages` — dirty pages of physical video memory

One bit for each physical page, and the ranges of consecutive dirty pages. The ranges of a block hold exactly its
dirty pages (`mem_runs_iff`).
-/

namespace Relocade.Vga

def BLOCK_BYTES : Nat := 65536

def PAGE_BYTES : Nat := 1024

def VIDEO_MEMORY_BYTES : Nat := 4 * 1024 * 1024

def BLOCKS : Nat := VIDEO_MEMORY_BYTES / BLOCK_BYTES

/-- One bit for each physical 1-KiB page, independent of the display layout. -/
abbrev DirtyPages := Nat → BitVec 64

namespace DirtyPages

def default : DirtyPages := fun _ => 0

def merge (pages other : DirtyPages) : DirtyPages := fun block => pages block ||| other block

def mark (pages : DirtyPages) (block offset : Nat) : DirtyPages := fun other =>
  if other = block then pages other ||| (1 : BitVec 64) <<< (offset / PAGE_BYTES) else pages other

def markBlock (pages : DirtyPages) (block : Nat) : DirtyPages := fun other =>
  if other = block then BitVec.allOnes 64 else pages other

/-- Whether a byte of a block lies in a dirty page. -/
def isDirty (pages : DirtyPages) (block offset : Nat) : Bool := (pages block).getLsbD (offset / PAGE_BYTES)

variable {pages other : DirtyPages} {block block' offset offset' : Nat}

@[simp] theorem isDirty_merge :
    isDirty (pages.merge other) block offset = (isDirty pages block offset || isDirty other block offset) :=
  BitVec.getLsbD_or

theorem page_lt (h : offset < BLOCK_BYTES) : offset / PAGE_BYTES < 64 := by
  rw [BLOCK_BYTES] at h
  rw [PAGE_BYTES]
  omega

theorem isDirty_mark (h : offset < BLOCK_BYTES) :
    isDirty (pages.mark block' offset') block offset =
      (isDirty pages block offset || (decide (block = block') && decide (offset / PAGE_BYTES = offset' / PAGE_BYTES))) := by
  have hpage := page_lt h
  unfold isDirty mark
  split
  next heq =>
    rw [BitVec.getLsbD_or, decide_eq_true heq, Bool.true_and]
    have hbit : ((1 : BitVec 64) <<< (offset' / PAGE_BYTES)).getLsbD (offset / PAGE_BYTES) =
        decide (offset / PAGE_BYTES = offset' / PAGE_BYTES) := by
      rw [BitVec.getLsbD_shiftLeft, decide_eq_true hpage, Bool.true_and]
      by_cases hle : offset / PAGE_BYTES < offset' / PAGE_BYTES
      · rw [decide_eq_true hle, Bool.not_true, Bool.false_and, decide_eq_false (Nat.ne_of_lt hle)]
      · rw [decide_eq_false hle, Bool.not_false, Bool.true_and]
        refine (BitVec.getLsbD_one (w := 64)).trans ?_
        rw [decide_eq_true (by decide : 0 < 64), Bool.true_and]
        exact decide_eq_decide.mpr (by omega)
    rw [hbit]
  next hne => rw [decide_eq_false hne, Bool.false_and, Bool.or_false]

/-- Every block marked. -/
theorem isDirty_foldl_markBlock (pages : DirtyPages) (h : offset < BLOCK_BYTES) {count : Nat} (hblk : block < count) :
    isDirty ((List.range count).foldl markBlock pages) block offset = true := by
  have hpage := page_lt h
  induction count with
  | zero => cases hblk
  | succ count ih =>
    rw [List.range_succ, List.foldl_append]
    show isDirty (markBlock _ count) block offset = true
    unfold isDirty markBlock
    split
    next => rw [BitVec.getLsbD_allOnes, decide_eq_true hpage]
    next hne => exact ih (by omega)

end DirtyPages

/-! ## Consecutive pages -/

/-- The first bit position that satisfies a predicate, or the width. -/
def firstBit (p : Nat → Bool) : Nat := ((List.range 64).find? p).getD 64

theorem firstBit_spec (p : Nat → Bool) :
    firstBit p ≤ 64 ∧ (∀ i, i < firstBit p → p i = false) ∧ (firstBit p < 64 → p (firstBit p) = true) := by
  unfold firstBit
  cases h : (List.range 64).find? p with
  | none =>
    refine ⟨Nat.le_refl 64, fun i hi => ?_, fun hlt => absurd hlt (Nat.lt_irrefl 64)⟩
    have hnone := List.find?_range_eq_none.mp h i hi
    exact (Bool.not_eq_true' (p i)).mp hnone
  | some n =>
    obtain ⟨hn, hmem, hbef⟩ := List.find?_range_eq_some.mp h
    refine ⟨Nat.le_of_lt (List.mem_range.mp hmem), fun i hi => ?_, fun _ => hn⟩
    exact (Bool.not_eq_true' (p i)).mp (hbef i hi)

def trailingZeros (pages : BitVec 64) : Nat := firstBit pages.getLsbD

def trailingOnes (pages : BitVec 64) : Nat := firstBit fun i => !pages.getLsbD i

/-- The end of the run of set bits that starts at `start`. -/
def runEnd (pages : BitVec 64) (start : Nat) : Nat := start + trailingOnes (pages >>> start)

/-- The pages left after a run. -/
def pagesFrom (pages : BitVec 64) (runEnd : Nat) : BitVec 64 :=
  if runEnd = 64 then 0 else pages &&& (BitVec.allOnes 64 <<< runEnd)

theorem getLsbD_pagesFrom (pages : BitVec 64) (runEnd : Nat) {i : Nat} (hi : i < 64) :
    (pagesFrom pages runEnd).getLsbD i = (pages.getLsbD i && decide (runEnd ≤ i)) := by
  unfold pagesFrom
  split
  next h =>
    subst h
    rw [decide_eq_false (by omega), Bool.and_false]
    exact BitVec.getLsbD_zero
  next h =>
    rw [BitVec.getLsbD_and, BitVec.getLsbD_shiftLeft, decide_eq_true hi, Bool.true_and]
    by_cases hle : runEnd ≤ i
    · rw [decide_eq_true hle, decide_eq_false (Nat.not_lt.mpr hle), BitVec.getLsbD_allOnes,
        decide_eq_true (show i - runEnd < 64 by omega), Bool.not_false, Bool.and_true]
    · rw [decide_eq_false hle, decide_eq_true (Nat.lt_of_not_le hle), Bool.not_true, Bool.false_and]

variable {pages : BitVec 64}

/-- A run of a nonzero bitmap starts at its first set bit and covers set bits only. -/
theorem firstRun_spec (h : pages ≠ 0) :
    trailingZeros pages < runEnd pages (trailingZeros pages) ∧ runEnd pages (trailingZeros pages) ≤ 64 ∧
      ∀ i, i < runEnd pages (trailingZeros pages) → pages.getLsbD i = decide (trailingZeros pages ≤ i) := by
  obtain ⟨-, hbef, hat⟩ := firstBit_spec pages.getLsbD
  obtain ⟨-, hones, hend⟩ := firstBit_spec fun i => !(pages >>> trailingZeros pages).getLsbD i
  have hlt : trailingZeros pages < 64 := by
    refine Nat.lt_of_not_le fun hge => h (BitVec.eq_of_getLsbD_eq fun i hi => ?_)
    rw [hbef i (Nat.lt_of_lt_of_le hi hge)]
    exact BitVec.getLsbD_zero.symm
  have hset (i : Nat) (hi : i < trailingOnes (pages >>> trailingZeros pages)) :
      pages.getLsbD (trailingZeros pages + i) = true := by
    have hone := hones i hi
    rw [BitVec.getLsbD_ushiftRight, Bool.not_eq_false'] at hone
    exact hone
  have hsome : 0 < trailingOnes (pages >>> trailingZeros pages) := by
    refine Nat.pos_of_ne_zero fun hz => ?_
    have hclear := hend (Nat.lt_of_le_of_lt (Nat.le_of_eq hz) (by decide))
    rw [show firstBit _ = 0 from hz, BitVec.getLsbD_ushiftRight, Nat.add_zero] at hclear
    rw [show pages.getLsbD (trailingZeros pages) = true from hat hlt] at hclear
    exact Bool.false_ne_true hclear
  refine ⟨Nat.lt_add_of_pos_right hsome, Nat.le_of_not_lt fun hlong => ?_, fun i hi => ?_⟩
  · have hbeyond := hset (64 - trailingZeros pages) (by rw [runEnd] at hlong; omega)
    rw [show trailingZeros pages + (64 - trailingZeros pages) = 64 by omega, BitVec.getLsbD_of_ge pages 64 (Nat.le_refl 64)]
      at hbeyond
    exact Bool.false_ne_true hbeyond
  · by_cases hle : trailingZeros pages ≤ i
    · obtain ⟨j, rfl⟩ := Nat.exists_eq_add_of_le hle
      rw [decide_eq_true hle]
      exact hset j (Nat.lt_of_add_lt_add_left hi)
    · rw [decide_eq_false hle]
      exact hbef i (Nat.lt_of_not_le hle)

/-- Every run leaves fewer pages. -/
theorem toNat_pagesFrom_lt (h : pages ≠ 0) :
    (pagesFrom pages (runEnd pages (trailingZeros pages))).toNat < pages.toNat := by
  obtain ⟨hlt, hle, hbits⟩ := firstRun_spec h
  refine Nat.lt_of_le_of_ne ?_ fun heq => ?_
  · unfold pagesFrom
    split
    · exact Nat.zero_le _
    · rw [BitVec.toNat_and]
      exact Nat.and_le_left
  · have hbit := getLsbD_pagesFrom pages (runEnd pages (trailingZeros pages)) (Nat.lt_of_lt_of_le hlt hle)
    rw [BitVec.eq_of_toNat_eq heq, hbits _ hlt, decide_eq_true (Nat.le_refl _), decide_eq_false (Nat.not_le.mpr hlt)]
      at hbit
    exact Bool.false_ne_true hbit.symm

/-- Consecutive set bits, as ranges of positions. -/
def runs (pages : BitVec 64) : List (Nat × Nat) :=
  if _h : pages = 0 then []
  else
    let start := trailingZeros pages
    let finish := runEnd pages start
    (start, finish) :: runs (pagesFrom pages finish)
termination_by pages.toNat
decreasing_by exact toNat_pagesFrom_lt _h

/-- The runs hold exactly the set bits, and stay within them. -/
theorem mem_runs_iff (pages : BitVec 64) {i : Nat} (hi : i < 64) :
    (∃ run ∈ runs pages, run.1 ≤ i ∧ i < run.2) ↔ pages.getLsbD i = true := by
  induction pages using runs.induct with
  | case1 =>
    rw [runs, dif_pos rfl, show BitVec.getLsbD (0 : BitVec 64) i = false from BitVec.getLsbD_zero]
    refine iff_of_false ?_ Bool.false_ne_true
    rintro ⟨run, hrun, -⟩
    exact absurd hrun List.not_mem_nil
  | case2 pages hpages start finish ih =>
    obtain ⟨hlt, hle, hbits⟩ := firstRun_spec hpages
    rw [getLsbD_pagesFrom pages _ hi] at ih
    rw [runs, dif_neg hpages]
    constructor
    · rintro ⟨run, hrun, hst, hfinish⟩
      rcases List.mem_cons.mp hrun with rfl | hrun
      · rw [hbits i hfinish]
        exact decide_eq_true hst
      · exact (Bool.and_eq_true_iff.mp (ih.mp ⟨run, hrun, hst, hfinish⟩)).1
    · intro hset
      by_cases hfst : i < finish
      · rw [hbits i hfst] at hset
        exact ⟨(start, finish), List.mem_cons_self, of_decide_eq_true hset, hfst⟩
      · obtain ⟨run, hrun, hin⟩ := ih.mpr (Bool.and_eq_true_iff.mpr ⟨hset, decide_eq_true (Nat.le_of_not_lt hfst)⟩)
        exact ⟨run, List.mem_cons_of_mem _ hrun, hin⟩

theorem run_le {run : Nat × Nat} (h : run ∈ runs pages) : run.1 < run.2 ∧ run.2 ≤ 64 := by
  induction pages using runs.induct with
  | case1 =>
    rw [runs, dif_pos rfl] at h
    exact absurd h List.not_mem_nil
  | case2 pages hpages start finish ih =>
    obtain ⟨hlt, hle, -⟩ := firstRun_spec hpages
    rw [runs, dif_neg hpages] at h
    rcases List.mem_cons.mp h with rfl | h
    · exact ⟨hlt, hle⟩
    · exact ih h

/-- Consecutive dirty pages become one byte range within this block. -/
def DirtyPages.ranges (pages : DirtyPages) (block : Nat) : List (Nat × Nat) :=
  (runs (pages block)).map fun run => (run.1 * PAGE_BYTES, run.2 * PAGE_BYTES)

/-- The ranges of a block hold the bytes of its dirty pages. -/
theorem mem_ranges_iff (pages : DirtyPages) {block offset : Nat} (h : offset < BLOCK_BYTES) :
    (∃ range ∈ pages.ranges block, range.1 ≤ offset ∧ offset < range.2) ↔ pages.isDirty block offset = true := by
  rw [DirtyPages.isDirty, ← mem_runs_iff (pages block) (DirtyPages.page_lt h)]
  unfold DirtyPages.ranges PAGE_BYTES
  constructor
  · rintro ⟨range, hrng, hin⟩
    obtain ⟨run, hrun, rfl⟩ := List.mem_map.mp hrng
    exact ⟨run, hrun, by omega, by omega⟩
  · rintro ⟨run, hrun, hin⟩
    exact ⟨_, List.mem_map_of_mem hrun, by dsimp only; omega, by dsimp only; omega⟩

theorem range_le {pages : DirtyPages} {block : Nat} {range : Nat × Nat} (h : range ∈ pages.ranges block) :
    range.1 < range.2 ∧ range.2 ≤ BLOCK_BYTES := by
  obtain ⟨run, hrun, rfl⟩ := List.mem_map.mp h
  obtain ⟨hlt, hle⟩ := run_le hrun
  unfold PAGE_BYTES BLOCK_BYTES
  dsimp only
  omega

end Relocade.Vga
