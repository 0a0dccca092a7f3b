import Relocade.Run
import Relocade.Vga.Capture

/-!
# `Vga.Upload` — incremental uploads reproduce captures

Every reachable system keeps dirty pages that cover all differences from the baselines they stand on (`Invariant`).
So an upload leaves the destination equal to the uploaded snapshot on all of its blocks, whatever was uploaded
before, and no held snapshot ever changes (`uploads_reproduce`).
-/

namespace Relocade.Vga

open CopyOnWrite

variable {heap heap' : Heap Block} {storage storage' : Storage} {held : List (List Nat)} {pages pages' : DirtyPages}

/-! ## Clean bytes -/

/-- Two blocks hold the same bytes outside the dirty pages of a block. -/
def Agree (heap : Heap Block) (pages : DirtyPages) (block i j : Nat) : Prop :=
  ∀ offset, offset < BLOCK_BYTES → pages.isDirty block offset = false → heap.contents i offset = heap.contents j offset

variable {block i j : Nat}

theorem Agree.merge_left (h : Agree heap pages block i j) : Agree heap (pages.merge pages') block i j := by
  intro offset hoff hclean
  rw [DirtyPages.isDirty_merge, Bool.or_eq_false_iff] at hclean
  exact h offset hoff hclean.1

theorem Agree.merge_right (h : Agree heap pages block i j) : Agree heap (pages'.merge pages) block i j := by
  intro offset hoff hclean
  rw [DirtyPages.isDirty_merge, Bool.or_eq_false_iff] at hclean
  exact h offset hoff hclean.2

theorem Agree.merge_comm (h : Agree heap (pages.merge pages') block i j) :
    Agree heap (pages'.merge pages) block i j := by
  intro offset hoff hclean
  rw [DirtyPages.isDirty_merge, Bool.or_comm, ← DirtyPages.isDirty_merge] at hclean
  exact h offset hoff hclean

/-- What writes and clears do: held blocks keep their bytes, and a clean byte is what it was. -/
structure Change (held : List (List Nat)) (heap : Heap Block) (storage : Storage) (heap' : Heap Block)
    (storage' : Storage) : Prop where
  next_le : heap.next ≤ heap'.next
  blocks_lt : ∀ block, storage'.blocks block < heap'.next
  keeps : ∀ ids ∈ held, ∀ id ∈ ids, heap'.contents id = heap.contents id
  clean : ∀ block offset, block < BLOCKS → offset < BLOCK_BYTES → storage'.changed.isDirty block offset = false →
    storage.changed.isDirty block offset = false ∧
      heap'.contents (storage'.blocks block) offset = heap.contents (storage.blocks block) offset

theorem clear_change (storage : Storage) (hheld : ∀ ids ∈ held, ∀ id ∈ ids, id < heap.next) :
    Change held heap storage (Storage.clear heap).2 (Storage.clear heap).1 where
  next_le := Nat.le_succ _
  blocks_lt _ := Nat.lt_succ_self _
  keeps ids hids id hid := Heap.alloc_other (hheld ids hids id hid)
  clean block offset hblk hoff hclean := by
    have hdirty := DirtyPages.isDirty_foldl_markBlock DirtyPages.default hoff hblk
    rw [show (Storage.clear heap).1.changed = (List.range BLOCKS).foldl DirtyPages.markBlock DirtyPages.default from rfl,
      hdirty] at hclean
    exact absurd hclean.symm Bool.false_ne_true

/-- A unique block is no one else's. -/
theorem unique_spec {block : Nat} (h : storage.unique held block = true) :
    (∀ other, other < BLOCKS → other ≠ block → storage.blocks other ≠ storage.blocks block) ∧
      ∀ ids ∈ held, storage.blocks block ∉ ids := by
  unfold Storage.unique at h
  obtain ⟨hblocks, hheld⟩ := Bool.and_eq_true_iff.mp h
  refine ⟨fun other hother hne => ?_, fun ids hids hmem => ?_⟩
  · have hother := List.all_eq_true.mp hblocks other (List.mem_range.mpr hother)
    rcases Bool.or_eq_true_iff.mp hother with heq | hdiffer
    · exact absurd (of_decide_eq_true heq) hne
    · exact of_decide_eq_true hdiffer
  · have hcont := List.all_eq_true.mp hheld ids hids
    rw [List.contains_iff_mem.mpr hmem] at hcont
    exact Bool.false_ne_true hcont

theorem write_change (addr : Nat) (value : BitVec 8)
    (hblocks : ∀ block, storage.blocks block < heap.next) (hheld : ∀ ids ∈ held, ∀ id ∈ ids, id < heap.next) :
    Change held heap storage (storage.write heap held addr value).2 (storage.write heap held addr value).1 := by
  unfold Storage.write
  dsimp only
  have hoff : (Storage.location addr).2 < BLOCK_BYTES := Nat.mod_lt _ (by decide)
  generalize hblk : (Storage.location addr).1 = block
  generalize (Storage.location addr).2 = offset at hoff
  split
  next => exact ⟨Nat.le_refl _, hblocks, fun _ _ _ _ => rfl, fun _ _ _ _ hclean => ⟨hclean, rfl⟩⟩
  next =>
    refine ⟨Heap.next_le_makeMut, fun other => ?_, fun ids hids id hid => ?_, ?_⟩
    · show (if other = block then _ else storage.blocks other) < _
      split
      · exact Heap.makeMut_lt (hblocks block)
      · exact Nat.lt_of_lt_of_le (hblocks other) Heap.next_le_makeMut
    · refine Heap.makeMut_other (hheld ids hids id hid) fun hunique heq => ?_
      exact (unique_spec hunique).2 ids hids (heq ▸ hid)
    · intro other i hother hi hclean
      rw [DirtyPages.isDirty_mark hi, Bool.or_eq_false_iff] at hclean
      refine ⟨hclean.1, ?_⟩
      show (Heap.contents _ (if other = block then _ else storage.blocks other) : Block) i = _
      split
      next heq =>
        subst heq
        rw [Heap.contents_makeMut]
        refine if_neg ?_
        rintro rfl
        simp at hclean
      next hne =>
        rw [Heap.makeMut_other (hblocks other) fun hunique => (unique_spec hunique).1 other hother hne]

/-! ## Hints -/

variable {ρ : Type} {display frame : DisplaySnapshot ρ} {changes : MemoryChanges}

/-- Hints cover every difference from their baseline. -/
def Sound (heap : Heap Block) (display : DisplaySnapshot ρ) : Prop :=
  ∀ changes, display.changes = some changes → ∀ block i j, changes.baseline.blocks[block]? = some i →
    display.memory.blocks[block]? = some j → Agree heap changes.pages block i j

/-- The frame, and the baseline of its pending hints, differ from physical memory in dirty pages only. -/
structure Current (heap : Heap Block) (storage : Storage) (dirty : DirtyPages) (frame : DisplaySnapshot ρ) : Prop where
  memory : ∀ block i, frame.memory.blocks[block]? = some i → Agree heap dirty block i (storage.blocks block)
  pending : ∀ changes, frame.changes = some changes → ∀ block i, changes.baseline.blocks[block]? = some i →
    Agree heap (changes.pages.merge dirty) block i (storage.blocks block)

/-- A destination equals a snapshot's memory on all of its blocks. -/
def Holds (heap : Heap Block) (buffer : Memory) (memory : MemorySnapshot) : Prop :=
  ∀ block id, memory.blocks[block]? = some id → ∀ offset, offset < BLOCK_BYTES →
    buffer (block * BLOCK_BYTES + offset) = heap.contents id offset

/-- The blocks of a snapshot keep their bytes. -/
def Kept (heap heap' : Heap Block) (display : DisplaySnapshot ρ) : Prop :=
  ∀ ids ∈ display.held, ∀ id ∈ ids, heap'.contents id = heap.contents id

theorem mem_held_iff {ids : List Nat} : ids ∈ display.held ↔
    ids = display.memory.blocks ∨ ∃ changes, display.changes = some changes ∧ ids = changes.baseline.blocks := by
  unfold DisplaySnapshot.held
  cases display.changes with
  | none =>
    rw [List.mem_singleton]
    exact ⟨Or.inl, fun h => h.resolve_right fun ⟨_, h, _⟩ => absurd h.symm (Option.some_ne_none _)⟩
  | some changes =>
    rw [List.mem_cons, List.mem_singleton]
    refine or_congr_right ⟨fun h => ⟨changes, rfl, h⟩, ?_⟩
    rintro ⟨changes', hchg, rfl⟩
    rw [Option.some.inj hchg]

theorem memory_mem_held (display : DisplaySnapshot ρ) : display.memory.blocks ∈ display.held :=
  mem_held_iff.mpr (Or.inl rfl)

theorem baseline_mem_held (h : display.changes = some changes) : changes.baseline.blocks ∈ display.held :=
  mem_held_iff.mpr (Or.inr ⟨changes, h, rfl⟩)

theorem Kept.memory (h : Kept heap heap' display) {block i : Nat} (hi : display.memory.blocks[block]? = some i) :
    heap'.contents i = heap.contents i :=
  h _ (memory_mem_held display) i (List.mem_of_getElem? hi)

theorem Kept.baseline (h : Kept heap heap' display) (hchg : display.changes = some changes) {block i : Nat}
    (hi : changes.baseline.blocks[block]? = some i) : heap'.contents i = heap.contents i :=
  h _ (baseline_mem_held hchg) i (List.mem_of_getElem? hi)

theorem Sound.kept (h : Sound heap display) (hkept : Kept heap heap' display) : Sound heap' display := by
  intro changes hchg block i j hi hj offset hoff hclean
  rw [hkept.baseline hchg hi, hkept.memory hj]
  exact h changes hchg block i j hi hj offset hoff hclean

/-- Writes keep the frame current. -/
theorem Current.change (h : Current heap storage storage.changed frame)
    (hchange : Change held heap storage heap' storage') (hkept : Kept heap heap' frame) :
    Current heap' storage' storage'.changed frame where
  memory block i hi offset hoff hclean := by
    have hblk : block < BLOCKS := Nat.lt_of_lt_of_le (List.getElem?_eq_some_iff.mp hi).1 frame.memory.length_le
    obtain ⟨hclean', hbytes⟩ := hchange.clean block offset hblk hoff hclean
    rw [hkept.memory hi, hbytes]
    exact h.memory block i hi offset hoff hclean'
  pending changes hchg block i hi offset hoff hclean := by
    have hblk : block < BLOCKS := Nat.lt_of_lt_of_le (List.getElem?_eq_some_iff.mp hi).1 changes.baseline.length_le
    rw [DirtyPages.isDirty_merge, Bool.or_eq_false_iff] at hclean
    obtain ⟨hclean', hbytes⟩ := hchange.clean block offset hblk hoff hclean.2
    rw [hkept.baseline hchg hi, hbytes]
    refine h.pending changes hchg block i hi offset hoff ?_
    rw [DirtyPages.isDirty_merge, hclean.1, hclean']
    rfl

/-! ## Uploads -/

/-- What a destination should hold of a snapshot. -/
def target (heap : Heap Block) (memory : MemorySnapshot) : Memory := fun x =>
  heap.contents (memory.blocks.getD (x / BLOCK_BYTES) 0) (x % BLOCK_BYTES)

theorem target_apply (heap : Heap Block) (memory : MemorySnapshot) (block : Nat) {offset : Nat}
    (h : offset < BLOCK_BYTES) :
    target heap memory (block * BLOCK_BYTES + offset) = heap.contents (memory.blocks.getD block 0) offset := by
  have hpos : 0 < BLOCK_BYTES := by decide
  rw [target, Nat.mul_comm, Nat.mul_add_div hpos, Nat.mul_add_mod, Nat.div_eq_of_lt h, Nat.mod_eq_of_lt h, Nat.add_zero]

theorem target_read (heap : Heap Block) (memory : MemorySnapshot) (block : Nat) {start count : Nat}
    (h : start + count ≤ BLOCK_BYTES) :
    (target heap memory).read (block * BLOCK_BYTES + start) count =
      Memory.read (heap.contents (memory.blocks.getD block 0)) start count := by
  refine List.map_congr_left fun i hi => ?_
  have hi := List.mem_range.mp hi
  rw [Nat.add_assoc]
  exact target_apply heap memory block (by omega)

/-- Every write of a block is of the block's bytes. -/
theorem writeBlock_agree {memory : MemorySnapshot} {block : Nat} {changes : Option MemoryChanges}
    {write : Nat × List (BitVec 8)}
    (h : write ∈ writeBlock (heap.contents (memory.blocks.getD block 0)) changes block) :
    (target heap memory).read write.1 write.2.length = write.2 := by
  unfold writeBlock at h
  split at h
  next changes =>
    obtain ⟨range, hrng, rfl⟩ := List.mem_map.mp h
    obtain ⟨hlt, hle⟩ := range_le hrng
    rw [Memory.length_read]
    exact target_read heap memory block (by omega)
  next =>
    obtain rfl := List.mem_singleton.mp h
    have hread := @target_read heap memory block 0 BLOCK_BYTES (Nat.le_of_eq (Nat.zero_add _))
    rw [Nat.add_zero (block * BLOCK_BYTES)] at hread
    dsimp only
    rw [Memory.length_read BLOCK_BYTES]
    exact hread

/-- A byte of a block is written when it is dirty, or when no hints apply. -/
theorem writeBlock_covers (bytes : Block) (changes : Option MemoryChanges) {block offset : Nat}
    (hoff : offset < BLOCK_BYTES)
    (h : ∀ hints, changes = some hints → hints.pages.isDirty block offset = true) :
    ∃ write ∈ writeBlock bytes changes block,
      write.1 ≤ block * BLOCK_BYTES + offset ∧ block * BLOCK_BYTES + offset < write.1 + write.2.length := by
  unfold writeBlock
  split
  next hints =>
    obtain ⟨range, hrng, hst, hfinish⟩ := (mem_ranges_iff hints.pages hoff).mpr (h hints rfl)
    refine ⟨_, List.mem_map_of_mem hrng, ?_, ?_⟩
    · dsimp only
      omega
    · dsimp only
      rw [Memory.length_read]
      omega
  next =>
    refine ⟨_, List.mem_singleton_self _, Nat.le_add_right _ _, ?_⟩
    rw [Memory.length_read]
    exact Nat.add_lt_add_left hoff _

/-- Hints that apply are the snapshot's own, over the block that was last uploaded. -/
theorem applicable_spec {prev : Option Nat} {changes : Option MemoryChanges} {block : Nat} {hints : MemoryChanges}
    (h : applicable prev changes block = some hints) :
    changes = some hints ∧ ∃ id, prev = some id ∧ hints.baseline.blocks[block]? = some id := by
  obtain ⟨hchg, hmatch⟩ := Option.filter_eq_some_iff.mp h
  refine ⟨hchg, ?_⟩
  split at hmatch
  next prev baseline hbaseline =>
    obtain rfl := of_decide_eq_true hmatch
    exact ⟨prev, rfl, hbaseline⟩
  next => exact absurd hmatch Bool.false_ne_true

/-- An upload of sound hints over a destination that holds the last upload leaves it holding the snapshot. -/
theorem holds_upload {prev : Option MemorySnapshot} {buffer : Memory} (hsound : Sound heap display)
    (hbuffer : ∀ memory, prev = some memory → Holds heap buffer memory) :
    Holds heap (buffer.writeAll (writeBlocks heap prev display)) display.memory := by
  intro block id hid offset hoff
  obtain ⟨hblk, hget⟩ := List.getElem?_eq_some_iff.mp hid
  have hgetD : display.memory.blocks.getD block 0 = id := by
    rw [List.getD_eq_getElem?_getD, hid]
    rfl
  have htarget := target_apply heap display.memory block hoff
  rw [hgetD] at htarget
  rw [← htarget]
  refine Memory.writeAll_agree (fun write hwr => ?_) _ ?_
  · obtain ⟨block', -, hwr⟩ := List.mem_flatMap.mp hwr
    dsimp only at hwr
    split at hwr
    · exact absurd hwr List.not_mem_nil
    · exact writeBlock_agree hwr
  · rw [htarget]
    generalize hlast : (prev.bind fun memory => memory.blocks[block]?) = last
    have hheld (last' : Nat) (h : last = some last') :
        buffer (block * BLOCK_BYTES + offset) = heap.contents last' offset := by
      obtain ⟨memory, hprev, hlast'⟩ := Option.bind_eq_some_iff.mp (hlast.trans h)
      exact hbuffer memory hprev block last' hlast' offset hoff
    by_cases hsame : last = some id
    · exact Or.inl (hheld id hsame)
    · by_cases hclean : ∃ hints, applicable last display.changes block = some hints ∧
          hints.pages.isDirty block offset = false
      · obtain ⟨hints, happlicable, hclean⟩ := hclean
        obtain ⟨hchg, last', hlast', hbaseline⟩ := applicable_spec happlicable
        left
        rw [hheld last' hlast']
        exact hsound hints hchg block last' id hbaseline hid offset hoff hclean
      · right
        obtain ⟨write, hwr, hin⟩ := writeBlock_covers (heap.contents id)
          (applicable last display.changes block) hoff fun hints happlicable =>
            Bool.not_eq_false _ |>.mp fun hclean' => hclean ⟨hints, happlicable, hclean'⟩
        refine ⟨write, List.mem_flatMap.mpr ⟨block, List.mem_range.mpr hblk, ?_⟩, hin⟩
        dsimp only
        rw [hlast, hgetD, if_neg hsame]
        exact hwr

/-! ## The invariant -/

namespace System

variable {s : System ρ}

/-- The pages changed since the frame was captured. -/
def dirty (s : System ρ) : DirtyPages :=
  match s.sampled with
  | none => s.storage.changed
  | some display =>
      match display.changes with
      | none => DirtyPages.default
      | some changes => changes.pages

/-- A prepared capture is physical memory, over the frame's. -/
structure Prepared (s : System ρ) (display : DisplaySnapshot ρ) : Prop where
  memory : ∀ block j, display.memory.blocks[block]? = some j → j = s.storage.blocks block
  baseline : display.changes.map MemoryChanges.baseline = s.frame.map DisplaySnapshot.memory

structure Invariant (s : System ρ) : Prop where
  blocks_lt : ∀ block, s.storage.blocks block < s.heap.next
  held_lt : ∀ ids ∈ s.held, ∀ id ∈ ids, id < s.heap.next
  retained : ∀ display ∈ s.retained, Sound s.heap display
  frame : ∀ frame, s.frame = some frame → Sound s.heap frame ∧ Current s.heap s.storage s.dirty frame
  sampled : ∀ display, s.sampled = some display → s.Prepared display
  buffer : ∀ memory, s.previous = some memory → Holds s.heap s.buffer memory

variable {ids : List Nat}

theorem mem_held : ids ∈ s.held ↔
    (∃ display, s.frame = some display ∧ ids ∈ display.held) ∨ (∃ display, s.sampled = some display ∧ ids ∈ display.held) ∨
      (∃ display ∈ s.retained, ids ∈ display.held) ∨ ∃ memory, s.previous = some memory ∧ ids = memory.blocks := by
  unfold held
  rw [List.mem_append, List.mem_append, List.mem_append, List.mem_flatMap, List.mem_flatMap, List.mem_flatMap,
    List.mem_map, or_assoc, or_assoc]
  simp only [Option.mem_toList, eq_comm]

variable {display : DisplaySnapshot ρ}

theorem frame_held (h : s.frame = some display)
    (hids : ids ∈ display.held) : ids ∈ s.held :=
  mem_held.mpr (Or.inl ⟨display, h, hids⟩)

theorem retained_held (h : display ∈ s.retained)
    (hids : ids ∈ display.held) : ids ∈ s.held :=
  mem_held.mpr (Or.inr (Or.inr (Or.inl ⟨display, h, hids⟩)))

theorem previous_held {memory : MemorySnapshot} (h : s.previous = some memory) : memory.blocks ∈ s.held :=
  mem_held.mpr (Or.inr (Or.inr (Or.inr ⟨memory, h, rfl⟩)))

variable (inputs : Inputs ρ)

theorem initial_invariant (buffer : Memory) : (initial inputs buffer).Invariant where
  blocks_lt _ := Nat.zero_lt_one
  held_lt _ hids := absurd hids List.not_mem_nil
  retained _ h := absurd h List.not_mem_nil
  frame _ h := absurd h.symm (Option.some_ne_none _)
  sampled _ h := absurd h.symm (Option.some_ne_none _)
  buffer _ h := absurd h.symm (Option.some_ne_none _)

section

variable (h : s.Invariant)

include h

/-- Device writes keep the invariant. -/
theorem Invariant.change (hsampled : s.sampled = none)
    (hchange : Change s.held s.heap s.storage heap' storage') :
    ({ s with heap := heap', storage := storage' } : System ρ).Invariant where
  blocks_lt := hchange.blocks_lt
  held_lt ids hids id hid := Nat.lt_of_lt_of_le (h.held_lt ids hids id hid) hchange.next_le
  retained display hdisp :=
    (h.retained display hdisp).kept fun ids hids => hchange.keeps ids (retained_held hdisp hids)
  frame frame hframe := by
    have hkept : Kept s.heap heap' frame := fun ids hids => hchange.keeps ids (frame_held hframe hids)
    obtain ⟨hsound, hcur⟩ := h.frame frame hframe
    refine ⟨hsound.kept hkept, ?_⟩
    unfold dirty at hcur ⊢
    rw [hsampled] at hcur ⊢
    exact hcur.change hchange hkept
  sampled display hdisp := absurd (hsampled.symm.trans hdisp).symm (Option.some_ne_none _)
  buffer memory hmemory block id hid offset hoff := by
    have hkeeps := hchange.keeps _ (previous_held hmemory) id (List.mem_of_getElem? hid)
    rw [hkeeps]
    exact h.buffer memory hmemory block id hid offset hoff

/-- A snapshot is of physical memory, over the frame's, with the pages changed since. -/
theorem Invariant.snapshot (hsampled : s.sampled = none) :
    Sound s.heap s.snapshot ∧ (∀ ids ∈ s.snapshot.held, ∀ id ∈ ids, id < s.heap.next) ∧
      ∀ block j, s.snapshot.memory.blocks[block]? = some j → j = s.storage.blocks block := by
  have hmemory : ∀ block j, s.snapshot.memory.blocks[block]? = some j → j = s.storage.blocks block := by
    intro block j hj
    rw [show s.snapshot.memory.blocks = (List.range (blockCount s.inputs.extent.val)).map s.storage.blocks from rfl,
      List.getElem?_map] at hj
    obtain ⟨block', hblk', rfl⟩ := Option.map_eq_some_iff.mp hj
    obtain ⟨hlt, rfl⟩ := List.getElem?_eq_some_iff.mp hblk'
    rw [List.getElem_range]
  have hbaseline (changes : MemoryChanges) (hchg : s.snapshot.changes = some changes) :
      ∃ frame, s.frame = some frame ∧ changes = ⟨frame.memory, s.storage.changed⟩ := by
    obtain ⟨frame, hframe, rfl⟩ := Option.map_eq_some_iff.mp hchg
    exact ⟨frame, hframe, rfl⟩
  refine ⟨?_, ?_, hmemory⟩
  · intro changes hchg block i j hi hj
    obtain ⟨frame, hframe, rfl⟩ := hbaseline changes hchg
    have hcur := (h.frame frame hframe).2.memory block i hi
    rw [dirty, hsampled] at hcur
    rw [hmemory block j hj]
    exact hcur
  · intro ids hids id hid
    rcases mem_held_iff.mp hids with rfl | ⟨changes, hchg, rfl⟩
    · obtain ⟨block, hblk⟩ := List.mem_iff_getElem?.mp hid
      rw [hmemory block id hblk]
      exact h.blocks_lt block
    · obtain ⟨frame, hframe, rfl⟩ := hbaseline changes hchg
      exact h.held_lt _ (frame_held hframe (memory_mem_held frame)) id hid

/-- Handing out a sound snapshot keeps the invariant. -/
theorem Invariant.retain (hsound : Sound s.heap display)
    (hlt : ∀ ids ∈ display.held, ∀ id ∈ ids, id < s.heap.next) : (s.retain display).Invariant where
  blocks_lt := h.blocks_lt
  held_lt ids hids := by
    rcases mem_held.mp hids with hframe | hsampled | ⟨other, hother, hmem⟩ | hprev
    · exact h.held_lt ids (mem_held.mpr (Or.inl hframe))
    · exact h.held_lt ids (mem_held.mpr (Or.inr (Or.inl hsampled)))
    · rcases List.mem_cons.mp hother with heq | hother
      · subst heq
        exact hlt ids hmem
      · exact h.held_lt ids (retained_held hother hmem)
    · exact h.held_lt ids (mem_held.mpr (Or.inr (Or.inr (Or.inr hprev))))
  retained other hother := by
    rcases List.mem_cons.mp hother with rfl | hother
    · exact hsound
    · exact h.retained other hother
  frame := h.frame
  sampled other hother := ⟨(h.sampled other hother).memory, (h.sampled other hother).baseline⟩
  buffer := h.buffer

theorem Invariant.upload (hdisp : display ∈ s.retained) : (s.upload display).Invariant where
  blocks_lt := h.blocks_lt
  held_lt ids hids := by
    rcases mem_held.mp hids with hframe | hsampled | hret | ⟨memory, hmemory, rfl⟩
    · exact h.held_lt ids (mem_held.mpr (Or.inl hframe))
    · exact h.held_lt ids (mem_held.mpr (Or.inr (Or.inl hsampled)))
    · exact h.held_lt ids (mem_held.mpr (Or.inr (Or.inr (Or.inl hret))))
    · obtain rfl := Option.some.inj hmemory
      exact h.held_lt _ (retained_held hdisp (memory_mem_held display))
  retained := h.retained
  frame := h.frame
  sampled other hother := ⟨(h.sampled other hother).memory, (h.sampled other hother).baseline⟩
  buffer memory hmemory := by
    obtain rfl := Option.some.inj hmemory
    exact holds_upload (h.retained display hdisp) h.buffer

/-- A capture prepared over the frame has the baseline that pending hints need. -/
theorem Invariant.merged_isSome (hdisp : s.sampled = some display) : (s.merged display).isSome := by
  have hbaseline := (h.sampled display hdisp).baseline
  unfold merged
  split
  next => rfl
  next pending hpend =>
    obtain ⟨frame, hframe, -⟩ := Option.bind_eq_some_iff.mp hpend
    rw [hframe] at hbaseline
    obtain ⟨changes, hchg, -⟩ := Option.map_eq_some_iff.mp hbaseline
    rw [DisplaySnapshot.accumulate, hchg]
    rfl

/-- What a publication swaps in: the prepared memory, with the frame's baseline or the frame as the baseline, and
    every page that differs from it. -/
theorem Invariant.merged_spec {display frame' : DisplaySnapshot ρ}
    (hdisp : s.sampled = some display) (hmerged : s.merged display = some frame') :
    frame'.memory = display.memory ∧ ∀ changes, frame'.changes = some changes →
      (changes.baseline.blocks ∈ s.held ∧ ∀ block i, changes.baseline.blocks[block]? = some i →
        Agree s.heap changes.pages block i (s.storage.blocks block)) := by
  have hprep := h.sampled display hdisp
  -- The prepared hints are the pages that the frame is current up to.
  have hover (changes : MemoryChanges) (hchg : display.changes = some changes) :
      ∃ frame, s.frame = some frame ∧ changes.baseline = frame.memory ∧
        Current s.heap s.storage changes.pages frame := by
    have hbaseline := hprep.baseline
    rw [hchg] at hbaseline
    obtain ⟨frame, hframe, hmemory⟩ := Option.map_eq_some_iff.mp hbaseline.symm
    have hcur := (h.frame frame hframe).2
    rw [show s.dirty = changes.pages by rw [dirty, hdisp]; dsimp only; rw [hchg]] at hcur
    exact ⟨frame, hframe, hmemory.symm, hcur⟩
  unfold merged at hmerged
  split at hmerged
  next =>
    obtain rfl := Option.some.inj hmerged
    refine ⟨rfl, fun changes hchg => ?_⟩
    obtain ⟨frame, hframe, hmemory, hcur⟩ := hover changes hchg
    rw [hmemory]
    exact ⟨frame_held hframe (memory_mem_held frame), hcur.memory⟩
  next pending hpend =>
    obtain ⟨changes, hchg, rfl⟩ := Option.map_eq_some_iff.mp hmerged
    refine ⟨rfl, fun changes' hchg' => ?_⟩
    obtain rfl := Option.some.inj hchg'
    obtain ⟨frame, hframe, -, hcur⟩ := hover changes hchg
    rw [hframe] at hpend
    refine ⟨frame_held hframe (@baseline_mem_held ρ frame pending hpend), fun block i hi => ?_⟩
    exact (hcur.pending pending hpend block i hi).merge_comm

end

theorem Invariant.publish (h : s.Invariant) : s.publish.Invariant := by
  unfold System.publish
  split
  next => exact h
  next display hdisp =>
    split
    next => exact h
    next frame' hmerged =>
      obtain ⟨hmemory, hhints⟩ := h.merged_spec hdisp hmerged
      have hstorage (block j : Nat) (hj : frame'.memory.blocks[block]? = some j) : j = s.storage.blocks block :=
        (h.sampled display hdisp).memory block j (hmemory ▸ hj)
      constructor
      case blocks_lt => exact h.blocks_lt
      case held_lt =>
        intro ids hids
        rcases mem_held.mp hids with ⟨frame, hframe, hmem⟩ | ⟨_, hnone, -⟩ | hret | hprev
        · obtain rfl := Option.some.inj hframe
          rcases mem_held_iff.mp hmem with rfl | ⟨changes, hchg, rfl⟩
          · rw [hmemory]
            exact h.held_lt _ (mem_held.mpr (Or.inr (Or.inl ⟨display, hdisp, memory_mem_held display⟩)))
          · exact h.held_lt _ (hhints changes hchg).1
        · exact absurd hnone.symm (Option.some_ne_none _)
        · exact h.held_lt ids (mem_held.mpr (Or.inr (Or.inr (Or.inl hret))))
        · exact h.held_lt ids (mem_held.mpr (Or.inr (Or.inr (Or.inr hprev))))
      case retained => exact h.retained
      case frame =>
        intro frame hframe
        obtain rfl := Option.some.inj hframe
        refine ⟨fun changes hchg block i j hi hj => ?_, ⟨fun block i hi => ?_, fun changes hchg block i hi => ?_⟩⟩
        · rw [hstorage block j hj]
          exact (hhints changes hchg).2 block i hi
        · intro offset _ _
          rw [hstorage block i hi]
        · exact ((hhints changes hchg).2 block i hi).merge_left
      case sampled =>
        intro other hother
        exact absurd hother.symm (Option.some_ne_none _)
      case buffer => exact h.buffer

/-- Hints that were handed out start again from the frame itself. -/
theorem Invariant.consume (h : s.Invariant) {frame : DisplaySnapshot ρ} (hframe : s.frame = some frame) :
    ({ s with frame := some frame.consumed } : System ρ).Invariant where
  blocks_lt := h.blocks_lt
  held_lt ids hids := by
    rcases mem_held.mp hids with ⟨display, hdisp, hmem⟩ | hsampled | hret | hprev
    · obtain rfl := Option.some.inj hdisp
      refine h.held_lt ids (frame_held hframe ?_)
      rcases mem_held_iff.mp hmem with rfl | ⟨changes, hchg, rfl⟩
      · exact memory_mem_held frame
      · obtain rfl := Option.some.inj hchg
        exact memory_mem_held frame
    · exact h.held_lt ids (mem_held.mpr (Or.inr (Or.inl hsampled)))
    · exact h.held_lt ids (mem_held.mpr (Or.inr (Or.inr (Or.inl hret))))
    · exact h.held_lt ids (mem_held.mpr (Or.inr (Or.inr (Or.inr hprev))))
  retained := h.retained
  frame display hdisp := by
    obtain rfl := Option.some.inj hdisp
    have hcur := (h.frame frame hframe).2
    refine ⟨fun changes hchg block i j hi hj => ?_, ⟨hcur.memory, fun changes hchg block i hi => ?_⟩⟩
    · obtain rfl := Option.some.inj hchg
      intro offset _ _
      rw [Option.some.inj (hi.symm.trans hj)]
    · obtain rfl := Option.some.inj hchg
      exact (hcur.memory block i hi).merge_right
  sampled display hdisp := by
    obtain ⟨hmemory, hbaseline⟩ := h.sampled display hdisp
    refine ⟨hmemory, hbaseline.trans ?_⟩
    rw [hframe]
    rfl
  buffer := h.buffer

theorem Invariant.drop (h : s.Invariant) (n : Nat) :
    ({ s with retained := s.retained.eraseIdx n } : System ρ).Invariant where
  blocks_lt := h.blocks_lt
  held_lt ids hids := by
    rcases mem_held.mp hids with hframe | hsampled | ⟨display, hdisp, hmem⟩ | hprev
    · exact h.held_lt ids (mem_held.mpr (Or.inl hframe))
    · exact h.held_lt ids (mem_held.mpr (Or.inr (Or.inl hsampled)))
    · exact h.held_lt ids (retained_held (List.mem_of_mem_eraseIdx hdisp) hmem)
    · exact h.held_lt ids (mem_held.mpr (Or.inr (Or.inr (Or.inr hprev))))
  retained display hdisp := h.retained display (List.mem_of_mem_eraseIdx hdisp)
  frame := h.frame
  sampled display hdisp := ⟨(h.sampled display hdisp).memory, (h.sampled display hdisp).baseline⟩
  buffer := h.buffer

theorem Invariant.program (h : s.Invariant) : ({ s with inputs } : System ρ).Invariant where
  blocks_lt := h.blocks_lt
  held_lt := h.held_lt
  retained := h.retained
  frame := h.frame
  sampled display hdisp := ⟨(h.sampled display hdisp).memory, (h.sampled display hdisp).baseline⟩
  buffer := h.buffer

variable [DecidableEq ρ]

/-- Preparing a capture starts a new dirty interval, whose pages so far the capture carries. -/
theorem Invariant.sample (h : s.Invariant) (hsampled : s.sampled = none) : s.sample.Invariant := by
  obtain ⟨-, hlt, hmemory⟩ := h.snapshot hsampled
  unfold System.sample
  split
  next => exact h
  next =>
    constructor
    case blocks_lt => exact h.blocks_lt
    case held_lt =>
      intro ids hids
      rcases mem_held.mp hids with hframe | ⟨display, hdisp, hmem⟩ | hret | hprev
      · exact h.held_lt ids (mem_held.mpr (Or.inl hframe))
      · obtain rfl := Option.some.inj hdisp
        exact hlt ids hmem
      · exact h.held_lt ids (mem_held.mpr (Or.inr (Or.inr (Or.inl hret))))
      · exact h.held_lt ids (mem_held.mpr (Or.inr (Or.inr (Or.inr hprev))))
    case retained => exact h.retained
    case frame =>
      intro frame hframe
      obtain ⟨hsound, hcur⟩ := h.frame frame hframe
      have hdirty : s.snapshot.changes = some ⟨frame.memory, s.storage.changed⟩ := by
        rw [System.snapshot, show s.frame = some frame from hframe]
        rfl
      rw [dirty, hsampled] at hcur
      unfold dirty
      dsimp only
      rw [hdirty]
      exact ⟨hsound, hcur.memory, hcur.pending⟩
    case sampled =>
      intro display hdisp
      obtain rfl := Option.some.inj hdisp
      exact ⟨hmemory, Option.map_map _ _ _⟩
    case buffer => exact h.buffer

/-- Every step keeps the invariant. -/
theorem step_invariant (h : s.Invariant) (op : Op ρ) : (s.step op).Invariant := by
  cases op with
  | write address value =>
    unfold step
    dsimp only
    split
    next hready =>
      exact h.change (Option.isNone_iff_eq_none.mp hready.1) (write_change address value h.blocks_lt h.held_lt)
    next => exact h
  | clear =>
    unfold step
    dsimp only
    split
    next hready => exact h.change (Option.isNone_iff_eq_none.mp hready) (clear_change s.storage h.held_lt)
    next => exact h
  | program inputs =>
    unfold step
    dsimp only
    split
    next => exact h.program inputs
    next => exact h
  | snapshot =>
    unfold step
    dsimp only
    split
    next hready =>
      obtain ⟨hsound, hlt, -⟩ := h.snapshot (Option.isNone_iff_eq_none.mp hready)
      exact h.retain hsound hlt
    next => exact h
  | retrace inputs =>
    unfold step
    dsimp only
    split
    next hready => exact (h.program inputs).sample (Option.isNone_iff_eq_none.mp hready)
    next => exact h
  | publish => exact h.publish
  | take =>
    unfold step System.take
    dsimp only
    split
    next => exact h
    next frame hframe =>
      have hretain := h.retain (h.frame frame hframe).1 fun ids hids => h.held_lt ids (frame_held hframe hids)
      exact hretain.consume hframe
  | read =>
    unfold step
    dsimp only
    split
    next => exact h
    next frame hframe =>
      exact h.retain (h.frame frame hframe).1 fun ids hids => h.held_lt ids (frame_held hframe hids)
  | drop n => exact h.drop n
  | upload n =>
    unfold step
    dsimp only
    split
    next => exact h
    next display hdisp => exact h.upload (List.mem_of_getElem? hdisp)

/-- A held snapshot keeps its bytes. -/
theorem step_kept (h : s.Invariant) (op : Op ρ) (hdisp : display ∈ s.retained) :
    Kept s.heap (s.step op).heap display := by
  intro ids hids id hid
  have hheld := retained_held hdisp hids
  cases op with
  | write address value =>
    unfold step
    dsimp only
    split
    next => exact (write_change address value h.blocks_lt h.held_lt).keeps ids hheld id hid
    next => rfl
  | clear =>
    unfold step
    dsimp only
    split
    next => exact (clear_change s.storage h.held_lt).keeps ids hheld id hid
    next => rfl
  | program inputs =>
    unfold step
    dsimp only
    split <;> rfl
  | snapshot =>
    unfold step
    dsimp only
    split <;> rfl
  | retrace inputs =>
    unfold step System.sample
    dsimp only
    split
    next => split <;> rfl
    next => rfl
  | publish =>
    unfold step System.publish
    dsimp only
    split
    next => rfl
    next => split <;> rfl
  | take =>
    unfold step System.take
    dsimp only
    split <;> rfl
  | read =>
    unfold step
    dsimp only
    split <;> rfl
  | drop n => rfl
  | upload n =>
    unfold step
    dsimp only
    split <;> rfl

/-! ## Runs -/

theorem run_invariant (buffer : Memory) (ops : List (Op ρ)) :
    (Run.after step (initial inputs buffer) ops).Invariant :=
  Run.invariant (P := Invariant) (fun _ op h => step_invariant h op) (initial_invariant inputs buffer) ops

/-- A snapshot held through a run keeps its bytes. -/
theorem run_kept (h : s.Invariant) (ops : List (Op ρ))
    (hdisp : ∀ pre, pre <+: ops → display ∈ (Run.after step s pre).retained) :
    Kept s.heap (Run.after step s ops).heap display := by
  induction ops generalizing s with
  | nil => exact fun _ _ _ _ => rfl
  | cons op ops ih =>
    intro ids hids id hid
    have hstep := step_kept h op (hdisp [] List.nil_prefix) ids hids id hid
    have hrest := ih (step_invariant h op) fun pre hpre => hdisp (op :: pre) (List.cons_prefix_cons.mpr ⟨rfl, hpre⟩)
    exact (hrest ids hids id hid).trans hstep

/-- After any sequence of device operations, publications, takes, reads, snapshots and uploads: an upload of any
    snapshot obtained so far leaves the destination equal to it on all of its blocks; the snapshot keeps its bytes for
    as long as it is held; and a prepared capture is always published. -/
theorem uploads_reproduce (inputs : Inputs ρ) (buffer : Memory) (ops : List (Op ρ)) :
    let s := Run.after step (initial inputs buffer) ops
    (∀ n display, s.retained[n]? = some display →
      Holds (s.step (.upload n)).heap (s.step (.upload n)).buffer display.memory) ∧
    (∀ display later, (∀ pre, pre <+: later → display ∈ (Run.after step s pre).retained) →
      ∀ id ∈ display.memory.blocks, (Run.after step s later).heap.contents id = s.heap.contents id) ∧
    ∀ display, s.sampled = some display → (s.merged display).isSome := by
  intro s
  have hinvariant := run_invariant inputs buffer ops
  refine ⟨fun n display hdisplay => ?_, fun display later hlater id hid => ?_, fun display => hinvariant.merged_isSome⟩
  · have hupload : s.step (.upload n) = s.upload display := by
      unfold step
      dsimp only
      rw [hdisplay]
    rw [hupload]
    exact (hinvariant.upload (List.mem_of_getElem? hdisplay)).buffer display.memory rfl
  · exact run_kept hinvariant later hlater _ (memory_mem_held display) id hid

end System

end Relocade.Vga
