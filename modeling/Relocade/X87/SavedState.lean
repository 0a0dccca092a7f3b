import Relocade.X87.Images

/-!
# `X87.SavedState` — saved environments restore

Whatever runs came before, an image that was saved and restored is saved as it was, with its summary bits computed again
from its flags and masks.
-/

namespace Relocade.X87

open Flags (Val)

/-! ## Restored files -/

section

variable {x y : X87State} {file : File} {tags : BitVec 16} {values : Option (Fin 8 → ExtendedBits)}

theorem tag_ne_empty (bits : ExtendedBits) : bits.tag ≠ emptyTag := by
  unfold ExtendedBits.tag
  split
  next => decide
  next => split <;> decide

theorem savedTag_lt (file : File) (i : Fin 8) : (file.savedTag i).toNat < 4 := by
  unfold File.savedTag
  split
  next => decide
  next => exact (file.registers i).tag_lt

/-- A saved tag word is its eight saved tags. -/
theorem tagOf_savedTagWord (file : File) (i : Fin 8) : tagOf file.savedTagWord i = file.savedTag i := by
  refine BitVec.eq_of_getLsbD_eq fun k hk => ?_
  have hi := i.isLt
  rw [getLsbD_tagOf]
  by_cases hlow : k < 2
  · unfold File.savedTagWord
    rw [decide_eq_true hlow, Bool.true_and, Bank.getLsbD_foldl_or,
      show (0 : BitVec 16).getLsbD (2 * i.val + k) = false from BitVec.getLsbD_zero, Bool.false_or, Bool.eq_iff_iff,
      List.any_eq_true]
    have hbit : ∀ j : Fin 8, (file.savedTag j <<< (2 * j.val)).getLsbD (2 * i.val + k) = true ↔
        j = i ∧ (file.savedTag i).getLsbD k = true := by
      intro j
      rw [BitVec.getLsbD_shiftLeft, decide_eq_true (show 2 * i.val + k < 16 by omega), Bool.true_and, Bool.and_eq_true,
        Bool.not_eq_true', decide_eq_false_iff_not]
      constructor
      · rintro ⟨hle, hset⟩
        have hnear : 2 * i.val + k - 2 * j.val < 2 := by
          refine Nat.lt_of_not_le fun hge => ?_
          rw [getLsbD_of_lt_four (savedTag_lt file j) hge] at hset
          exact nomatch hset
        have heq : j = i := by omega
        subst heq
        rw [Nat.add_sub_cancel_left] at hset
        exact ⟨rfl, hset⟩
      · rintro ⟨rfl, hset⟩
        rw [Nat.add_sub_cancel_left]
        exact ⟨by omega, hset⟩
    constructor
    · rintro ⟨j, -, hset⟩
      exact ((hbit j).mp hset).2
    · exact fun hset => ⟨i, List.mem_finRange i, (hbit i).mpr ⟨rfl, hset⟩⟩
  · rw [decide_eq_false hlow, Bool.false_and, getLsbD_of_lt_four (savedTag_lt file i) (Nat.le_of_not_lt hlow)]

/-- What a restore leaves: each stack value in the physical register at TOP and its index, empty registers empty, and
    the others with the tag of their payload. -/
structure Restored (top : Fin 8) (tags : BitVec 16) (values : Option (Fin 8 → ExtendedBits)) (old file : File) : Prop
    where
  position : slotAt file.top = top
  registers : ∀ i, file.registers (top + i) = values.elim (old.registers (top + i)) (· i)
  tag : ∀ i, file.tag i = if tagOf tags i = emptyTag then emptyTag else (file.registers i).tag

theorem restored (old : File) (top : BitVec 32) (tags : BitVec 16) (values : Option (Fin 8 → ExtendedBits)) :
    Restored (slotAt top) tags values old (old.restore top tags values) := by
  refine ⟨slotAt_masked top, fun i => ?_, fun i => ?_⟩
  · cases values with
    | none => rfl
    | some values =>
      show values (slotAt top + i - slotAt top) = values i
      rw [show slotAt top + i - slotAt top = i by omega]
  · exact tagOf_foldl_packTag (fun i => restoredTagOf_lt tags i (restoredValue old (slotAt top) values i))
      (.inr (List.mem_finRange i))

variable {top : Fin 8}

variable {old : File}

/-- The tags of a restored file are already those of its payloads. -/
theorem Restored.savedTag (h : Restored top tags values old file) (i : Fin 8) : file.savedTag i = file.tag i := by
  unfold File.savedTag
  rw [h.tag i]
  by_cases hemp : tagOf tags i = emptyTag
  · rw [if_pos hemp, if_pos rfl]
  · rw [if_neg hemp, if_neg (tag_ne_empty _)]

theorem Restored.savedTagWord (h : Restored top tags values old file) : file.savedTagWord = file.tagWord :=
  tagWord_ext fun i => (tagOf_savedTagWord file i).trans (h.savedTag i)

theorem Restored.tag_eq_empty (h : Restored top tags values old file) (i : Fin 8) :
    file.tag i = emptyTag ↔ tagOf tags i = emptyTag := by
  rw [h.tag i]
  by_cases hemp : tagOf tags i = emptyTag
  · rw [if_pos hemp]
    exact ⟨fun _ => hemp, fun _ => rfl⟩
  · rw [if_neg hemp]
    exact ⟨fun htag => absurd htag (tag_ne_empty _), fun htag => absurd htag hemp⟩

/-- A restored stack is the image's. -/
theorem Restored.stackBits {v : Fin 8 → ExtendedBits}
    (h : Restored top tags (some v) old file) : file.stackBits = (List.finRange 8).map v := by
  unfold File.stackBits
  rw [h.position]
  exact List.map_congr_left fun i _ => h.registers i

/-- The same stack at the same position is the same registers. -/
theorem registers_of_stackBits {a b : File} (htop : slotAt a.top = slotAt b.top) (h : a.stackBits = b.stackBits)
    (i : Fin 8) :
    a.registers i = b.registers i := by
  unfold File.stackBits at h
  have hmap := List.map_inj_left.mp h (i - slotAt a.top) (List.mem_finRange _)
  rw [← htop, show slotAt a.top + (i - slotAt a.top) = i by omega] at hmap
  exact hmap

/-- Tags that were saved restore when their payloads do. -/
theorem Restored.tagWord_saved {old saved : File} (h : Restored top saved.savedTagWord values old file)
    (hregs : ∀ i, file.registers i = saved.registers i) : file.tagWord = saved.savedTagWord := by
  refine tagWord_ext fun i => ?_
  rw [show tagOf file.tagWord i = file.tag i from rfl, h.tag i, tagOf_savedTagWord, hregs]
  unfold File.savedTag
  by_cases hemp : saved.tag i = emptyTag
  · rw [if_pos hemp, if_pos rfl]
  · rw [if_neg hemp, if_neg (tag_ne_empty _)]

end

/-! ## What is saved again -/

section

variable {mode : EnvironmentMode} {size : WordSize} {pointerSize : PointerSize}

theorem topPosition_restore (y : X87State) (env : Environment) (values : Option (Fin 8 → ExtendedBits)) :
    (y.restore env values).topPosition = (env.status >>> 11 &&& (7 : BitVec 16)).setWidth 32 := by
  have hlt : ((env.status >>> 11 &&& (7 : BitVec 16)).setWidth 32).toNat < 8 := by
    rw [BitVec.toNat_setWidth, toNat_and_seven _ (by decide)]
    omega
  show (((_ &&& (7 : BitVec 32)).setWidth 8 &&& (7 : BitVec 8)).setWidth 32) = _
  generalize (env.status >>> 11 &&& (7 : BitVec 16)).setWidth 32 = position at hlt ⊢
  refine BitVec.eq_of_toNat_eq ?_
  rw [BitVec.toNat_setWidth, toNat_and_seven _ (by decide), BitVec.toNat_setWidth, toNat_and_seven _ (by decide)]
  omega

theorem getLsbD_placed (bit : Bool) (shift : Nat) {k : Nat} (hk : k < 16) :
    ((BitVec.ofBool bit).setWidth 16 <<< shift).getLsbD k = (decide (k = shift) && bit) := by
  rw [BitVec.getLsbD_shiftLeft, decide_eq_true hk, Bool.true_and, BitVec.getLsbD_setWidth, BitVec.getLsbD_ofBool]
  by_cases heq : k = shift
  · subst heq
    simp
  · rw [decide_eq_false heq, Bool.false_and]
    by_cases hlow : k < shift
    · simp [hlow]
    · simp [show k - shift ≠ 0 by omega]

/-- The status word holds TOP. -/
theorem slotAt_statusWord (top : BitVec 32) (fields : StatusField → BitVec 32) :
    slotAt (statusWord top fields >>> 11) = slotAt top := by
  have hword : statusWord top fields >>> 11 &&& (7 : BitVec 16) = top.setWidth 16 &&& (7 : BitVec 16) := by
    refine BitVec.eq_of_getLsbD_eq fun i hi => ?_
    rw [BitVec.getLsbD_and, BitVec.getLsbD_and, getLsbD_seven hi, BitVec.getLsbD_ushiftRight]
    by_cases hlow : i < 3
    · have hk : 11 + i < 16 := by omega
      simp only [statusWord, Status.flagFields, Exception.all, Exception.code, List.foldl_cons, List.foldl_nil,
        BitVec.getLsbD_or, getLsbD_placed _ _ hk]
      rw [BitVec.getLsbD_shiftLeft, decide_eq_true hk, decide_eq_false (show ¬ 11 + i < 11 by omega),
        Nat.add_sub_cancel_left]
      simp [show ∀ k, k < 11 → ¬ 11 + i = k from fun k hk => by omega, show ¬ 11 + i = 14 by omega,
        show ¬ 11 + i = 15 by omega]
    · rw [decide_eq_false hlow, Bool.and_false, Bool.and_false]
  rw [← slotAt_and_seven _ (by decide), hword, slotAt_and_seven _ (by decide), slotAt_setWidth _ (by decide)]

/-- The registers of a restored state. -/
theorem restored_file (y : X87State) (env : Environment) (values : Option (Fin 8 → ExtendedBits)) :
    Restored (slotAt (env.status >>> 11)) env.tags values y.file
        (y.restore env values).file := by
  have htop : slotAt ((env.status >>> 11 &&& (7 : BitVec 16)).setWidth 32) = slotAt (env.status >>> 11) := by
    rw [slotAt_setWidth _ (by decide), slotAt_and_seven _ (by decide)]
  rw [← htop]
  exact restored y.file _ env.tags values

/-- A restored state is saved as the image's environment, with its summary and tags computed again. -/
theorem environment_restore (y : X87State) (environment : Environment) (values : Option (Fin 8 → ExtendedBits))
    (tags : BitVec 16) : (y.restore environment values).environment tags =
      { environment with
        status := withSummary environment.control environment.status
        tags := tags
        opcode := some (environment.opcode.getD ((y.metadata .opcode).setWidth 16)) } := by
  have hopcode : ((y.restoredMetadata environment) .opcode).setWidth 16 =
      environment.opcode.getD ((y.metadata .opcode).setWidth 16) := by
    show (environment.opcode.elim (y.metadata .opcode) (·.setWidth 32)).setWidth 16 = _
    cases environment.opcode with
    | none => rfl
    | some opcode => exact setWidth_back opcode
  unfold X87State.environment
  rw [topPosition_restore]
  show Environment.mk (controlWord (loadControl environment.control))
    (statusWord _ (summarize (loadControl environment.control) (loadStatus environment.status))) tags
    (some (((y.restoredMetadata environment) .opcode).setWidth 16))
    ⟨environment.instruction.offset, (environment.instruction.selector.setWidth 32).setWidth 16⟩
    ⟨environment.data.offset, (environment.data.selector.setWidth 32).setWidth 16⟩ = _
  rw [controlWord_load, statusWord_restored, hopcode, setWidth_back, setWidth_back]

end

/-! ## Runs -/

/-- An operation on the registers, or an access to a field. -/
inductive Step (N : Type) where
  | registers (op : Op N)
  | readControl (field : ControlField)
  | readStatus (field : StatusField)
  | readMetadata (field : MetadataField)
  | defineControl (field : ControlField) (value : Val N (BitVec 32))
      (h : Narrow (controlFields.type field).bytes value.value)
  | defineStatus (field : StatusField) (value : Val N (BitVec 32))
      (h : Narrow (statusFields.type field).bytes value.value)
  | defineMetadata (field : MetadataField) (value : Val N (BitVec 32))
      (h : Narrow (metadataFields.type field).bytes value.value)

section

variable {N : Type} [DecidableEq N] (naming : WordNaming N)

/-- The step as the tracker builds it; its answer is not looked at. -/
def Step.build : Step N → TrackerBuild N Unit
  | registers op => do let _ ← X87Tracker.onRegisters (op.build naming.registers)
  | readControl field => do let _ ← X87Tracker.onControl (Control.read naming field)
  | readStatus field => do let _ ← X87Tracker.onStatus (Status.flag naming field)
  | readMetadata field => do let _ ← X87Tracker.readMetadata naming field
  | defineControl field value _ => X87Tracker.onControl (defineField controlFields field value)
  | defineStatus field value _ => X87Tracker.onStatus (defineField statusFields field value)
  | defineMetadata field value _ => X87Tracker.onMetadata (defineField metadataFields field value)

def runSteps (steps : List (Step N)) : TrackerBuild N Unit := steps.forM (Step.build naming)

end

section

variable {N : Type}

def Step.after (step : Step N) (protocol : Protocol) : Protocol :=
  match step with
  | registers op => op.after protocol
  | _ => protocol

/-- Fields are accessed freely; operations on the registers keep the exception protocol. -/
def Step.Allowed (step : Step N) (protocol : Protocol) : Prop :=
  match step with
  | registers op => op.Allowed protocol
  | _ => True

def AllowedSteps : Protocol → List (Step N) → Prop
  | _, [] => True
  | protocol, step :: steps => step.Allowed protocol ∧ AllowedSteps (step.after protocol) steps

def afterSteps (protocol : Protocol) (steps : List (Step N)) : Protocol :=
  steps.foldl (fun protocol step => step.after protocol) protocol

variable [DecidableEq N] {naming : WordNaming N} {origin : Memory} {protocol : Protocol} {x : X87State}
variable {s : X87Tracker N × Memory}

omit [DecidableEq N] in
/-- A computation whose answer is not looked at. -/
theorem ignored {α : Type} {y : TrackerBuild N α} {P : α → Prop} {Q : X87Tracker N × Memory → Prop}
    (h : Total s y fun a s' => P a ∧ Q s') : Total s (do let _ ← y) fun _ s' => Q s' :=
  Total.bind h fun _ _ hq => Total.pure hq.2

/-- One step keeps the tracker in step with a state. -/
theorem Step.holds (step : Step N) (h : Holds naming origin protocol x s) (hallow : step.Allowed protocol) :
    Total s (step.build naming) fun _ s' => ∃ x', Holds naming origin (step.after protocol) x' s' := by
  cases step with
  | registers op =>
    refine (ignored (X87Tracker.onRegisters_spec h (step_spec op h.registers hallow))).mono fun _ s' hholds => ?_
    exact ⟨_, hholds⟩
  | readControl field =>
    refine (ignored (X87Tracker.onControl_spec h fun hkeeps => Control.read_spec hkeeps field)).mono fun _ s'
        hholds => ?_
    exact ⟨_, hholds⟩
  | readStatus field =>
    refine (ignored (X87Tracker.onStatus_spec h fun hkeeps => Status.flag_spec hkeeps field)).mono fun _ s' hholds =>
        ?_
    exact ⟨_, hholds⟩
  | readMetadata field =>
    exact (ignored (X87Tracker.readMetadata_spec h field)).mono fun _ s' hholds => ⟨_, hholds⟩
  | defineControl field value hval =>
    have hdefn := X87Tracker.onControl_spec (P := fun _ => True) h fun hkeeps =>
      (defineField_spec hkeeps field hval).mono fun _ _ hkeeps => ⟨trivial, hkeeps⟩
    exact hdefn.mono fun _ s' hholds => ⟨_, hholds.2⟩
  | defineStatus field value hval =>
    have hdefn := X87Tracker.onStatus_spec (P := fun _ => True) h fun hkeeps =>
      (defineField_spec hkeeps field hval).mono fun _ _ hkeeps => ⟨trivial, hkeeps⟩
    exact hdefn.mono fun _ s' hholds => ⟨_, hholds.2⟩
  | defineMetadata field value hval =>
    have hdefn := X87Tracker.onMetadata_spec (P := fun _ => True) h fun hkeeps =>
      (defineField_spec hkeeps field hval).mono fun _ _ hkeeps => ⟨trivial, hkeeps⟩
    exact hdefn.mono fun _ s' hholds => ⟨_, hholds.2⟩

/-- A run keeps the tracker in step with a state. -/
theorem run_holds (steps : List (Step N)) {protocol : Protocol} {x : X87State} {s : X87Tracker N × Memory}
    (h : Holds naming origin protocol x s) (hallow : AllowedSteps protocol steps) :
    Total s (runSteps naming steps) fun _ s' => ∃ x', Holds naming origin (afterSteps protocol steps) x' s' := by
  induction steps generalizing protocol x s with
  | nil => exact Total.pure ⟨x, h⟩
  | cons step steps ih =>
    exact Total.bind (step.holds h hallow.1) fun _ s' ⟨x', hholds⟩ => ih hholds hallow.2

end

/-! ## The result -/

section

variable {N : Type} [DecidableEq N] (naming : WordNaming N)

/-- The register file that a tracker would publish. -/
def fileOf (s : X87Tracker N × Memory) : File := File.of (Registers.publish naming.registers s.1.registers s.2)

/-- FNSTENV and FNSAVE store these words, and FNSAVE stores this stack. -/
def Saves (mode : EnvironmentMode) (size : WordSize) (s : X87Tracker N × Memory)
    (words : EnvironmentWords (BitVec size.bits))
    (stack : List ExtendedBits) : Prop :=
  (∃ s', X87Tracker.environment naming mode size s = some (words, s')) ∧
    ∃ s', (do
      let stack ← X87Tracker.stackBits naming
      let words ← X87Tracker.environment naming mode size
      return (stack, words)) s = some ((stack, words), s')

/-- FXSAVE stores this header and this stack. -/
def SavesFx (pointerSize : PointerSize) (s : X87Tracker N × Memory) (words : FxWords (BitVec 32))
    (stack : List ExtendedBits) : Prop :=
  ∃ s', (do
    let stack ← X87Tracker.stackBits naming
    let words ← X87Tracker.fxEnvironment naming pointerSize
    return (stack, words)) s = some ((stack, words), s')

variable {naming} {origin : Memory} {protocol : Protocol} {x y : X87State} {s : X87Tracker N × Memory}

omit [DecidableEq N] in
theorem Holds.fileOf (h : Holds naming origin protocol x s) : fileOf naming s = x.file :=
  (publish_spec h.registers).1

theorem Holds.saves (h : Holds naming origin protocol x s) (mode : EnvironmentMode) (size : WordSize) :
    Saves naming mode size s ((x.environment x.file.savedTagWord).encode mode size) x.file.stackBits := by
  refine ⟨?_, ?_⟩
  · obtain ⟨words, s', hrun, rfl, -⟩ := X87Tracker.environment_spec h mode size
    exact ⟨s', hrun⟩
  · have hsave : Total s (do
        let stack ← X87Tracker.stackBits naming
        let words ← X87Tracker.environment naming mode size
        return (stack, words)) fun saved _ =>
          saved = (x.file.stackBits, (x.environment x.file.savedTagWord).encode mode size) := by
      refine Total.bind (X87Tracker.stackBits_spec h) fun stack s' ⟨hstack, hholds⟩ => ?_
      refine Total.bind (X87Tracker.environment_spec hholds mode size) fun words s'' ⟨hwords, _⟩ => Total.pure ?_
      rw [hstack, hwords]
    obtain ⟨saved, s', hrun, rfl⟩ := hsave
    exact ⟨s', hrun⟩

theorem Holds.savesFx (h : Holds naming origin protocol x s) (pointerSize : PointerSize) :
    ∃ words, (x.environment x.file.tagWord).encodeFx pointerSize = some words ∧
      SavesFx naming pointerSize s words x.file.stackBits := by
  have hsave : Total s (do
      let stack ← X87Tracker.stackBits naming
      let words ← X87Tracker.fxEnvironment naming pointerSize
      return (stack, words)) fun saved _ =>
        saved.1 = x.file.stackBits ∧ (x.environment x.file.tagWord).encodeFx pointerSize = some saved.2 := by
    refine Total.bind (X87Tracker.stackBits_spec h) fun stack s' ⟨hstack, hholds⟩ => ?_
    exact Total.bind (X87Tracker.fxEnvironment_spec hholds pointerSize) fun words s'' ⟨hwords, _⟩ =>
      Total.pure ⟨hstack, hwords⟩
  obtain ⟨⟨stack, words⟩, s', hrun, rfl, hwords⟩ := hsave
  exact ⟨words, hwords, s', hrun⟩

/-- A legacy image, with or without registers. -/
theorem Holds.legacy_restores {t : X87Tracker N × Memory} {origin' : Memory} {protocol' : Protocol}
    (hs : Holds naming origin protocol x s) (ht : Holds naming origin' protocol' y t) (names : Part → N)
    (mode : EnvironmentMode) (size : WordSize) (values : Option (Fin 8 → ExtendedValue N))
    (hwait : values = none → protocol'.pending = false) :
    ∃ words stack t' words' stack', Saves naming mode size s words stack ∧
      X87Tracker.restore naming names mode size words values t = some ((), t') ∧
          Saves naming mode size t' words' stack' ∧
      Restored (slotAt (wordOf words.status >>> 11)) (wordOf words.tags) (values.map fun v i => (v i).value)
        (X87.fileOf naming t) (X87.fileOf naming t') ∧
      (∀ v, values = some v → stack' = (List.finRange 8).map fun i => (v i).value) ∧
      words' = { words with
        status := imageWord mode size (withSummary (wordOf words.control) (wordOf words.status))
        tags := imageWord mode size (X87.fileOf naming t').tagWord } ∧
      (stack' = stack → words'.tags = words.tags) := by
  have hspec := @X87Tracker.restoreEnvironment_spec _ naming origin' protocol' y t _ ht names
    (.decode mode size ((x.environment x.file.savedTagWord).encode mode size)) values false fun hnone _ => hwait hnone
  obtain ⟨_, t', hrestore, hholds⟩ := hspec
  have hrestored := restored_file y (.decode mode size ((x.environment x.file.savedTagWord).encode mode size))
    (values.map fun v i => (v i).value)
  have htags : (Environment.decode mode size ((x.environment x.file.savedTagWord).encode mode size)).tags =
      x.file.savedTagWord := wordOf_imageWord _
  have hstatus : (Environment.decode mode size ((x.environment x.file.savedTagWord).encode mode size)).status =
      statusWord x.topPosition x.status := wordOf_imageWord _
  refine ⟨_, _, t', _, _, hs.saves mode size, hrestore, hholds.saves mode size, ?_, fun v hv => ?_,
      ?_, fun hstack => ?_⟩
  · rw [ht.fileOf, hholds.fileOf]
    exact hrestored
  · cases hv
    exact hrestored.stackBits
  · rw [hholds.fileOf, environment_restore, hrestored.savedTagWord]
    exact encode_decode (x.environment x.file.savedTagWord) rfl _ _ _
  · have hsame : ∀ i, (y.restore (.decode mode size ((x.environment x.file.savedTagWord).encode mode size))
        (values.map fun v i => (v i).value)).file.registers i = x.file.registers i := by
      refine registers_of_stackBits (hrestored.position.trans ?_) hstack
      rw [hstatus, slotAt_statusWord]
      exact slotAt_top x.file.top
    have hword := hrestored.savedTagWord
    rw [htags] at hrestored
    have hsaved := hword.trans (hrestored.tagWord_saved hsame)
    exact congrArg (imageWord mode size) hsaved

/-- An FXSAVE image. -/
theorem Holds.fx_restores {t : X87Tracker N × Memory} {origin' : Memory} {protocol' : Protocol}
    (hs : Holds naming origin protocol x s) (ht : Holds naming origin' protocol' y t) (names : Part → N)
    (pointerSize : PointerSize) (values : Fin 8 → ExtendedValue N) :
    ∃ words stack t' words', SavesFx naming pointerSize s words stack ∧
      X87Tracker.restoreFx naming names pointerSize words values t = some ((), t') ∧
      SavesFx naming pointerSize t' words' ((List.finRange 8).map fun i => (values i).value) ∧
      Restored (slotAt ((words.controlStatus >>> 16).setWidth 16 >>> 11)) (Environment.tagsOfOccupied words.tagsOpcode)
        (some fun i => (values i).value) (X87.fileOf naming t) (X87.fileOf naming t') ∧
      words' = { words with
        controlStatus := (words.controlStatus.setWidth 16).setWidth 32 |||
          (withSummary (words.controlStatus.setWidth 16) ((words.controlStatus >>> 16).setWidth 16)).setWidth 32 <<< 16
              } := by
  obtain ⟨words, hwords, hsaves⟩ := hs.savesFx pointerSize
  have hspec := @X87Tracker.restoreEnvironment_spec _ naming origin' protocol' y t _ ht names
    (.decodeFx pointerSize words) (some values) false nofun
  obtain ⟨_, t', hrestore, hholds⟩ := hspec
  have hrestored := restored_file y (.decodeFx pointerSize words) (some fun i => (values i).value)
  obtain ⟨words', hwords', hsaves'⟩ := hholds.savesFx pointerSize
  refine ⟨words, _, t', words', hsaves, hrestore, ?_, ?_, ?_⟩
  · rw [← hrestored.stackBits]
    exact hsaves'
  · rw [ht.fileOf, hholds.fileOf]
    exact hrestored
  · rw [environment_restore] at hwords'
    have hagain := encodeFx_decodeFx (x.environment x.file.tagWord) hwords
      (withSummary (words.controlStatus.setWidth 16) ((words.controlStatus >>> 16).setWidth 16)) hrestored.tag_eq_empty
    exact Option.some.inj (hwords'.symm.trans hagain)

end

/-- After any runs on the two sides, an image that one side saved is restored by the other and saved again. Its words
    are as they were, but for the summary bits of its flags and masks and for tags whose payloads changed; its
    registers are where TOP puts them. -/
theorem saved_images_restore {N : Type} [DecidableEq N] (naming : WordNaming N) (names : Part → N) (m m' : Memory)
    (pending pending' : Bool) (steps steps' : List (Step N)) (h : AllowedSteps ⟨pending, false⟩ steps)
    (h' : AllowedSteps ⟨pending', false⟩ steps') :
    ∃ s t, runSteps naming steps (.new naming, m) = some ((), s) ∧
        runSteps naming steps' (.new naming, m') = some ((), t) ∧
      (∀ mode size (values : Option (Fin 8 → ExtendedValue N)),
        (values = none → (afterSteps ⟨pending', false⟩ steps').pending = false) →
        ∃ words stack t' words' stack', Saves naming mode size s words stack ∧
          X87Tracker.restore naming names mode size words values t = some ((), t') ∧
          Saves naming mode size t' words' stack' ∧
          Restored (slotAt (wordOf words.status >>> 11)) (wordOf words.tags) (values.map fun v i => (v i).value)
            (fileOf naming t) (fileOf naming t') ∧
          (∀ v, values = some v → stack' = (List.finRange 8).map fun i => (v i).value) ∧
          words' = { words with
            status := imageWord mode size (withSummary (wordOf words.control) (wordOf words.status))
            tags := imageWord mode size (fileOf naming t').tagWord } ∧
          (stack' = stack → words'.tags = words.tags)) ∧
      ∀ pointerSize (values : Fin 8 → ExtendedValue N),
        ∃ words stack t' words', SavesFx naming pointerSize s words stack ∧
          X87Tracker.restoreFx naming names pointerSize words values t = some ((), t') ∧
          SavesFx naming pointerSize t' words' ((List.finRange 8).map fun i => (values i).value) ∧
          Restored (slotAt ((words.controlStatus >>> 16).setWidth 16 >>> 11))
              (Environment.tagsOfOccupied words.tagsOpcode)
            (some fun i => (values i).value) (fileOf naming t) (fileOf naming t') ∧
          words' = { words with
            controlStatus := (words.controlStatus.setWidth 16).setWidth 32 |||
              (withSummary (words.controlStatus.setWidth 16) ((words.controlStatus >>> 16).setWidth 16)).setWidth 32 <<<
                16 } := by
  obtain ⟨_, s, hrun, x, hs⟩ := run_holds steps (Holds.new naming m pending) h
  obtain ⟨_, t, hrun', y, ht⟩ := run_holds steps' (Holds.new naming m' pending') h'
  exact ⟨s, t, hrun, hrun', fun mode size values hwait => hs.legacy_restores ht names mode size values hwait,
    fun pointerSize values => hs.fx_restores ht names pointerSize values⟩

/-- One is pushed and saved in the real-address dword layout, and restored where an exception pends. -/
theorem one_restored : ∃ naming : WordNaming Nat, ∃ s t,
    runSteps naming [.registers (.push ⟨101, ⟨0x8000000000000000, 0x3fff⟩⟩ ⟨1, true⟩)] (.new naming, fun _ => 0) =
      some ((), s) ∧
    runSteps naming [.registers .raise] (.new naming, fun _ => 0xff) = some ((), t) ∧
    ∃ words stack t' words', Saves naming .real .dword s words stack ∧
      X87Tracker.restore naming (fun _ => 300) .real .dword words (some fun _ => ⟨102, ⟨0x8000000000000000, 0x4000⟩⟩) t
          =
        some ((), t') ∧
      Saves naming .real .dword t' words' (List.replicate 8 ⟨0x8000000000000000, 0x4000⟩) ∧
      words'.dataLow = words.dataLow := by
  obtain ⟨naming, hnaming⟩ : ∃ naming : WordNaming Nat, naming =
    ⟨⟨⟨Bool.toNat, (· + · + 2), fun a b c => a + b + c + 2, id, id, 0⟩, (· + 200), (· + · + 1000), (· + · + 2000),
      (· + · + 3000), (· + · + 4000), (· + 5000), (· + 6000), (· + · + 7000),
      fun name => name < 2 ∨ 200 ≤ name ∧ name < 300⟩, (· + · + · + 8000), (· + 9000), (· + 10000), (· + · + 11000)⟩ :=
      ⟨_, rfl⟩
  obtain ⟨s, t, hrun, hrun', hlegacy, -⟩ := saved_images_restore naming (fun _ => 300) (fun _ => 0) (fun _ => 0xff)
      false
    false [.registers (.push ⟨101, ⟨0x8000000000000000, 0x3fff⟩⟩ ⟨1, true⟩)] [.registers .raise] ⟨rfl, trivial⟩
    ⟨trivial, trivial⟩
  obtain ⟨words, stack, t', words', stack', hsaves, hrestore, hsaves', -, hstack, hwords, -⟩ :=
    hlegacy .real .dword (some fun _ => ⟨102, ⟨0x8000000000000000, 0x4000⟩⟩) nofun
  rw [hstack _ rfl] at hsaves'
  exact ⟨naming, s, t, hrun, hrun', words, stack, t', words', hsaves, hrestore, hsaves', congrArg (·.dataLow) hwords⟩

end Relocade.X87
