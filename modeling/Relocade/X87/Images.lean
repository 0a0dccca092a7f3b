import Relocade.X87.Environment
import Relocade.X87.Refinement
import Relocade.X87.Status

/-!
# `X87.Images` — saving and restoring environments

A save reads the words of split fields, the register tracker's tags and its stack; a restore defines them all again. The
state that both are about is the register file with the values of the fields.
-/

namespace Relocade.X87

open Function (update)
open Flags (Val)
open Ssa (StateFields)

/-! ## The code -/

structure X87Tracker (N : Type) where
  metadata : StateFields (Val N (BitVec 32))
  control : StateFields (Val N (BitVec 32))
  status : StateFields (Val N (BitVec 32))
  registers : Registers N

/-- Construction over the whole tracker and the memory. -/
abbrev TrackerBuild (N : Type) := StateT (X87Tracker N × Memory) Option

/-- The parts of an environment that a restore defines. -/
inductive Part where
  | control | status | tags | opcode | instructionOffset | instructionSelector | dataOffset | dataSelector
  deriving DecidableEq, Repr

namespace X87Tracker

variable {N α : Type} [DecidableEq N] (naming : WordNaming N)

def new : X87Tracker N :=
  ⟨newFields naming.registers.toNaming, newFields naming.registers.toNaming, newFields naming.registers.toNaming,
    .new naming.registers⟩

def onMetadata (x : FieldBuild N α) : TrackerBuild N α := fun (tracker, m) => do
  let (a, metadata, m) ← x (tracker.metadata, m)
  return (a, { tracker with metadata := metadata }, m)

def onControl (x : FieldBuild N α) : TrackerBuild N α := fun (tracker, m) => do
  let (a, control, m) ← x (tracker.control, m)
  return (a, { tracker with control := control }, m)

def onStatus (x : FieldBuild N α) : TrackerBuild N α := fun (tracker, m) => do
  let (a, status, m) ← x (tracker.status, m)
  return (a, { tracker with status := status }, m)

def onRegisters (x : Build N α) : TrackerBuild N α := fun (tracker, m) => do
  let (a, registers, m) ← x (tracker.registers, m)
  return (a, { tracker with registers := registers }, m)

def readMetadata (field : MetadataField) : TrackerBuild N (BitVec 32) := do
  let value ← onMetadata (readField naming.registers.toNaming metadataFields field)
  return value.value

def defineMetadata (field : MetadataField) (name : N) {w : Nat} (value : BitVec w) : TrackerBuild N Unit :=
  onMetadata (defineField metadataFields field ⟨name, value.setWidth 32⟩)

/-- `Status::update_pending_exception`. -/
def updatePendingException : TrackerBuild N Unit := do
  let pending ← Exception.all.foldlM (fun (pending : Val N Bool) (exception : Exception) => do
    let raised ← onStatus (Status.exceptionRaised naming exception)
    let unmasked ← onControl (Control.unmasked naming exception)
    return ⟨naming.or pending.name (naming.registers.and raised.name unmasked.name),
      pending.value || raised.value && unmasked.value⟩) (naming.registers.bool false)
  onStatus (defineField statusFields .errorSummary (naming.byte pending))
  onStatus (defineField statusFields .busy (naming.byte pending))

def controlWord : TrackerBuild N (BitVec 16) := onControl (Control.word naming)

def statusWord : TrackerBuild N (BitVec 16) := do
  let top ← onRegisters (Registers.top naming.registers)
  onStatus (Status.word naming top.value)

/-! ## Saving -/

/-- The environment as it is retained. -/
def captureEnvironment (tags : BitVec 16) : TrackerBuild N Environment := do
  let control ← controlWord naming
  let status ← statusWord naming
  let opcode ← readMetadata naming .opcode
  let instructionOffset ← readMetadata naming .instructionOffset
  let instructionSelector ← readMetadata naming .instructionSelector
  let dataOffset ← readMetadata naming .dataOffset
  let dataSelector ← readMetadata naming .dataSelector
  return ⟨control, status, tags, some (opcode.setWidth 16), ⟨instructionOffset, instructionSelector.setWidth 16⟩,
    ⟨dataOffset, dataSelector.setWidth 16⟩⟩

def environment (mode : EnvironmentMode) (size : WordSize) : TrackerBuild N (EnvironmentWords (BitVec size.bits)) := do
  let tags ← onRegisters (Registers.savedTagWord naming.registers)
  return (← captureEnvironment naming tags).encode mode size

/-- FXSAVE retains only occupancy, so its tags need no payload classification. -/
def fxEnvironment (pointerSize : PointerSize) : TrackerBuild N (FxWords (BitVec 32)) := do
  let tags ← onRegisters (Registers.tagWord naming.registers)
  let environment ← captureEnvironment naming tags
  (environment.encodeFx pointerSize).elim failure pure

def stackBits : TrackerBuild N (List ExtendedBits) := onRegisters (Registers.stackBits naming.registers)

/-! ## Restoring -/

/-- Replaces the environment and, when present, the registers. -/
def restoreEnvironment (names : Part → N) (environment : Environment) (registers : Option (Fin 8 → ExtendedValue N)) :
    TrackerBuild N Unit := do
  let status : Val N (BitVec 16) := ⟨names .status, environment.status⟩
  onControl (Control.loadWord naming ⟨names .control, environment.control⟩)
  onStatus (Status.loadWord naming status)
  onRegisters (Registers.restore naming.registers
    ⟨naming.part status.name 11 7, (status.value >>> 11 &&& (7 : BitVec 16)).setWidth 32⟩
        ⟨names .tags, environment.tags⟩
    registers)
  environment.opcode.elim (pure ()) (defineMetadata .opcode (names .opcode))
  defineMetadata .instructionOffset (names .instructionOffset) environment.instruction.offset
  defineMetadata .instructionSelector (names .instructionSelector) environment.instruction.selector
  defineMetadata .dataOffset (names .dataOffset) environment.data.offset
  defineMetadata .dataSelector (names .dataSelector) environment.data.selector
  updatePendingException naming

/-- Restores an environment and, when present, its eight logical stack values. -/
def restore (names : Part → N) (mode : EnvironmentMode) (size : WordSize) (words : EnvironmentWords (BitVec size.bits))
    (registers : Option (Fin 8 → ExtendedValue N)) : TrackerBuild N Unit :=
  restoreEnvironment naming names (.decode mode size words) registers

def restoreFx (names : Part → N) (pointerSize : PointerSize) (words : FxWords (BitVec 32))
    (registers : Fin 8 → ExtendedValue N) : TrackerBuild N Unit :=
  restoreEnvironment naming names (.decodeFx pointerSize words) (some registers)

def publish (tracker : X87Tracker N) (m : Memory) : Memory :=
  let m := Ssa.execute wordValue m tracker.control.publish
  let m := Ssa.execute wordValue m tracker.status.publish
  let m := tracker.registers.publish naming.registers m
  Ssa.execute wordValue m tracker.metadata.publish

end X87Tracker

/-! ## The state -/

/-- The register file with the values of the fields. -/
structure X87State where
  file : File
  control : ControlField → BitVec 32
  status : StatusField → BitVec 32
  metadata : MetadataField → BitVec 32

namespace X87State

def of (m : Memory) : X87State := ⟨.of m, controlFields.load m, statusFields.load m, metadataFields.load m⟩

variable (x : X87State)

def topPosition : BitVec 32 := (x.file.top &&& 7).setWidth 32

/-- What a save captures. -/
def environment (tags : BitVec 16) : Environment :=
  ⟨X87.controlWord x.control, X87.statusWord x.topPosition x.status, tags, some ((x.metadata .opcode).setWidth 16),
    ⟨x.metadata .instructionOffset, (x.metadata .instructionSelector).setWidth 16⟩,
    ⟨x.metadata .dataOffset, (x.metadata .dataSelector).setWidth 16⟩⟩

/-- The metadata of an image; an image without an opcode leaves the old one. -/
def restoredMetadata (environment : Environment) : MetadataField → BitVec 32
  | .opcode => environment.opcode.elim (x.metadata .opcode) (·.setWidth 32)
  | .instructionOffset => environment.instruction.offset
  | .instructionSelector => environment.instruction.selector.setWidth 32
  | .dataOffset => environment.data.offset
  | .dataSelector => environment.data.selector.setWidth 32

/-- The state that a restore leaves. -/
def restore (environment : Environment) (values : Option (Fin 8 → ExtendedBits)) : X87State :=
  ⟨x.file.restore ((environment.status >>> 11 &&& (7 : BitVec 16)).setWidth 32) environment.tags values,
    loadControl environment.control, summarize (loadControl environment.control) (loadStatus environment.status),
    x.restoredMetadata environment⟩

end X87State

/-- No field lies among the bytes of the register file. -/
theorem not_inFile_control {x : Nat} (h : controlFields.InField x) : ¬ InFile x := by
  obtain ⟨field, hlo, hhi⟩ := h
  have hrng : 176 ≤ controlFields.offset field ∧ controlFields.offset field +
      (controlFields.type field).bytes ≤ 188 := by
    have hall : ∀ f ∈ ControlField.all, 176 ≤ f.offset ∧ f.offset + f.type.bytes ≤ 188 := by decide
    exact hall field field.mem_all
  rintro (rfl | hword | ⟨i, hi⟩)
  · unfold topOffset at hlo hhi
    omega
  · unfold InTagWord tagWordOffset at hword
    omega
  · unfold InRegister registersOffset at hi
    omega

theorem not_inFile_status {x : Nat} (h : statusFields.InField x) : ¬ InFile x := by
  obtain ⟨field, hlo, hhi⟩ := h
  have hrng : 204 ≤ statusFields.offset field ∧ statusFields.offset field ≠ 211 ∧
      statusFields.offset field + 1 ≤ 218 := by
    have hall : ∀ f ∈ StatusField.all, 204 ≤ f.offset ∧ f.offset ≠ 211 ∧ f.offset + 1 ≤ 218 := by decide
    exact hall field field.mem_all
  have hbyte : (statusFields.type field).bytes = 1 := rfl
  rw [hbyte] at hhi
  rintro (rfl | hword | ⟨i, hi⟩)
  · unfold topOffset at hlo hhi
    omega
  · unfold InTagWord tagWordOffset at hword
    omega
  · unfold InRegister registersOffset at hi
    omega

theorem not_inFile_metadata {x : Nat} (h : metadataFields.InField x) : ¬ InFile x := by
  obtain ⟨field, hlo, hhi⟩ := h
  have hrng : 190 ≤ metadataFields.offset field ∧ metadataFields.offset field +
      (metadataFields.type field).bytes ≤ 204 := by
    have hall : ∀ f ∈ MetadataField.all, 190 ≤ f.offset ∧ f.offset + f.type.bytes ≤ 204 := by decide
    exact hall field field.mem_all
  rintro (rfl | hword | ⟨i, hi⟩)
  · unfold topOffset at hlo hhi
    omega
  · unfold InTagWord tagWordOffset at hword
    omega
  · unfold InRegister registersOffset at hi
    omega

section

variable {N α : Type} {naming : WordNaming N} {origin : Memory} {protocol : Protocol} {x : X87State}
variable {s : X87Tracker N × Memory}

/-- The tracker stands for a state. The fields are read from the memory at the start, which only registers change. -/
structure Holds (naming : WordNaming N) (origin : Memory) (protocol : Protocol) (x : X87State)
    (s : X87Tracker N × Memory) :
    Prop where
  registers : Tracks naming.registers origin protocol x.file (s.1.registers, s.2)
  control : Retains naming.registers.toNaming controlFields s.1.control origin x.control
  status : Retains naming.registers.toNaming statusFields s.1.status origin x.status
  metadata : Retains naming.registers.toNaming metadataFields s.1.metadata origin x.metadata

theorem Holds.new (naming : WordNaming N) (m : Memory) (pend : Bool) :
    Holds naming m ⟨pend, false⟩ (.of m) (.new naming, m) :=
  ⟨.new naming.registers m pend, .new .., .new .., .new ..⟩

namespace X87Tracker

/-! ## Accesses -/

variable {P : α → Prop}

variable {y : FieldBuild N α}

section

variable (h : Holds naming origin protocol x s)

include h

theorem onControl_spec
    {control : ControlField → BitVec 32}
    (hy : ∀ {m} {t : StateFields (Val N (BitVec 32)) × Memory},
        Keeps naming.registers.toNaming controlFields m x.control t →
      Total t y fun a t' => P a ∧ Keeps naming.registers.toNaming controlFields m control t') :
    Total s (onControl y) fun a s' => P a ∧ Holds naming origin protocol { x with control := control } s' := by
  have hm : ∀ x, controlFields.InField x → s.2 x = origin x := fun x hx => h.registers.frame x (not_inFile_control hx)
  obtain ⟨a, ⟨fields, m⟩, hrun, hp, hmem, hretains⟩ := @hy s.2 (s.1.control, s.2) ⟨rfl, h.control.congr hm⟩
  cases hmem
  refine ⟨a, ({ s.1 with control := fields }, s.2), ?_, hp, h.registers, ?_, h.status, h.metadata⟩
  · show (y (s.1.control, s.2)).bind _ = _
    rw [hrun]
    rfl
  · exact hretains.congr fun x hx => (hm x hx).symm

theorem onStatus_spec
    {status : StatusField → BitVec 32}
    (hy : ∀ {m} {t : StateFields (Val N (BitVec 32)) × Memory},
        Keeps naming.registers.toNaming statusFields m x.status t →
      Total t y fun a t' => P a ∧ Keeps naming.registers.toNaming statusFields m status t') :
    Total s (onStatus y) fun a s' => P a ∧ Holds naming origin protocol { x with status := status } s' := by
  have hm : ∀ x, statusFields.InField x → s.2 x = origin x := fun x hx => h.registers.frame x (not_inFile_status hx)
  obtain ⟨a, ⟨fields, m⟩, hrun, hp, hmem, hretains⟩ := @hy s.2 (s.1.status, s.2) ⟨rfl, h.status.congr hm⟩
  cases hmem
  refine ⟨a, ({ s.1 with status := fields }, s.2), ?_, hp, h.registers, h.control, ?_, h.metadata⟩
  · show (y (s.1.status, s.2)).bind _ = _
    rw [hrun]
    rfl
  · exact hretains.congr fun x hx => (hm x hx).symm

theorem onMetadata_spec
    {metadata : MetadataField → BitVec 32}
    (hy : ∀ {m} {t : StateFields (Val N (BitVec 32)) × Memory},
        Keeps naming.registers.toNaming metadataFields m x.metadata t →
      Total t y fun a t' => P a ∧ Keeps naming.registers.toNaming metadataFields m metadata t') :
    Total s (onMetadata y) fun a s' => P a ∧ Holds naming origin protocol { x with metadata := metadata } s' := by
  have hm : ∀ x, metadataFields.InField x → s.2 x = origin x := fun x hx => h.registers.frame x (not_inFile_metadata hx)
  obtain ⟨a, ⟨fields, m⟩, hrun, hp, hmem, hretains⟩ := @hy s.2 (s.1.metadata, s.2) ⟨rfl, h.metadata.congr hm⟩
  cases hmem
  refine ⟨a, ({ s.1 with metadata := fields }, s.2), ?_, hp, h.registers, h.control, h.status, ?_⟩
  · show (y (s.1.metadata, s.2)).bind _ = _
    rw [hrun]
    rfl
  · exact hretains.congr fun x hx => (hm x hx).symm

theorem onRegisters_spec {y : Build N α} {protocol' : Protocol}
    {file : File}
    (hy : Total (s.1.registers, s.2) y fun a t' => P a ∧ Tracks naming.registers origin protocol' file t') :
    Total s (onRegisters y) fun a s' => P a ∧ Holds naming origin protocol' { x with file := file } s' := by
  obtain ⟨a, ⟨registers, m⟩, hrun, hp, htr⟩ := hy
  refine ⟨a, ({ s.1 with registers := registers }, m), ?_, hp, htr, h.control, h.status, h.metadata⟩
  show (y (s.1.registers, s.2)).bind _ = _
  rw [hrun]
  rfl

theorem readMetadata_spec (field : MetadataField) :
    Total s (readMetadata naming field) fun value s' => value = x.metadata field ∧ Holds naming origin protocol x s' :=
  Total.bind (onMetadata_spec h fun hkeeps => readField_spec hkeeps field) fun _ _ hval => Total.pure hval

theorem controlWord_spec :
    Total s (controlWord naming) fun word s' => word = X87.controlWord x.control ∧ Holds naming origin protocol x s' :=
  onControl_spec h Control.word_spec

theorem statusWord_spec :
    Total s (statusWord naming) fun word s' =>
      word = X87.statusWord x.topPosition x.status ∧ Holds naming origin protocol x s' := by
  refine Total.bind (onRegisters_spec h ((top_spec h.registers).mono fun _ _ ⟨htop, _, htr⟩ => ⟨htop, htr⟩))
    fun top s' ⟨htop, hholds⟩ => ?_
  rw [htop]
  exact onStatus_spec hholds fun hkeeps => Status.word_spec hkeeps x.topPosition

/-! ## Saving -/

theorem captureEnvironment_spec (tags : BitVec 16) :
    Total s (captureEnvironment naming tags) fun environment s' =>
      environment = x.environment tags ∧ Holds naming origin protocol x s' := by
  refine Total.bind (controlWord_spec h) fun control s' ⟨hctl, hholds⟩ => ?_
  refine Total.bind (statusWord_spec hholds) fun status s' ⟨hstatus, hholds⟩ => ?_
  refine Total.bind (readMetadata_spec hholds .opcode) fun opcode s' ⟨hopcode, hholds⟩ => ?_
  refine Total.bind (readMetadata_spec hholds .instructionOffset) fun ioffset s' ⟨hioffset, hholds⟩ => ?_
  refine Total.bind (readMetadata_spec hholds .instructionSelector) fun iselector s' ⟨hiselector, hholds⟩ => ?_
  refine Total.bind (readMetadata_spec hholds .dataOffset) fun doffset s' ⟨hdoffset, hholds⟩ => ?_
  refine Total.bind (readMetadata_spec hholds .dataSelector) fun dselector s' ⟨hdselector, hholds⟩ =>
      Total.pure ⟨?_, hholds⟩
  rw [hctl, hstatus, hopcode, hioffset, hiselector, hdoffset, hdselector]
  rfl

theorem environment_spec (mode : EnvironmentMode) (size : WordSize) :
    Total s (environment naming mode size) fun words s' =>
      words = (x.environment x.file.savedTagWord).encode mode size ∧ Holds naming origin protocol x s' := by
  refine Total.bind (onRegisters_spec h (savedTagWord_spec h.registers)) fun tags s' ⟨htags, hholds⟩ => ?_
  refine Total.bind (captureEnvironment_spec hholds tags) fun environment s' ⟨henv, hholds⟩ =>
    Total.pure ⟨?_, hholds⟩
  rw [henv, htags]

theorem fxEnvironment_spec (pointerSize : PointerSize) :
    Total s (fxEnvironment naming pointerSize) fun words s' =>
      (x.environment x.file.tagWord).encodeFx pointerSize = some words ∧ Holds naming origin protocol x s' := by
  refine Total.bind (onRegisters_spec h (tagWord_spec h.registers)) fun tags s' ⟨htags, hholds⟩ => ?_
  refine Total.bind (captureEnvironment_spec hholds tags) fun environment s' ⟨henv, hholds⟩ => ?_
  rw [henv, htags]
  exact Total.pure ⟨rfl, hholds⟩

end

variable [DecidableEq N]

theorem stackBits_spec (h : Holds naming origin protocol x s) :
    Total s (stackBits naming) fun values s' =>
      values = x.file.stackBits ∧ Holds naming origin { protocol with moved := false } x s' :=
  onRegisters_spec h (X87.stackBits_spec h.registers)

/-! ## Restoring -/

/-- A metadata field is replaced by a value of its type. -/
theorem defineMetadata_spec (h : Holds naming origin protocol x s) (field : MetadataField) (name : N) {w : Nat}
    (value : BitVec w) (hw : w ≤ 8 * (metadataFields.type field).bytes) :
    Total s (defineMetadata field name value) fun _ s' =>
      Holds naming origin protocol { x with metadata := update x.metadata field (value.setWidth 32) } s' := by
  refine (onMetadata_spec (P := fun _ => True) h fun hkeeps => ?_).mono fun _ s' ⟨_, hholds⟩ => hholds
  exact (defineField_spec hkeeps field (narrow_setWidth value hw)).mono fun _ _ hkeeps => ⟨trivial, hkeeps⟩

theorem updatePendingException_spec (h : Holds naming origin protocol x s) :
    Total s (updatePendingException naming) fun _ s' =>
      Holds naming origin protocol { x with status := summarize x.control x.status } s' := by
  refine Total.bind (Total.foldlM
    (I := fun (pending : Bool) (built : Val N Bool) s => built.value = pending ∧ Holds naming origin protocol x s)
    (g := fun pending exception =>
      pending || (x.status (.flag exception)).getLsbD 0 && !(x.control (.mask exception)).getLsbD 0)
    (fun exception _ pending built s ⟨hbuilt, h⟩ => ?_) ⟨rfl, h⟩) fun pending s' ⟨hpend, hholds⟩ => ?_
  · refine Total.bind (onStatus_spec h fun hkeeps => Status.flag_spec hkeeps (.flag exception)) fun raised s'
      ⟨hraised, hholds⟩ => ?_
    refine Total.bind (onControl_spec hholds fun hkeeps => Control.unmasked_spec hkeeps exception)
      fun unmasked s' ⟨hunmasked, hholds⟩ => Total.pure ⟨?_, hholds⟩
    dsimp only
    rw [hbuilt, hraised, hunmasked]
  · have hbyte : (naming.byte pending).value = (BitVec.ofBool (pendingException x.control x.status)).setWidth 32 :=
      congrArg (fun b => (BitVec.ofBool b).setWidth 32) hpend
    have hdefn : ∀ {x' : X87State} {s : X87Tracker N × Memory} (field : StatusField),
        Holds naming origin protocol x' s →
        Total s (onStatus (defineField statusFields field (naming.byte pending))) fun _ s' =>
          Holds naming origin protocol ⟨x'.file, x'.control, update x'.status field
            ((BitVec.ofBool (pendingException x.control x.status)).setWidth 32), x'.metadata⟩ s' := by
      intro x' s field h
      have hnarrow : Narrow (statusFields.type field).bytes (naming.byte pending).value :=
        narrow_setWidth (BitVec.ofBool pending.value) (show 1 ≤ 8 * 1 by decide)
      refine (onStatus_spec (P := fun _ => True) h fun hkeeps => ?_).mono fun _ s' ⟨_, hholds⟩ => hholds
      rw [← hbyte]
      exact (defineField_spec hkeeps field hnarrow).mono fun _ _ hkeeps => ⟨trivial, hkeeps⟩
    exact Total.bind (hdefn .errorSummary hholds) fun _ s' hholds => hdefn .busy hholds

/-- A restore replaces the state. Only an image without registers needs an earlier check that no exception pends. -/
theorem restoreEnvironment_spec (h : Holds naming origin protocol x s) (names : Part → N) (env : Environment)
    (values : Option (Fin 8 → ExtendedValue N)) {pend : Bool}
    (hpend : values = none → pend = false → protocol.pending = false) :
    Total s (restoreEnvironment naming names env values) fun _ s' =>
      Holds naming origin ⟨pend, false⟩ (x.restore env (values.map fun values i => (values i).value))
          s' := by
  refine Total.bind (onControl_spec (P := fun _ => True) h fun hkeeps =>
    (Control.loadWord_spec hkeeps _).mono fun _ _ hkeeps => ⟨trivial, hkeeps⟩) fun _ s' ⟨_, hholds⟩ => ?_
  refine Total.bind (onStatus_spec (P := fun _ => True) hholds fun hkeeps =>
    (Status.loadWord_spec hkeeps _).mono fun _ _ hkeeps => ⟨trivial, hkeeps⟩) fun _ s' ⟨_, hholds⟩ => ?_
  refine Total.bind (onRegisters_spec (P := fun _ => True) hholds
      ((restore_spec hholds.registers _ _ values hpend).mono
    fun _ _ htr => ⟨trivial, htr⟩)) fun _ s' ⟨_, hholds⟩ => ?_
  have hopcode : Total s' (env.opcode.elim (pure ()) (defineMetadata .opcode (names .opcode))) fun _ s' =>
      Holds naming origin ⟨pend, false⟩
        ⟨x.file.restore ((env.status >>> 11 &&& (7 : BitVec 16)).setWidth 32) env.tags
            (values.map fun values i => (values i).value),
          loadControl env.control, loadStatus env.status,
          update x.metadata .opcode (env.opcode.elim (x.metadata .opcode) (·.setWidth 32))⟩ s' := by
    cases env.opcode with
    | some opcode => exact defineMetadata_spec hholds .opcode _ opcode (by decide)
    | none =>
      refine Total.pure ?_
      rw [Option.elim_none, Function.update_eq_self]
      exact hholds
  refine Total.bind hopcode fun _ s' hholds => ?_
  refine Total.bind (defineMetadata_spec hholds .instructionOffset _ env.instruction.offset (by decide))
    fun _ s' hholds => ?_
  refine Total.bind (defineMetadata_spec hholds .instructionSelector _ env.instruction.selector (by decide))
    fun _ s' hholds => ?_
  refine Total.bind (defineMetadata_spec hholds .dataOffset _ env.data.offset (by decide)) fun _ s' hholds => ?_
  refine Total.bind (defineMetadata_spec hholds .dataSelector _ env.data.selector (by decide)) fun _ s'
      hholds => ?_
  have hmetadata : update (update (update
      (update (update x.metadata .opcode
        (env.opcode.elim (x.metadata .opcode) (·.setWidth 32)))
      .instructionOffset (env.instruction.offset.setWidth 32))
      .instructionSelector (env.instruction.selector.setWidth 32))
      .dataOffset (env.data.offset.setWidth 32))
      .dataSelector (env.data.selector.setWidth 32) = x.restoredMetadata env := by
    funext field
    cases field with
    | opcode => rfl
    | instructionOffset | dataOffset => exact BitVec.setWidth_eq _
    | instructionSelector | dataSelector => rfl
  dsimp only at hholds
  rw [hmetadata] at hholds
  exact updatePendingException_spec hholds

end X87Tracker

end

end Relocade.X87
