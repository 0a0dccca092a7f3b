import Relocade.Vga.Banks
import Relocade.Vga.Dispi
import Relocade.Vga.Polling

/-!
# `Vga.State` — saving and restoring the programming state

Three classes make up the programming of the adapter: the core registers, the palette colors, and the banked display
interface. Each is captured, encoded, decoded and restored on its own. Accesses through ports and a restore first bring
the raster up to the clock, under the programming that applied until then, and then reconfigure it.
-/

namespace Relocade.Vga

open Slices (slice_skip slice_front)

/-! ## Ports -/

def OPTION_SELECT_PORT : BitVec 16 := 0x102
def MONO_CRTC_INDEX_PORT : BitVec 16 := 0x3b4
def MONO_CRTC_DATA_PORT : BitVec 16 := 0x3b5
def MONO_INPUT_STATUS_1_PORT : BitVec 16 := 0x3ba
def ATTRIBUTE_ADDRESS_PORT : BitVec 16 := 0x3c0
def ATTRIBUTE_DATA_READ_PORT : BitVec 16 := 0x3c1
def MISC_OUTPUT_WRITE_PORT : BitVec 16 := 0x3c2
def SEQUENCER_INDEX_PORT : BitVec 16 := 0x3c4
def SEQUENCER_DATA_PORT : BitVec 16 := 0x3c5
def DAC_MASK_PORT : BitVec 16 := 0x3c6
def DAC_READ_ADDRESS_PORT : BitVec 16 := 0x3c7
def DAC_WRITE_ADDRESS_PORT : BitVec 16 := 0x3c8
def DAC_DATA_PORT : BitVec 16 := 0x3c9
def FEATURE_CONTROL_READ_PORT : BitVec 16 := 0x3ca
def MISC_OUTPUT_READ_PORT : BitVec 16 := 0x3cc
def GRAPHICS_INDEX_PORT : BitVec 16 := 0x3ce
def GRAPHICS_DATA_PORT : BitVec 16 := 0x3cf
def CRTC_INDEX_PORT : BitVec 16 := 0x3d4
def CRTC_DATA_PORT : BitVec 16 := 0x3d5
def COLOR_INPUT_STATUS_1_PORT : BitVec 16 := 0x3da
def ADAPTER_CONTROL_PORT : BitVec 16 := 0x46e8

/-- Live VGA register banks. -/
structure RegisterBanks where
  crtc : Crtc
  sequencer : Sequencer
  graphics : Graphics
  attributes : Attribute
  dac : Dac
  miscellaneous : BitVec 8
  featureControl : BitVec 8

namespace RegisterBanks

def default : RegisterBanks where
  crtc := Crtc.default
  sequencer := Sequencer.default
  graphics := Graphics.default
  attributes := Attribute.default
  dac := Dac.default
  miscellaneous := 0x43
  featureControl := 0

variable (registers : RegisterBanks)

def statusPort : BitVec 16 :=
  if registers.miscellaneous &&& 1 = 0 then MONO_INPUT_STATUS_1_PORT else COLOR_INPUT_STATUS_1_PORT

def crtcPorts : BitVec 16 × BitVec 16 :=
  if registers.miscellaneous &&& 1 = 0 then (MONO_CRTC_INDEX_PORT, MONO_CRTC_DATA_PORT)
  else (CRTC_INDEX_PORT, CRTC_DATA_PORT)

/-- The value of a register, all ones behind an index that has none. -/
def readBank {n : Nat} {masks : Masks n} (bank : Bank masks) (index : BitVec 8) : BitVec 8 :=
  if h : index.toNat < n then bank.values ⟨index.toNat, h⟩ else 0xff

/-- The value at a port; reading the DAC or the status has effects. -/
def readPort (port : BitVec 16) (rasterStatus : BitVec 8) : BitVec 8 × RegisterBanks :=
  if port = ATTRIBUTE_ADDRESS_PORT then (registers.attributes.bank.index, registers)
  else if port = ATTRIBUTE_DATA_READ_PORT then
    (readBank registers.attributes.bank (registers.attributes.bank.index &&& 0x1f), registers)
  -- Attached color display; no retrace interrupt wired.
  else if port = MISC_OUTPUT_WRITE_PORT then (0x10, registers)
  else if port = MISC_OUTPUT_READ_PORT then (registers.miscellaneous, registers)
  else if port = SEQUENCER_INDEX_PORT then (registers.sequencer.index, registers)
  else if port = SEQUENCER_DATA_PORT then (readBank registers.sequencer registers.sequencer.index, registers)
  else if port = GRAPHICS_INDEX_PORT then (registers.graphics.index, registers)
  else if port = GRAPHICS_DATA_PORT then (readBank registers.graphics registers.graphics.index, registers)
  else if port = DAC_MASK_PORT then (registers.dac.mask, registers)
  else if port = DAC_READ_ADDRESS_PORT then (registers.dac.state, registers)
  else if port = DAC_WRITE_ADDRESS_PORT then (registers.dac.reportedAddress, registers)
  else if port = DAC_DATA_PORT then (registers.dac.read.1, { registers with dac := registers.dac.read.2 })
  else if port = FEATURE_CONTROL_READ_PORT then (registers.featureControl, registers)
  else if port = registers.statusPort then
    (rasterStatus, { registers with attributes := registers.attributes.resetAddress })
  else if port = registers.crtcPorts.1 then (registers.crtc.bank.index, registers)
  else if port = registers.crtcPorts.2 then (readBank registers.crtc.bank registers.crtc.bank.index, registers)
  else (0xff, registers)

/-- What a write leaves in the registers. -/
def writePort (port : BitVec 16) (value : BitVec 8) : RegisterBanks :=
  if port = ATTRIBUTE_ADDRESS_PORT then { registers with attributes := registers.attributes.write value }
  else if port = MISC_OUTPUT_WRITE_PORT then { registers with miscellaneous := value }
  else if port = SEQUENCER_INDEX_PORT then { registers with sequencer := registers.sequencer.select value }
  else if port = SEQUENCER_DATA_PORT then { registers with sequencer := registers.sequencer.write value }
  else if port = GRAPHICS_INDEX_PORT then { registers with graphics := registers.graphics.select value }
  else if port = GRAPHICS_DATA_PORT then { registers with graphics := registers.graphics.write value }
  else if port = DAC_MASK_PORT then { registers with dac := { registers.dac with mask := value } }
  else if port = DAC_READ_ADDRESS_PORT then { registers with dac := registers.dac.select value true }
  else if port = DAC_WRITE_ADDRESS_PORT then { registers with dac := registers.dac.select value false }
  else if port = DAC_DATA_PORT then { registers with dac := registers.dac.write value }
  else if port = registers.statusPort then { registers with featureControl := value }
  else if port = registers.crtcPorts.1 then { registers with crtc := registers.crtc.select value }
  else if port = registers.crtcPorts.2 then { registers with crtc := registers.crtc.write value }
  else registers

/-- The values that timing is decoded from. -/
def timed : Registers where
  crtc := fun i => if h : i < 25 then registers.crtc.bank.values ⟨i, h⟩ else 0
  sequencer := fun i => if h : i < 5 then registers.sequencer.values ⟨i, h⟩ else 0
  miscellaneous := registers.miscellaneous

end RegisterBanks

/-! ## Saved classes -/

/-- Standard VGA registers, CPU access phases and latches and adapter address decoding. -/
structure VgaCoreState where
  crtc : Crtc
  sequencer : Sequencer
  graphics : Graphics
  attributes : Attribute
  miscellaneous : BitVec 8
  featureControl : BitVec 8
  setup : Setup
  latches : Fin 4 → BitVec 8
  /-- Color Select belongs to `DacState`. -/
  cleared : attributes.colorSelect = 0

namespace VgaCoreState

variable (core : VgaCoreState)

def toBytes : Bytes :=
  [core.miscellaneous, core.featureControl] ++ core.setup.toBytes ++
    [core.sequencer.index, core.graphics.index, core.crtc.bank.index, core.attributes.bank.index,
      if core.attributes.dataNext then 1 else 0] ++
    (Memory.lowBytes 2 core.crtc.displayStart ++ (List.ofFn core.latches ++ (List.ofFn core.sequencer.values ++
      (List.ofFn core.graphics.values ++ (List.ofFn core.crtc.bank.values ++
        (List.ofFn fun i : Fin 20 => core.attributes.bank.values i.castSucc))))))

/-- The classes of a record of bytes, by writing each register. -/
def read (bytes : Bytes) : Option VgaCoreState :=
  let crtc := (Crtc.unprotected.fill (Slices.table 0 25 (Slices.slice bytes 29 25))).select (bytes.getD 6 0)
  let attributes := ((Attribute.default.fill (Slices.table 0 20 (Slices.slice bytes 54 20))).resetAddress.write
    (bytes.getD 7 0))
  let attributes := if bytes.getD 8 0 = 0 then attributes.resetAddress else attributes
  (Setup.fromBytes (bytes.getD 2 0) (bytes.getD 3 0)).map fun setup =>
    { crtc := { crtc with displayStart := Memory.ofBytes 16 (Slices.slice bytes 9 2) }
      sequencer := (Sequencer.default.fill (Slices.table 0 5 (Slices.slice bytes 15 5))).select (bytes.getD 4 0)
      graphics := (Graphics.default.fill (Slices.table 0 9 (Slices.slice bytes 20 9))).select (bytes.getD 5 0)
      attributes := attributes.setColorSelect 0
      miscellaneous := bytes.getD 0 0
      featureControl := bytes.getD 1 0
      setup := setup
      latches := Slices.table 0 4 (Slices.slice bytes 11 4)
      cleared := attributes.colorSelect_setColorSelect 0 (by decide) }

/-- A noncanonical encoding is rejected. -/
def fromBytes (bytes : Bytes) : Option VgaCoreState :=
  (read bytes).filter fun core => core.toBytes = bytes

end VgaCoreState

/-- Colors, pixel mask, exact transfer position and Color Select. -/
structure DacState where
  dac : Dac
  colorSelect : BitVec 8
  colorSelect_le : colorSelect.toNat ≤ 15

namespace DacState

def toBytes (state : DacState) : Bytes := state.dac.toStateBytes ++ [state.colorSelect]

def fromBytes (bytes : Bytes) : Option DacState :=
  if h : (bytes.getD 772 0).toNat ≤ 15 then
    (Dac.fromStateBytes (bytes.take 772)).map fun dac => ⟨dac, bytes.getD 772 0, h⟩
  else none

end DacState

/-! ## The adapter -/

/-- The adapter with its video memory. Memory accesses through a mapping change only what it holds. -/
structure Device where
  vram : Memory
  latches : Fin 4 → BitVec 8
  registers : RegisterBanks
  setup : Setup
  dispi : Dispi
  raster : Raster

namespace Device

def new (now : Nat) : Device where
  vram := fun _ => 0
  latches := fun _ => 0
  registers := RegisterBanks.default
  setup := Setup.default
  dispi := Dispi.default
  raster := Raster.new now (Timing.vga RegisterBanks.default.timed)

variable (v : Device)

def programming : Programming :=
  match v.dispi.displayLayout with
  | some layout => .svga layout.mode.resolution
  | none => .vga v.registers.timed

/-- The extent of memory that scanout reads. -/
def scanoutBytes : Option Nat :=
  match v.dispi.displayLayout with
  | some layout => layout.memoryBytes
  | none => some (4 * BLOCK_BYTES)

/-- The extent of memory that a capture shares. More than there is, is a panic. -/
def snapshotBytes : Option Nat := v.scanoutBytes.filter fun bytes => bytes ≤ VIDEO_MEMORY_BYTES

/-- Bring raster state up to the clock. A retrace selects the start address. -/
def syncToClock (now : Nat) : Option Device :=
  (v.raster.updateTo now).bind fun update =>
    match update.1 with
    | none => some { v with raster := update.2 }
    | some _ =>
        let crtc :=
          if v.dispi.displayLayout = none then v.registers.crtc.latchDisplayStart else v.registers.crtc
        let synced := { v with raster := update.2, registers := { v.registers with crtc } }
        synced.snapshotBytes.map fun _ => synced

/-- Time the raster for the programming that applies from now on. -/
def reconfigure (previous : Option SvgaLayout) : Option Device :=
  let resolution := fun layout : SvgaLayout => layout.mode.resolution
  if v.dispi.displayLayout.map resolution ≠ previous.map resolution then
    some { v with raster := v.raster.restart v.programming.timing }
  else (v.raster.setTiming v.programming.timing).map fun timed => { v with raster := timed.2 }

def applyDispi (port : BitVec 16) (bytes : Nat) (value : BitVec 32) : Option Device :=
  if v.setup.enabled then
    (v.dispi.writePort port bytes value).map fun written =>
      { v with dispi := written.1, vram := if written.2 = .clearVram then fun _ => 0 else v.vram }
  else some v

def writeByte (port : BitVec 16) (value : BitVec 8) : Device :=
  if port = ADAPTER_CONTROL_PORT then { v with setup := v.setup.writeControl value }
  else if port = OPTION_SELECT_PORT then { v with setup := v.setup.writeOption value }
  else if v.setup.enabled then { v with registers := v.registers.writePort port value }
  else v

def writeBytes (port : BitVec 16) (bytes : Bytes) : Device :=
  bytes.zipIdx.foldl (fun v byte => v.writeByte (port + BitVec.ofNat 16 byte.2) byte.1) v

/-- Bytes go to adjacent ports, but at the interface's a word is one register. -/
def transfer (port : BitVec 16) (bytes : Nat) (value : BitVec 32) : Option Device :=
  if port = Dispi.INDEX_PORT ∨ port = Dispi.DATA_PORT then v.applyDispi port bytes value
  else if bytes ≤ 4 then some (v.writeBytes port ((Memory.lowBytes 4 value).take bytes))
  else none

def writePort (now : Nat) (port : BitVec 16) (bytes : Nat) (value : BitVec 32) : Option Device :=
  (v.syncToClock now).bind fun synced =>
    (synced.transfer port bytes value).bind fun written => written.reconfigure synced.dispi.displayLayout

def readByte (port : BitVec 16) (rasterStatus : BitVec 8) : BitVec 8 × Device :=
  if port = OPTION_SELECT_PORT then (v.setup.readOption, v)
  else if v.setup.enabled then
    ((v.registers.readPort port rasterStatus).1, { v with registers := (v.registers.readPort port rasterStatus).2 })
  else (0xff, v)

/-- The bytes read from adjacent ports, and the device after them. -/
def readBytes (port : BitVec 16) (rasterStatus : BitVec 8) : Nat → Bytes × Device
  | 0 => ([], v)
  | count + 1 =>
      let before := readBytes port rasterStatus count
      let byte := before.2.readByte (port + BitVec.ofNat 16 count) rasterStatus
      (before.1 ++ [byte.1], byte.2)

def readPort (now : Nat) (port : BitVec 16) (bytes : Nat) (rasterStatus : BitVec 8) :
    Option (BitVec 32 × Device) :=
  (v.syncToClock now).bind fun synced =>
    if port = Dispi.INDEX_PORT ∨ port = Dispi.DATA_PORT then
      if synced.setup.enabled then (synced.dispi.readPort port bytes).map fun value => (value, synced)
      else (Checked.sub 4 bytes).map fun rest => ((0xffffffff : BitVec 32) >>> (rest * 8), synced)
    else if bytes ≤ 4 then
      let read := synced.readBytes port rasterStatus bytes
      some (Memory.ofBytes 32 read.1, read.2)
    else none

/-! ## Saving and restoring -/

def coreState : VgaCoreState where
  crtc := v.registers.crtc
  sequencer := v.registers.sequencer
  graphics := v.registers.graphics
  attributes := v.registers.attributes.setColorSelect 0
  miscellaneous := v.registers.miscellaneous
  featureControl := v.registers.featureControl
  setup := v.setup
  latches := v.latches
  cleared := v.registers.attributes.colorSelect_setColorSelect 0 (by decide)

def dacState : DacState where
  dac := v.registers.dac
  colorSelect := v.registers.attributes.colorSelect
  colorSelect_le := by
    have hkept := v.registers.attributes.bank.values_kept Attribute.COLOR_SELECT
    have hbits : ∀ value : BitVec 8, value &&& 0x0f = value → value.toNat ≤ 15 := by decide
    exact hbits _ hkept

def dispiState : Dispi := v.dispi

/-- The color select and the DAC are no part of the core. -/
def restoreCore (core : VgaCoreState) : Device :=
  let colorSelect := v.registers.attributes.colorSelect
  { v with
    registers := { v.registers with
      crtc := core.crtc
      sequencer := core.sequencer
      graphics := core.graphics
      attributes := core.attributes.setColorSelect colorSelect
      miscellaneous := core.miscellaneous
      featureControl := core.featureControl }
    setup := core.setup
    latches := core.latches }

def restoreDac (state : DacState) : Device :=
  { v with
    registers := { v.registers with
      dac := state.dac
      attributes := v.registers.attributes.setColorSelect state.colorSelect } }

/-- The classes that are given, over those that there are. -/
def apply (core : Option VgaCoreState) (dac : Option DacState) (dispi : Option Dispi) : Device :=
  let cored := core.elim v v.restoreCore
  let colored := dac.elim cored cored.restoreDac
  dispi.elim colored fun dispi => { colored with dispi }

/-- Apply already-validated state classes together. -/
def restoreState (now : Nat) (core : Option VgaCoreState) (dac : Option DacState) (dispi : Option Dispi) :
    Option Device :=
  if core.isNone ∧ dac.isNone ∧ dispi.isNone then some v
  else
    (v.syncToClock now).bind fun synced => (synced.apply core dac dispi).reconfigure synced.dispi.displayLayout

end Device

/-! ## Encodings -/

namespace VgaCoreState

variable (core : VgaCoreState)

theorem ext' {core other : VgaCoreState} (hcrtc : core.crtc = other.crtc)
    (hsequencer : core.sequencer = other.sequencer) (hgraphics : core.graphics = other.graphics)
    (hattributes : core.attributes = other.attributes)
    (hmiscellaneous : core.miscellaneous = other.miscellaneous) (hfeature : core.featureControl = other.featureControl)
    (hsetup : core.setup = other.setup) (hlatches : core.latches = other.latches) : core = other := by
  cases core
  cases other
  cases hcrtc
  cases hsequencer
  cases hgraphics
  cases hattributes
  cases hmiscellaneous
  cases hfeature
  cases hsetup
  cases hlatches
  rfl

/-- What stands in front of the display start. -/
def header : Bytes :=
  [core.miscellaneous, core.featureControl, core.setup.control, core.setup.option, core.sequencer.index,
    core.graphics.index, core.crtc.bank.index, core.attributes.bank.index, if core.attributes.dataNext then 1 else 0]

theorem toBytes_eq : core.toBytes =
    core.header ++ (Memory.lowBytes 2 core.crtc.displayStart ++ (List.ofFn core.latches ++
    (List.ofFn core.sequencer.values ++ (List.ofFn core.graphics.values ++ (List.ofFn core.crtc.bank.values ++
      (List.ofFn fun i : Fin 20 => core.attributes.bank.values i.castSucc)))))) := rfl

/-- The parts of an encoding. -/
theorem slices_toBytes :
    Slices.slice core.toBytes 9 2 = Memory.lowBytes 2 core.crtc.displayStart ∧
    Slices.slice core.toBytes 11 4 = List.ofFn core.latches ∧
    Slices.slice core.toBytes 15 5 = List.ofFn core.sequencer.values ∧
    Slices.slice core.toBytes 20 9 = List.ofFn core.graphics.values ∧
    Slices.slice core.toBytes 29 25 = List.ofFn core.crtc.bank.values ∧
    Slices.slice core.toBytes 54 20 = List.ofFn fun i : Fin 20 => core.attributes.bank.values i.castSucc := by
  have hheader : core.header.length = 9 := rfl
  have hst : (Memory.lowBytes 2 core.crtc.displayStart).length = 2 := Memory.length_lowBytes 2 _
  have hlatches : (List.ofFn core.latches).length = 4 := List.length_ofFn
  have hsequencer : (List.ofFn core.sequencer.values).length = 5 := List.length_ofFn
  have hgraphics : (List.ofFn core.graphics.values).length = 9 := List.length_ofFn
  have hcrtc : (List.ofFn core.crtc.bank.values).length = 25 := List.length_ofFn
  rw [toBytes_eq]
  refine ⟨?_, ?_, ?_, ?_, ?_, ?_⟩
  · rw [slice_skip hheader 0, slice_front hst]
  · rw [slice_skip hheader 2, slice_skip hst 0, slice_front hlatches]
  · rw [slice_skip hheader 6, slice_skip hst 4, slice_skip hlatches 0, slice_front hsequencer]
  · rw [slice_skip hheader 11, slice_skip hst 9, slice_skip hlatches 5,
      slice_skip hsequencer 0, slice_front hgraphics]
  · rw [slice_skip hheader 20, slice_skip hst 18, slice_skip hlatches 14,
      slice_skip hsequencer 9, slice_skip hgraphics 0, slice_front hcrtc]
  · rw [slice_skip hheader 45, slice_skip hst 43, slice_skip hlatches 39,
      slice_skip hsequencer 34, slice_skip hgraphics 25, slice_skip hcrtc 0,
      Slices.slice_all List.length_ofFn]

/-- The registers of the Attribute Controller, written and cleared of Color Select, are those that were read. -/
theorem attributes_eq (phase : Bool) :
    (Attribute.setColorSelect ⟨((Attribute.default.fill fun i => core.attributes.bank.values i.castSucc).bank.select
      core.attributes.bank.index), phase⟩ 0).bank = core.attributes.bank := by
  refine Bank.ext' core.attributes.bank.index_kept ?_
  have hcleared : core.attributes.bank.values Attribute.COLOR_SELECT = 0 := core.cleared
  funext i
  show Function.update (Attribute.default.fill fun i => core.attributes.bank.values i.castSucc).bank.values
    Attribute.COLOR_SELECT (0 &&& attributeMasks.values Attribute.COLOR_SELECT) i = core.attributes.bank.values i
  by_cases hi : i = Attribute.COLOR_SELECT
  · subst hi
    rw [Function.update_self, hcleared]
    decide
  · have hlt : i.val < 20 := by
      have hne : i.val ≠ 20 := fun heq => hi (Fin.ext heq)
      omega
    rw [Function.update_of_ne hi, Attribute.values_fill]
    dsimp only
    rw [if_pos hlt, Attribute.filled, dif_pos hlt]
    exact core.attributes.bank.values_kept i

/-- The bytes in front of the display start. -/
theorem getD_toBytes :
    core.toBytes.getD 0 0 = core.miscellaneous ∧ core.toBytes.getD 1 0 = core.featureControl ∧
    core.toBytes.getD 2 0 = core.setup.control ∧ core.toBytes.getD 3 0 = core.setup.option ∧
    core.toBytes.getD 4 0 = core.sequencer.index ∧ core.toBytes.getD 5 0 = core.graphics.index ∧
    core.toBytes.getD 6 0 = core.crtc.bank.index ∧ core.toBytes.getD 7 0 = core.attributes.bank.index ∧
    core.toBytes.getD 8 0 = if core.attributes.dataNext then 1 else 0 :=
  ⟨rfl, rfl, rfl, rfl, rfl, rfl, rfl, rfl, rfl⟩

/-- A core whose start address a retrace has selected. -/
def latched : VgaCoreState := { core with crtc := core.crtc.latchDisplayStart }

theorem read_toBytes : read core.toBytes = some core := by
  obtain ⟨hst, hlatches, hsequencer, hgraphics, hcrtc, hattributes⟩ := core.slices_toBytes
  obtain ⟨h0, h1, h2, h3, h4, h5, h6, h7, h8⟩ := core.getD_toBytes
  have hopen : Crtc.unprotected.bank.values Crtc.RETRACE_END_INDEX &&& Crtc.PROTECT_TIMING_REGISTERS = 0 := by decide
  rw [read]
  simp only [hst, hlatches, hsequencer, hgraphics, hcrtc, hattributes, h0, h1, h2, h3, h4, h5, h6, h7, h8,
    Slices.table_ofFn, core.setup.fromBytes_kept, Option.map_some]
  refine congrArg some (ext' ?_ ?_ ?_ ?_ rfl rfl rfl rfl)
  · exact Crtc.ext' (Crtc.fill_bank _ hopen) (Memory.ofBytes_lowBytes core.crtc.displayStart rfl)
  · exact Bank.fill_select _
  · exact Bank.fill_select _
  · dsimp only
    cases hnext : core.attributes.dataNext with
    | true => exact Attribute.ext' (core.attributes_eq true) hnext.symm
    | false => exact Attribute.ext' (core.attributes_eq false) hnext.symm

/-- A captured core is decoded from its encoding. -/
theorem fromBytes_toBytes : fromBytes core.toBytes = some core := by
  rw [fromBytes, read_toBytes]
  exact Option.filter_some_pos (decide_eq_true rfl)

/-- Only encodings are decoded. -/
theorem toBytes_of_fromBytes {bytes : Bytes} {core : VgaCoreState} (h : fromBytes bytes = some core) :
    core.toBytes = bytes :=
  of_decide_eq_true (Option.filter_eq_some_iff.mp h).2

end VgaCoreState

namespace DacState

variable (state : DacState)

theorem ext' {state other : DacState} (hdac : state.dac = other.dac) (hselect : state.colorSelect = other.colorSelect) :
    state = other := by
  cases state
  cases other
  cases hdac
  cases hselect
  rfl

theorem length_colors : state.dac.toStateBytes.length = 772 := by
  rw [Dac.toStateBytes, List.length_cons, List.length_cons, List.length_cons, List.length_cons, List.length_ofFn]

theorem fromBytes_toBytes : fromBytes state.toBytes = some state := by
  have hlen := state.length_colors
  have hdac := state.dac.fromStateBytes_toStateBytes
  rw [toBytes]
  generalize state.dac.toStateBytes = colors at hlen hdac
  have hselect : (colors ++ [state.colorSelect]).getD 772 0 = state.colorSelect := by
    rw [List.getD_eq_getElem?_getD, List.getElem?_append_right (Nat.le_of_eq hlen), hlen]
    rfl
  have hcheck : ((colors ++ [state.colorSelect]).getD 772 0).toNat ≤ 15 := by
    rw [hselect]
    exact state.colorSelect_le
  rw [fromBytes, dif_pos hcheck, List.take_left' hlen, hdac, Option.map_some]
  exact congrArg some (ext' rfl hselect)

theorem toBytes_of_fromBytes {bytes : Bytes} (hlen : bytes.length = 773) {state : DacState}
    (h : fromBytes bytes = some state) : state.toBytes = bytes := by
  rw [fromBytes] at h
  split at h
  · obtain ⟨dac, hdac, rfl⟩ := Option.map_eq_some_iff.mp h
    have hcolors : (bytes.take 772).length = 772 := by rw [List.length_take, hlen]; rfl
    have hlast : bytes.drop 772 = [bytes.getD 772 0] := by
      have hlt : 772 < bytes.length := by omega
      rw [List.drop_eq_getElem_cons hlt, List.drop_eq_nil_of_le (by omega), List.getD_eq_getElem?_getD,
        List.getElem?_eq_getElem hlt]
      rfl
    rw [toBytes]
    dsimp only
    rw [Dac.toStateBytes_of_fromStateBytes hcolors hdac, ← hlast, List.take_append_drop]
  · exact nomatch h

end DacState

/-! ## Saved states of the interface -/

/-- A state of the interface that was decoded. -/
def Dispi.Saved (d : Dispi) : Prop := ∃ bytes : Bytes, bytes.length = 18 ∧ Dispi.fromStateBytes bytes = some (some d)

/-- What is decoded is valid, and what is valid is decoded from its encoding. -/
theorem Dispi.saved_iff {d : Dispi} : d.Saved ↔ d.Valid := by
  constructor
  · rintro ⟨bytes, hlen, hdecoded⟩
    obtain ⟨result, hres, hvalid⟩ := fromStateBytes_spec hlen
    obtain rfl := Option.some.inj (hres.symm.trans hdecoded)
    exact (hvalid d rfl).1
  · intro h
    exact ⟨d.toStateBytes, rfl, fromStateBytes_toStateBytes h⟩

namespace Device

variable {v v' : Device} {now : Nat} {core : Option VgaCoreState} {dac : Option DacState} {dispi : Option Dispi}

/-! ## Time -/

/-- The interface and the raster are sound, and the raster is not ahead of the clock. -/
structure Sound (v : Device) (now : Nat) : Prop where
  dispi : v.dispi.Valid
  raster : v.raster.Valid
  updated : v.raster.updated ≤ now

/-- A device whose interface and raster are another's is as sound. -/
theorem Sound.congr (h : v.Sound now) (hdispi : v'.dispi = v.dispi) (hraster : v'.raster = v.raster) : v'.Sound now :=
  ⟨hdispi ▸ h.dispi, hraster ▸ h.raster, hraster ▸ h.updated⟩

theorem new_sound (now : Nat) : (new now).Sound now := by
  have hdecoded := (Programming.vga RegisterBanks.default.timed).decoded
  exact ⟨Dispi.default_valid, ⟨hdecoded, Timing.frame_pos hdecoded, Timing.denominator_pos hdecoded, Nat.zero_le _⟩,
    Nat.le_refl _⟩

theorem snapshotBytes_isSome (h : v.dispi.Valid) : v.snapshotBytes.isSome := by
  rw [snapshotBytes, scanoutBytes]
  cases hlayout : v.dispi.displayLayout with
  | none => decide
  | some layout =>
    obtain ⟨active, hact, rfl⟩ := Option.map_eq_some_iff.mp hlayout
    obtain ⟨bytes, hbytes, hle⟩ := SvgaLayout.memoryBytes_eq (h.active active hact).fits
    dsimp only
    rw [hbytes]
    simp [hle]

/-- Bringing the raster up to the clock changes the start address at most. -/
theorem sync_cases (h : v.syncToClock now = some v') :
    v' = { v with raster := v'.raster } ∨
      (∃ t raster, v.raster.updateTo now = some (some t, raster)) ∧ v.dispi.displayLayout = none ∧
        v' = { v with raster := v'.raster, registers :=
          { v.registers with crtc := v.registers.crtc.latchDisplayStart } } := by
  obtain ⟨⟨time, raster⟩, hupdate, h⟩ := Option.bind_eq_some_iff.mp h
  cases time with
  | none =>
    cases h
    exact Or.inl rfl
  | some t =>
    obtain ⟨bytes, -, rfl⟩ := Option.map_eq_some_iff.mp h
    by_cases hlayout : v.dispi.displayLayout = none
    · refine Or.inr ⟨⟨t, raster, hupdate⟩, hlayout, ?_⟩
      rw [if_pos hlayout]
    · refine Or.inl ?_
      rw [if_neg hlayout]

theorem dispi_sync (h : v.syncToClock now = some v') : v'.dispi = v.dispi := by
  rcases sync_cases h with heq | ⟨-, -, heq⟩
  · rw [heq]
  · rw [heq]

/-- Bringing the raster up to the clock is possible at every later time. -/
theorem Sound.sync (h : v.Sound now) (hnow : now < 2 ^ 64) :
    ∃ v', v.syncToClock now = some v' ∧ v'.Sound now := by
  have hvalid := Raster.advance_valid h.raster h.updated
  have hupdated := Nat.le_of_eq (v.raster.updated_advance now)
  rw [syncToClock, Raster.updateTo_eq h.raster h.updated hnow, Option.bind_some]
  dsimp only
  cases v.raster.latest now with
  | none => exact ⟨_, rfl, h.dispi, hvalid, hupdated⟩
  | some t =>
    dsimp only
    obtain ⟨bytes, hbytes⟩ := Option.isSome_iff_exists.mp
      (@snapshotBytes_isSome { v with raster := v.raster.advance now, registers := { v.registers with
        crtc := if v.dispi.displayLayout = none then v.registers.crtc.latchDisplayStart else v.registers.crtc } }
          h.dispi)
    rw [hbytes]
    exact ⟨_, rfl, h.dispi, hvalid, hupdated⟩

theorem reconfigure_eq {prev : Option SvgaLayout} (h : v.reconfigure prev = some v') :
    v' = { v with raster := v'.raster } := by
  rw [reconfigure] at h
  split at h
  · cases h
    rfl
  · obtain ⟨timed, -, rfl⟩ := Option.map_eq_some_iff.mp h
    rfl

theorem Sound.reconfigure (h : v.Sound now) (prev : Option SvgaLayout) :
    ∃ v', v.reconfigure prev = some v' ∧ v'.Sound now := by
  have hdecoded := v.programming.decoded
  rw [Device.reconfigure]
  split
  · exact ⟨_, rfl, h.dispi, Raster.restart_valid h.raster hdecoded, h.updated⟩
  · obtain ⟨changed, raster, htimed, hvalid, hupdated, -, -⟩ := Raster.setTiming_spec h.raster hdecoded
    rw [htimed]
    exact ⟨_, rfl, h.dispi, hvalid, hupdated ▸ h.updated⟩

/-! ## Accesses -/

theorem writeByte_kept (port : BitVec 16) (value : BitVec 8) :
    (v.writeByte port value).dispi = v.dispi ∧ (v.writeByte port value).raster = v.raster := by
  rw [writeByte]
  split
  · exact ⟨rfl, rfl⟩
  split
  · exact ⟨rfl, rfl⟩
  split <;> exact ⟨rfl, rfl⟩

theorem Sound.foldl (h : v.Sound now) (port : BitVec 16) (bytes : List (BitVec 8 × Nat)) :
    (bytes.foldl (fun v byte => v.writeByte (port + BitVec.ofNat 16 byte.2) byte.1) v).Sound now := by
  induction bytes generalizing v with
  | nil => exact h
  | cons byte bytes ih =>
    obtain ⟨hdispi, hraster⟩ := @writeByte_kept v (port + BitVec.ofNat 16 byte.2) byte.1
    rw [List.foldl_cons]
    exact ih (h.congr hdispi hraster)

theorem readBytes_kept (port : BitVec 16) (rasterStatus : BitVec 8) (count : Nat) :
    (v.readBytes port rasterStatus count).2.dispi = v.dispi ∧
      (v.readBytes port rasterStatus count).2.raster = v.raster := by
  induction count with
  | zero => exact ⟨rfl, rfl⟩
  | succ count ih =>
    rw [readBytes]
    dsimp only
    rw [readByte]
    split
    · exact ih
    split <;> exact ih

/-- A transfer leaves the interface valid. No layout computation of it wraps. -/
theorem Sound.transfer (h : v.Sound now) (port : BitVec 16) {bytes : Nat} (hbytes : bytes ≤ 4) (value : BitVec 32) :
    ∃ v', v.transfer port bytes value = some v' ∧ v'.Sound now := by
  rw [Device.transfer]
  split
  · rw [applyDispi]
    split
    · obtain ⟨d, effect, hwrite, hvalid⟩ := Dispi.writePort_spec h.dispi port bytes value
      rw [hwrite]
      exact ⟨_, rfl, hvalid, h.raster, h.updated⟩
    · exact ⟨_, rfl, h⟩
  · exact ⟨_, rfl, h.foldl port _⟩

theorem Sound.writePort (h : v.Sound now) (hnow : now < 2 ^ 64) (port : BitVec 16) {bytes : Nat} (hbytes : bytes ≤ 4)
    (value : BitVec 32) : ∃ v', v.writePort now port bytes value = some v' ∧ v'.Sound now := by
  obtain ⟨synced, hsync, hsynced⟩ := h.sync hnow
  obtain ⟨written, hwrite, hwr⟩ := hsynced.transfer port hbytes value
  rw [Device.writePort, hsync, Option.bind_some, hwrite]
  exact hwr.reconfigure _

theorem Sound.readPort (h : v.Sound now) (hnow : now < 2 ^ 64) (port : BitVec 16) {bytes : Nat} (hbytes : bytes ≤ 4)
    (rasterStatus : BitVec 8) :
    ∃ value v', v.readPort now port bytes rasterStatus = some (value, v') ∧ v'.Sound now := by
  obtain ⟨synced, hsync, hsynced⟩ := h.sync hnow
  rw [Device.readPort, hsync, Option.bind_some]
  split
  · split
    · obtain ⟨value, hread⟩ := Dispi.readPort_spec hsynced.dispi port bytes
      rw [hread]
      exact ⟨value, synced, rfl, hsynced⟩
    · rw [Checked.sub_eq hbytes]
      exact ⟨_, synced, rfl, hsynced⟩
  · obtain ⟨hdispi, hraster⟩ := @readBytes_kept synced port rasterStatus bytes
    exact ⟨_, _, rfl, hsynced.congr hdispi hraster⟩

theorem raster_apply (core : Option VgaCoreState) (dac : Option DacState) (dispi : Option Dispi) :
    (v.apply core dac dispi).raster = v.raster := by
  cases dispi <;> cases dac <;> cases core <;> rfl

theorem dispiState_apply (core : Option VgaCoreState) (dac : Option DacState) (dispi : Option Dispi) :
    (v.apply core dac dispi).dispiState = dispi.getD v.dispiState := by
  cases dispi <;> cases dac <;> cases core <;> rfl

theorem Sound.apply (h : v.Sound now) (hsaved : ∀ d ∈ dispi, d.Saved) : (v.apply core dac dispi).Sound now := by
  refine ⟨?_, (raster_apply core dac dispi).symm ▸ h.raster, (raster_apply core dac dispi).symm ▸ h.updated⟩
  have hdispi : (v.apply core dac dispi).dispi = dispi.getD v.dispi := dispiState_apply core dac dispi
  rw [hdispi]
  cases dispi with
  | none => exact h.dispi
  | some d => exact Dispi.saved_iff.mp (hsaved d rfl)

theorem Sound.restoreState (h : v.Sound now) (hnow : now < 2 ^ 64) (core : Option VgaCoreState) (dac : Option DacState)
    (hsaved : ∀ d ∈ dispi, d.Saved) : ∃ v', v.restoreState now core dac dispi = some v' ∧ v'.Sound now := by
  rw [Device.restoreState]
  split
  · exact ⟨v, rfl, h⟩
  · obtain ⟨synced, hsync, hsynced⟩ := h.sync hnow
    rw [hsync, Option.bind_some]
    exact (hsynced.apply hsaved).reconfigure _

/-! ## Runs -/

/-- What happens to the adapter at a time. -/
inductive Step (now : Nat) : Device → Device → Prop
  | read {v v' : Device} {port : BitVec 16} {bytes : Nat} {rasterStatus : BitVec 8} {value : BitVec 32} :
      bytes ≤ 4 → v.readPort now port bytes rasterStatus = some (value, v') → Step now v v'
  | write {v v' : Device} {port : BitVec 16} {bytes : Nat} {value : BitVec 32} :
      bytes ≤ 4 → v.writePort now port bytes value = some v' → Step now v v'
  /-- Captures, and accesses to memory after them. -/
  | memory {v v' : Device} (latches : Fin 4 → BitVec 8) (vram : Memory) :
      v.syncToClock now = some v' → Step now v { v' with latches, vram }
  | latch {v : Device} (latches : Fin 4 → BitVec 8) : Step now v { v with latches }
  | restore {v v' : Device} {core : Option VgaCoreState} {dac : Option DacState} {dispi : Option Dispi} :
      (∀ d ∈ dispi, d.Saved) → v.restoreState now core dac dispi = some v' → Step now v v'

/-- The adapter after steps at times that do not go back. -/
inductive Reachable : Nat → Device → Prop
  | new (now : Nat) : Reachable now (new now)
  | step {t now : Nat} {v v' : Device} : Reachable t v → t ≤ now → now < 2 ^ 64 → Step now v v' → Reachable now v'

theorem Step.sound (h : Step now v v') (hsound : v.Sound now) (hnow : now < 2 ^ 64) : v'.Sound now := by
  cases h with
  | @read _ port bytes rasterStatus value hbytes hread =>
    obtain ⟨_, _, hread', hsound'⟩ := hsound.readPort hnow port hbytes rasterStatus
    cases hread.symm.trans hread'
    exact hsound'
  | @write _ port bytes value hbytes hwrite =>
    obtain ⟨_, hwrite', hsound'⟩ := hsound.writePort hnow port hbytes value
    cases hwrite.symm.trans hwrite'
    exact hsound'
  | memory latches vram hsync =>
    obtain ⟨_, hsync', hsound'⟩ := hsound.sync hnow
    cases hsync.symm.trans hsync'
    exact hsound'.congr rfl rfl
  | latch latches => exact hsound.congr rfl rfl
  | @restore _ core dac dispi hsaved hrestore =>
    obtain ⟨_, hrestore', hsound'⟩ := hsound.restoreState hnow core dac hsaved
    cases hrestore.symm.trans hrestore'
    exact hsound'

theorem Sound.later {t : Nat} (h : v.Sound t) (hle : t ≤ now) : v.Sound now := ⟨h.dispi, h.raster, h.updated.trans hle⟩

theorem Reachable.sound (h : Reachable now v) : v.Sound now := by
  induction h with
  | new now => exact new_sound now
  | step _ hle hnow hstep ih => exact hstep.sound (ih.later hle) hnow

/-! ## What a restore gives -/

/-- A restored class is captured again; the others are as they were at the time. -/
structure Restored (v : Device) (now : Nat) (core : Option VgaCoreState) (dac : Option DacState) (dispi : Option Dispi)
    (v' : Device) : Prop where
  coreRestored : ∀ c ∈ core, v'.coreState = c
  coreKept : core = none → v'.coreState = v.coreState ∨
    (∃ t raster, v.raster.updateTo now = some (some t, raster)) ∧ v.dispi.displayLayout = none ∧
      v'.coreState = v.coreState.latched
  dacRestored : ∀ d ∈ dac, v'.dacState = d
  dacKept : dac = none → v'.dacState = v.dacState
  dispiRestored : ∀ d ∈ dispi, v'.dispiState = d
  dispiKept : dispi = none → v'.dispiState = v.dispiState
  vramKept : v'.vram = v.vram
  unrestored : core = none → dac = none → dispi = none → v' = v

theorem coreState_apply (core : Option VgaCoreState) (dac : Option DacState) (dispi : Option Dispi) :
    (v.apply core dac dispi).coreState = core.getD v.coreState := by
  have hdispi : (v.apply core dac dispi).coreState = (v.apply core dac none).coreState := by
    cases dispi <;> rfl
  have hdac : (v.apply core dac none).coreState = (v.apply core none none).coreState := by
    cases dac with
    | none => rfl
    | some state => exact VgaCoreState.ext' rfl rfl rfl (Attribute.setColorSelect_setColorSelect _ _ _) rfl rfl rfl rfl
  rw [hdispi, hdac]
  cases core with
  | none => rfl
  | some c =>
    refine VgaCoreState.ext' rfl rfl rfl ?_ rfl rfl rfl rfl
    show (c.attributes.setColorSelect v.registers.attributes.colorSelect).setColorSelect 0 = c.attributes
    rw [Attribute.setColorSelect_setColorSelect, Attribute.setColorSelect_self _ c.cleared]

theorem dacState_apply (core : Option VgaCoreState) (dac : Option DacState) (dispi : Option Dispi) :
    (v.apply core dac dispi).dacState = dac.getD v.dacState := by
  have hdispi : (v.apply core dac dispi).dacState = (v.apply core dac none).dacState := by
    cases dispi <;> rfl
  rw [hdispi]
  cases dac with
  | none =>
    cases core with
    | none => rfl
    | some c => exact DacState.ext' rfl (c.attributes.colorSelect_setColorSelect _ v.dacState.colorSelect_le)
  | some state =>
    exact DacState.ext' rfl
      ((core.elim v v.restoreCore).registers.attributes.colorSelect_setColorSelect _ state.colorSelect_le)

theorem vram_apply (core : Option VgaCoreState) (dac : Option DacState) (dispi : Option Dispi) :
    (v.apply core dac dispi).vram = v.vram := by
  cases dispi <;> cases dac <;> cases core <;> rfl

theorem restored (h : v.restoreState now core dac dispi = some v') : Restored v now core dac dispi v' := by
  rw [restoreState] at h
  split at h
  · next hnone =>
      obtain ⟨hcore, hdac, hdispi⟩ := hnone
      rw [Option.isNone_iff_eq_none] at hcore hdac hdispi
      subst hcore hdac hdispi
      cases h
      exact ⟨nofun, fun _ => Or.inl rfl, nofun, fun _ => rfl, nofun, fun _ => rfl, rfl, fun _ _ _ => rfl⟩
  · next hsome =>
      obtain ⟨synced, hsync, hreconfigure⟩ := Option.bind_eq_some_iff.mp h
      have heq := reconfigure_eq hreconfigure
      have hcore : v'.coreState = core.getD synced.coreState := by
        rw [heq, ← coreState_apply core dac dispi]
        rfl
      have hdac : v'.dacState = dac.getD synced.dacState := by
        rw [heq, ← dacState_apply core dac dispi]
        rfl
      have hdispi : v'.dispiState = dispi.getD synced.dispiState := by
        rw [heq, ← dispiState_apply core dac dispi]
        rfl
      have hvram : v'.vram = synced.vram := by
        rw [heq]
        exact vram_apply core dac dispi
      refine ⟨fun c hc => ?_, fun hnone => ?_, fun d hd => ?_, fun hnone => ?_, fun d hd => ?_, fun hnone => ?_, ?_,
        fun hcore hdac hdispi => absurd ?_ hsome⟩
      · rw [hcore, hc, Option.getD_some]
      · rw [hcore, hnone, Option.getD_none]
        rcases sync_cases hsync with hsame | ⟨hretrace, hlayout, hlatched⟩
        · exact Or.inl (by rw [hsame]; rfl)
        · exact Or.inr ⟨hretrace, hlayout, by rw [hlatched]; rfl⟩
      · rw [hdac, hd, Option.getD_some]
      · rw [hdac, hnone, Option.getD_none]
        rcases sync_cases hsync with hsame | ⟨-, -, hlatched⟩
        · rw [hsame]
          rfl
        · rw [hlatched]
          rfl
      · rw [hdispi, hd, Option.getD_some]
      · rw [hdispi, hnone, Option.getD_none]
        exact dispi_sync hsync
      · rw [hvram]
        rcases sync_cases hsync with hsame | ⟨-, -, hlatched⟩
        · rw [hsame]
        · rw [hlatched]
      · rw [hcore, hdac, hdispi]
        exact ⟨rfl, rfl, rfl⟩

/-! ## The programming state -/

/-- The states that a device captures are decoded from their encodings. -/
structure RoundTrips (v : Device) : Prop where
  core : VgaCoreState.fromBytes v.coreState.toBytes = some v.coreState
  dac : DacState.fromBytes v.dacState.toBytes = some v.dacState
  dispi : Dispi.fromStateBytes v.dispiState.toStateBytes = some (some v.dispiState)

theorem Sound.roundTrips (h : v.Sound now) : RoundTrips v where
  core := v.coreState.fromBytes_toBytes
  dac := v.dacState.fromBytes_toBytes
  dispi := Dispi.fromStateBytes_toStateBytes h.dispi

/-- What is decoded is encoded as the bytes that were accepted. No decoding wraps. -/
structure Canonical : Prop where
  core : ∀ bytes core, VgaCoreState.fromBytes bytes = some core → core.toBytes = bytes
  dac : ∀ bytes : Bytes, bytes.length = 773 → ∀ state, DacState.fromBytes bytes = some state → state.toBytes = bytes
  dispi : ∀ bytes : Bytes, bytes.length = 18 →
    ∃ result, Dispi.fromStateBytes bytes = some result ∧ ∀ d ∈ result, d.toStateBytes = bytes

theorem canonical : Canonical where
  core := fun _ _ hdecoded => VgaCoreState.toBytes_of_fromBytes hdecoded
  dac := fun _ hlen _ hdecoded => DacState.toBytes_of_fromBytes hlen hdecoded
  dispi := by
    intro bytes hlen
    obtain ⟨result, hres, hvalid⟩ := Dispi.fromStateBytes_spec hlen
    exact ⟨result, hres, fun d hd => (hvalid d hd).2⟩

/-- The visible image and the CPU bank are inside video memory. -/
structure InMemory (v : Device) : Prop where
  image : ∀ layout ∈ v.dispi.displayLayout, layout.InMemory
  bank : ∃ mapping, v.dispi.bankMapping = some mapping ∧ ∀ vramStart ∈ mapping, ∀ address,
    ∃ offset, Dispi.memoryOffset vramStart address = some offset ∧ ∀ x ∈ offset, x < VIDEO_MEMORY_BYTES

theorem Sound.inMemory (h : v.Sound now) : InMemory v where
  image := by
    intro layout hlayout
    obtain ⟨active, hact, rfl⟩ := Option.map_eq_some_iff.mp hlayout
    exact (h.dispi.active active hact).fits.inMemory
  bank := Dispi.bankMapping_spec h.dispi

/-- Whatever was done before, captured states are decoded and restored, accesses return without a layout computation
that wraps, and the layout stays in video memory. -/
theorem state_restored {t : Nat} (h : Reachable t v) :
    RoundTrips v ∧ Canonical ∧ InMemory v ∧ ∀ now, t ≤ now → now < 2 ^ 64 →
      (∀ core dac dispi, (∀ d ∈ dispi, d.Saved) →
        ∃ v', v.restoreState now core dac dispi = some v' ∧ Restored v now core dac dispi v') ∧
      (∀ port bytes value, bytes ≤ 4 → (v.writePort now port bytes value).isSome) ∧
      ∀ port bytes rasterStatus, bytes ≤ 4 → (v.readPort now port bytes rasterStatus).isSome := by
  have hsound := h.sound
  refine ⟨hsound.roundTrips, canonical, hsound.inMemory, fun now hle hnow => ⟨?_, ?_, ?_⟩⟩
  · intro core dac dispi hsaved
    obtain ⟨v', hrestore, -⟩ := (hsound.later hle).restoreState hnow core dac hsaved
    exact ⟨v', hrestore, restored hrestore⟩
  · intro port bytes value hbytes
    obtain ⟨v', hwrite, -⟩ := (hsound.later hle).writePort hnow port hbytes value
    rw [hwrite]
    rfl
  · intro port bytes rasterStatus hbytes
    obtain ⟨value, v', hread, -⟩ := (hsound.later hle).readPort hnow port hbytes rasterStatus
    rw [hread]
    rfl

/-- A restored mode. -/
theorem state_restored_mode : ∃ v, Reachable 0 v ∧ v.dispi.displayLayout = some ⟨⟨.r640x480, .rgb565⟩, 2048, (16, 8)⟩ ∧
    RoundTrips v ∧ InMemory v := by
  let active : ActiveMode := ⟨⟨⟨.r640x480, .rgb565⟩, 2048, (16, 8)⟩, Dispi.ENABLED⟩
  let d : Dispi := ⟨Dispi.X_OFFSET, 640, 480, 16, some active, 3⟩
  have hsaved : d.Saved := ⟨d.toStateBytes, rfl, by decide +kernel⟩
  obtain ⟨v, hrestore, -⟩ := (new_sound 0).restoreState (by decide) none none fun d' hd' => Option.some.inj hd' ▸ hsaved
  have hreachable := (Reachable.new 0).step (Nat.le_refl 0) (by decide)
    (Step.restore (fun d' hd' => Option.some.inj hd' ▸ hsaved) hrestore)
  have hdispi : v.dispi = d := (restored hrestore).dispiRestored d rfl
  obtain ⟨hround, -, hmemory, -⟩ := state_restored hreachable
  exact ⟨v, hreachable, by rw [hdispi]; rfl, hround, hmemory⟩

/-- The colors are restored after a retrace has passed, which selects the start address that was written. -/
theorem restore_latches : ∃ v v' : Device, (new 0).writePort 0 CRTC_INDEX_PORT 2 0x120c = some v ∧ Reachable 0 v ∧
    v.restoreState 20000000 none (some v.dacState) none = some v' ∧ v'.coreState ≠ v.coreState := by
  have hbefore : ((new 0).writePort 0 CRTC_INDEX_PORT 2 0x120c).map (·.coreState.crtc.displayStart) = some 0 := by
    decide +kernel
  have hafter : (((new 0).writePort 0 CRTC_INDEX_PORT 2 0x120c).bind fun v =>
      v.restoreState 20000000 none (some v.dacState) none).map (·.coreState.crtc.displayStart) = some 0x1200 := by
    decide +kernel
  obtain ⟨v, hwrite, hstart⟩ := Option.map_eq_some_iff.mp hbefore
  obtain ⟨v', hrestore, hstart'⟩ := Option.map_eq_some_iff.mp hafter
  rw [hwrite, Option.bind_some] at hrestore
  have hreachable := (Reachable.new 0).step (Nat.le_refl 0) (by decide) (Step.write (by decide) hwrite)
  refine ⟨v, v', hwrite, hreachable, hrestore, ?_⟩
  intro heq
  rw [heq, hstart] at hstart'
  exact absurd hstart' (by decide)

end Device

end Relocade.Vga
