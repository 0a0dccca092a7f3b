import Relocade.Vga.Layout
import Relocade.Words.Slices

/-!
# `Vga.Dispi` — the banked display interface

Geometry writes stage a request while the interface is disabled. Enabling it needs a supported request and makes a
layout, which later writes change piece by piece. The state is saved as nine words and decoded through the same
validation.
-/

namespace Relocade.Vga

/-! ## Registers -/

namespace Dispi

def INDEX_PORT : BitVec 16 := 0x01ce
def DATA_PORT : BitVec 16 := 0x01cf

def ID : BitVec 16 := 0
def X_RESOLUTION : BitVec 16 := 1
def Y_RESOLUTION : BitVec 16 := 2
def BITS_PER_PIXEL : BitVec 16 := 3
def ENABLE : BitVec 16 := 4
def BANK : BitVec 16 := 5
def VIRTUAL_WIDTH : BitVec 16 := 6
def VIRTUAL_HEIGHT : BitVec 16 := 7
def X_OFFSET : BitVec 16 := 8
def Y_OFFSET : BitVec 16 := 9

def INTERFACE_ID : BitVec 16 := 0xb0c2
def DISABLED : BitVec 16 := 0
def ENABLED : BitVec 16 := 1
def NO_CLEAR_MEMORY : BitVec 16 := 0x80
def BANK_BYTES : Nat := 65536
def BANK_START : Nat := 0xa0000

end Dispi

structure ActiveMode where
  layout : SvgaLayout
  flags : BitVec 16
  deriving DecidableEq, Repr

/-- Staged geometry, and the active mode when there is one. -/
structure Dispi where
  index : BitVec 16
  width : BitVec 16
  height : BitVec 16
  bitsPerPixel : BitVec 16
  active : Option ActiveMode
  bank : BitVec 16
  deriving DecidableEq, Repr

/-- An action the device must apply after the register write. -/
inductive WriteEffect where
  | none
  | clearVram
  deriving DecidableEq, Repr

namespace Dispi

def default : Dispi := ⟨0, 0, 0, 0, none, 0⟩

variable (d : Dispi)

def enabled : Bool := d.active.isSome

def displayLayout : Option SvgaLayout := d.active.map ActiveMode.layout

/-- The start of the CPU bank in video memory. -/
def bankMapping : Option (Option Nat) :=
  if d.enabled then (Checked.mul 32 d.bank.toNat BANK_BYTES).map some else pure none

/-- The byte of video memory at an address of the fixed CPU window. -/
def memoryOffset (vramStart address : Nat) : Option (Option Nat) :=
  if BANK_START ≤ address ∧ address ≤ BANK_START + BANK_BYTES - 1 then do
    let sum ← Checked.add 32 vramStart address
    let offset ← Checked.sub sum BANK_START
    pure (some offset)
  else pure none

/-- A register of the layout, zero when there is none. -/
def layoutRegister (read : SvgaLayout → Option Nat) : Option (BitVec 16) :=
  match d.displayLayout with
  | some layout => (read layout).map (BitVec.ofNat 16)
  | none => some 0

/-- The value of the selected register. -/
def readData : Option (BitVec 16) :=
  if d.index = ID then some INTERFACE_ID
  else if d.index = X_RESOLUTION then some d.width
  else if d.index = Y_RESOLUTION then some d.height
  else if d.index = BITS_PER_PIXEL then some d.bitsPerPixel
  else if d.index = ENABLE then some (d.active.elim DISABLED ActiveMode.flags)
  else if d.index = BANK then some d.bank
  else if d.index = VIRTUAL_WIDTH then d.layoutRegister SvgaLayout.virtualWidth
  else if d.index = VIRTUAL_HEIGHT then d.layoutRegister SvgaLayout.virtualHeight
  else if d.index = X_OFFSET then d.layoutRegister fun layout => some layout.origin.1
  else if d.index = Y_OFFSET then d.layoutRegister fun layout => some layout.origin.2
  else some 0xffff

/-- A word at the index port is one register, not adjacent byte reads. -/
def readPort (port : BitVec 16) (bytes : Nat) : Option (BitVec 32) :=
  if bytes ≠ 2 then some (if bytes = 1 then 0xff else 0xffffffff)
  else if port = INDEX_PORT then some (d.index.setWidth 32)
  else if port = DATA_PORT then d.readData.map (BitVec.setWidth 32)
  else some 0xffff

/-- The layout that a write to a register of the active one asks for. -/
def nextLayout (layout : SvgaLayout) (value : Nat) : Option (Option SvgaLayout) :=
  if d.index = VIRTUAL_WIDTH then layout.withVirtualWidth value
  else if d.index = X_OFFSET then layout.withOrigin (value, layout.origin.2)
  else layout.withOrigin (layout.origin.1, value)

def writeLayout (value : BitVec 16) : Option Dispi :=
  match d.active with
  | none => some d
  | some active =>
      (d.nextLayout active.layout value.toNat).map fun next =>
        match next with
        | some layout => { d with active := some { active with layout } }
        | none => d

/-- Entering a valid mode clears shared video memory unless no-clear is set. -/
def enable (value : BitVec 16) : Option (Dispi × WriteEffect) :=
  match SvgaMode.fromRegisters d.width d.height d.bitsPerPixel with
  | none => some (d, .none)
  | some mode =>
      mode.layout.map fun layout =>
        ({ d with active := some ⟨layout, value⟩, bank := 0 },
          if value &&& NO_CLEAR_MEMORY = 0 then .clearVram else .none)

/-- Writes the selected register. -/
def writeData (value : BitVec 16) : Option (Dispi × WriteEffect) :=
  if d.index = X_RESOLUTION ∧ ¬ d.enabled then some ({ d with width := value }, .none)
  else if d.index = Y_RESOLUTION ∧ ¬ d.enabled then some ({ d with height := value }, .none)
  else if d.index = BITS_PER_PIXEL ∧ ¬ d.enabled then some ({ d with bitsPerPixel := value }, .none)
  else if d.index = ENABLE ∧ value = DISABLED then some ({ d with active := none }, .none)
  else if d.index = ENABLE ∧ value &&& ~~~NO_CLEAR_MEMORY = ENABLED ∧ ¬ d.enabled then d.enable value
  else if d.index = BANK ∧ value.toNat < VIDEO_MEMORY_BYTES / BANK_BYTES then some ({ d with bank := value }, .none)
  else if d.index = VIRTUAL_WIDTH ∨ d.index = X_OFFSET ∨ d.index = Y_OFFSET then
    (d.writeLayout value).map fun next => (next, .none)
  else some (d, .none)

def writePort (port : BitVec 16) (bytes : Nat) (value : BitVec 32) : Option (Dispi × WriteEffect) :=
  if bytes ≠ 2 then some (d, .none)
  else if port = INDEX_PORT then some ({ d with index := value.setWidth 16 }, .none)
  else d.writeData (value.setWidth 16)

/-! ## Saved words -/

/-- The words of a state: registers, and the layout that is active. -/
def stateWords : List (BitVec 16) :=
  let layout := d.displayLayout
  let origin := layout.elim (0, 0) SvgaLayout.origin
  [d.index, d.width, d.height, d.bitsPerPixel, d.active.elim 0 ActiveMode.flags, d.bank,
    layout.elim 0 fun layout => BitVec.ofNat 16 layout.pitch, BitVec.ofNat 16 origin.1, BitVec.ofNat 16 origin.2]

def toStateBytes : List (BitVec 8) := d.stateWords.flatMap (Memory.lowBytes 2)

/-- The active mode of saved words, validated as writes are. -/
def activeFrom (width height bitsPerPixel flags pitch x y : BitVec 16) : Option (Option (Option ActiveMode)) :=
  if flags = DISABLED then
    -- Geometry staging is deliberately unrestricted while disabled.
    some (if pitch = 0 ∧ x = 0 ∧ y = 0 then some none else none)
  else if flags &&& ~~~NO_CLEAR_MEMORY ≠ ENABLED then some none
  else
    match SvgaMode.fromRegisters width height bitsPerPixel with
    | none => some none
    | some mode =>
        mode.layout.bind fun layout =>
          (layout.withPitch pitch.toNat).bind fun pitched =>
            match pitched with
            | none => some none
            | some pitched =>
                (pitched.withOrigin (x.toNat, y.toNat)).map fun placed =>
                  placed.map fun layout => some ⟨layout, flags⟩

def fromStateBytes (bytes : List (BitVec 8)) : Option (Option Dispi) :=
  match Slices.words 9 bytes with
  | [index, width, height, bitsPerPixel, flags, bank, pitch, x, y] =>
      if VIDEO_MEMORY_BYTES / BANK_BYTES ≤ bank.toNat then some none
      else
        (activeFrom width height bitsPerPixel flags pitch x y).map fun active =>
          active.map fun active => ⟨index, width, height, bitsPerPixel, active, bank⟩
  | _ => none

/-! ## Validity -/

end Dispi

/-- An active layout is of the staged mode and fits video memory. -/
structure ActiveMode.Valid (active : ActiveMode) (d : Dispi) : Prop where
  flags : active.flags &&& ~~~Dispi.NO_CLEAR_MEMORY = Dispi.ENABLED
  mode : SvgaMode.fromRegisters d.width d.height d.bitsPerPixel = some active.layout.mode
  fits : active.layout.Fits

namespace Dispi

variable {d : Dispi}

structure Valid (d : Dispi) : Prop where
  bank : d.bank.toNat < VIDEO_MEMORY_BYTES / BANK_BYTES
  active : ∀ active ∈ d.active, active.Valid d

theorem default_valid : default.Valid := ⟨by decide, nofun⟩

/-- A disabled interface has no layout to be wrong. -/
theorem valid_of_disabled (hbank : d.bank.toNat < VIDEO_MEMORY_BYTES / BANK_BYTES) (hdis : d.active = none) :
    d.Valid :=
  ⟨hbank, fun active h => by
    rw [hdis] at h
    exact nomatch h⟩

theorem active_eq_none (h : ¬ d.enabled) : d.active = none := Option.not_isSome_iff_eq_none.mp h

/-- The CPU bank lies inside video memory. -/
theorem memoryOffset_spec (hbank : d.bank.toNat < VIDEO_MEMORY_BYTES / BANK_BYTES) {vramStart : Nat}
    (hst : vramStart = d.bank.toNat * BANK_BYTES) (addr : Nat) :
    ∃ offset, memoryOffset vramStart addr = some offset ∧ ∀ x ∈ offset, x < VIDEO_MEMORY_BYTES := by
  have hbanks : VIDEO_MEMORY_BYTES / BANK_BYTES = 64 := by decide
  have hmemory : VIDEO_MEMORY_BYTES = 4194304 := rfl
  have hbytes : BANK_BYTES = 65536 := rfl
  have hwindow : BANK_START = 0xa0000 := rfl
  rw [hbytes] at hst
  rw [memoryOffset]
  split
  · next hrng =>
      simp only [Option.bind_eq_bind]
      rw [Checked.add_eq (by omega), Option.bind_some, Checked.sub_eq (by omega), Option.bind_some]
      refine ⟨_, rfl, fun x hx => ?_⟩
      have heq := Option.some.inj hx
      omega
  · exact ⟨none, rfl, nofun⟩

theorem bankMapping_spec (h : d.Valid) : ∃ mapping, d.bankMapping = some mapping ∧ ∀ vramStart ∈ mapping, ∀ address,
    ∃ offset, memoryOffset vramStart address = some offset ∧ ∀ x ∈ offset, x < VIDEO_MEMORY_BYTES := by
  have hbanks : VIDEO_MEMORY_BYTES / BANK_BYTES = 64 := by decide
  have hbytes : BANK_BYTES = 65536 := rfl
  have hbank := h.bank
  have hsmall : d.bank.toNat * BANK_BYTES < 2 ^ 32 := by
    rw [hbytes]
    omega
  rw [bankMapping]
  split
  · rw [Checked.mul_eq hsmall]
    refine ⟨_, rfl, fun vramStart hst => memoryOffset_spec h.bank (Option.some.inj hst).symm⟩
  · exact ⟨none, rfl, nofun⟩

/-! ## Writes -/

theorem nextLayout_spec {layout : SvgaLayout} (h : layout.Fits) (value : Nat) :
    ∃ next, d.nextLayout layout value = some next ∧ ∀ layout' ∈ next, layout'.Fits ∧ layout'.mode = layout.mode := by
  have hchg : ∀ {change : Option (Option SvgaLayout)} {next : SvgaLayout}, SvgaLayout.Changes change next →
      next.mode = layout.mode → ∃ result, change = some result ∧
        ∀ layout' ∈ result, layout'.Fits ∧ layout'.mode = layout.mode := by
    rintro change next (⟨hfits, rfl⟩ | ⟨-, rfl⟩) hmode
    · refine ⟨some next, rfl, fun layout' h => ?_⟩
      rw [← Option.some.inj h]
      exact ⟨hfits, hmode⟩
    · exact ⟨none, rfl, nofun⟩
  rw [nextLayout]
  split
  · exact hchg (layout.withVirtualWidth_spec value) rfl
  split
  · exact hchg (SvgaLayout.withOrigin_spec h.toPitchFits _) rfl
  · exact hchg (SvgaLayout.withOrigin_spec h.toPitchFits _) rfl

theorem writeLayout_spec (h : d.Valid) (value : BitVec 16) : ∃ d', d.writeLayout value = some d' ∧ d'.Valid := by
  rw [writeLayout]
  cases hact : d.active with
  | none => exact ⟨d, rfl, h⟩
  | some active =>
    have hvalid := h.active active hact
    obtain ⟨next, hnext, hfits⟩ := @nextLayout_spec d _ hvalid.fits value.toNat
    dsimp only
    rw [hnext]
    cases next with
    | none => exact ⟨d, rfl, h⟩
    | some layout =>
      obtain ⟨hlayout, hmode⟩ := hfits layout rfl
      refine ⟨_, rfl, h.bank, fun active' h' => ?_⟩
      rw [← Option.some.inj h']
      exact ⟨hvalid.flags, hmode ▸ hvalid.mode, hlayout⟩

theorem enable_spec (h : d.Valid) {value : BitVec 16} (hval : value &&& ~~~NO_CLEAR_MEMORY = ENABLED) :
    ∃ d' effect, d.enable value = some (d', effect) ∧ d'.Valid := by
  rw [enable]
  cases hmode : SvgaMode.fromRegisters d.width d.height d.bitsPerPixel with
  | none => exact ⟨d, _, rfl, h⟩
  | some mode =>
    obtain ⟨layout, hlayout, hfits, hsame, -⟩ := mode.layout_fits
    dsimp only
    rw [hlayout]
    refine ⟨_, _, rfl, (by decide : (0 : BitVec 16).toNat < VIDEO_MEMORY_BYTES / BANK_BYTES), fun active h' => ?_⟩
    rw [← Option.some.inj h']
    exact ⟨hval, hsame.symm ▸ hmode, hfits⟩

/-- A write that gives a valid state. -/
def Gives (result : Option (Dispi × WriteEffect)) : Prop := ∃ d' effect, result = some (d', effect) ∧ d'.Valid

theorem writeData_spec (h : d.Valid) (value : BitVec 16) : Gives (d.writeData value) := by
  have hstaged : ∀ {p : Prop} {width height bitsPerPixel : BitVec 16}, (p ∧ ¬ d.enabled) →
      Gives (some ({ d with width, height, bitsPerPixel }, .none)) := fun hstaged =>
    ⟨_, _, rfl, valid_of_disabled h.bank (active_eq_none hstaged.2)⟩
  refine iteInduction (fun hwidth => hstaged hwidth) fun _ => ?_
  refine iteInduction (fun hheight => hstaged hheight) fun _ => ?_
  refine iteInduction (fun hbits => hstaged hbits) fun _ => ?_
  refine iteInduction (fun _ => ⟨_, _, rfl, valid_of_disabled h.bank rfl⟩) fun _ => ?_
  refine iteInduction (fun hval => enable_spec h hval.2.1) fun _ => ?_
  refine iteInduction (fun hbank => ⟨_, _, rfl, hbank.2, fun active hact => ?_⟩) fun _ => ?_
  · exact ⟨(h.active active hact).flags, (h.active active hact).mode, (h.active active hact).fits⟩
  refine iteInduction (fun _ => ?_) fun _ => ⟨d, _, rfl, h⟩
  obtain ⟨d', hd', hvalid⟩ := writeLayout_spec h value
  exact ⟨d', .none, by rw [hd']; rfl, hvalid⟩

theorem writePort_spec (h : d.Valid) (port : BitVec 16) (bytes : Nat) (value : BitVec 32) :
    Gives (d.writePort port bytes value) := by
  rw [writePort]
  split
  · exact ⟨d, _, rfl, h⟩
  split
  · exact ⟨_, _, rfl, h.bank, fun active hact =>
      ⟨(h.active active hact).flags, (h.active active hact).mode, (h.active active hact).fits⟩⟩
  · exact writeData_spec h _

theorem readPort_spec (h : d.Valid) (port : BitVec 16) (bytes : Nat) : ∃ value, d.readPort port bytes = some value := by
  have hregister : ∀ read : SvgaLayout → Option Nat, (∀ layout, layout.Fits → (read layout).isSome) →
      (d.layoutRegister read).isSome := by
    intro read hread
    rw [layoutRegister]
    cases hact : d.active with
    | none => rw [displayLayout, hact]; rfl
    | some active =>
      rw [displayLayout, hact]
      exact (Option.isSome_map ..).trans (hread _ (h.active active hact).fits)
  have hdata : d.readData.isSome := by
    have hwidth := hregister SvgaLayout.virtualWidth fun layout _ => by rw [layout.virtualWidth_eq]; rfl
    have hheight := hregister SvgaLayout.virtualHeight fun layout hfits => by
      rw [SvgaLayout.virtualHeight_eq hfits.toPitchFits]
      rfl
    have hx := hregister (fun layout => some layout.origin.1) fun _ _ => rfl
    have hy := hregister (fun layout => some layout.origin.2) fun _ _ => rfl
    have hite : ∀ {p : Prop} [Decidable p] {x y : Option (BitVec 16)}, x.isSome → y.isSome →
        (if p then x else y).isSome := by
      intro p _ x y hx hy
      split <;> assumption
    rw [readData]
    exact hite rfl (hite rfl (hite rfl (hite rfl (hite rfl (hite rfl (hite hwidth (hite hheight
      (hite hx (hite hy rfl)))))))))
  obtain ⟨value, hval⟩ := Option.isSome_iff_exists.mp hdata
  rw [readPort, hval]
  split
  · exact ⟨_, rfl⟩
  split
  · exact ⟨_, rfl⟩
  split
  · exact ⟨_, rfl⟩
  · exact ⟨_, rfl⟩

/-! ## Saving -/

theorem activeFrom_spec (width height bitsPerPixel flags pitch x y : BitVec 16) :
    ∃ result, activeFrom width height bitsPerPixel flags pitch x y = some result ∧ ∀ active ∈ result,
      active = none ∧ flags = 0 ∧ pitch = 0 ∧ x = 0 ∧ y = 0 ∨
      ∃ mode, active = some ⟨⟨mode, pitch.toNat, (x.toNat, y.toNat)⟩, flags⟩ ∧
        SvgaMode.fromRegisters width height bitsPerPixel = some mode ∧ flags &&& ~~~NO_CLEAR_MEMORY = ENABLED ∧
        (⟨mode, pitch.toNat, (x.toNat, y.toNat)⟩ : SvgaLayout).Fits := by
  rw [activeFrom]
  by_cases hdis : flags = DISABLED
  · rw [if_pos hdis]
    refine ⟨_, rfl, fun active h => Or.inl ?_⟩
    split at h
    · next hz =>
        rw [← Option.some.inj h]
        exact ⟨rfl, hdis, hz⟩
    · exact nomatch h
  rw [if_neg hdis]
  by_cases hflags : flags &&& ~~~NO_CLEAR_MEMORY = ENABLED
  · rw [if_neg (not_not.mpr hflags)]
    cases hmode : SvgaMode.fromRegisters width height bitsPerPixel with
    | none => exact ⟨none, rfl, nofun⟩
    | some mode =>
      obtain ⟨layout, hlayout, hfits, rfl, horigin⟩ := mode.layout_fits
      dsimp only
      rw [hlayout, Option.bind_some]
      rcases layout.withPitch_spec pitch.toNat with ⟨hpitched, hsome⟩ | ⟨-, hnone⟩
      · rw [hsome, Option.bind_some]
        dsimp only
        rcases SvgaLayout.withOrigin_spec hpitched.toPitchFits (x.toNat, y.toNat) with
          ⟨hplc, hsome⟩ | ⟨-, hnone⟩
        · rw [hsome]
          refine ⟨_, rfl, fun active h => Or.inr ⟨layout.mode, (Option.some.inj h).symm, rfl, hflags, hplc⟩⟩
        · rw [hnone]
          exact ⟨none, rfl, nofun⟩
      · rw [hnone]
        exact ⟨none, rfl, nofun⟩
  · rw [if_pos hflags]
    exact ⟨none, rfl, nofun⟩

/-- Decoding never wraps; what is accepted is the encoding of a valid state. -/
theorem fromStateBytes_spec {bytes : List (BitVec 8)} (h : bytes.length = 18) :
    ∃ result, fromStateBytes bytes = some result ∧ ∀ d ∈ result, d.Valid ∧ d.toStateBytes = bytes := by
  obtain ⟨index, width, height, bitsPerPixel, flags, bank, pitch, x, y, hwords⟩ : ∃ index width height bitsPerPixel
      flags bank pitch x y, Slices.words 9 bytes = [index, width, height, bitsPerPixel, flags, bank, pitch, x, y] :=
    ⟨_, _, _, _, _, _, _, _, _, rfl⟩
  have hbytes := Slices.flatMap_words 9 h
  rw [hwords] at hbytes
  rw [fromStateBytes, hwords]
  dsimp only
  split
  · exact ⟨none, rfl, nofun⟩
  · next hbank =>
      obtain ⟨result, hres, hact⟩ := activeFrom_spec width height bitsPerPixel flags pitch x y
      rw [hres]
      refine ⟨_, rfl, fun d hd => ?_⟩
      obtain ⟨active, hmem, rfl⟩ := Option.map_eq_some_iff.mp hd
      rcases hact active hmem with ⟨rfl, rfl, rfl, rfl, rfl⟩ | ⟨mode, rfl, hmode, hflags, hfits⟩
      · exact ⟨⟨Nat.not_le.mp hbank, nofun⟩, hbytes⟩
      · refine ⟨⟨Nat.not_le.mp hbank, fun active h => ?_⟩, ?_⟩
        · rw [← Option.some.inj h]
          exact ⟨hflags, hmode, hfits⟩
        · refine Eq.trans ?_ hbytes
          rw [toStateBytes, stateWords]
          dsimp only [displayLayout, Option.map_some, Option.elim_some]
          rw [BitVec.ofNat_toNat, BitVec.ofNat_toNat, BitVec.ofNat_toNat, BitVec.setWidth_eq, BitVec.setWidth_eq,
            BitVec.setWidth_eq]

/-- The words of a layout that fits give it back: its stride is validated at the origin, then its origin. -/
theorem activeFrom_words {width height bitsPerPixel flags : BitVec 16} {layout : SvgaLayout} (h : layout.Fits)
    (hmode : SvgaMode.fromRegisters width height bitsPerPixel = some layout.mode)
    (hflags : flags &&& ~~~NO_CLEAR_MEMORY = ENABLED) :
    activeFrom width height bitsPerPixel flags (BitVec.ofNat 16 layout.pitch) (BitVec.ofNat 16 layout.origin.1)
      (BitVec.ofNat 16 layout.origin.2) = some (some (some ⟨layout, flags⟩)) := by
  have hdis : flags ≠ DISABLED := by
    rintro rfl
    exact absurd hflags (by decide)
  have hsmall : ∀ n < 2 ^ 14, (BitVec.ofNat 16 n).toNat = n := fun n hn => by
    rw [BitVec.toNat_ofNat, Nat.mod_eq_of_lt (hn.trans (by decide))]
  obtain ⟨⟨mode, pitch, origin⟩, hlayout, -, hsame, horigin⟩ := layout.mode.layout_fits
  dsimp only at hsame horigin
  subst hsame horigin
  have hpitched : ({ layout with origin := (0, 0) } : SvgaLayout).Fits := by
    refine ⟨⟨h.whole, h.row, h.rows⟩, ?_, ?_⟩ <;> dsimp only <;> rw [Nat.zero_add]
    · exact h.row
    · exact h.rows
  rw [activeFrom, if_neg hdis, if_neg (not_not.mpr hflags), hmode]
  dsimp only
  rw [hlayout, Option.bind_some, hsmall _ h.pitch_lt.2, hsmall _ h.origin_lt.1, hsmall _ h.origin_lt.2]
  rcases SvgaLayout.withPitch_spec ⟨layout.mode, pitch, (0, 0)⟩ layout.pitch with ⟨-, hsome⟩ | ⟨hnot, -⟩
  · rw [hsome, Option.bind_some]
    dsimp only
    rcases @SvgaLayout.withOrigin_spec ⟨layout.mode, layout.pitch, (0, 0)⟩ hpitched.toPitchFits layout.origin with
      ⟨-, hsome⟩ | ⟨hnot, -⟩
    · rw [hsome]
      rfl
    · exact absurd h hnot
  · exact absurd hpitched hnot

/-- A valid state is decoded from its encoding. -/
theorem fromStateBytes_toStateBytes (h : d.Valid) : fromStateBytes d.toStateBytes = some (some d) := by
  have hwords : Slices.words 9 d.toStateBytes = d.stateWords := Slices.words_flatMap d.stateWords
  have hbank := Nat.not_le.mpr h.bank
  rw [fromStateBytes, hwords, stateWords]
  dsimp only
  rw [if_neg hbank]
  obtain ⟨index, width, height, bitsPerPixel, active, bank⟩ := d
  cases active with
  | none => rfl
  | some active =>
    have hvalid := h.active active rfl
    dsimp only [displayLayout, Option.map_some, Option.elim_some]
    rw [activeFrom_words hvalid.fits hvalid.mode hvalid.flags]
    rfl

end Dispi

end Relocade.Vga
