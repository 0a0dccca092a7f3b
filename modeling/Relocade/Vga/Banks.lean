import Mathlib.Data.Fin.VecNotation
import Relocade.Words.Slices

/-!
# `Vga.Banks` — register banks

Each bank keeps some bits of each of its registers, and so do the values that it starts with. A saved bank is decoded by
writing it: the masks, the protection of the timing registers and the phases of the Attribute Controller apply to what
is decoded too.
-/

namespace Relocade.Vga

open Function (update update_self update_of_ne)
open BitVec (ofNat toNat_ofNat)

abbrev Bytes := List (BitVec 8)

/-! ## Banks -/

/-- The bits that an index and the registers behind it keep. -/
structure Masks (n : Nat) where
  index : BitVec 8
  values : Fin n → BitVec 8
  selectable : ∀ i : Fin n, (ofNat 8 i.val &&& index).toNat = i.val

/-- Registers behind an index. -/
structure Bank {n : Nat} (masks : Masks n) where
  index : BitVec 8
  values : Fin n → BitVec 8
  index_kept : index &&& masks.index = index
  values_kept : ∀ i, values i &&& masks.values i = values i

namespace Bank

variable {n : Nat} {masks : Masks n} (bank : Bank masks)

def select (index : BitVec 8) : Bank masks where
  index := index &&& masks.index
  values := bank.values
  index_kept := by rw [BitVec.and_assoc, BitVec.and_self]
  values_kept := bank.values_kept

def set (i : Fin n) (value : BitVec 8) : Bank masks where
  index := bank.index
  values := update bank.values i (value &&& masks.values i)
  index_kept := bank.index_kept
  values_kept := fun j => by
    by_cases h : j = i
    · subst h
      rw [update_self, BitVec.and_assoc, BitVec.and_self]
    · rw [update_of_ne h, bank.values_kept]

/-- A write to the register behind the index, if there is one. -/
def write (value : BitVec 8) : Bank masks :=
  if h : bank.index.toNat < n then bank.set ⟨bank.index.toNat, h⟩ value else bank

/-- Every register written, in order. -/
def fill (values : Fin n → BitVec 8) : Bank masks :=
  (List.finRange n).foldl (fun bank i => (bank.select (ofNat 8 i.val)).write (values i)) bank

variable {bank}

theorem ext' {other : Bank masks} (hidx : bank.index = other.index) (hvals : bank.values = other.values) :
    bank = other := by
  cases bank
  cases other
  cases hidx
  cases hvals
  rfl

theorem values_write_select (i : Fin n) (value : BitVec 8) :
    ((bank.select (ofNat 8 i.val)).write value).values =
      update bank.values i (value &&& masks.values i) := by
  have hidx : (bank.select (ofNat 8 i.val)).index.toNat = i.val := masks.selectable i
  have hlt : (bank.select (ofNat 8 i.val)).index.toNat < n := lt_of_eq_of_lt hidx i.isLt
  have hfin : (⟨(bank.select (ofNat 8 i.val)).index.toNat, hlt⟩ : Fin n) = i := Fin.ext hidx
  rw [write, dif_pos hlt, hfin]
  rfl

/-- What an entry of a table is when the entries before a place have been written. -/
def FilledTo (start target : Fin n → BitVec 8) (count : Nat) (values : Fin n → BitVec 8) : Prop :=
  ∀ i, values i = if i.val < count then target i else start i

theorem FilledTo.zero (start target : Fin n → BitVec 8) : FilledTo start target 0 start :=
  fun _ => (if_neg (by omega)).symm

theorem FilledTo.update {start target values : Fin n → BitVec 8} {i : Fin n}
    (h : FilledTo start target i.val values) :
    FilledTo start target (i.val + 1) (update values i (target i)) := by
  intro j
  by_cases hj : j = i
  · subst hj
    rw [update_self, if_pos (Nat.lt_succ_self _)]
  · have hne : j.val ≠ i.val := fun heq => hj (Fin.ext heq)
    rw [update_of_ne hj, h j]
    by_cases hlt : j.val < i.val
    · rw [if_pos hlt, if_pos (by omega)]
    · rw [if_neg hlt, if_neg (by omega)]

theorem values_fill (values : Fin n → BitVec 8) : (bank.fill values).values = fun i => values i &&& masks.values i := by
  have hfill := @Slices.foldl_finRange n (Bank masks)
    (fun count b => FilledTo bank.values (fun i => values i &&& masks.values i) count b.values)
    (fun bank i => (bank.select (ofNat 8 i.val)).write (values i)) bank (FilledTo.zero _ _)
    (fun i s h => by
      rw [values_write_select]
      exact FilledTo.update h)
  funext i
  exact (hfill i).trans (if_pos i.isLt)

/-- A bank is what is read of it. -/
theorem fill_select (start : Bank masks) : (start.fill bank.values).select bank.index = bank := by
  refine ext' bank.index_kept ?_
  show (start.fill bank.values).values = bank.values
  rw [values_fill]
  exact funext bank.values_kept

end Bank

/-! ## Sequencer and Graphics Controller -/

/-- Reset, Clocking Mode, Map Mask, Character Map Select and Memory Mode. -/
def sequencerMasks : Masks 5 := ⟨7, ![0x03, 0x3d, 0x0f, 0x3f, 0x0e], by decide⟩

abbrev Sequencer := Bank sequencerMasks

def Sequencer.default : Sequencer := ⟨0, ![0x03, 0x01, 3, 0, 2], by decide, by decide⟩

/-- Set/Reset, Enable Set/Reset, Color Compare, Data Rotate, Read Map Select, Mode, Miscellaneous, Color Don't Care and
Bit Mask. -/
def graphicsMasks : Masks 9 := ⟨0x0f, ![0x0f, 0x0f, 0x0f, 0x1f, 0x03, 0x7b, 0x0f, 0x0f, 0xff], by decide⟩

abbrev Graphics := Bank graphicsMasks

def Graphics.default : Graphics := ⟨0, ![0, 0, 0, 0, 0, 0x10, 0x0e, 0x0f, 0xff], by decide, by decide⟩

/-! ## CRTC -/

namespace Crtc

def OVERFLOW_INDEX : Fin 25 := 0x07
def RETRACE_END_INDEX : Fin 25 := 0x11
def START_HIGH_INDEX : Fin 25 := 0x0c
def START_LOW_INDEX : Fin 25 := 0x0d
def PROTECT_TIMING_REGISTERS : BitVec 8 := 0x80
def LINE_COMPARE_OVERFLOW : BitVec 8 := 0x10

end Crtc

/-- Cursor Start and End, Preset Row Scan and Underline Location keep some bits, the others all. -/
def crtcMasks : Masks 25 where
  index := 0x1f
  values := fun i =>
    if i.val = 0x0a then 0x3f
    else if i.val = 0x0b then 0x7f
    else if i.val = 0x08 ∨ i.val = 0x14 then 0x7f
    else 0xff
  selectable := by decide

/-- Live CRTC registers and the display-start latch. -/
structure Crtc where
  bank : Bank crtcMasks
  displayStart : BitVec 16

namespace Crtc

def default : Crtc where
  bank := ⟨0, ![0x5f, 0x4f, 0x50, 0x82, 0x54, 0x80, 0xbf, 0x1f, 0, 0xc7, 0, 0, 0, 0, 0, 0, 0x9c, 0xae, 0x8f, 40, 0x1f,
    0x96, 0xb9, 0xa3, 0xff], by decide, by decide⟩
  displayStart := 0

variable (crtc : Crtc)

def select (index : BitVec 8) : Crtc := { crtc with bank := crtc.bank.select index }

def latchDisplayStart : Crtc :=
  { crtc with displayStart := crtc.bank.values START_HIGH_INDEX ++ crtc.bank.values START_LOW_INDEX }

/-- CRTC 11 bit 7 protects 00–07 except the line-compare overflow bit. -/
def write (value : BitVec 8) : Crtc :=
  if crtc.bank.index.toNat ≤ OVERFLOW_INDEX.val ∧
      crtc.bank.values RETRACE_END_INDEX &&& PROTECT_TIMING_REGISTERS ≠ 0 then
    if crtc.bank.index.toNat = OVERFLOW_INDEX.val then
      let kept := crtc.bank.values OVERFLOW_INDEX &&& ~~~LINE_COMPARE_OVERFLOW
      { crtc with bank := crtc.bank.set OVERFLOW_INDEX (kept ||| (value &&& LINE_COMPARE_OVERFLOW)) }
    else crtc
  else { crtc with bank := crtc.bank.write value }

/-- The default registers without their protection. -/
def unprotected : Crtc :=
  let retraceEnd := default.bank.values RETRACE_END_INDEX &&& ~~~PROTECT_TIMING_REGISTERS
  { default with bank := default.bank.set RETRACE_END_INDEX retraceEnd }

def fill (values : Fin 25 → BitVec 8) : Crtc :=
  (List.finRange 25).foldl (fun crtc i => (crtc.select (ofNat 8 i.val)).write (values i)) crtc

variable {crtc}

theorem write_select_bank (i : Fin 25) (value : BitVec 8)
    (h : i.val ≤ OVERFLOW_INDEX.val → crtc.bank.values RETRACE_END_INDEX &&& PROTECT_TIMING_REGISTERS = 0) :
    ((crtc.select (ofNat 8 i.val)).write value).bank =
      (crtc.bank.select (ofNat 8 i.val)).write value := by
  have hidx : (crtc.select (ofNat 8 i.val)).bank.index.toNat = i.val := crtcMasks.selectable i
  rw [write, if_neg fun hprotected => hprotected.2 (h (hidx ▸ hprotected.1))]
  rfl

/-- The timing registers come before the register that protects them. -/
theorem values_fill (hopen : crtc.bank.values RETRACE_END_INDEX &&& PROTECT_TIMING_REGISTERS = 0)
    (values : Fin 25 → BitVec 8) : (crtc.fill values).bank.values = fun i => values i &&& crtcMasks.values i := by
  have hfill := @Slices.foldl_finRange 25 Crtc
    (fun count c => Bank.FilledTo crtc.bank.values (fun i => values i &&& crtcMasks.values i) count c.bank.values)
    (fun crtc i => (crtc.select (ofNat 8 i.val)).write (values i)) crtc (Bank.FilledTo.zero _ _)
    (fun i s h => by
      rw [write_select_bank i (values i), Bank.values_write_select]
      · exact Bank.FilledTo.update h
      · intro hle
        rw [h RETRACE_END_INDEX, if_neg (fun hlt => absurd (hlt.trans_le hle) (by decide))]
        exact hopen)
  funext i
  exact (hfill i).trans (if_pos i.isLt)

theorem ext' {crtc other : Crtc} (hbank : crtc.bank = other.bank) (hst : crtc.displayStart = other.displayStart) :
    crtc = other := by
  cases crtc
  cases other
  cases hbank
  cases hst
  rfl

theorem fill_bank (start : Crtc) (hopen : start.bank.values RETRACE_END_INDEX &&& PROTECT_TIMING_REGISTERS = 0) :
    ((start.fill crtc.bank.values).select crtc.bank.index).bank = crtc.bank := by
  refine Bank.ext' crtc.bank.index_kept ?_
  show (start.fill crtc.bank.values).bank.values = crtc.bank.values
  rw [values_fill hopen]
  exact funext crtc.bank.values_kept

end Crtc

/-! ## Attribute Controller -/

/-- The palette, Mode Control, Overscan Color, Color Plane Enable, Horizontal Panning and Color Select. -/
def attributeMasks : Masks 21 where
  index := 0x3f
  values := fun i =>
    if i.val ≤ 0x0f then 0x3f else if i.val = 0x10 then 0xef else if i.val = 0x11 then 0xff else 0x0f
  selectable := by decide

/-- Attribute Controller values, raw address byte and CPU access phase. -/
structure Attribute where
  bank : Bank attributeMasks
  dataNext : Bool

namespace Attribute

def COLOR_SELECT : Fin 21 := 0x14
def PALETTE_ADDRESS_SOURCE : BitVec 8 := 0x20

def default : Attribute where
  bank := ⟨PALETTE_ADDRESS_SOURCE, ![0, 1, 2, 3, 4, 5, 0x14, 7, 0x38, 0x39, 0x3a, 0x3b, 0x3c, 0x3d, 0x3e, 0x3f, 0x0c, 0,
    0x0f, 0, 0], by decide, by decide⟩
  dataNext := false

variable (a : Attribute)

/-- An active Input Status 1 read explicitly selects the address phase. -/
def resetAddress : Attribute := { a with dataNext := false }

/-- A write to the register that is addressed. The palette is closed while display addressing is active. -/
def store (value : BitVec 8) : Bank attributeMasks :=
  if h : (a.bank.index &&& 0x1f).toNat < 21 then
    if (a.bank.index &&& 0x1f).toNat ≤ 0x0f ∧ a.bank.index &&& PALETTE_ADDRESS_SOURCE ≠ 0 then
      a.bank
    else a.bank.set ⟨(a.bank.index &&& 0x1f).toNat, h⟩ value
  else a.bank

/-- Every write advances the phase, including ignored register writes. -/
def write (value : BitVec 8) : Attribute :=
  if a.dataNext then ⟨a.store value, false⟩ else ⟨a.bank.select value, true⟩

/-- Color Select, which is saved with the palette colors. -/
def colorSelect : BitVec 8 := a.bank.values COLOR_SELECT

def setColorSelect (value : BitVec 8) : Attribute := { a with bank := a.bank.set COLOR_SELECT value }

theorem ext' {a b : Attribute} (hbank : a.bank = b.bank) (hphase : a.dataNext = b.dataNext) : a = b := by
  cases a
  cases b
  cases hbank
  cases hphase
  rfl

theorem colorSelect_setColorSelect (value : BitVec 8) (h : value.toNat ≤ 15) :
    (a.setColorSelect value).colorSelect = value := by
  have hbits : ∀ value : BitVec 8, value.toNat ≤ 15 → value &&& 0x0f = value := by decide
  show update a.bank.values COLOR_SELECT (value &&& attributeMasks.values COLOR_SELECT) COLOR_SELECT = value
  rw [update_self]
  exact hbits value h

theorem setColorSelect_setColorSelect (first second : BitVec 8) :
    (a.setColorSelect first).setColorSelect second = a.setColorSelect second :=
  ext' (Bank.ext' rfl (Function.update_idem ..)) rfl

theorem setColorSelect_self {value : BitVec 8} (h : a.colorSelect = value) : a.setColorSelect value = a := by
  refine ext' (Bank.ext' rfl ?_) rfl
  show update a.bank.values COLOR_SELECT (value &&& attributeMasks.values COLOR_SELECT) = a.bank.values
  have hkept := a.bank.values_kept COLOR_SELECT
  rw [← h]
  show update a.bank.values COLOR_SELECT (a.bank.values COLOR_SELECT &&& _) = a.bank.values
  rw [hkept, Function.update_eq_self]

/-- The registers but Color Select written, each after its index. -/
def fill (values : Fin 20 → BitVec 8) : Attribute :=
  (List.finRange 20).foldl
    (fun a i => ((a.resetAddress.write (ofNat 8 i.val)).write (values i))) a

variable {a}

theorem values_write_write (i : Fin 20) (value : BitVec 8) :
    ((a.resetAddress.write (ofNat 8 i.val)).write value).bank.values =
      update a.bank.values i.castSucc (value &&& attributeMasks.values i.castSucc) := by
  have hidx : ∀ i : Fin 20, ((ofNat 8 i.val &&& 0x3f) &&& 0x1f).toNat = i.val ∧
      (ofNat 8 i.val &&& 0x3f) &&& PALETTE_ADDRESS_SOURCE = 0 := by decide
  obtain ⟨hidx, hsrc⟩ := hidx i
  have hlt : ((a.bank.select (ofNat 8 i.val)).index &&& 0x1f).toNat < 21 :=
    lt_of_eq_of_lt hidx (i.isLt.trans (by decide))
  have hfin : (⟨((a.bank.select (ofNat 8 i.val)).index &&& 0x1f).toNat, hlt⟩ : Fin 21) = i.castSucc :=
    Fin.ext hidx
  have hstore : (⟨a.bank.select (ofNat 8 i.val), true⟩ : Attribute).store value =
      (a.bank.select (ofNat 8 i.val)).set i.castSucc value := by
    rw [store, dif_pos hlt, if_neg fun hclosed => hclosed.2 hsrc, hfin]
  have hwr : (a.resetAddress.write (ofNat 8 i.val)).write value =
      ⟨(⟨a.bank.select (ofNat 8 i.val), true⟩ : Attribute).store value, false⟩ := rfl
  rw [hwr, hstore]
  rfl

/-- What a register keeps of the value that is written to it. -/
def filled (values : Fin 20 → BitVec 8) (i : Fin 21) : BitVec 8 :=
  if h : i.val < 20 then values ⟨i.val, h⟩ &&& attributeMasks.values i else 0

theorem filled_castSucc (values : Fin 20 → BitVec 8) (i : Fin 20) :
    filled values i.castSucc = values i &&& attributeMasks.values i.castSucc :=
  dif_pos (c := i.castSucc.val < 20) i.isLt

theorem values_fill (values : Fin 20 → BitVec 8) :
    (a.fill values).bank.values = fun i => if i.val < 20 then filled values i else a.bank.values i :=
  funext (@Slices.foldl_finRange 20 Attribute
    (fun count b => Bank.FilledTo a.bank.values (filled values) count b.bank.values)
    (fun a i => (a.resetAddress.write (ofNat 8 i.val)).write (values i)) a (Bank.FilledTo.zero _ _)
    (fun i s h => by
      rw [values_write_write, ← filled_castSucc]
      exact Bank.FilledTo.update h))

end Attribute

/-! ## Palette colors -/

/-- Six-bit RGB palette and sequential CPU access. -/
structure Dac where
  mask : BitVec 8
  colors : Fin 256 → Fin 3 → BitVec 8
  address : BitVec 8
  component : Fin 3
  reading : Bool
  colors_lt : ∀ i j, (colors i j).toNat < 64

namespace Dac

/-- A component of the EGA palette, which the first 64 entries hold; unused entries start black. -/
def paletteComponent (index : Nat) (component : Fin 3) : BitVec 8 :=
  if index < 64 then
    ofNat 8 (index >>> (2 - component.val) % 2 * 42 + index >>> (5 - component.val) % 2 * 21)
  else 0

theorem paletteComponent_lt (index : Nat) (comp : Fin 3) : (paletteComponent index comp).toNat < 64 := by
  rw [paletteComponent]
  split
  · have hhi : index >>> (2 - comp.val) % 2 < 2 := Nat.mod_lt _ (by decide)
    have hlow : index >>> (5 - comp.val) % 2 < 2 := Nat.mod_lt _ (by decide)
    rw [toNat_ofNat, Nat.mod_eq_of_lt (by omega)]
    omega
  · decide

def default : Dac where
  mask := 0xff
  colors := fun index component => paletteComponent index.val component
  address := 0
  component := 0
  reading := false
  colors_lt := fun index component => paletteComponent_lt index.val component

variable (dac : Dac)

def select (address : BitVec 8) (reading : Bool) : Dac := { dac with address, component := 0, reading }

/-- Port 3C8h reports the next index during a read transfer, and the current index during a write transfer. -/
def reportedAddress : BitVec 8 := dac.address + if dac.reading then 1 else 0

def state : BitVec 8 := if dac.reading then 3 else 0

def step : Dac :=
  if dac.component = 2 then { dac with component := 0, address := dac.address + 1 }
  else { dac with component := dac.component + 1 }

def read : BitVec 8 × Dac := (dac.colors dac.address.toFin dac.component, dac.step)

def setColor (i : Fin 256) (j : Fin 3) (value : BitVec 8) : Fin 256 → Fin 3 → BitVec 8 :=
  update dac.colors i (update (dac.colors i) j (value &&& 0x3f))

theorem setColor_lt (i : Fin 256) (j : Fin 3) (value : BitVec 8) (i' : Fin 256) (j' : Fin 3) :
    (dac.setColor i j value i' j').toNat < 64 := by
  rw [setColor]
  by_cases hi : i' = i
  · subst hi
    rw [update_self]
    by_cases hj : j' = j
    · subst hj
      rw [update_self, BitVec.toNat_and]
      exact Nat.lt_of_le_of_lt Nat.and_le_right (by decide)
    · rw [update_of_ne hj]
      exact dac.colors_lt i' j'
  · rw [update_of_ne hi]
    exact dac.colors_lt i' j'

def write (value : BitVec 8) : Dac :=
  step { dac with
    colors := dac.setColor dac.address.toFin dac.component value
    colors_lt := dac.setColor_lt dac.address.toFin dac.component value }

/-- The components of all colors, in order. -/
def flattened (k : Fin 768) : BitVec 8 := dac.colors ⟨k.val / 3, by omega⟩ ⟨k.val % 3, by omega⟩

def toStateBytes : Bytes :=
  dac.mask :: dac.address :: ofNat 8 dac.component.val :: (if dac.reading then 1 else 0) ::
    List.ofFn dac.flattened

theorem getD_lt {values : Bytes} (hvals : values.all (fun value => value.toNat < 64)) (k : Nat) :
    (values.getD k 0).toNat < 64 := by
  rw [List.getD_eq_getElem?_getD]
  cases hval : values[k]? with
  | none => exact Nat.zero_lt_succ 63
  | some value => exact of_decide_eq_true (List.all_eq_true.mp hvals value (List.mem_of_getElem? hval))

def fromStateBytes (bytes : Bytes) : Option Dac :=
  if h : (bytes.getD 2 0).toNat < 3 ∧ (bytes.getD 3 0).toNat ≤ 1 ∧
      (bytes.drop 4).all (fun value => value.toNat < 64) then
    some {
      mask := bytes.getD 0 0
      address := bytes.getD 1 0
      component := ⟨(bytes.getD 2 0).toNat, h.1⟩
      reading := bytes.getD 3 0 ≠ 0
      colors := fun i j => (bytes.drop 4).getD (3 * i.val + j.val) 0
      colors_lt := fun i j => getD_lt h.2.2 (3 * i.val + j.val) }
  else none

theorem ext' {dac other : Dac} (hmask : dac.mask = other.mask) (hcolors : dac.colors = other.colors)
    (haddr : dac.address = other.address) (hcomponent : dac.component = other.component)
    (hreading : dac.reading = other.reading) : dac = other := by
  cases dac
  cases other
  cases hmask
  cases hcolors
  cases haddr
  cases hcomponent
  cases hreading
  rfl

theorem fromStateBytes_toStateBytes : fromStateBytes dac.toStateBytes = some dac := by
  have hcomponent : (ofNat 8 dac.component.val).toNat = dac.component.val := by
    rw [toNat_ofNat, Nat.mod_eq_of_lt (dac.component.isLt.trans (by decide))]
  have hreading : ((if dac.reading then 1 else 0 : BitVec 8)).toNat ≤ 1 := by
    split <;> decide
  have hcolors : ∀ value ∈ List.ofFn dac.flattened, value.toNat < 64 := by
    intro value hval
    obtain ⟨k, rfl⟩ := List.mem_ofFn.mp hval
    exact dac.colors_lt _ _
  have hlen : (List.ofFn dac.flattened).length = 768 := List.length_ofFn
  have hget : ∀ (i : Fin 256) (j : Fin 3), (List.ofFn dac.flattened).getD (3 * i.val + j.val) 0 = dac.colors i j := by
    intro i j
    have hlt : 3 * i.val + j.val < (List.ofFn dac.flattened).length := by omega
    have hdiv : (3 * i.val + j.val) / 3 = i.val := by omega
    have hmod : (3 * i.val + j.val) % 3 = j.val := by omega
    rw [List.getD_eq_getElem?_getD, List.getElem?_eq_getElem hlt, Option.getD_some, List.getElem_ofFn]
    exact congrArg₂ dac.colors (Fin.ext hdiv) (Fin.ext hmod)
  rw [toStateBytes]
  generalize List.ofFn dac.flattened = colors at hcolors hget
  have hall : colors.all (fun value => value.toNat < 64) :=
    List.all_eq_true.mpr fun value hval => decide_eq_true (hcolors value hval)
  rw [fromStateBytes, dif_pos ⟨lt_of_eq_of_lt hcomponent dac.component.isLt, hreading, hall⟩]
  refine congrArg some (ext' rfl (funext fun i => funext (hget i)) rfl (Fin.ext hcomponent) ?_)
  show decide ((if dac.reading then 1 else 0 : BitVec 8) ≠ 0) = dac.reading
  cases dac.reading <;> rfl

theorem fields_of_length {bytes : Bytes} (hlen : bytes.length = 772) :
    ∃ mask address comp reading colors,
      bytes = mask :: address :: comp :: reading :: colors ∧ colors.length = 768 := by
  obtain ⟨mask, rest, rfl⟩ := List.exists_cons_of_length_eq_add_one hlen
  obtain ⟨address, rest, rfl⟩ := List.exists_cons_of_length_eq_add_one (Nat.succ.inj hlen)
  obtain ⟨comp, rest, rfl⟩ := List.exists_cons_of_length_eq_add_one (Nat.succ.inj (Nat.succ.inj hlen))
  obtain ⟨reading, colors, rfl⟩ :=
    List.exists_cons_of_length_eq_add_one (Nat.succ.inj (Nat.succ.inj (Nat.succ.inj hlen)))
  exact ⟨mask, address, comp, reading, colors, rfl, Nat.succ.inj (Nat.succ.inj (Nat.succ.inj (Nat.succ.inj hlen)))⟩

theorem toStateBytes_of_fromStateBytes {bytes : Bytes} (hlen : bytes.length = 772) {dac : Dac}
    (h : fromStateBytes bytes = some dac) : dac.toStateBytes = bytes := by
  obtain ⟨mask, address, component, reading, colors, rfl, hcolors⟩ := fields_of_length hlen
  rw [fromStateBytes] at h
  split at h
  · next hcheck =>
      have hdac := Option.some.inj h
      subst hdac
      have hreading : ∀ reading : BitVec 8, reading.toNat ≤ 1 →
          (if decide (reading ≠ 0) then 1 else 0 : BitVec 8) = reading := by decide
      have hflattened : List.ofFn (fun k : Fin 768 => colors.getD (3 * (k.val / 3) + k.val % 3) 0) = colors := by
        refine Eq.trans (congrArg List.ofFn (funext fun k => ?_)) (Slices.ofFn_table 0 hcolors)
        rw [Nat.div_add_mod]
        rfl
      show mask :: address :: ofNat 8 component.toNat :: (if decide (reading ≠ 0) then 1 else 0) ::
        List.ofFn (fun k : Fin 768 => colors.getD (3 * (k.val / 3) + k.val % 3) 0) = _
      rw [hflattened, hreading reading hcheck.2.1, BitVec.ofNat_toNat, BitVec.setWidth_eq]
  · cases h

end Dac

/-! ## Address decoding -/

/-- CPU address decoding for the adapter. -/
structure Setup where
  control : BitVec 8
  option : BitVec 8
  control_kept : control &&& 0x18 = control
  option_kept : option &&& 1 = option

namespace Setup

def SETUP_MODE : BitVec 8 := 0x10
def ADDRESSING_ENABLE : BitVec 8 := 0x08

def default : Setup := ⟨ADDRESSING_ENABLE, 1, by decide, by decide⟩

variable (setup : Setup)

def toBytes : Bytes := [setup.control, setup.option]

def fromBytes (control option : BitVec 8) : Option Setup :=
  if h : control &&& ~~~(SETUP_MODE ||| ADDRESSING_ENABLE) = 0 ∧ option.toNat ≤ 1 then
    some ⟨control, option, (by decide : ∀ control : BitVec 8,
      control &&& ~~~(SETUP_MODE ||| ADDRESSING_ENABLE) = 0 → control &&& 0x18 = control) control h.1,
      (by decide : ∀ option : BitVec 8, option.toNat ≤ 1 → option &&& 1 = option) option h.2⟩
  else none

def enabled : Bool := setup.control = ADDRESSING_ENABLE ∧ setup.option ≠ 0

def writeControl (value : BitVec 8) : Setup where
  control := value &&& (SETUP_MODE ||| ADDRESSING_ENABLE)
  option := setup.option
  control_kept := by
    rw [show (0x18 : BitVec 8) = SETUP_MODE ||| ADDRESSING_ENABLE from rfl, BitVec.and_assoc, BitVec.and_self]
  option_kept := setup.option_kept

def readOption : BitVec 8 := if setup.control &&& SETUP_MODE ≠ 0 then setup.option else 0xff

def writeOption (value : BitVec 8) : Setup :=
  if setup.control &&& SETUP_MODE ≠ 0 then
    { setup with option := value &&& 1, option_kept := by rw [BitVec.and_assoc, BitVec.and_self] }
  else setup

theorem fromBytes_kept : fromBytes setup.control setup.option = some setup := by
  have hctl : ∀ control : BitVec 8, control &&& 0x18 = control →
      control &&& ~~~(SETUP_MODE ||| ADDRESSING_ENABLE) = 0 := by decide
  have hoption : ∀ option : BitVec 8, option &&& 1 = option → option.toNat ≤ 1 := by decide
  rw [fromBytes, dif_pos ⟨hctl _ setup.control_kept, hoption _ setup.option_kept⟩]

end Setup

end Relocade.Vga
