import Relocade.Keyboard.Layout

/-!
# `Keyboard.Decoder` — the BIOS decoder and the physical keyboard

The BIOS decodes the controller's set-1 bytes into keys, with its state in the guest's data area. A native application
translates physical events itself. Both track held keys and locks, and give the same keystrokes.
-/

namespace Relocade.Keyboard

/-! ## Flags -/

/-- Whether a flag, given by its bit, is set. -/
def contains (bits : BitVec 8) (flag : Nat) : Bool := bits.getLsbD flag

def setFlag (bits : BitVec 8) (flag : Nat) (value : Bool) : BitVec 8 :=
  if value then bits ||| 1#8 <<< flag else bits &&& ~~~(1#8 <<< flag)

namespace ShiftFlags

def rightShift : Nat := 0
def leftShift : Nat := 1
def control : Nat := 2
def alt : Nat := 3
def scrollLock : Nat := 4
def numLock : Nat := 5
def capsLock : Nat := 6
def insert : Nat := 7

end ShiftFlags

namespace HeldKeys

def leftControl : Nat := 0
def leftAlt : Nat := 1
def scrollLock : Nat := 4
def numLock : Nat := 5
def capsLock : Nat := 6
def insert : Nat := 7

end HeldKeys

namespace KeyboardStatus

def pausePrefixed : Nat := 0
def extendedPrefixed : Nat := 1
def rightControl : Nat := 2
def rightAlt : Nat := 3

end KeyboardStatus

namespace ShiftState

def fromBits (bits : BitVec 8) : ShiftState where
  rightShift := contains bits ShiftFlags.rightShift
  leftShift := contains bits ShiftFlags.leftShift
  control := contains bits ShiftFlags.control
  alt := contains bits ShiftFlags.alt
  scrollLock := contains bits ShiftFlags.scrollLock
  numLock := contains bits ShiftFlags.numLock
  capsLock := contains bits ShiftFlags.capsLock
  insert := contains bits ShiftFlags.insert

def bits (shifts : ShiftState) : BitVec 8 :=
  let flags := setFlag 0 ShiftFlags.rightShift shifts.rightShift
  let flags := setFlag flags ShiftFlags.leftShift shifts.leftShift
  let flags := setFlag flags ShiftFlags.control shifts.control
  let flags := setFlag flags ShiftFlags.alt shifts.alt
  let flags := setFlag flags ShiftFlags.scrollLock shifts.scrollLock
  let flags := setFlag flags ShiftFlags.numLock shifts.numLock
  let flags := setFlag flags ShiftFlags.capsLock shifts.capsLock
  setFlag flags ShiftFlags.insert shifts.insert

end ShiftState

structure Flags where
  shifts : ShiftState
  held : BitVec 8
  status : BitVec 8

/-! ## The data area -/

/-- The keyboard's part of the BIOS data area. Head, tail and bounds are offsets; the end is exclusive. -/
structure DataArea where
  shiftFlags : BitVec 8
  heldKeys : BitVec 8
  keyboardStatus : BitVec 8
  head : BitVec 16
  tail : BitVec 16
  bufferStart : BitVec 16
  bufferEnd : BitVec 16
  buffer : BitVec 16 → BitVec 8

namespace DataArea

variable (data : DataArea)

def advance (offset : BitVec 16) : BitVec 16 :=
  if offset + 2 = data.bufferEnd then data.bufferStart else offset + 2

/-- Stores a keystroke; `none` when the ring is full. -/
def push (key : KeyStroke) : Option DataArea :=
  if data.advance data.tail = data.head then none
  else some { data with
    buffer := fun offset =>
      if offset = data.tail + 1 then key.scanCode else if offset = data.tail then key.character else data.buffer offset
    tail := data.advance data.tail }

def peek : Option KeyStroke :=
  if data.head = data.tail then none else some ⟨data.buffer data.head, data.buffer (data.head + 1)⟩

def read : Option (KeyStroke × DataArea) :=
  data.peek.map fun key => (key, { data with head := data.advance data.head })

/-- Reads keystrokes in enhanced mode, which translates every one, until the ring is empty. -/
def drain : Nat → DataArea → List KeyStroke × DataArea
  | 0, data => ([], data)
  | fuel + 1, data =>
      match data.read with
      | none => ([], data)
      | some (key, rest) =>
          let drained := drain fuel rest
          (key.enhanced.toList ++ drained.1, drained.2)

def flags : Flags where
  shifts := .fromBits data.shiftFlags
  held := data.heldKeys
  status := data.keyboardStatus

def setFlags (flags : Flags) : DataArea :=
  { data with shiftFlags := flags.shifts.bits, heldKeys := flags.held, keyboardStatus := flags.status }

end DataArea

/-! ## The decoder -/

inductive Scan where
  | none | key | controlBreak
  deriving DecidableEq

structure Input where
  data : DataArea
  pauseRemaining : Nat

/-- A toggle key changes its state on a fresh press. -/
def toggle (state : Bool) (held : BitVec 8) (key : Nat) (pressed : Bool) : Bool × BitVec 8 :=
  (if pressed && !contains held key then !state else state, setFlag held key pressed)

namespace Flags

variable (flags : Flags)

/-- Insert: as a digit, the key only is held. -/
def pressInsert (numeric pressed : Bool) : Flags :=
  if numeric then { flags with held := setFlag flags.held HeldKeys.insert pressed }
  else
    let toggled := toggle flags.shifts.insert flags.held HeldKeys.insert pressed
    { flags with shifts := { flags.shifts with insert := toggled.1 }, held := toggled.2 }

/-- A key's own effect on the flags. -/
def press (key : Key) (pressed : Bool) : Flags :=
  match key with
  | .leftShift => { flags with shifts := { flags.shifts with leftShift := pressed } }
  | .rightShift => { flags with shifts := { flags.shifts with rightShift := pressed } }
  | .leftControl => { flags with held := setFlag flags.held HeldKeys.leftControl pressed }
  | .rightControl => { flags with status := setFlag flags.status KeyboardStatus.rightControl pressed }
  | .leftAlt => { flags with held := setFlag flags.held HeldKeys.leftAlt pressed }
  | .rightAlt => { flags with status := setFlag flags.status KeyboardStatus.rightAlt pressed }
  | .capsLock =>
      let toggled := toggle flags.shifts.capsLock flags.held HeldKeys.capsLock pressed
      { flags with shifts := { flags.shifts with capsLock := toggled.1 }, held := toggled.2 }
  | .numLock =>
      let toggled := toggle flags.shifts.numLock flags.held HeldKeys.numLock pressed
      { flags with shifts := { flags.shifts with numLock := toggled.1 }, held := toggled.2 }
  | .scrollLock =>
      let toggled := toggle flags.shifts.scrollLock flags.held HeldKeys.scrollLock pressed
      { flags with shifts := { flags.shifts with scrollLock := toggled.1 }, held := toggled.2 }
  | .insert | .keypad0 => flags.pressInsert (key = .keypad0 ∧ flags.shifts.numericKeypad) pressed
  | _ => flags

/-- Either side keeps Ctrl and Alt active. -/
def sides (key : Key) : Flags :=
  let flags :=
    if key = .leftControl ∨ key = .rightControl then
      { flags with shifts := { flags.shifts with
          control := contains flags.held HeldKeys.leftControl || contains flags.status KeyboardStatus.rightControl } }
    else flags
  if key = .leftAlt ∨ key = .rightAlt then
    { flags with shifts := { flags.shifts with
        alt := contains flags.held HeldKeys.leftAlt || contains flags.status KeyboardStatus.rightAlt } }
  else flags

end Flags

/-- The effect of a decoded key. -/
def DataArea.decode (data : DataArea) (flags : Flags) (key : Key) (pressed : Bool) : Scan × DataArea :=
  let flags := (flags.press key pressed).sides key
  let data := data.setFlags flags
  match if pressed then (keystroke key flags.shifts).bind data.push else none with
  | some data => (.key, data)
  | none => (.none, data)

/-- Decodes a byte from the controller. -/
def Input.scan (input : Input) (byte : BitVec 8) : Scan × Input :=
  let flags := input.data.flags
  if input.pauseRemaining ≠ 0 then
    let remaining := input.pauseRemaining - 1
    (.none, {
      data :=
        if remaining = 0 then
          input.data.setFlags { flags with status := setFlag flags.status KeyboardStatus.pausePrefixed false }
        else input.data
      pauseRemaining := remaining })
  else if byte = 0xE1 then
    let status := setFlag flags.status KeyboardStatus.extendedPrefixed false
    let status := setFlag status KeyboardStatus.pausePrefixed true
    (.none, { data := input.data.setFlags { flags with status := status }, pauseRemaining := 5 })
  else if byte = 0xE0 then
    let status := setFlag flags.status KeyboardStatus.extendedPrefixed true
    (.none, { input with data := input.data.setFlags { flags with status := status } })
  else
    let extended := contains flags.status KeyboardStatus.extendedPrefixed
    let flags := { flags with status := setFlag flags.status KeyboardStatus.extendedPrefixed false }
    let pressed : Bool := byte &&& 0x80 = 0
    -- Ctrl-Pause emits an extended Scroll Lock
    if extended && byte = 0x46 && flags.shifts.control && !flags.shifts.alt then
      (.controlBreak, { input with data := input.data.setFlags flags })
    else
      match Key.fromScan (byte &&& ~~~0x80) extended with
      | none => (.none, { input with data := input.data.setFlags flags })
      | some key =>
          let decoded := input.data.decode flags key pressed
          (decoded.1, { input with data := decoded.2 })

/-! ## The physical keyboard -/

inductive KeyboardEvent where
  | modifiers (shift control alt : Bool)
  | focusLost
  | key (code : Option KeyCode) (pressed : Bool)

structure PhysicalKeyboard where
  shifts : ShiftState
  held : Finset KeyCode

namespace PhysicalKeyboard

open KeyCode

variable (keyboard : PhysicalKeyboard)

/-- Takes one modifier of a snapshot over: known sides are kept, and the left key stands for an unknown one. -/
def snapshot (held : Finset KeyCode) (active : Bool) (left right : KeyCode) : Finset KeyCode :=
  if !active then (held.erase left).erase right
  else if left ∉ held ∧ right ∉ held then insert left held
  else held

/-- A press or release: a fresh press of a lock key toggles it. -/
def hold (code : KeyCode) (pressed : Bool) : PhysicalKeyboard :=
  let fresh := pressed && decide (code ∉ keyboard.held)
  let shifts := keyboard.shifts
  { held := if pressed then insert code keyboard.held else keyboard.held.erase code
    shifts :=
      match code with
      | .capsLock => if fresh then { shifts with capsLock := !shifts.capsLock } else shifts
      | .numLock => if fresh then { shifts with numLock := !shifts.numLock } else shifts
      | .scrollLock => if fresh then { shifts with scrollLock := !shifts.scrollLock } else shifts
      | .insert => if fresh then { shifts with insert := !shifts.insert } else shifts
      | .numpad0 => if fresh && !shifts.numericKeypad then { shifts with insert := !shifts.insert } else shifts
      | _ => shifts }

/-- The modifiers that held keys give. -/
def settle : PhysicalKeyboard :=
  { keyboard with shifts := { keyboard.shifts with
      leftShift := decide (shiftLeft ∈ keyboard.held)
      rightShift := decide (shiftRight ∈ keyboard.held)
      control := decide (controlLeft ∈ keyboard.held) || decide (controlRight ∈ keyboard.held)
      alt := decide (altLeft ∈ keyboard.held) || decide (altRight ∈ keyboard.held) } }

/-- The keystroke of a pressed key. -/
def strike (code : KeyCode) : Option KeyStroke :=
  ((Key.fromPhysical code).bind fun key => keystroke key keyboard.shifts).bind KeyStroke.enhanced

/-- Follows a host event, and gives the stroke of a key press. -/
def translate (event : KeyboardEvent) : Option KeyStroke × PhysicalKeyboard :=
  match event with
  | .modifiers shift control alt =>
      let held := snapshot keyboard.held shift shiftLeft shiftRight
      let held := snapshot held control controlLeft controlRight
      let held := snapshot held alt altLeft altRight
      (none, { keyboard with held := held }.settle)
  | .focusLost => (none, { keyboard with held := ∅ }.settle)
  | .key none _ => (none, keyboard)
  | .key (some code) pressed =>
      let keyboard := (keyboard.hold code pressed).settle
      (if pressed then keyboard.strike code else none, keyboard)

end PhysicalKeyboard

/-! ## Over the wire -/

/-- The BIOS input behind the controller. -/
structure Guest where
  input : Input
  breakPrefix : Bool

/-- A key goes over the wire in set 2, the BIOS decodes what the controller makes of it, and the guest reads its
ring. -/
def Guest.event (guest : Guest) (code : KeyCode) (pressed : Bool) (held : Finset KeyCode) : List KeyStroke × Guest :=
  let sent := transmit guest.breakPrefix (sequence code pressed 2 held)
  let input := sent.1.foldl (fun input byte => (input.scan byte).2) guest.input
  let drained := input.data.drain 16
  (drained.1, { input := { input with data := drained.2 }, breakPrefix := sent.2 })

/-! ## Flags and bits -/

section Bits

variable {bits : BitVec 8} {i j : Nat} {value : Bool}

theorem contains_setFlag (hj : j < 8) :
    contains (setFlag bits i value) j = if j = i then value else contains bits j := by
  unfold contains setFlag
  cases value with
  | true =>
    rw [if_pos rfl, BitVec.getLsbD_or, BitVec.getLsbD_shiftLeft]
    by_cases h : j = i
    · simp [h, show i < 8 by omega]
    · by_cases hlt : j < i
      · simp [h, hlt]
      · simp [h, show j - i ≠ 0 by omega]
  | false =>
    rw [if_neg Bool.false_ne_true, BitVec.getLsbD_and, BitVec.getLsbD_not, BitVec.getLsbD_shiftLeft]
    by_cases h : j = i
    · simp [h, show i < 8 by omega]
    · by_cases hlt : j < i
      · simp [h, hlt, hj]
      · simp [h, show j - i ≠ 0 by omega, hj]

theorem eq_of_contains {other : BitVec 8} (h : ∀ j < 8, contains bits j = contains other j) : bits = other :=
  BitVec.eq_of_getLsbD_eq h

/-- Clearing a clear flag changes nothing, also after it was set. -/
theorem setFlag_false (h : contains bits i = false) : setFlag bits i false = bits := by
  refine eq_of_contains fun j hj => ?_
  rw [contains_setFlag hj]
  split
  · next hji => rw [hji, h]
  · rfl

theorem setFlag_true_false (h : contains bits i = false) : setFlag (setFlag bits i true) i false = bits := by
  refine eq_of_contains fun j hj => ?_
  rw [contains_setFlag hj, contains_setFlag hj]
  split
  · next hji => rw [hji, h]
  · rfl

theorem ShiftState.fromBits_bits (shifts : ShiftState) : fromBits shifts.bits = shifts := by
  unfold fromBits bits
  simp [contains_setFlag, ShiftFlags.rightShift, ShiftFlags.leftShift, ShiftFlags.control, ShiftFlags.alt,
    ShiftFlags.scrollLock, ShiftFlags.numLock, ShiftFlags.capsLock, ShiftFlags.insert]

end Bits

section Data

variable {data : DataArea} {flags : Flags}

@[simp] theorem DataArea.flags_setFlags (data : DataArea) (flags : Flags) : (data.setFlags flags).flags = flags := by
  unfold DataArea.flags DataArea.setFlags
  rw [ShiftState.fromBits_bits]

theorem DataArea.drain_empty (data : DataArea) (h : data.head = data.tail) (fuel : Nat) :
    data.drain fuel = ([], data) := by
  have hread : data.read = none := by rw [DataArea.read, DataArea.peek, if_pos h]; rfl
  cases fuel with
  | zero => rfl
  | succ fuel => rw [DataArea.drain, hread]

/-- An empty ring with room takes a keystroke, and gives it back. -/
theorem DataArea.drain_push (hemp : data.head = data.tail) (hroom : data.bufferStart + 2 ≠ data.bufferEnd)
    (key : KeyStroke) (fuel : Nat) : ∃ pushed, data.push key = some pushed ∧
      pushed.drain (fuel + 1) = (key.enhanced.toList, { pushed with head := pushed.tail }) ∧
      pushed.flags = data.flags ∧ pushed.bufferStart = data.bufferStart ∧ pushed.bufferEnd = data.bufferEnd := by
  have hnext : data.advance data.tail ≠ data.tail := by
    unfold DataArea.advance
    split
    · next hend =>
        intro hst
        exact hroom (by rw [hst, hend])
    · bv_omega
  have hother : data.tail ≠ data.tail + 1 := by bv_omega
  obtain ⟨pushed, hpush⟩ : ∃ pushed, data.push key = some pushed := ⟨_, if_neg (by rw [hemp]; exact hnext)⟩
  have hpushed := hpush
  rw [DataArea.push, if_neg (by rw [hemp]; exact hnext), Option.some.injEq] at hpushed
  refine ⟨pushed, hpush, ?_, by rw [← hpushed]; rfl, by rw [← hpushed], by rw [← hpushed]⟩
  have hread : pushed.read = some (key, { pushed with head := pushed.tail }) := by
    have hhead : pushed.head = data.tail := by rw [← hpushed, ← hemp]
    have htail : pushed.tail = data.advance data.tail := by rw [← hpushed]
    have hadvance : pushed.advance data.tail = data.advance data.tail := by rw [← hpushed]; rfl
    have hcharacter : pushed.buffer data.tail = key.character := by
      rw [← hpushed]
      exact (if_neg hother).trans (if_pos rfl)
    have hscan : pushed.buffer (data.tail + 1) = key.scanCode := by
      rw [← hpushed]
      exact if_pos rfl
    rw [DataArea.read, DataArea.peek, hhead, htail, if_neg hnext.symm, hcharacter, hscan, hadvance]
    rfl
  rw [DataArea.drain, hread]
  dsimp only
  rw [DataArea.drain_empty _ rfl, List.append_nil]

end Data

/-! ## Decoding a key's bytes -/

section Decode

variable {input : Input} {key : Key}

/-- Neither a prefix nor a part of Pause is pending. -/
structure Idle (input : Input) : Prop where
  pauseRemaining : input.pauseRemaining = 0
  extended : contains input.data.keyboardStatus KeyboardStatus.extendedPrefixed = false
  paused : contains input.data.keyboardStatus KeyboardStatus.pausePrefixed = false

/-- The last byte of a set-1 sequence. -/
theorem code_facts : ∀ code : BitVec 8, code < 0x59 → ∀ p : Bool,
    (if !p then code ||| 0x80 else code) ≠ 0xE0 ∧ (if !p then code ||| 0x80 else code) ≠ 0xE1 ∧
      (if !p then code ||| 0x80 else code) &&& ~~~0x80 = code ∧
      decide ((if !p then code ||| 0x80 else code) &&& 0x80 = 0) = p ∧
      ((if !p then code ||| 0x80 else code) = 0x46 → code = 0x46) := by
  decide +kernel

/-- No key is an extended Scroll Lock. -/
theorem fromScan_break : Key.fromScan 0x46 true = none := by decide +kernel

/-- A code byte, with or without the prefix before it, is decoded as its key. -/
theorem scan_code (input : Input) {code : BitVec 8} {extended : Bool} (hkey : Key.fromScan code extended = some key)
    (hcode : code < 0x59) (p : Bool) {status : BitVec 8} (hpause : input.pauseRemaining = 0)
    (hextended : contains input.data.keyboardStatus KeyboardStatus.extendedPrefixed = extended)
    (hstatus : setFlag input.data.keyboardStatus KeyboardStatus.extendedPrefixed false = status) :
    (input.scan (if !p then code ||| 0x80 else code)).2 =
      { input with data := (input.data.decode { input.data.flags with status := status } key p).2 } := by
  obtain ⟨hE0, hE1, hmake, hpressed, hbreak⟩ := code_facts code hcode p
  generalize (if !p then code ||| 0x80 else code) = byte at hE0 hE1 hmake hpressed hbreak ⊢
  have hnobreak : (extended && decide (byte = 0x46) && input.data.flags.shifts.control &&
      !input.data.flags.shifts.alt) = false := by
    cases extended with
    | false => rfl
    | true =>
      have hne : byte ≠ 0x46 := by
        intro h
        rw [hbreak h, fromScan_break] at hkey
        cases hkey
      rw [decide_eq_false hne]
      rfl
  rw [Input.scan]
  dsimp only
  rw [if_neg (not_not.mpr hpause), if_neg hE1, if_neg hE0]
  have hflags : contains input.data.flags.status KeyboardStatus.extendedPrefixed = extended := hextended
  have hcleared : setFlag input.data.flags.status KeyboardStatus.extendedPrefixed false = status := hstatus
  rw [hflags, hcleared, hnobreak, if_neg Bool.false_ne_true, hmake, hkey, hpressed]

/-- A key's set-1 sequence is decoded as the key, from an idle state to an idle state. -/
theorem scan_sequence {code : BitVec 8} {extended : Bool} (hkey : Key.fromScan code extended = some key)
    (hcode : code < 0x59) (p : Bool) (hidle : Idle input) :
    (codeBytes code extended p 1).foldl (fun input byte => (input.scan byte).2) input =
      { input with data := (input.data.decode input.data.flags key p).2 } := by
  have hset : ∀ p : Bool, (if (!p && decide (1 = 1)) = true then code ||| 0x80 else code) =
      (if !p then code ||| 0x80 else code) := by
    intro p
    cases p <;> rfl
  have hset2 : (!p && decide (1 = 2)) = false := by cases p <;> rfl
  rw [codeBytes, hset, hset2, if_neg Bool.false_ne_true, List.append_nil]
  cases extended with
  | false =>
    exact scan_code input hkey hcode p hidle.pauseRemaining hidle.extended (setFlag_false hidle.extended)
  | true =>
    let flags := { input.data.flags with
      status := setFlag input.data.keyboardStatus KeyboardStatus.extendedPrefixed true }
    have hprefixed : (input.scan 0xE0).2 = { input with data := input.data.setFlags flags } := by
      rw [Input.scan, if_neg (not_not.mpr hidle.pauseRemaining)]
      rfl
    have hcode := scan_code { input with data := input.data.setFlags flags } hkey hcode p hidle.pauseRemaining
      ((contains_setFlag (by decide)).trans (if_pos rfl)) (setFlag_true_false hidle.extended)
    rw [DataArea.flags_setFlags] at hcode
    show (((input.scan 0xE0).2).scan _).2 = _
    rw [hprefixed, hcode]
    rfl

end Decode

/-! ## Held keys -/

/-- The keys whose holding the BIOS remembers. -/
inductive Modifier where
  | leftShift | rightShift | leftControl | rightControl | leftAlt | rightAlt | capsLock | numLock | scrollLock

namespace Modifier

def key : Modifier → Key
  | leftShift => .leftShift
  | rightShift => .rightShift
  | leftControl => .leftControl
  | rightControl => .rightControl
  | leftAlt => .leftAlt
  | rightAlt => .rightAlt
  | capsLock => .capsLock
  | numLock => .numLock
  | scrollLock => .scrollLock

def code : Modifier → KeyCode
  | leftShift => .shiftLeft
  | rightShift => .shiftRight
  | leftControl => .controlLeft
  | rightControl => .controlRight
  | leftAlt => .altLeft
  | rightAlt => .altRight
  | capsLock => .capsLock
  | numLock => .numLock
  | scrollLock => .scrollLock

end Modifier

/-- Where the BIOS remembers it. -/
def Flags.isHeld (flags : Flags) : Modifier → Bool
  | .leftShift => flags.shifts.leftShift
  | .rightShift => flags.shifts.rightShift
  | .leftControl => contains flags.held HeldKeys.leftControl
  | .rightControl => contains flags.status KeyboardStatus.rightControl
  | .leftAlt => contains flags.held HeldKeys.leftAlt
  | .rightAlt => contains flags.status KeyboardStatus.rightAlt
  | .capsLock => contains flags.held HeldKeys.capsLock
  | .numLock => contains flags.held HeldKeys.numLock
  | .scrollLock => contains flags.held HeldKeys.scrollLock

section Press

variable {flags : Flags} {keyboard : PhysicalKeyboard} {key : Key} {code : KeyCode}

variable (flags : Flags)

theorem pressInsert_eq (numeric p : Bool) : ∃ insert, flags.pressInsert numeric p =
    { flags with
      shifts := { flags.shifts with insert := insert }
      held := setFlag flags.held HeldKeys.insert p } := by
  cases numeric with
  | false => exact ⟨_, rfl⟩
  | true => exact ⟨flags.shifts.insert, rfl⟩

variable (key : Key)

variable (pressed p : Bool)

/-- A key is held after its press, and no other key's holding changes. -/
theorem isHeld_press (modifier : Modifier) :
    (flags.press key p).isHeld modifier = if key = modifier.key then p else flags.isHeld modifier := by
  have hbits : ∀ i j, j < 8 →
      contains (setFlag flags.held i p) j = if j = i then p else contains flags.held j :=
    fun i j hj => contains_setFlag hj
  have hstatus : ∀ i j, j < 8 →
      contains (setFlag flags.status i p) j = if j = i then p else contains flags.status j :=
    fun i j hj => contains_setFlag hj
  unfold Flags.press
  split
  case h_10 | h_11 =>
    obtain ⟨insert, h⟩ := pressInsert_eq flags _ p
    rw [h]
    cases modifier <;> simp [Flags.isHeld, Modifier.key, hbits, HeldKeys.leftControl, HeldKeys.leftAlt,
      HeldKeys.capsLock, HeldKeys.numLock, HeldKeys.scrollLock, HeldKeys.insert]
  case h_12 hsh hsh' hctl hctl' halt halt' hcaps hnum hscroll _ _ =>
    have hne : key ≠ modifier.key := by cases modifier <;> assumption
    rw [if_neg hne]
  all_goals
    cases modifier <;> simp [Flags.isHeld, Modifier.key, toggle, hbits, hstatus, HeldKeys.leftControl, HeldKeys.leftAlt,
      HeldKeys.capsLock, HeldKeys.numLock, HeldKeys.scrollLock, KeyboardStatus.rightControl, KeyboardStatus.rightAlt]

/-- A key's press changes no composed modifier, and no lock but its own, which a fresh press flips. -/
theorem shifts_press :
    (flags.press key p).shifts.control = flags.shifts.control ∧
    (flags.press key p).shifts.alt = flags.shifts.alt ∧
    (flags.press key p).shifts.capsLock =
      (flags.shifts.capsLock ^^ (decide (key = .capsLock) && p && !flags.isHeld .capsLock)) ∧
    (flags.press key p).shifts.numLock =
      (flags.shifts.numLock ^^ (decide (key = .numLock) && p && !flags.isHeld .numLock)) ∧
    (flags.press key p).shifts.scrollLock =
      (flags.shifts.scrollLock ^^ (decide (key = .scrollLock) && p && !flags.isHeld .scrollLock)) := by
  unfold Flags.press
  split
  case h_10 | h_11 =>
    obtain ⟨insert, h⟩ := pressInsert_eq flags _ p
    rw [h]
    simp
  case h_12 hsh hsh' hctl hctl' halt halt' hcaps hnum hscroll _ _ =>
    rw [decide_eq_false hcaps, decide_eq_false hnum, decide_eq_false hscroll]
    simp
  case h_7 | h_8 | h_9 =>
    simp only [Flags.isHeld, toggle]
    cases p <;> split <;> simp_all
  all_goals simp

/-- Nor does it leave a prefix pending. -/
theorem status_press {flag : Nat}
    (h : flag = KeyboardStatus.pausePrefixed ∨ flag = KeyboardStatus.extendedPrefixed) :
    contains (flags.press key p).status flag = contains flags.status flag := by
  have hstatus : ∀ i, flag ≠ i → contains (setFlag flags.status i p) flag = contains flags.status flag :=
    fun i hne => (contains_setFlag (by rcases h with rfl | rfl <;> decide)).trans (if_neg hne)
  unfold Flags.press
  split
  case h_4 => exact hstatus _ (by rcases h with rfl | rfl <;> decide)
  case h_6 => exact hstatus _ (by rcases h with rfl | rfl <;> decide)
  case h_10 | h_11 =>
    obtain ⟨insert, h⟩ := pressInsert_eq flags _ p
    rw [h]
  all_goals rfl

/-- What the BIOS makes of a key, in its own terms. -/
theorem sides_eq : ∃ control alt, flags.sides key =
      { flags with shifts := { flags.shifts with control := control, alt := alt } } ∧
    control = (if key = .leftControl ∨ key = .rightControl then flags.isHeld .leftControl || flags.isHeld .rightControl
      else flags.shifts.control) ∧
    alt = (if key = .leftAlt ∨ key = .rightAlt then flags.isHeld .leftAlt || flags.isHeld .rightAlt
      else flags.shifts.alt) := by
  refine ⟨_, _, ?_, rfl, rfl⟩
  unfold Flags.sides
  by_cases hctl : key = .leftControl ∨ key = .rightControl
  · have halt : ¬ (key = .leftAlt ∨ key = .rightAlt) := by
      rcases hctl with rfl | rfl <;> decide
    simp only [if_pos hctl, if_neg halt]
    rfl
  · by_cases halt : key = .leftAlt ∨ key = .rightAlt
    · simp only [if_neg hctl, if_pos halt]
      rfl
    · simp only [if_neg hctl, if_neg halt]

end Press

/-! ## The two states -/

/-- The BIOS flags and the physical keyboard tell the same. -/
structure Agrees (flags : Flags) (keyboard : PhysicalKeyboard) : Prop where
  held : ∀ modifier, flags.isHeld modifier = decide (modifier.code ∈ keyboard.held)
  control : flags.shifts.control = (flags.isHeld .leftControl || flags.isHeld .rightControl)
  alt : flags.shifts.alt = (flags.isHeld .leftAlt || flags.isHeld .rightAlt)
  capsLock : flags.shifts.capsLock = keyboard.shifts.capsLock
  numLock : flags.shifts.numLock = keyboard.shifts.numLock
  scrollLock : flags.shifts.scrollLock = keyboard.shifts.scrollLock
  settled : keyboard.settle = keyboard

section Agreement

variable {flags : Flags} {keyboard : PhysicalKeyboard} {key : Key} {code : KeyCode}

/-- Then only the insert states may differ. -/
theorem Agrees.shifts (h : Agrees flags keyboard) :
    flags.shifts = { keyboard.shifts with insert := flags.shifts.insert } := by
  have hsettled := congrArg PhysicalKeyboard.shifts h.settled
  have hleft : flags.shifts.leftShift = decide (KeyCode.shiftLeft ∈ keyboard.held) := h.held .leftShift
  have hright : flags.shifts.rightShift = decide (KeyCode.shiftRight ∈ keyboard.held) := h.held .rightShift
  have hctl := h.control
  have halt := h.alt
  rw [h.held, h.held] at hctl halt
  have hkeyboard : keyboard.settle.shifts = keyboard.shifts := hsettled
  refine ShiftState.ext ?_ ?_ ?_ ?_ h.scrollLock h.numLock h.capsLock rfl
  · exact hright.trans (congrArg ShiftState.rightShift hkeyboard)
  · exact hleft.trans (congrArg ShiftState.leftShift hkeyboard)
  · exact hctl.trans (congrArg ShiftState.control hkeyboard)
  · exact halt.trans (congrArg ShiftState.alt hkeyboard)

/-- The layout tells keys apart. -/
theorem code_of_physical (modifier : Modifier) (h : Key.fromPhysical code = some key) :
    key = modifier.key ↔ modifier.code = code := by
  constructor
  · rintro rfl
    cases modifier <;> cases code <;> first | rfl | cases h
  · rintro rfl
    cases modifier <;> exact (Option.some.inj h).symm

theorem hold_held (keyboard : PhysicalKeyboard) (code : KeyCode) (p : Bool) (other : KeyCode) :
    decide (other ∈ (keyboard.hold code p).settle.held) =
      if other = code then p else decide (other ∈ keyboard.held) := by
  show decide (other ∈ if p then insert code keyboard.held else keyboard.held.erase code) = _
  cases p <;> by_cases h : other = code <;> simp [h]

/-- The physical keyboard's locks flip on fresh presses too. -/
theorem hold_locks (keyboard : PhysicalKeyboard) (code : KeyCode) (p : Bool) :
    (keyboard.hold code p).settle.shifts.capsLock = (keyboard.shifts.capsLock ^^
      (decide (code = .capsLock) && p && !decide (KeyCode.capsLock ∈ keyboard.held))) ∧
    (keyboard.hold code p).settle.shifts.numLock = (keyboard.shifts.numLock ^^
      (decide (code = .numLock) && p && !decide (KeyCode.numLock ∈ keyboard.held))) ∧
    (keyboard.hold code p).settle.shifts.scrollLock = (keyboard.shifts.scrollLock ^^
      (decide (code = .scrollLock) && p && !decide (KeyCode.scrollLock ∈ keyboard.held))) := by
  unfold PhysicalKeyboard.hold PhysicalKeyboard.settle
  dsimp only
  split
  case h_6 hcaps hnum hscroll _ _ =>
    rw [decide_eq_false hcaps, decide_eq_false hnum, decide_eq_false hscroll]
    simp
  case h_4 | h_5 => split <;> simp
  all_goals cases p <;> split <;> simp_all

theorem isHeld_sides (flags : Flags) (key : Key) (modifier : Modifier) :
    (flags.sides key).isHeld modifier = flags.isHeld modifier := by
  obtain ⟨control, alt, hsides, -⟩ := sides_eq flags key
  rw [hsides]
  cases modifier <;> rfl

/-- A key keeps the two states in agreement. -/
theorem Agrees.press (h : Agrees flags keyboard) (hkey : Key.fromPhysical code = some key) (p : Bool) :
    Agrees ((flags.press key p).sides key) (keyboard.hold code p).settle := by
  obtain ⟨control, alt, hsides, hctl, halt⟩ := sides_eq (flags.press key p) key
  obtain ⟨hctl', halt', hcaps, hnum, hscroll⟩ := shifts_press flags key p
  obtain ⟨hcaps', hnum', hscroll'⟩ := hold_locks keyboard code p
  have hother : ∀ modifier : Modifier, key ≠ modifier.key →
      (flags.press key p).isHeld modifier = flags.isHeld modifier :=
    fun modifier hne => (isHeld_press flags key p modifier).trans (if_neg hne)
  have hlock : ∀ modifier : Modifier, decide (key = modifier.key) = decide (code = modifier.code) :=
    fun modifier => decide_eq_decide.mpr ((code_of_physical modifier hkey).trans eq_comm)
  refine ⟨fun modifier => ?_, ?_, ?_, ?_, ?_, ?_, rfl⟩
  · rw [isHeld_sides, isHeld_press, hold_held, h.held modifier]
    exact if_congr (code_of_physical modifier hkey) rfl rfl
  · rw [isHeld_sides, isHeld_sides, hsides]
    dsimp only
    rw [hctl]
    split
    · rfl
    · next hne =>
        rw [not_or] at hne
        rw [hctl', h.control, hother .leftControl hne.1, hother .rightControl hne.2]
  · rw [isHeld_sides, isHeld_sides, hsides]
    dsimp only
    rw [halt]
    split
    · rfl
    · next hne =>
        rw [not_or] at hne
        rw [halt', h.alt, hother .leftAlt hne.1, hother .rightAlt hne.2]
  · rw [hsides, hcaps', ← h.capsLock]
    have hcode := hlock .capsLock
    have hheld := h.held .capsLock
    exact hcaps.trans (by rw [hheld]; exact congrArg (fun own => _ ^^ (own && _ && _)) hcode)
  · rw [hsides, hnum', ← h.numLock]
    have hcode := hlock .numLock
    have hheld := h.held .numLock
    exact hnum.trans (by rw [hheld]; exact congrArg (fun own => _ ^^ (own && _ && _)) hcode)
  · rw [hsides, hscroll', ← h.scrollLock]
    have hcode := hlock .scrollLock
    have hheld := h.held .scrollLock
    exact hscroll.trans (by rw [hheld]; exact congrArg (fun own => _ ^^ (own && _ && _)) hcode)

end Agreement

/-! ## Events -/

/-- A press or release of a key of the layout, with the keys the AT keyboard then holds. -/
structure Event where
  code : KeyCode
  pressed : Bool
  held : Finset KeyCode
  listed : (Key.fromPhysical code).isSome

/-- The guest behind the wire and the physical keyboard, between events: nothing is pending, the ring is empty, and the
two states agree. -/
structure Together (guest : Guest) (keyboard : PhysicalKeyboard) : Prop where
  breakPrefix : guest.breakPrefix = false
  idle : Idle guest.input
  empty : guest.input.data.head = guest.input.data.tail
  room : guest.input.data.bufferStart + 2 ≠ guest.input.data.bufferEnd
  agrees : Agrees guest.input.data.flags keyboard

/-- A decoded key in an empty ring: what the guest reads of it, and what stays. -/
theorem decode_drain {data : DataArea} (hemp : data.head = data.tail) (hroom : data.bufferStart + 2 ≠ data.bufferEnd)
    (flags : Flags) (key : Key) (p : Bool) (fuel : Nat) :
    ∃ after, (data.decode flags key p).2.drain (fuel + 1) =
        (((if p then keystroke key ((flags.press key p).sides key).shifts else none).bind
          KeyStroke.enhanced).toList, after) ∧
      after.flags = (flags.press key p).sides key ∧ after.head = after.tail ∧
      after.bufferStart + 2 ≠ after.bufferEnd := by
  generalize hflags : (flags.press key p).sides key = pressedFlags
  have hdata : (data.setFlags pressedFlags).flags = pressedFlags := DataArea.flags_setFlags data pressedFlags
  rw [DataArea.decode, hflags]
  cases hstroke : if p then keystroke key pressedFlags.shifts else none with
  | none =>
    have hnone : (if p then
        (keystroke key pressedFlags.shifts).bind (data.setFlags pressedFlags).push else none) = none := by
      cases p with
      | false => rfl
      | true =>
        have hkey : keystroke key pressedFlags.shifts = none := hstroke
        rw [if_pos rfl, hkey]
        rfl
    rw [hnone]
    refine ⟨data.setFlags pressedFlags, ?_, hdata, hemp, hroom⟩
    show (data.setFlags pressedFlags).drain (fuel + 1) = _
    rw [DataArea.drain_empty (data.setFlags pressedFlags) hemp]
    rfl
  | some stroke =>
    have hpressed : p = true := by
      cases p with
      | false => cases hstroke
      | true => rfl
    obtain ⟨pushed, hpush, hdrain, hkept, hst, hend⟩ :=
      (data.setFlags pressedFlags).drain_push hemp hroom stroke fuel
    have hkey : keystroke key pressedFlags.shifts = some stroke := by
      rw [hpressed] at hstroke
      exact hstroke
    rw [hpressed, if_pos rfl, hkey, Option.bind_some, hpush]
    refine ⟨_, hdrain, hkept.trans hdata, rfl, ?_⟩
    show pushed.bufferStart + 2 ≠ pushed.bufferEnd
    rw [hst, hend]
    exact hroom

variable {keyboard : PhysicalKeyboard}

variable {guest : Guest}

/-- One event: the guest reads what the prompt translates, and the two stay together. -/
theorem Together.event (h : Together guest keyboard) {code : KeyCode}
    (hlisted : (Key.fromPhysical code).isSome) (p : Bool) (held : Finset KeyCode) :
    (guest.event code p held).1 = (keyboard.translate (.key (some code) p)).1.toList ∧
      Together (guest.event code p held).2 (keyboard.translate (.key (some code) p)).2 := by
  obtain ⟨key, hkey⟩ := Option.isSome_iff_exists.mp hlisted
  obtain ⟨entry, hent⟩ := find_of_physical hkey
  have hcode : entry.1 = code := by simpa using List.find?_some hent
  obtain ⟨hscan, hlt⟩ := fromScan_of_physical (List.mem_of_find?_eq_some hent) (hcode.symm ▸ hkey)
  have hagr := h.agrees.press hkey p
  obtain ⟨after, hdrain, hflags, hemp, hroom⟩ := decode_drain h.empty h.room guest.input.data.flags key p 15
  have hevent : guest.event code p held = (((if p then
      keystroke key ((guest.input.data.flags.press key p).sides key).shifts else none).bind
        KeyStroke.enhanced).toList, { input := { guest.input with data := after }, breakPrefix := false }) := by
    rw [Guest.event, h.breakPrefix, transmit_sequence hent]
    dsimp only
    rw [scan_sequence hscan hlt p h.idle]
    dsimp only
    rw [hdrain]
  rw [hevent]
  constructor
  · have hstroke := keystroke_insert key (keyboard.hold code p).settle.shifts
      ((guest.input.data.flags.press key p).sides key).shifts.insert
    rw [← hagr.shifts] at hstroke
    rw [PhysicalKeyboard.translate, PhysicalKeyboard.strike, hkey, hstroke]
    cases p <;> rfl
  · have hstatus : ∀ flag, flag = KeyboardStatus.pausePrefixed ∨ flag = KeyboardStatus.extendedPrefixed →
        contains after.keyboardStatus flag = contains guest.input.data.keyboardStatus flag := by
      intro flag hflag
      obtain ⟨control, alt, hsides, -⟩ := sides_eq (guest.input.data.flags.press key p) key
      have hafter : after.keyboardStatus = (guest.input.data.flags.press key p).status := by
        rw [show after.keyboardStatus = after.flags.status from rfl, hflags, hsides]
      rw [hafter]
      exact status_press _ key p hflag
    exact {
      breakPrefix := rfl
      idle := {
        pauseRemaining := h.idle.pauseRemaining
        extended := (hstatus _ (Or.inr rfl)).trans h.idle.extended
        paused := (hstatus _ (Or.inl rfl)).trans h.idle.paused }
      empty := hemp
      room := hroom
      agrees := hflags ▸ hagr }

/-! ## Runs -/

/-- The keystrokes the guest reads over a run, and its state after. -/
def Guest.events (guest : Guest) : List Event → List KeyStroke × Guest
  | [] => ([], guest)
  | event :: events =>
      let first := guest.event event.code event.pressed event.held
      let rest := first.2.events events
      (first.1 ++ rest.1, rest.2)

/-- The keystrokes the prompt translates over a run, and its state after. -/
def PhysicalKeyboard.events (keyboard : PhysicalKeyboard) : List Event → List KeyStroke × PhysicalKeyboard
  | [] => ([], keyboard)
  | event :: events =>
      let first := keyboard.translate (.key (some event.code) event.pressed)
      let rest := first.2.events events
      (first.1.toList ++ rest.1, rest.2)

theorem Together.events (h : Together guest keyboard)
    (events : List Event) : (guest.events events).1 = (keyboard.events events).1 ∧
      Together (guest.events events).2 (keyboard.events events).2 := by
  induction events generalizing guest keyboard with
  | nil => exact ⟨rfl, h⟩
  | cons event events ih =>
    obtain ⟨hstrokes, hnext⟩ := h.event event.listed event.pressed event.held
    obtain ⟨hrest, hafter⟩ := ih hnext
    exact ⟨congrArg₂ (· ++ ·) hstrokes hrest, hafter⟩

/-- The start of a session: no key is held on either side, the locks are the same, nothing is pending, and the guest has
read its ring. -/
structure Released (guest : Guest) (keyboard : PhysicalKeyboard) : Prop where
  breakPrefix : guest.breakPrefix = false
  idle : Idle guest.input
  empty : guest.input.data.head = guest.input.data.tail
  room : guest.input.data.bufferStart + 2 ≠ guest.input.data.bufferEnd
  held : ∀ modifier, guest.input.data.flags.isHeld modifier = false
  none_held : keyboard.held = ∅
  shifts : keyboard.shifts = ⟨false, false, false, false, keyboard.shifts.scrollLock, keyboard.shifts.numLock,
    keyboard.shifts.capsLock, keyboard.shifts.insert⟩
  locks : guest.input.data.flags.shifts = { keyboard.shifts with insert := guest.input.data.flags.shifts.insert }

theorem Released.together (h : Released guest keyboard) : Together guest keyboard where
  breakPrefix := h.breakPrefix
  idle := h.idle
  empty := h.empty
  room := h.room
  agrees := {
    held := fun modifier => by rw [h.held, h.none_held]; rfl
    control := by rw [h.held, h.held, h.locks, h.shifts]; rfl
    alt := by rw [h.held, h.held, h.locks, h.shifts]; rfl
    capsLock := by rw [h.locks]
    numLock := by rw [h.locks]
    scrollLock := by rw [h.locks]
    settled := by
      obtain ⟨shifts, held⟩ := keyboard
      obtain rfl := h.none_held
      exact congrArg (fun shifts => PhysicalKeyboard.mk shifts ∅) h.shifts.symm }

/-- Over any run of presses and releases of keys of the layout, the guest reads the keystrokes that the prompt
translates; after every event the modifiers and locks are the same on both sides, and no prefix is pending. -/
theorem prompt_agrees {guest : Guest} {keyboard : PhysicalKeyboard} (h : Released guest keyboard)
    (events : List Event) :
    (guest.events events).1 = (keyboard.events events).1 ∧
      (guest.events events).2.input.data.flags.shifts =
        { (keyboard.events events).2.shifts with insert := (guest.events events).2.input.data.flags.shifts.insert } ∧
      Idle (guest.events events).2.input ∧ (guest.events events).2.breakPrefix = false := by
  obtain ⟨hstrokes, hafter⟩ := h.together.events events
  exact ⟨hstrokes, hafter.agrees.shifts, hafter.idle, hafter.breakPrefix⟩

/-- The data area of a new session. -/
def DataArea.new : DataArea where
  shiftFlags := 0
  heldKeys := 0
  keyboardStatus := 0x10
  head := 0x1E
  tail := 0x1E
  bufferStart := 0x1E
  bufferEnd := 0x3E
  buffer := fun _ => 0

/-- A capital letter typed with Shift and read on both sides. -/
theorem capital_agrees : (Guest.events ⟨⟨.new, 0⟩, false⟩ [⟨.shiftRight, true, ∅, rfl⟩, ⟨.keyA, true, ∅, rfl⟩,
    ⟨.keyA, false, ∅, rfl⟩, ⟨.shiftRight, false, ∅, rfl⟩]).1 = [⟨0x41, 0x1E⟩] := by
  have hreleased : Released ⟨⟨.new, 0⟩, false⟩ ⟨⟨false, false, false, false, false, false, false, false⟩, ∅⟩ :=
    ⟨rfl, ⟨rfl, rfl, rfl⟩, rfl, by decide, fun modifier => by cases modifier <;> rfl, rfl, rfl, rfl⟩
  rw [(prompt_agrees hreleased _).1]
  rfl

end Relocade.Keyboard
