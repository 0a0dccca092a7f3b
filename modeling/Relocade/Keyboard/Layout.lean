import Relocade.Keyboard.Scancodes

/-!
# `Keyboard.Layout` — the BIOS translation of keys

Keys are identified by their set-1 code and extended prefix, or by the physical key. `keystroke` gives the character and
scan code of a key under the modifiers and locks.
-/

namespace Relocade.Keyboard

/-- Keys of the layout. -/
inductive Key where
  | escape | digit1 | digit2 | digit3 | digit4 | digit5 | digit6 | digit7 | digit8 | digit9 | digit0 | minus
  | equal | backspace | tab | q | w | e | r | t | y | u | i | o | p | leftBracket | rightBracket | enter
  | leftControl | a | s | d | f | g | h | j | k | l | semicolon | quote | backquote | leftShift | backslash | z | x
  | c | v | b | n | m | comma | period | slash | rightShift | keypadMultiply | leftAlt | space | capsLock | f1 | f2
  | f3 | f4 | f5 | f6 | f7 | f8 | f9 | f10 | numLock | scrollLock | keypad7 | keypad8 | keypad9 | keypadSubtract
  | keypad4 | keypad5 | keypad6 | keypadAdd | keypad1 | keypad2 | keypad3 | keypad0 | keypadDecimal | intlBackslash
  | f11 | f12 | keypadEnter | rightControl | keypadDivide | rightAlt | home | up | pageUp | left | right | endKey
  | down | pageDown | insert | delete
  deriving DecidableEq

namespace Key

/-- The set-1 make code, under the extended prefix in the high byte. -/
def code : Key → BitVec 16
  | .escape => 0x0001 | .digit1 => 0x0002 | .digit2 => 0x0003 | .digit3 => 0x0004 | .digit4 => 0x0005
  | .digit5 => 0x0006 | .digit6 => 0x0007 | .digit7 => 0x0008 | .digit8 => 0x0009 | .digit9 => 0x000A
  | .digit0 => 0x000B | .minus => 0x000C | .equal => 0x000D | .backspace => 0x000E | .tab => 0x000F | .q => 0x0010
  | .w => 0x0011 | .e => 0x0012 | .r => 0x0013 | .t => 0x0014 | .y => 0x0015 | .u => 0x0016 | .i => 0x0017
  | .o => 0x0018 | .p => 0x0019 | .leftBracket => 0x001A | .rightBracket => 0x001B | .enter => 0x001C
  | .leftControl => 0x001D | .a => 0x001E | .s => 0x001F | .d => 0x0020 | .f => 0x0021 | .g => 0x0022
  | .h => 0x0023 | .j => 0x0024 | .k => 0x0025 | .l => 0x0026 | .semicolon => 0x0027 | .quote => 0x0028
  | .backquote => 0x0029 | .leftShift => 0x002A | .backslash => 0x002B | .z => 0x002C | .x => 0x002D | .c => 0x002E
  | .v => 0x002F | .b => 0x0030 | .n => 0x0031 | .m => 0x0032 | .comma => 0x0033 | .period => 0x0034
  | .slash => 0x0035 | .rightShift => 0x0036 | .keypadMultiply => 0x0037 | .leftAlt => 0x0038 | .space => 0x0039
  | .capsLock => 0x003A | .f1 => 0x003B | .f2 => 0x003C | .f3 => 0x003D | .f4 => 0x003E | .f5 => 0x003F
  | .f6 => 0x0040 | .f7 => 0x0041 | .f8 => 0x0042 | .f9 => 0x0043 | .f10 => 0x0044 | .numLock => 0x0045
  | .scrollLock => 0x0046 | .keypad7 => 0x0047 | .keypad8 => 0x0048 | .keypad9 => 0x0049
  | .keypadSubtract => 0x004A | .keypad4 => 0x004B | .keypad5 => 0x004C | .keypad6 => 0x004D | .keypadAdd => 0x004E
  | .keypad1 => 0x004F | .keypad2 => 0x0050 | .keypad3 => 0x0051 | .keypad0 => 0x0052 | .keypadDecimal => 0x0053
  | .intlBackslash => 0x0056 | .f11 => 0x0057 | .f12 => 0x0058 | .keypadEnter => 0xE01C | .rightControl => 0xE01D
  | .keypadDivide => 0xE035 | .rightAlt => 0xE038 | .home => 0xE047 | .up => 0xE048 | .pageUp => 0xE049
  | .left => 0xE04B | .right => 0xE04D | .endKey => 0xE04F | .down => 0xE050 | .pageDown => 0xE051
  | .insert => 0xE052 | .delete => 0xE053

def all : List Key := [
  .escape, .digit1, .digit2, .digit3, .digit4, .digit5, .digit6, .digit7, .digit8, .digit9, .digit0, .minus,
  .equal, .backspace, .tab, .q, .w, .e, .r, .t, .y, .u, .i, .o, .p, .leftBracket, .rightBracket, .enter,
  .leftControl, .a, .s, .d, .f, .g, .h, .j, .k, .l, .semicolon, .quote, .backquote, .leftShift, .backslash, .z, .x,
  .c, .v, .b, .n, .m, .comma, .period, .slash, .rightShift, .keypadMultiply, .leftAlt, .space, .capsLock, .f1, .f2,
  .f3, .f4, .f5, .f6, .f7, .f8, .f9, .f10, .numLock, .scrollLock, .keypad7, .keypad8, .keypad9, .keypadSubtract,
  .keypad4, .keypad5, .keypad6, .keypadAdd, .keypad1, .keypad2, .keypad3, .keypad0, .keypadDecimal, .intlBackslash,
  .f11, .f12, .keypadEnter, .rightControl, .keypadDivide, .rightAlt, .home, .up, .pageUp, .left, .right, .endKey,
  .down, .pageDown, .insert, .delete]

def fromScan (code : BitVec 8) (extended : Bool) : Option Key :=
  all.find? fun key => key.code = (if extended then 0xE0#8 else 0#8) ++ code

/-- The key of the layout at a physical position. -/
def fromPhysical : KeyCode → Option Key
  | .escape => some .escape | .digit1 => some .digit1 | .digit2 => some .digit2 | .digit3 => some .digit3
  | .digit4 => some .digit4 | .digit5 => some .digit5 | .digit6 => some .digit6 | .digit7 => some .digit7
  | .digit8 => some .digit8 | .digit9 => some .digit9 | .digit0 => some .digit0 | .minus => some .minus
  | .equal => some .equal | .backspace => some .backspace | .tab => some .tab | .keyQ => some .q | .keyW => some .w
  | .keyE => some .e | .keyR => some .r | .keyT => some .t | .keyY => some .y | .keyU => some .u | .keyI => some .i
  | .keyO => some .o | .keyP => some .p | .bracketLeft => some .leftBracket | .bracketRight => some .rightBracket
  | .enter => some .enter | .controlLeft => some .leftControl | .keyA => some .a | .keyS => some .s
  | .keyD => some .d | .keyF => some .f | .keyG => some .g | .keyH => some .h | .keyJ => some .j | .keyK => some .k
  | .keyL => some .l | .semicolon => some .semicolon | .quote => some .quote | .backquote => some .backquote
  | .shiftLeft => some .leftShift | .backslash => some .backslash | .keyZ => some .z | .keyX => some .x
  | .keyC => some .c | .keyV => some .v | .keyB => some .b | .keyN => some .n | .keyM => some .m
  | .comma => some .comma | .period => some .period | .slash => some .slash | .shiftRight => some .rightShift
  | .numpadMultiply => some .keypadMultiply | .altLeft => some .leftAlt | .space => some .space
  | .capsLock => some .capsLock | .f1 => some .f1 | .f2 => some .f2 | .f3 => some .f3 | .f4 => some .f4
  | .f5 => some .f5 | .f6 => some .f6 | .f7 => some .f7 | .f8 => some .f8 | .f9 => some .f9 | .f10 => some .f10
  | .numLock => some .numLock | .scrollLock => some .scrollLock | .numpad7 => some .keypad7
  | .numpad8 => some .keypad8 | .numpad9 => some .keypad9 | .numpadSubtract => some .keypadSubtract
  | .numpad4 => some .keypad4 | .numpad5 => some .keypad5 | .numpad6 => some .keypad6
  | .numpadAdd => some .keypadAdd | .numpad1 => some .keypad1 | .numpad2 => some .keypad2
  | .numpad3 => some .keypad3 | .numpad0 => some .keypad0 | .numpadDecimal => some .keypadDecimal
  | .intlBackslash => some .intlBackslash | .f11 => some .f11 | .f12 => some .f12
  | .numpadEnter => some .keypadEnter | .controlRight => some .rightControl | .numpadDivide => some .keypadDivide
  | .altRight => some .rightAlt | .home => some .home | .arrowUp => some .up | .pageUp => some .pageUp
  | .arrowLeft => some .left | .arrowRight => some .right | .endKey => some .endKey | .arrowDown => some .down
  | .pageDown => some .pageDown | .insert => some .insert | .delete => some .delete
  | _ => none

/-- The unprefixed make code. -/
def makeCode (key : Key) : BitVec 8 := key.code.setWidth 8

end Key

/-- Modifier and toggle states. -/
@[ext]
structure ShiftState where
  rightShift : Bool
  leftShift : Bool
  control : Bool
  alt : Bool
  scrollLock : Bool
  numLock : Bool
  capsLock : Bool
  insert : Bool
  deriving DecidableEq

def ShiftState.shiftPressed (shifts : ShiftState) : Bool := shifts.leftShift || shifts.rightShift

def ShiftState.numericKeypad (shifts : ShiftState) : Bool := shifts.numLock ^^ shifts.shiftPressed

/-- A BIOS character and scan code. -/
structure KeyStroke where
  character : BitVec 8
  scanCode : BitVec 8
  deriving DecidableEq

def extendedMarker : BitVec 8 := 0xE0

def enhancedOnlyMarker : BitVec 8 := 0xF0

/-- What an enhanced read makes of a stored keystroke. -/
def KeyStroke.enhanced (key : KeyStroke) : Option KeyStroke :=
  some (if key.character = enhancedOnlyMarker ∧ key.scanCode ≠ 0 then { key with character := 0 } else key)

/-! ## Translation -/

def ascii (c : Char) : BitVec 8 := BitVec.ofNat 8 c.toNat

def isAlphabetic (byte : BitVec 8) : Bool := (0x41 ≤ byte && byte ≤ 0x5A) || (0x61 ≤ byte && byte ≤ 0x7A)

def toUppercase (byte : BitVec 8) : BitVec 8 := if 0x61 ≤ byte && byte ≤ 0x7A then byte - 0x20 else byte

/-- Scan codes: unmodified, Shift, Ctrl, Alt. -/
abbrev Codes := BitVec 8 × BitVec 8 × BitVec 8 × BitVec 8

/-- The codes of a function key, plain and with each modifier. -/
def functionCodes : Key → Option Codes
  | .f1 => some (0x3B, 0x54, 0x5E, 0x68)
  | .f2 => some (0x3C, 0x55, 0x5F, 0x69)
  | .f3 => some (0x3D, 0x56, 0x60, 0x6A)
  | .f4 => some (0x3E, 0x57, 0x61, 0x6B)
  | .f5 => some (0x3F, 0x58, 0x62, 0x6C)
  | .f6 => some (0x40, 0x59, 0x63, 0x6D)
  | .f7 => some (0x41, 0x5A, 0x64, 0x6E)
  | .f8 => some (0x42, 0x5B, 0x65, 0x6F)
  | .f9 => some (0x43, 0x5C, 0x66, 0x70)
  | .f10 => some (0x44, 0x5D, 0x67, 0x71)
  | .f11 => some (0x85, 0x87, 0x89, 0x8B)
  | .f12 => some (0x86, 0x88, 0x8A, 0x8C)
  | _ => none

def navigationCodes : Key → Option Codes
  | .home | .keypad7 => some (0x47, 0x47, 0x77, 0x97)
  | .up | .keypad8 => some (0x48, 0x48, 0x8D, 0x98)
  | .pageUp | .keypad9 => some (0x49, 0x49, 0x84, 0x99)
  | .left | .keypad4 => some (0x4B, 0x4B, 0x73, 0x9B)
  | .keypad5 => some (0x4C, 0x4C, 0x8F, 0)
  | .right | .keypad6 => some (0x4D, 0x4D, 0x74, 0x9D)
  | .endKey | .keypad1 => some (0x4F, 0x4F, 0x75, 0x9F)
  | .down | .keypad2 => some (0x50, 0x50, 0x91, 0xA0)
  | .pageDown | .keypad3 => some (0x51, 0x51, 0x76, 0xA1)
  | .insert | .keypad0 => some (0x52, 0x52, 0x92, 0xA2)
  | .delete | .keypadDecimal => some (0x53, 0x53, 0x93, 0xA3)
  | _ => none

def digit : Key → Option (BitVec 8)
  | .keypad7 => some (ascii '7')
  | .keypad8 => some (ascii '8')
  | .keypad9 => some (ascii '9')
  | .keypad4 => some (ascii '4')
  | .keypad5 => some (ascii '5')
  | .keypad6 => some (ascii '6')
  | .keypad1 => some (ascii '1')
  | .keypad2 => some (ascii '2')
  | .keypad3 => some (ascii '3')
  | .keypad0 => some (ascii '0')
  | .keypadDecimal => some (ascii '.')
  | _ => none

/-- Characters: unmodified, Shift. Modifiers and lock keys have none. -/
def characters : Key → Option (BitVec 8 × BitVec 8)
  | .escape => some (0x1B, 0x1B) | .digit1 => some (ascii '1', ascii '!') | .digit2 => some (ascii '2', ascii '@')
  | .digit3 => some (ascii '3', ascii '#') | .digit4 => some (ascii '4', ascii '$')
  | .digit5 => some (ascii '5', ascii '%') | .digit6 => some (ascii '6', ascii '^')
  | .digit7 => some (ascii '7', ascii '&') | .digit8 => some (ascii '8', ascii '*')
  | .digit9 => some (ascii '9', ascii '(') | .digit0 => some (ascii '0', ascii ')')
  | .minus => some (ascii '-', ascii '_') | .equal => some (ascii '=', ascii '+') | .backspace => some (0x08, 0x08)
  | .tab => some (0x09, 0) | .q => some (ascii 'q', ascii 'Q') | .w => some (ascii 'w', ascii 'W')
  | .e => some (ascii 'e', ascii 'E') | .r => some (ascii 'r', ascii 'R') | .t => some (ascii 't', ascii 'T')
  | .y => some (ascii 'y', ascii 'Y') | .u => some (ascii 'u', ascii 'U') | .i => some (ascii 'i', ascii 'I')
  | .o => some (ascii 'o', ascii 'O') | .p => some (ascii 'p', ascii 'P')
  | .leftBracket => some (ascii '[', ascii '{') | .rightBracket => some (ascii ']', ascii '}')
  | .enter | .keypadEnter => some (0x0D, 0x0D) | .a => some (ascii 'a', ascii 'A')
  | .s => some (ascii 's', ascii 'S') | .d => some (ascii 'd', ascii 'D') | .f => some (ascii 'f', ascii 'F')
  | .g => some (ascii 'g', ascii 'G') | .h => some (ascii 'h', ascii 'H') | .j => some (ascii 'j', ascii 'J')
  | .k => some (ascii 'k', ascii 'K') | .l => some (ascii 'l', ascii 'L')
  | .semicolon => some (ascii ';', ascii ':') | .quote => some (0x27, 0x22) | .backquote => some (0x60, ascii '~')
  | .backslash | .intlBackslash => some (0x5C, ascii '|') | .z => some (ascii 'z', ascii 'Z')
  | .x => some (ascii 'x', ascii 'X') | .c => some (ascii 'c', ascii 'C') | .v => some (ascii 'v', ascii 'V')
  | .b => some (ascii 'b', ascii 'B') | .n => some (ascii 'n', ascii 'N') | .m => some (ascii 'm', ascii 'M')
  | .comma => some (ascii ',', ascii '<') | .period => some (ascii '.', ascii '>')
  | .slash => some (ascii '/', ascii '?') | .keypadDivide => some (ascii '/', ascii '/')
  | .keypadMultiply => some (ascii '*', ascii '*') | .keypadSubtract => some (ascii '-', ascii '-')
  | .keypadAdd => some (ascii '+', ascii '+') | .space => some (ascii ' ', ascii ' ')
  | _ => none

def specialKey (scanCode : BitVec 8) : KeyStroke := ⟨0, scanCode⟩

def characterKey (key : Key) (character : BitVec 8) : KeyStroke where
  character := character
  scanCode := if key = .keypadEnter ∨ key = .keypadDivide then extendedMarker else key.makeCode

def functionKey (codes : Codes) (shifts : ShiftState) : KeyStroke :=
  specialKey (
    if shifts.alt then codes.2.2.2
    else if shifts.control then codes.2.2.1
    else if shifts.shiftPressed then codes.2.1
    else codes.1)

/-- Navigation keys and the keypad. -/
def navigationKey (key : Key) (codes : Codes) (shifts : ShiftState) : Option KeyStroke :=
  -- Alt-numpad composition is not implemented
  if shifts.alt ∧ (digit key).isSome then none
  else if let (false, false, true, some character) := (shifts.alt, shifts.control, shifts.numericKeypad, digit key) then
    some (characterKey key character)
  else
    let result := functionKey codes shifts
    some (
      if !shifts.alt ∧ (digit key).isNone then { result with character := extendedMarker }
      else if key = .keypad5 ∧ !shifts.control then { result with character := enhancedOnlyMarker }
      else result)

/-- The own scan codes of enhanced keys and of the number row under Alt. -/
def altScanCode (key : Key) (plain : BitVec 8) : Option (BitVec 8) :=
  match key with
  | .digit1 => some 0x78
  | .digit2 => some 0x79
  | .digit3 => some 0x7A
  | .digit4 => some 0x7B
  | .digit5 => some 0x7C
  | .digit6 => some 0x7D
  | .digit7 => some 0x7E
  | .digit8 => some 0x7F
  | .digit9 => some 0x80
  | .digit0 => some 0x81
  | .minus => some 0x82
  | .equal => some 0x83
  | .tab => some 0xA5
  | .keypadEnter => some 0xA6
  | .keypadDivide => some 0xA4
  | _ => if isAlphabetic plain then some key.makeCode else none

def controlScanCode : Key → Option (BitVec 8)
  | .tab => some 0x94
  | .keypadDivide => some 0x95
  | .keypadMultiply => some 0x96
  | .keypadSubtract => some 0x8E
  | .keypadAdd => some 0x90
  | _ => none

/-- The character of a key with control held. -/
def controlCharacter (key : Key) (plain : BitVec 8) : Option (BitVec 8) :=
  match key with
  | .escape => some 0x1B
  | .backspace => some 0x7F
  | .enter | .keypadEnter => some 0x0A
  | .digit2 => some 0
  | .digit6 => some 0x1E
  | .minus => some 0x1F
  | .space => some (ascii ' ')
  | _ =>
      if isAlphabetic plain ∨ key = .leftBracket ∨ key = .backslash ∨ key = .rightBracket then
        some (toUppercase plain - 0x40)
      else none

/-- Keys that have characters. -/
def ordinaryKey (key : Key) (plain shifted : BitVec 8) (shifts : ShiftState) : Option KeyStroke :=
  if shifts.alt then
    if key = .space then some (characterKey key (ascii ' '))
    else some ((altScanCode key plain).elim ⟨enhancedOnlyMarker, key.makeCode⟩ specialKey)
  else if shifts.control then
    match controlScanCode key with
    | some scanCode => some (specialKey scanCode)
    | none => (controlCharacter key plain).map (characterKey key)
  else
    -- CapsLock affects only letters
    let uppercase := shifts.shiftPressed ^^ (shifts.capsLock && isAlphabetic plain)
    some (characterKey key (if uppercase then shifted else plain))

def keystroke (key : Key) (shifts : ShiftState) : Option KeyStroke :=
  match functionCodes key with
  | some codes => some (functionKey codes shifts)
  | none =>
      match navigationCodes key with
      | some codes => navigationKey key codes shifts
      | none => (characters key).bind fun (plain, shifted) => ordinaryKey key plain shifted shifts

/-! ## Physical keys -/

/-- Every physical key of the layout is in the keyboard's table. -/
theorem find_of_physical {code : KeyCode} {key : Key} (h : Key.fromPhysical code = some key) :
    ∃ entry, keys.find? (fun entry => entry.1 = code) = some entry := by
  refine Option.isSome_iff_exists.mp ?_
  cases code <;> first | rfl | cases h

/-- Its wire code identifies the same key, and is no prefix and no break. -/
theorem fromScan_of_keys : ∀ entry ∈ keys, ((Key.fromPhysical entry.1).all fun key =>
    Key.fromScan entry.2.1 entry.2.2.2 = some key && entry.2.1 < 0x59) = true := by
  decide +kernel

theorem fromScan_of_physical {entry : Entry} (hent : entry ∈ keys) {key : Key}
    (h : Key.fromPhysical entry.1 = some key) :
    Key.fromScan entry.2.1 entry.2.2.2 = some key ∧ entry.2.1 < 0x59 := by
  have hall := fromScan_of_keys entry hent
  rw [h, Option.all_some, Bool.and_eq_true, decide_eq_true_eq, decide_eq_true_eq] at hall
  exact hall

/-- Insert does not change a keystroke. -/
theorem keystroke_insert (key : Key) (shifts : ShiftState) (insert : Bool) :
    keystroke key { shifts with insert := insert } = keystroke key shifts := rfl

end Relocade.Keyboard
