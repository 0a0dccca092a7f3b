import Mathlib.Data.Finset.Basic

/-!
# `Keyboard.Scancodes` — the wire codes of the AT keyboard

The keyboard sends set-1 or set-2 sequences for its keys; the controller translates set 2 to set 1 byte by byte and
turns the break prefix into a high bit.
-/

namespace Relocade.Keyboard

/-- Physical keys. -/
inductive KeyCode where
  | escape | digit1 | digit2 | digit3 | digit4 | digit5 | digit6 | digit7 | digit8 | digit9 | digit0 | minus
  | equal | backspace | tab | keyQ | keyW | keyE | keyR | keyT | keyY | keyU | keyI | keyO | keyP | bracketLeft
  | bracketRight | enter | numpadEnter | keyA | keyS | keyD | keyF | keyG | keyH | keyJ | keyK | keyL | semicolon
  | quote | backquote | backslash | keyZ | keyX | keyC | keyV | keyB | keyN | keyM | comma | period | slash
  | numpadDivide | numpadMultiply | space | f1 | f2 | f3 | f4 | f5 | f6 | f7 | f8 | f9 | f10 | home | numpad7
  | arrowUp | numpad8 | pageUp | numpad9 | numpadSubtract | arrowLeft | numpad4 | numpad5 | arrowRight | numpad6
  | numpadAdd | endKey | numpad1 | arrowDown | numpad2 | pageDown | numpad3 | insert | numpad0 | delete
  | numpadDecimal | f11 | f12 | shiftLeft | shiftRight | controlLeft | controlRight | altLeft | altRight | capsLock
  | numLock | scrollLock | intlBackslash | superLeft | superRight | contextMenu | printScreen | pause
  deriving DecidableEq

open KeyCode

/-- A physical key, its codes in set 1 and set 2, and whether it has the extended prefix. -/
abbrev Entry := KeyCode × BitVec 8 × BitVec 8 × Bool

/-- Every key with its scan codes in both sets. -/
def keys : List Entry := [
  (escape, 0x01, 0x76, false), (digit1, 0x02, 0x16, false), (digit2, 0x03, 0x1E, false),
  (digit3, 0x04, 0x26, false), (digit4, 0x05, 0x25, false), (digit5, 0x06, 0x2E, false),
  (digit6, 0x07, 0x36, false), (digit7, 0x08, 0x3D, false), (digit8, 0x09, 0x3E, false),
  (digit9, 0x0A, 0x46, false), (digit0, 0x0B, 0x45, false), (minus, 0x0C, 0x4E, false), (equal, 0x0D, 0x55, false),
  (backspace, 0x0E, 0x66, false), (tab, 0x0F, 0x0D, false), (keyQ, 0x10, 0x15, false), (keyW, 0x11, 0x1D, false),
  (keyE, 0x12, 0x24, false), (keyR, 0x13, 0x2D, false), (keyT, 0x14, 0x2C, false), (keyY, 0x15, 0x35, false),
  (keyU, 0x16, 0x3C, false), (keyI, 0x17, 0x43, false), (keyO, 0x18, 0x44, false), (keyP, 0x19, 0x4D, false),
  (bracketLeft, 0x1A, 0x54, false), (bracketRight, 0x1B, 0x56, false), (enter, 0x1C, 0x5A, false),
  (numpadEnter, 0x1C, 0x5A, true), (keyA, 0x1E, 0x1C, false), (keyS, 0x1F, 0x1B, false), (keyD, 0x20, 0x23, false),
  (keyF, 0x21, 0x2B, false), (keyG, 0x22, 0x34, false), (keyH, 0x23, 0x33, false), (keyJ, 0x24, 0x3B, false),
  (keyK, 0x25, 0x42, false), (keyL, 0x26, 0x4B, false), (semicolon, 0x27, 0x4C, false), (quote, 0x28, 0x52, false),
  (backquote, 0x29, 0x0E, false), (backslash, 0x2B, 0x5D, false), (keyZ, 0x2C, 0x1A, false),
  (keyX, 0x2D, 0x22, false), (keyC, 0x2E, 0x21, false), (keyV, 0x2F, 0x2A, false), (keyB, 0x30, 0x32, false),
  (keyN, 0x31, 0x31, false), (keyM, 0x32, 0x3A, false), (comma, 0x33, 0x41, false), (period, 0x34, 0x49, false),
  (slash, 0x35, 0x4A, false), (numpadDivide, 0x35, 0x4A, true), (numpadMultiply, 0x37, 0x7C, false),
  (space, 0x39, 0x29, false), (f1, 0x3B, 0x05, false), (f2, 0x3C, 0x06, false), (f3, 0x3D, 0x04, false),
  (f4, 0x3E, 0x0C, false), (f5, 0x3F, 0x03, false), (f6, 0x40, 0x0B, false), (f7, 0x41, 0x83, false),
  (f8, 0x42, 0x0A, false), (f9, 0x43, 0x01, false), (f10, 0x44, 0x09, false), (home, 0x47, 0x6C, true),
  (numpad7, 0x47, 0x6C, false), (arrowUp, 0x48, 0x75, true), (numpad8, 0x48, 0x75, false),
  (pageUp, 0x49, 0x7D, true), (numpad9, 0x49, 0x7D, false), (numpadSubtract, 0x4A, 0x7B, false),
  (arrowLeft, 0x4B, 0x6B, true), (numpad4, 0x4B, 0x6B, false), (numpad5, 0x4C, 0x73, false),
  (arrowRight, 0x4D, 0x74, true), (numpad6, 0x4D, 0x74, false), (numpadAdd, 0x4E, 0x79, false),
  (endKey, 0x4F, 0x69, true), (numpad1, 0x4F, 0x69, false), (arrowDown, 0x50, 0x72, true),
  (numpad2, 0x50, 0x72, false), (pageDown, 0x51, 0x7A, true), (numpad3, 0x51, 0x7A, false),
  (insert, 0x52, 0x70, true), (numpad0, 0x52, 0x70, false), (delete, 0x53, 0x71, true),
  (numpadDecimal, 0x53, 0x71, false), (f11, 0x57, 0x78, false), (f12, 0x58, 0x07, false),
  (shiftLeft, 0x2A, 0x12, false), (shiftRight, 0x36, 0x59, false), (controlLeft, 0x1D, 0x14, false),
  (controlRight, 0x1D, 0x14, true), (altLeft, 0x38, 0x11, false), (altRight, 0x38, 0x11, true),
  (capsLock, 0x3A, 0x58, false), (numLock, 0x45, 0x77, false), (scrollLock, 0x46, 0x7E, false),
  (intlBackslash, 0x56, 0x61, false), (superLeft, 0x5B, 0x1F, true), (superRight, 0x5C, 0x27, true),
  (contextMenu, 0x5D, 0x2F, true)]

/-! ## Sequences -/

/-- A code with its prefixes, in a set. -/
def codeBytes (code : BitVec 8) (extended pressed : Bool) (set : Nat) : List (BitVec 8) :=
  (if extended then [0xE0] else []) ++ (if !pressed && set = 2 then [0xF0] else []) ++
    [if !pressed && set = 1 then code ||| 0x80 else code]

/-- What the keyboard sends for a key, while others are held. -/
def sequence (key : KeyCode) (pressed : Bool) (set : Nat) (held : Finset KeyCode) : List (BitVec 8) :=
  let control := decide (controlLeft ∈ held) || decide (controlRight ∈ held)
  let alt := decide (altLeft ∈ held) || decide (altRight ∈ held)
  let shift := decide (shiftLeft ∈ held) || decide (shiftRight ∈ held)
  if key = pause then
    if !pressed then []
    else if control then if set = 1 then [0xE0, 0x46, 0xE0, 0xC6] else [0xE0, 0x7E, 0xE0, 0xF0, 0x7E]
    else if set = 1 then [0xE1, 0x1D, 0x45, 0xE1, 0x9D, 0xC5]
    else [0xE1, 0x14, 0x77, 0xE1, 0xF0, 0x14, 0xF0, 0x77]
  else if key = printScreen then
    if alt then codeBytes (if set = 1 then 0x54 else 0x84) false pressed set
    else
      let bytes := codeBytes (if set = 1 then 0x37 else 0x7C) true pressed set
      if !control && !shift then
        let fakeShift := codeBytes (if set = 1 then 0x2A else 0x12) true pressed set
        if pressed then fakeShift ++ bytes else bytes ++ fakeShift
      else bytes
  else
    (keys.find? fun entry => entry.1 = key).elim [] fun (_, set1, set2, extended) =>
      codeBytes (if set = 1 then set1 else set2) extended pressed set

/-! ## The controller -/

/-- Set-2 to set-1 translation of a byte. -/
def translate (byte : BitVec 8) : BitVec 8 :=
  if byte = 0 then 0xFF else if byte = 2 then 0x41 else if byte = 0x84 then 0x54
  else (keys.find? fun entry => entry.2.2.1 = byte).elim byte fun entry => entry.2.1

/-- The controller's part in sending a keyboard byte, with translation on: the byte it outputs, if any, and whether it
has met a break prefix. -/
def send (breakPrefix : Bool) (byte : BitVec 8) : Option (BitVec 8) × Bool :=
  if byte = 0xF0 then (none, true)
  else (some (if breakPrefix then translate byte ||| 0x80 else translate byte), false)

/-- What the controller outputs for a sequence of keyboard bytes. -/
def transmit : Bool → List (BitVec 8) → List (BitVec 8) × Bool
  | breakPrefix, [] => ([], breakPrefix)
  | breakPrefix, byte :: bytes =>
      let sent := send breakPrefix byte
      let rest := transmit sent.2 bytes
      (sent.1.toList ++ rest.1, rest.2)

/-! ## Translated sequences -/

/-- The controller turns a set-2 code into the set-1 code of the same key. -/
theorem transmit_codeBytes : ∀ entry ∈ keys, ∀ pressed, transmit false (codeBytes entry.2.2.1 entry.2.2.2 pressed 2) =
    (codeBytes entry.2.1 entry.2.2.2 pressed 1, false) := by
  decide +kernel

/-- A key of the table reaches the guest as its set-1 sequence, whatever else is held. -/
theorem transmit_sequence {key : KeyCode} {entry : Entry} (h : keys.find? (fun entry => entry.1 = key) = some entry)
    (pressed : Bool) (held : Finset KeyCode) :
    transmit false (sequence key pressed 2 held) = (codeBytes entry.2.1 entry.2.2.2 pressed 1, false) := by
  have hpause : key ≠ pause := by
    rintro rfl
    cases h
  have hprint : key ≠ printScreen := by
    rintro rfl
    cases h
  rw [sequence, if_neg hpause, if_neg hprint, h]
  exact transmit_codeBytes entry (List.mem_of_find?_eq_some h) pressed

end Relocade.Keyboard
