import Mathlib.Data.Nat.Notation

/-!
# The keyboard

`keycode_to_char_lower`, `keycode_to_char` and `handle_keypress_inner` of `src/kernel/keyboard.c`.
The scan code that the port delivers is an argument, and the characters that go to the console and
to `root_term` are collected.
-/

namespace Muse.Console

/-- The byte of a character. -/
def char (c : Char) : BitVec 8 :=
  BitVec.ofNat 8 c.toNat

/-- The keys of `keycode_to_char_lower` that do not change `shift_held` (`keyboard.c:14-126`). The
    quote, the backquote and the backslash are 39, 96 and 92; 255 is backspace. -/
def unshiftedChar (keycode : BitVec 8) : BitVec 8 :=
  match keycode.toNat with
  | 0x02 => char '1'
  | 0x03 => char '2'
  | 0x04 => char '3'
  | 0x05 => char '4'
  | 0x06 => char '5'
  | 0x07 => char '6'
  | 0x08 => char '7'
  | 0x09 => char '8'
  | 0x0A => char '9'
  | 0x0B => char '0'
  | 0x0C => char '-'
  | 0x0D => char '='
  | 0x0E => 255#8
  | 0x0F => char '\t'
  | 0x10 => char 'q'
  | 0x11 => char 'w'
  | 0x12 => char 'e'
  | 0x13 => char 'r'
  | 0x14 => char 't'
  | 0x15 => char 'y'
  | 0x16 => char 'u'
  | 0x17 => char 'i'
  | 0x18 => char 'o'
  | 0x19 => char 'p'
  | 0x1A => char '['
  | 0x1B => char ']'
  | 0x1C => char '\n'
  | 0x1E => char 'a'
  | 0x1F => char 's'
  | 0x20 => char 'd'
  | 0x21 => char 'f'
  | 0x22 => char 'g'
  | 0x23 => char 'h'
  | 0x24 => char 'j'
  | 0x25 => char 'k'
  | 0x26 => char 'l'
  | 0x27 => char ';'
  | 0x28 => 39#8
  | 0x29 => 96#8
  | 0x2B => 92#8
  | 0x2C => char 'z'
  | 0x2D => char 'x'
  | 0x2E => char 'c'
  | 0x2F => char 'v'
  | 0x30 => char 'b'
  | 0x31 => char 'n'
  | 0x32 => char 'm'
  | 0x33 => char ','
  | 0x34 => char '.'
  | 0x35 => char '/'
  | 0x39 => char ' '
  | _ => 0#8

/-- `keycode_to_char_lower` (`keyboard.c:12-138`), with the new `shift_held`. -/
def keycodeToCharLower (keycode : BitVec 8) (shiftHeld : BitVec 32) : BitVec 8 × BitVec 32 :=
  if keycode = 0x2A#8 then (0#8, shiftHeld + 1#32)
  else if keycode = 0x36#8 then (0#8, shiftHeld + 1#32)
  else if keycode = 0xAA#8 then (0#8, shiftHeld - 1#32)
  else if keycode = 0xB6#8 then (0#8, shiftHeld - 1#32)
  else (unshiftedChar keycode, shiftHeld)

/-- The cases of `keycode_to_char` (`keyboard.c:149-190`), where 34 is the double quote. -/
def shiftedChars : List (BitVec 8 × BitVec 8) :=
  [(96#8, char '~'), (char '1', char '!'), (char '2', char '@'), (char '3', char '#'),
    (char '4', char '$'), (char '5', char '%'), (char '6', char '^'), (char '7', char '&'),
    (char '8', char '*'), (char '9', char '('), (char '0', char ')'), (char '-', char '_'),
    (char '=', char '+'), (char '[', char '{'), (char ']', char '}'), (92#8, char '|'),
    (char ';', char ':'), (39#8, 34#8), (char ',', char '<'), (char '.', char '>'),
    (char '/', char '?')]

/-- `keycode_to_char` (`keyboard.c:140-194`). -/
def keycodeToChar (keycode : BitVec 8) (shiftHeld : BitVec 32) : BitVec 8 × BitVec 32 :=
  let (lower, shiftHeld) := keycodeToCharLower keycode shiftHeld
  if shiftHeld = 0#32 then (lower, shiftHeld)
  else if char 'a' ≤ lower ∧ lower ≤ char 'z' then (lower + (char 'A' - char 'a'), shiftHeld)
  else ((shiftedChars.lookup lower).getD lower, shiftHeld)

/-- `shift_held`, and the characters that were typed. -/
structure KeyboardDriver where
  shiftHeld : BitVec 32
  typed : List (BitVec 8)
  deriving DecidableEq

/-- `handle_keypress_inner` (`keyboard.c:196-205`). -/
def KeyboardDriver.handleKeypressInner (scanCode : BitVec 8) (s : KeyboardDriver) :
    KeyboardDriver :=
  let (character, shiftHeld) := keycodeToChar scanCode s.shiftHeld
  if character ≠ 0#8 then { s with shiftHeld := shiftHeld, typed := s.typed ++ [character] }
  else { s with shiftHeld := shiftHeld }

end Muse.Console
