import Muse.Console.Framebuffer
import Muse.Console.Keyboard
import Muse.Console.Print
import Muse.Library.ByteMemory

/-!
# Formatted output

`kprint_fancy`, `consume_specifier` and `kvprintf_fancy` of `src/common/text.c`, and `vlog` of
`src/common/logging.c`. A format and the strings are in memory, and the arguments are words in a
row, as `va_arg` takes them. The output is the sequence of the calls of `console_put_char`. A loop
over a string ends at its zero byte only, so a call is given a number of rounds.

The formats of `vlog` itself are literals without a percent sign, and a call with one prints its
characters.
-/

namespace Muse.Console

open Library

/-- The calls of `console_put_char`, each with its character and its color. -/
abbrev Calls : Type := List (BitVec 8 × BitVec 32)

/-- The calls for a row of characters. -/
def colored (color : BitVec 32) (chars : List (BitVec 8)) : Calls := chars.map fun c => (c, color)

/-- The characters of a literal. -/
def chars (s : String) : List (BitVec 8) := s.toList.map char

/-- `kprint_fancy` (`text.c:54-60`). -/
def kprintFancy (mem : ByteMem) (color : BitVec 32) : Nat → BitVec 32 → Option Calls
  | 0, _ => none
  | fuel + 1, str =>
      if mem str = 0#8 then some []
      else (kprintFancy mem color fuel (str + 1#32)).map fun calls => (mem str, color) :: calls

/-- `enum fmt_specifier`. -/
inductive FmtSpecifier where
  | none
  | str
  | int
  | hex
  deriving DecidableEq

/-- `consume_specifier` (`text.c:124-134`), for the character that it reads. -/
def consumeSpecifier (c : BitVec 8) : FmtSpecifier :=
  if c = char 's' then .str
  else if c = char 'i' then .int
  else if c = char 'x' then .hex
  else .none

/-- `kvprintf_fancy` (`text.c:136-162`). The prefix of a hexadecimal number is a literal. -/
def kvprintfFancy (mem : ByteMem) (color : BitVec 32) :
    Nat → (fmt args : BitVec 32) → Option Calls
  | 0, _, _ => none
  | fuel + 1, fmt, args =>
      if mem fmt = 0#8 then some []
      else if mem fmt = char '%' then do
        let fmt := fmt + 1#32
        let arg := readWord mem args
        match consumeSpecifier (mem fmt) with
        | .none => do
            let rest ← kvprintfFancy mem color fuel (fmt + 1#32) args
            some ((char '%', color) :: (mem fmt, color) :: rest)
        | .str => do
            let calls ← kprintFancy mem color fuel arg
            let rest ← kvprintfFancy mem color fuel (fmt + 1#32) (args + 4#32)
            some (calls ++ rest)
        | .int => do
            let rest ← kvprintfFancy mem color fuel (fmt + 1#32) (args + 4#32)
            some (kprintIntFancy arg 10#32 color ++ rest)
        | .hex => do
            let rest ← kvprintfFancy mem color fuel (fmt + 1#32) (args + 4#32)
            some (colored color (chars "0x") ++ kprintIntFancy arg 16#32 color ++ rest)
      else do
        let rest ← kvprintfFancy mem color fuel (fmt + 1#32) args
        some ((mem fmt, color) :: rest)

/-- `LOG_INFO`. -/
def logInfo : BitVec 32 := 1#32

/-- The color `0xFFFFFF` of `kprintf` and `kvprintf`. -/
def white : BitVec 32 := 0xFFFFFF#32

/-- The part of a line for the level (`logging.c:30-45`). -/
def levelCalls (level : BitVec 32) : Calls :=
  match level.toNat with
  | 0 => colored white (chars "[DBG] ")
  | 1 => colored 0x33CCFF#32 (chars "[INF] ")
  | 2 => colored 0xFFFF1A#32 (chars "[WRN] ")
  | 3 => colored 0xFF3300#32 (chars "[ERR] ")
  | _ => colored 0xFF3399#32 (chars "[???] ")

/-- The part of a line for the class (`logging.c:46-97`). -/
def classCalls (lclass : BitVec 32) : Calls :=
  colored white <| chars <|
    match lclass.toNat with
    | 0 => "acpi: "
    | 1 => "alloc: "
    | 2 => "apic: "
    | 3 => "ata: "
    | 4 => "exception: "
    | 5 => "ext2: "
    | 6 => "kernel: "
    | 7 => "gpt: "
    | 8 => "mem: "
    | 9 => "paging: "
    | 10 => "pci: "
    | 11 => "pic: "
    | 12 => "ps/2: "
    | 13 => "hpet: "
    | 14 => "syscall: "
    | 15 => "term: "
    | _ => "???: "

/-- `vlog` (`logging.c:22-99`), where no class has a level of its own. -/
def vlog (mem : ByteMem) (loggingEnabled : Bool) (level lclass fmt args : BitVec 32) (fuel : Nat) :
    Option Calls :=
  if !loggingEnabled then some []
  else if level < logInfo then some []
  else (kvprintfFancy mem white fuel fmt args).map fun calls =>
    levelCalls level ++ classCalls lclass ++ calls

end Muse.Console
