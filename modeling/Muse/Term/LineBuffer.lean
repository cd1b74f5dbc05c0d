import Mathlib.Algebra.GroupWithZero.Nat
import Muse.Library.Bytes
import Muse.Library.CopyRun
import Muse.Term.Stdin

/-!
# The line buffer in memory

`term_stdin_putc` (`src/kernel/term.c`) on the bytes of a `struct stdin`. A line has 68 bytes, the
word `len` and behind it the characters. The buffer scrolls with one `memcpy`, whose ranges overlap.
The calls for the lock, which are granted here, and the log are left out.
-/

namespace Muse.Term

open Muse.Library

/-- `sizeof(struct stdin_line)` (`include/muse/term.h:11-14`). -/
def stdinLineSize : Nat := 4 + termBfrWidth

/-- `struct stdin` without its lock. `lines` is the memory from the field of that name on, also
    behind its end. -/
structure LineBuffer where
  activeLine : BitVec 32
  bfrOffset : BitVec 32
  lines : Bytes

/-- `memcpy` within one memory (`memory.c:19-23`). -/
def memcpy (m : Bytes) (dst src size : Nat) : Bytes :=
  copyRun (fun i => dst + i) (fun i => src + i) m size

namespace LineBuffer

/-- `in->lines[i].len`. -/
def len (b : LineBuffer) (i : Nat) : BitVec 32 := b.lines.word32 (stdinLineSize * i)

/-- `in->lines[i].s[k]`. -/
def char (b : LineBuffer) (i k : Nat) : BitVec 8 := b.lines (stdinLineSize * i + (4 + k))

/-- `in->lines[in->active_line].s[in->lines[in->active_line].len++] = c` (`term.c:98`). A store
    outside the characters of a line of the buffer has no result. -/
def store (b : LineBuffer) (c : BitVec 8) : Option LineBuffer :=
  let i := b.activeLine.toNat
  let k := (b.len i).toNat
  if i < termBfrHeight ∧ k < termBfrWidth then
    let lines := b.lines.setWord32 (stdinLineSize * i) (b.len i + 1#32)
    some { b with lines := Function.update lines (stdinLineSize * i + (4 + k)) c }
  else none

/-- The condition of `term.c:99`. -/
def LineDone (b : LineBuffer) (c : BitVec 8) : Prop :=
  termBfrWidth ≤ (b.len b.activeLine.toNat).toNat ∨ c = 0x0a#8

instance (b : LineBuffer) (c : BitVec 8) : Decidable (b.LineDone c) :=
  inferInstanceAs (Decidable (_ ∨ _))

/-- `term.c:104-109`. -/
def scroll (b : LineBuffer) : LineBuffer :=
  let lines := memcpy b.lines 0 stdinLineSize ((termBfrHeight - 1) * stdinLineSize)
  let activeLine := b.activeLine - 1#32
  ⟨activeLine, b.bfrOffset + b.len 0, lines.setWord32 (stdinLineSize * activeLine.toNat) 0#32⟩

/-- `term.c:100-110`. -/
def nextLine (b : LineBuffer) : LineBuffer :=
  let b := { b with activeLine := b.activeLine + 1#32 }
  if b.activeLine.toNat = termBfrHeight then b.scroll else b

/-- `term_stdin_putc` (`term.c:94-115`). -/
def termStdinPutc (b : LineBuffer) (c : BitVec 8) : Option LineBuffer :=
  (b.store c).map fun b => if b.LineDone c then b.nextLine else b

/-- `init_root_term` (`term.c:124-130`), with what was in the memory that it leaves as it is. -/
def initRootTerm (lines : Bytes) : LineBuffer :=
  ⟨0#32, 0#32, (List.range termBfrHeight).foldl
    (fun lines i => lines.setWord32 (stdinLineSize * i) 0#32) lines⟩

/-- The characters of a line. -/
def line (b : LineBuffer) (i : Nat) : List (BitVec 8) :=
  (List.range (b.len i).toNat).map (b.char i)

/-- The lines up to the active one. -/
def linesUsed (b : LineBuffer) : List (List (BitVec 8)) :=
  (List.range (b.activeLine.toNat + 1)).map b.line

/-- A line that is not typed on: it is full, or its only newline ends it. -/
def Ended (line : List (BitVec 8)) : Prop :=
  line.length = termBfrWidth ∨ ∃ chars, line = chars ++ [0x0a#8] ∧ 0x0a#8 ∉ chars

/-- The buffer shows the end of what was typed. -/
structure Shows (b : LineBuffer) (typed : List (BitVec 8)) : Prop where
  active_lt : b.activeLine.toNat < termBfrHeight
  within : ∀ i ≤ b.activeLine.toNat, (b.len i).toNat ≤ termBfrWidth
  room : (b.len b.activeLine.toNat).toNat < termBfrWidth
  earlier : ∀ i < b.activeLine.toNat, Ended (b.line i)
  count : b.bfrOffset.toNat + (b.linesUsed.map List.length).sum = typed.length
  text : b.linesUsed.flatten = typed.drop b.bfrOffset.toNat

end LineBuffer

end Muse.Term
