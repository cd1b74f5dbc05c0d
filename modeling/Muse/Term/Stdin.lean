import Mathlib.Data.List.Range
import Mathlib.Logic.Function.Basic
import Muse.Library.Transition
import Muse.Sync.Multi

/-!
# Typed input and its reader

`term_stdin_putc` and the read direction of `term_transfer` (`src/kernel/term.c`) on one
`struct stdin`. The keyboard calls the first; one reader calls the second again and again, each time
from where its last read ended. A call of `term_stdin_putc` is one step, which waits until the lock
is free. A read lets other contexts run, so it is cut where the lock changes hands: between two
steps of the reader any number of characters may arrive.
-/

namespace Muse.Term

open Muse.Sync (lstatRead)

/-- `TERM_BFR_HEIGHT` (`include/muse/term.h`). -/
def termBfrHeight : Nat := 8

/-- `TERM_BFR_WIDTH` (`include/muse/term.h`). -/
def termBfrWidth : Nat := 64

/-- `struct stdin_line`. The array `s` has `TERM_BFR_WIDTH` characters; what lies behind them is the
    memory behind the line, of which nothing is said. -/
structure StdinLine where
  len : Nat
  s : Nat → BitVec 8

/-- `struct stdin` without its lock. The fields of type `size_t` are below `2 ^ 32`. -/
structure Stdin where
  activeLine : Nat
  bfrOffset : Nat
  lines : Nat → StdinLine

namespace Stdin

/-- `in->lines[in->active_line].s[in->lines[in->active_line].len++] = c` (`term.c:98`). -/
def store (t : Stdin) (c : BitVec 8) : Stdin :=
  let line := t.lines t.activeLine
  { t with
    lines := Function.update t.lines t.activeLine
      ⟨line.len + 1, Function.update line.s line.len c⟩ }

/-- The condition of `term.c:99`: the line that ends in `c` is complete. -/
def LineDone (t : Stdin) (c : BitVec 8) : Prop :=
  termBfrWidth ≤ (t.lines t.activeLine).len ∨ c = 0x0a#8

instance (t : Stdin) (c : BitVec 8) : Decidable (t.LineDone c) :=
  inferInstanceAs (Decidable (_ ∨ _))

/-- The buffer gives up its first line (`term.c:104-109`). -/
def scroll (t : Stdin) : Stdin :=
  let lines := fun i => if i < termBfrHeight - 1 then t.lines (i + 1) else t.lines i
  { activeLine := t.activeLine
    bfrOffset := (t.bfrOffset + (t.lines 0).len) % 2 ^ 32
    lines := Function.update lines t.activeLine { lines t.activeLine with len := 0 } }

/-- `term.c:100-110`. -/
def nextLine (t : Stdin) : Stdin :=
  if t.activeLine + 1 = termBfrHeight then t.scroll
  else { t with activeLine := t.activeLine + 1 }

/-- `term_stdin_putc` between its two lock operations (`term.c:98-110`). -/
def putc (t : Stdin) (c : BitVec 8) : Stdin :=
  let t := t.store c
  if t.LineDone c then t.nextLine else t

/-- `c` completes the last line of the buffer, which then scrolls. -/
def Scrolls (t : Stdin) (c : BitVec 8) : Prop :=
  (t.store c).LineDone c ∧ t.activeLine + 1 = termBfrHeight

instance (t : Stdin) (c : BitVec 8) : Decidable (t.Scrolls c) :=
  inferInstanceAs (Decidable (_ ∧ _))

/-- The loop of `term.c:33-42` from line `lineIdx` on, with `n` lines between it and the active
    line: `line_offset` and `line_idx` behind the loop. -/
def findLine (t : Stdin) (offset : Nat) : (n lineOffset lineIdx : Nat) → Nat × Nat
  | n, lineOffset, lineIdx =>
      let next := (lineOffset + (t.lines lineIdx).len) % 2 ^ 32
      if offset < next then (lineOffset, lineIdx)
      else
        match n with
        | 0 => (next, lineIdx)
        | n + 1 => t.findLine offset n next (lineIdx + 1)

/-- `line_idx` and `char_offset` for a file position (`term.c:31-48`). -/
def locate (t : Stdin) (offset : Nat) : Nat × Nat :=
  let found := t.findLine offset t.activeLine t.bfrOffset 0
  if offset ≤ t.bfrOffset then (0, 0)
  else (found.2, (offset + 2 ^ 32 - found.1) % 2 ^ 32)

end Stdin

/-- Where the reader stands in `term_transfer`. -/
inductive Point where
  /-- in `lock_multi_acquire_read` -/
  | acquire
  /-- behind `lock_multi_acquire_read`, before the search for its line -/
  | search
  /-- at the head of the outer loop, with the lock -/
  | transfer
  /-- in the first loop of `lock_multi_wait` -/
  | released
  /-- in the second loop of `lock_multi_wait` -/
  | spin
  deriving DecidableEq, Repr

/-- A call of `term_transfer`. `data` is what it has copied. For the wait it is in, `lastLine` tells
    whether the last line of the buffer was the active one when it began, and `scrolls` how often
    the buffer has scrolled since. -/
structure Call where
  point : Point
  sizeP : Nat
  size : Nat
  lineIdx : Nat
  charOffset : Nat
  data : List (BitVec 8)
  lastLine : Bool
  scrolls : Nat

/-- The loop of `term.c:53-75`, for as many rounds as there are lines from `lineIdx` to the active
    one. -/
def Call.copyLines (t : Stdin) : Nat → Call → Call
  | 0, call => call
  | n + 1, call =>
      let left := ((t.lines call.lineIdx).len + 2 ^ 32 - call.charOffset) % 2 ^ 32
      let transferSize := min call.size left
      if call.size = 0 ∨ (call.lineIdx = t.activeLine ∧ transferSize < call.size) then call
      else
        copyLines t n { call with
          lineIdx := call.lineIdx + 1
          charOffset := 0
          data := call.data ++
            (List.range transferSize).map fun k => (t.lines call.lineIdx).s (call.charOffset + k)
          size := call.size - transferSize }

/-- The call begins to wait (`term.c:77-84`). -/
def Call.beginWait (t : Stdin) (call : Call) : Call :=
  { call with
    point := .released
    lineIdx :=
      if t.activeLine + 1 = termBfrHeight then (call.lineIdx + 2 ^ 32 - 1) % 2 ^ 32
      else call.lineIdx
    lastLine := t.activeLine + 1 = termBfrHeight
    scrolls := 0 }

/-- A completed read. -/
structure Read where
  offset : Nat
  size : Nat
  data : List (BitVec 8)
  deriving DecidableEq

/-- The terminal with its reader. `offset` is where the reader's call, or its next one, starts;
    `typed` is all that was typed. -/
structure State where
  stdin : Stdin
  waitingReaders : BitVec 32
  stat : BitVec 32
  offset : Nat
  call : Option Call
  typed : List (BitVec 8)
  done : List Read

inductive Op where
  | putc (c : BitVec 8)
  | read (size : BitVec 32)
  | goOn
  deriving DecidableEq, Repr

namespace State

/-- The position up to which the reader has got. -/
def pos (s : State) : Nat :=
  s.offset + (s.call.elim 0 fun call => call.data.length)

/-- `term_stdin_putc` (`term.c:94-115`). -/
def putc (s : State) (c : BitVec 8) : Option State :=
  if s.stat = 0#32 then
    some { s with
      stdin := s.stdin.putc c
      -- `lock_multi_signal` behind a complete line, `lock_multi_release_write` behind another one
      stat :=
        if (s.stdin.store c).LineDone c ∧ s.waitingReaders ≠ 0#32 then lstatRead else 0#32
      call :=
        if s.stdin.Scrolls c then s.call.map fun call => { call with scrolls := call.scrolls + 1 }
        else s.call
      typed := s.typed ++ [c] }
  else none

/-- `term_transfer` up to the loop of `lock_multi_acquire_read` (`term.c:19-27`). -/
def read (s : State) (size : BitVec 32) : Option State :=
  match s.call with
  | some _ => none
  | none =>
      some { s with
        waitingReaders := s.waitingReaders + 1#32
        call := some ⟨.acquire, size.toNat, size.toNat, 0, 0, [], false, 0⟩ }

/-- `lock_multi_release_read` (`sync.c:91-95`). -/
def releaseRead (s : State) : State :=
  { s with
    waitingReaders := s.waitingReaders - 1#32
    stat := if s.waitingReaders - 1#32 = 0#32 then 0#32 else s.stat }

/-- The call returns. -/
def finish (s : State) (call : Call) : State :=
  { s with
    offset := s.offset + call.sizeP
    call := none
    done := s.done ++ [⟨s.offset, call.sizeP, call.data⟩] }

/-- The search for the line and the test of the outer loop: with nothing to read, the call returns
    and keeps the lock (`term.c:31-50`). -/
def search (s : State) (call : Call) : State :=
  let found := s.stdin.locate (s.offset % 2 ^ 32)
  let call := { call with point := .transfer, lineIdx := found.1, charOffset := found.2 }
  if call.size = 0 then s.finish call else { s with call := some call }

/-- A round of the outer loop up to its wait (`term.c:53-87`). -/
def transfer (s : State) (call : Call) : State :=
  let call := call.copyLines s.stdin (s.stdin.activeLine + 1 - call.lineIdx)
  if call.size = 0 then s.releaseRead.finish call
  else { s.releaseRead with call := some (call.beginWait s.stdin) }

/-- The reader's next step in its call. -/
def goOn (s : State) (call : Call) : State :=
  match call.point with
  | .acquire =>
      if s.stat = lstatRead ∨ s.stat = 0#32 then
        { s with stat := lstatRead, call := some { call with point := .search } }
      else s
  | .search => s.search call
  | .transfer => s.transfer call
  | .released =>
      if s.stat = lstatRead then s
      else
        { s with
          waitingReaders := s.waitingReaders + 1#32
          call := some { call with point := .spin } }
  | .spin =>
      if s.stat = lstatRead then { s with call := some { call with point := .transfer } } else s

def step (s : State) : Op → Option State
  | .putc c => s.putc c
  | .read size => s.read size
  | .goOn => s.call.map s.goOn

/-- `init_root_term` (`term.c:117-137`), with the contents of the memory that it leaves as it is:
    the characters of the lines and the two words of the lock. -/
def init (waitingReaders stat : BitVec 32) (s : Nat → Nat → BitVec 8) : State :=
  ⟨⟨0, 0, fun i => ⟨0, s i⟩⟩, waitingReaders, stat, 0, none, [], []⟩

/-- The buffer gives up no character that the reader has not got. -/
def Allowed (s : State) : Op → Prop
  | .putc c => s.stdin.Scrolls c → s.stdin.bfrOffset + (s.stdin.lines 0).len ≤ s.pos
  | .read _ => True
  | .goOn => True

instance (s : State) : ∀ op, Decidable (s.Allowed op)
  | .putc _ => inferInstanceAs (Decidable (_ → _))
  | .read _ => inferInstanceAs (Decidable True)
  | .goOn => inferInstanceAs (Decidable True)

/-- Every completed read has got the characters of the typed stream at its position. -/
def Delivered (s : State) : Prop :=
  ∀ d ∈ s.done, d.data = (s.typed.drop d.offset).take d.size ∧ d.data.length = d.size

instance (s : State) : Decidable s.Delivered :=
  inferInstanceAs (Decidable (∀ d ∈ s.done, _))

end State

end Muse.Term
