import Mathlib.Logic.Basic

/-!
# Output streams

`fflush`, `fputc`, `fwrite` and `fputs` of `libc/lib/stdio.c` over a kernel that keeps the contract
of `write`. Its side of the system call is a sequence of answers: call number `k` accepts the first
`answer k` of the bytes that it is offered, or all if there are fewer, and returns how many. A store
behind the bytes that are available at `bfr` has no value.

This is the view of a program that follows its output to the kernel. The same functions over a
kernel that returns anything, with the memory of the buffer, are in `Muse.Libc.Stream`: they say
when a store leaves the buffer, where an `Output` ends. A run here is a run there
(`Stream.run_output`).
-/

namespace Muse.Libc

/-- `EOF`. -/
def eof : BitVec 32 := -1#32

/-- `'\n'`. -/
def newline : BitVec 32 := 10#32

/-- The fields of `FILE` that are used for output. `pending` are the `bfr_size` bytes at `bfr`; a
    stream that is not buffered has a null `bfr`. -/
structure File where
  pos : BitVec 32
  buffered : Bool
  pending : List (BitVec 8)
  bfrCap : Nat
  lineBuffered : Bool
  deriving DecidableEq

/-- A stream, the bytes that are available at its `bfr`, and what the kernel did: the bytes that it
    accepted, and the number of calls. -/
structure Output where
  file : File
  available : Nat
  accepted : List (BitVec 8)
  calls : Nat
  deriving DecidableEq

namespace Output

/-- `syscall_write` (`stdio.c:21-24`), followed by the update of `pos`. -/
def write (answer : Nat → Nat) (s : Output) (bytes : List (BitVec 8)) : Nat × Output :=
  let charsWritten := min (answer s.calls) bytes.length
  (charsWritten,
    { s with
      file := { s.file with pos := s.file.pos + BitVec.ofNat 32 charsWritten }
      accepted := s.accepted ++ bytes.take charsWritten
      calls := s.calls + 1 })

/-- `fflush` (`stdio.c:63-72`). -/
def fflush (answer : Nat → Nat) (s : Output) : BitVec 32 × Output :=
  let (charsWritten, t) := s.write answer s.file.pending
  if charsWritten = s.file.pending.length then
    (0#32, { t with file := { t.file with pending := [] } })
  else (eof, t)

/-- `fputc` (`stdio.c:100-116`). -/
def fputc (answer : Nat → Nat) (s : Output) (c : BitVec 32) : Option (BitVec 32 × Output) :=
  if !s.file.buffered then
    let (charsWritten, t) := s.write answer [c.setWidth 8]
    some (if charsWritten = 1 then c else eof, t)
  else if s.available ≤ s.file.pending.length then none
  else
    let t := { s with file := { s.file with pending := s.file.pending ++ [c.setWidth 8] } }
    if t.file.pending.length = t.file.bfrCap ∨ t.file.lineBuffered ∧ c = newline then
      some (t.fflush answer)
    else some (c, t)

/-- The loop of `fwrite` (`stdio.c:128-133`) from byte `i` on, with the value of `i` behind it. A
    `char` is signed. -/
def fwriteLoop (answer : Nat → Nat) : List (BitVec 8) → Nat → Output → Option (Nat × Output)
  | [], i, s => some (i, s)
  | b :: bytes, i, s => do
      let (ret, s) ← s.fputc answer (b.signExtend 32)
      if ret = eof then some (i, s) else fwriteLoop answer bytes (i + 1) s

/-- `fwrite` (`stdio.c:118-135`) of the bytes at `ptr`. Its division faults for a `size` of 0. -/
def fwrite (answer : Nat → Nat) (s : Output) (ptr : List (BitVec 8)) (size nmemb : BitVec 32) :
    Option (BitVec 32 × Output) :=
  let bytes := ptr.take (size * nmemb).toNat
  if !s.file.buffered then
    let (charsWritten, t) := s.write answer bytes
    if size = 0#32 then none else some (BitVec.ofNat 32 charsWritten / size, t)
  else do
    let (i, t) ← fwriteLoop answer bytes 0 s
    if size = 0#32 then none else some (BitVec.ofNat 32 (i + 1) / size, t)

/-- `fputs` (`stdio.c:137-139`). -/
def fputs (answer : Nat → Nat) (s : Output) (str : List (BitVec 8)) :
    Option (BitVec 32 × Output) :=
  s.fwrite answer str 1#32 (BitVec.ofNat 32 str.length)

end Output

end Muse.Libc
