import Muse.Libc.Stdio

/-!
# Streams and the memory of their buffers

`fopen`, `init_io` and the functions of `libc/lib/stdio.c` that move bytes. The kernel may return
any value from a system call. A store through `bfr` is recorded with its index, also where that is
behind the bytes that were requested for the buffer, and so is each transfer. The bytes that `fread`
stores at its argument are left out.

An `Output` is such a stream whose kernel accepts what it says it accepts and whose stores stay
inside the buffer (`step_output`); what was accepted is a list of bytes there, and not a property of
the transfers.
-/

namespace Muse.Libc

/-- `BUFSIZ`. -/
def bufsiz : Nat := 8192

/-- The bits of the mode of the `open` system call (`stdio.c:11-15`). -/
inductive Mode
  | read | write | append | truncate | create

def Mode.bit : Mode → BitVec 8
  | .read => 1#8
  | .write => 2#8
  | .append => 4#8
  | .truncate => 8#8
  | .create => 16#8

/-- The kernel's side of the `transfer` system call: what call number `k` returns for `size` bytes,
    and the bytes that it stores if it reads. -/
structure Kernel where
  returns : Nat → BitVec 32 → BitVec 32
  data : Nat → Nat → BitVec 8

/-- A system call returns at most the number of bytes that it is offered. -/
def Kernel.Bounded (kernel : Kernel) : Prop := ∀ k size, kernel.returns k size ≤ size

/-- A call of `transfer`, with the value that it returned. -/
inductive Transfer
  | read (size ret : BitVec 32)
  | write (bytes : List (BitVec 8)) (ret : BitVec 32)
  deriving DecidableEq

/-- The bytes that the kernel took. -/
def Transfer.taken : Transfer → List (BitVec 8)
  | .read _ _ => []
  | .write bytes ret => bytes.take ret.toNat

/-- The bytes of a write without error. -/
def Transfer.flushed : Transfer → List (BitVec 8)
  | .read _ _ => []
  | .write bytes ret => if ret.toNat = bytes.length then bytes else []

/-- A stream, the number of bytes that were requested from `malloc` for its buffer, the indices of
    the stores through `bfr`, and the transfers. -/
structure Stream where
  file : File
  requested : Nat
  stores : List Nat
  transfers : List Transfer
  deriving DecidableEq

/-- The first `n` bytes at `ptr`. -/
def firstBytes (ptr : Nat → BitVec 8) (n : Nat) : List (BitVec 8) := (List.range n).map ptr

namespace Stream

/-- The mode that `fopen` passes on (`stdio.c:31-46`). -/
def openMode (modeStr : Nat → BitVec 8) : BitVec 8 :=
  let mode := 0#8
  let mode := if modeStr 0 = 'r'.toUInt8.toBitVec then mode ||| Mode.read.bit else mode
  let mode := if modeStr 0 = 'w'.toUInt8.toBitVec then
    mode ||| (Mode.write.bit ||| Mode.truncate.bit ||| Mode.create.bit) else mode
  let mode := if modeStr 0 = 'a'.toUInt8.toBitVec then
    mode ||| (Mode.write.bit ||| Mode.append.bit ||| Mode.create.bit) else mode
  let mode := if modeStr 1 = '+'.toUInt8.toBitVec ∨ modeStr 2 = '+'.toUInt8.toBitVec then
    mode ||| (Mode.read.bit ||| Mode.write.bit) else mode
  if modeStr 1 = 'x'.toUInt8.toBitVec ∨ modeStr 2 = 'x'.toUInt8.toBitVec ∨
      modeStr 3 = 'x'.toUInt8.toBitVec then
    mode &&& ~~~Mode.truncate.bit else mode

/-- `fopen` (`stdio.c:30-59`), where the system call `open` returns `openFd mode` and `seek` returns
    `pos`. `malloc` does not return null. -/
def fopen (openFd : BitVec 8 → BitVec 32) (pos : BitVec 32) (modeStr : Nat → BitVec 8) :
    Option Stream :=
  let fd := openFd (openMode modeStr)
  if fd.toInt < 0 then none
  else
    let bfrSize := 0
    some ⟨⟨pos, true, [], bufsiz, false⟩, bfrSize, [], []⟩

/-- `stdin` behind `init_io` (`stdio.c:151-156`), which does not set `pos`. -/
def stdin (pos : BitVec 32) : Stream := ⟨⟨pos, false, [], 0, true⟩, 0, [], []⟩

/-- `stdout` behind `init_io` (`stdio.c:157-162`). -/
def stdout (pos : BitVec 32) : Stream := ⟨⟨pos, true, [], bufsiz, true⟩, bufsiz, [], []⟩

/-- `stderr` behind `init_io` (`stdio.c:163-168`). -/
def stderr (pos : BitVec 32) : Stream := ⟨⟨pos, false, [], 0, false⟩, 0, [], []⟩

/-- The streams that `fopen` and `init_io` create. -/
inductive Created : Stream → Prop
  | fopen {openFd : BitVec 8 → BitVec 32} {pos : BitVec 32} {modeStr : Nat → BitVec 8}
      {s : Stream} :
      Stream.fopen openFd pos modeStr = some s → Created s
  | stdin (pos : BitVec 32) : Created (Stream.stdin pos)
  | stdout (pos : BitVec 32) : Created (Stream.stdout pos)
  | stderr (pos : BitVec 32) : Created (Stream.stderr pos)

variable (kernel : Kernel)

/-- `syscall_read` (`stdio.c:17-19`), followed by the update of `pos`. -/
def syscallRead (s : Stream) (size : BitVec 32) : BitVec 32 × Stream :=
  let charsRead := kernel.returns s.transfers.length size
  (charsRead,
    { s with
      file := { s.file with pos := s.file.pos + charsRead }
      transfers := s.transfers ++ [.read size charsRead] })

/-- `syscall_write` (`stdio.c:21-24`), followed by the update of `pos`. -/
def syscallWrite (s : Stream) (bytes : List (BitVec 8)) : BitVec 32 × Stream :=
  let charsWritten := kernel.returns s.transfers.length (BitVec.ofNat 32 bytes.length)
  (charsWritten,
    { s with
      file := { s.file with pos := s.file.pos + charsWritten }
      transfers := s.transfers ++ [.write bytes charsWritten] })

/-- `fflush` (`stdio.c:63-72`). -/
def fflush (s : Stream) : BitVec 32 × Stream :=
  let (charsWritten, t) := s.syscallWrite kernel s.file.pending
  if charsWritten.toNat = s.file.pending.length then
    (0#32, { t with file := { t.file with pending := [] } })
  else (eof, t)

/-- `fgetc` (`stdio.c:88-98`). -/
def fgetc (s : Stream) : BitVec 32 × Stream :=
  let (_, s) := s.fflush kernel
  let c := kernel.data s.transfers.length 0
  let (charsRead, s) := s.syscallRead kernel 1#32
  (if charsRead = 1#32 then c.setWidth 32 else eof, s)

/-- `stream->bfr[stream->bfr_size++] = c` (`stdio.c:110`). -/
def storeChar (s : Stream) (c : BitVec 32) : Stream :=
  { s with
    file := { s.file with pending := s.file.pending ++ [c.setWidth 8] }
    stores := s.stores ++ [s.file.pending.length] }

/-- `fputc` (`stdio.c:100-116`). -/
def fputc (s : Stream) (c : BitVec 32) : BitVec 32 × Stream :=
  if !s.file.buffered then
    let (charsWritten, s) := s.syscallWrite kernel [c.setWidth 8]
    (if charsWritten = 1#32 then c else eof, s)
  else
    let s := s.storeChar c
    if s.file.pending.length = s.file.bfrCap ∨ s.file.lineBuffered ∧ c = newline then
      s.fflush kernel
    else (c, s)

/-- The loop of `fwrite` (`stdio.c:128-133`) from byte `i` on, with the value of `i` behind it. A
    `char` is signed. -/
def fwriteLoop : List (BitVec 8) → Nat → Stream → Nat × Stream
  | [], i, s => (i, s)
  | b :: bytes, i, s =>
      let (ret, s) := s.fputc kernel (b.signExtend 32)
      if ret = eof then (i, s) else fwriteLoop bytes (i + 1) s

/-- `fwrite` (`stdio.c:118-135`). Its division faults for a `size` of 0. -/
def fwrite (s : Stream) (ptr : Nat → BitVec 8) (size nmemb : BitVec 32) :
    Option (BitVec 32 × Stream) :=
  let bytes := firstBytes ptr (size * nmemb).toNat
  if !s.file.buffered then
    let (charsWritten, s) := s.syscallWrite kernel bytes
    if size = 0#32 then none else some (charsWritten / size, s)
  else
    let (i, s) := fwriteLoop kernel bytes 0 s
    if size = 0#32 then none else some (BitVec.ofNat 32 (i + 1) / size, s)

/-- `fputs` (`stdio.c:137-139`). -/
def fputs (s : Stream) (str : List (BitVec 8)) : Option (BitVec 32 × Stream) :=
  s.fwrite kernel (fun i => str.getD i 0#8) 1#32 (BitVec.ofNat 32 str.length)

/-- `fread` (`stdio.c:141-148`). Its division faults for a `size` of 0. -/
def fread (s : Stream) (size nmemb : BitVec 32) : Option (BitVec 32 × Stream) :=
  let (_, s) := s.fflush kernel
  let (charsRead, s) := s.syscallRead kernel (size * nmemb)
  if size = 0#32 then none else some (charsRead / size, s)

inductive Op where
  | fputc (c : BitVec 32)
  | fwrite (ptr : Nat → BitVec 8) (size nmemb : BitVec 32)
  | fputs (str : List (BitVec 8))
  | fflush
  | fgetc
  | fread (size nmemb : BitVec 32)

/-- A call on the stream. -/
def step (s : Stream) : Op → Option Stream
  | .fputc c => some (s.fputc kernel c).2
  | .fwrite ptr size nmemb => (s.fwrite kernel ptr size nmemb).map Prod.snd
  | .fputs str => (s.fputs kernel str).map Prod.snd
  | .fflush => some (s.fflush kernel).2
  | .fgetc => some (s.fgetc kernel).2
  | .fread size nmemb => (s.fread kernel size nmemb).map Prod.snd

/-- Every store was inside the bytes that were requested. -/
def Inside (s : Stream) : Prop := ∀ i ∈ s.stores, i < s.requested

/-- The call puts a character into the stream. -/
def Op.Puts : Op → Prop
  | .fputc _ => True
  | .fwrite _ size nmemb => size * nmemb ≠ 0#32
  | .fputs str => BitVec.ofNat 32 str.length ≠ 0#32
  | .fflush | .fgetc | .fread _ _ => False

/-- The bytes that the stream has accepted. A buffered one has those that were flushed without error
    and those in its buffer. -/
def accepted (s : Stream) : List (BitVec 8) :=
  if s.file.buffered then (s.transfers.map Transfer.flushed).flatten ++ s.file.pending
  else (s.transfers.map Transfer.taken).flatten

end Stream

end Muse.Libc
