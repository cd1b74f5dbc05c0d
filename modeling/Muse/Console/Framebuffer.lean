import Mathlib.Data.Nat.Notation
import Mathlib.Logic.Function.Basic
import Muse.Library.ForLoop

/-!
# The framebuffer console

`console_put_char` of `src/common/text.c`, with `psf_put_char` of `src/common/psf.c` and `put_pixel`
and `scroll` of `src/common/vga.c`. A store outside the `pitch * height` bytes of the framebuffer
has no result. All offsets are 32-bit words that wrap. The console lock is left out.
-/

namespace Muse.Console

open Library

/-- The geometry of `struct vga_framebuffer`, in pixels, rows and bytes. -/
structure Framebuffer where
  width : BitVec 32
  height : BitVec 32
  pitch : BitVec 32
  deriving DecidableEq

/-- The fields of `struct psf_font` that are used, and the bytes of the file. -/
structure PsfFont where
  magic : BitVec 32
  headerSize : BitVec 32
  flags : BitVec 32
  glyphSize : BitVec 32
  height : BitVec 32
  width : BitVec 32
  file : BitVec 32 → BitVec 8

/-- `PSF_MAGIC`. -/
def psfMagic : BitVec 32 := 0x864AB572#32

/-- The bytes of the framebuffer. -/
abbrev Pixels : Type := BitVec 32 → BitVec 8

namespace Framebuffer

variable (fb : Framebuffer)

/-- The number of bytes of the framebuffer. -/
def size : Nat :=
  fb.pitch.toNat * fb.height.toNat

/-- A store at an offset of the framebuffer. -/
def store (m : Pixels) (offset : BitVec 32) (b : BitVec 8) : Option Pixels :=
  if offset.toNat < fb.size then some (Function.update m offset b) else none

/-- `put_pixel` (`vga.c:8-14`). -/
def putPixel (x y c : BitVec 32) (m : Pixels) : Option Pixels := do
  let offset := x * 3#32 + y * fb.pitch
  let m ← fb.store m offset ((c &&& 0xFF#32).setWidth 8)
  let m ← fb.store m (offset + 1#32) (((c >>> 8) &&& 0xFF#32).setWidth 8)
  fb.store m (offset + 2#32) (((c >>> 16) &&& 0xFF#32).setWidth 8)

/-- `memcpy` (`memory.c:19-23`) within the framebuffer. -/
def memcpy (dst src size : BitVec 32) (m : Pixels) : Option Pixels :=
  forLoop (fun i m => fb.store m (dst + BitVec.ofNat 32 i) (m (src + BitVec.ofNat 32 i))) 0
    size.toNat m

/-- A row that is cleared (`vga.c:50-52`). -/
def clearRow (y : BitVec 32) (m : Pixels) : Option Pixels :=
  forLoop (fun x m => fb.store m (y * fb.pitch + BitVec.ofNat 32 x) 0#8) 0 fb.pitch.toNat m

/-- `scroll` (`vga.c:45-55`). -/
def scroll (dY : BitVec 32) (m : Pixels) : Option Pixels := do
  let topAligned := fb.height - fb.height % dY
  let m ← fb.memcpy 0#32 (fb.pitch * dY) ((topAligned - dY) * fb.pitch) m
  forLoop (fun y => fb.clearRow (BitVec.ofNat 32 y)) (topAligned - dY).toNat
    (fb.height.toNat - (topAligned - dY).toNat) m

variable (font : PsfFont)

/-- A round of the inner loop of `psf_put_char` (`psf.c:28-32`). A `char` is shifted as an `int`. -/
def psfPutBit (data offset xA yA y color : BitVec 32) (i : Nat) (m : Pixels) : Option Pixels :=
  let x := BitVec.ofNat 32 i
  let byte := font.file (data + (offset + x / 8#32))
  if ((byte.signExtend 32).sshiftRight (7#32 - x % 8#32).toNat) &&& 1#32 ≠ 0#32 then
    fb.putPixel (x + xA) (y + yA) color m
  else fb.putPixel (x + xA) (y + yA) 0#32 m

/-- A round of the outer loop of `psf_put_char` (`psf.c:27-34`), which changes `offset`. -/
def psfPutRow (data xA yA lineSize color : BitVec 32) (y : Nat) (s : BitVec 32 × Pixels) :
    Option (BitVec 32 × Pixels) := do
  let m ← forLoop (fb.psfPutBit font data s.1 xA yA (BitVec.ofNat 32 y) color) 0
    font.width.toNat s.2
  some (s.1 + lineSize, m)

/-- `psf_put_char` (`psf.c:11-36`). -/
def psfPutChar (c : BitVec 8) (xC yC color : BitVec 32) (m : Pixels) : Option Pixels :=
  if font.flags ≠ 0#32 ∨ font.magic ≠ psfMagic then some m
  else do
    let xA := xC * font.width
    let yA := yC * font.height
    let lineSize := (font.width + 7#32) / 8#32
    let data := font.headerSize + font.glyphSize * c.setWidth 32
    let s ← forLoop (fb.psfPutRow font data xA yA lineSize color) 0 font.height.toNat (0#32, m)
    some s.2

end Framebuffer

/-- The framebuffer and the cursor. -/
structure Screen where
  bfr : Pixels
  x : BitVec 32
  y : BitVec 32

namespace Screen

variable (fb : Framebuffer) (font : PsfFont)

/-- `'\n'`. -/
def newline : BitVec 8 := 10#8

/-- `CONSOLE_W`. -/
def consoleW : BitVec 32 :=
  fb.width / font.width

/-- `CONSOLE_H`. -/
def consoleH : BitVec 32 :=
  fb.height / font.height

/-- `console_put_char` for a newline (`text.c:35-44`). -/
def putNewline (s : Screen) : Option Screen :=
  if s.y < consoleH fb font - 1#32 then some { s with x := 0#32, y := s.y + 1#32 }
  else do
    let bfr ← fb.scroll font.height s.bfr
    some { s with bfr := bfr, x := 0#32 }

/-- `console_put_char` (`text.c:33-52`). It calls itself for a newline only. -/
def consolePutChar (c : BitVec 8) (color : BitVec 32) (s : Screen) : Option Screen :=
  if c = newline then s.putNewline fb font
  else do
    let bfr ← fb.psfPutChar font c s.x s.y color s.bfr
    if s.x < consoleW fb font - 1#32 then some { s with bfr := bfr, x := s.x + 1#32 }
    else putNewline fb font { s with bfr := bfr }

/-- A sequence of calls of `console_put_char`. -/
def consolePutChars (calls : List (BitVec 8 × BitVec 32)) (s : Screen) : Option Screen :=
  calls.foldlM (fun s call => s.consolePutChar fb font call.1 call.2) s

end Screen

end Muse.Console
