import Muse.Ext2.Inode

/-!
# Reading and writing a file

`ext2_transfer` of `src/common/ext2.c`: a transfer of `len` bytes at `offset` goes block by block
through a buffer of one block, and a write reads each block before it changes it. The counters of
the loop are 32-bit words, and they do not depend on what is on the disk: `Cursor` has them. The
loop may go on for ever, so a transfer is given a number of rounds.
-/

namespace Muse.Ext2

open Muse.Library

namespace Inode

def sizeLo (inode : Inode) : BitVec 32 := Bytes.word32 inode 4

def setSizeLo (inode : Inode) (size : BitVec 32) : Inode := Bytes.setWord32 inode 4 size

def sectorCount (inode : Inode) : BitVec 32 := Bytes.word32 inode 28

def setSectorCount (inode : Inode) (count : BitVec 32) : Inode := Bytes.setWord32 inode 28 count

end Inode

/-- The counters of the loop (`ext2.c:370-381`). -/
structure Cursor where
  block : BitVec 32
  blockEnd : BitVec 32
  bytesWritten : BitVec 32
  skip : BitVec 32
  deriving DecidableEq, Repr

namespace Cursor

/-- The counters at the start of the loop. -/
def start (sb : Superblock) (offset : BitVec 32) : Cursor where
  block := offset / sb.blockSize
  blockEnd := (offset / sb.blockSize + 1#32) * sb.blockSize
  bytesWritten := 0#32
  skip := offset - offset / sb.blockSize * sb.blockSize

/-- The bytes of a round (`ext2.c:389-392`); `limit` is `offset + len`. -/
def cnt (c : Cursor) (sb : Superblock) (limit : BitVec 32) : BitVec 32 :=
  if limit < c.blockEnd then sb.blockSize - c.skip + (limit - c.blockEnd)
  else sb.blockSize - c.skip

/-- The counters after a round (`ext2.c:405-412`). The last three of them are stepped only if the
    loop goes on. -/
def next (c : Cursor) (sb : Superblock) (limit : BitVec 32) : Cursor where
  block := c.block + 1#32
  blockEnd := c.blockEnd + sb.blockSize
  bytesWritten := c.bytesWritten + c.cnt sb limit
  skip := 0#32

end Cursor

/-- The length that is left after the check against the size of the file (`ext2.c:364-366`). -/
def clampedLen (inode : Inode) (offset len : BitVec 32) : BitVec 32 :=
  if inode.sizeLo < offset + len then inode.sizeLo - offset else len

/-- The state of a transfer between two rounds. -/
structure Transfer where
  cursor : Cursor
  inode : Inode
  data : Bytes
  bdev : Bdev
  done : Bool

/-- One round of the loop (`ext2.c:383-413`). There is no state after it if the processor faults. -/
def Transfer.round (t : Transfer) (sb : Superblock) (inodeI offset len : BitVec 32)
    (dir : DataDir) : Option Transfer := do
  let r ← inodeDataTransfer sb t.bdev inodeI t.inode t.cursor.block fresh .read
  if r.err ≠ .success then some { t with inode := r.inode, bdev := r.bdev, done := true }
  else
    let c := t.cursor
    let cnt := c.cnt sb (offset + len)
    let last := c.bytesWritten + cnt = len
    match dir with
    | .read =>
        let data := t.data.splice c.bytesWritten.toNat cnt.toNat fun i => r.data (c.skip.toNat + i)
        some ⟨c.next sb (offset + len), r.inode, data, r.bdev, last⟩
    | .write => do
        let bfr := r.data.splice c.skip.toNat cnt.toNat fun i => t.data (c.bytesWritten.toNat + i)
        let w ← inodeDataTransfer sb r.bdev inodeI r.inode c.block bfr .write
        if w.err ≠ .success then some { t with inode := w.inode, bdev := w.bdev, done := true }
        else some ⟨c.next sb (offset + len), w.inode, t.data, w.bdev, last⟩

/-- At most `n` rounds of the loop. -/
def Transfer.rounds (sb : Superblock) (inodeI offset len : BitVec 32) (dir : DataDir) :
    Nat → Transfer → Option Transfer
  | 0, t => some t
  | n + 1, t =>
      if t.done then some t
      else do
        let t ← t.round sb inodeI offset len dir
        rounds sb inodeI offset len dir n t

/-- The transfer before its first round. -/
def Transfer.start (sb : Superblock) (bdev : Bdev) (inode : Inode) (offset : BitVec 32)
    (data : Bytes) : Transfer :=
  ⟨.start sb offset, inode, data, bdev, false⟩

/-- The end of a write, which sets the size of the file (`ext2.c:415-422`). -/
def Transfer.finish (t : Transfer) (sb : Superblock) (inodeI offset len : BitVec 32)
    (dir : DataDir) : Option Transfer :=
  if dir = .write ∧ t.inode.sizeLo ≤ offset + len then do
    let inode := t.inode.setSizeLo (offset + len)
    let inode := inode.setSectorCount ((inode.sizeLo + 512#32 - 1#32) / 512#32)
    let (_, inode, bdev) ← inodeTransfer sb t.bdev inodeI inode .write
    some { t with inode, bdev }
  else some t

/-- `ext2_transfer` (`ext2.c:359-423`), if its loop ends within `n` rounds: the bytes transferred
    and what it leaves behind. -/
def ext2Transfer (n : Nat) (sb : Superblock) (bdev : Bdev) (inodeI : BitVec 32) (inode : Inode)
    (offset len : BitVec 32) (data : Bytes) (dir : DataDir) : Option (BitVec 32 × Transfer) := do
  let len := clampedLen inode offset len
  let t ← (Transfer.start sb bdev inode offset data).rounds sb inodeI offset len dir n
  if t.done then do
    let t ← t.finish sb inodeI offset len dir
    some (t.cursor.bytesWritten, t)
  else none

end Muse.Ext2
