import Muse.Ext2.Layout
import Muse.Ext2.Transfer

/-!
# Files as byte arrays

What `ext2_transfer` is for: a file is an array of bytes, a call reads a part of it or replaces a
part of it. The array of a file is found on the disk through its block map. `Runs` are the sequences
of calls inside the size of the file; the inode in memory and the device go from call to call.
-/

namespace Muse.Ext2

open Muse.Library

namespace Superblock

variable (sb : Superblock)

/-- Where byte `k` of the file is on the disk. -/
def fileAddr (disk : Bytes) (inode : Inode) (k : Nat) : Nat :=
  (sb.mapped disk inode (k / sb.blockBytes)).toNat * sb.blockBytes + k % sb.blockBytes

/-- Byte `k` of the file. -/
def fileByte (disk : Bytes) (inode : Inode) (k : Nat) : BitVec 8 :=
  disk (sb.fileAddr disk inode k)

/-- Where the inode number `i` is on the disk. -/
def inodeAddr (disk : Bytes) (i : BitVec 32) : Nat :=
  (sb.descriptor disk ((i.toNat - 1) / sb.inodesPerGroup.toNat)).inodeTable.toNat * sb.blockBytes +
    (i.toNat - 1) % sb.inodesPerGroup.toNat * sb.inodeBytes.toNat

/-- The inode number `i` as it is on the disk. -/
def inodeOnDisk (disk : Bytes) (i : BitVec 32) : Inode := disk.slice (sb.inodeAddr disk i) 128

end Superblock

/-- Block `k` of the file is mapped by the inode itself or through its singly indirect block, and
    the byte addresses of these blocks fit 32 bits. -/
structure Addressable (sb : Superblock) (disk : Bytes) (inode : Inode) (k : Nat) : Prop where
  lt : k < 12 + sb.entriesPerBlock
  ne : sb.mapped disk inode k ≠ 0#32
  fits : (sb.mapped disk inode k).toNat * sb.blockBytes < 2 ^ 32
  indirect_fits : 12 ≤ k → inode.indirectBlockSingle.toNat * sb.blockBytes < 2 ^ 32

/-- A file whose blocks are all there, on an image of less than 2^23 sectors. -/
structure WholeFile (sb : Superblock) (disk : Bytes) (i : BitVec 32) (inode : Inode) : Prop where
  image : Consistent sb disk
  file : HasFile sb disk i inode
  sectors : sb.totalBlocks.toNat * sb.sectorsPerBlock ≤ 2 ^ 23
  inode_dvd : sb.inodeBytes.toNat ∣ 512
  blocks : ∀ k, k * sb.blockBytes < inode.sizeLo.toNat →
    k < 12 + sb.entriesPerBlock ∧ sb.mapped disk inode k ≠ 0#32

/-- What a call finds: the inode in memory and the device. -/
structure Mounted where
  inode : Inode
  bdev : Bdev

/-- The arguments of `ext2_transfer`. -/
structure Call where
  offset : BitVec 32
  len : BitVec 32
  data : Bytes
  dir : DataDir

namespace Call

/-- The call transfers some bytes, and none after the first `size`. -/
def InRange (c : Call) (size : Nat) : Prop :=
  0 < c.len.toNat ∧ c.offset.toNat + c.len.toNat ≤ size

/-- What the call does to the array. -/
def apply (c : Call) (file : Bytes) : Bytes :=
  match c.dir with
  | .read => file
  | .write => file.splice c.offset.toNat c.len.toNat c.data

/-- The call returns `v`, with `out` in the caller's buffer, and leaves `s'`. -/
def Returns (c : Call) (sb : Superblock) (i : BitVec 32) (s : Mounted) (v : BitVec 32) (out : Bytes)
    (s' : Mounted) : Prop :=
  ∃ n t, ext2Transfer n sb s.bdev i s.inode c.offset c.len c.data c.dir = some (v, t) ∧
    out = t.data ∧ s' = ⟨t.inode, t.bdev⟩

end Call

/-- The calls `cs`, all of them inside the file, lead from `s` to the last state. -/
inductive Runs (sb : Superblock) (i : BitVec 32) (s : Mounted) : List Call → Mounted → Prop
  | nil : Runs sb i s [] s
  | snoc {cs : List Call} {c : Call} {t t' : Mounted} {v : BitVec 32} {out : Bytes} :
      Runs sb i s cs t → c.InRange s.inode.sizeLo.toNat → c.Returns sb i t v out t' →
      Runs sb i s (cs ++ [c]) t'

/-- The call does in state `t` what it should do with the array `file` of `size` bytes. Outside the
    file, nothing but the inode itself may be written. -/
structure Call.Correct (c : Call) (sb : Superblock) (i : BitVec 32) (size : BitVec 32)
    (file : Bytes) (t : Mounted) (v : BitVec 32) (out : Bytes) (t' : Mounted) : Prop where
  returned : v = c.len
  sizeLo : t'.inode.sizeLo = size
  array : ∀ k < size.toNat, sb.fileByte t'.bdev.disk t'.inode k = c.apply file k
  read : c.dir = .read → t'.bdev.disk = t.bdev.disk ∧
    ∀ k < c.len.toNat, out k = file (c.offset.toNat + k)
  others : ∀ a, (∀ k, c.offset.toNat ≤ k → k < c.offset.toNat + c.len.toNat →
      a ≠ sb.fileAddr t.bdev.disk t.inode k) →
    (a < sb.inodeAddr t.bdev.disk i ∨ sb.inodeAddr t.bdev.disk i + 128 ≤ a) →
    t'.bdev.disk a = t.bdev.disk a

end Muse.Ext2
