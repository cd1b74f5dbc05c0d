import Muse.Ext2.File
import Muse.Library.RecordChain
import Muse.Vfs.Open

/-!
# Directories

`enumerate_children` of `src/common/ext2.c` reads all blocks of a directory into one buffer and goes
through the entries in it, by their lengths, until the end of the buffer or the first entry that is
not used. Each entry becomes a child in front of those found before. The buffer is an object of its
own: reading outside of it has no value.
-/

namespace Muse.Ext2

open Muse.Library
open Muse.Vfs (Tnode)

/-- `EXT2_DIR` (`ext2.c:8`). -/
def ext2Dir : BitVec 16 := 0x4000#16

def Inode.mode (inode : Inode) : BitVec 16 := Bytes.word16 inode 0

/-! ## Entries -/

/-- `struct ext2_directory_entry` (`include/muse/ext2.h:90-96`), by its fields in a buffer. -/
def entryInode (buf : Bytes) (off : Nat) : BitVec 32 := buf.word32 off

def entryLen (buf : Bytes) (off : Nat) : BitVec 16 := buf.word16 (off + 4)

def entryNameLen (buf : Bytes) (off : Nat) : BitVec 8 := buf (off + 6)

def entryName (buf : Bytes) (off : Nat) : List (BitVec 8) :=
  (List.range (entryNameLen buf off).toNat).map fun i => buf (off + 8 + i)

/-- How many bytes of an entry are read: the fields up to `name_len`, and the name behind
    `file_type` if it is not empty. -/
def entryReads (buf : Bytes) (off : Nat) : Nat :=
  if entryNameLen buf off = 0#8 then 7 else 8 + (entryNameLen buf off).toNat

/-- The node for an entry (`ext2.c:270-277`). Its `name_len` is the length of the name. -/
def entryNode (buf : Bytes) (off : Nat) : Tnode where
  name := entryName buf off
  inodeId := entryInode buf off
  present := false
  firstChild := []

/-- The loop over the entries (`ext2.c:266-281`) from the offset `off` on, in at most `fuel` rounds.
    `size` is the size of the buffer. -/
def walkEntries (buf : Bytes) (size : BitVec 32) :
    Nat → BitVec 32 → List Tnode → Option (List Tnode)
  | 0, _, _ => none
  | fuel + 1, off, firstChild =>
      if off < size - 1#32 then
        if size.toNat < off.toNat + 4 then none
        else if entryInode buf off.toNat = 0#32 then some firstChild
        else if size.toNat < off.toNat + entryReads buf off.toNat then none
        else
          walkEntries buf size fuel (off + (entryLen buf off.toNat).setWidth 32)
            (entryNode buf off.toNat :: firstChild)
      else some firstChild

/-! ## Directories -/

/-- `blocks` (`ext2.c:254`). -/
def dirBlocks (sb : Superblock) (inode : Inode) : BitVec 32 :=
  inode.sectorCount * 512#32 / sb.blockSize

/-- The size of the buffer (`ext2.c:255`). -/
def dirBytes (sb : Superblock) (inode : Inode) : BitVec 32 := sb.blockSize * dirBlocks sb inode

/-- The loop that reads the blocks (`ext2.c:258-265`), with `n` of them left from `i` on. The inode
    is a copy. -/
def readBlocks (sb : Superblock) (inodeI : BitVec 32) :
    Nat → BitVec 32 → Transferred → Option Transferred
  | 0, _, t => some t
  | n + 1, i, t => do
      let start := (sb.blockSize * i).toNat
      let r ← inodeDataTransfer sb t.bdev inodeI t.inode i (fun k => t.data (start + k)) .read
      let t := ⟨r.err, r.inode, t.data.splice start sb.blockSize.toNat r.data, r.bdev⟩
      if r.err ≠ .success then some t else readBlocks sb inodeI n (i + 1#32) t

/-- What `enumerate_children` leaves behind: `first_child` is the list of the children. -/
structure Enumerated where
  err : DriveRes
  firstChild : List Tnode
  bdev : Bdev

/-- `enumerate_children` (`ext2.c:244-284`), if its loop over the entries ends within `fuel`
    rounds. -/
def enumerateChildren (fuel : Nat) (sb : Superblock) (bdev : Bdev) (inodeI : BitVec 32)
    (inode : Inode) (firstChild : List Tnode) : Option Enumerated :=
  if inode.mode &&& ext2Dir = 0#16 then some ⟨.success, [], bdev⟩
  else if sb.blockSize = 0#32 then none
  else do
    let t ← readBlocks sb inodeI (dirBlocks sb inode).toNat 0#32 ⟨.success, inode, fresh, bdev⟩
    if t.err ≠ .success then some ⟨t.err, firstChild, t.bdev⟩
    else do
      let firstChild ← walkEntries t.data (dirBytes sb inode) fuel 0#32 firstChild
      some ⟨.success, firstChild, t.bdev⟩

/-! ## What a directory is -/

/-- There is an entry at `off` whose name lies inside of it. -/
def Entry (buf : Bytes) (off : Nat) : Prop :=
  8 + (entryNameLen buf off).toNat ≤ (entryLen buf off).toNat

/-- Where the entry behind the one at `off` starts. -/
def entryEnd (buf : Bytes) (off : Nat) : Nat := off + (entryLen buf off).toNat

/-- The entry at `off` names an inode. -/
def UsedEntry (buf : Bytes) (off : Nat) : Prop := entryInode buf off ≠ 0#32

instance (buf : Bytes) : DecidablePred (UsedEntry buf) :=
  fun off => inferInstanceAs (Decidable (entryInode buf off ≠ 0#32))

/-- A directory of `blocks` blocks. The entries of block `k` are at the offsets `parts k` of the
    data, and their lengths add up to the size of the block. `sector_count` counts the blocks of
    data. -/
structure DirectoryBlocks (sb : Superblock) (disk : Bytes) (inode : Inode) (blocks : Nat)
    (parts : Nat → List Nat) : Prop where
  log_le : sb.blockSizeLog.toNat ≤ 6
  isDir : inode.mode &&& ext2Dir ≠ 0#16
  sectors : inode.sectorCount.toNat = blocks * sb.sectorsPerBlock
  entries : ∀ k < blocks, RecordChain (Entry (sb.fileByte disk inode))
    (entryEnd (sb.fileByte disk inode)) (k * sb.blockBytes) (parts k) ((k + 1) * sb.blockBytes)

/-- The driver can read the first `blocks` blocks: it can address each of them, and the device
    reports no error. -/
structure Readable (sb : Superblock) (bdev : Bdev) (inode : Inode) (blocks : Nat) : Prop where
  addressable : ∀ k < blocks, Addressable sb bdev.disk inode k
  noError : ∀ n, bdev.result n = .success

/-- The children are the used ones of the entries at the offsets `l`, each of them once. -/
def ListsEntries (data : Bytes) (l : List Nat) (children : List Tnode) : Prop :=
  children.Perm ((l.filter fun off => UsedEntry data off).map (entryNode data))

/-- No used entry stands behind an unused one. -/
def UsedFirst (data : Bytes) (l : List Nat) : Prop :=
  l.Pairwise fun a b => UsedEntry data b → UsedEntry data a

/-! ## Buffers that are read to the end -/

/-- A used entry with a length, of which a buffer of `size` bytes has all that is read. -/
structure EntryInside (buf : Bytes) (size : Nat) (off : Nat) : Prop where
  lt : off + 1 < size
  used : UsedEntry buf off
  reads : off + entryReads buf off ≤ size
  len_pos : entryLen buf off ≠ 0#16

/-- From the start of a buffer on, used entries inside it follow each other up to its end, or up to
    an unused entry inside it. Offsets are 32-bit words. -/
def EntriesInside (buf : Bytes) (size : Nat) : Prop :=
  0 < size ∧ ∃ l stop,
    RecordChain (EntryInside buf size) (fun off => entryEnd buf off % 2 ^ 32) 0 l stop ∧
      (size ≤ stop + 1 ∨ stop + 4 ≤ size ∧ ¬ UsedEntry buf stop)

end Muse.Ext2
