import Muse.Ext2.ChildInode
import Muse.Ext2.Directory
import Muse.Library.CheckedWords

/-!
# Mounting

`detect_ext2` and `ext2_register_inode` of `src/common/ext2.c`, and the functions below them with
their divisions and shifts checked: a call in which an undefined operation is evaluated has no
value. What a call returns otherwise is what the functions of `Muse.Ext2.Inode`,
`Muse.Ext2.Directory` and `Muse.Ext2.ChildInode` return.
-/

namespace Muse.Ext2

open Muse.Library

/-- `superblock->signature`, at offset 56. -/
def signature (raw : Bytes) : BitVec 16 := raw.word16 56

/-- The fields that the driver uses, at their offsets in `struct ext2_superblock`
    (`include/muse/ext2.h:8-49`). -/
def Superblock.ofBytes (raw : Bytes) : Superblock where
  totalBlocks := raw.word32 4
  superblockBlock := raw.word32 20
  blockSizeLog := raw.word32 24
  blocksPerGroup := raw.word32 32
  inodesPerGroup := raw.word32 40
  versionMaj := raw.word32 76
  inodeSize := raw.word16 88

namespace Checked

open Muse.Library.Checked (shl udiv umod)
open Muse.Vfs (Tnode)

/-- `1024 << superblock->block_size_log`. -/
def blockSize (sb : Superblock) : Option (BitVec 32) := shl 1024#32 sb.blockSizeLog

/-- `group_descriptor_transfer` (`ext2.c:10-42`). -/
def groupDescriptorTransfer (sb : Superblock) (bdev : Bdev) (idx : BitVec 32)
    (descriptor : GroupDescriptor) (dir : DataDir) :
    Option (DriveRes × GroupDescriptor × Bdev) := do
  let blockSize ← blockSize sb
  let gdt := if blockSize > 2048#32 then blockSize else 2048#32
  let lba := idx * 32#32 / 512#32 + gdt / 512#32
  let slot := 32 * (idx % 16#32).toNat
  let (err, descriptors, bdev) := bdev.read lba 1#32 fresh
  if err ≠ .success then some (err, descriptor, bdev)
  else
    match dir with
    | .write =>
        let (err, _, bdev) := bdev.read lba 1#32 (descriptors.splice slot 32 descriptor)
        some (err, descriptor, bdev)
    | .read => some (.success, descriptors.slice slot 32, bdev)

/-- `inode_transfer` (`ext2.c:44-89`). -/
def inodeTransfer (sb : Superblock) (bdev : Bdev) (inodeI : BitVec 32) (inode : Inode)
    (dir : DataDir) : Option (DriveRes × Inode × Bdev) := do
  let group ← udiv (inodeI - 1#32) sb.inodesPerGroup
  let idx ← umod (inodeI - 1#32) sb.inodesPerGroup
  let blockSize ← blockSize sb
  let (err, descriptor, bdev) ← groupDescriptorTransfer sb bdev group fresh .read
  if err ≠ .success then some (err, inode, bdev)
  else do
    let lba := idx * sb.inodeBytes / 512#32 + descriptor.inodeTable * blockSize / 512#32
    let (err, inodes, bdev) := bdev.read lba 1#32 fresh
    if err ≠ .success then some (err, inode, bdev)
    else do
      let perSector ← udiv 512#32 sb.inodeBytes
      let offset ← umod idx perSector
      let slot := (offset * sb.inodeBytes).toNat
      match dir with
      | .read => some (.success, inodes.slice slot 128, bdev)
      | .write =>
          let (err, bdev) := bdev.write .inodes lba 1#32 (inodes.splice slot 128 inode)
          some (err, inode, bdev)

/-- `alloc_ext2_obj` (`ext2.c:99-172`). Its own operations are the shift again, and divisions by
    `SECTOR_SIZE`. -/
def allocExt2Obj (sb : Superblock) (bdev : Bdev) (group : BitVec 32) (inode : Bool) :
    Option (BitVec 32 × Bdev) :=
  (blockSize sb).map fun _ => Ext2.allocExt2Obj sb bdev group inode

/-- `inode_data_transfer` (`ext2.c:174-242`). Its own operations are the shift, and divisions by
    constants; the divisions of its calls of `inode_transfer` are checked there. -/
def inodeDataTransfer (sb : Superblock) (bdev : Bdev) (inodeI : BitVec 32) (inode : Inode)
    (idx : BitVec 32) (data : Bytes) (dir : DataDir) : Option Transferred :=
  (blockSize sb).bind fun _ => Ext2.inodeDataTransfer sb bdev inodeI inode idx data dir

/-- One of the two calls of a round (`ext2.c:298-314`). -/
def tryGroup (sb : Superblock) (bdev : Bdev) (inRange : Bool) (group : BitVec 32) :
    Option (BitVec 32 × Bdev) :=
  if inRange then allocExt2Obj sb bdev group true else some (0#32, bdev)

/-- The loop of `alloc_child_inode` (`ext2.c:294-315`). -/
def searchGroups (sb : Superblock) (parentGroup groupCnt : BitVec 32) :
    Nat → BitVec 32 → Bdev → Option (BitVec 32 × Bdev)
  | 0, _, bdev => some (0#32, bdev)
  | n + 1, d, bdev => do
      let (inode, bdev) ← tryGroup sb bdev (d ≤ parentGroup) (parentGroup - d)
      if inode ≠ 0#32 then some (inode, bdev)
      else do
        let (inode, bdev) ← tryGroup sb bdev (parentGroup + d < groupCnt) (parentGroup + d)
        if inode ≠ 0#32 then some (inode, bdev)
        else searchGroups sb parentGroup groupCnt n (d + 1#32) bdev

/-- `alloc_child_inode` (`ext2.c:286-317`). -/
def allocChildInode (sb : Superblock) (bdev : Bdev) (parentGroup : BitVec 32) :
    Option (BitVec 32 × Bdev) := do
  let groupCnt ← udiv sb.totalBlocks sb.blocksPerGroup
  let limit :=
    if parentGroup > groupCnt - parentGroup - 1#32 then parentGroup
    else groupCnt - parentGroup - 1#32
  searchGroups sb parentGroup groupCnt limit.toNat 0#32 bdev

/-- The loop that reads the blocks (`ext2.c:258-265`). -/
def readBlocks (sb : Superblock) (inodeI : BitVec 32) :
    Nat → BitVec 32 → Transferred → Option Transferred
  | 0, _, t => some t
  | n + 1, i, t => do
      let start := (sb.blockSize * i).toNat
      let r ← inodeDataTransfer sb t.bdev inodeI t.inode i (fun k => t.data (start + k)) .read
      let t := ⟨r.err, r.inode, t.data.splice start sb.blockSize.toNat r.data, r.bdev⟩
      if r.err ≠ .success then some t else readBlocks sb inodeI n (i + 1#32) t

/-- `enumerate_children` (`ext2.c:244-284`). The inner value is missing if the loop over the entries
    does not end within `fuel` rounds or leaves the buffer. -/
def enumerateChildren (fuel : Nat) (sb : Superblock) (bdev : Bdev) (inodeI : BitVec 32)
    (inode : Inode) (firstChild : List Tnode) : Option (Option Enumerated) :=
  if inode.mode &&& ext2Dir = 0#16 then some (some ⟨.success, [], bdev⟩)
  else do
    let blockSize ← blockSize sb
    let blocks ← udiv (inode.sectorCount * 512#32) blockSize
    let t ← readBlocks sb inodeI blocks.toNat 0#32 ⟨.success, inode, fresh, bdev⟩
    if t.err ≠ .success then some (some ⟨t.err, firstChild, t.bdev⟩)
    else
      some ((walkEntries t.data (blockSize * blocks) fuel 0#32 firstChild).map fun firstChild =>
        ⟨.success, firstChild, t.bdev⟩)

/-- An inode of the virtual file system with its payload: what `ext2_register_inode` stores in a
    node and `detect_ext2` in a mount point. -/
structure Registered where
  inodeId : BitVec 32
  group : BitVec 32
  inode : Inode
  firstChild : List Tnode
  bdev : Bdev

/-- `ext2_register_inode` (`ext2.c:425-444`). The memory of the payload holds `inode` before, and
    the local `child` has `firstChild`. -/
def ext2RegisterInode (fuel : Nat) (sb : Superblock) (bdev : Bdev) (inodeI : BitVec 32)
    (inode : Inode) (firstChild : List Tnode) : Option (Option Registered) := do
  let (_, inode, bdev) ← inodeTransfer sb bdev inodeI inode .read
  let group ← udiv (inodeI - 1#32) sb.inodesPerGroup
  let enumerated ← enumerateChildren fuel sb bdev inodeI inode firstChild
  some (enumerated.map fun e => ⟨inodeI, group, inode, e.firstChild, e.bdev⟩)

/-- `detect_ext2` (`ext2.c:446-489`): the file system that it mounts, if there is one. The local
    `root` holds `inode` before, and the memory of the payload the number `inodeId`, which is not
    set. -/
def detectExt2 (fuel : Nat) (bdev : Bdev) (inode : Inode) (inodeId : BitVec 32) :
    Option (Option (Superblock × Registered)) :=
  let (err, superblock, bdev) := bdev.read 2#32 2#32 fresh
  if err ≠ .success then some none
  else if signature superblock ≠ 0xef53#16 then some none
  else do
    let sb := Superblock.ofBytes superblock
    let (_, root, bdev) ← inodeTransfer sb bdev 2#32 inode .read
    let enumerated ← enumerateChildren fuel sb bdev inodeId root []
    some (enumerated.map fun e => (sb, ⟨inodeId, 0#32, root, e.firstChild, e.bdev⟩))

/-! ## What has to be defined -/

/-- The inode numbers that a mounted file system leads to: its root, and the numbers in the
    directories of those. Between two calls anything may happen to the device. -/
inductive Reachable (sb : Superblock) : BitVec 32 → Prop
  | root : Reachable sb 2#32
  | entry {i : BitVec 32} {fuel : Nat} {bdev : Bdev} {inode : Inode} {r : Registered} {t : Tnode} :
      Reachable sb i → ext2RegisterInode fuel sb bdev i inode [] = some (some r) →
      t ∈ r.firstChild → Reachable sb t.inodeId

/-- The device holds the superblock `raw`. -/
def Holds (raw : Bytes) (bdev : Bdev) : Prop := bdev.disk.slice 1024 1024 = raw.slice 0 1024

/-- No undefined operation is evaluated while a device with the superblock is mounted, nor later:
    when inodes that the file system leads to are transferred or registered, and when one is
    allocated. -/
structure ArithmeticDefined (raw : Bytes) : Prop where
  mount : ∀ fuel bdev inode inodeId, Holds raw bdev → (detectExt2 fuel bdev inode inodeId).isSome
  inode : ∀ i, Reachable (.ofBytes raw) i → ∀ bdev inode dir,
    (inodeTransfer (.ofBytes raw) bdev i inode dir).isSome
  register : ∀ i, Reachable (.ofBytes raw) i → ∀ fuel bdev inode firstChild,
    (ext2RegisterInode fuel (.ofBytes raw) bdev i inode firstChild).isSome
  alloc : ∀ bdev parentGroup, (allocChildInode (.ofBytes raw) bdev parentGroup).isSome

/-- The geometries that the driver's arithmetic is defined for. -/
structure Supported (sb : Superblock) : Prop where
  log_lt : sb.blockSizeLog.toNat < 22
  blocks_ne : sb.blocksPerGroup ≠ 0#32
  inodes_ne : sb.inodesPerGroup ≠ 0#32
  inode_pos : 0 < sb.inodeBytes.toNat
  inode_le : sb.inodeBytes.toNat ≤ 512

end Checked

end Muse.Ext2
