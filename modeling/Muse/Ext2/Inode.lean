import Muse.Ext2.Device

/-!
# Blocks and inodes of an ext2 file system

`group_descriptor_transfer`, `inode_transfer`, `alloc_ext2_obj` and `inode_data_transfer` of
`src/common/ext2.c`. Descriptors and inodes are the bytes of the structures of
`include/muse/ext2.h`, read through their fields. All products and sums are 32-bit ones, as in the
source. Buffers from `kmalloc` are local to a call.
-/

namespace Muse.Ext2

open Muse.Library

/-- The fields of `struct ext2_superblock` (`include/muse/ext2.h:8-49`) that the driver uses to
    find blocks and inodes. -/
structure Superblock where
  totalBlocks : BitVec 32
  superblockBlock : BitVec 32
  blockSizeLog : BitVec 32
  blocksPerGroup : BitVec 32
  inodesPerGroup : BitVec 32
  versionMaj : BitVec 32
  inodeSize : BitVec 16
  deriving DecidableEq, Repr

namespace Superblock

/-- `1024 << superblock->block_size_log`. -/
def blockSize (sb : Superblock) : BitVec 32 := 1024#32 <<< sb.blockSizeLog

/-- The sectors of a block, `block_size / SECTOR_SIZE`. -/
def blockSectors (sb : Superblock) : BitVec 32 := sb.blockSize / 512#32

/-- The first sector of a block, `block * block_size / SECTOR_SIZE`. -/
def blockLba (sb : Superblock) (block : BitVec 32) : BitVec 32 :=
  block * sb.blockSize / 512#32

/-- The size of an inode on the disk (`ext2.c:49-52`). -/
def inodeBytes (sb : Superblock) : BitVec 32 :=
  if sb.versionMaj ≥ 1#32 then sb.inodeSize.setWidth 32 else 128#32

end Superblock

/-- `struct ext2_block_group_descriptor` (`include/muse/ext2.h:51-61`), 32 bytes. -/
abbrev GroupDescriptor : Type := Bytes

namespace GroupDescriptor

def blockBitmapAddr (d : GroupDescriptor) : BitVec 32 := Bytes.word32 d 0

def inodeBitmapAddr (d : GroupDescriptor) : BitVec 32 := Bytes.word32 d 4

def inodeTable (d : GroupDescriptor) : BitVec 32 := Bytes.word32 d 8

def unallocatedBlocks (d : GroupDescriptor) : BitVec 16 := Bytes.word16 d 12

def unallocatedInodes (d : GroupDescriptor) : BitVec 16 := Bytes.word16 d 14

end GroupDescriptor

/-- `struct ext2_inode` (`include/muse/ext2.h:63-83`), 128 bytes. -/
abbrev Inode : Type := Bytes

namespace Inode

def groupId (inode : Inode) : BitVec 16 := Bytes.word16 inode 24

def directBlock (inode : Inode) (i : Nat) : BitVec 32 := Bytes.word32 inode (40 + 4 * i)

def setDirectBlock (inode : Inode) (i : Nat) (block : BitVec 32) : Inode :=
  Bytes.setWord32 inode (40 + 4 * i) block

def indirectBlockSingle (inode : Inode) : BitVec 32 := Bytes.word32 inode 88

def setIndirectBlockSingle (inode : Inode) (block : BitVec 32) : Inode :=
  Bytes.setWord32 inode 88 block

end Inode

/-- `group_descriptor_transfer` (`ext2.c:10-42`). The second transfer of `DIR_WRITE` is a
    `DIR_READ` one in the source. -/
def groupDescriptorTransfer (sb : Superblock) (bdev : Bdev) (idx : BitVec 32)
    (descriptor : GroupDescriptor) (dir : DataDir) : DriveRes × GroupDescriptor × Bdev :=
  let gdt := if sb.blockSize > 2048#32 then sb.blockSize else 2048#32
  let lba := idx * 32#32 / 512#32 + gdt / 512#32
  let slot := 32 * (idx % 16#32).toNat
  let (err, descriptors, bdev) := bdev.read lba 1#32 fresh
  if err ≠ .success then (err, descriptor, bdev)
  else
    match dir with
    | .write =>
        let (err, _, bdev) := bdev.read lba 1#32 (descriptors.splice slot 32 descriptor)
        (err, descriptor, bdev)
    | .read => (.success, descriptors.slice slot 32, bdev)

/-- `inode_transfer` (`ext2.c:44-89`). There is no result when the processor faults on a division
    by zero: when a group has no inodes, or when an inode is larger than a sector. -/
def inodeTransfer (sb : Superblock) (bdev : Bdev) (inodeI : BitVec 32) (inode : Inode)
    (dir : DataDir) : Option (DriveRes × Inode × Bdev) :=
  if sb.inodesPerGroup = 0#32 then none
  else
    let group := (inodeI - 1#32) / sb.inodesPerGroup
    let idx := (inodeI - 1#32) % sb.inodesPerGroup
    let (err, descriptor, bdev) := groupDescriptorTransfer sb bdev group fresh .read
    if err ≠ .success then some (err, inode, bdev)
    else
      let lba := idx * sb.inodeBytes / 512#32 + sb.blockLba descriptor.inodeTable
      let (err, inodes, bdev) := bdev.read lba 1#32 fresh
      if err ≠ .success then some (err, inode, bdev)
      else if sb.inodeBytes = 0#32 ∨ 512#32 / sb.inodeBytes = 0#32 then none
      else
        let offset := idx % (512#32 / sb.inodeBytes)
        let slot := (offset * sb.inodeBytes).toNat
        match dir with
        | .read => some (.success, inodes.slice slot 128, bdev)
        | .write =>
            let (err, bdev) := bdev.write .inodes lba 1#32 (inodes.splice slot 128 inode)
            some (err, inode, bdev)

/-- The loop over the bits of a byte (`ext2.c:142-143`): the first that is clear. -/
def clearBit (byte : BitVec 8) : Option Nat :=
  (List.range 8).find? fun j => (byte >>> j) &&& 1#8 = 0#8

/-- The loop over the bytes of a bitmap (`ext2.c:137-143`), with `n` of them left from `i` on. -/
def findClear (bitmap : Bytes) : Nat → Nat → Option (Nat × Nat)
  | _, 0 => none
  | i, n + 1 =>
      if bitmap i = 0xFF#8 then findClear bitmap (i + 1) n
      else
        match clearBit (bitmap i) with
        | some j => some (i, j)
        | none => findClear bitmap (i + 1) n

/-- `alloc_ext2_obj` (`ext2.c:99-172`). `THERE_ARE_FOUR_LIGHTS` prints a message, and the call
    returns 0. -/
def allocExt2Obj (sb : Superblock) (bdev : Bdev) (group : BitVec 32) (inode : Bool) :
    BitVec 32 × Bdev :=
  let (err, descriptor, bdev) := groupDescriptorTransfer sb bdev group fresh .read
  if err ≠ .success then (0#32, bdev)
  else if inode ∧ descriptor.unallocatedInodes = 0#16 then (0#32, bdev)
  else if ¬ inode ∧ descriptor.unallocatedBlocks = 0#16 then (0#32, bdev)
  else
    let (err, descriptor, bdev) := groupDescriptorTransfer sb bdev group descriptor .read
    if err ≠ .success then (0#32, bdev)
    else
      let bitmapLba :=
        sb.blockLba (if inode then descriptor.inodeBitmapAddr else descriptor.blockBitmapAddr)
      let (err, bitmap, bdev) := bdev.read bitmapLba sb.blockSectors fresh
      if err ≠ .success then (0#32, bdev)
      else
        match findClear bitmap 0 sb.blockSize.toNat with
        | none => (0#32, bdev)
        | some (i, j) =>
            let bitmap := Function.update bitmap i (bitmap i ||| 1#8 <<< j)
            let (err, bdev) := bdev.write .bitmap bitmapLba sb.blockSectors bitmap
            if err ≠ .success then (0#32, bdev)
            else if inode then
              (group * sb.inodesPerGroup + BitVec.ofNat 32 (i * 8) + BitVec.ofNat 32 j + 1#32,
                bdev)
            else (group * sb.blocksPerGroup + BitVec.ofNat 32 (i * 8) + BitVec.ofNat 32 j, bdev)

/-- What `inode_data_transfer` leaves behind: the inode is changed in place, and `data` by
    `DIR_READ`. -/
structure Transferred where
  err : DriveRes
  inode : Inode
  data : Bytes
  bdev : Bdev

/-- The end of `inode_data_transfer` (`ext2.c:225-241`). -/
def transferBlock (sb : Superblock) (bdev : Bdev) (inodeI : BitVec 32) (inode : Inode)
    (lba : BitVec 32) (writeInode : Bool) (data : Bytes) (dir : DataDir) : Option Transferred :=
  let (err, data, bdev) :=
    match dir with
    | .read => bdev.read lba sb.blockSectors data
    | .write =>
        let (err, bdev) := bdev.write .data lba sb.blockSectors data
        (err, data, bdev)
  if err ≠ .success then some ⟨err, inode, data, bdev⟩
  else if writeInode then
    (inodeTransfer sb bdev inodeI inode .write).map fun (err, inode, bdev) =>
      ⟨err, inode, data, bdev⟩
  else some ⟨err, inode, data, bdev⟩

/-- `inode_data_transfer` from the singly indirect block on (`ext2.c:202-223`). -/
def transferIndirect (sb : Superblock) (bdev : Bdev) (inodeI : BitVec 32) (inode : Inode)
    (entry : Nat) (writeInode : Bool) (data : Bytes) (dir : DataDir) : Option Transferred :=
  let indirectLba := sb.blockLba inode.indirectBlockSingle
  let (err, indirectBlock, bdev) := bdev.read indirectLba sb.blockSectors fresh
  if err ≠ .success then some ⟨err, inode, data, bdev⟩
  else
    let lba := sb.blockLba (indirectBlock.word32 (4 * entry))
    if lba = 0#32 then
      let (block, bdev) := allocExt2Obj sb bdev (inode.groupId.setWidth 32) false
      let indirectBlock := indirectBlock.setWord32 (4 * entry) block
      -- the result of this transfer is not looked at
      let (_, bdev) := bdev.write .indirectBlock indirectLba sb.blockSectors indirectBlock
      transferBlock sb bdev inodeI inode (sb.blockLba (indirectBlock.word32 (4 * entry)))
        writeInode data dir
    else transferBlock sb bdev inodeI inode lba writeInode data dir

/-- `inode_data_transfer` (`ext2.c:174-242`). Beyond the singly indirect block, `lba` still has the
    number of `DRV_ERR_BAD_ARGS` it starts with. -/
def inodeDataTransfer (sb : Superblock) (bdev : Bdev) (inodeI : BitVec 32) (inode : Inode)
    (idx : BitVec 32) (data : Bytes) (dir : DataDir) : Option Transferred :=
  if idx < 12#32 then
    if inode.directBlock idx.toNat = 0#32 then
      let (block, bdev) := allocExt2Obj sb bdev (inode.groupId.setWidth 32) false
      let inode := inode.setDirectBlock idx.toNat block
      transferBlock sb bdev inodeI inode (sb.blockLba (inode.directBlock idx.toNat)) true data dir
    else
      transferBlock sb bdev inodeI inode (sb.blockLba (inode.directBlock idx.toNat)) false data dir
  else if idx < 12#32 + sb.blockSize / 4#32 then
    let entry := (idx - 12#32).toNat
    if inode.indirectBlockSingle = 0#32 then
      if dir = .read then some ⟨.errBadArgs, inode, data, bdev⟩
      else
        let (block, bdev) := allocExt2Obj sb bdev (inode.groupId.setWidth 32) false
        transferIndirect sb bdev inodeI (inode.setIndirectBlockSingle block) entry true data dir
    else transferIndirect sb bdev inodeI inode entry false data dir
  else transferBlock sb bdev inodeI inode DriveRes.errBadArgs.toWord false data dir

end Muse.Ext2
