import Muse.Ext2.Bitmaps
import Muse.Library.Ledger

/-!
# Buffers

The functions of `src/common/ext2.c` that take a buffer from `kmalloc` for a sector or a block, with
their calls of `kmalloc` and `kfree`. What they return and do to the device is the same as in
`Muse.Ext2.Inode`, where a buffer is just a value.
-/

namespace Muse.Ext2.Buffers

open Muse.Library

/-- `group_descriptor_transfer` (`ext2.c:10-42`). -/
def groupDescriptorTransfer (sb : Superblock) (bdev : Bdev) (idx : BitVec 32)
    (descriptor : GroupDescriptor) (dir : DataDir) (heap : Ledger) :
    (DriveRes × GroupDescriptor × Bdev) × Ledger :=
  let gdt := if sb.blockSize > 2048#32 then sb.blockSize else 2048#32
  let lba := idx * 32#32 / 512#32 + gdt / 512#32
  let slot := 32 * (idx % 16#32).toNat
  let (buffer, heap) := heap.take
  let (err, descriptors, bdev) := bdev.read lba 1#32 fresh
  if err ≠ .success then ((err, descriptor, bdev), heap)
  else
    match dir with
    | .write =>
        let (err, _, bdev) := bdev.read lba 1#32 (descriptors.splice slot 32 descriptor)
        if err ≠ .success then ((err, descriptor, bdev), heap)
        else ((.success, descriptor, bdev), heap.release buffer)
    | .read => ((.success, descriptors.slice slot 32, bdev), heap.release buffer)

/-- `inode_transfer` (`ext2.c:44-89`). -/
def inodeTransfer (sb : Superblock) (bdev : Bdev) (inodeI : BitVec 32) (inode : Inode)
    (dir : DataDir) (heap : Ledger) : Option ((DriveRes × Inode × Bdev) × Ledger) :=
  if sb.inodesPerGroup = 0#32 then none
  else
    let group := (inodeI - 1#32) / sb.inodesPerGroup
    let idx := (inodeI - 1#32) % sb.inodesPerGroup
    let ((err, descriptor, bdev), heap) := groupDescriptorTransfer sb bdev group fresh .read heap
    if err ≠ .success then some ((err, inode, bdev), heap)
    else
      let lba := idx * sb.inodeBytes / 512#32 + sb.blockLba descriptor.inodeTable
      let (buffer, heap) := heap.take
      let (err, inodes, bdev) := bdev.read lba 1#32 fresh
      if err ≠ .success then some ((err, inode, bdev), heap.release buffer)
      else if sb.inodeBytes = 0#32 ∨ 512#32 / sb.inodeBytes = 0#32 then none
      else
        let offset := idx % (512#32 / sb.inodeBytes)
        let slot := (offset * sb.inodeBytes).toNat
        match dir with
        | .read => some ((.success, inodes.slice slot 128, bdev), heap.release buffer)
        | .write =>
            let (err, bdev) := bdev.write .inodes lba 1#32 (inodes.splice slot 128 inode)
            if err ≠ .success then some ((err, inode, bdev), heap.release buffer)
            else some ((.success, inode, bdev), heap.release buffer)

/-- `alloc_ext2_obj` once the bitmap was read (`ext2.c:137-171`). -/
def searchBitmap (sb : Superblock) (bdev : Bdev) (group : BitVec 32) (inode : Bool)
    (bitmapLba : BitVec 32) (bitmap : Bytes) (buffer : Nat) (heap : Ledger) :
    (BitVec 32 × Bdev) × Ledger :=
  match findClear bitmap 0 sb.blockSize.toNat with
  | none => ((0#32, bdev), heap.release buffer)
  | some (i, j) =>
      let bitmap := Function.update bitmap i (bitmap i ||| 1#8 <<< j)
      let (err, bdev) := bdev.write .bitmap bitmapLba sb.blockSectors bitmap
      let heap := heap.release buffer
      if err ≠ .success then ((0#32, bdev), heap)
      else if inode then
        ((group * sb.inodesPerGroup + BitVec.ofNat 32 (i * 8) + BitVec.ofNat 32 j + 1#32,
          bdev), heap)
      else
        ((group * sb.blocksPerGroup + BitVec.ofNat 32 (i * 8) + BitVec.ofNat 32 j, bdev), heap)

/-- `alloc_ext2_obj` (`ext2.c:99-172`). -/
def allocExt2Obj (sb : Superblock) (bdev : Bdev) (group : BitVec 32) (inode : Bool)
    (heap : Ledger) : (BitVec 32 × Bdev) × Ledger :=
  let ((err, descriptor, bdev), heap) := groupDescriptorTransfer sb bdev group fresh .read heap
  if err ≠ .success then ((0#32, bdev), heap)
  else if inode ∧ descriptor.unallocatedInodes = 0#16 then ((0#32, bdev), heap)
  else if ¬ inode ∧ descriptor.unallocatedBlocks = 0#16 then ((0#32, bdev), heap)
  else
    let ((err, descriptor, bdev), heap) :=
      groupDescriptorTransfer sb bdev group descriptor .read heap
    if err ≠ .success then ((0#32, bdev), heap)
    else
      let bitmapLba :=
        sb.blockLba (if inode then descriptor.inodeBitmapAddr else descriptor.blockBitmapAddr)
      let (buffer, heap) := heap.take
      let (err, bitmap, bdev) := bdev.read bitmapLba sb.blockSectors fresh
      if err ≠ .success then ((0#32, bdev), heap)
      else searchBitmap sb bdev group inode bitmapLba bitmap buffer heap

/-- The end of `inode_data_transfer` (`ext2.c:225-241`). -/
def transferBlock (sb : Superblock) (bdev : Bdev) (inodeI : BitVec 32) (inode : Inode)
    (lba : BitVec 32) (writeInode : Bool) (data : Bytes) (dir : DataDir) (heap : Ledger) :
    Option (Transferred × Ledger) :=
  let (err, data, bdev) :=
    match dir with
    | .read => bdev.read lba sb.blockSectors data
    | .write =>
        let (err, bdev) := bdev.write .data lba sb.blockSectors data
        (err, data, bdev)
  if err ≠ .success then some (⟨err, inode, data, bdev⟩, heap)
  else if writeInode then
    (inodeTransfer sb bdev inodeI inode .write heap).map fun ((err, inode, bdev), heap) =>
      (⟨err, inode, data, bdev⟩, heap)
  else some (⟨err, inode, data, bdev⟩, heap)

/-- `inode_data_transfer` from the singly indirect block on (`ext2.c:202-223`). The buffer of that
    block is not passed to `kfree`. -/
def transferIndirect (sb : Superblock) (bdev : Bdev) (inodeI : BitVec 32) (inode : Inode)
    (entry : Nat) (writeInode : Bool) (data : Bytes) (dir : DataDir) (heap : Ledger) :
    Option (Transferred × Ledger) :=
  let indirectLba := sb.blockLba inode.indirectBlockSingle
  let (_, heap) := heap.take
  let (err, indirectBlock, bdev) := bdev.read indirectLba sb.blockSectors fresh
  if err ≠ .success then some (⟨err, inode, data, bdev⟩, heap)
  else
    let lba := sb.blockLba (indirectBlock.word32 (4 * entry))
    if lba = 0#32 then
      let ((block, bdev), heap) := allocExt2Obj sb bdev (inode.groupId.setWidth 32) false heap
      let indirectBlock := indirectBlock.setWord32 (4 * entry) block
      let (_, bdev) := bdev.write .indirectBlock indirectLba sb.blockSectors indirectBlock
      transferBlock sb bdev inodeI inode (sb.blockLba (indirectBlock.word32 (4 * entry)))
        writeInode data dir heap
    else transferBlock sb bdev inodeI inode lba writeInode data dir heap

/-- `inode_data_transfer` (`ext2.c:174-242`). -/
def inodeDataTransfer (sb : Superblock) (bdev : Bdev) (inodeI : BitVec 32) (inode : Inode)
    (idx : BitVec 32) (data : Bytes) (dir : DataDir) (heap : Ledger) :
    Option (Transferred × Ledger) :=
  if idx < 12#32 then
    if inode.directBlock idx.toNat = 0#32 then
      let ((block, bdev), heap) := allocExt2Obj sb bdev (inode.groupId.setWidth 32) false heap
      let inode := inode.setDirectBlock idx.toNat block
      transferBlock sb bdev inodeI inode (sb.blockLba (inode.directBlock idx.toNat)) true data dir
        heap
    else
      transferBlock sb bdev inodeI inode (sb.blockLba (inode.directBlock idx.toNat)) false data dir
        heap
  else if idx < 12#32 + sb.blockSize / 4#32 then
    let entry := (idx - 12#32).toNat
    if inode.indirectBlockSingle = 0#32 then
      if dir = .read then some (⟨.errBadArgs, inode, data, bdev⟩, heap)
      else
        let ((block, bdev), heap) := allocExt2Obj sb bdev (inode.groupId.setWidth 32) false heap
        transferIndirect sb bdev inodeI (inode.setIndirectBlockSingle block) entry true data dir
          heap
    else transferIndirect sb bdev inodeI inode entry false data dir heap
  else transferBlock sb bdev inodeI inode DriveRes.errBadArgs.toWord false data dir heap

/-! ## The conditions under which nothing is kept -/

/-- The transfers number 0 up to `n - 1` from now on succeed. -/
def Succeeds (bdev : Bdev) (n : Nat) : Prop :=
  ∀ i < n, bdev.result (bdev.transfers + i) = .success

instance (bdev : Bdev) (n : Nat) : Decidable (Succeeds bdev n) :=
  inferInstanceAs (Decidable (∀ i < n, bdev.result (bdev.transfers + i) = .success))

/-- The transfers of the descriptor succeed: one to read it, two to write it. -/
def DescriptorReleases (bdev : Bdev) : DataDir → Prop
  | .read => Succeeds bdev 1
  | .write => Succeeds bdev 2

/-- Reading the descriptor succeeds, and if it counts a free object, reading it again and reading
    the bitmap succeed. -/
def AllocReleases (sb : Superblock) (bdev : Bdev) (g : BitVec 32) (inode : Bool) : Prop :=
  Succeeds bdev 1 ∧ (sb.freeCount bdev.disk g inode ≠ 0#16 → Succeeds bdev 3)

/-- The number of transfers of such a call. -/
def allocTransfers (sb : Superblock) (disk : Bytes) (g : BitVec 32) (inode : Bool) : Nat :=
  if sb.freeCount disk g inode = 0#16 then 1
  else if (findClear (disk.slice (sectorSize * (sb.bitmapLba disk g inode).toNat)
      sb.blockSize.toNat) 0 sb.blockSize.toNat).isNone then 3
  else 4

/-- A direct block that is there needs no buffer. One that is not there is allocated, and when it
    was transferred, the descriptor of the inode's group is read. The buffer of the singly indirect
    block is always kept. -/
def DataReleases (sb : Superblock) (bdev : Bdev) (inode : Inode) (idx : BitVec 32) (dir : DataDir) :
    Prop :=
  if idx < 12#32 then
    inode.directBlock idx.toNat = 0#32 →
      let g := inode.groupId.setWidth 32
      let n := bdev.transfers + allocTransfers sb bdev.disk g false
      AllocReleases sb bdev g false ∧
        (bdev.result n = .success → bdev.result (n + 1) = .success)
  else if idx < 12#32 + sb.blockSize / 4#32 then
    inode.indirectBlockSingle = 0#32 ∧ dir = .read
  else True

end Muse.Ext2.Buffers
