import Mathlib.Tactic.IntervalCases
import Muse.Ext2.Inode
import Muse.Library.BitArray

/-!
# The layout of an ext2 image

Where the blocks of a file system lie on the disk, in exact arithmetic: this is what the driver's
32-bit products are compared with. Block `n` is the bytes from `n` times the size of a block on.
The blocks from `superblock_block` on are divided into groups, and bit `k` of a group's block bitmap
is clear if block `k` of the group is free.

`Consistent` says what a checked image has: metadata where the descriptors say, apart from each
other and marked as used. `HasFile` says that an inode is one of the image's.
-/

namespace Muse.Ext2

open Muse.Library

namespace Superblock

variable (sb : Superblock)

/-- The bytes of a block. -/
def blockBytes : Nat := 1024 * 2 ^ sb.blockSizeLog.toNat

/-- The sectors of a block. -/
def sectorsPerBlock : Nat := 2 * 2 ^ sb.blockSizeLog.toNat

/-- The blocks that one singly indirect block maps. -/
def entriesPerBlock : Nat := 256 * 2 ^ sb.blockSizeLog.toNat

/-- The first block of the first group. -/
def firstBlock : Nat := sb.superblockBlock.toNat

/-- The number of block groups; the last one may be short. -/
def groups : Nat :=
  (sb.totalBlocks.toNat - sb.firstBlock + sb.blocksPerGroup.toNat - 1) / sb.blocksPerGroup.toNat

/-- The blocks of the group descriptor table. -/
def gdtBlocks : Nat := (32 * sb.groups + sb.blockBytes - 1) / sb.blockBytes

/-- Block `n` holds the boot block, the superblock or a part of the descriptor table. -/
def Front (n : Nat) : Prop := n < sb.firstBlock + 1 + sb.gdtBlocks

/-- The blocks of the inode table of a group. -/
def inodeTableBlocks : Nat :=
  (sb.inodesPerGroup.toNat * sb.inodeBytes.toNat + sb.blockBytes - 1) / sb.blockBytes

/-- The descriptor of group `g`. The table starts in the block after the superblock's. -/
def descriptor (disk : Bytes) (g : Nat) : GroupDescriptor :=
  disk.slice ((sb.firstBlock + 1) * sb.blockBytes + 32 * g) 32

/-- Bit `k` of the block bitmap of group `g`. -/
def blockBit (disk : Bytes) (g k : Nat) : Bool :=
  bitAt (fun i => disk ((sb.descriptor disk g).blockBitmapAddr.toNat * sb.blockBytes + i)) k

/-- Block `n` is marked free in its group's block bitmap. -/
def MarkedFree (disk : Bytes) (n : Nat) : Prop :=
  sb.firstBlock ≤ n ∧ n < sb.totalBlocks.toNat ∧
    sb.blockBit disk ((n - sb.firstBlock) / sb.blocksPerGroup.toNat)
      ((n - sb.firstBlock) % sb.blocksPerGroup.toNat) = false

/-- The sector of the inode table that holds the inode number `i`. -/
def inodeSector (disk : Bytes) (i : BitVec 32) : Nat :=
  let table := (sb.descriptor disk ((i.toNat - 1) / sb.inodesPerGroup.toNat)).inodeTable.toNat
  table * sb.sectorsPerBlock + (i.toNat - 1) % sb.inodesPerGroup.toNat * sb.inodeBytes.toNat / 512

/-- The block that holds the inode's data number `i`, or 0. -/
def mapped (disk : Bytes) (inode : Inode) (i : Nat) : BitVec 32 :=
  if i < 12 then inode.directBlock i
  else if inode.indirectBlockSingle = 0#32 then 0#32
  else disk.word32 (inode.indirectBlockSingle.toNat * sb.blockBytes + 4 * (i - 12))

end Superblock

/-- The parts of the file system's metadata. -/
inductive Region where
  | front
  | blockBitmap (g : Nat)
  | inodeBitmap (g : Nat)
  | inodeTable (g : Nat)
  deriving DecidableEq, Repr

/-- Block `n` is one of the region's. -/
def Region.Holds (sb : Superblock) (disk : Bytes) (n : Nat) : Region → Prop
  | .front => sb.Front n
  | .blockBitmap g => g < sb.groups ∧ n = (sb.descriptor disk g).blockBitmapAddr.toNat
  | .inodeBitmap g => g < sb.groups ∧ n = (sb.descriptor disk g).inodeBitmapAddr.toNat
  | .inodeTable g =>
      g < sb.groups ∧ (sb.descriptor disk g).inodeTable.toNat ≤ n ∧
        n < (sb.descriptor disk g).inodeTable.toNat + sb.inodeTableBlocks

/-- The values a superblock has: a bitmap is one block, the number of free blocks of a group fits
    its 16-bit field, and the descriptor table lies in the first group. Only blocks of 1024 bytes
    leave room for a boot block before the superblock. -/
structure Geometry (sb : Superblock) : Prop where
  log_le : sb.blockSizeLog.toNat ≤ 6
  first : sb.firstBlock = if sb.blockSizeLog.toNat = 0 then 1 else 0
  first_lt : sb.firstBlock < sb.totalBlocks.toNat
  blocks_pos : 0 < sb.blocksPerGroup.toNat
  blocks_le : sb.blocksPerGroup.toNat ≤ 8 * sb.blockBytes
  blocks_lt : sb.blocksPerGroup.toNat < 2 ^ 16
  table_le : 1 + sb.gdtBlocks ≤ sb.blocksPerGroup.toNat
  inodes_pos : 0 < sb.inodesPerGroup.toNat
  inodes_le : sb.inodesPerGroup.toNat ≤ 8 * sb.blockBytes
  inode_pow : ∃ k, sb.inodeBytes.toNat = 2 ^ k
  inode_ge : 128 ≤ sb.inodeBytes.toNat
  inode_le : sb.inodeBytes.toNat ≤ sb.blockBytes

/-- A consistent image. The bits of a bitmap after the last block of its group are set. -/
structure Consistent (sb : Superblock) (disk : Bytes) : Prop extends Geometry sb where
  apart : ∀ r r' n, Region.Holds sb disk n r → Region.Holds sb disk n r' → r = r'
  used : ∀ r n, Region.Holds sb disk n r → n < sb.totalBlocks.toNat ∧ ¬ sb.MarkedFree disk n
  padding : ∀ g < sb.groups, ∀ k < 8 * sb.blockBytes,
    sb.blocksPerGroup.toNat ≤ k ∨
      sb.totalBlocks.toNat ≤ sb.firstBlock + g * sb.blocksPerGroup.toNat + k →
    sb.blockBit disk g k = true

/-- The inode number `i` is one of the image's and `inode` maps blocks of its own: none of them is
    free or holds metadata, and no two are the same. -/
structure HasFile (sb : Superblock) (disk : Bytes) (i : BitVec 32) (inode : Inode) : Prop where
  pos : 0 < i.toNat
  le : i.toNat ≤ sb.groups * sb.inodesPerGroup.toNat
  indirect : inode.indirectBlockSingle ≠ 0#32 →
    inode.indirectBlockSingle.toNat < sb.totalBlocks.toNat ∧
    ¬ sb.MarkedFree disk inode.indirectBlockSingle.toNat ∧
    ∀ r, ¬ Region.Holds sb disk inode.indirectBlockSingle.toNat r
  mapped : ∀ k < 12 + sb.entriesPerBlock, sb.mapped disk inode k ≠ 0#32 →
    (sb.mapped disk inode k).toNat < sb.totalBlocks.toNat ∧
    ¬ sb.MarkedFree disk (sb.mapped disk inode k).toNat ∧
    sb.mapped disk inode k ≠ inode.indirectBlockSingle ∧
    ∀ r, ¬ Region.Holds sb disk (sb.mapped disk inode k).toNat r
  inj : ∀ k < 12 + sb.entriesPerBlock, ∀ l < 12 + sb.entriesPerBlock,
    sb.mapped disk inode k ≠ 0#32 → sb.mapped disk inode k = sb.mapped disk inode l → k = l

namespace Superblock

variable {sb : Superblock}

theorem blockBytes_eq (sb : Superblock) : sb.blockBytes = 512 * sb.sectorsPerBlock := by
  unfold blockBytes sectorsPerBlock
  omega

theorem entriesPerBlock_eq (sb : Superblock) : sb.blockBytes = 4 * sb.entriesPerBlock := by
  unfold blockBytes entriesPerBlock
  omega

theorem blockLba_zero (sb : Superblock) : sb.blockLba 0#32 = 0#32 := by
  rw [blockLba, BitVec.zero_mul]
  rfl

/-! Blocks of at most 64 KiB, `1024 << k` with `k` up to 6. -/

section Log

variable (hlog : sb.blockSizeLog.toNat ≤ 6)

include hlog

theorem sectorsPerBlock_bounds : 2 ≤ sb.sectorsPerBlock ∧ sb.sectorsPerBlock ≤ 128 := by
  unfold Superblock.sectorsPerBlock
  interval_cases sb.blockSizeLog.toNat <;> decide

theorem blockBytes_pos : 0 < sb.blockBytes := by
  have := sectorsPerBlock_bounds hlog
  rw [Superblock.blockBytes_eq]
  omega

theorem blockSize_toNat : sb.blockSize.toNat = sb.blockBytes := by
  rw [Superblock.blockSize, Superblock.blockBytes, BitVec.shiftLeft_eq', BitVec.toNat_shiftLeft,
    Nat.shiftLeft_eq]
  interval_cases sb.blockSizeLog.toNat <;> decide

theorem blockSectors_toNat : sb.blockSectors.toNat = sb.sectorsPerBlock := by
  rw [Superblock.blockSectors, BitVec.toNat_udiv, blockSize_toNat hlog, Superblock.blockBytes_eq]
  simp

/-- The first sector of a block whose byte address fits a word. -/
theorem blockLba_toNat {block : BitVec 32} (h : block.toNat * sb.blockBytes < 2 ^ 32) :
    (sb.blockLba block).toNat = block.toNat * sb.sectorsPerBlock := by
  rw [Superblock.blockLba, BitVec.toNat_udiv, BitVec.toNat_mul, blockSize_toNat hlog,
    Nat.mod_eq_of_lt h, Superblock.blockBytes_eq, BitVec.toNat_ofNat, Nat.mul_left_comm]
  simp

/-- What the direct blocks and the singly indirect block map ends well before the end of the 32-bit
    numbers. -/
theorem file_bytes_lt : (12 + sb.entriesPerBlock) * sb.blockBytes + 2 * sb.blockBytes < 2 ^ 32 := by
  unfold Superblock.entriesPerBlock Superblock.blockBytes
  interval_cases sb.blockSizeLog.toNat <;> decide

end Log

end Superblock

namespace Geometry

variable {sb : Superblock} (hg : Geometry sb)

include hg

theorem sectorsPerBlock_bounds : 2 ≤ sb.sectorsPerBlock ∧ sb.sectorsPerBlock ≤ 128 :=
  Superblock.sectorsPerBlock_bounds hg.log_le

theorem blockBytes_pos : 0 < sb.blockBytes := Superblock.blockBytes_pos hg.log_le

theorem blockSize_toNat : sb.blockSize.toNat = sb.blockBytes :=
  Superblock.blockSize_toNat hg.log_le

theorem blockSectors_toNat : sb.blockSectors.toNat = sb.sectorsPerBlock :=
  Superblock.blockSectors_toNat hg.log_le

theorem blockLba_toNat {block : BitVec 32} (h : block.toNat * sb.blockBytes < 2 ^ 32) :
    (sb.blockLba block).toNat = block.toNat * sb.sectorsPerBlock :=
  Superblock.blockLba_toNat hg.log_le h

/-- The table lies where `group_descriptor_transfer` looks for it. -/
theorem gdt_start :
    (if sb.blockSize > 2048#32 then sb.blockSize else 2048#32).toNat =
      (sb.firstBlock + 1) * sb.blockBytes := by
  have hs := hg.blockSize_toNat
  have hf := hg.first
  have hl := hg.log_le
  have hb : sb.blockBytes = 1024 * 2 ^ sb.blockSizeLog.toNat := rfl
  have : (if sb.blockSize > 2048#32 then sb.blockSize else 2048#32).toNat =
      if 2048 < sb.blockBytes then sb.blockBytes else 2048 := by
    rw [← hs]
    simp only [gt_iff_lt, BitVec.lt_def, BitVec.toNat_ofNat]
    split <;> simp_all
  rw [this, hb, hf]
  interval_cases sb.blockSizeLog.toNat <;> decide

/-- The byte address of a descriptor fits a word. -/
theorem descriptors_lt : 32 * sb.groups < 2 ^ 32 := by
  have hspb := hg.sectorsPerBlock_bounds
  have hpos := hg.blockBytes_pos
  have hle : 32 * sb.groups ≤ sb.gdtBlocks * sb.blockBytes := by
    have := Nat.lt_div_mul_add (a := 32 * sb.groups + sb.blockBytes - 1) hpos
    unfold Superblock.gdtBlocks
    omega
  have hblocks : sb.gdtBlocks ≤ 2 ^ 16 - 2 := by
    have := hg.table_le
    have := hg.blocks_lt
    omega
  calc 32 * sb.groups ≤ sb.gdtBlocks * sb.blockBytes := hle
    _ ≤ (2 ^ 16 - 2) * 2 ^ 16 := Nat.mul_le_mul hblocks (by rw [Superblock.blockBytes_eq]; omega)
    _ < 2 ^ 32 := by decide

theorem file_bytes_lt : (12 + sb.entriesPerBlock) * sb.blockBytes + 2 * sb.blockBytes < 2 ^ 32 :=
  Superblock.file_bytes_lt hg.log_le

end Geometry

end Muse.Ext2
