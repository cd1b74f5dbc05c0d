import Muse.Ext2.Bitmaps

/-!
# Inodes for new files

`alloc_child_inode` of `src/common/ext2.c` looks for a free inode in the group of the parent, then
in the groups at distance 1 on both sides, and so on. What it is for: the new inode is in a group as
near to the parent's as possible.
-/

namespace Muse.Ext2

open Muse.Library

/-- One of the two calls of a round, which is made if the group is there (`ext2.c:298-314`). -/
def tryGroup (sb : Superblock) (bdev : Bdev) (inRange : Bool) (group : BitVec 32) :
    BitVec 32 × Bdev :=
  if inRange then allocExt2Obj sb bdev group true else (0#32, bdev)

/-- The loop of `alloc_child_inode` (`ext2.c:294-315`) from the distance `d` on, with `n` rounds
    left. -/
def searchGroups (sb : Superblock) (parentGroup groupCnt : BitVec 32) :
    Nat → BitVec 32 → Bdev → BitVec 32 × Bdev
  | 0, _, bdev => (0#32, bdev)
  | n + 1, d, bdev =>
      let (inode, bdev) := tryGroup sb bdev (d ≤ parentGroup) (parentGroup - d)
      if inode ≠ 0#32 then (inode, bdev)
      else
        let (inode, bdev) := tryGroup sb bdev (parentGroup + d < groupCnt) (parentGroup + d)
        if inode ≠ 0#32 then (inode, bdev)
        else searchGroups sb parentGroup groupCnt n (d + 1#32) bdev

/-- `group_cnt` (`ext2.c:289-290`). -/
def Superblock.groupCnt (sb : Superblock) : BitVec 32 := sb.totalBlocks / sb.blocksPerGroup

/-- The rounds of the loop, `MAX(parent_group, group_cnt - parent_group - 1)` (`ext2.c:295`). -/
def Superblock.searchLimit (sb : Superblock) (parentGroup : BitVec 32) : BitVec 32 :=
  if parentGroup > sb.groupCnt - parentGroup - 1#32 then parentGroup
  else sb.groupCnt - parentGroup - 1#32

/-- `alloc_child_inode` (`ext2.c:286-317`) for a parent in the group `parentGroup`. There is no
    result if the processor faults on a division by zero. -/
def allocChildInode (sb : Superblock) (bdev : Bdev) (parentGroup : BitVec 32) :
    Option (BitVec 32 × Bdev) :=
  if sb.blocksPerGroup = 0#32 then none
  else
    some (searchGroups sb parentGroup sb.groupCnt (sb.searchLimit parentGroup).toNat 0#32 bdev)

/-! ## What the search is for -/

namespace Superblock

variable (sb : Superblock) (disk : Bytes)

/-- The number of groups; the last one may be short. -/
def groupTotal : Nat :=
  (sb.totalBlocks.toNat + sb.blocksPerGroup.toNat - 1) / sb.blocksPerGroup.toNat

/-- Inode `k` of group `g` is free. -/
def FreeInode (g : BitVec 32) (k : Nat) : Prop :=
  g.toNat < sb.groupTotal ∧ k < sb.inodesPerGroup.toNat ∧ sb.objBit disk g true k = false

end Superblock

/-- How far two groups are apart. -/
def groupDistance (g p : BitVec 32) : Nat := (g.toNat - p.toNat) + (p.toNat - g.toNat)

/-- An image whose groups have inode bitmaps without a free inode where the descriptors count none.
    The bits after the last inode of a group are set, each group has at least the blocks of its two
    bitmaps, and the inodes have 32-bit numbers. -/
structure InodeImage (sb : Superblock) (disk : Bytes) : Prop where
  blocks_pos : 0 < sb.blocksPerGroup.toNat
  blocks : 2 * sb.groupTotal ≤ sb.totalBlocks.toNat
  inodes_le : sb.inodesPerGroup.toNat ≤ sb.bitmapBits
  numbers : sb.groupTotal * sb.inodesPerGroup.toNat < 2 ^ 32
  padding : ∀ (g : BitVec 32) (k : Nat), g.toNat < sb.groupTotal → sb.inodesPerGroup.toNat ≤ k →
    k < sb.bitmapBits → sb.objBit disk g true k = true
  counted : ∀ g : BitVec 32, g.toNat < sb.groupTotal → sb.freeCount disk g true = 0#16 →
    ∀ k, ¬ sb.FreeInode disk g k

/-- Group `g` has a free inode, and no group that has one is nearer to `p`. -/
def Nearest (sb : Superblock) (disk : Bytes) (p g : BitVec 32) : Prop :=
  (∃ k, sb.FreeInode disk g k) ∧
    ∀ g' k, sb.FreeInode disk g' k → groupDistance g p ≤ groupDistance g' p

/-- `inode` is what the search should return for a parent in the group `p`: a free inode of a
    nearest group, or 0 if no group has a free inode. -/
structure NearestInode (sb : Superblock) (disk : Bytes) (p inode : BitVec 32) : Prop where
  none_free : inode = 0#32 → ∀ g k, ¬ sb.FreeInode disk g k
  nearest : inode ≠ 0#32 → ∃ g k, sb.FreeInode disk g k ∧ Nearest sb disk p g ∧
    inode.toNat = g.toNat * sb.inodesPerGroup.toNat + k + 1

/-- The loop comes to group `g`: it is at a distance below the limit of the loop, and behind `p`
    only the groups before `group_cnt` are looked at. -/
def Superblock.Searched (sb : Superblock) (p g : BitVec 32) : Prop :=
  groupDistance g p < (sb.searchLimit p).toNat ∧ (g ≤ p ∨ g < sb.groupCnt)

end Muse.Ext2
