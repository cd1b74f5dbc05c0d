import Muse.Ext2.Inode
import Muse.Library.BitArray
import Muse.Library.Transition

/-!
# Bitmaps and runs of allocations

The two bitmaps of a group, as `alloc_ext2_obj` (`src/common/ext2.c`) finds them on a disk: all
numbers are the 32-bit ones that the source computes. A run is a sequence of calls of
`alloc_ext2_obj` for any groups and both kinds of objects.
-/

namespace Muse.Ext2

open Muse.Library

namespace Superblock

variable (sb : Superblock) (disk : Bytes) (g : BitVec 32) (inode : Bool)

/-- The sector of the descriptor of group `g` (`ext2.c:16-18`). -/
def descriptorLba : BitVec 32 :=
  let gdt := if sb.blockSize > 2048#32 then sb.blockSize else 2048#32
  g * 32#32 / 512#32 + gdt / 512#32

/-- The descriptor of group `g` as `group_descriptor_transfer` reads it. -/
def descriptorAt : GroupDescriptor :=
  (disk.slice (sectorSize * (sb.descriptorLba g).toNat) sectorSize).slice
    (32 * (g % 16#32).toNat) 32

/-- `unallocated_inodes` or `unallocated_blocks`. -/
def freeCount : BitVec 16 :=
  if inode then (sb.descriptorAt disk g).unallocatedInodes
  else (sb.descriptorAt disk g).unallocatedBlocks

/-- The block of a bitmap. -/
def bitmapAddr : BitVec 32 :=
  if inode then (sb.descriptorAt disk g).inodeBitmapAddr
  else (sb.descriptorAt disk g).blockBitmapAddr

/-- The first sector of a bitmap (`ext2.c:120-126`). -/
def bitmapLba : BitVec 32 := sb.blockLba (sb.bitmapAddr disk g inode)

/-- The number of bits of a bitmap. -/
def bitmapBits : Nat := 8 * sb.blockSize.toNat

/-- Where bit `k` of a bitmap is on the disk. -/
def bitPos (k : Nat) : Nat := 8 * (sectorSize * (sb.bitmapLba disk g inode).toNat) + k

/-- Bit `k` of a bitmap. -/
def objBit (k : Nat) : Bool := bitAt disk (sb.bitPos disk g inode k)

/-- The objects of a group, `inodes_per_group` or `blocks_per_group`. -/
def perGroup : BitVec 32 := if inode then sb.inodesPerGroup else sb.blocksPerGroup

/-- The number that `alloc_ext2_obj` returns for bit `k` (`ext2.c:156-164`). -/
def objNumber (k : Nat) : BitVec 32 :=
  g * sb.perGroup inode + BitVec.ofNat 32 k + (if inode then 1#32 else 0#32)

/-- `k` is the lowest clear bit of a bitmap. -/
structure LowestClear (k : Nat) : Prop where
  lt : k < sb.bitmapBits
  clear : sb.objBit disk g inode k = false
  below : ∀ q, q < k → sb.objBit disk g inode q = true

/-- The descriptor counts no object as free, or no bit of the bitmap is clear. -/
def NothingFree : Prop :=
  sb.freeCount disk g inode = 0#16 ∨ ∀ k, k < sb.bitmapBits → sb.objBit disk g inode k = true

end Superblock

/-- An image whose first `groups` groups have bitmaps in different blocks, with sector numbers that
    do not wrap around, in which the bits of objects that a group does not have are set. -/
structure BitmapImage (sb : Superblock) (groups : Nat) (disk : Bytes) : Prop where
  noWrap : ∀ g inode, g.toNat < groups →
    (sb.bitmapAddr disk g inode).toNat * sb.blockSize.toNat < 2 ^ 32
  distinct : ∀ g inode g' inode', g.toNat < groups → g'.toNat < groups →
    sb.bitmapAddr disk g inode = sb.bitmapAddr disk g' inode' → g = g' ∧ inode = inode'
  beyond : ∀ g inode k, g.toNat < groups → (sb.perGroup inode).toNat ≤ k → k < sb.bitmapBits →
    sb.objBit disk g inode k = true

/-- No bitmap lies over a descriptor. -/
def DescriptorsApart (sb : Superblock) (groups : Nat) (disk : Bytes) : Prop :=
  ∀ g g' inode, g.toNat < groups → g'.toNat < groups →
    (sb.descriptorLba g).toNat < (sb.bitmapLba disk g' inode).toNat ∨
      (sb.bitmapLba disk g' inode).toNat + sb.blockSectors.toNat ≤ (sb.descriptorLba g).toNat

/-- The numbers of all objects fit into 32 bits. -/
def NumbersFit (sb : Superblock) (groups : Nat) : Prop :=
  ∀ inode, groups * (sb.perGroup inode).toNat ≤ 2 ^ 32

/-- A device in a run of allocations, with the results of the calls so far. -/
structure AllocRun where
  bdev : Bdev
  returned : List (Bool × BitVec 32)

namespace AllocRun

/-- A call of `alloc_ext2_obj` for a group, and whether it is for an inode. -/
def step (sb : Superblock) (s : AllocRun) : BitVec 32 × Bool → Option AllocRun
  | (g, inode) =>
      let (obj, bdev) := allocExt2Obj sb s.bdev g inode
      some ⟨bdev, (inode, obj) :: s.returned⟩

/-- A device that behaves as an array of sectors, before the first call. -/
def start (disk : Bytes) : AllocRun :=
  ⟨⟨disk, fun _ => .success, 0, []⟩, []⟩

/-- What a call for one of the groups does in this state. -/
structure CallExact (sb : Superblock) (s : AllocRun) (g : BitVec 32) (inode : Bool) : Prop where
  taken : (allocExt2Obj sb s.bdev g inode).1 ≠ 0#32 →
    ∃ k, sb.LowestClear s.bdev.disk g inode k ∧
      (allocExt2Obj sb s.bdev g inode).2.disk =
        setBitAt s.bdev.disk (sb.bitPos s.bdev.disk g inode k)
  kept : sb.NothingFree s.bdev.disk g inode →
    (allocExt2Obj sb s.bdev g inode).1 = 0#32 ∧
      (allocExt2Obj sb s.bdev g inode).2.disk = s.bdev.disk

/-- Calls take the lowest clear bit and nothing else, and no object is handed out twice. -/
structure Sound (sb : Superblock) (groups : Nat) (s : AllocRun) : Prop where
  calls : ∀ g inode, g.toNat < groups → CallExact sb s g inode
  unique : s.returned.Pairwise fun a b => a.1 = b.1 → a.2 ≠ 0#32 → a.2 ≠ b.2

end AllocRun

/-! ## Counts of free objects -/

/-- The clear bits of a bitmap. -/
def Superblock.clearBits (sb : Superblock) (disk : Bytes) (g : BitVec 32) (inode : Bool) : Nat :=
  (List.range sb.bitmapBits).countP fun k => !sb.objBit disk g inode k

/-- The descriptors of the first `groups` groups count the clear bits of their bitmaps. -/
def Counted (sb : Superblock) (groups : Nat) (disk : Bytes) : Prop :=
  ∀ g inode, g.toNat < groups → (sb.freeCount disk g inode).toNat = sb.clearBits disk g inode

/-- On a device without errors, the call comes to the `THERE_ARE_FOUR_LIGHTS` of `ext2.c:169`. -/
def FourLights (sb : Superblock) (disk : Bytes) (g : BitVec 32) (inode : Bool) : Prop :=
  sb.freeCount disk g inode ≠ 0#16 ∧
    findClear (disk.slice (sectorSize * (sb.bitmapLba disk g inode).toNat) sb.blockSize.toNat) 0
      sb.blockSize.toNat = none

/-- In a sequence of calls none comes to `THERE_ARE_FOUR_LIGHTS`, and after each the counts are
    right. -/
def CountsKept (sb : Superblock) (groups : Nat) : Bdev → List (BitVec 32 × Bool) → Prop
  | _, [] => True
  | bdev, (g, inode) :: calls =>
      ¬ FourLights sb bdev.disk g inode ∧
        Counted sb groups (allocExt2Obj sb bdev g inode).2.disk ∧
        CountsKept sb groups (allocExt2Obj sb bdev g inode).2 calls

end Muse.Ext2
