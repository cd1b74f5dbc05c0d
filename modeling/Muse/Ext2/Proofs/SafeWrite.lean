import Muse.Ext2.Proofs.Alloc

/-!
# Writing a block of a file

A `DIR_WRITE` of `inode_data_transfer` should write the block it is asked for, and otherwise only
the inode's own indirect block, a block bitmap and the inode's sector. It does so when the index is
one that the inode maps and every block that has to be allocated can be.
-/

namespace Muse.Ext2

open Muse.Library

/-! ## The property -/

/-- The sectors that a write of the file's block number `idx` may reach. -/
inductive Permitted (sb : Superblock) (disk : Bytes) (i : BitVec 32) (inode : Inode) (idx : Nat)
    (r : Transferred) (s : Nat) : Prop where
  /-- The block that is mapped now, which was mapped there or free before. -/
  | data (some : sb.mapped r.bdev.disk r.inode idx ≠ 0#32)
      (mem : s / sb.sectorsPerBlock = (sb.mapped r.bdev.disk r.inode idx).toNat)
      (before : sb.mapped disk inode idx = sb.mapped r.bdev.disk r.inode idx ∨
        sb.MarkedFree disk (sb.mapped r.bdev.disk r.inode idx).toNat)
  /-- The singly indirect block. -/
  | indirect (some : r.inode.indirectBlockSingle ≠ 0#32)
      (mem : s / sb.sectorsPerBlock = r.inode.indirectBlockSingle.toNat)
  /-- The block bitmap of a group. -/
  | bitmap (g : Nat) (lt : g < sb.groups)
      (mem : s / sb.sectorsPerBlock = (sb.descriptor disk g).blockBitmapAddr.toNat)
  /-- The inode's sector of the inode table. -/
  | inode (mem : s = sb.inodeSector disk i)

/-- The call fails before it writes any of the file's data, or it writes permitted sectors only, and
    none of the boot block, the superblock and the descriptor table. -/
def WritesInside (sb : Superblock) (bdev : Bdev) (i : BitVec 32) (inode : Inode) (idx : Nat)
    (r : Transferred) : Prop :=
  ∃ new, r.bdev.written = new ++ bdev.written ∧
    ((r.err ≠ .success ∧ ∀ w ∈ new, w.source ≠ .data) ∨
      ∀ w ∈ new, ∀ s, w.Covers s → Permitted sb bdev.disk i inode idx r s ∧
        ¬ sb.Front (s / sb.sectorsPerBlock))

/-! ## When it holds -/

/-- The byte address of block `n` fits a 32-bit word. -/
def Superblock.Fits (sb : Superblock) (n : Nat) : Prop := n * sb.blockBytes < 2 ^ 32

/-- The first block of group `g` that is marked free and is not taken already. -/
structure NextFree (sb : Superblock) (disk : Bytes) (g : Nat) (taken : List Nat) (n : Nat) :
    Prop where
  free : sb.MarkedFree disk n
  group : (n - sb.firstBlock) / sb.blocksPerGroup.toNat = g
  new : n ∉ taken
  least : ∀ m < n, sb.MarkedFree disk m → (m - sb.firstBlock) / sb.blocksPerGroup.toNat = g →
    m ∈ taken

/-- With the transfers from number `t` on, `alloc_ext2_obj` finds that block `n` of group `g` is the
    next free one. -/
structure Available (sb : Superblock) (bdev : Bdev) (g : Nat) (taken : List Nat) (t n : Nat) :
    Prop where
  group : g < sb.groups
  count : (sb.descriptor bdev.disk g).unallocatedBlocks ≠ 0#16
  bitmap : sb.Fits (sb.descriptor bdev.disk g).blockBitmapAddr.toNat
  ok : ∀ k < 4, bdev.result (t + k) = .success
  next : NextFree sb bdev.disk g taken n

/-- `alloc_ext2_obj` can take block `n`. Its numbers are those of the blocks only if the first group
    starts with block 0, that is, if a block has more than 1024 bytes. -/
structure CanAllocate (sb : Superblock) (bdev : Bdev) (g : Nat) (taken : List Nat) (t n : Nat) :
    Prop extends Available sb bdev g taken t n where
  large : sb.blockSizeLog ≠ 0#32
  fits : sb.Fits n

/-- After the transfer number `t` of the data, `inode_transfer` can write the inode back. -/
def CanWriteBack (sb : Superblock) (bdev : Bdev) (i : BitVec 32) (t : Nat) : Prop :=
  (∀ k < 3, bdev.result (t + k) = .success) →
    sb.inodeBytes.toNat ≤ 512 ∧
    sb.Fits (sb.descriptor bdev.disk ((i.toNat - 1) / sb.inodesPerGroup.toNat)).inodeTable.toNat

/-- The writes that stay inside, by the way the block is found. -/
inductive SafeWrite (sb : Superblock) (bdev : Bdev) (i : BitVec 32) (inode : Inode) (idx : Nat) :
    Prop where
  /-- A direct block that is there. -/
  | direct (lt : idx < 12) (block : inode.directBlock idx ≠ 0#32)
      (fits : sb.Fits (inode.directBlock idx).toNat)
  /-- A direct block that is allocated. -/
  | directNew (n : Nat) (lt : idx < 12) (block : inode.directBlock idx = 0#32)
      (alloc : CanAllocate sb bdev inode.groupId.toNat [] bdev.transfers n)
      (back : CanWriteBack sb bdev i (bdev.transfers + 4))
  /-- The indirect block is there and cannot be read. -/
  | unread (ge : 12 ≤ idx) (lt : idx < 12 + sb.entriesPerBlock)
      (block : inode.indirectBlockSingle ≠ 0#32) (failed : bdev.next ≠ .success)
  /-- A block that the indirect block maps. -/
  | indirect (ge : 12 ≤ idx) (lt : idx < 12 + sb.entriesPerBlock)
      (block : inode.indirectBlockSingle ≠ 0#32) (ok : bdev.next = .success)
      (fits : sb.Fits inode.indirectBlockSingle.toNat)
      (entry : sb.mapped bdev.disk inode idx ≠ 0#32)
      (entryFits : sb.Fits (sb.mapped bdev.disk inode idx).toNat)
  /-- A block that is allocated and entered in the indirect block. -/
  | indirectNew (n : Nat) (ge : 12 ≤ idx) (lt : idx < 12 + sb.entriesPerBlock)
      (block : inode.indirectBlockSingle ≠ 0#32) (ok : bdev.next = .success)
      (fits : sb.Fits inode.indirectBlockSingle.toNat)
      (entry : sb.mapped bdev.disk inode idx = 0#32)
      (alloc : CanAllocate sb bdev inode.groupId.toNat [] (bdev.transfers + 1) n)
      (entered : bdev.result (bdev.transfers + 5) = .success)
  /-- The indirect block is allocated and cannot be read. -/
  | bothUnread (n : Nat) (ge : 12 ≤ idx) (lt : idx < 12 + sb.entriesPerBlock)
      (block : inode.indirectBlockSingle = 0#32)
      (alloc : CanAllocate sb bdev inode.groupId.toNat [] bdev.transfers n)
      (failed : bdev.result (bdev.transfers + 4) ≠ .success)
  /-- Both blocks are allocated. The new indirect block is not cleared, so what it held before has
      to be zero at the entry. -/
  | bothNew (n m : Nat) (ge : 12 ≤ idx) (lt : idx < 12 + sb.entriesPerBlock)
      (block : inode.indirectBlockSingle = 0#32)
      (alloc : CanAllocate sb bdev inode.groupId.toNat [] bdev.transfers n)
      (ok : bdev.result (bdev.transfers + 4) = .success)
      (stale : bdev.disk.word32 (n * sb.blockBytes + 4 * (idx - 12)) = 0#32)
      (alloc' : CanAllocate sb bdev inode.groupId.toNat [n] (bdev.transfers + 5) m)
      (entered : bdev.result (bdev.transfers + 9) = .success)
      (back : CanWriteBack sb bdev i (bdev.transfers + 10))

/-- `alloc_ext2_obj` finds nothing in the group, or in what stands where the descriptor of a group
    would be that there is not. -/
def Full (sb : Superblock) (disk : Bytes) (g : Nat) : Prop :=
  (sb.descriptor disk g).unallocatedBlocks = 0#16 ∨
    sb.Fits (sb.descriptor disk g).blockBitmapAddr.toNat ∧
      ∀ k < 8 * sb.blockBytes, sb.blockBit disk g k = true

/-- Writes that go wrong on a device without errors. -/
inductive UnsafeWrite (sb : Superblock) (bdev : Bdev) (inode : Inode) (idx : Nat) : Prop where
  /-- An index past the singly indirect block. -/
  | past (ge : 12 + sb.entriesPerBlock ≤ idx)
  /-- A direct block that cannot be allocated. -/
  | directFull (lt : idx < 12) (block : inode.directBlock idx = 0#32)
      (full : Full sb bdev.disk inode.groupId.toNat)
  /-- A direct block that is allocated among blocks of 1024 bytes: the block before the free one is
      taken. -/
  | directShifted (n : Nat) (lt : idx < 12) (block : inode.directBlock idx = 0#32)
      (small : sb.blockSizeLog = 0#32)
      (available : Available sb bdev inode.groupId.toNat [] bdev.transfers (n + 1))
      (inner : n % sb.blocksPerGroup.toNat ≠ 0) (fits : sb.Fits n)
      (indirect : n ≠ inode.indirectBlockSingle.toNat)
      (bitmaps : ∀ g < sb.groups, n ≠ (sb.descriptor bdev.disk g).blockBitmapAddr.toNat)
  /-- A block that the indirect block does not map and that cannot be allocated. -/
  | indirectFull (ge : 12 ≤ idx) (lt : idx < 12 + sb.entriesPerBlock)
      (block : inode.indirectBlockSingle ≠ 0#32)
      (fits : sb.Fits inode.indirectBlockSingle.toNat)
      (entry : sb.mapped bdev.disk inode idx = 0#32)
      (full : Full sb bdev.disk inode.groupId.toNat)
  /-- Neither the indirect block nor the block can be allocated, and block 0 has no entry for it. -/
  | bothFull (ge : 12 ≤ idx) (lt : idx < 12 + sb.entriesPerBlock)
      (block : inode.indirectBlockSingle = 0#32)
      (entry : bdev.disk.word32 (4 * (idx - 12)) = 0#32)
      (full : Full sb bdev.disk inode.groupId.toNat)

/-! ## Allocation -/

section Allocation

variable {sb : Superblock} {bdev : Bdev} {g t n : Nat} {taken : List Nat}

/-- Only blocks of 1024 bytes have a boot block of their own. -/
theorem Geometry.firstBlock_eq_zero (hg : Geometry sb) (h : sb.blockSizeLog ≠ 0#32) :
    sb.firstBlock = 0 := by
  rw [hg.first, if_neg]
  intro h0
  exact h (BitVec.eq_of_toNat_eq (by simpa using h0))

/-- A clear bit of a group's bitmap is that of a free block of the group. -/
theorem Consistent.markedFree_of_clear (hc : Consistent sb bdev.disk) (hg : g < sb.groups)
    {k : Nat} (hk : k < 8 * sb.blockBytes) (hclear : sb.blockBit bdev.disk g k = false) :
    (sb.firstBlock + g * sb.blocksPerGroup.toNat + k - sb.firstBlock) / sb.blocksPerGroup.toNat =
        g ∧
      sb.MarkedFree bdev.disk (sb.firstBlock + g * sb.blocksPerGroup.toNat + k) := by
  have hnot : ¬ (sb.blocksPerGroup.toNat ≤ k ∨
      sb.totalBlocks.toNat ≤ sb.firstBlock + g * sb.blocksPerGroup.toNat + k) := by
    intro hpad
    rw [hc.padding g hg k hk hpad] at hclear
    cases hclear
  have hlt : k < sb.blocksPerGroup.toNat := by omega
  have hsub : sb.firstBlock + g * sb.blocksPerGroup.toNat + k - sb.firstBlock =
      sb.blocksPerGroup.toNat * g + k := by
    rw [Nat.add_assoc, Nat.add_sub_cancel_left, Nat.mul_comm]
  have hdiv : (sb.blocksPerGroup.toNat * g + k) / sb.blocksPerGroup.toNat = g := by
    rw [Nat.mul_add_div hc.blocks_pos, Nat.div_eq_of_lt hlt, Nat.add_zero]
  have hmod : (sb.blocksPerGroup.toNat * g + k) % sb.blocksPerGroup.toNat = k := by
    rw [Nat.mul_add_mod, Nat.mod_eq_of_lt hlt]
  refine ⟨by rw [hsub, hdiv], by omega, by omega, ?_⟩
  rw [hsub, hdiv, hmod]
  exact hclear

/-- A block is its group's first block and its number in the group. -/
theorem NextFree.number {disk : Bytes} (h : NextFree sb disk g taken n) :
    n = sb.firstBlock + g * sb.blocksPerGroup.toNat +
      (n - sb.firstBlock) % sb.blocksPerGroup.toNat := by
  have hdiv := Nat.div_add_mod (n - sb.firstBlock) sb.blocksPerGroup.toNat
  rw [h.group, Nat.mul_comm] at hdiv
  have := h.free.1
  omega

/-- The bit that is set is that of the next free block, also when some of the group's blocks have
    been taken since. -/
theorem Available.alloc (h : Available sb bdev g taken t n) (hc : Consistent sb bdev.disk)
    (b : Bdev) {gw : BitVec 32} (hgw : gw.toNat = g) (hres : b.result = bdev.result)
    (ht : b.transfers = t) (hd : sb.descriptor b.disk g = sb.descriptor bdev.disk g)
    (hbits : ∀ q < 8 * sb.blockBytes, sb.blockBit b.disk g q = false ↔
      sb.blockBit bdev.disk g q = false ∧
        sb.firstBlock + g * sb.blocksPerGroup.toNat + q ∉ taken) :
    allocExt2Obj sb b gw false =
      (BitVec.ofNat 32 (n - sb.firstBlock),
        allocated sb b (sb.descriptor bdev.disk g).blockBitmapAddr.toNat
          ((n - sb.firstBlock) % sb.blocksPerGroup.toNat)) := by
  have hlt := hc.descriptors_lt
  have hgroup := h.group
  have hn := h.next.number
  set k0 := (n - sb.firstBlock) % sb.blocksPerGroup.toNat with hk0
  have hk0lt : k0 < 8 * sb.blockBytes :=
    Nat.lt_of_lt_of_le (Nat.mod_lt _ hc.blocks_pos) hc.blocks_le
  have hfree : sb.blockBit bdev.disk g k0 = false := by
    have := h.next.free.2.2
    rwa [h.next.group] at this
  have hclear : sb.blockBit b.disk g k0 = false :=
    (hbits _ hk0lt).mpr ⟨hfree, by rw [← hn]; exact h.next.new⟩
  subst hgw
  obtain ⟨k, hk, hkclear, hlow, halloc⟩ := allocExt2Obj_block hc.toGeometry (by omega)
    (by rw [hres, ht]; exact h.ok) (by rw [hd]; exact h.count) (by rw [hd]; exact h.bitmap)
    hk0lt hclear
  -- the bits below that of `n` are set, or taken
  have hkn : k = k0 := by
    rcases Nat.lt_trichotomy k k0 with hlt' | heq | hgt
    · obtain ⟨hkfree, hktaken⟩ := (hbits k hk).mp hkclear
      obtain ⟨hdiv, hmf⟩ := hc.markedFree_of_clear hgroup hk hkfree
      exact absurd (h.next.least _ (by omega) hmf hdiv) hktaken
    · exact heq
    · rw [hlow _ hgt] at hclear
      cases hclear
  have hsub : n - sb.firstBlock = gw.toNat * sb.blocksPerGroup.toNat + k0 := by omega
  rw [halloc, hd, hkn, hsub]
  congr 1
  apply BitVec.eq_of_toNat_eq
  rw [BitVec.toNat_add, BitVec.toNat_mul, BitVec.toNat_ofNat, BitVec.toNat_ofNat, ← Nat.add_mod]

/-- The block that is taken is the next free one. -/
theorem CanAllocate.alloc_block (h : CanAllocate sb bdev g taken t n)
    (hc : Consistent sb bdev.disk) (b : Bdev) {gw : BitVec 32} (hgw : gw.toNat = g)
    (hres : b.result = bdev.result) (ht : b.transfers = t)
    (hd : sb.descriptor b.disk g = sb.descriptor bdev.disk g)
    (hbits : ∀ q < 8 * sb.blockBytes, sb.blockBit b.disk g q = false ↔
      sb.blockBit bdev.disk g q = false ∧
        sb.firstBlock + g * sb.blocksPerGroup.toNat + q ∉ taken) :
    allocExt2Obj sb b gw false =
      (BitVec.ofNat 32 n, allocated sb b (sb.descriptor bdev.disk g).blockBitmapAddr.toNat
        ((n - sb.firstBlock) % sb.blocksPerGroup.toNat)) := by
  rw [h.alloc hc b hgw hres ht hd hbits, hc.firstBlock_eq_zero h.large, Nat.sub_zero]

end Allocation

/-! ## Writing the inode back -/

section WriteBack

variable {sb : Superblock} {bdev : Bdev} {i : BitVec 32}

/-- The transfer that writes the inode's sector. -/
def inodeWrite (sb : Superblock) (disk : Bytes) (i : BitVec 32) : Write :=
  ⟨.inodes, sb.inodeSector disk i, 1⟩

/-- The group of an inode number is one of the image's. -/
theorem Geometry.inode_group_lt (hg : Geometry sb) (hpos : 0 < i.toNat)
    (hle : i.toNat ≤ sb.groups * sb.inodesPerGroup.toNat) :
    (i.toNat - 1) / sb.inodesPerGroup.toNat < sb.groups := by
  rw [Nat.div_lt_iff_lt_mul hg.inodes_pos]
  omega

/-- The sector that `inode_transfer` computes. -/
theorem Geometry.inode_lba (hg : Geometry sb) {disk : Bytes} (hpos : 0 < i.toNat)
    (hsize : sb.inodeBytes.toNat ≤ 512)
    (hfits : sb.Fits
      (sb.descriptor disk ((i.toNat - 1) / sb.inodesPerGroup.toNat)).inodeTable.toNat) :
    ((i - 1#32) % sb.inodesPerGroup * sb.inodeBytes / 512#32 +
      sb.blockLba (sb.descriptor disk ((i.toNat - 1) / sb.inodesPerGroup.toNat)).inodeTable).toNat =
      sb.inodeSector disk i := by
  have hspb := hg.sectorsPerBlock_bounds
  have hsub : (i - 1#32).toNat = i.toNat - 1 := by
    rw [BitVec.toNat_sub_of_le (by rw [BitVec.le_def]; exact hpos), BitVec.toNat_ofNat]
  have hidx : (i.toNat - 1) % sb.inodesPerGroup.toNat < 2 ^ 19 := by
    have := Nat.mod_lt (i.toNat - 1) hg.inodes_pos
    have := hg.inodes_le
    rw [Superblock.blockBytes_eq] at this
    omega
  have hprod : (i.toNat - 1) % sb.inodesPerGroup.toNat * sb.inodeBytes.toNat < 2 ^ 19 * 513 :=
    Nat.mul_lt_mul_of_lt_of_le hidx (by omega) (by decide)
  have htable := hg.blockLba_toNat hfits
  rw [Superblock.Fits, Superblock.blockBytes_eq, Nat.mul_left_comm] at hfits
  rw [BitVec.toNat_add, htable, BitVec.toNat_udiv, BitVec.toNat_mul, BitVec.toNat_umod, hsub,
    Superblock.inodeSector]
  simp only [BitVec.toNat_ofNat, Nat.reducePow, Nat.reduceMod]
  omega

theorem Geometry.inodesPerGroup_ne_zero (hg : Geometry sb) : sb.inodesPerGroup ≠ 0#32 := by
  intro h0
  have := hg.inodes_pos
  rw [h0] at this
  simp at this

/-- The group that `inode_transfer` computes. -/
theorem inode_group_toNat (hpos : 0 < i.toNat) :
    ((i - 1#32) / sb.inodesPerGroup).toNat = (i.toNat - 1) / sb.inodesPerGroup.toNat := by
  rw [BitVec.toNat_udiv, BitVec.toNat_sub_of_le (by rw [BitVec.le_def]; exact hpos),
    BitVec.toNat_ofNat]

/-- `inode_transfer` does not fault when an inode fits a sector. -/
theorem Geometry.inode_divides (hg : Geometry sb) (hsize : sb.inodeBytes.toNat ≤ 512) :
    ¬ (sb.inodeBytes = 0#32 ∨ 512#32 / sb.inodeBytes = 0#32) := by
  have hge := hg.inode_ge
  rintro (h0 | h0)
  · rw [h0] at hge
    simp at hge
  · have := congrArg BitVec.toNat h0
    rw [BitVec.toNat_udiv] at this
    simp only [BitVec.toNat_ofNat, Nat.reducePow, Nat.reduceMod, Nat.zero_mod,
      Nat.div_eq_zero_iff] at this
    omega

/-- Writing the inode back writes its sector, or nothing when a transfer fails. -/
theorem inodeTransfer_write (hg : Geometry sb) (bdev : Bdev) (hpos : 0 < i.toNat)
    (hle : i.toNat ≤ sb.groups * sb.inodesPerGroup.toNat)
    (hback : bdev.next = .success → bdev.tick.next = .success →
      sb.inodeBytes.toNat ≤ 512 ∧ sb.Fits
        (sb.descriptor bdev.disk ((i.toNat - 1) / sb.inodesPerGroup.toNat)).inodeTable.toNat)
    (inode : Inode) :
    ∃ err b back, inodeTransfer sb bdev i inode .write = some (err, inode, b) ∧
      b.written = back ++ bdev.written ∧ (∀ w ∈ back, w = inodeWrite sb bdev.disk i) ∧
      ∀ a, a / 512 ≠ sb.inodeSector bdev.disk i → b.disk a = bdev.disk a := by
  have hgroup := hg.inode_group_lt hpos hle
  have hlt := hg.descriptors_lt
  have hdiv : ((i - 1#32) / sb.inodesPerGroup).toNat =
      (i.toNat - 1) / sb.inodesPerGroup.toNat := inode_group_toNat hpos
  unfold inodeTransfer
  rw [if_neg hg.inodesPerGroup_ne_zero]
  by_cases ok0 : bdev.next = .success
  · have hread := groupDescriptorTransfer_read hg ((i - 1#32) / sb.inodesPerGroup)
      (by rw [hdiv]; omega) ok0 fresh
    rw [hdiv] at hread
    by_cases ok1 : bdev.tick.next = .success
    · obtain ⟨hsize, hfits⟩ := hback ok0 ok1
      have hnz := hg.inode_divides hsize
      simp only [hread, ne_eq, not_true_eq_false, if_false, Bdev.read_fresh ok1, if_neg hnz]
      by_cases ok2 : bdev.tick.tick.next = .success
      · simp only [Bdev.write_ok ok2]
        refine ⟨_, _, [inodeWrite sb bdev.disk i], rfl, ?_, by simp, ?_⟩
        · simp only [Bdev.wrote, hg.inode_lba hpos hsize hfits]
          rfl
        · intro a ha
          simp only [Bdev.wrote, hg.inode_lba hpos hsize hfits]
          refine Bytes.splice_of_not_mem ?_
          simp only [sectorSize, BitVec.toNat_ofNat, Nat.reducePow, Nat.reduceMod]
          omega
      · simp only [Bdev.write_failed ok2]
        exact ⟨_, _, [], rfl, rfl, by simp, fun _ _ => rfl⟩
    · simp only [hread, ne_eq, not_true_eq_false, if_false, Bdev.read_failed ok1, ok1,
        not_false_eq_true, if_true]
      exact ⟨_, _, [], rfl, rfl, by simp, fun _ _ => rfl⟩
  · simp only [groupDescriptorTransfer_failed ok0, ne_eq, ok0, not_false_eq_true, if_true]
    exact ⟨_, _, [], rfl, rfl, by simp, fun _ _ => rfl⟩

/-- The inode's sector is one of its group's inode table. -/
theorem Geometry.inodeSector_mem (hg : Geometry sb) (disk : Bytes) (hpos : 0 < i.toNat)
    (hle : i.toNat ≤ sb.groups * sb.inodesPerGroup.toNat) :
    Region.Holds sb disk (sb.inodeSector disk i / sb.sectorsPerBlock)
      (.inodeTable ((i.toNat - 1) / sb.inodesPerGroup.toNat)) := by
  have hspb := hg.sectorsPerBlock_bounds
  have hbytes := hg.blockBytes_pos
  have hidx := Nat.mod_lt (i.toNat - 1) hg.inodes_pos
  have hlt : (i.toNat - 1) % sb.inodesPerGroup.toNat * sb.inodeBytes.toNat <
      sb.inodesPerGroup.toNat * sb.inodeBytes.toNat :=
    Nat.mul_lt_mul_of_pos_right hidx (by have := hg.inode_ge; omega)
  have hblock : sb.inodeSector disk i / sb.sectorsPerBlock =
      (sb.descriptor disk ((i.toNat - 1) / sb.inodesPerGroup.toNat)).inodeTable.toNat +
        (i.toNat - 1) % sb.inodesPerGroup.toNat * sb.inodeBytes.toNat / sb.blockBytes := by
    rw [Superblock.inodeSector, Nat.mul_comm _ sb.sectorsPerBlock, Nat.mul_add_div (by omega),
      Nat.div_div_eq_div_mul, ← Superblock.blockBytes_eq]
  have hin : (i.toNat - 1) % sb.inodesPerGroup.toNat * sb.inodeBytes.toNat / sb.blockBytes <
      sb.inodeTableBlocks := by
    rw [Superblock.inodeTableBlocks, Nat.div_lt_iff_lt_mul hbytes]
    have := Nat.lt_div_mul_add
      (a := sb.inodesPerGroup.toNat * sb.inodeBytes.toNat + sb.blockBytes - 1) hbytes
    omega
  rw [hblock]
  exact ⟨hg.inode_group_lt hpos hle, Nat.le_add_right _ _, Nat.add_lt_add_left hin _⟩

/-- The block of a byte is that of its sector. -/
theorem block_of_sector (a : Nat) : a / 512 / sb.sectorsPerBlock = a / sb.blockBytes := by
  rw [Nat.div_div_eq_div_mul, ← Superblock.blockBytes_eq]

theorem CanWriteBack.congr {b : Bdev} {t : Nat} (h : CanWriteBack sb bdev i t)
    (hres : b.result = bdev.result) (ht : b.transfers = t)
    (hd : sb.descriptor b.disk ((i.toNat - 1) / sb.inodesPerGroup.toNat) =
      sb.descriptor bdev.disk ((i.toNat - 1) / sb.inodesPerGroup.toNat)) :
    CanWriteBack sb b i b.transfers := by
  intro hok
  rw [hd]
  exact h (by rw [← hres, ← ht]; exact hok)

/-- The end of `inode_data_transfer`: the data is written, and then the inode's sector, or the data
    is not written and the call fails. -/
theorem transferBlock_write (hg : Geometry sb) (hpos : 0 < i.toNat)
    (hle : i.toNat ≤ sb.groups * sb.inodesPerGroup.toNat) {block : BitVec 32}
    (hfits : sb.Fits block.toNat) (hfront : ¬ sb.Front block.toNat)
    {writeInode : Bool} (hback : writeInode = true → CanWriteBack sb bdev i bdev.transfers)
    (inode : Inode) (data : Bytes) :
    ∃ r, transferBlock sb bdev i inode (sb.blockLba block) writeInode data .write = some r ∧
      r.inode = inode ∧
      ((r.err ≠ .success ∧ r.bdev.written = bdev.written) ∨
        ∃ back, r.bdev.written =
            back ++ ⟨.data, block.toNat * sb.sectorsPerBlock, sb.sectorsPerBlock⟩ ::
              bdev.written ∧
          (∀ w ∈ back, w = inodeWrite sb bdev.disk i) ∧
          ∀ a, a / sb.blockBytes ≠ block.toNat →
            (∀ g, ¬ Region.Holds sb bdev.disk (a / sb.blockBytes) (.inodeTable g)) →
            r.bdev.disk a = bdev.disk a) := by
  unfold transferBlock
  by_cases ok : bdev.next = .success
  · have hwrote := wrote_block hg.log_le bdev .data hfits data
    set b := bdev.wrote .data (sb.blockLba block) sb.blockSectors data with hb
    have hdisk : ∀ a, a / sb.blockBytes ≠ block.toNat → b.disk a = bdev.disk a := by
      intro a ha
      rw [hwrote]
      exact splice_block_of_ne data ha
    have hdesc : ∀ g < sb.groups, sb.descriptor b.disk g = sb.descriptor bdev.disk g := by
      intro g hlt
      refine hg.descriptor_congr hlt fun a ha => hdisk a ?_
      intro heq
      rw [heq] at ha
      exact hfront ha
    have hwritten : b.written =
        ⟨.data, block.toNat * sb.sectorsPerBlock, sb.sectorsPerBlock⟩ :: bdev.written := by
      rw [hwrote]
    simp only [Bdev.write_ok ok, ne_eq, not_true_eq_false, if_false, ← hb]
    cases writeInode with
    | false =>
        refine ⟨_, rfl, rfl, Or.inr ⟨[], ?_, by simp, fun a ha _ => hdisk a ha⟩⟩
        rw [List.nil_append]
        exact hwritten
    | true =>
        have hgroup := hg.inode_group_lt hpos hle
        have hsector : sb.inodeSector b.disk i = sb.inodeSector bdev.disk i := by
          rw [Superblock.inodeSector, Superblock.inodeSector, hdesc _ hgroup]
        obtain ⟨err, b', back, hrun, hw, hback', hframe⟩ :=
          inodeTransfer_write hg b hpos hle (fun ok1 ok2 => by
            rw [hdesc _ hgroup]
            refine hback rfl fun k hk => ?_
            rw [hwrote] at ok1 ok2
            interval_cases k
            · exact ok
            · exact ok1
            · exact ok2) inode
        refine ⟨⟨err, inode, data, b'⟩, by simp only [if_true, hrun, Option.map_some], rfl,
          Or.inr ⟨back, ?_, ?_, ?_⟩⟩
        · rw [← hwritten]
          exact hw
        · intro w hw'
          rw [hback' w hw', inodeWrite, inodeWrite, hsector]
        · intro a ha htable
          refine (hframe a ?_).trans (hdisk a ha)
          intro heq
          refine htable ((i.toNat - 1) / sb.inodesPerGroup.toNat) ?_
          rw [← block_of_sector, heq, hsector]
          exact hg.inodeSector_mem bdev.disk hpos hle
  · simp only [Bdev.write_failed ok, ne_eq, ok, not_false_eq_true, if_true]
    exact ⟨_, rfl, rfl, Or.inl ⟨ok, rfl⟩⟩

end WriteBack

/-! ## Staying inside -/

section Inside

variable {sb : Superblock} {bdev b : Bdev} {i : BitVec 32} {inode inode' : Inode} {idx : Nat}

/-- The sectors of a block. -/
theorem block_of_covers (hg : Geometry sb) {source : Source} {n s : Nat}
    (h : Write.Covers ⟨source, n * sb.sectorsPerBlock, sb.sectorsPerBlock⟩ s) :
    s / sb.sectorsPerBlock = n := by
  obtain ⟨hlo, hhi⟩ := h
  have := hg.sectorsPerBlock_bounds
  exact Nat.div_eq_of_lt_le hlo (by rw [Nat.add_mul n 1, Nat.one_mul]; exact hhi)

/-- A block that is free holds no metadata. -/
theorem Consistent.not_holds_of_free (hc : Consistent sb bdev.disk) {n : Nat}
    (h : sb.MarkedFree bdev.disk n) (r : Region) : ¬ Region.Holds sb bdev.disk n r :=
  fun hr => (hc.used r n hr).2 h

/-- Permitted sectors are not in front of the groups' data, if a new indirect block was free. -/
theorem Permitted.not_front {r : Transferred} {s : Nat}
    (h : Permitted sb bdev.disk i inode idx r s) (hc : Consistent sb bdev.disk)
    (hf : HasFile sb bdev.disk i inode) (hidx : idx < 12 + sb.entriesPerBlock)
    (hind : r.inode.indirectBlockSingle = inode.indirectBlockSingle ∨
      sb.MarkedFree bdev.disk r.inode.indirectBlockSingle.toNat) :
    ¬ sb.Front (s / sb.sectorsPerBlock) := by
  intro hfront
  cases h with
  | data some mem before =>
      rw [mem] at hfront
      rcases before with heq | hfree
      · rw [← heq] at hfront some
        exact (hf.mapped idx hidx some).2.2.2 .front hfront
      · exact hc.not_holds_of_free hfree .front hfront
  | indirect some mem =>
      rw [mem] at hfront
      rcases hind with heq | hfree
      · rw [heq] at hfront some
        exact (hf.indirect some).2.2 .front hfront
      · exact hc.not_holds_of_free hfree .front hfront
  | bitmap g lt mem =>
      cases hc.apart .front (.blockBitmap g) _ hfront ⟨lt, mem⟩
  | inode mem =>
      rw [mem] at hfront
      cases hc.apart .front _ _ hfront (hc.inodeSector_mem bdev.disk hf.pos hf.le)

/-- What the metadata writes before the data may reach. -/
def MetaWrite (sb : Superblock) (disk : Bytes) (inode : Inode) (w : Write) : Prop :=
  w.source ≠ .data ∧ ∀ s, w.Covers s →
    (∃ g < sb.groups, s / sb.sectorsPerBlock = (sb.descriptor disk g).blockBitmapAddr.toNat) ∨
    (inode.indirectBlockSingle ≠ 0#32 ∧
      s / sb.sectorsPerBlock = inode.indirectBlockSingle.toNat)

/-- The end of the call, when the block and the metadata written before are right. -/
theorem transferBlock_inside (hc : Consistent sb bdev.disk) (hf : HasFile sb bdev.disk i inode)
    (hidx : idx < 12 + sb.entriesPerBlock) (before : List Write)
    (hw : b.written = before ++ bdev.written)
    (hbefore : ∀ w ∈ before, MetaWrite sb bdev.disk inode' w)
    (hdesc : ∀ g < sb.groups, sb.descriptor b.disk g = sb.descriptor bdev.disk g)
    (hind : inode'.indirectBlockSingle = inode.indirectBlockSingle ∨
      sb.MarkedFree bdev.disk inode'.indirectBlockSingle.toNat)
    {block : BitVec 32} (hnz : block ≠ 0#32) (hfits : sb.Fits block.toNat)
    (hold : sb.mapped bdev.disk inode idx = block ∨ sb.MarkedFree bdev.disk block.toNat)
    (hmap : ∀ disk', (∀ a, a / sb.blockBytes ≠ block.toNat →
        (∀ g, ¬ Region.Holds sb bdev.disk (a / sb.blockBytes) (.inodeTable g)) →
        disk' a = b.disk a) → sb.mapped disk' inode' idx = block)
    {writeInode : Bool} (hback : writeInode = true → CanWriteBack sb b i b.transfers)
    (data : Bytes) :
    ∃ r, transferBlock sb b i inode' (sb.blockLba block) writeInode data .write = some r ∧
      WritesInside sb bdev i inode idx r := by
  have hfront : ¬ sb.Front block.toNat := by
    rcases hold with heq | hfree
    · rw [← heq] at hnz ⊢
      exact (hf.mapped idx hidx hnz).2.2.2 .front
    · exact hc.not_holds_of_free hfree .front
  obtain ⟨r, hrun, hinode, hcase⟩ :=
    transferBlock_write hc.toGeometry hf.pos hf.le hfits hfront hback inode' data
  refine ⟨r, hrun, ?_⟩
  rcases hcase with ⟨herr, hwritten⟩ | ⟨back, hwritten, hbackw, hframe⟩
  · exact ⟨before, by rw [hwritten, hw], Or.inl ⟨herr, fun w hw' => (hbefore w hw').1⟩⟩
  · have hsector : sb.inodeSector b.disk i = sb.inodeSector bdev.disk i := by
      rw [Superblock.inodeSector, Superblock.inodeSector,
        hdesc _ (hc.inode_group_lt hf.pos hf.le)]
    have hmapped : sb.mapped r.bdev.disk r.inode idx = block := by
      rw [hinode]
      refine hmap _ fun a ha htable => hframe a ha fun g hg => ?_
      obtain ⟨hlt, hmem⟩ := hg
      rw [hdesc g hlt] at hmem
      exact htable g ⟨hlt, hmem⟩
    refine ⟨back ++ ⟨.data, block.toNat * sb.sectorsPerBlock, sb.sectorsPerBlock⟩ :: before, ?_,
      Or.inr fun w hw' s hs => ?_⟩
    · rw [hwritten, hw, List.append_assoc, List.cons_append]
    · have hperm : Permitted sb bdev.disk i inode idx r s := by
        rcases List.mem_append.mp hw' with hw' | hw'
        · rw [hbackw w hw', inodeWrite, hsector] at hs
          exact .inode (by obtain ⟨hlo, hhi⟩ := hs; simp only at hlo hhi; omega)
        · rcases List.mem_cons.mp hw' with rfl | hw'
          · have hs' := block_of_covers hc.toGeometry hs
            exact .data (by rw [hmapped]; exact hnz) (by rw [hmapped]; exact hs')
              (by rw [hmapped]; exact hold)
          · rcases (hbefore w hw').2 s hs with ⟨g, hlt, hmem⟩ | ⟨hne, hmem⟩
            · exact .bitmap g hlt hmem
            · exact .indirect (by rw [hinode]; exact hne) (by rw [hinode]; exact hmem)
      exact ⟨hperm, hperm.not_front hc hf hidx (by rw [hinode]; exact hind)⟩

/-- A write to a block that is not in front leaves the descriptors as they are. -/
theorem Geometry.descriptor_splice (hg : Geometry sb) {disk : Bytes} {n g : Nat}
    (hn : ¬ sb.Front n) (hlt : g < sb.groups) (buf : Bytes) :
    sb.descriptor (disk.splice (n * sb.blockBytes) sb.blockBytes buf) g = sb.descriptor disk g := by
  refine hg.descriptor_congr hlt fun a ha => splice_block_of_ne buf fun heq => ?_
  rw [heq] at ha
  exact hn ha

namespace Available

variable {g t n : Nat} {taken : List Nat}

theorem toNat_block (h : Available sb bdev g taken t n) : (BitVec.ofNat 32 n).toNat = n := by
  have := h.next.free.2.1
  have := sb.totalBlocks.isLt
  rw [BitVec.toNat_ofNat, Nat.mod_eq_of_lt (by omega)]

theorem block_ne_zero (h : Available sb bdev g taken t n) (hc : Consistent sb bdev.disk) :
    BitVec.ofNat 32 n ≠ 0#32 := by
  intro h0
  have hn := h.toNat_block
  rw [h0] at hn
  have hfree := h.next.free
  rw [← hn] at hfree
  exact hc.not_holds_of_free hfree .front (by simp [Region.Holds, Superblock.Front])

/-- The bitmap that is written is the group's. -/
theorem metaWrite (h : Available sb bdev g taken t n) (hc : Consistent sb bdev.disk)
    (inode : Inode) : MetaWrite sb bdev.disk inode
      ⟨.bitmap, (sb.descriptor bdev.disk g).blockBitmapAddr.toNat * sb.sectorsPerBlock,
        sb.sectorsPerBlock⟩ :=
  ⟨by simp, fun _ hs => Or.inl ⟨g, h.group, block_of_covers hc.toGeometry hs⟩⟩

theorem bitmap_not_front (h : Available sb bdev g taken t n) (hc : Consistent sb bdev.disk) :
    ¬ sb.Front (sb.descriptor bdev.disk g).blockBitmapAddr.toNat := by
  intro hfront
  cases hc.apart .front (.blockBitmap g) _ hfront ⟨h.group, rfl⟩

/-- Setting a bit of the bitmap leaves the descriptors as they are. -/
theorem descriptor_allocated (h : Available sb bdev g taken t n) (hc : Consistent sb bdev.disk)
    (b : Bdev) (k : Nat) {g' : Nat} (hlt : g' < sb.groups) :
    sb.descriptor
      (allocated sb b (sb.descriptor bdev.disk g).blockBitmapAddr.toNat k).disk g' =
        sb.descriptor b.disk g' :=
  hc.descriptor_splice (h.bitmap_not_front hc) hlt _

theorem bitmap_ne_of_free (h : Available sb bdev g taken t n) (hc : Consistent sb bdev.disk)
    {m : Nat} (hm : sb.MarkedFree bdev.disk m) :
    m ≠ (sb.descriptor bdev.disk g).blockBitmapAddr.toNat := by
  rintro rfl
  exact hc.not_holds_of_free hm (.blockBitmap g) ⟨h.group, rfl⟩

end Available

variable (data : Bytes)

theorem inside_direct (hc : Consistent sb bdev.disk) (hf : HasFile sb bdev.disk i inode)
    (hlt : idx < 12) (hblock : inode.directBlock idx ≠ 0#32)
    (hfits : sb.Fits (inode.directBlock idx).toNat) :
    ∃ r, transferBlock sb bdev i inode (sb.blockLba (inode.directBlock idx)) false data .write =
      some r ∧ WritesInside sb bdev i inode idx r := by
  have hmap : ∀ disk, sb.mapped disk inode idx = inode.directBlock idx := fun disk => by
    rw [Superblock.mapped, if_pos hlt]
  exact transferBlock_inside hc hf (by omega) [] (List.nil_append _).symm (by simp)
    (fun _ _ => rfl) (Or.inl rfl) hblock hfits (Or.inl (hmap _)) (fun disk _ => hmap disk)
    (by simp) data

theorem inside_directNew (hc : Consistent sb bdev.disk) (hf : HasFile sb bdev.disk i inode)
    {n : Nat} (hlt : idx < 12)
    (halloc : CanAllocate sb bdev inode.groupId.toNat [] bdev.transfers n)
    (hback : CanWriteBack sb bdev i (bdev.transfers + 4)) :
    ∃ r, transferBlock sb
        (allocated sb bdev
          (sb.descriptor bdev.disk inode.groupId.toNat).blockBitmapAddr.toNat
          ((n - sb.firstBlock) % sb.blocksPerGroup.toNat)) i
        (inode.setDirectBlock idx (BitVec.ofNat 32 n)) (sb.blockLba (BitVec.ofNat 32 n)) true data
        .write = some r ∧ WritesInside sb bdev i inode idx r := by
  have hmap : ∀ disk, sb.mapped disk (inode.setDirectBlock idx (BitVec.ofNat 32 n)) idx =
      BitVec.ofNat 32 n := fun disk => by
    rw [Superblock.mapped, if_pos hlt, Inode.directBlock, Inode.setDirectBlock,
      Bytes.word32_setWord32_self]
  have hind : (inode.setDirectBlock idx (BitVec.ofNat 32 n)).indirectBlockSingle =
      inode.indirectBlockSingle := Bytes.word32_setWord32_of_apart _ (by omega)
  have hdesc := fun g (hlt : g < sb.groups) =>
    halloc.descriptor_allocated hc bdev ((n - sb.firstBlock) % sb.blocksPerGroup.toNat) hlt
  refine transferBlock_inside hc hf (by omega) [_] rfl ?_ hdesc (Or.inl hind)
    (halloc.block_ne_zero hc) ?_ (Or.inr ?_) (fun disk _ => hmap disk) (fun _ => ?_) data
  · intro w hw
    rw [List.mem_singleton.mp hw]
    exact halloc.metaWrite hc _
  · rw [halloc.toNat_block]
    exact halloc.fits
  · rw [halloc.toNat_block]
    exact halloc.next.free
  · exact hback.congr rfl rfl (hdesc _ (hc.inode_group_lt hf.pos hf.le))

/-- A block that the indirect block maps. -/
theorem inside_indirect (hc : Consistent sb bdev.disk) (hf : HasFile sb bdev.disk i inode)
    (hge : 12 ≤ idx) (hlt : idx < 12 + sb.entriesPerBlock)
    (hind : inode.indirectBlockSingle ≠ 0#32) (ok : bdev.next = .success)
    (hfits : sb.Fits inode.indirectBlockSingle.toNat)
    (hentry : sb.mapped bdev.disk inode idx ≠ 0#32)
    (hentryFits : sb.Fits (sb.mapped bdev.disk inode idx).toNat) :
    ∃ r, transferIndirect sb bdev i inode (idx - 12) false data .write = some r ∧
      WritesInside sb bdev i inode idx r := by
  have hE := Superblock.entriesPerBlock_eq sb
  have hspb := hc.sectorsPerBlock_bounds
  have hmapped : ∀ disk : Bytes, sb.mapped disk inode idx =
      disk.word32 (inode.indirectBlockSingle.toNat * sb.blockBytes + 4 * (idx - 12)) := by
    intro disk
    rw [Superblock.mapped, if_neg (by omega), if_neg hind]
  have hlba : sb.blockLba (sb.mapped bdev.disk inode idx) ≠ 0#32 := by
    intro h0
    have h := hc.blockLba_toNat hentryFits
    rw [h0, BitVec.toNat_ofNat, Nat.zero_mod] at h
    rcases Nat.mul_eq_zero.mp h.symm with h' | h'
    · exact hentry (BitVec.eq_of_toNat_eq (by simpa using h'))
    · omega
  obtain ⟨-, -, hne, -⟩ := hf.mapped idx hlt hentry
  unfold transferIndirect
  simp only [read_block_fresh hc.log_le ok hfits, ne_eq, not_true_eq_false, if_false,
    Bytes.word32_slice (show 4 * (idx - 12) + 4 ≤ sb.blockBytes by omega), ← hmapped, hlba]
  refine transferBlock_inside hc hf hlt []
    (show bdev.tick.written = [] ++ bdev.written from rfl) (by simp) (fun _ _ => rfl)
    (Or.inl rfl) hentry hentryFits (Or.inl rfl) ?_ ?_ data
  · intro disk' hagree
    rw [hmapped, hmapped]
    refine hc.entry_congr (by omega) fun a ha => hagree a ?_ ?_
    · rw [ha]
      exact fun heq => hne (BitVec.eq_of_toNat_eq heq.symm)
    · intro g
      rw [ha]
      exact (hf.indirect hind).2.2 _
  · intro h
    cases h

/-- A block that is allocated and entered in the indirect block, which may be new itself. -/
theorem inside_entryNew (hc : Consistent sb bdev.disk) (hf : HasFile sb bdev.disk i inode)
    (hge : 12 ≤ idx) (hlt : idx < 12 + sb.entriesPerBlock) (before : List Write)
    (hw : b.written = before ++ bdev.written)
    (hbefore : ∀ w ∈ before, MetaWrite sb bdev.disk inode' w)
    (hdesc : ∀ g < sb.groups, sb.descriptor b.disk g = sb.descriptor bdev.disk g)
    (hres : b.result = bdev.result)
    (hind : inode'.indirectBlockSingle = inode.indirectBlockSingle ∨
      sb.MarkedFree bdev.disk inode'.indirectBlockSingle.toNat)
    (hnz : inode'.indirectBlockSingle ≠ 0#32)
    (hfits : sb.Fits inode'.indirectBlockSingle.toNat)
    (hmeta : ∀ r, ¬ Region.Holds sb bdev.disk inode'.indirectBlockSingle.toNat r)
    (ok : b.next = .success)
    (hentry : b.disk.word32
      (inode'.indirectBlockSingle.toNat * sb.blockBytes + 4 * (idx - 12)) = 0#32)
    {g m : Nat} {taken : List Nat} (hg : inode'.groupId.toNat = g)
    (halloc : CanAllocate sb bdev g taken (b.transfers + 1) m)
    (hbits : ∀ q < 8 * sb.blockBytes, sb.blockBit b.disk g q = false ↔
      sb.blockBit bdev.disk g q = false ∧
        sb.firstBlock + g * sb.blocksPerGroup.toNat + q ∉ taken)
    (hm : m ≠ inode'.indirectBlockSingle.toNat)
    (entered : b.result (b.transfers + 5) = .success)
    {writeInode : Bool} (hback : writeInode = true → CanWriteBack sb bdev i (b.transfers + 6)) :
    ∃ r, transferIndirect sb b i inode' (idx - 12) writeInode data .write = some r ∧
      WritesInside sb bdev i inode idx r := by
  have hE := Superblock.entriesPerBlock_eq sb
  have hin : 4 * (idx - 12) + 4 ≤ sb.blockBytes := by omega
  have hgw : (inode'.groupId.setWidth 32).toNat = g := by
    rw [BitVec.toNat_setWidth_of_le (by decide), hg]
  have hrun := halloc.alloc_block hc b.tick hgw hres rfl (hdesc g halloc.group) hbits
  set addr := (sb.descriptor bdev.disk g).blockBitmapAddr.toNat with haddr
  set b2 := allocated sb b.tick addr ((m - sb.firstBlock) % sb.blocksPerGroup.toNat) with hb2
  have ok2 : b2.next = .success := entered
  set buf := (b.disk.slice (inode'.indirectBlockSingle.toNat * sb.blockBytes)
    sb.blockBytes).setWord32 (4 * (idx - 12)) (BitVec.ofNat 32 m) with hbuf
  have hwrote := wrote_block hc.log_le b2 .indirectBlock hfits buf
  set b3 := b2.wrote .indirectBlock (sb.blockLba inode'.indirectBlockSingle) sb.blockSectors buf
  have hdesc3 : ∀ g' < sb.groups, sb.descriptor b3.disk g' = sb.descriptor bdev.disk g' := by
    intro g' hg'
    rw [hwrote, hc.descriptor_splice (hmeta .front) hg', ← hdesc g' hg']
    exact halloc.descriptor_allocated hc b.tick _ hg'
  unfold transferIndirect
  simp only [read_block_fresh hc.log_le ok hfits, ne_eq, not_true_eq_false, if_false,
    Bytes.word32_slice hin, hentry, sb.blockLba_zero, if_true, hrun, ← hbuf, Bdev.write_ok ok2]
  rw [show buf.word32 (4 * (idx - 12)) = BitVec.ofNat 32 m from Bytes.word32_setWord32_self _]
  refine transferBlock_inside hc hf hlt
    (⟨.indirectBlock, inode'.indirectBlockSingle.toNat * sb.sectorsPerBlock, sb.sectorsPerBlock⟩ ::
      ⟨.bitmap, addr * sb.sectorsPerBlock, sb.sectorsPerBlock⟩ :: before) ?_ ?_ hdesc3 hind
    (halloc.block_ne_zero hc) ?_ (Or.inr ?_) ?_ ?_ data
  · rw [hwrote, hb2, allocated, Bdev.tick_written, hw]
    rfl
  · intro w hw'
    rcases List.mem_cons.mp hw' with rfl | hw'
    · exact ⟨by simp, fun s hs => Or.inr ⟨hnz, block_of_covers hc.toGeometry hs⟩⟩
    · rcases List.mem_cons.mp hw' with rfl | hw'
      · exact halloc.metaWrite hc inode'
      · exact hbefore w hw'
  · rw [halloc.toNat_block]
    exact halloc.fits
  · rw [halloc.toNat_block]
    exact halloc.next.free
  · intro disk' hagree
    rw [halloc.toNat_block] at hagree
    rw [Superblock.mapped, if_neg (by omega), if_neg hnz]
    have hsame : disk'.word32
        (inode'.indirectBlockSingle.toNat * sb.blockBytes + 4 * (idx - 12)) =
        b3.disk.word32
          (inode'.indirectBlockSingle.toNat * sb.blockBytes + 4 * (idx - 12)) := by
      refine hc.entry_congr (by omega) fun a ha => hagree a ?_ ?_
      · rw [ha]
        exact hm.symm
      · intro g'
        rw [ha]
        exact hmeta _
    rw [hsame, hwrote, Bytes.word32_splice hin]
    exact Bytes.word32_setWord32_self _
  · intro hwi
    refine (hback hwi).congr ?_ ?_ (hdesc3 _ (hc.inode_group_lt hf.pos hf.le))
    · rw [hwrote]
      exact hres
    · rw [hwrote]
      rfl

/-- The device when the indirect block has been allocated and the bits that are clear then. -/
theorem Available.clear_after {g t n : Nat} (h : Available sb bdev g [] t n)
    (hc : Consistent sb bdev.disk) :
    ∀ q < 8 * sb.blockBytes, sb.blockBit
        (allocated sb bdev (sb.descriptor bdev.disk g).blockBitmapAddr.toNat
          ((n - sb.firstBlock) % sb.blocksPerGroup.toNat)).disk g q = false ↔
      sb.blockBit bdev.disk g q = false ∧
        sb.firstBlock + g * sb.blocksPerGroup.toNat + q ∉ [n] := by
  intro q hq
  have hn := h.next.number
  have hset := blockBit_setBlockBit (h.descriptor_allocated hc bdev
    ((n - sb.firstBlock) % sb.blocksPerGroup.toNat) h.group) hq
  rw [allocated]
  rw [hset, List.mem_singleton, Bool.or_eq_false_iff, decide_eq_false_iff_not, and_comm]
  refine and_congr_right fun _ => not_congr ⟨fun heq => ?_, fun heq => by omega⟩
  rw [heq, ← hn]

theorem idx_direct_iff (idx : BitVec 32) : idx < 12#32 ↔ idx.toNat < 12 := by
  rw [BitVec.lt_def]
  rfl

/-- The indices that the singly indirect block maps. -/
theorem Superblock.idx_indirect_iff (hlog : sb.blockSizeLog.toNat ≤ 6) (idx : BitVec 32) :
    idx < 12#32 + sb.blockSize / 4#32 ↔ idx.toNat < 12 + sb.entriesPerBlock := by
  have hE := Superblock.entriesPerBlock_eq sb
  have hspb := Superblock.sectorsPerBlock_bounds hlog
  have hbytes := Superblock.blockBytes_eq sb
  have hsize : (12#32 + sb.blockSize / 4#32).toNat = 12 + sb.entriesPerBlock := by
    rw [BitVec.toNat_add, BitVec.toNat_udiv, Superblock.blockSize_toNat hlog]
    simp only [BitVec.toNat_ofNat, Nat.reducePow, Nat.reduceMod]
    omega
  rw [BitVec.lt_def, hsize]

theorem idx_entry (idx : BitVec 32) (h : 12 ≤ idx.toNat) :
    (idx - 12#32).toNat = idx.toNat - 12 := by
  rw [BitVec.toNat_sub_of_le (by rw [BitVec.le_def]; exact h)]
  rfl

/-- The call stays inside when it takes one of the safe ways. -/
theorem inodeDataTransfer_inside (hc : Consistent sb bdev.disk) {idx : BitVec 32}
    (hf : HasFile sb bdev.disk i inode) (hs : SafeWrite sb bdev i inode idx.toNat) :
    ∃ r, inodeDataTransfer sb bdev i inode idx data .write = some r ∧
      WritesInside sb bdev i inode idx.toNat r := by
  have hE := Superblock.entriesPerBlock_eq sb
  have hlow := idx_direct_iff idx
  have hhigh := Superblock.idx_indirect_iff hc.log_le idx
  have hentry := idx_entry idx
  have hgw : (inode.groupId.setWidth 32).toNat = inode.groupId.toNat :=
    BitVec.toNat_setWidth_of_le (by decide)
  have hfirst : ∀ {n}, CanAllocate sb bdev inode.groupId.toNat [] bdev.transfers n →
      allocExt2Obj sb bdev (inode.groupId.setWidth 32) false = (BitVec.ofNat 32 n,
        allocated sb bdev (sb.descriptor bdev.disk inode.groupId.toNat).blockBitmapAddr.toNat
          ((n - sb.firstBlock) % sb.blocksPerGroup.toNat)) := fun halloc =>
    halloc.alloc_block hc bdev hgw rfl rfl rfl (by simp)
  unfold inodeDataTransfer
  cases hs with
  | direct lt block fits =>
      rw [if_pos (hlow.mpr lt), if_neg block]
      exact inside_direct data hc hf lt block fits
  | directNew n lt block alloc back =>
      rw [if_pos (hlow.mpr lt), if_pos block]
      simp only [hfirst alloc]
      rw [show (inode.setDirectBlock idx.toNat (BitVec.ofNat 32 n)).directBlock idx.toNat =
        BitVec.ofNat 32 n from Bytes.word32_setWord32_self _]
      exact inside_directNew data hc hf lt alloc back
  | unread ge lt block failed =>
      rw [if_neg (by rw [hlow]; omega), if_pos (hhigh.mpr lt)]
      simp only [if_neg block, transferIndirect, Bdev.read_failed failed, ne_eq, failed,
        not_false_eq_true, if_true]
      exact ⟨_, rfl, [], rfl, Or.inl ⟨failed, by simp⟩⟩
  | indirect ge lt block ok fits entry entryFits =>
      rw [if_neg (by rw [hlow]; omega), if_pos (hhigh.mpr lt)]
      simp only [if_neg block, hentry ge]
      exact inside_indirect data hc hf ge lt block ok fits entry entryFits
  | indirectNew n ge lt block ok fits entry alloc entered =>
      rw [if_neg (by rw [hlow]; omega), if_pos (hhigh.mpr lt)]
      simp only [if_neg block, hentry ge]
      obtain ⟨-, hused, hmeta⟩ := hf.indirect block
      refine inside_entryNew data hc hf ge lt [] rfl (by simp) (fun _ _ => rfl) rfl (Or.inl rfl)
        block fits hmeta ok ?_ rfl alloc (by simp) ?_ entered (by simp)
      · rwa [Superblock.mapped, if_neg (by omega), if_neg block] at entry
      · intro heq
        rw [← heq] at hused
        exact hused alloc.next.free
  | bothUnread n ge lt block alloc failed =>
      rw [if_neg (by rw [hlow]; omega), if_pos (hhigh.mpr lt)]
      simp only [if_pos block, hfirst alloc, reduceCtorEq, if_false, transferIndirect]
      set b := allocated sb bdev
        (sb.descriptor bdev.disk inode.groupId.toNat).blockBitmapAddr.toNat
        ((n - sb.firstBlock) % sb.blocksPerGroup.toNat)
      have hnext : b.next ≠ .success := failed
      simp only [Bdev.read_failed hnext, ne_eq, hnext, not_false_eq_true, if_true]
      exact ⟨_, rfl, [_], rfl, Or.inl ⟨hnext, by simp⟩⟩
  | bothNew n m ge lt block alloc ok stale alloc' entered back =>
      rw [if_neg (by rw [hlow]; omega), if_pos (hhigh.mpr lt)]
      simp only [if_pos block, hfirst alloc, reduceCtorEq, if_false, hentry ge]
      have hind : (inode.setIndirectBlockSingle (BitVec.ofNat 32 n)).indirectBlockSingle =
          BitVec.ofNat 32 n := Bytes.word32_setWord32_self _
      have hgroup : (inode.setIndirectBlockSingle (BitVec.ofNat 32 n)).groupId = inode.groupId :=
        Bytes.word16_setWord32_of_apart _ (by omega)
      refine inside_entryNew data hc hf ge lt [_] rfl ?_
        (fun g hlt => alloc.descriptor_allocated hc bdev _ hlt) rfl (Or.inr ?_) ?_ ?_ ?_ ok ?_
        (congrArg BitVec.toNat hgroup) alloc' (alloc.clear_after hc) ?_ entered (fun _ => back)
      · intro w hw
        rw [List.mem_singleton.mp hw]
        exact alloc.metaWrite hc _
      · rw [hind, alloc.toNat_block]
        exact alloc.next.free
      · rw [hind]
        exact alloc.block_ne_zero hc
      · rw [hind, alloc.toNat_block]
        exact alloc.fits
      · rw [hind, alloc.toNat_block]
        exact hc.not_holds_of_free alloc.next.free
      · rw [hind, alloc.toNat_block, ← stale]
        refine hc.entry_congr (by omega) fun a ha => splice_block_of_ne _ ?_
        rw [ha]
        exact alloc.bitmap_ne_of_free hc alloc.next.free
      · rw [hind, alloc.toNat_block]
        exact fun heq => alloc'.next.new (List.mem_singleton.mpr heq)

end Inside

end Muse.Ext2
