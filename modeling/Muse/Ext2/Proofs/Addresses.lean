import Muse.Ext2.Proofs.Counts
import Muse.Ext2.Proofs.ReadBack
import Muse.Ext2.Proofs.ReadOnly

/-!
# Block numbers and sector numbers

Two conversions of the driver. A block number becomes a sector number by a product that is formed
in 32 bits before it is divided; this is exact up to the byte address 2^32. A bit of a block bitmap
becomes a block number without the first block of the first group, so the number is the block of
that bit only where the groups start at block 0.
-/

namespace Muse.Ext2

open Muse.Library

variable {sb : Superblock} {bdev : Bdev} {g : BitVec 32} {inode : Bool}

/-! ## Sector numbers -/

/-- The sectors that the driver computes from the block `b` are those of the block: the one of an
    inode in a table that starts at `b`, those of a bitmap, of a data block with its number in the
    inode, of a data block with its number in the singly indirect block, and of the singly indirect
    block itself. They are seen in what is written to an array-like device. -/
structure SectorsExact (sb : Superblock) (b : BitVec 32) : Prop where
  inodes : ∀ (bdev : Bdev) (i : BitVec 32) (x : Inode) (r : DriveRes × Inode × Bdev),
    (∀ n, bdev.result n = .success) →
    (sb.descriptorAt bdev.disk (sb.groupOf i)).inodeTable = b →
    inodeTransfer sb bdev i x .write = some r →
      r.2.2.written = ⟨.inodes, (sb.indexOf i * sb.inodeBytes / 512#32).toNat +
        b.toNat * sb.sectorsPerBlock, 1⟩ :: bdev.written
  bitmap : ∀ (bdev : Bdev) (g : BitVec 32) (inode : Bool),
    (∀ n, bdev.result n = .success) → sb.bitmapAddr bdev.disk g inode = b →
    (allocExt2Obj sb bdev g inode).1 ≠ 0#32 →
      (allocExt2Obj sb bdev g inode).2.written =
        ⟨.bitmap, b.toNat * sb.sectorsPerBlock, sb.sectorsPerBlock⟩ :: bdev.written
  direct : ∀ (bdev : Bdev) (i : BitVec 32) (inode : Inode) (idx : BitVec 32) (data : Bytes)
    (r : Transferred), (∀ n, bdev.result n = .success) → idx < 12#32 →
    inode.directBlock idx.toNat = b → b ≠ 0#32 →
    inodeDataTransfer sb bdev i inode idx data .write = some r →
      r.bdev.written =
        ⟨.data, b.toNat * sb.sectorsPerBlock, sb.sectorsPerBlock⟩ :: bdev.written
  entry : ∀ (bdev : Bdev) (i : BitVec 32) (inode : Inode) (idx : BitVec 32) (data : Bytes)
    (r : Transferred), (∀ n, bdev.result n = .success) → sb.InIndirect idx →
    inode.indirectBlockSingle ≠ 0#32 → sb.indirectEntry bdev.disk inode idx = b → b ≠ 0#32 →
    inodeDataTransfer sb bdev i inode idx data .write = some r →
      r.bdev.written =
        ⟨.data, b.toNat * sb.sectorsPerBlock, sb.sectorsPerBlock⟩ :: bdev.written
  indirect : ∀ (bdev : Bdev) (i : BitVec 32) (inode : Inode) (idx : BitVec 32) (data : Bytes)
    (r : Transferred), (∀ n, bdev.result n = .success) → sb.InIndirect idx →
    inode.indirectBlockSingle = b → b ≠ 0#32 → sb.indirectEntry bdev.disk inode idx = 0#32 →
    inodeDataTransfer sb bdev i inode idx data .write = some r →
      ∃ w rest, r.bdev.written =
        w :: ⟨.indirectBlock, b.toNat * sb.sectorsPerBlock, sb.sectorsPerBlock⟩ :: rest

theorem blockLba_lt (sb : Superblock) (b : BitVec 32) : (sb.blockLba b).toNat < 2 ^ 23 := by
  rw [Superblock.blockLba, BitVec.toNat_udiv]
  exact Nat.div_lt_of_lt_mul (BitVec.isLt _)

/-- An inode is written to the sector that is computed from its table. -/
theorem inodeTransfer_sector {i : BitVec 32} {x : Inode} {r : DriveRes × Inode × Bdev}
    (hok : ∀ n, bdev.result n = .success) (h : inodeTransfer sb bdev i x .write = some r) :
    r.2.2.written = ⟨.inodes, (sb.indexOf i * sb.inodeBytes / 512#32).toNat +
      (sb.blockLba (sb.descriptorAt bdev.disk (sb.groupOf i)).inodeTable).toNat, 1⟩ ::
        bdev.written := by
  have hnext : bdev.tick.next = .success := hok _
  have hnext' : bdev.tick.tick.next = .success := hok _
  have hsum : (sb.indexOf i * sb.inodeBytes / 512#32 +
      sb.blockLba (sb.descriptorAt bdev.disk (sb.groupOf i)).inodeTable).toNat =
        (sb.indexOf i * sb.inodeBytes / 512#32).toNat +
          (sb.blockLba (sb.descriptorAt bdev.disk (sb.groupOf i)).inodeTable).toNat := by
    have htable := blockLba_lt sb (sb.descriptorAt bdev.disk (sb.groupOf i)).inodeTable
    have hindex : (sb.indexOf i * sb.inodeBytes / 512#32).toNat < 2 ^ 23 := by
      rw [BitVec.toNat_udiv]
      exact Nat.div_lt_of_lt_mul (BitVec.isLt _)
    rw [BitVec.toNat_add]
    omega
  rw [← hsum]
  unfold inodeTransfer at h
  simp only [descriptorTransfer_eq sb (hok bdev.transfers), ne_eq, not_true_eq_false, if_false,
    Bdev.read_fresh hnext, Bdev.write_ok hnext'] at h
  split at h
  · cases h
  split at h
  · cases h
  · obtain rfl := Option.some.inj h
    rfl

/-- An allocation writes the sectors that are computed from the block of the bitmap. -/
theorem allocExt2Obj_sector (hok : ∀ i < 4, bdev.result (bdev.transfers + i) = .success)
    (h : (allocExt2Obj sb bdev g inode).1 ≠ 0#32) :
    (allocExt2Obj sb bdev g inode).2.written =
      ⟨.bitmap, (sb.bitmapLba bdev.disk g inode).toNat, sb.blockSectors.toNat⟩ ::
        bdev.written := by
  by_cases hcount : sb.freeCount bdev.disk g inode = 0#16
  · have hcase := allocExt2Obj_cases sb hok g inode
    generalize allocExt2Obj sb bdev g inode = r at *
    cases hcase with
    | kept _ _ _ => exact absurd rfl h
    | taken hne _ _ _ => exact absurd hcount hne
  · rw [allocExt2Obj_search hok hcount] at h ⊢
    split at h
    next => exact absurd rfl h
    next => rfl

/-- A block of data is written to the sectors that were computed for it. -/
theorem transferBlock_sector (hok : bdev.next = .success) (i : BitVec 32) (x : Inode)
    (lba : BitVec 32) (data : Bytes) :
    transferBlock sb bdev i x lba false data .write =
      some ⟨.success, x, data, bdev.wrote .data lba sb.blockSectors data⟩ := by
  unfold transferBlock
  simp only [Bdev.write_ok hok, ne_eq, not_true_eq_false, if_false, Bool.false_eq_true]

/-- A block that the singly indirect block maps is written where it is. -/
theorem inodeDataTransfer_entry {idx b : BitVec 32} {x : Inode}
    (hok : ∀ n, bdev.result n = .success) (hin : sb.InIndirect idx)
    (hind : x.indirectBlockSingle ≠ 0#32) (hentry : sb.indirectEntry bdev.disk x idx = b)
    (hne : sb.blockLba b ≠ 0#32) (i : BitVec 32) (data : Bytes) :
    inodeDataTransfer sb bdev i x idx data .write =
      some ⟨.success, x, data, bdev.tick.wrote .data (sb.blockLba b) sb.blockSectors data⟩ := by
  have hnext : bdev.tick.next = .success := hok _
  unfold inodeDataTransfer transferIndirect
  rw [if_neg (BitVec.not_lt.mpr hin.1), if_pos hin.2, if_neg hind]
  rw [Superblock.indirectEntry] at hentry
  simp only [Bdev.read_fresh (hok bdev.transfers), ne_eq, not_true_eq_false, if_false, hentry,
    if_neg hne]
  exact transferBlock_sector hnext i x _ data

/-- If the singly indirect block `b` has no entry, it is written with a new one before the block. -/
theorem inodeDataTransfer_no_entry {idx b : BitVec 32} {x : Inode}
    (hok : ∀ n, bdev.result n = .success) (hin : sb.InIndirect idx)
    (hblock : x.indirectBlockSingle = b) (hne : b ≠ 0#32)
    (hentry : sb.indirectEntry bdev.disk x idx = 0#32) (i : BitVec 32) (data : Bytes) :
    ∃ block buf, inodeDataTransfer sb bdev i x idx data .write =
      some ⟨.success, x, data,
        ((allocExt2Obj sb bdev.tick (x.groupId.setWidth 32) false).2.wrote .indirectBlock
          (sb.blockLba b) sb.blockSectors buf).wrote .data (sb.blockLba block) sb.blockSectors
            data⟩ := by
  have halloc : ∀ k, (allocExt2Obj sb bdev.tick (x.groupId.setWidth 32) false).2.result k =
      .success := by
    intro k
    rw [(allocExt2Obj_bdev sb bdev.tick (x.groupId.setWidth 32)).1]
    exact hok k
  have hnext : ∀ lba count buf, Bdev.next ((allocExt2Obj sb bdev.tick
      (x.groupId.setWidth 32) false).2.wrote .indirectBlock lba count buf) = .success :=
    fun _ _ _ => halloc _
  unfold inodeDataTransfer transferIndirect
  rw [if_neg (BitVec.not_lt.mpr hin.1), if_pos hin.2, hblock, if_neg hne]
  rw [Superblock.indirectEntry, hblock] at hentry
  simp only [Bdev.read_fresh (hok bdev.transfers), ne_eq, not_true_eq_false, if_false, hentry,
    Superblock.blockLba_zero, if_true, Bdev.write_ok (halloc _)]
  exact ⟨_, _, transferBlock_sector (hnext _ _ _) i x _ data⟩

section Log

variable {b : BitVec 32} (hlog : sb.blockSizeLog.toNat ≤ 6)

include hlog

/-- The product of a block number and the size of a block is exact if it is below 2^32. -/
theorem blockLba_toNat_iff :
    (sb.blockLba b).toNat = b.toNat * sb.sectorsPerBlock ↔ b.toNat * sb.blockBytes < 2 ^ 32 := by
  constructor
  · intro h
    have hlt := blockLba_lt sb b
    rw [h] at hlt
    rw [Superblock.blockBytes_eq, Nat.mul_left_comm]
    omega
  · exact Superblock.blockLba_toNat hlog

theorem sectorsExact_of_lt (h : b.toNat * sb.blockBytes < 2 ^ 32) : SectorsExact sb b := by
  have hlba := (blockLba_toNat_iff hlog).mpr h
  have hcount := Superblock.blockSectors_toNat hlog
  have hspb := Superblock.sectorsPerBlock_bounds hlog
  constructor
  · intro bdev i x r hok htable heq
    rw [inodeTransfer_sector hok heq, htable, hlba]
  · intro bdev g inode hok haddr hne
    rw [allocExt2Obj_sector (fun _ _ => hok _) hne, Superblock.bitmapLba, haddr, hlba, hcount]
  · intro bdev i inode idx data r hok hidx hblock hne heq
    unfold inodeDataTransfer at heq
    rw [if_pos hidx, hblock, if_neg hne, transferBlock_sector (hok _)] at heq
    obtain rfl := Option.some.inj heq
    rw [← hlba, ← hcount]
    rfl
  · intro bdev i inode idx data r hok hin hind hentry hne heq
    have hne' : sb.blockLba b ≠ 0#32 := by
      intro hz
      have hb : b.toNat ≠ 0 := fun hb => hne (BitVec.eq_of_toNat_eq hb)
      rw [hz] at hlba
      have := Nat.mul_pos (Nat.pos_of_ne_zero hb) (Nat.lt_of_lt_of_le (by decide) hspb.1)
      rw [← hlba] at this
      exact Nat.lt_irrefl 0 this
    rw [inodeDataTransfer_entry hok hin hind hentry hne'] at heq
    obtain rfl := Option.some.inj heq
    rw [← hlba, ← hcount]
    rfl
  · intro bdev i inode idx data r hok hin hblock hne hentry heq
    obtain ⟨block, buf, hrun⟩ := inodeDataTransfer_no_entry hok hin hblock hne hentry i data
    rw [hrun] at heq
    obtain rfl := Option.some.inj heq
    rw [← hlba, ← hcount]
    exact ⟨_, _, rfl⟩

theorem SectorsExact.lt (h : SectorsExact sb b) : b.toNat * sb.blockBytes < 2 ^ 32 := by
  by_cases hz : b = 0#32
  · rw [hz, BitVec.toNat_ofNat, Nat.zero_mod, Nat.zero_mul]
    decide
  · -- a write through the first direct block
    have hblock : (Inode.setDirectBlock fresh 0 b).directBlock (0#32 : BitVec 32).toNat = b :=
      Bytes.word32_setWord32_self b
    have hwrite : inodeDataTransfer sb ⟨fresh, fun _ => .success, 0, []⟩ 0#32
        (Inode.setDirectBlock fresh 0 b) 0#32 fresh .write = some ⟨.success,
          Inode.setDirectBlock fresh 0 b, fresh,
          Bdev.wrote ⟨fresh, fun _ => .success, 0, []⟩ .data (sb.blockLba b) sb.blockSectors
            fresh⟩ := by
      unfold inodeDataTransfer
      rw [if_pos (by decide), hblock, if_neg hz, transferBlock_sector rfl]
    have hdirect := h.direct _ _ _ _ _ _ (fun _ => rfl) (by decide) hblock hz hwrite
    exact (blockLba_toNat_iff hlog).mp (congrArg Write.lba (List.cons.inj hdirect).1)

/-- **Sector numbers.** For blocks of `1024 << k` bytes with `k` up to 6, the driver computes the
    sectors of a block exactly if the byte address of the block is below 2^32, which is the case up
    to the sector 2^23. -/
theorem sectors_exact_iff : SectorsExact sb b ↔ b.toNat * sb.blockBytes < 2 ^ 32 :=
  ⟨SectorsExact.lt hlog, sectorsExact_of_lt hlog⟩

end Log

/-- The last block of 1024 bytes whose sectors are right. -/
theorem sectors_exact_iff_last :
    SectorsExact twoTables 0x3FFFFF#32 ∧ ¬ SectorsExact twoTables 0x400000#32 := by
  have hlog : twoTables.blockSizeLog.toNat ≤ 6 := by decide
  rw [sectors_exact_iff hlog, sectors_exact_iff hlog]
  decide

/-- Block 2^22 of 1024 bytes is at the sector 2^23. -/
theorem sectors_not_exact : ¬ ∀ (sb : Superblock) (b : BitVec 32), sb.blockSizeLog.toNat ≤ 6 →
    b.toNat * sb.sectorsPerBlock < 2 ^ 28 → SectorsExact sb b := by
  intro hall
  have h := hall twoTables 0x400000#32 (by decide) (by decide)
  exact absurd (h.lt (by decide)) (by decide)

/-! ## Block numbers -/

namespace Superblock

/-- The block of bit `k` of the block bitmap of group `g`. -/
def blockOfBit (sb : Superblock) (g : BitVec 32) (k : Nat) : Nat :=
  sb.superblockBlock.toNat + g.toNat * sb.blocksPerGroup.toNat + k

end Superblock

/-- A transfer returns its own result. -/
theorem Bdev.read_fst (lba count : BitVec 32) (buf : Bytes) :
    (bdev.read lba count buf).1 = bdev.next := by
  unfold Bdev.read
  split
  next h => exact h.symm
  next => rfl

theorem Bdev.write_fst (source : Source) (lba count : BitVec 32) (buf : Bytes) :
    (bdev.write source lba count buf).1 = bdev.next := by
  unfold Bdev.write
  split
  next h => exact h.symm
  next => rfl

theorem groupDescriptorTransfer_fst (d : GroupDescriptor) :
    (groupDescriptorTransfer sb bdev g d .read).1 = bdev.next := by
  by_cases hok : bdev.next = .success
  · rw [descriptorTransfer_eq sb hok, hok]
  · rw [groupDescriptorTransfer_failed hok]

/-- The four transfers of a call that returns an object went through. -/
theorem allocExt2Obj_transfers (h : (allocExt2Obj sb bdev g inode).1 ≠ 0#32) :
    ∀ i < 4, bdev.result (bdev.transfers + i) = .success := by
  unfold allocExt2Obj at h
  simp only [groupDescriptorTransfer_bdev, Bdev.read_bdev, groupDescriptorTransfer_fst,
    Bdev.read_fst, ne_eq] at h
  split at h
  next => exact absurd rfl h
  next ok0 =>
    split at h
    next => exact absurd rfl h
    split at h
    next => exact absurd rfl h
    split at h
    next => exact absurd rfl h
    next ok1 =>
      split at h
      next => exact absurd rfl h
      next ok2 =>
        split at h
        next => exact absurd rfl h
        next =>
          rw [Bdev.write_fst] at h
          split at h
          next => exact absurd rfl h
          next ok3 =>
            intro i hi
            match i, hi with
            | 0, _ => exact not_not.mp ok0
            | 1, _ => exact not_not.mp ok1
            | 2, _ => exact not_not.mp ok2
            | 3, _ => exact not_not.mp ok3

/-- **Block numbers.** A call that returns a block has set the lowest clear bit of the group's block
    bitmap. The number is that of the bit's block exactly if the first group starts at block 0 and
    the number fits 32 bits. -/
theorem block_number_iff (h : (allocExt2Obj sb bdev g false).1 ≠ 0#32) :
    ∃ k, sb.LowestClear bdev.disk g false k ∧
      (allocExt2Obj sb bdev g false).2.disk =
        setBitAt bdev.disk (sb.bitPos bdev.disk g false k) ∧
      ((allocExt2Obj sb bdev g false).1.toNat = sb.blockOfBit g k ↔
        sb.superblockBlock = 0#32 ∧ sb.blockOfBit g k < 2 ^ 32) := by
  have hcase := allocExt2Obj_cases sb (allocExt2Obj_transfers h) g false
  generalize allocExt2Obj sb bdev g false = r at *
  cases hcase with
  | kept _ _ _ => exact absurd rfl h
  | @taken bdev' k _ hlow hdisk _ =>
      refine ⟨k, hlow, hdisk, ?_⟩
      have hnum : (sb.objNumber g false k).toNat =
          (g.toNat * sb.blocksPerGroup.toNat + k) % 2 ^ 32 := by
        simp [Superblock.objNumber, Superblock.perGroup]
      have hzero : sb.superblockBlock = 0#32 ↔ sb.superblockBlock.toNat = 0 := by
        rw [← BitVec.toNat_inj, BitVec.toNat_ofNat, Nat.zero_mod]
      rw [hnum, hzero, Superblock.blockOfBit]
      omega

/-- The first group of an image with blocks of 1 KiB starts at block 1. -/
def oneKilobyte : Superblock := { oneGroup with superblockBlock := 1#32 }

theorem oneKilobyte_alloc :
    (allocExt2Obj oneKilobyte (oneGroupBdev 1#8 0x20#8) 0#32 false).1 = 1#32 := by
  decide +kernel

/-- In an image whose first group starts at block 0, the block of the first clear bit is
    returned. -/
theorem block_number_iff_third :
    (allocExt2Obj oneGroup (oneGroupBdev 7#8 0x20#8) 0#32 false).1 = 3#32 ∧
      ∃ k, oneGroup.LowestClear (oneGroupBdev 7#8 0x20#8).disk 0#32 false k ∧
        oneGroup.blockOfBit 0#32 k = 3 := by
  have halloc : (allocExt2Obj oneGroup (oneGroupBdev 7#8 0x20#8) 0#32 false).1 = 3#32 := by
    decide +kernel
  have hne : (allocExt2Obj oneGroup (oneGroupBdev 7#8 0x20#8) 0#32 false).1 ≠ 0#32 := by
    rw [halloc]
    decide
  obtain ⟨k, hlow, -, hiff⟩ := block_number_iff hne
  have hbits : oneGroup.bitmapBits = 8192 := by decide
  have hblock : oneGroup.blockOfBit 0#32 k = k := by simp [Superblock.blockOfBit, oneGroup]
  have hlt := hlow.lt
  have hnumber := hiff.mpr ⟨rfl, by omega⟩
  rw [halloc] at hnumber
  exact ⟨halloc, k, hlow, hnumber.symm⟩

/-- Bit 1 of the first bitmap belongs to block 2, and the call returns block 1, which is in use. -/
theorem block_number_off : ¬ ∀ (sb : Superblock) (bdev : Bdev) (g : BitVec 32),
    (allocExt2Obj sb bdev g false).1 ≠ 0#32 →
      ∃ k, sb.LowestClear bdev.disk g false k ∧
        (allocExt2Obj sb bdev g false).1.toNat = sb.blockOfBit g k := by
  intro hall
  have hone := oneKilobyte_alloc
  obtain ⟨k, hlow, hnum⟩ := hall oneKilobyte (oneGroupBdev 1#8 0x20#8) 0#32
    (by rw [hone]; decide)
  have hk : k = 0 := by
    rw [hone, Superblock.blockOfBit] at hnum
    have : oneKilobyte.superblockBlock.toNat = 1 := rfl
    rw [BitVec.toNat_ofNat] at hnum
    omega
  have hclear := hlow.clear
  rw [hk] at hclear
  exact absurd hclear (by decide +kernel)

end Muse.Ext2
