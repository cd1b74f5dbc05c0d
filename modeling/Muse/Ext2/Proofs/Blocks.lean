import Muse.Ext2.File
import Muse.Ext2.Proofs.ReadOnly

/-!
# Transfers of the blocks of a file

A block that the inode maps, with sector numbers that do not wrap around, is transferred where it
is.
-/

namespace Muse.Ext2

open Muse.Library

namespace Addressable

variable {sb : Superblock} {disk : Bytes} {inode : Inode} {k : Nat} {idx : BitVec 32}

/-- The first sector of the block is not sector 0. -/
theorem lba_ne (h : Addressable sb disk inode k) (hlog : sb.blockSizeLog.toNat ≤ 6) :
    sb.blockLba (sb.mapped disk inode k) ≠ 0#32 := by
  intro h0
  have hspb := Superblock.sectorsPerBlock_bounds hlog
  have hmul := Superblock.blockLba_toNat hlog h.fits
  rw [h0, BitVec.toNat_ofNat, Nat.zero_mod] at hmul
  have hzero : (sb.mapped disk inode k).toNat = 0 := by
    rcases Nat.mul_eq_zero.mp hmul.symm with hz | hz
    · exact hz
    · omega
  exact h.ne (BitVec.eq_of_toNat_eq hzero)

/-- The block that is transferred. -/
theorem transfer (h : Addressable sb disk inode idx.toNat) (hlog : sb.blockSizeLog.toNat ≤ 6)
    (bdev : Bdev) (hd : bdev.disk = disk) (hok : ∀ k, bdev.result k = .success) (i : BitVec 32)
    (data : Bytes) (dir : DataDir) :
    ∃ t, inodeDataTransfer sb bdev i inode idx data dir =
      transferBlock sb { bdev with transfers := t } i inode
        (sb.blockLba (sb.mapped disk inode idx.toNat)) false data dir := by
  subst hd
  have hlba := h.lba_ne hlog
  have hne := h.ne
  by_cases hdirect : idx.toNat < 12
  · have hmapped : sb.mapped bdev.disk inode idx.toNat = inode.directBlock idx.toNat := by
      rw [Superblock.mapped, if_pos hdirect]
    rw [hmapped] at hne ⊢
    rw [inodeDataTransfer, if_pos ((idx_direct_iff idx).mpr hdirect), if_neg hne]
    exact ⟨bdev.transfers, rfl⟩
  · have hind : inode.indirectBlockSingle ≠ 0#32 := by
      intro h0
      rw [Superblock.mapped, if_neg hdirect, if_pos h0] at hne
      exact hne rfl
    have hlt := h.lt
    have hentry : (idx - 12#32).toNat = idx.toNat - 12 := idx_entry idx (by omega)
    have hmapped : sb.mapped bdev.disk inode idx.toNat =
        (bdev.disk.slice (inode.indirectBlockSingle.toNat * sb.blockBytes)
          sb.blockBytes).word32 (4 * (idx - 12#32).toNat) := by
      have := Superblock.entriesPerBlock_eq sb
      rw [Superblock.mapped, if_neg hdirect, if_neg hind, hentry, Bytes.word32_slice (by omega)]
    rw [hmapped] at hlba ⊢
    rw [inodeDataTransfer, if_neg (fun hlt => hdirect ((idx_direct_iff idx).mp hlt)),
      if_pos ((Superblock.idx_indirect_iff hlog idx).mpr hlt), if_neg hind, transferIndirect]
    simp only [read_block_fresh hlog (hok bdev.transfers) (h.indirect_fits (by omega)), ne_eq,
      not_true_eq_false, if_false, if_neg hlba]
    exact ⟨_, rfl⟩

/-- A block is read from where it is. -/
theorem read (h : Addressable sb disk inode idx.toNat) (hlog : sb.blockSizeLog.toNat ≤ 6)
    (bdev : Bdev) (hd : bdev.disk = disk) (hok : ∀ k, bdev.result k = .success) (i : BitVec 32)
    (data : Bytes) :
    ∃ t, inodeDataTransfer sb bdev i inode idx data .read =
      some ⟨.success, inode, data.splice 0 sb.blockBytes
        (disk.slice ((sb.mapped disk inode idx.toNat).toNat * sb.blockBytes) sb.blockBytes),
        { bdev with transfers := t }⟩ := by
  subst hd
  obtain ⟨t, ht⟩ := h.transfer hlog bdev rfl hok i data .read
  have hnext : Bdev.next { bdev with transfers := t } = .success := hok t
  refine ⟨t + 1, ?_⟩
  rw [ht, transferBlock_read, read_block hlog hnext h.fits]
  rfl

end Addressable

end Muse.Ext2
