import Muse.Ext2.File
import Muse.Ext2.Proofs.Rounds
import Muse.Ext2.Proofs.WriteInside

/-!
# Writing past the end of a file

A write that goes past the end of a file should make the file longer. `ext2_transfer` cuts the
length down to the size of the file first, for both directions, so that no write makes a file
longer: it returns at most what there is of the file behind the offset.
-/

namespace Muse.Ext2

open Muse.Library

/-! ## The property -/

namespace Superblock

variable (sb : Superblock)

/-- The blocks that the file occupies, its indirect block included. -/
def fileBlocks (disk : Bytes) (inode : Inode) : Nat :=
  ((List.range (12 + sb.entriesPerBlock)).filter fun k => sb.mapped disk inode k ≠ 0#32).length +
    if inode.indirectBlockSingle = 0#32 then 0 else 1

/-- The inode's group has `n` free blocks. -/
def HasFree (disk : Bytes) (inode : Inode) (n : Nat) : Prop :=
  ∃ blocks : List Nat, blocks.Nodup ∧ n ≤ blocks.length ∧
    ∀ b ∈ blocks, sb.MarkedFree disk b ∧
      (b - sb.firstBlock) / sb.blocksPerGroup.toNat = inode.groupId.toNat

end Superblock

/-- A transfer that returned `v` has made the file `offset + len` bytes long. -/
structure Grows (sb : Superblock) (bdev : Bdev) (i : BitVec 32) (inode : Inode)
    (offset len : BitVec 32) (data : Bytes) (v : BitVec 32) (t : Transfer) : Prop where
  returned : v = len
  size : t.inode.sizeLo = offset + len
  sizeOnDisk : (sb.inodeOnDisk t.bdev.disk i).sizeLo = offset + len
  sectors : t.inode.sectorCount.toNat =
    sb.sectorsPerBlock * sb.fileBlocks t.bdev.disk t.inode
  read : ∃ n u, ext2Transfer n sb t.bdev i t.inode 0#32 (offset + len) fresh .read =
      some (offset + len, u) ∧
    (∀ k < offset.toNat, u.data k = sb.fileByte bdev.disk inode k) ∧
    ∀ k < len.toNat, u.data (offset.toNat + k) = data k

/-! ## No file grows -/

/-- In every round of a transfer, what was copied ends before the end of the transfer. -/
structure Transfer.Bounded (t : Transfer) (sb : Superblock) (o e : Nat) : Prop where
  le : t.cursor.bytesWritten.toNat ≤ e - o
  at_block : t.done = false →
    ∃ k, t.cursor.At sb o k ∧ max o (k * sb.blockBytes) ≤ e

variable {sb : Superblock} {inodeI offset len : BitVec 32} {dir : DataDir} {o e : Nat}

theorem Transfer.round_bounded (hg : Geometry sb) (hlimit : (offset + len).toNat = e)
    (hlen : len.toNat = e - o) (ho : o ≤ e) (he : e + 2 * sb.blockBytes ≤ 2 ^ 32)
    (t t' : Transfer) (h : t.Bounded sb o e) (hdone : t.done = false)
    (hround : t.round sb inodeI offset len dir = some t') : t'.Bounded sb o e := by
  obtain ⟨k, hat, hpos⟩ := h.at_block hdone
  rcases round_cursor hround with ⟨hstop, hcursor⟩ | ⟨hcursor, hlast⟩
  · refine ⟨?_, fun hgo => ?_⟩
    · rw [hcursor]
      exact h.le
    · rw [hstop] at hgo
      cases hgo
  · have hbytes := hat.next_bytesWritten hg.log_le hlimit hpos
    refine ⟨?_, fun hgo => ?_⟩
    · rw [hcursor, hbytes]
      omega
    · rw [hlast, decide_eq_false_iff_not, hat.last_iff hg.log_le hlimit hlen ho hpos] at hgo
      refine ⟨k + 1, ?_, ?_⟩
      · rw [hcursor]
        exact hat.next_at hg.log_le hlimit (by omega) (by omega)
      · omega

/-- A transfer returns at most the bytes between its offset and the end of the file. -/
theorem ext2Transfer_le (hg : Geometry sb) {bdev : Bdev} {inode : Inode} {data : Bytes} {n : Nat}
    {v : BitVec 32} {t : Transfer} (hoff : offset.toNat ≤ inode.sizeLo.toNat)
    (hpast : inode.sizeLo.toNat < offset.toNat + len.toNat)
    (hfit : offset.toNat + len.toNat ≤ (12 + sb.entriesPerBlock) * sb.blockBytes)
    (h : ext2Transfer n sb bdev inodeI inode offset len data dir = some (v, t)) :
    v.toNat ≤ inode.sizeLo.toNat - offset.toNat := by
  have hmax := hg.file_bytes_lt
  have hclamp : clampedLen inode offset len = inode.sizeLo - offset := by
    rw [clampedLen, if_pos]
    rw [BitVec.lt_def, BitVec.toNat_add, Nat.mod_eq_of_lt (by omega)]
    exact hpast
  have hlen : (inode.sizeLo - offset).toNat = inode.sizeLo.toNat - offset.toNat :=
    BitVec.toNat_sub_of_le (by rw [BitVec.le_def]; exact hoff)
  have hlimit : (offset + (inode.sizeLo - offset)).toNat = inode.sizeLo.toNat := by
    rw [BitVec.toNat_add, hlen]
    omega
  have he : inode.sizeLo.toNat + 2 * sb.blockBytes ≤ 2 ^ 32 := by omega
  rw [ext2Transfer] at h
  simp only [hclamp] at h
  obtain ⟨u, hrounds, h⟩ := Option.bind_eq_some_iff.mp h
  split at h
  next =>
    obtain ⟨w, hfinish, h⟩ := Option.bind_eq_some_iff.mp h
    obtain ⟨rfl, rfl⟩ := Prod.mk.inj (Option.some.inj h)
    rw [Transfer.finish_cursor hfinish]
    have hstart : (Transfer.start sb bdev inode offset data).Bounded sb offset.toNat
        inode.sizeLo.toNat := by
      have hat := Cursor.start_at hg.log_le offset (by omega)
      refine ⟨Nat.zero_le _, fun _ => ⟨_, hat, ?_⟩⟩
      have := Nat.div_mul_le_self offset.toNat sb.blockBytes
      omega
    exact (Transfer.rounds_invariant
      (Transfer.round_bounded hg hlimit hlen hoff he) n hstart hrounds).le
  next => cases h

/-- No write past the end of a file makes it longer. -/
theorem no_write_grows (hg : Geometry sb) (bdev : Bdev) (i : BitVec 32) (inode : Inode)
    (offset len : BitVec 32) (data : Bytes) (hoff : offset.toNat ≤ inode.sizeLo.toNat)
    (hpast : inode.sizeLo.toNat < offset.toNat + len.toNat)
    (hfit : offset.toNat + len.toNat ≤ (12 + sb.entriesPerBlock) * sb.blockBytes) :
    ¬ ∃ n v t, ext2Transfer n sb bdev i inode offset len data .write = some (v, t) ∧
      Grows sb bdev i inode offset len data v t := by
  rintro ⟨n, v, t, hrun, hgrows⟩
  have hle := ext2Transfer_le hg hoff hpast hfit hrun
  rw [hgrows.returned] at hle
  omega

/-- A write of one byte to an empty file of the small image. -/
theorem no_write_grows_small : (1#32).toNat ≤ (12 + smallSuperblock.entriesPerBlock) *
      smallSuperblock.blockBytes ∧
    ¬ ∃ n v t, ext2Transfer n smallSuperblock smallBdev 1#32 emptyInode 0#32 1#32 fresh .write =
        some (v, t) ∧ Grows smallSuperblock smallBdev 1#32 emptyInode 0#32 1#32 fresh v t :=
  ⟨by decide, no_write_grows small_geometry smallBdev 1#32 emptyInode 0#32 1#32 fresh
    (by decide) (by decide) (by decide)⟩

/-- The small image has two free blocks for that byte. -/
theorem write_past_end : ¬ ∀ (sb : Superblock) (bdev : Bdev) (i : BitVec 32) (inode : Inode)
    (offset len : BitVec 32) (data : Bytes), Consistent sb bdev.disk →
    HasFile sb bdev.disk i inode → (∀ k, bdev.result k = .success) →
    offset.toNat ≤ inode.sizeLo.toNat → 0 < len.toNat →
    inode.sizeLo.toNat < offset.toNat + len.toNat →
    offset.toNat + len.toNat ≤ (12 + sb.entriesPerBlock) * sb.blockBytes →
    sb.HasFree bdev.disk inode ((offset.toNat + len.toNat) / sb.blockBytes + 2) →
    ∃ n v t, ext2Transfer n sb bdev i inode offset len data .write = some (v, t) ∧
      Grows sb bdev i inode offset len data v t := by
  intro h
  have hfree : smallSuperblock.HasFree smallBdev.disk emptyInode
      ((0 + 1) / smallSuperblock.blockBytes + 2) := by
    refine ⟨[8, 9], by decide, by decide, ?_⟩
    intro b hb
    have hb' : b = 8 ∨ b = 9 := by simpa using hb
    have hfree := small_markedFree.mpr (show 8 ≤ b ∧ b < 16 by omega)
    rcases hb' with rfl | rfl
    · exact ⟨hfree, by decide⟩
    · exact ⟨hfree, by decide⟩
  obtain ⟨n, v, t, hrun, hgrows⟩ := h smallSuperblock smallBdev 1#32 emptyInode 0#32 1#32 fresh
    small_consistent small_hasFile (fun _ => rfl) (by decide) (by decide) (by decide) (by decide)
    hfree
  have hle := ext2Transfer_le small_geometry (by decide) (by decide) (by decide) hrun
  rw [hgrows.returned] at hle
  exact absurd hle (by decide)

end Muse.Ext2
