import Muse.Ext2.File
import Muse.Ext2.Proofs.Blocks
import Muse.Library.Records

/-!
# A file is an array of bytes

The calls of `ext2_transfer` inside the size of a file read and replace bytes of its array. A round
of the loop copies one block, so the copies of a whole call are put together with `Rewrites`; the
bytes that are rewritten are in the caller's buffer for a read and on the disk for a write. Neither
the data of the file nor its own inode is a part of the image that says where the file is, so
`WholeFile` holds again after each call.
-/

namespace Muse.Ext2

open Muse.Library

/-! ## Where a file is -/

namespace WholeFile

variable {sb : Superblock} {disk : Bytes} {i : BitVec 32} {inode : Inode}
  (h : WholeFile sb disk i inode)

include h

theorem geometry : Geometry sb := h.image.toGeometry

/-- The number of a block of the image, times the size of a block, fits a word. -/
theorem fits_of_lt {n : Nat} (hn : n < sb.totalBlocks.toNat) : sb.Fits n := by
  have hspb := h.geometry.sectorsPerBlock_bounds
  have hle : (n + 1) * sb.sectorsPerBlock ≤ 2 ^ 23 :=
    Nat.le_trans (Nat.mul_le_mul_right _ hn) h.sectors
  rw [Nat.add_mul, Nat.one_mul] at hle
  rw [Superblock.Fits, Superblock.blockBytes_eq, Nat.mul_left_comm]
  omega

/-- The block of a byte of the file is mapped. -/
theorem block_mapped {k : Nat} (hk : k < inode.sizeLo.toNat) :
    k / sb.blockBytes < 12 + sb.entriesPerBlock ∧
      sb.mapped disk inode (k / sb.blockBytes) ≠ 0#32 :=
  h.blocks _ (Nat.lt_of_le_of_lt (Nat.div_mul_le_self k sb.blockBytes) hk)

theorem fileAddr_div (k : Nat) :
    sb.fileAddr disk inode k / sb.blockBytes =
      (sb.mapped disk inode (k / sb.blockBytes)).toNat := by
  have hpos := h.geometry.blockBytes_pos
  rw [Superblock.fileAddr, Nat.mul_comm, Nat.mul_add_div hpos,
    Nat.div_eq_of_lt (Nat.mod_lt k hpos), Nat.add_zero]

omit h in
theorem fileAddr_mod (k : Nat) :
    sb.fileAddr disk inode k % sb.blockBytes = k % sb.blockBytes := by
  rw [Superblock.fileAddr, Nat.mul_comm, Nat.mul_add_mod, Nat.mod_mod]

/-- Different bytes of the file are at different places. -/
theorem fileAddr_inj {j k : Nat} (hj : j < inode.sizeLo.toNat) (hk : k < inode.sizeLo.toNat)
    (heq : sb.fileAddr disk inode j = sb.fileAddr disk inode k) : j = k := by
  obtain ⟨hj1, hj2⟩ := h.block_mapped hj
  obtain ⟨hk1, -⟩ := h.block_mapped hk
  have hdiv : j / sb.blockBytes = k / sb.blockBytes := by
    refine h.file.inj _ hj1 _ hk1 hj2 (BitVec.eq_of_toNat_eq ?_)
    rw [← h.fileAddr_div, ← h.fileAddr_div, heq]
  have hmod : j % sb.blockBytes = k % sb.blockBytes := by
    rw [← fileAddr_mod j, ← fileAddr_mod k, heq]
  rw [← Nat.div_add_mod j sb.blockBytes, ← Nat.div_add_mod k sb.blockBytes, hdiv, hmod]

theorem group_lt : (i.toNat - 1) / sb.inodesPerGroup.toNat < sb.groups :=
  h.geometry.inode_group_lt h.file.pos h.file.le

theorem inodeBytes_le : sb.inodeBytes.toNat ≤ 512 := Nat.le_of_dvd (by decide) h.inode_dvd

/-- The inodes fill their sectors. -/
theorem packed : Packed sectorSize sb.inodeBytes.toNat (512 / sb.inodeBytes.toNat) :=
  Packed.of_dvd (by decide) h.inode_dvd

/-- The sector of the inode, and where the inode is in it. -/
theorem inodeAddr_sector :
    sb.inodeAddr disk i = 512 * sb.inodeSector disk i +
      (i.toNat - 1) % sb.inodesPerGroup.toNat % (512 / sb.inodeBytes.toNat) *
        sb.inodeBytes.toNat ∧
      (i.toNat - 1) % sb.inodesPerGroup.toNat % (512 / sb.inodeBytes.toNat) *
        sb.inodeBytes.toNat + 128 ≤ 512 := by
  have hge := h.geometry.inode_ge
  have hsector : sectorSize = 512 := rfl
  have hsplit := h.packed.split ((i.toNat - 1) % sb.inodesPerGroup.toNat)
  have hslot := h.packed.slot_le ((i.toNat - 1) % sb.inodesPerGroup.toNat)
  have hdiv := h.packed.div_sector (by omega) ((i.toNat - 1) % sb.inodesPerGroup.toNat)
  rw [hsector] at hsplit hslot hdiv
  refine ⟨?_, by omega⟩
  rw [Superblock.inodeAddr, Superblock.inodeSector, Superblock.blockBytes_eq, hdiv, hsplit,
    Nat.mul_add, Nat.mul_left_comm _ 512]
  omega

/-- The inode lies in the inode table of its group. -/
theorem holds_of_inodeAddr {a : Nat} (hlo : sb.inodeAddr disk i ≤ a)
    (hhi : a < sb.inodeAddr disk i + 128) :
    Region.Holds sb disk (a / sb.blockBytes)
      (.inodeTable ((i.toNat - 1) / sb.inodesPerGroup.toNat)) := by
  obtain ⟨haddr, hslot⟩ := h.inodeAddr_sector
  have hsector : a / 512 = sb.inodeSector disk i := by omega
  rw [← block_of_sector, hsector]
  exact h.geometry.inodeSector_mem disk h.file.pos h.file.le

theorem inodeTable_fits :
    sb.Fits (sb.descriptor disk ((i.toNat - 1) / sb.inodesPerGroup.toNat)).inodeTable.toNat := by
  have hholds := h.geometry.inodeSector_mem disk h.file.pos h.file.le
  refine h.fits_of_lt (Nat.lt_of_le_of_lt hholds.2.1 (h.image.used _ _ hholds).1)

/-- The blocks of the file hold no metadata. -/
theorem not_holds_fileAddr {k : Nat} (hk : k < inode.sizeLo.toNat) (r : Region) :
    ¬ Region.Holds sb disk (sb.fileAddr disk inode k / sb.blockBytes) r := by
  obtain ⟨hlt, hne⟩ := h.block_mapped hk
  rw [h.fileAddr_div]
  exact (h.file.mapped _ hlt hne).2.2.2 r

end WholeFile

/-! ## What calls leave alone -/

/-- The inode and the disk still have what says where the file is. -/
structure SameLayout (sb : Superblock) (i : BitVec 32) (disk disk' : Bytes) (inode inode' : Inode) :
    Prop where
  size : inode'.sizeLo = inode.sizeLo
  direct : ∀ k < 12, inode'.directBlock k = inode.directBlock k
  indirect : inode'.indirectBlockSingle = inode.indirectBlockSingle
  frame : ∀ a, (∀ k < inode.sizeLo.toNat, a ≠ sb.fileAddr disk inode k) →
    (a < sb.inodeAddr disk i ∨ sb.inodeAddr disk i + 128 ≤ a) → disk' a = disk a

namespace SameLayout

variable {sb : Superblock} {i : BitVec 32} {disk disk' : Bytes} {inode inode' : Inode}
  (h : SameLayout sb i disk disk' inode inode') (hw : WholeFile sb disk i inode)

include h hw

/-- A block of metadata, other than those of the inode table, is as it was. -/
theorem region_kept {r : Region} {n : Nat} (hr : Region.Holds sb disk n r)
    (hne : r ≠ .inodeTable ((i.toNat - 1) / sb.inodesPerGroup.toNat)) {a : Nat}
    (ha : a / sb.blockBytes = n) : disk' a = disk a := by
  refine h.frame a ?_ ?_
  · rintro k hk rfl
    rw [← ha] at hr
    exact hw.not_holds_fileAddr hk r hr
  · by_contra hin
    have := hw.holds_of_inodeAddr (a := a) (by omega) (by omega)
    rw [ha] at this
    exact hne (hw.image.apart _ _ _ hr this)

theorem descriptor_eq {g : Nat} (hg : g < sb.groups) :
    sb.descriptor disk' g = sb.descriptor disk g :=
  hw.geometry.descriptor_congr hg fun _ ha =>
    h.region_kept hw (r := .front) ha Region.noConfusion rfl

theorem mapped_eq {k : Nat} (hk : k < 12 + sb.entriesPerBlock) :
    sb.mapped disk' inode' k = sb.mapped disk inode k := by
  unfold Superblock.mapped
  rw [h.indirect]
  split
  next hlt => exact h.direct k hlt
  next =>
    split
    next => rfl
    next hind =>
      refine hw.geometry.entry_congr (by omega) fun a ha => h.frame a ?_ ?_
      · rintro l hl rfl
        obtain ⟨hlt, hne⟩ := hw.block_mapped hl
        rw [hw.fileAddr_div] at ha
        exact (hw.file.mapped _ hlt hne).2.2.1 (BitVec.eq_of_toNat_eq ha)
      · by_contra hin
        have := hw.holds_of_inodeAddr (a := a) (by omega) (by omega)
        rw [ha] at this
        exact (hw.file.indirect hind).2.2 _ this

theorem fileAddr_eq {k : Nat} (hk : k < inode.sizeLo.toNat) :
    sb.fileAddr disk' inode' k = sb.fileAddr disk inode k := by
  rw [Superblock.fileAddr, h.mapped_eq hw (hw.block_mapped hk).1, Superblock.fileAddr]

theorem inodeAddr_eq : sb.inodeAddr disk' i = sb.inodeAddr disk i := by
  rw [Superblock.inodeAddr, h.descriptor_eq hw hw.group_lt, Superblock.inodeAddr]

theorem holds_iff {n : Nat} (r : Region) :
    Region.Holds sb disk' n r ↔ Region.Holds sb disk n r := by
  cases r with
  | front => exact Iff.rfl
  | blockBitmap g => exact and_congr_right fun hg => by rw [h.descriptor_eq hw hg]
  | inodeBitmap g => exact and_congr_right fun hg => by rw [h.descriptor_eq hw hg]
  | inodeTable g => exact and_congr_right fun hg => by rw [h.descriptor_eq hw hg]

theorem blockBit_eq {g k : Nat} (hg : g < sb.groups) (hk : k < 8 * sb.blockBytes) :
    sb.blockBit disk' g k = sb.blockBit disk g k := by
  have hpos := hw.geometry.blockBytes_pos
  rw [Superblock.blockBit, Superblock.blockBit, h.descriptor_eq hw hg, bitAt, bitAt]
  congr 1
  refine h.region_kept hw (r := .blockBitmap g) ⟨hg, rfl⟩ Region.noConfusion ?_
  rw [Nat.mul_comm, Nat.mul_add_div hpos, Nat.div_eq_of_lt (by omega), Nat.add_zero]

theorem markedFree_iff (n : Nat) : sb.MarkedFree disk' n ↔ sb.MarkedFree disk n := by
  have hpos := hw.geometry.blocks_pos
  have hle := hw.geometry.blocks_le
  refine and_congr_right fun hlo => and_congr_right fun hhi => ?_
  rw [h.blockBit_eq hw]
  · rw [Superblock.groups, Nat.div_lt_iff_lt_mul hpos]
    have := Nat.lt_div_mul_add
      (a := sb.totalBlocks.toNat - sb.firstBlock + sb.blocksPerGroup.toNat - 1) hpos
    omega
  · have := Nat.mod_lt (n - sb.firstBlock) hpos
    omega

/-- The file is still a whole one. -/
theorem wholeFile : WholeFile sb disk' i inode' where
  image :=
    { toGeometry := hw.geometry
      apart := by
        intro r r' n hr hr'
        rw [h.holds_iff hw] at hr hr'
        exact hw.image.apart r r' n hr hr'
      used := by
        intro r n hr
        rw [h.holds_iff hw] at hr
        rw [h.markedFree_iff hw]
        exact hw.image.used r n hr
      padding := by
        intro g hg k hk hpad
        rw [h.blockBit_eq hw hg hk]
        exact hw.image.padding g hg k hk hpad }
  file :=
    { pos := hw.file.pos
      le := hw.file.le
      indirect := by
        intro hind
        rw [h.indirect] at hind ⊢
        rw [h.markedFree_iff hw]
        simp only [h.holds_iff hw]
        exact hw.file.indirect hind
      mapped := by
        intro k hk hne
        rw [h.mapped_eq hw hk] at hne ⊢
        rw [h.markedFree_iff hw, h.indirect]
        simp only [h.holds_iff hw]
        exact hw.file.mapped k hk hne
      inj := by
        intro k hk l hl hne heq
        rw [h.mapped_eq hw hk] at hne heq
        rw [h.mapped_eq hw hl] at heq
        exact hw.file.inj k hk l hl hne heq }
  sectors := hw.sectors
  inode_dvd := hw.inode_dvd
  blocks := by
    intro k hk
    rw [h.size] at hk
    obtain ⟨hlt, hne⟩ := hw.blocks k hk
    rw [h.mapped_eq hw hlt]
    exact ⟨hlt, hne⟩

end SameLayout

/-! ## One block -/

section Block

variable {sb : Superblock} {i : BitVec 32} {inode : Inode} {idx : BitVec 32}

theorem WholeFile.addressable {disk : Bytes} (hw : WholeFile sb disk i inode) {k : Nat}
    (hk : k * sb.blockBytes < inode.sizeLo.toNat) : Addressable sb disk inode k where
  lt := (hw.blocks k hk).1
  ne := (hw.blocks k hk).2
  fits := hw.fits_of_lt (hw.file.mapped k (hw.blocks k hk).1 (hw.blocks k hk).2).1
  indirect_fits := by
    intro hge
    refine hw.fits_of_lt (hw.file.indirect fun h0 => (hw.blocks k hk).2 ?_).1
    rw [Superblock.mapped, if_neg (Nat.not_lt.mpr hge), if_pos h0]

/-- The block of the file that is transferred. -/
theorem inodeDataTransfer_mapped (bdev : Bdev) (hw : WholeFile sb bdev.disk i inode)
    (hok : ∀ k, bdev.result k = .success)
    (hidx : idx.toNat * sb.blockBytes < inode.sizeLo.toNat) (data : Bytes) (dir : DataDir) :
    ∃ t, inodeDataTransfer sb bdev i inode idx data dir =
      transferBlock sb { bdev with transfers := t } i inode
        (sb.blockLba (sb.mapped bdev.disk inode idx.toNat)) false data dir :=
  (hw.addressable hidx).transfer hw.geometry.log_le bdev rfl hok i data dir

theorem inodeDataTransfer_mapped_read (bdev : Bdev) (hw : WholeFile sb bdev.disk i inode)
    (hok : ∀ k, bdev.result k = .success)
    (hidx : idx.toNat * sb.blockBytes < inode.sizeLo.toNat) :
    ∃ t, inodeDataTransfer sb bdev i inode idx fresh .read =
      some ⟨.success, inode, bdev.disk.slice
        ((sb.mapped bdev.disk inode idx.toNat).toNat * sb.blockBytes) sb.blockBytes,
        { bdev with transfers := t }⟩ := by
  obtain ⟨hlt, hne⟩ := hw.blocks _ hidx
  obtain ⟨t, ht⟩ := inodeDataTransfer_mapped bdev hw hok hidx fresh .read
  have hnext : Bdev.next { bdev with transfers := t } = .success := hok t
  refine ⟨t + 1, ?_⟩
  rw [ht, transferBlock_read, read_block_fresh hw.geometry.log_le hnext
    (hw.fits_of_lt (hw.file.mapped _ hlt hne).1)]
  rfl

theorem inodeDataTransfer_mapped_write (bdev : Bdev) (hw : WholeFile sb bdev.disk i inode)
    (hok : ∀ k, bdev.result k = .success)
    (hidx : idx.toNat * sb.blockBytes < inode.sizeLo.toNat) (data : Bytes) :
    ∃ b, inodeDataTransfer sb bdev i inode idx data .write =
        some ⟨.success, inode, data, b⟩ ∧ b.result = bdev.result ∧
      b.disk = bdev.disk.splice
        ((sb.mapped bdev.disk inode idx.toNat).toNat * sb.blockBytes) sb.blockBytes data := by
  obtain ⟨hlt, hne⟩ := hw.blocks _ hidx
  obtain ⟨t, ht⟩ := inodeDataTransfer_mapped bdev hw hok hidx data .write
  have hnext : Bdev.next { bdev with transfers := t } = .success := hok t
  rw [ht, transferBlock]
  simp only [Bdev.write_ok hnext, ne_eq, not_true_eq_false, if_false, Bool.false_eq_true]
  refine ⟨_, rfl, rfl, ?_⟩
  rw [wrote_block hw.geometry.log_le _ _ (hw.fits_of_lt (hw.file.mapped _ hlt hne).1)]

end Block

/-! ## The rounds of a call -/

/-- What a transfer from `o` on has done when it has copied the bytes before `p`. -/
structure Progress (sb : Superblock) (o : Nat) (dir : DataDir) (inode : Inode) (disk data : Bytes)
    (p : Nat) (t : Transfer) : Prop where
  same : t.inode = inode
  ok : ∀ k, t.bdev.result k = .success
  read : dir = .read → t.bdev.disk = disk ∧
    Bytes.Rewrites (· - o) o p (fun k => disk (sb.fileAddr disk inode k)) data t.data
  write : dir = .write → t.data = data ∧
    Bytes.Rewrites (sb.fileAddr disk inode) o p (fun k => data (k - o)) disk t.bdev.disk

section Rounds

variable {sb : Superblock} {i offset len : BitVec 32} {inode : Inode} {disk data : Bytes}
  {dir : DataDir} {o e k p q : Nat} {t : Transfer}

/-- The addresses of the bytes of block `k`. -/
theorem fileAddr_of_block {a : Nat} (hlo : k * sb.blockBytes ≤ a)
    (hhi : a < (k + 1) * sb.blockBytes) :
    sb.fileAddr disk inode a =
      (sb.mapped disk inode k).toNat * sb.blockBytes + (a - k * sb.blockBytes) := by
  have hdiv : a / sb.blockBytes = k := Nat.div_eq_of_lt_le hlo hhi
  have hmod : a % sb.blockBytes = a - k * sb.blockBytes := by
    have := Nat.div_add_mod a sb.blockBytes
    rw [hdiv, Nat.mul_comm] at this
    omega
  rw [Superblock.fileAddr, hdiv, hmod]

/-- Writing data of the file leaves the layout as it is. -/
theorem sameLayout_of_rewrites {disk' : Bytes} {val : Nat → BitVec 8}
    (h : Bytes.Rewrites (sb.fileAddr disk inode) o p val disk disk')
    (hp : p ≤ inode.sizeLo.toNat) : SameLayout sb i disk disk' inode inode where
  size := rfl
  direct := fun _ _ => rfl
  indirect := rfl
  frame := fun a ha _ => h.old a fun k _ hk => ha k (Nat.lt_of_lt_of_le hk hp)

/-- The round of block `k`. -/
theorem Progress.round (hw : WholeFile sb disk i inode)
    (h : Progress sb o dir inode disk data (max o (k * sb.blockBytes)) t)
    (hat : t.cursor.At sb o k) (hpos : max o (k * sb.blockBytes) < e)
    (he : e ≤ inode.sizeLo.toNat) (hlimit : (offset + len).toNat = e) :
    ∃ t', t.round sb i offset len dir = some t' ∧
      Progress sb o dir inode disk data (min e ((k + 1) * sb.blockBytes)) t' ∧
      t'.cursor = t.cursor.next sb (offset + len) ∧
      t'.done = decide (t.cursor.bytesWritten + t.cursor.cnt sb (offset + len) = len) := by
  have hg := hw.geometry
  have hcnt := hat.cnt_toNat hg.log_le hlimit (Nat.le_of_lt hpos)
  have hskip := hat.skip
  have hbytes := hat.bytesWritten
  have hstart := hat.lt
  have hsucc : (k + 1) * sb.blockBytes = k * sb.blockBytes + sb.blockBytes := by
    rw [Nat.add_mul, Nat.one_mul]
  have hblock : t.cursor.block.toNat * sb.blockBytes < inode.sizeLo.toNat := by
    rw [hat.block]
    omega
  have hlt := (hw.blocks _ hblock).1
  have haddr : ∀ a, max o (k * sb.blockBytes) ≤ a → a < min e ((k + 1) * sb.blockBytes) →
      sb.fileAddr disk inode a =
        (sb.mapped disk inode k).toNat * sb.blockBytes + (a - k * sb.blockBytes) :=
    fun a hlo hhi => fileAddr_of_block (by omega) (by omega)
  have hle : max o (k * sb.blockBytes) ≤ min e ((k + 1) * sb.blockBytes) := by omega
  unfold Transfer.round
  cases dir with
  | read =>
      obtain ⟨hdisk, hdata⟩ := h.read rfl
      have hw' : WholeFile sb t.bdev.disk i t.inode := by rw [hdisk, h.same]; exact hw
      obtain ⟨n, hrun⟩ := inodeDataTransfer_mapped_read t.bdev hw' h.ok
        (by rw [h.same]; exact hblock)
      simp only [hrun, Option.bind_eq_bind, Option.bind_some, ne_eq, not_true_eq_false, if_false]
      refine ⟨_, rfl, ⟨h.same, h.ok, fun _ => ⟨hdisk, ?_⟩, fun hdir => ?_⟩, rfl, rfl⟩
      · refine hdata.trans ?_ (by omega) hle fun a c hlo _ hlo' _ heq => by omega
        dsimp only
        rw [hcnt, hbytes, hdisk, h.same, hat.block]
        refine Bytes.Rewrites.splice hle (fun a hlo hhi => ?_) fun a hlo hhi => ?_
        · omega
        · rw [hskip, Bytes.slice_of_lt (by omega), haddr a hlo hhi]
          congr 1
          omega
      · cases hdir
  | write =>
      obtain ⟨hdata, hdisk⟩ := h.write rfl
      have hsame := sameLayout_of_rewrites (i := i) hdisk (by omega)
      have hw' : WholeFile sb t.bdev.disk i t.inode := by
        rw [h.same]
        exact hsame.wholeFile hw
      have hblock' : t.cursor.block.toNat * sb.blockBytes < t.inode.sizeLo.toNat := by
        rw [h.same]
        exact hblock
      obtain ⟨n, hread⟩ := inodeDataTransfer_mapped_read t.bdev hw' h.ok hblock'
      simp only [hread, Option.bind_eq_bind, Option.bind_some, ne_eq, not_true_eq_false, if_false]
      obtain ⟨b, hwrite, hres, hb⟩ := inodeDataTransfer_mapped_write
        { t.bdev with transfers := n } hw' h.ok hblock'
        ((t.bdev.disk.slice ((sb.mapped t.bdev.disk t.inode t.cursor.block.toNat).toNat *
          sb.blockBytes) sb.blockBytes).splice t.cursor.skip.toNat
          (t.cursor.cnt sb (offset + len)).toNat fun j => t.data (t.cursor.bytesWritten.toNat + j))
      simp only [hwrite, Option.bind_some, not_true_eq_false, if_false]
      refine ⟨_, rfl, ⟨h.same, ?_, fun hdir => ?_, fun _ => ⟨hdata, ?_⟩⟩, rfl, rfl⟩
      · intro j
        simp only [hres]
        exact h.ok j
      · cases hdir
      · refine hdisk.trans ?_ (by omega) hle ?_
        · simp only [hb]
          rw [Bytes.splice_slice_splice (by omega), hcnt, hat.block, h.same,
            hsame.mapped_eq hw (by rw [← hat.block]; exact hlt), hskip, hbytes, hdata]
          refine Bytes.Rewrites.splice hle (fun a hlo hhi => ?_) fun a hlo hhi => ?_
          · rw [haddr a hlo hhi]
            omega
          · congr 1
            omega
        · intro a c _ ha _ hc heq
          exact hw.fileAddr_inj (by omega) (by omega) heq

/-- The rounds from block `k` on, of which at most `n + 1` are needed. -/
theorem Progress.rounds (hw : WholeFile sb disk i inode) (he : e ≤ inode.sizeLo.toNat)
    (hbound : e + 2 * sb.blockBytes ≤ 2 ^ 32) (hlimit : (offset + len).toNat = e)
    (hlen : len.toNat = e - o) (n : Nat)
    (h : Progress sb o dir inode disk data (max o (k * sb.blockBytes)) t)
    (hat : t.cursor.At sb o k) (hdone : t.done = false) (hpos : max o (k * sb.blockBytes) < e)
    (hn : e ≤ (k + n + 1) * sb.blockBytes) :
    ∃ t', t.rounds sb i offset len dir (n + 1) = some t' ∧ t'.done = true ∧
      Progress sb o dir inode disk data e t' ∧ t'.cursor.bytesWritten = len := by
  have hg := hw.geometry
  induction n generalizing k t with
  | zero =>
      obtain ⟨t', hround, hprog, hcursor, hlast⟩ := h.round hw hat hpos he hlimit
      have hle : e ≤ (k + 1) * sb.blockBytes := hn
      have hend := (hat.last_iff hg.log_le hlimit hlen (by omega) (Nat.le_of_lt hpos)).mpr hle
      rw [Nat.min_eq_left hle] at hprog
      refine ⟨t', ?_, by rw [hlast, decide_eq_true hend], hprog, by rw [hcursor]; exact hend⟩
      exact Transfer.rounds_of_round 0 hdone hround
  | succ n ih =>
      obtain ⟨t', hround, hprog, hcursor, hlast⟩ := h.round hw hat hpos he hlimit
      have hiff := hat.last_iff hg.log_le hlimit hlen (by omega) (Nat.le_of_lt hpos)
      rw [Transfer.rounds_of_round (n + 1) hdone hround]
      by_cases hle : e ≤ (k + 1) * sb.blockBytes
      · have hend := hiff.mpr hle
        have hdone' : t'.done = true := by rw [hlast, decide_eq_true hend]
        rw [Nat.min_eq_left hle] at hprog
        exact ⟨t', Transfer.rounds_of_done _ hdone', hdone', hprog, by rw [hcursor]; exact hend⟩
      · have hat' := hat.next_at hg.log_le hlimit (by omega) (by omega)
        have hmax : max o ((k + 1) * sb.blockBytes) = (k + 1) * sb.blockBytes :=
          Nat.max_eq_right (Nat.le_of_lt hat.lt)
        rw [Nat.min_eq_right (by omega), ← hmax] at hprog
        refine ih hprog (by rw [hcursor]; exact hat') ?_ (by omega) ?_
        · rw [hlast]
          exact decide_eq_false fun hend => hle (hiff.mp hend)
        · rw [show k + 1 + n + 1 = k + (n + 1) + 1 by omega]
          exact hn

end Rounds

/-! ## Writing the inode back -/

theorem inodeTransfer_slot {sb : Superblock} {i : BitVec 32} {inode : Inode} (bdev : Bdev)
    (hw : WholeFile sb bdev.disk i inode) (hok : ∀ k, bdev.result k = .success) (inode' : Inode) :
    ∃ b, inodeTransfer sb bdev i inode' .write = some (.success, inode', b) ∧
      b.result = bdev.result ∧
      b.disk = bdev.disk.splice (sb.inodeAddr bdev.disk i) 128 inode' := by
  have hg := hw.geometry
  have hlt := hg.descriptors_lt
  have hgroup := hw.group_lt
  have hpos := hw.file.pos
  have hdiv : ((i - 1#32) / sb.inodesPerGroup).toNat =
      (i.toNat - 1) / sb.inodesPerGroup.toNat := inode_group_toNat hpos
  have hread := groupDescriptorTransfer_read hg ((i - 1#32) / sb.inodesPerGroup)
    (by rw [hdiv]; omega) (hok bdev.transfers) fresh
  have hnext : bdev.tick.next = .success := hok _
  have hnext' : bdev.tick.tick.next = .success := hok _
  obtain ⟨haddr, hslot⟩ := hw.inodeAddr_sector
  have hoff : ((i - 1#32) % sb.inodesPerGroup % (512#32 / sb.inodeBytes) * sb.inodeBytes).toNat =
      (i.toNat - 1) % sb.inodesPerGroup.toNat % (512 / sb.inodeBytes.toNat) *
        sb.inodeBytes.toNat := by
    rw [BitVec.toNat_mul, BitVec.toNat_umod, BitVec.toNat_umod, BitVec.toNat_udiv,
      BitVec.toNat_sub_of_le (by rw [BitVec.le_def]; exact hpos)]
    simp only [BitVec.toNat_ofNat, Nat.reducePow, Nat.reduceMod]
    exact Nat.mod_eq_of_lt (by omega)
  rw [hdiv] at hread
  unfold inodeTransfer
  rw [if_neg hg.inodesPerGroup_ne_zero]
  simp only [hread, ne_eq, not_true_eq_false, if_false, Bdev.read_fresh hnext,
    if_neg (hg.inode_divides hw.inodeBytes_le), Bdev.write_ok hnext']
  refine ⟨_, rfl, rfl, ?_⟩
  simp only [Bdev.wrote, hg.inode_lba hpos hw.inodeBytes_le hw.inodeTable_fits, hoff,
    Bdev.tick_disk, sectorSize, BitVec.toNat_ofNat, Nat.reducePow, Nat.reduceMod, Nat.mul_one]
  rw [Bytes.splice_slice_splice hslot, haddr]

/-! ## Calls -/

section Calls

variable {sb : Superblock} {i : BitVec 32} {s : Mounted} {c : Call}

theorem Call.apply_read (h : c.dir = .read) (file : Bytes) : c.apply file = file := by
  rw [Call.apply, h]

theorem Call.apply_write (h : c.dir = .write) (file : Bytes) :
    c.apply file = file.splice c.offset.toNat c.len.toNat c.data := by
  rw [Call.apply, h]

/-- The inode after the end of a write that ends at the end of the file. -/
theorem sameLayout_of_inode {disk disk' : Bytes} {inode : Inode} {size count : BitVec 32}
    (hsize : size = inode.sizeLo)
    (hframe : ∀ a, (∀ k < inode.sizeLo.toNat, a ≠ sb.fileAddr disk inode k) →
      (a < sb.inodeAddr disk i ∨ sb.inodeAddr disk i + 128 ≤ a) → disk' a = disk a) :
    SameLayout sb i disk disk' inode ((inode.setSizeLo size).setSectorCount count) where
  size := by
    rw [← hsize, Inode.sizeLo, Inode.setSectorCount, Bytes.word32_setWord32_of_apart _ (by omega),
      Inode.setSizeLo, Bytes.word32_setWord32_self]
  direct := by
    intro k _
    rw [Inode.directBlock, Inode.setSectorCount, Bytes.word32_setWord32_of_apart _ (by omega),
      Inode.setSizeLo, Bytes.word32_setWord32_of_apart _ (by omega), Inode.directBlock]
  indirect := by
    rw [Inode.indirectBlockSingle, Inode.setSectorCount,
      Bytes.word32_setWord32_of_apart _ (by omega), Inode.setSizeLo,
      Bytes.word32_setWord32_of_apart _ (by omega), Inode.indirectBlockSingle]
  frame := hframe

/-- What is on the disk after a call: the data on top of what was there, and the inode. -/
structure Call.Done (c : Call) (sb : Superblock) (i : BitVec 32) (s : Mounted) (t : Transfer) :
    Prop where
  ok : ∀ k, t.bdev.result k = .success
  layout : SameLayout sb i s.bdev.disk t.bdev.disk s.inode t.inode
  read : c.dir = .read → t.bdev.disk = s.bdev.disk ∧
    Bytes.Rewrites (· - c.offset.toNat) c.offset.toNat (c.offset.toNat + c.len.toNat)
      (sb.fileByte s.bdev.disk s.inode) c.data t.data
  write : c.dir = .write → ∃ disk, Bytes.Rewrites (sb.fileAddr s.bdev.disk s.inode) c.offset.toNat
      (c.offset.toNat + c.len.toNat) (fun k => c.data (k - c.offset.toNat)) s.bdev.disk disk ∧
    ∀ a, (a < sb.inodeAddr s.bdev.disk i ∨ sb.inodeAddr s.bdev.disk i + 128 ≤ a) →
      t.bdev.disk a = disk a

/-- The end of a call keeps what the rounds have done. -/
theorem Progress.finish (hw : WholeFile sb s.bdev.disk i s.inode)
    (hr : c.InRange s.inode.sizeLo.toNat) {t : Transfer}
    (hlimit : (c.offset + c.len).toNat = c.offset.toNat + c.len.toNat)
    (h : Progress sb c.offset.toNat c.dir s.inode s.bdev.disk c.data
      (c.offset.toNat + c.len.toNat) t) :
    ∃ t', t.finish sb i c.offset c.len c.dir = some t' ∧ t'.cursor = t.cursor ∧
      c.Done sb i s t' := by
  cases hdir : c.dir with
  | read =>
      obtain ⟨hdisk, hdata⟩ := h.read hdir
      refine ⟨t, by simp [Transfer.finish], rfl, h.ok, ?_, fun _ => ⟨hdisk, hdata⟩, ?_⟩
      · rw [h.same, hdisk]
        exact ⟨rfl, fun _ _ => rfl, rfl, fun _ _ _ => rfl⟩
      · intro hw'
        rw [hdir] at hw'
        cases hw'
  | write =>
      obtain ⟨hdata, hdisk⟩ := h.write hdir
      have hsame : SameLayout sb i s.bdev.disk t.bdev.disk s.inode s.inode :=
        sameLayout_of_rewrites hdisk hr.2
      have hnot : c.dir ≠ .read := by
        rw [hdir]
        exact DataDir.noConfusion
      by_cases hend : t.inode.sizeLo ≤ c.offset + c.len
      · have hsize : c.offset + c.len = s.inode.sizeLo := by
          rw [h.same, BitVec.le_def] at hend
          have := hr.2
          exact BitVec.eq_of_toNat_eq (by omega)
        let inode := (s.inode.setSizeLo (c.offset + c.len)).setSectorCount
          (((s.inode.setSizeLo (c.offset + c.len)).sizeLo + 512#32 - 1#32) / 512#32)
        obtain ⟨b, hrun, hres, hb⟩ := inodeTransfer_slot t.bdev (hsame.wholeFile hw) h.ok inode
        rw [hsame.inodeAddr_eq hw] at hb
        have hout : ∀ a, (a < sb.inodeAddr s.bdev.disk i ∨ sb.inodeAddr s.bdev.disk i + 128 ≤ a) →
            b.disk a = t.bdev.disk a := fun a ha => by
          rw [hb, Bytes.splice_of_not_mem ha]
        refine ⟨{ t with inode, bdev := b }, ?_, rfl, ?_, ?_, fun hread => absurd hread hnot,
          fun _ => ⟨t.bdev.disk, hdisk, hout⟩⟩
        · rw [Transfer.finish, if_pos ⟨rfl, hend⟩, h.same]
          exact Option.bind_eq_some_iff.mpr ⟨_, hrun, rfl⟩
        · intro k
          rw [hres]
          exact h.ok k
        · exact sameLayout_of_inode hsize fun a ha ha' => (hout a ha').trans (hsame.frame a ha ha')
      · refine ⟨t, by rw [Transfer.finish, if_neg fun hc => hend hc.2], rfl, h.ok, ?_,
          fun hread => absurd hread hnot, fun _ => ⟨t.bdev.disk, hdisk, fun _ _ => rfl⟩⟩
        rw [h.same]
        exact hsame

/-- A call inside the file returns, with all bytes transferred. A round moves at least one byte. -/
theorem Call.returns_within (hw : WholeFile sb s.bdev.disk i s.inode)
    (hok : ∀ k, s.bdev.result k = .success) (hr : c.InRange s.inode.sizeLo.toNat) :
    ∃ t, ext2Transfer (c.len.toNat + 1) sb s.bdev i s.inode c.offset c.len c.data c.dir =
      some (c.len, t) ∧ c.Done sb i s t := by
  have hg := hw.geometry
  have hpos := hg.blockBytes_pos
  obtain ⟨hlen, hend⟩ := hr
  have hmax := hg.file_bytes_lt
  -- the last byte of the file is in one of the blocks that are mapped
  have hsize : s.inode.sizeLo.toNat + 2 * sb.blockBytes ≤ 2 ^ 32 := by
    have hlast := (hw.block_mapped (k := s.inode.sizeLo.toNat - 1) (by omega)).1
    rw [Nat.div_lt_iff_lt_mul hpos] at hlast
    omega
  have hlimit : (c.offset + c.len).toNat = c.offset.toNat + c.len.toNat := by
    rw [BitVec.toNat_add, Nat.mod_eq_of_lt (by omega)]
  have hclamp : clampedLen s.inode c.offset c.len = c.len := by
    rw [clampedLen, if_neg]
    rw [BitVec.lt_def, hlimit]
    omega
  have hat := Cursor.start_at hg.log_le c.offset (by omega)
  have hmaxo : max c.offset.toNat (c.offset.toNat / sb.blockBytes * sb.blockBytes) =
      c.offset.toNat := Nat.max_eq_left (Nat.div_mul_le_self _ _)
  have hstart : Progress sb c.offset.toNat c.dir s.inode s.bdev.disk c.data
      (max c.offset.toNat (c.offset.toNat / sb.blockBytes * sb.blockBytes))
      (Transfer.start sb s.bdev s.inode c.offset c.data) := by
    rw [hmaxo]
    exact ⟨rfl, hok, fun _ => ⟨rfl, .refl⟩, fun _ => ⟨rfl, .refl⟩⟩
  have hrounds : c.offset.toNat + c.len.toNat ≤
      (c.offset.toNat / sb.blockBytes + c.len.toNat + 1) * sb.blockBytes := by
    have h1 := Nat.lt_div_mul_add (a := c.offset.toNat) hpos
    have h2 : c.len.toNat ≤ c.len.toNat * sb.blockBytes := Nat.le_mul_of_pos_right _ hpos
    rw [Nat.add_mul, Nat.add_mul, Nat.one_mul]
    omega
  obtain ⟨t, hrun, hdone, hprog, hbytes⟩ := Progress.rounds hw hend (by omega) hlimit
    (by omega) c.len.toNat hstart hat rfl (by omega) hrounds
  obtain ⟨t', hfinish, hcursor, hdone'⟩ := hprog.finish hw ⟨hlen, hend⟩ hlimit
  refine ⟨t', ?_, hdone'⟩
  rw [ext2Transfer]
  simp only [hclamp, hrun, hdone, Option.bind_eq_bind, Option.bind_some, if_true, hfinish, hcursor,
    hbytes]

theorem Call.returns (hw : WholeFile sb s.bdev.disk i s.inode)
    (hok : ∀ k, s.bdev.result k = .success) (hr : c.InRange s.inode.sizeLo.toNat) :
    ∃ n t, ext2Transfer n sb s.bdev i s.inode c.offset c.len c.data c.dir = some (c.len, t) ∧
      c.Done sb i s t :=
  ⟨c.len.toNat + 1, Call.returns_within hw hok hr⟩

/-- The address of a byte of the file is not one of the inode's. -/
theorem WholeFile.fileAddr_outside {disk : Bytes} {inode : Inode} (hw : WholeFile sb disk i inode)
    {k : Nat} (hk : k < inode.sizeLo.toNat) :
    sb.fileAddr disk inode k < sb.inodeAddr disk i ∨
      sb.inodeAddr disk i + 128 ≤ sb.fileAddr disk inode k := by
  by_contra hin
  exact hw.not_holds_fileAddr hk _ (hw.holds_of_inodeAddr (by omega) (by omega))

/-- What a call has done is what it should do. -/
theorem Call.Done.correct (hw : WholeFile sb s.bdev.disk i s.inode)
    (hr : c.InRange s.inode.sizeLo.toNat) {t : Transfer} (h : c.Done sb i s t) {file : Bytes}
    (hfile : ∀ k < s.inode.sizeLo.toNat, sb.fileByte s.bdev.disk s.inode k = file k) :
    c.Correct sb i s.inode.sizeLo file s c.len t.data ⟨t.inode, t.bdev⟩ where
  returned := rfl
  sizeLo := h.layout.size
  array := by
    intro k hk
    rw [Superblock.fileByte, h.layout.fileAddr_eq hw hk]
    cases hdir : c.dir with
    | read =>
        rw [(h.read hdir).1, Call.apply_read hdir]
        exact hfile k hk
    | write =>
        obtain ⟨disk, hdisk, hout⟩ := h.write hdir
        rw [hout _ (hw.fileAddr_outside hk), Call.apply_write hdir]
        by_cases hin : c.offset.toNat ≤ k ∧ k < c.offset.toNat + c.len.toNat
        · rw [hdisk.new k hin.1 hin.2, Bytes.splice_of_mem hin.1 hin.2]
        · rw [Bytes.splice_of_not_mem (by omega), ← hfile k hk]
          refine hdisk.old _ fun l hlo hhi heq => hin ?_
          have hl : l < s.inode.sizeLo.toNat := Nat.lt_of_lt_of_le hhi hr.2
          rw [hw.fileAddr_inj hk hl heq]
          exact ⟨hlo, hhi⟩
  read := by
    intro hdir
    obtain ⟨hdisk, hdata⟩ := h.read hdir
    refine ⟨hdisk, fun k hk => ?_⟩
    have hnew := hdata.new (c.offset.toNat + k) (by omega) (by omega)
    rw [Nat.add_sub_cancel_left] at hnew
    rw [hnew, hfile]
    exact Nat.lt_of_lt_of_le (by omega) hr.2
  others := by
    intro a ha hout
    cases hdir : c.dir with
    | read => rw [(h.read hdir).1]
    | write =>
        obtain ⟨disk, hdisk, hout'⟩ := h.write hdir
        exact (hout' a hout).trans (hdisk.old a ha)

end Calls

/-! ## Sequences of calls -/

section Runs

variable {sb : Superblock} {i : BitVec 32} {s t : Mounted} {cs : List Call}

/-- After every sequence of calls the file is whole and has the bytes that the calls say. -/
theorem Runs.invariant (hw : WholeFile sb s.bdev.disk i s.inode)
    (hok : ∀ k, s.bdev.result k = .success) (hrun : Runs sb i s cs t) :
    WholeFile sb t.bdev.disk i t.inode ∧ (∀ k, t.bdev.result k = .success) ∧
      t.inode.sizeLo = s.inode.sizeLo ∧
      ∀ k < s.inode.sizeLo.toNat, sb.fileByte t.bdev.disk t.inode k =
        cs.foldl (fun file c => c.apply file) (sb.fileByte s.bdev.disk s.inode) k := by
  induction hrun with
  | nil => exact ⟨hw, hok, rfl, fun _ _ => rfl⟩
  | snoc _ hr hreturns ih =>
      obtain ⟨hw', hok', hsize, hfile⟩ := ih
      obtain ⟨n, r, hcall, rfl, rfl⟩ := hreturns
      rw [← hsize] at hr
      obtain ⟨m, r', hspec, hdone⟩ := Call.returns hw' hok' hr
      obtain ⟨-, rfl⟩ := Prod.mk.inj (ext2Transfer_unique hcall hspec)
      rw [← hsize] at hfile
      have hcorrect := hdone.correct hw' hr hfile
      refine ⟨hdone.layout.wholeFile hw', hdone.ok, hdone.layout.size.trans hsize, fun k hk => ?_⟩
      rw [List.foldl_append]
      exact hcorrect.array k (by rw [hsize]; exact hk)

/-- A file behaves as an array of bytes: in every state that calls inside the file lead to, the file
    has the bytes that were written to it, and each further call inside the file returns and is
    correct. -/
theorem file_refines_array (hw : WholeFile sb s.bdev.disk i s.inode)
    (hok : ∀ k, s.bdev.result k = .success) (hrun : Runs sb i s cs t) :
    t.inode.sizeLo = s.inode.sizeLo ∧
      (∀ k < s.inode.sizeLo.toNat, sb.fileByte t.bdev.disk t.inode k =
        cs.foldl (fun file c => c.apply file) (sb.fileByte s.bdev.disk s.inode) k) ∧
      ∀ c : Call, c.InRange s.inode.sizeLo.toNat →
        (∃ v out t', c.Returns sb i t v out t') ∧
        ∀ v out t', c.Returns sb i t v out t' → c.Correct sb i s.inode.sizeLo
          (cs.foldl (fun file c => c.apply file) (sb.fileByte s.bdev.disk s.inode)) t v out t' := by
  obtain ⟨hw', hok', hsize, hfile⟩ := hrun.invariant hw hok
  refine ⟨hsize, hfile, fun c hr => ?_⟩
  rw [← hsize] at hr hfile ⊢
  obtain ⟨n, r, hcall, hdone⟩ := Call.returns hw' hok' hr
  refine ⟨⟨_, _, _, n, r, hcall, rfl, rfl⟩, ?_⟩
  rintro v out t' ⟨m, r', hcall', rfl, rfl⟩
  obtain ⟨rfl, rfl⟩ := Prod.mk.inj (ext2Transfer_unique hcall hcall')
  exact hdone.correct hw' hr hfile

/-- A file of two bytes in block 5 of the small image. -/
def shortInode : Inode := fun a => if a = 4 then 2#8 else if a = 40 then 5#8 else 0#8

theorem shortInode_mapped (k : Nat) :
    smallSuperblock.mapped smallDisk shortInode k = if k = 0 then 5#32 else 0#32 := by
  rw [Superblock.mapped]
  split
  next hk =>
    interval_cases k <;> decide
  next hk =>
    rw [if_pos (by decide), if_neg (by omega)]

theorem short_wholeFile : WholeFile smallSuperblock smallDisk 1#32 shortInode where
  image := small_consistent
  file :=
    { pos := by decide
      le := by decide
      indirect := fun h => absurd (by decide) h
      mapped := by
        intro k _ hne
        rw [shortInode_mapped] at hne ⊢
        split at hne
        next hk =>
          rw [if_pos hk, small_markedFree]
          refine ⟨by decide, by decide, by decide, fun r hr => ?_⟩
          rcases small_holds hr with h | h | h | h <;> exact absurd h.2 (by decide)
        next => exact absurd rfl hne
      inj := by
        intro k _ l _ hne heq
        rw [shortInode_mapped] at hne heq
        rw [shortInode_mapped] at heq
        split at hne
        next hk =>
          rw [if_pos hk] at heq
          split at heq
          next hl => rw [hk, hl]
          next => exact absurd heq (by decide)
        next => exact absurd rfl hne }
  sectors := by decide
  inode_dvd := by decide
  blocks := by
    intro k hk
    have hsize : shortInode.sizeLo.toNat = 2 := by decide
    rw [hsize, small_values.2.2.2.1] at hk
    obtain rfl : k = 0 := by omega
    rw [shortInode_mapped]
    exact ⟨by decide, by decide⟩

/-- Writing the second byte of the short file. -/
theorem short_file_write : ∃ v out t,
    (Call.mk 1#32 1#32 (fun _ => 7#8) .write).Returns smallSuperblock 1#32
      ⟨shortInode, smallBdev⟩ v out t ∧
    (Call.mk 1#32 1#32 (fun _ => 7#8) .write).Correct smallSuperblock 1#32 2#32
      (smallSuperblock.fileByte smallDisk shortInode) ⟨shortInode, smallBdev⟩ v out t := by
  obtain ⟨-, -, hcall⟩ := file_refines_array (s := ⟨shortInode, smallBdev⟩) short_wholeFile
    (fun _ => rfl) .nil
  obtain ⟨⟨v, out, t, hreturns⟩, hcorrect⟩ :=
    hcall (.mk 1#32 1#32 (fun _ => 7#8) .write) ⟨by decide, by decide⟩
  exact ⟨v, out, t, hreturns, hcorrect v out t hreturns⟩

end Runs

end Muse.Ext2
