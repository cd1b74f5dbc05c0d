import Muse.Ext2.Proofs.AllocRuns
import Muse.Library.Records

/-!
# Reading back what was written

`inode_transfer` and `group_descriptor_transfer` change a part of a sector: they read the sector,
replace some of its bytes and write it back. For inodes this is a write of 128 bytes at the inode's
place in the table of its group, and the places of different inodes are apart. For descriptors the
last of the three transfers is a read, so that nothing is written.
-/

namespace Muse.Ext2

open Muse.Library

/-! ## Where descriptors and inodes are -/

namespace Superblock

variable (sb : Superblock)

/-- The first byte of the descriptor table (`ext2.c:16-18`). -/
def gdtStart : Nat := (if sb.blockSize > 2048#32 then sb.blockSize else 2048#32).toNat

/-- The group of an inode (`ext2.c:47`). -/
def groupOf (i : BitVec 32) : BitVec 32 := (i - 1#32) / sb.inodesPerGroup

/-- The number of an inode in its group (`ext2.c:48`). -/
def indexOf (i : BitVec 32) : BitVec 32 := (i - 1#32) % sb.inodesPerGroup

/-- The first byte of the inode table of group `g`. -/
def tableStart (disk : Bytes) (g : BitVec 32) : Nat :=
  (sb.descriptorAt disk g).inodeTable.toNat * sb.blockSize.toNat

/-- The bytes of an inode table. -/
def tableBytes : Nat := sb.inodesPerGroup.toNat * sb.inodeBytes.toNat

/-- The first byte of the inode number `i`. -/
def inodePos (disk : Bytes) (i : BitVec 32) : Nat :=
  sb.tableStart disk (sb.groupOf i) + (sb.indexOf i).toNat * sb.inodeBytes.toNat

end Superblock

/-- An image whose first `groups` groups have inode tables that are apart from each other and from
    the descriptors, with sector numbers that do not wrap around. -/
structure InodeTables (sb : Superblock) (groups : Nat) (disk : Bytes) : Prop where
  inodes_pos : 0 < sb.inodesPerGroup.toNat
  size : sb.inodeBytes = 128#32 ∨ sb.inodeBytes = 256#32 ∨ sb.inodeBytes = 512#32
  descriptor_fits : 32 * groups ≤ 2 ^ 32
  index_fits : ∀ k < sb.inodesPerGroup.toNat, k * sb.inodeBytes.toNat < 2 ^ 32
  table_fits : ∀ g : BitVec 32, g.toNat < groups → sb.tableStart disk g < 2 ^ 32
  apart : ∀ g g' : BitVec 32, g.toNat < groups → g'.toNat < groups → g ≠ g' →
    sb.tableStart disk g + sb.tableBytes ≤ sb.tableStart disk g' ∨
      sb.tableStart disk g' + sb.tableBytes ≤ sb.tableStart disk g
  gdt_apart : ∀ g : BitVec 32, g.toNat < groups →
    sb.gdtStart + 32 * groups ≤ sb.tableStart disk g ∨
      sb.tableStart disk g + sb.tableBytes ≤ sb.gdtStart

/-- `bdev'` is `bdev` after the inode number `i` was written: reading it gives `x`, all other inodes
    read as before, and no other byte of the disk is changed. -/
structure InodeStored (sb : Superblock) (groups : Nat) (i : BitVec 32) (x : Inode)
    (bdev bdev' : Bdev) : Prop where
  same : ∀ y, ∃ x' b, inodeTransfer sb bdev' i y .read = some (.success, x', b) ∧
    ∀ k < 128, x' k = x k
  others : ∀ j y, j ≠ i → (sb.groupOf j).toNat < groups →
    (inodeTransfer sb bdev' j y .read).map (fun r => (r.1, r.2.1)) =
      (inodeTransfer sb bdev j y .read).map (fun r => (r.1, r.2.1))
  frame : ∀ a, a < sb.inodePos bdev.disk i ∨ sb.inodePos bdev.disk i + 128 ≤ a →
    bdev'.disk a = bdev.disk a

variable {sb : Superblock} {groups : Nat} {bdev : Bdev} {disk disk' : Bytes} {i j : BitVec 32}

theorem Superblock.dvd_gdtStart (sb : Superblock) : 512 ∣ sb.gdtStart := by
  unfold Superblock.gdtStart
  split
  · exact sb.dvd_blockSize
  · decide

/-- Sixteen descriptors fill a sector. -/
theorem packed_descriptors : Packed sectorSize 32 16 := ⟨rfl, by decide⟩

/-- The descriptor of a group is a record of the table. -/
theorem descriptorAt_eq {g : BitVec 32} (h : g.toNat * 32 < 2 ^ 32) :
    sb.descriptorAt disk g = disk.slice (sb.gdtStart + g.toNat * 32) 32 := by
  have hdvd := sb.dvd_gdtStart
  have hsplit := packed_descriptors.split g.toNat
  have hslot := packed_descriptors.slot_le g.toNat
  have hsector : g.toNat * 32 / 512 = g.toNat / 16 :=
    packed_descriptors.div_sector (by decide) g.toNat
  have hlba : (sb.descriptorLba g).toNat = g.toNat / 16 + sb.gdtStart / 512 := by
    have hlt : sb.gdtStart < 2 ^ 32 := by
      unfold Superblock.gdtStart
      exact BitVec.isLt _
    unfold Superblock.descriptorLba
    simp only [BitVec.toNat_add, BitVec.toNat_udiv, BitVec.toNat_mul]
    change (g.toNat * 32 % 2 ^ 32 / 512 + sb.gdtStart / 512) % 2 ^ 32 = _
    rw [Nat.mod_eq_of_lt h, hsector]
    omega
  have hmod : (g % 16#32).toNat = g.toNat % 16 := by
    rw [BitVec.toNat_umod]
    rfl
  rw [Superblock.descriptorAt, hlba, hmod, Bytes.slice_slice (by omega), Nat.mul_add,
    show sectorSize * (sb.gdtStart / 512) = sb.gdtStart from Nat.mul_div_cancel' hdvd,
    Nat.mul_comm 32 (g.toNat % 16)]
  congr 1
  omega

namespace InodeTables

variable (h : InodeTables sb groups disk)

include h

/-- Inodes of this size fill a sector. -/
theorem packed : Packed sectorSize sb.inodeBytes.toNat (512 / sb.inodeBytes.toNat) := by
  refine Packed.of_dvd (by decide) ?_
  obtain hs | hs | hs := h.size <;> rw [hs] <;> decide

theorem inodeBytes_ge : 128 ≤ sb.inodeBytes.toNat := by
  obtain hs | hs | hs := h.size <;> rw [hs] <;> decide

theorem divides : ¬ (sb.inodeBytes = 0#32 ∨ 512#32 / sb.inodeBytes = 0#32) := by
  obtain hs | hs | hs := h.size <;> rw [hs] <;> decide

theorem index_lt (i : BitVec 32) : (sb.indexOf i).toNat < sb.inodesPerGroup.toNat := by
  rw [Superblock.indexOf, BitVec.toNat_umod]
  exact Nat.mod_lt _ h.inodes_pos

/-- An inode lies in the table of its group. -/
theorem inodePos_le (i : BitVec 32) :
    sb.inodePos disk i + 128 ≤ sb.tableStart disk (sb.groupOf i) + sb.tableBytes := by
  have hrecord := record_le sb.inodeBytes.toNat (h.index_lt i)
  have hge := h.inodeBytes_ge
  rw [Superblock.inodePos, Superblock.tableBytes]
  omega

/-- Different inodes are in different places. -/
theorem inodePos_apart (hi : (sb.groupOf i).toNat < groups) (hj : (sb.groupOf j).toNat < groups)
    (hne : j ≠ i) :
    sb.inodePos disk j + 128 ≤ sb.inodePos disk i ∨
      sb.inodePos disk i + 128 ≤ sb.inodePos disk j := by
  have hge := h.inodeBytes_ge
  by_cases hgroup : sb.groupOf j = sb.groupOf i
  · have hindex : (sb.indexOf j).toNat ≠ (sb.indexOf i).toNat := by
      intro heq
      have hdiv : (j - 1#32).toNat / sb.inodesPerGroup.toNat =
          (i - 1#32).toNat / sb.inodesPerGroup.toNat := by
        have := congrArg BitVec.toNat hgroup
        rwa [Superblock.groupOf, Superblock.groupOf, BitVec.toNat_udiv, BitVec.toNat_udiv] at this
      rw [Superblock.indexOf, Superblock.indexOf, BitVec.toNat_umod, BitVec.toNat_umod] at heq
      have hsame : (j - 1#32).toNat = (i - 1#32).toNat := by
        rw [← Nat.div_add_mod (j - 1#32).toNat sb.inodesPerGroup.toNat, hdiv, heq,
          Nat.div_add_mod]
      exact hne ((BitVec.sub_left_inj _).mp (BitVec.eq_of_toNat_eq hsame))
    have hrecord := record_apart sb.inodeBytes.toNat hindex
    rw [Superblock.inodePos, Superblock.inodePos, hgroup]
    omega
  · have htables := h.apart _ _ hi hj (Ne.symm hgroup)
    have hlei := h.inodePos_le i
    have hlej := h.inodePos_le j
    have hposi : sb.tableStart disk (sb.groupOf i) ≤ sb.inodePos disk i := Nat.le_add_right _ _
    have hposj : sb.tableStart disk (sb.groupOf j) ≤ sb.inodePos disk j := Nat.le_add_right _ _
    omega

/-- The sector of an inode as `inode_transfer` computes it, and its slot there. -/
theorem lba_slot (hi : (sb.groupOf i).toNat < groups) :
    sectorSize * (sb.indexOf i * sb.inodeBytes / 512#32 +
        sb.blockLba (sb.descriptorAt disk (sb.groupOf i)).inodeTable).toNat +
      (sb.indexOf i % (512#32 / sb.inodeBytes) * sb.inodeBytes).toNat = sb.inodePos disk i ∧
    (sb.indexOf i % (512#32 / sb.inodeBytes) * sb.inodeBytes).toNat + 128 ≤ sectorSize := by
  have hpos : 0 < sb.inodeBytes.toNat := Nat.lt_of_lt_of_le (by decide) h.inodeBytes_ge
  have hge := h.inodeBytes_ge
  have hindex := h.index_fits _ (h.index_lt i)
  have htable := h.table_fits _ hi
  have hsplit := h.packed.split (sb.indexOf i).toNat
  have hslot := h.packed.slot_le (sb.indexOf i).toNat
  have hsector : (sb.indexOf i).toNat * sb.inodeBytes.toNat / 512 =
      (sb.indexOf i).toNat / (512 / sb.inodeBytes.toNat) := h.packed.div_sector hpos _
  have hstart : sectorSize * (sb.tableStart disk (sb.groupOf i) / 512) =
      sb.tableStart disk (sb.groupOf i) :=
    Nat.mul_div_cancel' (Nat.dvd_mul_left_of_dvd sb.dvd_blockSize _)
  have hlba : (sb.indexOf i * sb.inodeBytes / 512#32 +
      sb.blockLba (sb.descriptorAt disk (sb.groupOf i)).inodeTable).toNat =
        (sb.indexOf i).toNat / (512 / sb.inodeBytes.toNat) +
          sb.tableStart disk (sb.groupOf i) / 512 := by
    rw [Superblock.tableStart] at htable ⊢
    rw [Superblock.blockLba, BitVec.toNat_add, BitVec.toNat_udiv, BitVec.toNat_udiv,
      BitVec.toNat_mul, BitVec.toNat_mul, Nat.mod_eq_of_lt hindex, Nat.mod_eq_of_lt htable]
    simp only [BitVec.toNat_ofNat, Nat.reducePow, Nat.reduceMod]
    rw [hsector]
    refine Nat.mod_eq_of_lt ?_
    omega
  have hoff : (sb.indexOf i % (512#32 / sb.inodeBytes) * sb.inodeBytes).toNat =
      (sb.indexOf i).toNat % (512 / sb.inodeBytes.toNat) * sb.inodeBytes.toNat := by
    rw [BitVec.toNat_mul, BitVec.toNat_umod, BitVec.toNat_udiv]
    refine Nat.mod_eq_of_lt ?_
    have : sectorSize = 512 := rfl
    simp only [BitVec.toNat_ofNat, Nat.reducePow, Nat.reduceMod]
    omega
  rw [hlba, hoff, Superblock.inodePos, hsplit, Nat.mul_add, hstart]
  omega

/-! ## Inodes -/

/-- The descriptors are outside of the inode tables. -/
theorem descriptorAt_congr (hi : (sb.groupOf i).toNat < groups) {g : BitVec 32}
    (hg : g.toNat < groups)
    (hframe : ∀ a, a < sb.inodePos disk i ∨ sb.inodePos disk i + 128 ≤ a → disk' a = disk a) :
    sb.descriptorAt disk' g = sb.descriptorAt disk g := by
  have hfits := h.descriptor_fits
  have hapart := h.gdt_apart _ hi
  have hle := h.inodePos_le i
  have hpos : sb.tableStart disk (sb.groupOf i) ≤ sb.inodePos disk i := Nat.le_add_right _ _
  rw [descriptorAt_eq (by omega), descriptorAt_eq (by omega)]
  refine Bytes.slice_congr fun k hk => hframe _ ?_
  omega

theorem inodesPerGroup_ne_zero : sb.inodesPerGroup ≠ 0#32 :=
  BitVec.toNat_ne_iff_ne.mp (Nat.ne_of_gt h.inodes_pos)

/-- Reading an inode takes its 128 bytes. -/
theorem read_eq (bdev : Bdev) (hd : bdev.disk = disk) (hok : ∀ n, bdev.result n = .success)
    (hi : (sb.groupOf i).toNat < groups) (y : Inode) :
    inodeTransfer sb bdev i y .read =
      some (.success, disk.slice (sb.inodePos disk i) 128, bdev.tick.tick) := by
  subst hd
  obtain ⟨hlba, hslot⟩ := h.lba_slot hi
  have hnext : bdev.tick.next = .success := hok _
  unfold inodeTransfer
  rw [if_neg h.inodesPerGroup_ne_zero]
  simp only [descriptorTransfer_eq sb (hok bdev.transfers), ne_eq, not_true_eq_false, if_false,
    Bdev.read_fresh hnext, if_neg h.divides, Bdev.tick_disk]
  rw [Bytes.slice_slice]
  · rw [← hlba]
    rfl
  · exact hslot

/-- Writing an inode replaces its 128 bytes. -/
theorem write_eq (bdev : Bdev) (hd : bdev.disk = disk) (hok : ∀ n, bdev.result n = .success)
    (hi : (sb.groupOf i).toNat < groups) (x : Inode) :
    ∃ b, inodeTransfer sb bdev i x .write = some (.success, x, b) ∧ b.result = bdev.result ∧
      b.disk = disk.splice (sb.inodePos disk i) 128 x := by
  subst hd
  obtain ⟨hlba, hslot⟩ := h.lba_slot hi
  have hnext : bdev.tick.next = .success := hok _
  have hnext' : bdev.tick.tick.next = .success := hok _
  unfold inodeTransfer
  rw [if_neg h.inodesPerGroup_ne_zero]
  simp only [descriptorTransfer_eq sb (hok bdev.transfers), ne_eq, not_true_eq_false, if_false,
    Bdev.read_fresh hnext, if_neg h.divides, Bdev.write_ok hnext']
  refine ⟨_, rfl, rfl, ?_⟩
  simp only [Bdev.wrote, Bdev.tick_disk]
  rw [← hlba, ← Bytes.splice_slice_splice (n := sectorSize) hslot]
  rfl

/-- The tables stay where they are when an inode is written. -/
theorem tableStart_eq (hi : (sb.groupOf i).toNat < groups) {g : BitVec 32} (hg : g.toNat < groups)
    (hframe : ∀ a, a < sb.inodePos disk i ∨ sb.inodePos disk i + 128 ≤ a → disk' a = disk a) :
    sb.tableStart disk' g = sb.tableStart disk g := by
  rw [Superblock.tableStart, h.descriptorAt_congr hi hg hframe, Superblock.tableStart]

theorem kept (hi : (sb.groupOf i).toNat < groups)
    (hframe : ∀ a, a < sb.inodePos disk i ∨ sb.inodePos disk i + 128 ≤ a → disk' a = disk a) :
    InodeTables sb groups disk' where
  inodes_pos := h.inodes_pos
  size := h.size
  descriptor_fits := h.descriptor_fits
  index_fits := h.index_fits
  table_fits := by
    intro g hg
    rw [h.tableStart_eq hi hg hframe]
    exact h.table_fits g hg
  apart := by
    intro g g' hg hg' hne
    rw [h.tableStart_eq hi hg hframe, h.tableStart_eq hi hg' hframe]
    exact h.apart g g' hg hg' hne
  gdt_apart := by
    intro g hg
    rw [h.tableStart_eq hi hg hframe]
    exact h.gdt_apart g hg

end InodeTables

/-- **Inode read after write.** On an array-like device, writing an inode of the image succeeds;
    after it the inode reads as what was written, the other inodes read as before, and no byte
    outside its 128 bytes is changed. -/
theorem inode_read_after_write (hok : ∀ n, bdev.result n = .success)
    (h : InodeTables sb groups bdev.disk) (hi : (sb.groupOf i).toNat < groups) (x : Inode) :
    ∃ bdev', inodeTransfer sb bdev i x .write = some (.success, x, bdev') ∧
      InodeStored sb groups i x bdev bdev' := by
  obtain ⟨bdev', hwrite, hresult, hdisk⟩ := h.write_eq bdev rfl hok hi x
  have hframe : ∀ a, a < sb.inodePos bdev.disk i ∨ sb.inodePos bdev.disk i + 128 ≤ a →
      bdev'.disk a = bdev.disk a := by
    intro a ha
    rw [hdisk, Bytes.splice_of_not_mem ha]
  have hok' : ∀ n, bdev'.result n = .success := by
    rw [hresult]
    exact hok
  have hkept := h.kept hi hframe
  have hpos : ∀ k, (sb.groupOf k).toNat < groups →
      sb.inodePos bdev'.disk k = sb.inodePos bdev.disk k := by
    intro k hk
    rw [Superblock.inodePos, h.tableStart_eq hi hk hframe, Superblock.inodePos]
  refine ⟨bdev', hwrite, ⟨?_, ?_, hframe⟩⟩
  · intro y
    refine ⟨_, _, hkept.read_eq bdev' rfl hok' hi y, ?_⟩
    intro k hk
    rw [Bytes.slice_of_lt hk, hpos i hi, hdisk, Bytes.splice_add hk]
  · intro j y hne hj
    have hapart := h.inodePos_apart hi hj hne
    rw [hkept.read_eq bdev' rfl hok' hj y, h.read_eq bdev rfl hok hj y, hpos j hj]
    simp only [Option.map_some]
    rw [Bytes.slice_congr fun k hk => hframe _ (by omega)]

/-- Two groups of 16 inodes, with blocks of 1024 bytes. The tables start at the blocks 5 and 7. -/
def twoTables : Superblock := ⟨64#32, 1#32, 0#32, 32#32, 16#32, 0#32, 128#16⟩

def twoTablesDisk : Bytes := fun a => if a = 2056 then 5#8 else if a = 2088 then 7#8 else 0#8

theorem twoTables_start : twoTables.tableStart twoTablesDisk 0#32 = 5 * 1024 ∧
    twoTables.tableStart twoTablesDisk 1#32 = 7 * 1024 ∧ twoTables.tableBytes = 2048 ∧
    twoTables.gdtStart = 2048 := by
  decide

theorem twoTables_image : InodeTables twoTables 2 twoTablesDisk := by
  obtain ⟨h0, h1, hbytes, hgdt⟩ := twoTables_start
  have hcases : ∀ g : BitVec 32, g.toNat < 2 → g = 0#32 ∨ g = 1#32 := by
    intro g hg
    rw [← BitVec.toNat_inj, ← BitVec.toNat_inj]
    simp only [BitVec.toNat_ofNat, Nat.reducePow, Nat.reduceMod, Nat.zero_mod]
    omega
  refine ⟨by decide, .inl rfl, by decide, by decide, ?_, ?_, ?_⟩
  · intro g hg
    obtain rfl | rfl := hcases g hg
    · rw [h0]
      decide
    · rw [h1]
      decide
  · intro g g' hg hg' hne
    obtain rfl | rfl := hcases g hg <;> obtain rfl | rfl := hcases g' hg'
    · exact absurd rfl hne
    · rw [h0, h1, hbytes]
      omega
    · rw [h0, h1, hbytes]
      omega
    · exact absurd rfl hne
  · intro g hg
    obtain rfl | rfl := hcases g hg
    · rw [h0, hbytes, hgdt]
      omega
    · rw [h1, hbytes, hgdt]
      omega

/-- Inode 18 is the second one of the second group. -/
theorem inode_18_read_after_write :
    ∃ bdev', inodeTransfer twoTables ⟨twoTablesDisk, fun _ => .success, 0, []⟩ 18#32
        (fun _ => 7#8) .write = some (.success, fun _ => 7#8, bdev') ∧
      InodeStored twoTables 2 18#32 (fun _ => 7#8) ⟨twoTablesDisk, fun _ => .success, 0, []⟩
        bdev' :=
  inode_read_after_write (fun _ => rfl) twoTables_image (by decide) _

/-! ## Descriptors -/

/-- What was written with `group_descriptor_transfer` is what is read: `r` is the result of a
    `DIR_WRITE` of `d` for group `idx`. -/
structure DescriptorStored (sb : Superblock) (idx : BitVec 32) (d : GroupDescriptor) (bdev : Bdev)
    (r : DriveRes × GroupDescriptor × Bdev) : Prop where
  same : r.1 = .success → ∀ e, ∃ d' b,
    groupDescriptorTransfer sb r.2.2 idx e .read = (.success, d', b) ∧ ∀ k < 32, d' k = d k
  others : r.1 = .success → ∀ g e, g ≠ idx →
    (groupDescriptorTransfer sb r.2.2 g e .read).2.1 =
      (groupDescriptorTransfer sb bdev g e .read).2.1

/-- A descriptor that is written is not: the sector is read twice. -/
theorem groupDescriptorTransfer_write (sb : Superblock) (hok : ∀ n, bdev.result n = .success)
    (idx : BitVec 32) (d : GroupDescriptor) :
    groupDescriptorTransfer sb bdev idx d .write = (.success, d, bdev.tick.tick) := by
  have hnext : bdev.tick.next = .success := hok _
  unfold groupDescriptorTransfer
  simp only [Bdev.read_fresh (hok bdev.transfers), ne_eq, not_true_eq_false, if_false]
  rw [Bdev.read, if_pos hnext]

/-- On an array-like device, a descriptor reads back as what was written exactly if that is what
    the disk already held. -/
theorem descriptor_read_after_write_iff (sb : Superblock) (hok : ∀ n, bdev.result n = .success)
    (idx : BitVec 32) (d : GroupDescriptor) :
    DescriptorStored sb idx d bdev (groupDescriptorTransfer sb bdev idx d .write) ↔
      ∀ k < 32, sb.descriptorAt bdev.disk idx k = d k := by
  have hread : ∀ (b : Bdev) (g : BitVec 32) (e : GroupDescriptor), b.disk = bdev.disk →
      b.result = bdev.result → groupDescriptorTransfer sb b g e .read =
        (.success, sb.descriptorAt bdev.disk g, b.tick) := by
    intro b g e hdisk hresult
    have hnext : b.next = .success := by
      rw [Bdev.next, hresult]
      exact hok _
    rw [descriptorTransfer_eq sb hnext, hdisk]
  rw [groupDescriptorTransfer_write sb hok]
  constructor
  · intro h
    obtain ⟨d', b, heq, hd'⟩ := h.same rfl fresh
    rw [hread bdev.tick.tick idx fresh rfl rfl] at heq
    obtain ⟨rfl, -⟩ : sb.descriptorAt bdev.disk idx = d' ∧ _ = b := by simpa using heq
    exact hd'
  · intro h
    constructor
    · intro _ e
      exact ⟨_, _, hread bdev.tick.tick idx e rfl rfl, h⟩
    · intro _ g e _
      rw [hread bdev.tick.tick g e rfl rfl, hread bdev g e rfl rfl]

/-- On a disk of ones a descriptor of ones is what was there, and one of zeros is not. -/
theorem descriptor_read_after_write_iff_ones :
    DescriptorStored twoTables 1#32 (fun _ => 1#8) ⟨fun _ => 1#8, fun _ => .success, 0, []⟩
        (groupDescriptorTransfer twoTables ⟨fun _ => 1#8, fun _ => .success, 0, []⟩ 1#32
          (fun _ => 1#8) .write) ∧
      ¬ DescriptorStored twoTables 1#32 fresh ⟨fun _ => 1#8, fun _ => .success, 0, []⟩
        (groupDescriptorTransfer twoTables ⟨fun _ => 1#8, fun _ => .success, 0, []⟩ 1#32 fresh
          .write) := by
  rw [descriptor_read_after_write_iff twoTables (fun _ => rfl),
    descriptor_read_after_write_iff twoTables (fun _ => rfl)]
  exact ⟨by decide +kernel, fun h => absurd (h 0 (by decide)) (by decide +kernel)⟩

/-- A descriptor of ones on a disk of zeros. -/
theorem descriptor_not_stored : ¬ ∀ (sb : Superblock) (bdev : Bdev) (idx : BitVec 32)
    (d : GroupDescriptor), (∀ n, bdev.result n = .success) →
      DescriptorStored sb idx d bdev (groupDescriptorTransfer sb bdev idx d .write) := by
  intro hall
  have h := (hall twoTables ⟨fun _ => 0#8, fun _ => .success, 0, []⟩ 1#32 (fun _ => 1#8)
    fun _ => rfl).same
  rw [groupDescriptorTransfer_write twoTables fun _ => rfl] at h
  obtain ⟨d', b, heq, hd'⟩ := h rfl fresh
  rw [descriptorTransfer_eq twoTables rfl] at heq
  obtain ⟨rfl, -⟩ : twoTables.descriptorAt (fun _ => 0#8) 1#32 = d' ∧ _ = b := by
    simpa using heq
  exact absurd (hd' 0 (by decide)) (by decide)

end Muse.Ext2
