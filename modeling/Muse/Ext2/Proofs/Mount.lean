import Muse.Ext2.Mount
import Muse.Ext2.Proofs.Clamp

/-!
# Which superblocks have defined arithmetic

Every shift has the same count, and is made on each path before anything else. If it is defined, the
checked functions are those without checks, except that they tell a division by zero from a loop
that does not end. `detect_ext2` checks the signature only, so the other fields decide.
-/

namespace Muse.Ext2.Checked

open Muse.Library
open Muse.Library.Checked (shl_of_lt shl_of_le udiv_of_ne umod_of_ne udiv_zero umod_zero)
open Muse.Vfs (Tnode)

variable {sb : Superblock} {bdev : Bdev} {i : BitVec 32} {inode : Inode}

/-! ## The functions without checks -/

section Shift

variable (hlog : sb.blockSizeLog.toNat < 32)

include hlog

theorem blockSize_eq : blockSize sb = some sb.blockSize := shl_of_lt hlog

theorem groupDescriptorTransfer_eq (bdev : Bdev) (g : BitVec 32) (d : GroupDescriptor)
    (dir : DataDir) :
    groupDescriptorTransfer sb bdev g d dir =
      some (Ext2.groupDescriptorTransfer sb bdev g d dir) := by
  unfold groupDescriptorTransfer Ext2.groupDescriptorTransfer
  rw [blockSize_eq hlog]
  dsimp only [Option.bind_eq_bind, Option.bind_some]
  generalize (if sb.blockSize > 2048#32 then sb.blockSize else 2048#32) = gdt
  cases dir <;> dsimp only <;> split_ifs <;> rfl

theorem inodeTransfer_eq (bdev : Bdev) (i : BitVec 32) (inode : Inode) (dir : DataDir) :
    inodeTransfer sb bdev i inode dir = Ext2.inodeTransfer sb bdev i inode dir := by
  unfold inodeTransfer Ext2.inodeTransfer
  by_cases hz : sb.inodesPerGroup = 0#32
  · rw [hz, if_pos rfl, udiv_zero]
    rfl
  rw [udiv_of_ne hz, umod_of_ne hz, blockSize_eq hlog, if_neg hz]
  simp only [Option.bind_eq_bind, Option.bind_some, groupDescriptorTransfer_eq hlog,
    Superblock.blockLba]
  generalize Ext2.groupDescriptorTransfer sb bdev _ fresh .read = r
  obtain ⟨err, descriptor, b⟩ := r
  dsimp only
  by_cases herr : err = .success
  · rw [if_neg (not_not.mpr herr), if_neg (not_not.mpr herr)]
    split
    next herr' => exact (if_pos herr').symm
    next herr' =>
      refine Eq.trans ?_ (if_neg herr').symm
      by_cases hbytes : sb.inodeBytes = 0#32
      · rw [hbytes, udiv_zero, if_pos (.inl rfl)]
        rfl
      rw [udiv_of_ne hbytes]
      by_cases hslots : 512#32 / sb.inodeBytes = 0#32
      · rw [hslots, if_pos (.inr rfl), Option.bind_some, umod_zero]
        rfl
      rw [Option.bind_some, umod_of_ne hslots, if_neg (not_or.mpr ⟨hbytes, hslots⟩)]
      cases dir <;> rfl
  · rw [if_pos herr, if_pos herr]

theorem searchGroups_eq (p groupCnt : BitVec 32) (n : Nat) (d : BitVec 32) (bdev : Bdev) :
    searchGroups sb p groupCnt n d bdev = some (Ext2.searchGroups sb p groupCnt n d bdev) := by
  have htry : ∀ (bdev : Bdev) (inRange : Bool) (group : BitVec 32),
      tryGroup sb bdev inRange group = some (Ext2.tryGroup sb bdev inRange group) := by
    intro bdev inRange group
    unfold tryGroup Ext2.tryGroup allocExt2Obj
    rw [blockSize_eq hlog]
    cases inRange <;> rfl
  induction n generalizing d bdev with
  | zero => rfl
  | succ n ih =>
      rw [searchGroups, Ext2.searchGroups, htry]
      dsimp only [Option.bind_eq_bind, Option.bind_some]
      split
      · rfl
      rw [htry, Option.bind_some]
      split
      · rfl
      · exact ih _ _

theorem readBlocks_eq (n : Nat) (k : BitVec 32) (t : Transferred) :
    readBlocks sb i n k t = Ext2.readBlocks sb i n k t := by
  induction n generalizing k t with
  | zero => rfl
  | succ n ih =>
      rw [readBlocks, Ext2.readBlocks]
      simp only [inodeDataTransfer, blockSize_eq hlog, Option.bind_some, ih]

theorem enumerateChildren_join (fuel : Nat) (bdev : Bdev) (i : BitVec 32) (inode : Inode)
    (firstChild : List Tnode) : (enumerateChildren fuel sb bdev i inode firstChild).join =
      Ext2.enumerateChildren fuel sb bdev i inode firstChild := by
  unfold enumerateChildren Ext2.enumerateChildren
  split
  · rfl
  rw [blockSize_eq hlog]
  by_cases hz : sb.blockSize = 0#32
  · rw [if_pos hz, hz]
    rfl
  rw [if_neg hz]
  simp only [Option.bind_eq_bind, Option.bind_some, udiv_of_ne hz, readBlocks_eq hlog]
  change Option.join ((Ext2.readBlocks sb i (dirBlocks sb inode).toNat 0#32 _).bind _) = _
  cases Ext2.readBlocks sb i (dirBlocks sb inode).toNat 0#32 ⟨.success, inode, fresh, bdev⟩ with
  | none => rfl
  | some t =>
      simp only [Option.bind_some]
      split
      · rfl
      · change (walkEntries t.data (dirBytes sb inode) fuel 0#32 firstChild).map _ = _
        cases walkEntries t.data (dirBytes sb inode) fuel 0#32 firstChild <;> rfl

/-- The number of blocks of a directory is a quotient by the size of a block. -/
theorem enumerateChildren_zero (hzero : sb.blockSize = 0#32) (hdir : inode.mode &&& ext2Dir ≠ 0#16)
    (fuel : Nat) (bdev : Bdev) (i : BitVec 32) (firstChild : List Tnode) :
    enumerateChildren fuel sb bdev i inode firstChild = none := by
  unfold enumerateChildren
  rw [if_neg hdir, blockSize_eq hlog, hzero]
  rfl

end Shift

/-! ## Supported geometries -/

namespace Supported

variable (h : Supported sb)

include h

theorem log_lt_width : sb.blockSizeLog.toNat < 32 := Nat.lt_trans h.log_lt (by decide)

theorem blockSize_ne : sb.blockSize ≠ 0#32 := by
  have hlog := h.log_lt
  rw [Superblock.blockSize, BitVec.shiftLeft_eq']
  interval_cases sb.blockSizeLog.toNat <;> decide

theorem writable : InodeWritable sb := by
  have hpos := h.inode_pos
  have hle := h.inode_le
  refine ⟨h.inodes_ne, ?_⟩
  rintro (hz | hz)
  · rw [hz] at hpos
    exact absurd hpos (by decide)
  · have hslots := congrArg BitVec.toNat hz
    rw [BitVec.toNat_udiv] at hslots
    exact absurd (Nat.div_pos hle hpos) (Nat.not_lt.mpr (Nat.le_of_eq hslots))

theorem inodeTransfer_isSome (bdev : Bdev) (i : BitVec 32) (inode : Inode) (dir : DataDir) :
    (inodeTransfer sb bdev i inode dir).isSome := by
  obtain ⟨r, hr⟩ := inodeTransfer_some (b := bdev) (i := i) (x := inode) h.writable dir
  rw [inodeTransfer_eq h.log_lt_width, hr]
  rfl

theorem readBlocks_isSome (n : Nat) (k : BitVec 32) (t : Transferred) :
    ∃ t', Ext2.readBlocks sb i n k t = some t' := by
  induction n generalizing k t with
  | zero => exact ⟨t, rfl⟩
  | succ n ih =>
      have hblock : ∃ r, Ext2.inodeDataTransfer sb t.bdev i t.inode k
          (fun a => t.data ((sb.blockSize * k).toNat + a)) .read = some r := by
        by_cases hfill : k < 12#32 ∧ t.inode.directBlock k.toNat = 0#32
        · exact inodeDataTransfer_fill t.bdev i _ hfill.1 hfill.2 h.writable
        · obtain ⟨r, hr, -, -⟩ := inodeDataTransfer_some sb t.inode t.bdev i
            (fun a => t.data ((sb.blockSize * k).toNat + a)) fun hk hzero => hfill ⟨hk, hzero⟩
          exact ⟨r, hr⟩
      obtain ⟨r, hr⟩ := hblock
      rw [Ext2.readBlocks, hr]
      simp only [Option.bind_eq_bind, Option.bind_some]
      split
      · exact ⟨_, rfl⟩
      · exact ih _ _

theorem enumerateChildren_isSome (fuel : Nat) (bdev : Bdev) (i : BitVec 32) (inode : Inode)
    (firstChild : List Tnode) : (enumerateChildren fuel sb bdev i inode firstChild).isSome := by
  unfold enumerateChildren
  split
  · rfl
  rw [blockSize_eq h.log_lt_width]
  simp only [Option.bind_eq_bind, Option.bind_some, udiv_of_ne h.blockSize_ne,
    readBlocks_eq h.log_lt_width]
  obtain ⟨t, ht⟩ := h.readBlocks_isSome (i := i)
    (inode.sectorCount * 512#32 / sb.blockSize).toNat 0#32 ⟨.success, inode, fresh, bdev⟩
  rw [ht, Option.bind_some]
  split <;> rfl

theorem ext2RegisterInode_isSome (fuel : Nat) (bdev : Bdev) (i : BitVec 32) (inode : Inode)
    (firstChild : List Tnode) : (ext2RegisterInode fuel sb bdev i inode firstChild).isSome := by
  obtain ⟨⟨err, inode', b⟩, hr⟩ :=
    Option.isSome_iff_exists.mp (h.inodeTransfer_isSome bdev i inode .read)
  obtain ⟨e, he⟩ :=
    Option.isSome_iff_exists.mp (h.enumerateChildren_isSome fuel b i inode' firstChild)
  unfold ext2RegisterInode
  simp only [hr, udiv_of_ne h.inodes_ne, he, Option.bind_eq_bind, Option.bind_some,
    Option.isSome_some]

theorem allocChildInode_isSome (bdev : Bdev) (p : BitVec 32) :
    (allocChildInode sb bdev p).isSome := by
  unfold allocChildInode
  rw [udiv_of_ne h.blocks_ne, Option.bind_eq_bind, Option.bind_some,
    searchGroups_eq h.log_lt_width]
  rfl

end Supported

/-! ## What a device is mounted with -/

section Raw

variable {raw : Bytes}

theorem slice_word16 (raw : Bytes) {k : Nat} (h : k + 2 ≤ 1024) :
    (raw.slice 0 1024).word16 k = raw.word16 k := by
  rw [Bytes.word16, Bytes.word16, Bytes.slice_of_lt (by omega), Bytes.slice_of_lt (by omega),
    Nat.zero_add, Nat.zero_add]

theorem ofBytes_slice (raw : Bytes) :
    Superblock.ofBytes (raw.slice 0 1024) = .ofBytes raw := by
  have hword : ∀ k, k + 4 ≤ 1024 → (raw.slice 0 1024).word32 k = raw.word32 k := by
    intro k hk
    rw [Bytes.word32_slice hk, Nat.zero_add]
  unfold Superblock.ofBytes
  rw [hword 4 (by decide), hword 20 (by decide), hword 24 (by decide), hword 32 (by decide),
    hword 40 (by decide), hword 76 (by decide), slice_word16 raw (by decide)]

/-- The superblock is read, and the root after it. -/
theorem detectExt2_eq (hraw : Holds raw bdev) (hok : bdev.next = .success)
    (hsig : signature raw = 0xef53#16) (fuel : Nat) (inode : Inode) (inodeId : BitVec 32) :
    detectExt2 fuel bdev inode inodeId =
      (inodeTransfer (.ofBytes raw) bdev.tick 2#32 inode .read).bind fun (_, root, b) =>
        (enumerateChildren fuel (.ofBytes raw) b inodeId root []).bind fun enumerated =>
          some (enumerated.map fun e =>
            (.ofBytes raw, ⟨inodeId, 0#32, root, e.firstChild, e.bdev⟩)) := by
  have hread : bdev.disk.slice (sectorSize * (2#32).toNat) (sectorSize * (2#32).toNat) =
      raw.slice 0 1024 := hraw
  have hsig' : signature (raw.slice 0 1024) = 0xef53#16 := by
    rw [signature, slice_word16 raw (by decide)]
    exact hsig
  unfold detectExt2
  simp only [Bdev.read_fresh hok, hread, hsig', ofBytes_slice, ne_eq, not_true_eq_false, if_false]
  rfl

theorem Supported.detectExt2_isSome (h : Supported (.ofBytes raw))
    (hsig : signature raw = 0xef53#16)
    (hraw : Holds raw bdev) (fuel : Nat) (inode : Inode) (inodeId : BitVec 32) :
    (detectExt2 fuel bdev inode inodeId).isSome := by
  by_cases hok : bdev.next = .success
  · rw [detectExt2_eq hraw hok hsig]
    obtain ⟨⟨err, root, b⟩, hr⟩ :=
      Option.isSome_iff_exists.mp (h.inodeTransfer_isSome bdev.tick 2#32 inode .read)
    obtain ⟨e, he⟩ :=
      Option.isSome_iff_exists.mp (h.enumerateChildren_isSome fuel b inodeId root [])
    simp only [hr, he, Option.bind_some, Option.isSome_some]
  · unfold detectExt2
    simp only [Bdev.read_failed hok, ne_eq, hok, not_false_eq_true, if_true, Option.isSome_some]

/-- A working device with the superblock `raw`. All its other bytes are those of directories. -/
def rawBdev (raw : Bytes) : Bdev :=
  ⟨fun a => if 1024 ≤ a ∧ a < 2048 then raw (a - 1024) else 0x40#8, fun _ => .success, 0, []⟩

theorem rawBdev_holds (raw : Bytes) : Holds raw (rawBdev raw) := by
  funext k
  by_cases hk : k < 1024
  · rw [Bytes.slice_of_lt hk, Bytes.slice_of_lt hk, rawBdev]
    simp only [Nat.le_add_right, true_and]
    rw [if_pos (by omega), Nat.add_sub_cancel_left, Nat.zero_add]
  · rw [Bytes.slice, Bytes.slice, if_neg hk, if_neg hk]

theorem inodeBytes_le (hw : InodeWritable sb) :
    0 < sb.inodeBytes.toNat ∧ sb.inodeBytes.toNat ≤ 512 := by
  obtain ⟨hpos, hslots⟩ := not_or.mp hw.2
  rw [← BitVec.toNat_inj, BitVec.toNat_udiv] at hslots
  refine ⟨Nat.pos_of_ne_zero fun hz => hpos (BitVec.eq_of_toNat_eq hz), ?_⟩
  by_contra hlt
  exact hslots (Nat.div_eq_of_lt (Nat.not_le.mp hlt))

/-- The byte after the one where the root's inode starts lies before the superblock. -/
theorem root_before (hw : InodeWritable sb) :
    let idx := (2#32 - 1#32) % sb.inodesPerGroup
    let slot := (idx % (512#32 / sb.inodeBytes) * sb.inodeBytes).toNat
    slot + 1 < 512 ∧ 512 * (idx * sb.inodeBytes / 512#32).toNat + (slot + 1) < 1024 := by
  obtain ⟨hpos, hle⟩ := inodeBytes_le hw
  dsimp only
  have hidx : ((2#32 - 1#32) % sb.inodesPerGroup).toNat ≤ 1 := by
    rw [BitVec.toNat_umod]
    exact Nat.mod_le _ _
  have hslots : (512#32 / sb.inodeBytes).toNat * sb.inodeBytes.toNat ≤ 512 := by
    rw [BitVec.toNat_udiv]
    exact Nat.div_mul_le_self _ _
  have hslots_pos : 0 < (512#32 / sb.inodeBytes).toNat := by
    rw [BitVec.toNat_udiv]
    exact Nat.div_pos hle hpos
  generalize (2#32 - 1#32) % sb.inodesPerGroup = idx at *
  generalize 512#32 / sb.inodeBytes = slots at *
  rw [BitVec.toNat_mul, BitVec.toNat_umod, BitVec.toNat_udiv, BitVec.toNat_mul]
  have hslot : idx.toNat % slots.toNat * sb.inodeBytes.toNat ≤ 256 := by
    by_cases hone : slots.toNat = 1
    · rw [hone, Nat.mod_one, Nat.zero_mul]
      exact Nat.zero_le _
    · have htwo : 2 * sb.inodeBytes.toNat ≤ slots.toNat * sb.inodeBytes.toNat :=
        Nat.mul_le_mul_right _ (by omega)
      have hmod : idx.toNat % slots.toNat ≤ 1 := Nat.le_trans (Nat.mod_le _ _) hidx
      have := Nat.mul_le_mul_right sb.inodeBytes.toNat hmod
      omega
  have hlba : idx.toNat * sb.inodeBytes.toNat ≤ 1 * 512 := Nat.mul_le_mul hidx hle
  have hword : (512#32 : BitVec 32).toNat = 512 := rfl
  generalize idx.toNat % slots.toNat * sb.inodeBytes.toNat = slot at *
  generalize idx.toNat * sb.inodeBytes.toNat = start at *
  rw [Nat.mod_eq_of_lt (by omega), Nat.mod_eq_of_lt (by omega), hword]
  omega

theorem directory_mode : ∀ low : BitVec 8, (0x40#8 ++ low) &&& ext2Dir ≠ 0#16 := by
  decide

/-- With blocks of 0 bytes, the inode table starts at the first sector, and the root is a
    directory. -/
theorem rawBdev_root (hzero : sb.blockSize = 0#32) (hw : InodeWritable sb) (raw : Bytes)
    (inode : Inode) : ∃ root b, Ext2.inodeTransfer sb (rawBdev raw).tick 2#32 inode .read =
      some (.success, root, b) ∧ root.mode &&& ext2Dir ≠ 0#16 := by
  have hok : (rawBdev raw).tick.next = .success := rfl
  have hok' : (rawBdev raw).tick.tick.next = .success := rfl
  obtain ⟨hslot, hbefore⟩ := root_before hw
  unfold Ext2.inodeTransfer
  simp only [if_neg hw.1, descriptorTransfer_eq sb hok, Bdev.read_fresh hok', ne_eq,
    not_true_eq_false, if_false, if_neg hw.2, Superblock.blockLba, hzero, BitVec.mul_zero]
  refine ⟨_, _, rfl, fun hmode => ?_⟩
  generalize (2#32 - 1#32) % sb.inodesPerGroup = idx at *
  generalize (idx % (512#32 / sb.inodeBytes) * sb.inodeBytes).toNat = slot at *
  have hbyte : ((rawBdev raw).tick.tick.disk.slice (sectorSize * (idx * sb.inodeBytes / 512#32 +
      0#32 / 512#32).toNat) (sectorSize * (1#32).toNat)).slice slot 128 1 = 0x40#8 := by
    rw [Bytes.slice_of_lt (by decide), Bytes.slice_of_lt (n := sectorSize * (1#32).toNat) hslot,
      show (0#32 / 512#32 : BitVec 32) = 0#32 from rfl, BitVec.add_zero]
    exact if_neg fun h => absurd hbefore (Nat.not_lt.mpr h.1)
  rw [Inode.mode, Bytes.word16, hbyte] at hmode
  exact directory_mode _ hmode

/-- **Defined arithmetic.** Of the superblocks with the signature, those of the supported
    geometries, and only those, give no undefined operation on any device. -/
theorem arithmeticDefined_iff (raw : Bytes) (hsig : signature raw = 0xef53#16) :
    ArithmeticDefined raw ↔ Supported (.ofBytes raw) := by
  constructor
  · intro h
    have hroot := h.inode 2#32 .root (rawBdev raw) fresh .read
    have hlog : (Superblock.ofBytes raw).blockSizeLog.toNat < 32 := by
      by_contra hle
      unfold inodeTransfer blockSize at hroot
      rw [shl_of_le (Nat.not_lt.mp hle)] at hroot
      revert hroot
      cases Checked.udiv (2#32 - 1#32) (Superblock.ofBytes raw).inodesPerGroup <;>
        cases Checked.umod (2#32 - 1#32) (Superblock.ofBytes raw).inodesPerGroup <;>
        exact fun h => by cases h
    have hw : InodeWritable (.ofBytes raw) := by
      by_contra hfault
      rw [inodeTransfer_eq hlog, inodeTransfer_fault (fun _ => rfl) hfault] at hroot
      cases hroot
    obtain ⟨hpos, hle⟩ := inodeBytes_le hw
    refine ⟨?_, fun hz => ?_, hw.1, hpos, hle⟩
    · by_contra hlarge
      have hzero : (Superblock.ofBytes raw).blockSize = 0#32 := by
        have hge := Nat.not_lt.mp hlarge
        rw [Superblock.blockSize, BitVec.shiftLeft_eq']
        interval_cases (Superblock.ofBytes raw).blockSizeLog.toNat <;> rfl
      obtain ⟨root, b, hrun, hdir⟩ := rawBdev_root hzero hw raw fresh
      have hmount := h.mount 0 (rawBdev raw) fresh 2#32 (rawBdev_holds raw)
      rw [detectExt2_eq (rawBdev_holds raw) rfl hsig, inodeTransfer_eq hlog, hrun,
        Option.bind_some] at hmount
      dsimp only at hmount
      rw [enumerateChildren_zero hlog hzero hdir] at hmount
      cases hmount
    · have halloc := h.alloc (rawBdev raw) 0#32
      unfold allocChildInode at halloc
      rw [hz, udiv_zero] at halloc
      cases halloc
  · intro h
    exact ⟨fun fuel bdev inode inodeId hraw => h.detectExt2_isSome hsig hraw fuel inode inodeId,
      fun i _ bdev inode dir => h.inodeTransfer_isSome bdev i inode dir,
      fun i _ fuel bdev inode firstChild => h.ext2RegisterInode_isSome fuel bdev i inode firstChild,
      h.allocChildInode_isSome⟩

end Raw

/-- A superblock with the signature: groups of 64 blocks, and of as many inodes as `inodes`. -/
def sampleRaw (inodes : BitVec 8) : Bytes := fun a =>
  match a with
  | 4 => 64#8
  | 20 => 1#8
  | 32 => 64#8
  | 40 => inodes
  | 56 => 0x53#8
  | 57 => 0xef#8
  | _ => 0#8

theorem arithmeticDefined_iff_sample :
    signature (sampleRaw 16#8) = 0xef53#16 ∧ ArithmeticDefined (sampleRaw 16#8) :=
  ⟨by decide, (arithmeticDefined_iff (sampleRaw 16#8) (by decide)).mpr
    ⟨by decide, by decide, by decide, by decide, by decide⟩⟩

/-- Mounting divides by the number of inodes in a group, which is 0. -/
theorem no_inodes_divides : ¬ ∀ raw, signature raw = 0xef53#16 → ArithmeticDefined raw := by
  intro hall
  have hmount := (hall (sampleRaw 0#8) (by decide)).mount 0 (rawBdev (sampleRaw 0#8)) fresh 2#32
    (rawBdev_holds _)
  rw [detectExt2_eq (rawBdev_holds _) rfl (by decide)] at hmount
  revert hmount
  decide

end Muse.Ext2.Checked
