import Muse.Ext2.Proofs.SafeWrite

/-!
# Writes outside of the file

When a block cannot be allocated, `inode_data_transfer` goes on with block 0, and for an index past
the singly indirect block with the number of an error code. The data then goes over the superblock
or the descriptor table. Among blocks of 1024 bytes, an allocation takes the block before the free
one.
-/

namespace Muse.Ext2

open Muse.Library

/-! ## Going wrong -/

section Wrong

variable {sb : Superblock} {bdev b : Bdev} {i : BitVec 32} {inode : Inode} {idx : Nat}

/-- Nothing is allocated in a group that is full. -/
theorem allocExt2Obj_full (hg : Geometry sb) (bdev : Bdev) (g : BitVec 32)
    (hlt : 32 * g.toNat < 2 ^ 32) (h : Full sb bdev.disk g.toNat)
    (hok : ∀ k, bdev.result k = .success) :
    ∃ t, allocExt2Obj sb bdev g false = (0#32, { bdev with transfers := t }) := by
  have ok : ∀ b : Bdev, b.result = bdev.result → b.next = .success := fun b hb => by
    rw [Bdev.next, hb]
    exact hok _
  have hread : ∀ b : Bdev, b.disk = bdev.disk → b.result = bdev.result → ∀ d',
      groupDescriptorTransfer sb b g d' .read =
        (.success, sb.descriptor bdev.disk g.toNat, b.tick) := by
    intro b hb hb' d'
    rw [groupDescriptorTransfer_read hg g hlt (ok b hb'), hb]
  unfold allocExt2Obj
  simp only [hread bdev rfl rfl, hread bdev.tick rfl rfl, ne_eq, not_true_eq_false, if_false,
    Bool.false_eq_true, false_and, not_false_eq_true, true_and]
  by_cases hcount : (sb.descriptor bdev.disk g.toNat).unallocatedBlocks = 0#16
  · rw [if_pos hcount]
    exact ⟨_, rfl⟩
  · obtain ⟨hfits, hbits⟩ := h.resolve_left hcount
    rw [if_neg hcount]
    simp only [read_block_fresh hg.log_le (ok bdev.tick.tick rfl) hfits, Bdev.tick_disk,
      not_true_eq_false, if_false, hg.blockSize_toNat]
    cases hfind : findClear (bdev.disk.slice
        ((sb.descriptor bdev.disk g.toNat).blockBitmapAddr.toNat * sb.blockBytes) sb.blockBytes) 0
        sb.blockBytes with
    | none => exact ⟨_, rfl⟩
    | some found =>
        obtain ⟨k, j⟩ := found
        obtain ⟨hk, hj, hclear, -⟩ := findClear_some hfind
        rw [bitAt_slice_eq_blockBit (by omega), hbits _ (by omega)] at hclear
        cases hclear

/-- `inode_transfer` leaves the inode as it is and adds to what has been written. -/
theorem inodeTransfer_written {err : DriveRes} {inode' : Inode} {b' : Bdev}
    (h : inodeTransfer sb b i inode .write = some (err, inode', b')) :
    inode' = inode ∧ ∃ back, b'.written = back ++ b.written := by
  unfold inodeTransfer at h
  dsimp only at h
  have hd : (groupDescriptorTransfer sb b ((i - 1#32) / sb.inodesPerGroup) fresh
      .read).2.2.written = b.written := groupDescriptorTransfer_written _ _ _
  set b1 := (groupDescriptorTransfer sb b ((i - 1#32) / sb.inodesPerGroup) fresh .read).2.2
  split at h
  next => cases h
  next =>
    split at h
    next =>
      obtain ⟨-, rfl, rfl⟩ : _ ∧ inode = inode' ∧ b1 = b' := by simpa using h
      exact ⟨rfl, [], hd⟩
    next =>
      split at h
      next =>
        obtain ⟨-, rfl, rfl⟩ : _ ∧ inode = inode' ∧ _ = b' := by simpa using h
        exact ⟨rfl, [], by rw [Bdev.read_written, hd]; rfl⟩
      next =>
        split at h
        next => cases h
        next =>
          obtain ⟨-, rfl, rfl⟩ : _ ∧ inode = inode' ∧ _ = b' := by simpa using h
          refine ⟨rfl, (Bdev.write_written _ _ _ _).imp fun back hback => hback.trans ?_⟩
          rw [Bdev.read_written, hd]

/-- The data is written to the sector that has been computed, whatever it is. -/
theorem transferBlock_written (hok : b.next = .success) {lba : BitVec 32} {writeInode : Bool}
    {data : Bytes} {r : Transferred}
    (h : transferBlock sb b i inode lba writeInode data .write = some r) :
    r.inode = inode ∧
      ∃ back, r.bdev.written = back ++ ⟨.data, lba.toNat, sb.blockSectors.toNat⟩ :: b.written := by
  unfold transferBlock at h
  simp only [Bdev.write_ok hok, ne_eq, not_true_eq_false, if_false] at h
  cases writeInode with
  | false =>
      obtain rfl := Option.some.inj h
      exact ⟨rfl, [], rfl⟩
  | true =>
      simp only [if_true, Option.map_eq_some_iff] at h
      obtain ⟨⟨err, inode', b'⟩, hrun, rfl⟩ := h
      exact inodeTransfer_written hrun

/-- What is inside is permitted, also the data. -/
theorem WritesInside.data {r : Transferred} (h : WritesInside sb bdev i inode idx r)
    {back before : List Write} {lba count : Nat}
    (hw : r.bdev.written = back ++ ⟨.data, lba, count⟩ :: (before ++ bdev.written)) {s : Nat}
    (hlo : lba ≤ s) (hhi : s < lba + count) :
    Permitted sb bdev.disk i inode idx r s ∧ ¬ sb.Front (s / sb.sectorsPerBlock) := by
  obtain ⟨new, hnew, hcase⟩ := h
  have hmem : ⟨.data, lba, count⟩ ∈ new := by
    rw [hw, ← List.cons_append, ← List.append_assoc] at hnew
    rw [← List.append_cancel_right hnew]
    simp
  rcases hcase with ⟨-, hnone⟩ | hall
  · exact absurd rfl (hnone _ hmem)
  · exact hall _ hmem s ⟨hlo, hhi⟩

/-- The sectors from the number of `DRV_ERR_BAD_ARGS` on, and those of block 0, are in front. -/
theorem Geometry.front_lba (hg : Geometry sb) : sb.Front (4 / sb.sectorsPerBlock) ∧
    sb.Front (0 / sb.sectorsPerBlock) := by
  have hgdt : 0 < sb.gdtBlocks := by
    have hpos := hg.blockBytes_pos
    have hgroups : 0 < sb.groups := by
      have := hg.first_lt
      have := hg.blocks_pos
      exact Nat.div_pos (by omega) hg.blocks_pos
    exact Nat.div_pos (by omega) hpos
  have hfour : 4 / sb.sectorsPerBlock < sb.firstBlock + 2 := by
    have := hg.log_le
    rw [hg.first, Superblock.sectorsPerBlock]
    interval_cases sb.blockSizeLog.toNat <;> decide
  constructor
  · unfold Superblock.Front
    omega
  · unfold Superblock.Front
    rw [Nat.zero_div]
    omega

/-- What `inode_data_transfer` does with a block that it could not allocate. -/
theorem transferBlock_zero (hg : Geometry sb) (b : Bdev) (before : List Write)
    (hok : b.next = .success) (hw : b.written = before ++ bdev.written) {lba : BitVec 32}
    (hlba : lba = sb.blockLba 0#32 ∨ lba = DriveRes.errBadArgs.toWord) {writeInode : Bool}
    {inode' : Inode} {data : Bytes} :
    ¬ ∃ r, transferBlock sb b i inode' lba writeInode data .write = some r ∧
      WritesInside sb bdev i inode idx r := by
  rintro ⟨r, hrun, hinside⟩
  obtain ⟨-, back, hback⟩ := transferBlock_written hok hrun
  have hspb := hg.sectorsPerBlock_bounds
  rw [hw, hg.blockSectors_toNat] at hback
  refine (hinside.data hback (Nat.le_refl _) (by omega)).2 ?_
  rcases hlba with rfl | rfl
  · rw [sb.blockLba_zero]
    exact hg.front_lba.2
  · exact hg.front_lba.1

/-- The same with a block that should be entered in the indirect block. -/
theorem transferIndirect_full (hg : Geometry sb) (b : Bdev) (before : List Write)
    (hok : ∀ k, b.result k = .success) (hw : b.written = before ++ bdev.written)
    {inode' : Inode} (hfits : sb.Fits inode'.indirectBlockSingle.toNat) {e : Nat}
    (he : e < sb.entriesPerBlock)
    (hentry : b.disk.word32 (inode'.indirectBlockSingle.toNat * sb.blockBytes + 4 * e) = 0#32)
    (hnone : ∃ t, allocExt2Obj sb b.tick (inode'.groupId.setWidth 32) false =
      (0#32, { b.tick with transfers := t })) {writeInode : Bool} {data : Bytes} :
    ¬ ∃ r, transferIndirect sb b i inode' e writeInode data .write = some r ∧
      WritesInside sb bdev i inode idx r := by
  have hE := Superblock.entriesPerBlock_eq sb
  obtain ⟨t, hrun⟩ := hnone
  have ok0 : b.next = .success := hok _
  have ok1 : Bdev.next { b.tick with transfers := t } = .success := hok t
  unfold transferIndirect
  simp only [read_block_fresh hg.log_le ok0 hfits, ne_eq, not_true_eq_false, if_false,
    Bytes.word32_slice (show 4 * e + 4 ≤ sb.blockBytes by omega), hentry, sb.blockLba_zero,
    if_true, hrun,
    Bytes.word32_setWord32_self]
  rw [Bdev.write_ok ok1]
  refine transferBlock_zero hg _
    (⟨.indirectBlock, (sb.blockLba inode'.indirectBlockSingle).toNat, sb.blockSectors.toNat⟩ ::
      before) ?_ ?_ (Or.inl sb.blockLba_zero.symm)
  · exact hok (t + 1)
  · rw [Bdev.wrote, List.cons_append, ← hw]
    rfl

/-- The block before the first free one of a group is not free, unless it is in the group before. -/
theorem NextFree.previous_used {disk : Bytes} {g n : Nat} (h : NextFree sb disk g [] (n + 1))
    (hfirst : sb.firstBlock = 1) (hpos : 0 < sb.blocksPerGroup.toNat)
    (hinner : n % sb.blocksPerGroup.toNat ≠ 0) : ¬ sb.MarkedFree disk n := by
  intro hfree
  refine absurd (h.least n (Nat.lt_succ_self n) hfree ?_) List.not_mem_nil
  have hgroup := h.group
  rw [hfirst, Nat.add_sub_cancel] at hgroup
  have hdiv := Nat.div_add_mod n sb.blocksPerGroup.toNat
  have hmod := Nat.mod_lt n hpos
  rw [hfirst, ← hgroup]
  refine Nat.div_eq_of_lt_le ?_ ?_
  · rw [Nat.mul_comm]
    omega
  · rw [Nat.add_mul, Nat.mul_comm]
    omega

/-- A block that the bitmap does not show as free, and that is neither the inode's indirect block
    nor a bitmap, is not one to be written. -/
theorem directShifted_outside (hc : Consistent sb bdev.disk) {n : Nat} (hlt : idx < 12)
    (hblock : inode.directBlock idx = 0#32) (hfits : sb.Fits n)
    (hused : ¬ sb.MarkedFree bdev.disk n) (hind : n ≠ inode.indirectBlockSingle.toNat)
    (hbitmaps : ∀ g < sb.groups, n ≠ (sb.descriptor bdev.disk g).blockBitmapAddr.toNat)
    (hn : n < 2 ^ 32) (b : Bdev) (before : List Write) (hok : b.next = .success)
    (hw : b.written = before ++ bdev.written) {writeInode : Bool} {data : Bytes} :
    ¬ ∃ r, transferBlock sb b i (inode.setDirectBlock idx (BitVec.ofNat 32 n))
        (sb.blockLba (BitVec.ofNat 32 n)) writeInode data .write = some r ∧
      WritesInside sb bdev i inode idx r := by
  rintro ⟨r, hrun, hinside⟩
  obtain ⟨hinode, back, hback⟩ := transferBlock_written hok hrun
  have hspb := hc.sectorsPerBlock_bounds
  have htoNat : (BitVec.ofNat 32 n).toNat = n := by
    rw [BitVec.toNat_ofNat, Nat.mod_eq_of_lt hn]
  rw [hw, hc.blockSectors_toNat, hc.blockLba_toNat (by rw [htoNat]; exact hfits), htoNat] at hback
  have hmapped : sb.mapped r.bdev.disk r.inode idx = BitVec.ofNat 32 n := by
    rw [hinode, Superblock.mapped, if_pos hlt, Inode.directBlock, Inode.setDirectBlock,
      Bytes.word32_setWord32_self]
  -- two sectors of the block: they are not both the inode's
  have houtside : ∀ k < 2, n * sb.sectorsPerBlock + k = sb.inodeSector bdev.disk i := by
    intro k hk
    have hs : (n * sb.sectorsPerBlock + k) / sb.sectorsPerBlock = n := by
      rw [Nat.mul_comm, Nat.mul_add_div (by omega), Nat.div_eq_of_lt (by omega), Nat.add_zero]
    cases (hinside.data hback (Nat.le_add_right _ k) (by omega)).1 with
    | data some mem old =>
        rw [hmapped] at some old
        rcases old with heq | hfree
        · rw [Superblock.mapped, if_pos hlt, hblock] at heq
          exact absurd heq.symm some
        · rw [htoNat] at hfree
          exact absurd hfree hused
    | indirect some mem =>
        rw [hs, hinode] at mem
        refine absurd mem (fun h => hind (h.trans (congrArg BitVec.toNat ?_)))
        exact Bytes.word32_setWord32_of_apart _ (by omega)
    | bitmap g lt mem =>
        rw [hs] at mem
        exact absurd mem (hbitmaps g lt)
    | inode mem => exact mem
  have h0 := houtside 0 (by decide)
  have h1 := houtside 1 (by decide)
  omega

/-- On a device without errors, the call does not stay inside when it takes one of the unsafe
    ways. -/
theorem inodeDataTransfer_outside (hc : Consistent sb bdev.disk) {idx : BitVec 32}
    (hok : ∀ k, bdev.result k = .success) (hu : UnsafeWrite sb bdev inode idx.toNat)
    (data : Bytes) :
    ¬ ∃ r, inodeDataTransfer sb bdev i inode idx data .write = some r ∧
      WritesInside sb bdev i inode idx.toNat r := by
  have hE := Superblock.entriesPerBlock_eq sb
  have hlow := idx_direct_iff idx
  have hhigh := Superblock.idx_indirect_iff hc.log_le idx
  have hnone : Full sb bdev.disk inode.groupId.toNat → ∀ b : Bdev, b.disk = bdev.disk →
      (∀ k, b.result k = .success) → ∃ t, allocExt2Obj sb b (inode.groupId.setWidth 32) false =
        (0#32, { b with transfers := t }) := by
    intro hfull b hb hb'
    have hgroup : (inode.groupId.setWidth 32).toNat = inode.groupId.toNat :=
      BitVec.toNat_setWidth_of_le (by decide)
    have hlt := inode.groupId.isLt
    refine allocExt2Obj_full hc.toGeometry b _ (by omega) ?_ hb'
    rw [hb, hgroup]
    exact hfull
  unfold inodeDataTransfer
  cases hu with
  | past ge =>
      rw [if_neg (by rw [hlow]; omega), if_neg (by rw [hhigh]; omega)]
      exact transferBlock_zero hc.toGeometry bdev [] (hok _) rfl (Or.inr rfl)
  | directFull lt block full =>
      obtain ⟨t, hrun⟩ := hnone full bdev rfl hok
      rw [if_pos (hlow.mpr lt), if_pos block]
      simp only [hrun]
      rw [show (inode.setDirectBlock idx.toNat 0#32).directBlock idx.toNat = 0#32 from
        Bytes.word32_setWord32_self _]
      exact transferBlock_zero hc.toGeometry { bdev with transfers := t } [] (hok t) rfl
        (Or.inl rfl)
  | directShifted n lt block small available inner fits indirect bitmaps =>
      have hfirst : sb.firstBlock = 1 := by
        rw [hc.first, small]
        rfl
      have hgw : (inode.groupId.setWidth 32).toNat = inode.groupId.toNat :=
        BitVec.toNat_setWidth_of_le (by decide)
      have hrun := available.alloc hc bdev hgw rfl rfl rfl (by simp)
      rw [hfirst, Nat.add_sub_cancel] at hrun
      have hblock : (inode.setDirectBlock idx.toNat (BitVec.ofNat 32 n)).directBlock idx.toNat =
        BitVec.ofNat 32 n := Bytes.word32_setWord32_self _
      rw [if_pos (hlow.mpr lt), if_pos block]
      simp only [hrun, hblock]
      have htotal := available.next.free.2.1
      have hword := sb.totalBlocks.isLt
      exact directShifted_outside hc lt block fits
        (available.next.previous_used hfirst hc.blocks_pos inner) indirect bitmaps (by omega)
        (allocated sb bdev _ _) [_] (hok _) rfl
  | indirectFull ge lt block fits entry full =>
      rw [Superblock.mapped, if_neg (by omega), if_neg block] at entry
      rw [if_neg (by rw [hlow]; omega), if_pos (hhigh.mpr lt)]
      simp only [if_neg block, idx_entry idx ge]
      exact transferIndirect_full hc.toGeometry bdev [] hok rfl fits (by omega) entry
        (hnone full bdev.tick rfl hok)
  | bothFull ge lt block entry full =>
      obtain ⟨t, hrun⟩ := hnone full bdev rfl hok
      have hind : (inode.setIndirectBlockSingle 0#32).indirectBlockSingle = 0#32 :=
        Bytes.word32_setWord32_self _
      have hgroup : (inode.setIndirectBlockSingle 0#32).groupId = inode.groupId :=
        Bytes.word16_setWord32_of_apart _ (by omega)
      rw [if_neg (by rw [hlow]; omega), if_pos (hhigh.mpr lt)]
      simp only [if_pos block, hrun, reduceCtorEq, if_false, idx_entry idx ge]
      refine transferIndirect_full hc.toGeometry { bdev with transfers := t } [] hok rfl ?_
        (by omega) ?_ ?_
      · rw [hind]
        simp [Superblock.Fits]
      · rw [hind, BitVec.toNat_ofNat, Nat.zero_mod, Nat.zero_mul, Nat.zero_add]
        exact entry
      · rw [hgroup]
        exact hnone full _ rfl hok

end Wrong

/-- A write of a block of a file, on every device and for every file of a consistent image: on the
    safe ways it stays inside, and on the unsafe ones it does not. -/
theorem write_stays_inside {sb : Superblock} {bdev : Bdev} {i : BitVec 32} {inode : Inode}
    (hc : Consistent sb bdev.disk) (hf : HasFile sb bdev.disk i inode) (idx : BitVec 32)
    (data : Bytes) :
    (SafeWrite sb bdev i inode idx.toNat →
      ∃ r, inodeDataTransfer sb bdev i inode idx data .write = some r ∧
        WritesInside sb bdev i inode idx.toNat r) ∧
    ((∀ k, bdev.result k = .success) → UnsafeWrite sb bdev inode idx.toNat →
      ¬ ∃ r, inodeDataTransfer sb bdev i inode idx data .write = some r ∧
        WritesInside sb bdev i inode idx.toNat r) :=
  ⟨inodeDataTransfer_inside data hc hf, fun hok hu => inodeDataTransfer_outside hc hok hu data⟩

/-! ## A small image -/

/-- An image of 16 blocks of 2048 bytes, of which the last eight are free. -/
def smallSuperblock : Superblock where
  totalBlocks := 16#32
  superblockBlock := 0#32
  blockSizeLog := 1#32
  blocksPerGroup := 16#32
  inodesPerGroup := 16#32
  versionMaj := 0#32
  inodeSize := 0#16

/-- Its disk: the descriptor table, the block bitmap and zeros. -/
def smallDisk : Bytes := fun a =>
  if a / 2048 = 1 then
    if a % 2048 = 0 then 2#8
    else if a % 2048 = 4 then 3#8
    else if a % 2048 = 8 then 4#8
    else if a % 2048 = 12 then 8#8
    else 0#8
  else if a / 2048 = 2 then (if a % 2048 = 1 then 0#8 else 0xFF#8)
  else 0#8

/-- A device with the image that makes no errors. -/
def smallBdev : Bdev := ⟨smallDisk, fun _ => .success, 0, []⟩

theorem small_descriptor : (smallSuperblock.descriptor smallDisk 0).blockBitmapAddr = 2#32 ∧
    (smallSuperblock.descriptor smallDisk 0).inodeBitmapAddr = 3#32 ∧
    (smallSuperblock.descriptor smallDisk 0).inodeTable = 4#32 ∧
    (smallSuperblock.descriptor smallDisk 0).unallocatedBlocks = 8#16 := by
  decide +kernel

theorem small_blockBit {k : Nat} (hk : k < 8 * 2048) :
    smallSuperblock.blockBit smallDisk 0 k = decide (k / 8 ≠ 1) := by
  have haddr : (smallSuperblock.descriptor smallDisk 0).blockBitmapAddr.toNat *
      smallSuperblock.blockBytes = 4096 := by
    rw [small_descriptor.1]
    decide
  rw [Superblock.blockBit, bitAt, haddr]
  have h1 : (4096 + k / 8) / 2048 = 2 := by omega
  have h2 : (4096 + k / 8) % 2048 = k / 8 := by omega
  simp only [smallDisk, h1, h2]
  by_cases h : k / 8 = 1
  · simp [h]
  · have : ∀ j < 8, (0xFF#8).getLsbD j = true := by decide
    simp [h, this (k % 8) (Nat.mod_lt _ (by decide))]

theorem small_values : smallSuperblock.firstBlock = 0 ∧ smallSuperblock.totalBlocks.toNat = 16 ∧
    smallSuperblock.blocksPerGroup.toNat = 16 ∧ smallSuperblock.blockBytes = 2048 ∧
    smallSuperblock.groups = 1 ∧ smallSuperblock.gdtBlocks = 1 ∧
    smallSuperblock.inodeTableBlocks = 1 := by
  decide

theorem small_markedFree {n : Nat} : smallSuperblock.MarkedFree smallDisk n ↔ 8 ≤ n ∧ n < 16 := by
  obtain ⟨hfirst, htotal, hper, -⟩ := small_values
  rw [Superblock.MarkedFree, hfirst, htotal, hper, Nat.sub_zero]
  constructor
  · rintro ⟨-, hlt, hclear⟩
    rw [Nat.div_eq_of_lt hlt, Nat.mod_eq_of_lt hlt, small_blockBit (by omega)] at hclear
    have : n / 8 = 1 := by simpa using hclear
    omega
  · rintro ⟨hge, hlt⟩
    refine ⟨Nat.zero_le n, hlt, ?_⟩
    rw [Nat.div_eq_of_lt hlt, Nat.mod_eq_of_lt hlt, small_blockBit (by omega)]
    have : n / 8 = 1 := by omega
    simp [this]

theorem small_geometry : Geometry smallSuperblock where
  log_le := by decide
  first := by decide
  first_lt := by decide
  blocks_pos := by decide
  blocks_le := by decide
  blocks_lt := by decide
  table_le := by decide
  inodes_pos := by decide
  inodes_le := by decide
  inode_pow := ⟨7, by decide⟩
  inode_ge := by decide
  inode_le := by decide

/-- The blocks of each part. -/
theorem small_holds {n : Nat} {r : Region} (h : Region.Holds smallSuperblock smallDisk n r) :
    (r = .front ∧ n < 2) ∨ (r = .blockBitmap 0 ∧ n = 2) ∨ (r = .inodeBitmap 0 ∧ n = 3) ∨
      (r = .inodeTable 0 ∧ n = 4) := by
  obtain ⟨hb, hi, ht, -⟩ := small_descriptor
  obtain ⟨hfirst, -, -, -, hgroups, hgdt, htable⟩ := small_values
  cases r with
  | front =>
      rw [Region.Holds, Superblock.Front, hfirst, hgdt] at h
      exact Or.inl ⟨rfl, h⟩
  | blockBitmap g =>
      obtain ⟨hlt, hn⟩ := h
      obtain rfl : g = 0 := by omega
      rw [hb] at hn
      exact Or.inr (Or.inl ⟨rfl, hn⟩)
  | inodeBitmap g =>
      obtain ⟨hlt, hn⟩ := h
      obtain rfl : g = 0 := by omega
      rw [hi] at hn
      exact Or.inr (Or.inr (Or.inl ⟨rfl, hn⟩))
  | inodeTable g =>
      obtain ⟨hlt, hlo, hhi⟩ := h
      obtain rfl : g = 0 := by omega
      rw [ht, htable] at hhi
      rw [ht] at hlo
      refine Or.inr (Or.inr (Or.inr ⟨rfl, ?_⟩))
      simp only [BitVec.toNat_ofNat, Nat.reducePow, Nat.reduceMod] at hlo hhi
      omega

theorem small_consistent : Consistent smallSuperblock smallDisk where
  toGeometry := small_geometry
  apart := by
    intro r r' n h h'
    rcases small_holds h with ⟨rfl, hn⟩ | ⟨rfl, hn⟩ | ⟨rfl, hn⟩ | ⟨rfl, hn⟩ <;>
      rcases small_holds h' with ⟨rfl, hn'⟩ | ⟨rfl, hn'⟩ | ⟨rfl, hn'⟩ | ⟨rfl, hn'⟩ <;>
      first
        | rfl
        | omega
  used := by
    intro r n h
    have hn : n < 8 := by rcases small_holds h with h | h | h | h <;> omega
    rw [small_values.2.1, small_markedFree]
    omega
  padding := by
    intro g hg k hk hpad
    obtain ⟨hfirst, htotal, hper, hbytes, hgroups, -⟩ := small_values
    obtain rfl : g = 0 := by omega
    rw [hbytes] at hk
    rw [hfirst, htotal, hper] at hpad
    have : k / 8 ≠ 1 := by omega
    simp [small_blockBit hk, this]

/-- A file without blocks. -/
def emptyInode : Inode := fun _ => 0#8

theorem emptyInode_mapped (k : Nat) : smallSuperblock.mapped smallDisk emptyInode k = 0#32 := by
  have hword : ∀ a, Bytes.word32 emptyInode a = 0#32 := by
    intro a
    show 0#8 ++ 0#8 ++ 0#8 ++ 0#8 = 0#32
    decide
  rw [Superblock.mapped]
  split
  next => exact hword _
  next => exact if_pos (hword 88)

theorem small_hasFile : HasFile smallSuperblock smallDisk 1#32 emptyInode where
  pos := by decide
  le := by decide
  indirect := fun h => absurd rfl h
  mapped := fun k _ h => absurd (emptyInode_mapped k) h
  inj := fun k _ l _ h => absurd (emptyInode_mapped k) h

/-- Two blocks are free for the first block that the indirect block maps. -/
theorem small_safe : SafeWrite smallSuperblock smallBdev 1#32 emptyInode 12 := by
  obtain ⟨hfirst, htotal, hper, hbytes, hgroups, -⟩ := small_values
  obtain ⟨hb, -, ht, hcount⟩ := small_descriptor
  have hnext : ∀ taken n, n ∉ taken → 8 ≤ n → n < 16 → (∀ m < n, 8 ≤ m → m ∈ taken) →
      NextFree smallSuperblock smallDisk 0 taken n := by
    intro taken n hnew hge hlt hleast
    refine ⟨small_markedFree.mpr ⟨hge, hlt⟩, ?_, hnew, fun m hm hfree _ => ?_⟩
    · rw [hfirst, hper, Nat.sub_zero, Nat.div_eq_of_lt hlt]
    · exact hleast m hm (small_markedFree.mp hfree).1
  have halloc : ∀ taken t n, n ∉ taken → 8 ≤ n → n < 16 → (∀ m < n, 8 ≤ m → m ∈ taken) →
      CanAllocate smallSuperblock smallBdev 0 taken t n := by
    intro taken t n hnew hge hlt hleast
    refine ⟨⟨?_, ?_, ?_, fun _ _ => rfl, hnext taken n hnew hge hlt hleast⟩, by decide, ?_⟩
    · rw [hgroups]
      decide
    · exact fun h => absurd (hcount.symm.trans h) (by decide)
    · show (smallSuperblock.descriptor smallDisk 0).blockBitmapAddr.toNat * _ < _
      rw [hb, hbytes]
      decide
    · rw [Superblock.Fits, hbytes]
      omega
  refine .bothNew 8 9 (by decide) (by decide) rfl (halloc [] _ 8 (by simp) (by omega) (by omega)
    (by omega)) rfl (by decide +kernel) (halloc [8] _ 9 (by simp) (by omega) (by omega) ?_) rfl ?_
  · intro m hm hge
    rw [List.mem_singleton]
    omega
  · intro _
    refine ⟨by decide, ?_⟩
    show (smallSuperblock.descriptor smallDisk 0).inodeTable.toNat * _ < _
    rw [ht, hbytes]
    decide

theorem smallBdev_consistent : Consistent smallSuperblock smallBdev.disk := small_consistent

/-- The first block of a new indirect block is written inside. -/
theorem write_stays_inside_indirect :
    SafeWrite smallSuperblock smallBdev 1#32 emptyInode (12#32).toNat ∧
    ∃ r, inodeDataTransfer smallSuperblock smallBdev 1#32 emptyInode 12#32 fresh .write = some r ∧
      WritesInside smallSuperblock smallBdev 1#32 emptyInode (12#32).toNat r :=
  ⟨small_safe, (write_stays_inside smallBdev_consistent small_hasFile 12#32 fresh).1 small_safe⟩

/-- The block number 524 of a file with blocks of 2048 bytes is past the indirect block: its data
    is written over the descriptor table. -/
theorem write_outside :
    ¬ ∀ (sb : Superblock) (bdev : Bdev) (i : BitVec 32) (inode : Inode) (idx : BitVec 32)
        (data : Bytes), Consistent sb bdev.disk → HasFile sb bdev.disk i inode →
      ∃ r, inodeDataTransfer sb bdev i inode idx data .write = some r ∧
        WritesInside sb bdev i inode idx.toNat r := by
  intro h
  exact inodeDataTransfer_outside smallBdev_consistent (fun _ => rfl) (.past (by decide)) fresh
    (h smallSuperblock smallBdev 1#32 emptyInode 524#32 fresh small_consistent small_hasFile)

end Muse.Ext2
