import Muse.Ext2.Layout

/-!
# Descriptors and block allocation

What `group_descriptor_transfer` and `alloc_ext2_obj` do on an image where the sector numbers they
compute do not wrap around: the first reads the descriptor of the layout, and the second takes the
lowest clear bit of the group's block bitmap and sets it, and changes nothing else on the disk.
-/

namespace Muse.Ext2

open Muse.Library

variable {sb : Superblock} {bdev : Bdev}

/-! ## Group descriptors -/

theorem groupDescriptorTransfer_read (hg : Geometry sb) (idx : BitVec 32)
    (h : 32 * idx.toNat < 2 ^ 32) (hok : bdev.next = .success) (d : GroupDescriptor) :
    groupDescriptorTransfer sb bdev idx d .read =
      (.success, sb.descriptor bdev.disk idx.toNat, bdev.tick) := by
  have hstart := hg.gdt_start
  have hspb := hg.sectorsPerBlock_bounds
  have hfirst : sb.firstBlock ≤ 1 := by
    rw [hg.first]
    split <;> omega
  unfold groupDescriptorTransfer
  generalize (if sb.blockSize > 2048#32 then sb.blockSize else 2048#32) = gdt at *
  rw [Superblock.blockBytes_eq, Nat.mul_left_comm] at hstart
  have hbound : (sb.firstBlock + 1) * sb.sectorsPerBlock ≤ 2 * 128 :=
    Nat.mul_le_mul (by omega) hspb.2
  have hlba : sectorSize * (idx * 32#32 / 512#32 + gdt / 512#32).toNat + 32 * (idx.toNat % 16) =
      (sb.firstBlock + 1) * sb.blockBytes + 32 * idx.toNat := by
    rw [BitVec.toNat_add, BitVec.toNat_udiv, BitVec.toNat_udiv, BitVec.toNat_mul, hstart,
      sectorSize, Superblock.blockBytes_eq, Nat.mul_left_comm _ 512]
    simp only [BitVec.toNat_ofNat, Nat.reducePow, Nat.reduceMod]
    omega
  simp only [Bdev.read_fresh hok, ne_eq, not_true_eq_false, if_false]
  rw [Bytes.slice_slice, BitVec.toNat_umod, Superblock.descriptor, ← hlba]
  · rfl
  · rw [BitVec.toNat_umod, sectorSize]
    simp only [BitVec.toNat_ofNat, Nat.reducePow, Nat.reduceMod]
    omega

theorem groupDescriptorTransfer_failed (hfail : bdev.next ≠ .success) (idx : BitVec 32)
    (d : GroupDescriptor) (dir : DataDir) :
    groupDescriptorTransfer sb bdev idx d dir = (bdev.next, d, bdev.tick) := by
  unfold groupDescriptorTransfer
  simp only [Bdev.read_failed hfail, ne_eq, hfail, not_false_eq_true, if_true]

/-- Descriptors are never written, in either direction. -/
@[simp] theorem groupDescriptorTransfer_written (idx : BitVec 32) (d : GroupDescriptor)
    (dir : DataDir) : (groupDescriptorTransfer sb bdev idx d dir).2.2.written = bdev.written := by
  unfold groupDescriptorTransfer
  dsimp only
  generalize (if sb.blockSize > 2048#32 then sb.blockSize else 2048#32) = gdt
  split
  · exact Bdev.read_written _ _ _
  · cases dir with
    | read => exact Bdev.read_written _ _ _
    | write => exact (Bdev.read_written _ _ _).trans (Bdev.read_written _ _ _)

/-! ## Searching a bitmap -/

theorem bit_clear_iff (byte : BitVec 8) (j : Nat) :
    (byte >>> j) &&& 1#8 = 0#8 ↔ byte.getLsbD j = false := by
  constructor
  · intro h
    have := congrArg (fun x : BitVec 8 => x.getLsbD 0) h
    simpa using this
  · intro h
    apply BitVec.eq_of_getLsbD_eq
    intro i hi
    rw [BitVec.getLsbD_and, BitVec.getLsbD_ushiftRight, BitVec.getLsbD_one]
    by_cases h0 : i = 0
    · subst h0
      simp [h]
    · simp [h0]

theorem clearBit_some {byte : BitVec 8} {j : Nat} (h : clearBit byte = some j) :
    j < 8 ∧ byte.getLsbD j = false ∧ ∀ q < j, byte.getLsbD q = true := by
  obtain ⟨hp, hj, hlow⟩ := List.find?_range_eq_some.mp h
  refine ⟨List.mem_range.mp hj, (bit_clear_iff byte j).mp (by simpa using hp), ?_⟩
  intro q hq
  have := hlow q hq
  simpa [bit_clear_iff] using this

theorem clearBit_none {byte : BitVec 8} (h : clearBit byte = none) :
    ∀ q < 8, byte.getLsbD q = true := by
  intro q hq
  have := List.find?_range_eq_none.mp h q hq
  simpa [bit_clear_iff] using this

/-- Bit `8 * i + j` of a bitmap is bit `j` of byte `i`. -/
theorem bitAt_byte (bitmap : Bytes) {i j : Nat} (hj : j < 8) :
    bitAt bitmap (8 * i + j) = (bitmap i).getLsbD j := by
  rw [bitAt, show (8 * i + j) / 8 = i by omega, show (8 * i + j) % 8 = j by omega]

/-- A byte without a clear bit, bit by bit. -/
theorem bitAt_of_full {bitmap : Bytes} {i q : Nat}
    (h : ∀ j < 8, (bitmap i).getLsbD j = true) (hlo : 8 * i ≤ q) (hhi : q < 8 * (i + 1)) :
    bitAt bitmap q = true := by
  have hq : q = 8 * i + (q - 8 * i) := by omega
  rw [hq, bitAt_byte bitmap (by omega)]
  exact h _ (by omega)

theorem full_of_eq_ones {byte : BitVec 8} (h : byte = 0xFF#8) : ∀ j < 8, byte.getLsbD j = true := by
  subst h
  decide

theorem findClear_some {bitmap : Bytes} {n i i' j : Nat}
    (h : findClear bitmap i n = some (i', j)) :
    i' < i + n ∧ j < 8 ∧ bitAt bitmap (8 * i' + j) = false ∧
      ∀ q, 8 * i ≤ q → q < 8 * i' + j → bitAt bitmap q = true := by
  induction n generalizing i with
  | zero => simp [findClear] at h
  | succ n ih =>
      -- the bits of a full byte come before those that are found behind it
      have behind : (∀ j < 8, (bitmap i).getLsbD j = true) →
          findClear bitmap (i + 1) n = some (i', j) →
          i' < i + (n + 1) ∧ j < 8 ∧ bitAt bitmap (8 * i' + j) = false ∧
            ∀ q, 8 * i ≤ q → q < 8 * i' + j → bitAt bitmap q = true := by
        intro hfull hrest
        obtain ⟨hi', hj, hclear, hlow⟩ := ih hrest
        refine ⟨by omega, hj, hclear, fun q hq hq' => ?_⟩
        rcases Nat.lt_or_ge q (8 * (i + 1)) with hlt | hge
        · exact bitAt_of_full hfull hq hlt
        · exact hlow q hge hq'
      rw [findClear] at h
      split at h
      next hff => exact behind (full_of_eq_ones hff) h
      next =>
        split at h
        next j' hj' =>
          obtain ⟨rfl, rfl⟩ : i = i' ∧ j' = j := by simpa using h
          obtain ⟨hj, hclear, hlow⟩ := clearBit_some hj'
          refine ⟨by omega, hj, by rwa [bitAt_byte bitmap hj], fun q hq hq' => ?_⟩
          have : q = 8 * i + (q - 8 * i) := by omega
          rw [this, bitAt_byte bitmap (by omega)]
          exact hlow _ (by omega)
        next hnone => exact behind (clearBit_none hnone) h

theorem findClear_none {bitmap : Bytes} {n i : Nat} (h : findClear bitmap i n = none) :
    ∀ q, 8 * i ≤ q → q < 8 * (i + n) → bitAt bitmap q = true := by
  induction n generalizing i with
  | zero =>
      intro q hlo hhi
      omega
  | succ n ih =>
      intro q hlo hhi
      rw [findClear] at h
      have behind : (∀ j < 8, (bitmap i).getLsbD j = true) →
          findClear bitmap (i + 1) n = none → bitAt bitmap q = true := by
        intro hfull hrest
        rcases Nat.lt_or_ge q (8 * (i + 1)) with hlt | hge
        · exact bitAt_of_full hfull hlo hlt
        · exact ih hrest q hge (by omega)
      split at h
      next hff => exact behind (full_of_eq_ones hff) h
      next =>
        split at h
        next => simp at h
        next hnone => exact behind (clearBit_none hnone) h

/-! ## Allocating a block -/

/-- The disk after bit `k` of the block bitmap at block `addr` is set. -/
def setBlockBit (sb : Superblock) (disk : Bytes) (addr k : Nat) : Bytes :=
  disk.splice (addr * sb.blockBytes) sb.blockBytes
    (setBitAt (disk.slice (addr * sb.blockBytes) sb.blockBytes) k)

/-- The device after the four transfers of an allocation. -/
def allocated (sb : Superblock) (bdev : Bdev) (addr k : Nat) : Bdev :=
  { bdev with
    disk := setBlockBit sb bdev.disk addr k
    transfers := bdev.transfers + 4
    written := ⟨.bitmap, addr * sb.sectorsPerBlock, sb.sectorsPerBlock⟩ :: bdev.written }

theorem read_block (hlog : sb.blockSizeLog.toNat ≤ 6) (hok : bdev.next = .success)
    {block : BitVec 32} (h : block.toNat * sb.blockBytes < 2 ^ 32) (buf : Bytes) :
    bdev.read (sb.blockLba block) sb.blockSectors buf =
      (.success, buf.splice 0 sb.blockBytes
        (bdev.disk.slice (block.toNat * sb.blockBytes) sb.blockBytes), bdev.tick) := by
  rw [Bdev.read, if_pos hok, Superblock.blockLba_toNat hlog h, Superblock.blockSectors_toNat hlog,
    Superblock.blockBytes_eq, sectorSize, Nat.mul_left_comm]

/-- A block that is read into a new buffer. -/
theorem read_block_fresh (hlog : sb.blockSizeLog.toNat ≤ 6) (hok : bdev.next = .success)
    {block : BitVec 32} (h : block.toNat * sb.blockBytes < 2 ^ 32) :
    bdev.read (sb.blockLba block) sb.blockSectors fresh =
      (.success, bdev.disk.slice (block.toNat * sb.blockBytes) sb.blockBytes, bdev.tick) := by
  rw [Bdev.read_fresh hok, Superblock.blockLba_toNat hlog h, Superblock.blockSectors_toNat hlog,
    Superblock.blockBytes_eq, sectorSize, Nat.mul_left_comm]

theorem wrote_block (hlog : sb.blockSizeLog.toNat ≤ 6) (bdev : Bdev) (source : Source)
    {block : BitVec 32} (h : block.toNat * sb.blockBytes < 2 ^ 32) (buf : Bytes) :
    bdev.wrote source (sb.blockLba block) sb.blockSectors buf =
      { bdev with
        disk := bdev.disk.splice (block.toNat * sb.blockBytes) sb.blockBytes buf
        transfers := bdev.transfers + 1
        written := ⟨source, block.toNat * sb.sectorsPerBlock, sb.sectorsPerBlock⟩ ::
          bdev.written } := by
  rw [Bdev.wrote, Superblock.blockLba_toNat hlog h, Superblock.blockSectors_toNat hlog,
    Superblock.blockBytes_eq, sectorSize, Nat.mul_left_comm, Bdev.tick]

/-- The bitmap of a group as `alloc_ext2_obj` reads it. -/
theorem bitAt_slice_eq_blockBit {disk : Bytes} {g k : Nat} (hk : k < 8 * sb.blockBytes) :
    bitAt (disk.slice ((sb.descriptor disk g).blockBitmapAddr.toNat * sb.blockBytes)
      sb.blockBytes) k = sb.blockBit disk g k := by
  rw [bitAt, Superblock.blockBit, bitAt, Bytes.slice_of_lt (by omega)]

/-- A block is allocated if all four transfers succeed, the descriptor says that there is one and
    the bitmap has a clear bit. -/
theorem allocExt2Obj_block (hg : Geometry sb) {g : BitVec 32} (hidx : 32 * g.toNat < 2 ^ 32)
    (hok : ∀ i < 4, bdev.result (bdev.transfers + i) = .success)
    (hcount : (sb.descriptor bdev.disk g.toNat).unallocatedBlocks ≠ 0#16)
    (hfit : (sb.descriptor bdev.disk g.toNat).blockBitmapAddr.toNat * sb.blockBytes < 2 ^ 32)
    {c : Nat} (hc : c < 8 * sb.blockBytes) (hclear : sb.blockBit bdev.disk g.toNat c = false) :
    ∃ k < 8 * sb.blockBytes, sb.blockBit bdev.disk g.toNat k = false ∧
      (∀ q < k, sb.blockBit bdev.disk g.toNat q = true) ∧
      allocExt2Obj sb bdev g false =
        (g * sb.blocksPerGroup + BitVec.ofNat 32 k,
          allocated sb bdev (sb.descriptor bdev.disk g.toNat).blockBitmapAddr.toNat k) := by
  have ok0 : bdev.next = .success := hok 0 (by decide)
  have ok1 : bdev.tick.next = .success := hok 1 (by decide)
  have ok2 : bdev.tick.tick.next = .success := hok 2 (by decide)
  have ok3 : bdev.tick.tick.tick.next = .success := hok 3 (by decide)
  set d := sb.descriptor bdev.disk g.toNat with hd
  have hread : ∀ b : Bdev, b.disk = bdev.disk → b.next = .success → ∀ d',
      groupDescriptorTransfer sb b g d' .read = (.success, d, b.tick) := by
    intro b hb hb' d'
    rw [groupDescriptorTransfer_read hg g hidx hb', hb]
  set bitmap := bdev.disk.slice (d.blockBitmapAddr.toNat * sb.blockBytes) sb.blockBytes with hbm
  have hbits : ∀ q < 8 * sb.blockBytes, bitAt bitmap q = sb.blockBit bdev.disk g.toNat q :=
    fun q hq => bitAt_slice_eq_blockBit hq
  unfold allocExt2Obj
  simp only [hread bdev rfl ok0, hread bdev.tick rfl ok1, ne_eq, not_true_eq_false, if_false,
    Bool.false_eq_true, false_and, not_false_eq_true, true_and, if_neg hcount,
    read_block_fresh hg.log_le ok2 hfit, hg.blockSize_toNat, Bdev.tick_disk, ← hbm]
  cases hfind : findClear bitmap 0 sb.blockBytes with
  | none =>
      have := findClear_none hfind c (Nat.zero_le _) (by omega)
      rw [hbits c hc, hclear] at this
      cases this
  | some found =>
      obtain ⟨i, j⟩ := found
      obtain ⟨hi, hj, hbit, hlow⟩ := findClear_some hfind
      have hk : 8 * i + j < 8 * sb.blockBytes := by omega
      refine ⟨8 * i + j, hk, by rw [← hbits _ hk, hbit], fun q hq => ?_, ?_⟩
      · rw [← hbits q (by omega)]
        exact hlow q (by omega) hq
      · have hset : Function.update bitmap i (bitmap i ||| 1#8 <<< j) =
            setBitAt bitmap (8 * i + j) := by
          rw [setBitAt, show (8 * i + j) / 8 = i by omega, show (8 * i + j) % 8 = j by omega]
        have hnum : BitVec.ofNat 32 (8 * i + j) = BitVec.ofNat 32 (i * 8) + BitVec.ofNat 32 j := by
          rw [← BitVec.ofNat_add, Nat.mul_comm]
        simp only [Bdev.write_ok ok3, wrote_block hg.log_le _ .bitmap hfit, not_true_eq_false,
          if_false, hset, hnum, BitVec.add_assoc]
        rfl

/-! ## What a write leaves alone -/

section Frame

variable {disk disk' : Bytes}

theorem splice_block_of_ne (b : Bytes) {n a : Nat} (h : a / sb.blockBytes ≠ n) :
    disk.splice (n * sb.blockBytes) sb.blockBytes b a = disk a := by
  refine Bytes.splice_of_not_mem ?_
  by_contra hmem
  exact h (Nat.div_eq_of_lt_le (by omega) (by rw [Nat.add_mul n 1]; omega))

/-- The descriptors lie in the blocks in front. -/
theorem Geometry.descriptor_congr (hg : Geometry sb) {g : Nat} (hlt : g < sb.groups)
    (h : ∀ a, sb.Front (a / sb.blockBytes) → disk' a = disk a) :
    sb.descriptor disk' g = sb.descriptor disk g := by
  have hpos := hg.blockBytes_pos
  refine Bytes.slice_congr fun i hi => h _ ?_
  have hdiv : ((sb.firstBlock + 1) * sb.blockBytes + 32 * g + i) / sb.blockBytes =
      sb.firstBlock + 1 + (32 * g + i) / sb.blockBytes := by
    rw [Nat.add_assoc, Nat.mul_comm, Nat.mul_add_div hpos]
  have hin : (32 * g + i) / sb.blockBytes < sb.gdtBlocks := by
    rw [Superblock.gdtBlocks, Nat.div_lt_iff_lt_mul hpos]
    have := Nat.lt_div_mul_add (a := 32 * sb.groups + sb.blockBytes - 1) hpos
    omega
  rw [Superblock.Front, hdiv]
  omega

/-- The word number `e` of a block. -/
theorem Geometry.entry_congr (hg : Geometry sb) {n e : Nat} (he : e < sb.entriesPerBlock)
    (h : ∀ a, a / sb.blockBytes = n → disk' a = disk a) :
    disk'.word32 (n * sb.blockBytes + 4 * e) = disk.word32 (n * sb.blockBytes + 4 * e) := by
  have hpos := hg.blockBytes_pos
  have hsize := Superblock.entriesPerBlock_eq sb
  refine Bytes.word32_congr fun i hi => h _ ?_
  exact Nat.div_eq_of_lt_le (by omega) (by rw [Nat.add_mul n 1]; omega)

/-- A block bitmap in which one bit has been set. -/
theorem blockBit_setBlockBit {g k q : Nat}
    (hd : sb.descriptor (setBlockBit sb disk (sb.descriptor disk g).blockBitmapAddr.toNat k) g =
      sb.descriptor disk g)
    (hq : q < 8 * sb.blockBytes) :
    sb.blockBit (setBlockBit sb disk (sb.descriptor disk g).blockBitmapAddr.toNat k) g q =
      (decide (q = k) || sb.blockBit disk g q) := by
  rw [← bitAt_slice_eq_blockBit hq, ← bitAt_slice_eq_blockBit hq, hd,
    ← bitAt_setBitAt (by decide)]
  rw [bitAt, bitAt, Bytes.slice_of_lt (by omega), setBlockBit, Bytes.splice_add (by omega)]

end Frame

end Muse.Ext2
