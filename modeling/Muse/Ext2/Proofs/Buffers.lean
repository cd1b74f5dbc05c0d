import Muse.Ext2.Buffers
import Muse.Ext2.Proofs.Addresses

/-!
# Which buffers are kept

Each function keeps a number of buffers that depends on which transfers fail. The numbers of the
calls that a function makes add up, so a function releases all its buffers if and only if each of
them does and no transfer fails while a buffer is held that the function does not free then.
-/

namespace Muse.Ext2.Buffers

open Muse.Library

variable {sb : Superblock} {bdev : Bdev} {heap : Ledger} {g : BitVec 32}

/-! ## Buffers do not change what a function does -/

theorem groupDescriptorTransfer_erase (sb : Superblock) (bdev : Bdev) (idx : BitVec 32)
    (d : GroupDescriptor) (dir : DataDir) (heap : Ledger) :
    (groupDescriptorTransfer sb bdev idx d dir heap).1 =
      Ext2.groupDescriptorTransfer sb bdev idx d dir := by
  unfold groupDescriptorTransfer Ext2.groupDescriptorTransfer
  dsimp only
  generalize (if sb.blockSize > 2048#32 then sb.blockSize else 2048#32) = gdt
  generalize bdev.read (idx * 32#32 / 512#32 + gdt / 512#32) 1#32 fresh = r
  obtain ⟨err, descriptors, b⟩ := r
  by_cases herr : err = .success
  · cases dir with
    | read => simp [herr]
    | write =>
        simp only [herr, ne_eq, not_true_eq_false, if_false]
        generalize b.read _ _ _ = r
        obtain ⟨err', descriptors', b'⟩ := r
        by_cases herr' : err' = .success <;> simp [herr']
  · simp [herr]

theorem inodeTransfer_erase (sb : Superblock) (bdev : Bdev) (i : BitVec 32) (inode : Inode)
    (dir : DataDir) (heap : Ledger) :
    (inodeTransfer sb bdev i inode dir heap).map Prod.fst =
      Ext2.inodeTransfer sb bdev i inode dir := by
  unfold inodeTransfer Ext2.inodeTransfer
  dsimp only
  rw [← groupDescriptorTransfer_erase _ _ _ _ _ heap]
  by_cases hz : sb.inodesPerGroup = 0#32
  · simp [hz]
  simp only [hz, if_false]
  generalize groupDescriptorTransfer sb bdev _ fresh .read heap = r
  obtain ⟨⟨err, descriptor, b⟩, heap'⟩ := r
  by_cases herr : err = .success
  · simp only [herr, ne_eq, not_true_eq_false, if_false]
    generalize b.read _ _ _ = r
    obtain ⟨err', inodes, b'⟩ := r
    by_cases herr' : err' = .success
    · simp only [herr', not_true_eq_false, if_false]
      split
      · rfl
      · cases dir with
        | read => rfl
        | write =>
            dsimp only
            generalize b'.write _ _ _ _ = r
            obtain ⟨err'', b''⟩ := r
            by_cases herr'' : err'' = .success <;> simp [herr'']
    · simp [herr']
  · simp [herr]

theorem allocExt2Obj_erase (sb : Superblock) (bdev : Bdev) (g : BitVec 32) (inode : Bool)
    (heap : Ledger) :
    (allocExt2Obj sb bdev g inode heap).1 = Ext2.allocExt2Obj sb bdev g inode := by
  unfold allocExt2Obj Ext2.allocExt2Obj
  rw [← groupDescriptorTransfer_erase _ _ _ _ _ heap]
  generalize groupDescriptorTransfer sb bdev g fresh .read heap = r
  obtain ⟨⟨err, d, b⟩, heap₁⟩ := r
  dsimp only
  rw [← groupDescriptorTransfer_erase _ _ _ _ _ heap₁]
  generalize groupDescriptorTransfer sb b g d .read heap₁ = r
  obtain ⟨⟨err₂, d₂, b₂⟩, heap₂⟩ := r
  dsimp only
  generalize b₂.read _ _ fresh = r
  obtain ⟨err₃, bitmap, b₃⟩ := r
  dsimp only
  unfold searchBitmap
  cases findClear bitmap 0 sb.blockSize.toNat with
  | none =>
      dsimp only
      split_ifs <;> rfl
  | some found =>
      obtain ⟨i, j⟩ := found
      dsimp only
      split_ifs <;> rfl

theorem transferBlock_erase (sb : Superblock) (bdev : Bdev) (i : BitVec 32) (inode : Inode)
    (lba : BitVec 32) (writeInode : Bool) (data : Bytes) (dir : DataDir) (heap : Ledger) :
    (transferBlock sb bdev i inode lba writeInode data dir heap).map Prod.fst =
      Ext2.transferBlock sb bdev i inode lba writeInode data dir := by
  unfold transferBlock Ext2.transferBlock
  cases dir <;> dsimp only <;> split_ifs
  all_goals first
    | rfl
    | rw [← inodeTransfer_erase _ _ _ _ _ heap, Option.map_map, Option.map_map]
      rfl

theorem transferIndirect_erase (sb : Superblock) (bdev : Bdev) (i : BitVec 32) (inode : Inode)
    (entry : Nat) (writeInode : Bool) (data : Bytes) (dir : DataDir) (heap : Ledger) :
    (transferIndirect sb bdev i inode entry writeInode data dir heap).map Prod.fst =
      Ext2.transferIndirect sb bdev i inode entry writeInode data dir := by
  unfold transferIndirect Ext2.transferIndirect
  dsimp only
  split_ifs
  · rfl
  · rw [transferBlock_erase, ← allocExt2Obj_erase _ _ _ _ heap.take.2]
  · exact transferBlock_erase ..

theorem inodeDataTransfer_erase (sb : Superblock) (bdev : Bdev) (i : BitVec 32) (inode : Inode)
    (idx : BitVec 32) (data : Bytes) (dir : DataDir) (heap : Ledger) :
    (inodeDataTransfer sb bdev i inode idx data dir heap).map Prod.fst =
      Ext2.inodeDataTransfer sb bdev i inode idx data dir := by
  unfold inodeDataTransfer Ext2.inodeDataTransfer
  dsimp only
  split_ifs
  · rw [transferBlock_erase, ← allocExt2Obj_erase _ _ _ _ heap]
  · exact transferBlock_erase ..
  · rfl
  · rw [transferIndirect_erase, ← allocExt2Obj_erase _ _ _ _ heap]
  · exact transferIndirect_erase ..
  · exact transferBlock_erase ..

/-! ## How many buffers are kept -/

/-- The call keeps no buffer if and only if the condition holds. -/
def Keeps (heap heap' : Ledger) (releases : Prop) : Prop :=
  ∃ k, heap.Leaks heap' k ∧ (k = 0 ↔ releases)

theorem Keeps.balanced_iff {heap' : Ledger} {p : Prop} (h : Keeps .empty heap' p) :
    heap'.Balanced ↔ p := by
  obtain ⟨k, hleaks, hk⟩ := h
  exact hleaks.balanced_iff.trans hk

theorem Keeps.refl (heap : Ledger) : Keeps heap heap True :=
  ⟨0, .refl heap, by simp⟩

theorem Keeps.congr {heap' : Ledger} {p q : Prop} (h : Keeps heap heap' p) (hpq : p ↔ q) :
    Keeps heap heap' q := by
  obtain ⟨k, hleaks, hk⟩ := h
  exact ⟨k, hleaks, hk.trans hpq⟩

/-- Of two calls in a row, both must release their buffers. -/
theorem Keeps.trans {heap' heap'' : Ledger} {p q : Prop} (h : Keeps heap heap' p)
    (h' : Keeps heap' heap'' q) : Keeps heap heap'' (p ∧ q) := by
  obtain ⟨k, hleaks, hk⟩ := h
  obtain ⟨k', hleaks', hk'⟩ := h'
  exact ⟨k + k', hleaks.trans hleaks', by rw [Nat.add_eq_zero_iff, hk, hk']⟩

theorem Keeps.give {heap' : Ledger} {p : Prop} (h : Keeps heap.take.2 heap' p) :
    Keeps heap (heap'.release heap.take.1) p := by
  obtain ⟨k, hleaks, hk⟩ := h
  exact ⟨k, hleaks.give, hk⟩

theorem Keeps.keep {heap' : Ledger} {p : Prop} (h : Keeps heap.take.2 heap' p) :
    Keeps heap heap' False := by
  obtain ⟨k, hleaks, -⟩ := h
  exact ⟨k + 1, hleaks.keep, by simp⟩

theorem succeeds_one : Succeeds bdev 1 ↔ bdev.next = .success := by
  constructor
  · exact fun h => h 0 Nat.one_pos
  · intro h i hi
    rw [Nat.lt_one_iff.mp hi]
    exact h

theorem succeeds_succ {n : Nat} :
    Succeeds bdev (n + 1) ↔ bdev.next = .success ∧ Succeeds bdev.tick n := by
  constructor
  · intro h
    refine ⟨h 0 (Nat.succ_pos n), fun i hi => ?_⟩
    have := h (i + 1) (Nat.succ_lt_succ hi)
    rwa [← Nat.add_assoc, Nat.add_right_comm] at this
  · rintro ⟨h, htick⟩ i hi
    cases i with
    | zero => exact h
    | succ i =>
        have := htick i (Nat.lt_of_succ_lt_succ hi)
        rwa [Bdev.tick_result, Bdev.tick_transfers, Nat.add_right_comm, Nat.add_assoc] at this

theorem groupDescriptorTransfer_read (hok : bdev.next = .success) (d : GroupDescriptor) :
    groupDescriptorTransfer sb bdev g d .read heap =
      ((.success, sb.descriptorAt bdev.disk g, bdev.tick), heap.take.2.release heap.take.1) := by
  unfold groupDescriptorTransfer
  simp only [Bdev.read_fresh hok, ne_eq, not_true_eq_false, if_false]
  rfl

theorem groupDescriptorTransfer_failed (hfail : bdev.next ≠ .success) (d : GroupDescriptor)
    (dir : DataDir) : groupDescriptorTransfer sb bdev g d dir heap =
      ((bdev.next, d, bdev.tick), heap.take.2) := by
  unfold groupDescriptorTransfer
  simp only [Bdev.read_failed hfail, ne_eq, hfail, not_false_eq_true, if_true]

theorem groupDescriptorTransfer_keeps (sb : Superblock) (bdev : Bdev) (g : BitVec 32)
    (d : GroupDescriptor) (dir : DataDir) (heap : Ledger) :
    Keeps heap (groupDescriptorTransfer sb bdev g d dir heap).2 (DescriptorReleases bdev dir) := by
  by_cases hok : bdev.next = .success
  · cases dir with
    | read =>
        rw [groupDescriptorTransfer_read hok]
        exact (Keeps.refl _).give.congr (by simp [DescriptorReleases, succeeds_one, hok])
    | write =>
        have hcond : DescriptorReleases bdev .write ↔ bdev.tick.next = .success := by
          rw [DescriptorReleases, succeeds_succ, succeeds_one]
          exact and_iff_right hok
        unfold groupDescriptorTransfer
        simp only [Bdev.read_fresh hok, ne_eq, not_true_eq_false, if_false]
        by_cases hok' : bdev.tick.next = .success
        · rw [Bdev.read, if_pos hok']
          exact (Keeps.refl _).give.congr (by simp [hcond, hok'])
        · simp only [Bdev.read_failed hok', hok', not_false_eq_true, if_true]
          exact (Keeps.refl _).keep.congr (by simp [hcond, hok'])
  · rw [groupDescriptorTransfer_failed hok]
    refine (Keeps.refl _).keep.congr ?_
    cases dir <;> simp [DescriptorReleases, succeeds_succ, hok]

theorem inodeTransfer_keeps (i : BitVec 32) (inode : Inode) (dir : DataDir)
    {r : (DriveRes × Inode × Bdev) × Ledger}
    (hr : inodeTransfer sb bdev i inode dir heap = some r) :
    Keeps heap r.2 (bdev.next = .success) := by
  unfold inodeTransfer at hr
  by_cases hz : sb.inodesPerGroup = 0#32
  · simp [hz] at hr
  have hfirst := groupDescriptorTransfer_keeps sb bdev ((i - 1#32) / sb.inodesPerGroup) fresh .read
    heap
  rw [DescriptorReleases, succeeds_one] at hfirst
  by_cases hok : bdev.next = .success
  · simp only [hz, if_false, groupDescriptorTransfer_read hok] at hr hfirst
    generalize bdev.tick.read _ _ _ = b at hr
    obtain ⟨err, inodes, b⟩ := b
    have hrest := hfirst.trans (Keeps.refl _).give
    rw [and_true] at hrest
    by_cases herr : err = .success
    · simp only [herr, ne_eq, not_true_eq_false, if_false] at hr
      split at hr
      · cases hr
      · cases dir with
        | read =>
            obtain rfl := Option.some.inj hr
            exact hrest
        | write =>
            dsimp only at hr
            generalize b.write _ _ _ _ = b at hr
            obtain ⟨err', b⟩ := b
            split at hr <;> obtain rfl := Option.some.inj hr <;> exact hrest
    · simp only [ne_eq, herr, not_false_eq_true, if_true, not_true_eq_false, if_false] at hr
      obtain rfl := Option.some.inj hr
      exact hrest
  · simp only [hz, if_false, groupDescriptorTransfer_failed hok, ne_eq, hok, not_false_eq_true,
      if_true] at hr hfirst
    obtain rfl := Option.some.inj hr
    exact hfirst.congr (by simp [hok])

/-- What a call of `alloc_ext2_obj` leaves on the heap and does to the device. -/
structure AllocKeeps (sb : Superblock) (bdev : Bdev) (g : BitVec 32) (inode : Bool) (heap : Ledger)
    (r : (BitVec 32 × Bdev) × Ledger) : Prop where
  keeps : Keeps heap r.2 (AllocReleases sb bdev g inode)
  result : r.1.2.result = bdev.result
  transfers : AllocReleases sb bdev g inode →
    r.1.2.transfers = bdev.transfers + allocTransfers sb bdev.disk g inode

theorem allocReleases_iff (hok : bdev.next = .success)
    (hcount : sb.freeCount bdev.disk g inode ≠ 0#16) : AllocReleases sb bdev g inode ↔
      bdev.tick.next = .success ∧ bdev.tick.tick.next = .success := by
  constructor
  · rintro ⟨-, h⟩
    exact ⟨h hcount 1 (by decide), h hcount 2 (by decide)⟩
  · rintro ⟨hok₁, hok₂⟩
    refine ⟨succeeds_one.mpr hok, fun _ => succeeds_succ.mpr ⟨hok, ?_⟩⟩
    exact succeeds_succ.mpr ⟨hok₁, succeeds_one.mpr hok₂⟩

theorem searchBitmap_keeps {inode : Bool} {lba : BitVec 32} {bitmap : Bytes} {buffer : Nat}
    {r : (BitVec 32 × Bdev) × Ledger}
    (hr : searchBitmap sb bdev g inode lba bitmap buffer heap = r) :
    r.2 = heap.release buffer ∧ r.1.2.result = bdev.result ∧
      r.1.2.transfers = bdev.transfers +
        if (findClear bitmap 0 sb.blockSize.toNat).isNone then 0 else 1 := by
  have hwrite : ∀ buf, (bdev.write .bitmap lba sb.blockSectors buf).2.result = bdev.result ∧
      (bdev.write .bitmap lba sb.blockSectors buf).2.transfers = bdev.transfers + 1 := by
    intro buf
    rw [Bdev.write]
    split <;> exact ⟨rfl, rfl⟩
  rw [← hr, searchBitmap]
  cases findClear bitmap 0 sb.blockSize.toNat with
  | none => exact ⟨rfl, rfl, rfl⟩
  | some found =>
      obtain ⟨i, j⟩ := found
      simp only [Option.isNone_some, Bool.false_eq_true, if_false]
      split_ifs <;> exact ⟨rfl, hwrite _⟩

/-- The call from the second reading of the descriptor on (`ext2.c:117-171`). -/
theorem allocExt2Obj_counted (hok : bdev.next = .success)
    (hcount : sb.freeCount bdev.disk g inode ≠ 0#16) :
    AllocKeeps sb bdev g inode heap (allocExt2Obj sb bdev g inode heap) := by
  have hcond := allocReleases_iff hok hcount
  have hfirst : Keeps heap (heap.take.2.release heap.take.1) True := (Keeps.refl _).give
  generalize hheap : heap.take.2.release heap.take.1 = heap₁ at hfirst
  have hinodes : ¬ (inode = true ∧ (sb.descriptorAt bdev.disk g).unallocatedInodes = 0#16) := by
    rintro ⟨rfl, h⟩
    exact hcount h
  have hblocks : ¬ (¬ inode = true ∧ (sb.descriptorAt bdev.disk g).unallocatedBlocks = 0#16) := by
    rintro ⟨hi, h⟩
    obtain rfl := Bool.eq_false_of_not_eq_true hi
    exact hcount h
  unfold allocExt2Obj
  simp only [groupDescriptorTransfer_read hok, hheap, ne_eq, not_true_eq_false, if_false,
    if_neg hinodes, if_neg hblocks]
  by_cases hok₁ : bdev.tick.next = .success
  · have hsecond : Keeps heap (heap₁.take.2.release heap₁.take.1) True :=
      (hfirst.trans (Keeps.refl _).give).congr (and_self_iff)
    generalize hheap₁ : heap₁.take.2.release heap₁.take.1 = heap₂ at hsecond
    simp only [groupDescriptorTransfer_read hok₁, hheap₁, not_true_eq_false, if_false]
    by_cases hok₂ : bdev.tick.tick.next = .success
    · simp only [Bdev.read_fresh hok₂, not_true_eq_false, if_false]
      have hread : bdev.tick.tick.disk.slice
          (sectorSize * (sb.bitmapLba bdev.disk g inode).toNat)
          (sectorSize * sb.blockSectors.toNat) =
          bdev.disk.slice (sectorSize * (sb.bitmapLba bdev.disk g inode).toNat)
            sb.blockSize.toNat := by
        rw [sb.blockSectors_mul]
        rfl
      generalize hr : searchBitmap _ _ _ _ _ _ _ _ = r
      obtain ⟨hheap₂, hresult, htransfers⟩ := searchBitmap_keeps hr
      refine ⟨?_, hresult, fun _ => ?_⟩
      · rw [hheap₂]
        exact (hsecond.trans (Keeps.refl _).give).congr (by simp [hcond, hok₁, hok₂])
      · have hcounted := htransfers.trans (congrArg (fun bitmap => bdev.transfers + 3 +
          if (findClear bitmap 0 sb.blockSize.toNat).isNone then 0 else 1) hread)
        rw [hcounted, allocTransfers, if_neg hcount]
        split_ifs <;> rfl
    · simp only [Bdev.read_failed hok₂, hok₂, not_false_eq_true, if_true]
      exact ⟨(hsecond.trans (Keeps.refl _).keep).congr (by simp [hcond, hok₂]), rfl,
        fun h => absurd (hcond.mp h).2 hok₂⟩
  · simp only [groupDescriptorTransfer_failed hok₁, hok₁, not_false_eq_true, if_true]
    exact ⟨(hfirst.trans (Keeps.refl _).keep).congr (by simp [hcond, hok₁]), rfl,
      fun h => absurd (hcond.mp h).1 hok₁⟩

theorem allocExt2Obj_keeps (sb : Superblock) (bdev : Bdev) (g : BitVec 32) (inode : Bool)
    (heap : Ledger) : AllocKeeps sb bdev g inode heap (allocExt2Obj sb bdev g inode heap) := by
  by_cases hok : bdev.next = .success
  · by_cases hcount : sb.freeCount bdev.disk g inode = 0#16
    · have hsucceeds := succeeds_one.mpr hok
      have hkeeps : Keeps heap (heap.take.2.release heap.take.1)
          (AllocReleases sb bdev g inode) :=
        (Keeps.refl _).give.congr (by simp [AllocReleases, hsucceeds, hcount])
      have htransfers : bdev.tick.transfers =
          bdev.transfers + allocTransfers sb bdev.disk g inode := by
        rw [allocTransfers, if_pos hcount]
        rfl
      unfold allocExt2Obj
      cases inode with
      | true =>
          have hcount : (sb.descriptorAt bdev.disk g).unallocatedInodes = 0#16 := hcount
          simp only [groupDescriptorTransfer_read hok, ne_eq, not_true_eq_false, if_false, hcount,
            and_self, if_true]
          exact ⟨hkeeps, rfl, fun _ => htransfers⟩
      | false =>
          have hcount : (sb.descriptorAt bdev.disk g).unallocatedBlocks = 0#16 := hcount
          simp only [groupDescriptorTransfer_read hok, ne_eq, not_true_eq_false, if_false, hcount,
            Bool.false_eq_true, false_and, not_false_eq_true, and_self, if_true]
          exact ⟨hkeeps, rfl, fun _ => htransfers⟩
    · exact allocExt2Obj_counted hok hcount
  · have hfails : ¬ AllocReleases sb bdev g inode := fun h => hok (succeeds_one.mp h.1)
    unfold allocExt2Obj
    simp only [groupDescriptorTransfer_failed hok, ne_eq, hok, not_false_eq_true, if_true]
    exact ⟨(Keeps.refl _).keep.congr (by simp [hfails]), rfl, fun h => absurd h hfails⟩

theorem write_next (source : Source) (lba count : BitVec 32) (buf : Bytes) :
    (bdev.write source lba count buf).2.next = bdev.tick.next := by
  rw [Bdev.write]
  split <;> rfl

/-- The end of `inode_data_transfer` takes buffers only to write the inode back, after the data was
    transferred. -/
theorem transferBlock_keeps {i : BitVec 32} {inode : Inode} {lba : BitVec 32} {writeInode : Bool}
    {data : Bytes} {dir : DataDir} {r : Transferred × Ledger}
    (hr : transferBlock sb bdev i inode lba writeInode data dir heap = some r) :
    Keeps heap r.2 (writeInode → bdev.next = .success → bdev.tick.next = .success) := by
  have hmoved : ∃ data' b, b.next = bdev.tick.next ∧
      (if bdev.next ≠ .success then
          some ((⟨bdev.next, inode, data', b⟩, heap) : Transferred × Ledger)
        else if writeInode then
          (inodeTransfer sb b i inode .write heap).map fun t =>
            (⟨t.1.1, t.1.2.1, data', t.1.2.2⟩, t.2)
        else some (⟨bdev.next, inode, data', b⟩, heap)) = some r := by
    rw [← hr]
    unfold transferBlock
    cases dir with
    | read =>
        refine ⟨(bdev.read lba sb.blockSectors data).2.1, (bdev.read lba sb.blockSectors data).2.2,
          by rw [Bdev.read_bdev], ?_⟩
        rw [← Bdev.read_fst lba sb.blockSectors data]
    | write =>
        refine ⟨data, (bdev.write .data lba sb.blockSectors data).2, write_next .., ?_⟩
        rw [← Bdev.write_fst .data lba sb.blockSectors data]
  obtain ⟨data', b, hnext, hrun⟩ := hmoved
  by_cases hok : bdev.next = .success
  · cases writeInode with
    | true =>
        simp only [hok, ne_eq, not_true_eq_false, if_false, if_true, Option.map_eq_some_iff] at hrun
        obtain ⟨written, hwritten, rfl⟩ := hrun
        exact (inodeTransfer_keeps i inode .write hwritten).congr (by simp [hok, hnext])
    | false =>
        simp only [hok, ne_eq, not_true_eq_false, if_false, Bool.false_eq_true] at hrun
        obtain rfl := Option.some.inj hrun
        exact (Keeps.refl _).congr (by simp)
  · rw [if_pos hok] at hrun
    obtain rfl := Option.some.inj hrun
    exact (Keeps.refl _).congr (by simp [hok])

/-- The buffer of the singly indirect block is kept on every path. -/
theorem transferIndirect_keeps {i : BitVec 32} {inode : Inode} {entry : Nat} {writeInode : Bool}
    {data : Bytes} {dir : DataDir} {r : Transferred × Ledger}
    (hr : transferIndirect sb bdev i inode entry writeInode data dir heap = some r) :
    Keeps heap r.2 False := by
  unfold transferIndirect at hr
  dsimp only at hr
  split_ifs at hr
  · obtain rfl := Option.some.inj hr
    exact (Keeps.refl _).keep
  · exact ((allocExt2Obj_keeps ..).keeps.trans (transferBlock_keeps hr)).keep
  · exact (transferBlock_keeps hr).keep

theorem inodeDataTransfer_keeps {i : BitVec 32} {inode : Inode} {idx : BitVec 32} {data : Bytes}
    {dir : DataDir} {r : Transferred × Ledger}
    (hr : inodeDataTransfer sb bdev i inode idx data dir heap = some r) :
    Keeps heap r.2 (DataReleases sb bdev inode idx dir) := by
  unfold inodeDataTransfer at hr
  unfold DataReleases
  by_cases hdirect : idx < 12#32
  · simp only [hdirect, if_true] at hr ⊢
    by_cases hhole : inode.directBlock idx.toNat = 0#32
    · simp only [hhole, if_true, true_imp_iff] at hr ⊢
      obtain ⟨halloc, hresult, htransfers⟩ :=
        allocExt2Obj_keeps sb bdev (inode.groupId.setWidth 32) false heap
      generalize allocExt2Obj sb bdev (inode.groupId.setWidth 32) false heap = a at *
      obtain ⟨⟨block, b⟩, heap₁⟩ := a
      refine (halloc.trans (transferBlock_keeps hr)).congr (and_congr_right fun hreleases => ?_)
      have hdone := htransfers hreleases
      dsimp only at hresult hdone
      rw [Bdev.next, Bdev.next, Bdev.tick_result, Bdev.tick_transfers, hresult, hdone]
      simp
    · simp only [hhole, if_false, false_imp_iff] at hr ⊢
      exact (transferBlock_keeps hr).congr (by simp)
  · simp only [hdirect, if_false] at hr ⊢
    split_ifs at hr ⊢ with hindirect hhole hdir
    · obtain rfl := Option.some.inj hr
      exact (Keeps.refl _).congr (by simp [hhole, hdir])
    · exact (((allocExt2Obj_keeps ..).keeps.trans (transferIndirect_keeps hr))).congr
        (by simp [hdir])
    · exact (transferIndirect_keeps hr).congr (by simp [hhole])
    · exact (transferBlock_keeps hr).congr (by simp)

/-! ## Which calls release all their buffers -/

/-- A call releases what it took if and only if the transfers after which it does not free succeed,
    and `inode_data_transfer` if it does not get to the singly indirect block either. -/
theorem buffers_released_iff (sb : Superblock) (bdev : Bdev) :
    (∀ g d dir, (groupDescriptorTransfer sb bdev g d dir .empty).2.Balanced ↔
      DescriptorReleases bdev dir) ∧
    (∀ i inode dir r, inodeTransfer sb bdev i inode dir .empty = some r →
      (r.2.Balanced ↔ bdev.next = .success)) ∧
    (∀ g inode, (allocExt2Obj sb bdev g inode .empty).2.Balanced ↔
      AllocReleases sb bdev g inode) ∧
    ∀ i inode idx data dir r, inodeDataTransfer sb bdev i inode idx data dir .empty = some r →
      (r.2.Balanced ↔ DataReleases sb bdev inode idx dir) := by
  refine ⟨fun g d dir => ?_, fun i inode dir r hr => ?_, fun g inode => ?_,
    fun i inode idx data dir r hr => ?_⟩
  · exact (groupDescriptorTransfer_keeps sb bdev g d dir .empty).balanced_iff
  · exact (inodeTransfer_keeps i inode dir hr).balanced_iff
  · exact (allocExt2Obj_keeps sb bdev g inode .empty).keeps.balanced_iff
  · exact (inodeDataTransfer_keeps hr).balanced_iff

/-- An inode whose singly indirect block is block 3. -/
def indirectInode : Inode := fun a => if a = 88 then 3#8 else 0#8

/-- A block that the singly indirect block maps is read, and the buffer of that block is kept. -/
theorem buffers_released_iff_indirect :
    ∃ r, inodeDataTransfer oneGroup (oneGroupBdev 1#8 0#8) 1#32 indirectInode 12#32 fresh .read
        .empty = some r ∧ ¬ r.2.Balanced := by
  refine ⟨_, rfl, fun h => ?_⟩
  have hcond := ((buffers_released_iff oneGroup (oneGroupBdev 1#8 0#8)).2.2.2 1#32 indirectInode
    12#32 fresh .read _ rfl).mp h
  simp [DataReleases] at hcond
  revert hcond
  decide

/-- No transfer fails, and the one buffer that was taken is not released. -/
theorem indirect_buffer_kept :
    ∃ r, inodeDataTransfer oneGroup (oneGroupBdev 1#8 0#8) 1#32 indirectInode 12#32 fresh .read
        .empty = some r ∧ r.1.err = .success ∧ r.2 = ⟨1, []⟩ ∧ ¬ r.2.Balanced :=
  ⟨_, rfl, rfl, rfl, by decide⟩

end Muse.Ext2.Buffers
