import Muse.Ext2.Proofs.Rounds
import Muse.Ext2.Proofs.WriteInside

/-!
# Reading without writing

A read should leave the disk and the inode alone. `inode_data_transfer` allocates a block for every
hole it meets, in both directions, unless the whole singly indirect block is missing. So a read
leaves everything alone exactly if it meets no hole: the rounds that `ext2_transfer` gets to are
counted by `Cursor`, and they do not depend on what is read.
-/

namespace Muse.Ext2

open Muse.Library

/-! ## Holes -/

namespace Superblock

variable (sb : Superblock)

/-- The block `idx` of a file is found through its singly indirect block. -/
def InIndirect (idx : BitVec 32) : Prop := 12#32 ≤ idx ∧ idx < 12#32 + sb.blockSize / 4#32

/-- The entry of the singly indirect block for the block `idx` of the file, as it is read. -/
def indirectEntry (disk : Bytes) (inode : Inode) (idx : BitVec 32) : BitVec 32 :=
  (disk.slice (sectorSize * (sb.blockLba inode.indirectBlockSingle).toNat)
    (sectorSize * sb.blockSectors.toNat)).word32 (4 * (idx - 12#32).toNat)

/-- The block `idx` of the file is not a hole that a read fills. -/
def Present (disk : Bytes) (inode : Inode) (idx : BitVec 32) : Prop :=
  (idx < 12#32 → inode.directBlock idx.toNat ≠ 0#32) ∧
    (sb.InIndirect idx → inode.indirectBlockSingle ≠ 0#32 →
      sb.blockLba (sb.indirectEntry disk inode idx) ≠ 0#32)

end Superblock

/-- The counters in round `k` of a transfer up to `limit`. -/
def Cursor.round (sb : Superblock) (offset limit : BitVec 32) : Nat → Cursor
  | 0 => .start sb offset
  | k + 1 => (round sb offset limit k).next sb limit

/-- Nothing but an error of the device ends a read of the file after the round with the counters
    `c`: it is not the last one, and its block is not one that has no indirect block. -/
def Continues (sb : Superblock) (inode : Inode) (offset len : BitVec 32) (c : Cursor) : Prop :=
  c.bytesWritten + c.cnt sb (offset + len) ≠ len ∧
    ¬ (sb.InIndirect c.block ∧ inode.indirectBlockSingle = 0#32)

/-- A read of `len` bytes gets to round `k` if the device has no errors. -/
def Visits (sb : Superblock) (inode : Inode) (offset len : BitVec 32) (k : Nat) : Prop :=
  ∀ j < k, Continues sb inode offset len (.round sb offset (offset + len) j)

/-! ## The property -/

/-- `inode_data_transfer(..., DIR_READ)` leaves the disk and the inode alone, whichever transfers
    fail. -/
def ReadsBlockOnly (sb : Superblock) (bdev : Bdev) (i : BitVec 32) (inode : Inode)
    (idx : BitVec 32) (data : Bytes) : Prop :=
  ∀ result, ∃ r, inodeDataTransfer sb { bdev with result } i inode idx data .read = some r ∧
    r.bdev.written = bdev.written ∧ r.bdev.disk = bdev.disk ∧ r.inode = inode

/-- `ext2_transfer(..., DIR_READ)` leaves the disk and the inode alone, whichever transfers fail and
    after however many rounds it is looked at. -/
def ReadsFileOnly (sb : Superblock) (bdev : Bdev) (i : BitVec 32) (inode : Inode)
    (offset len : BitVec 32) (data : Bytes) : Prop :=
  ∀ result n, ∃ t, ((Transfer.start sb { bdev with result } inode offset data).rounds sb i offset
      (clampedLen inode offset len) .read n).bind
        (·.finish sb i offset (clampedLen inode offset len) .read) = some t ∧
    t.bdev.written = bdev.written ∧ t.bdev.disk = bdev.disk ∧ t.inode = inode

/-! ## One block -/

section Block

variable {sb : Superblock} {bdev b : Bdev} {i idx : BitVec 32} {inode : Inode} {data : Bytes}

theorem Bdev.read_bdev (lba count : BitVec 32) (buf : Bytes) :
    (bdev.read lba count buf).2.2 = bdev.tick := by
  unfold read
  split <;> rfl

theorem Bdev.read_err (hok : bdev.next = .success) (lba count : BitVec 32) (buf : Bytes) :
    (bdev.read lba count buf).1 = .success := by
  rw [read, if_pos hok]

theorem groupDescriptorTransfer_bdev (g : BitVec 32) (d : GroupDescriptor) :
    (groupDescriptorTransfer sb bdev g d .read).2.2 = bdev.tick := by
  unfold groupDescriptorTransfer
  dsimp only
  generalize (if sb.blockSize > 2048#32 then sb.blockSize else 2048#32) = gdt
  split
  · exact Bdev.read_bdev _ _ _
  · exact Bdev.read_bdev _ _ _

/-- An allocation adds to what has been written. -/
theorem allocExt2Obj_bdev (sb : Superblock) (bdev : Bdev) (g : BitVec 32) :
    (allocExt2Obj sb bdev g false).2.result = bdev.result ∧
      bdev.written.length ≤ (allocExt2Obj sb bdev g false).2.written.length := by
  have hwrite : ∀ (b : Bdev) (lba : BitVec 32) (buf : Bytes),
      (b.write .bitmap lba sb.blockSectors buf).2.result = b.result ∧
        b.written.length ≤ (b.write .bitmap lba sb.blockSectors buf).2.written.length := by
    intro b lba buf
    unfold Bdev.write
    split
    · exact ⟨rfl, Nat.le_succ _⟩
    · exact ⟨rfl, Nat.le_refl _⟩
  unfold allocExt2Obj
  simp only [groupDescriptorTransfer_bdev, Bdev.read_bdev, Bool.false_eq_true, false_and, if_false,
    not_false_eq_true, true_and]
  split
  · exact ⟨rfl, Nat.le_refl _⟩
  split
  · exact ⟨rfl, Nat.le_refl _⟩
  split
  · exact ⟨rfl, Nat.le_refl _⟩
  split
  · exact ⟨rfl, Nat.le_refl _⟩
  split
  · exact ⟨rfl, Nat.le_refl _⟩
  · split
    · exact hwrite bdev.tick.tick.tick _ _
    · exact hwrite bdev.tick.tick.tick _ _

/-- Without errors, an inode that is written back is a write to the device. -/
theorem inodeTransfer_recorded (b : Bdev) (hok : ∀ k, b.result k = .success)
    {err : DriveRes} {inode' : Inode}
    {b' : Bdev} (h : inodeTransfer sb b i inode .write = some (err, inode', b')) :
    b.written.length < b'.written.length := by
  unfold inodeTransfer at h
  simp only [groupDescriptorTransfer_bdev, Bdev.read_bdev] at h
  split at h
  next => cases h
  next =>
    have hd : (groupDescriptorTransfer sb b ((i - 1#32) / sb.inodesPerGroup) fresh .read).1 =
        .success := by
      unfold groupDescriptorTransfer
      generalize (if sb.blockSize > 2048#32 then sb.blockSize else 2048#32) = gdt
      simp only [Bdev.read_fresh (hok _), ne_eq, not_true_eq_false, if_false]
    have hnext : b.tick.next = .success := hok _
    have hnext' : b.tick.tick.next = .success := hok _
    simp only [hd, Bdev.read_err hnext, Bdev.write_ok hnext', ne_eq, not_true_eq_false,
      if_false] at h
    split at h
    next => cases h
    next =>
      obtain ⟨-, -, rfl⟩ : _ ∧ inode = inode' ∧ _ = b' := by simpa using h
      exact Nat.lt_succ_self _

/-- The end of a read that does not write the inode back. -/
theorem transferBlock_read (b : Bdev) (lba : BitVec 32) :
    transferBlock sb b i inode lba false data .read =
      some ⟨(b.read lba sb.blockSectors data).1, inode, (b.read lba sb.blockSectors data).2.1,
        b.tick⟩ := by
  unfold transferBlock
  simp only [Bdev.read_bdev, Bool.false_eq_true, if_false]
  split <;> rfl

/-- A read of a block that is present. -/
theorem inodeDataTransfer_present (bdev : Bdev) (i : BitVec 32) (data : Bytes)
    (h : sb.Present bdev.disk inode idx) :
    ∃ r t, inodeDataTransfer sb bdev i inode idx data .read = some r ∧ r.inode = inode ∧
      r.bdev = { bdev with transfers := t } ∧
      (sb.InIndirect idx ∧ inode.indirectBlockSingle = 0#32 → r.err ≠ .success) ∧
      ((∀ k, bdev.result k = .success) →
        ¬ (sb.InIndirect idx ∧ inode.indirectBlockSingle = 0#32) → r.err = .success) := by
  have hread : ∀ (b : Bdev) (lba : BitVec 32), b.result = bdev.result →
      (∀ k, bdev.result k = .success) → (b.read lba sb.blockSectors data).1 = .success :=
    fun b lba hb hok => Bdev.read_err (by rw [Bdev.next, hb]; exact hok _) _ _ _
  unfold inodeDataTransfer
  split
  next hdirect =>
    have hrange : ¬ sb.InIndirect idx := fun hin => BitVec.not_lt.mpr hin.1 hdirect
    rw [if_neg (h.1 hdirect), transferBlock_read]
    exact ⟨_, _, rfl, rfl, rfl, fun hin => absurd hin.1 hrange, fun hok _ => hread _ _ rfl hok⟩
  next hdirect =>
    have hle : 12#32 ≤ idx := by
      rw [BitVec.le_def]
      rw [BitVec.lt_def] at hdirect
      omega
    split
    next hlt =>
      have hrange : sb.InIndirect idx := ⟨hle, hlt⟩
      split
      next hnone =>
        refine ⟨_, bdev.transfers, rfl, rfl, rfl, fun _ => ?_, fun _ hnot => ?_⟩
        · exact DriveRes.noConfusion
        · exact absurd ⟨hrange, hnone⟩ hnot
      next hsome =>
        unfold transferIndirect
        by_cases hnext : bdev.next = .success
        · have hentry := h.2 hrange hsome
          rw [Superblock.indirectEntry] at hentry
          simp only [Bdev.read_fresh hnext, ne_eq, not_true_eq_false, if_false, if_neg hentry]
          rw [transferBlock_read]
          exact ⟨_, _, rfl, rfl, rfl, fun hin => absurd hin.2 hsome,
            fun hok _ => hread bdev.tick _ rfl hok⟩
        · simp only [Bdev.read_failed hnext, ne_eq, hnext, not_false_eq_true, if_true]
          exact ⟨_, _, rfl, rfl, rfl, fun hin => absurd hin.2 hsome,
            fun hok _ => absurd (hok _) hnext⟩
    next hlt =>
      rw [transferBlock_read]
      exact ⟨_, _, rfl, rfl, rfl, fun hin => absurd hin.1.2 hlt, fun hok _ => hread _ _ rfl hok⟩

/-- The end of a read that writes the inode back is a write. -/
theorem transferBlock_recorded (hok : ∀ k, b.result k = .success) {lba : BitVec 32}
    {r : Transferred} (h : transferBlock sb b i inode lba true data .read = some r) :
    b.written.length < r.bdev.written.length := by
  unfold transferBlock at h
  simp only [Bdev.read_err (hok _), Bdev.read_bdev, ne_eq, not_true_eq_false, if_false, if_true,
    Option.map_eq_some_iff] at h
  obtain ⟨⟨err, inode', b'⟩, hrun, rfl⟩ := h
  exact inodeTransfer_recorded b.tick hok hrun

/-- Without errors, a read of a hole writes, unless it faults. -/
theorem inodeDataTransfer_hole (bdev : Bdev) (hok : ∀ k, bdev.result k = .success)
    (h : ¬ sb.Present bdev.disk inode idx) {r : Transferred}
    (hrun : inodeDataTransfer sb bdev i inode idx data .read = some r) :
    bdev.written.length < r.bdev.written.length := by
  have halloc : ∀ b : Bdev, b.result = bdev.result →
      (∀ k, (allocExt2Obj sb b (inode.groupId.setWidth 32) false).2.result k = .success) ∧
        b.written.length ≤
          (allocExt2Obj sb b (inode.groupId.setWidth 32) false).2.written.length := by
    intro b hb
    obtain ⟨hres, hlen⟩ := allocExt2Obj_bdev sb b (inode.groupId.setWidth 32)
    exact ⟨fun k => by rw [hres, hb]; exact hok k, hlen⟩
  unfold inodeDataTransfer at hrun
  split at hrun
  next hdirect =>
    have hrange : ¬ sb.InIndirect idx := fun hin => BitVec.not_lt.mpr hin.1 hdirect
    have hzero : inode.directBlock idx.toNat = 0#32 := by
      by_contra hne
      exact h ⟨fun _ => hne, fun hin => absurd hin hrange⟩
    rw [if_pos hzero] at hrun
    obtain ⟨hok', hlen⟩ := halloc bdev rfl
    exact Nat.lt_of_le_of_lt hlen (transferBlock_recorded hok' hrun)
  next hdirect =>
    split at hrun
    next hlt =>
      have hentry : inode.indirectBlockSingle ≠ 0#32 ∧
          sb.blockLba (sb.indirectEntry bdev.disk inode idx) = 0#32 := by
        by_contra hne
        exact h ⟨fun hin => absurd hin hdirect, fun _ hind hlba => hne ⟨hind, hlba⟩⟩
      rw [if_neg hentry.1] at hrun
      have hlba := hentry.2
      rw [Superblock.indirectEntry] at hlba
      unfold transferIndirect at hrun
      simp only [Bdev.read_fresh (hok bdev.transfers), ne_eq, not_true_eq_false, if_false,
        if_pos hlba] at hrun
      obtain ⟨hok', hlen⟩ := halloc bdev.tick rfl
      rw [Bdev.write_ok (hok' _), transferBlock_read] at hrun
      obtain rfl := Option.some.inj hrun
      exact Nat.lt_succ_of_le hlen
    next hlt =>
      exact absurd ⟨fun hin => absurd hin hdirect, fun hin => absurd hin.2 hlt⟩ h

/-- A block is read without a write exactly if it is present. -/
theorem inodeDataTransfer_read_iff :
    ReadsBlockOnly sb bdev i inode idx data ↔ sb.Present bdev.disk inode idx := by
  constructor
  · intro hread
    by_contra hhole
    obtain ⟨r, hrun, hwritten, -⟩ := hread fun _ => .success
    have := inodeDataTransfer_hole { bdev with result := fun _ => .success } (fun _ => rfl) hhole
      hrun
    rw [hwritten] at this
    exact Nat.lt_irrefl _ this
  · intro hpresent result
    obtain ⟨r, t, hrun, hinode, hbdev, -⟩ :=
      inodeDataTransfer_present { bdev with result } i data hpresent
    refine ⟨r, hrun, ?_, ?_, hinode⟩
    · rw [hbdev]
    · rw [hbdev]

end Block

/-! ## A file -/

section File

variable {sb : Superblock} {bdev : Bdev} {i offset len : BitVec 32} {inode : Inode} {data : Bytes}

/-- What a read of present blocks leaves after `n` rounds: unless an error or the end of the read
    came first, it is in round `n`. -/
theorem Transfer.rounds_present (bdev : Bdev) (i : BitVec 32) (data : Bytes) (n : Nat)
    (h : ∀ k < n, Visits sb inode offset len k →
      sb.Present bdev.disk inode (Cursor.round sb offset (offset + len) k).block) :
    ∃ t, (start sb bdev inode offset data).rounds sb i offset len .read n = some t ∧
      t.inode = inode ∧ (∃ k, t.bdev = { bdev with transfers := k }) ∧
      (t.done = false →
        t.cursor = .round sb offset (offset + len) n ∧ Visits sb inode offset len n) ∧
      ((∀ k, bdev.result k = .success) → Visits sb inode offset len n → t.done = false) := by
  induction n with
  | zero =>
      refine ⟨_, rfl, rfl, ⟨bdev.transfers, rfl⟩, fun _ => ⟨rfl, ?_⟩, fun _ _ => rfl⟩
      intro j hj
      exact absurd hj (Nat.not_lt_zero j)
  | succ n ih =>
      obtain ⟨t, ht, hinode, ⟨k, hbdev⟩, hat, hgo⟩ := ih fun k hk => h k (Nat.lt_succ_of_lt hk)
      rw [rounds_succ, ht, Option.bind_some]
      by_cases hdone : t.done = true
      · refine ⟨t, if_pos hdone, hinode, ⟨k, hbdev⟩, fun hnot => ?_, fun hok hvisits => ?_⟩
        · rw [hdone] at hnot
          cases hnot
        · exact absurd (hgo hok fun j hj => hvisits j (Nat.lt_succ_of_lt hj)) (by simp [hdone])
      · rw [if_neg hdone]
        obtain ⟨hcursor, hvisits⟩ := hat (by simpa using hdone)
        have hpresent : sb.Present t.bdev.disk t.inode t.cursor.block := by
          rw [hbdev, hinode, hcursor]
          exact h n (Nat.lt_succ_self n) hvisits
        obtain ⟨r, k', hrun, hrinode, hrbdev, hfail, hsucc⟩ :=
          inodeDataTransfer_present t.bdev i fresh hpresent
        rw [hinode, hcursor] at hfail hsucc
        have hsame : r.bdev = { bdev with transfers := k' } := by rw [hrbdev, hbdev]
        rw [Transfer.round_read offset len hrun]
        split
        next herr =>
          refine ⟨_, rfl, hrinode.trans hinode, ⟨k', hsame⟩, fun hnot => ?_, fun hok hvisits' => ?_⟩
          · cases hnot
          · refine absurd (hsucc ?_ (hvisits' n (Nat.lt_succ_self n)).2) herr
            rw [hbdev]
            exact hok
        next herr =>
          have hone : Continues sb inode offset len (.round sb offset (offset + len) n) ↔
              ¬ t.cursor.bytesWritten + t.cursor.cnt sb (offset + len) = len := by
            rw [hcursor]
            exact ⟨fun hc => hc.1, fun hne => ⟨hne, fun hin => herr (hfail hin)⟩⟩
          refine ⟨_, rfl, hrinode.trans hinode, ⟨k', hsame⟩, fun hmore => ⟨?_, ?_⟩,
            fun _ hvisits' => ?_⟩
          · rw [hcursor]
            rfl
          · intro j hj
            rcases Nat.lt_succ_iff_lt_or_eq.mp hj with hlt | rfl
            · exact hvisits j hlt
            · exact hone.mpr (of_decide_eq_false hmore)
          · exact decide_eq_false (hone.mp (hvisits' n (Nat.lt_succ_self n)))

/-- A file is read without a write exactly if the read gets to no hole. -/
theorem ext2Transfer_read_iff :
    ReadsFileOnly sb bdev i inode offset len data ↔
      ∀ k, Visits sb inode offset (clampedLen inode offset len) k →
        sb.Present bdev.disk inode
          (Cursor.round sb offset (offset + clampedLen inode offset len) k).block := by
  unfold ReadsFileOnly
  generalize clampedLen inode offset len = len
  constructor
  · intro hread k
    -- the rounds before round `k` met no hole, so an error-free read gets there
    induction k using Nat.strongRecOn with
    | ind k ih =>
        intro hvisits
        by_contra hhole
        obtain ⟨t, ht, hinode, ⟨m, hbdev⟩, hat, hgo⟩ :=
          Transfer.rounds_present { bdev with result := fun _ => .success } i data k ih
        have hdone := hgo (fun _ => rfl) hvisits
        have hcursor := (hat hdone).1
        obtain ⟨u, hu, hwritten, -⟩ := hread (fun _ => .success) (k + 1)
        rw [Transfer.rounds_succ, ht, Option.bind_some, if_neg (by simp [hdone])] at hu
        obtain ⟨v, hround, hfinish⟩ := Option.bind_eq_some_iff.mp hu
        obtain rfl : v = u := by simpa [Transfer.finish] using hfinish
        obtain ⟨r, hrun, hrest⟩ := Option.bind_eq_some_iff.mp hround
        have hbdev' : v.bdev = r.bdev := by
          split at hrest
          · rw [← Option.some.inj hrest]
          · rw [← Option.some.inj hrest]
        have hlonger := inodeDataTransfer_hole t.bdev (by rw [hbdev]; intro _; rfl)
          (by rw [hbdev, hinode, hcursor]; exact hhole) hrun
        rw [← hbdev', hwritten, hbdev] at hlonger
        exact Nat.lt_irrefl _ hlonger
  · intro hpresent result n
    obtain ⟨t, ht, hinode, ⟨m, hbdev⟩, -⟩ :=
      Transfer.rounds_present { bdev with result } i data n fun k _ => hpresent k
    refine ⟨t, ?_, ?_, ?_, hinode⟩
    · rw [ht, Option.bind_some]
      simp [Transfer.finish]
    · rw [hbdev]
    · rw [hbdev]

/-- Reading leaves the disk and the inode alone exactly if it meets no hole. A block size of 0 is
    not looked at: `ext2_transfer` divides by it before its first transfer. -/
theorem reads_only_iff (sb : Superblock) (bdev : Bdev) (i : BitVec 32) (inode : Inode)
    (data : Bytes) :
    (∀ idx, ReadsBlockOnly sb bdev i inode idx data ↔ sb.Present bdev.disk inode idx) ∧
      (sb.blockSize ≠ 0#32 → ∀ offset len, ReadsFileOnly sb bdev i inode offset len data ↔
        ∀ k, Visits sb inode offset (clampedLen inode offset len) k →
          sb.Present bdev.disk inode
            (Cursor.round sb offset (offset + clampedLen inode offset len) k).block) :=
  ⟨fun _ => inodeDataTransfer_read_iff, fun _ _ _ => ext2Transfer_read_iff⟩

/-- A file of 2054 bytes in the blocks 5 and 6 of the small image. -/
def twoBlocksInode : Inode := fun a =>
  match a with
  | 4 => 6#8
  | 5 => 8#8
  | 40 => 5#8
  | 44 => 6#8
  | _ => 0#8

/-- A read of 100 bytes from byte 2040 on gets to both blocks, and is cut off at the end of the
    file. -/
theorem reads_only_iff_twoBlocks :
    ReadsFileOnly smallSuperblock smallBdev 1#32 twoBlocksInode 2040#32 100#32 fresh := by
  refine ((reads_only_iff smallSuperblock smallBdev 1#32 twoBlocksInode fresh).2 (by decide)
    2040#32 100#32).mpr fun k hvisits => ?_
  have hfirst : (Cursor.round smallSuperblock 2040#32
      (2040#32 + clampedLen twoBlocksInode 2040#32 100#32) 0).block = 0#32 := by decide +kernel
  have hsecond : (Cursor.round smallSuperblock 2040#32
      (2040#32 + clampedLen twoBlocksInode 2040#32 100#32) 1).block = 1#32 := by decide +kernel
  have hindirect : ∀ idx : BitVec 32, idx < 12#32 → ¬ smallSuperblock.InIndirect idx :=
    fun idx hlt hin => absurd hlt (BitVec.not_lt.mpr hin.1)
  match k with
  | 0 =>
      rw [hfirst]
      exact ⟨fun _ => by decide, fun hin => absurd hin (hindirect _ (by decide))⟩
  | 1 =>
      rw [hsecond]
      exact ⟨fun _ => by decide, fun hin => absurd hin (hindirect _ (by decide))⟩
  | k + 2 =>
      -- the second round is the last
      have hlast := (hvisits 1 (by omega)).1
      exact absurd (by decide +kernel) hlast

/-- Reading the first byte of an empty file of the small image allocates a block for it. -/
theorem empty_file_read_writes :
    ¬ ∀ (sb : Superblock) (bdev : Bdev) (i : BitVec 32) (inode : Inode) (data : Bytes),
      Consistent sb bdev.disk → HasFile sb bdev.disk i inode →
      (∀ idx, ReadsBlockOnly sb bdev i inode idx data) ∧
        ∀ offset len, ReadsFileOnly sb bdev i inode offset len data := by
  intro h
  have hread := (h smallSuperblock smallBdev 1#32 emptyInode fresh small_consistent
    small_hasFile).2 0#32 1#32
  have hpresent := ext2Transfer_read_iff.mp hread 0 fun j hj => absurd hj (Nat.not_lt_zero j)
  exact hpresent.1 (by decide) (by decide)

end File

end Muse.Ext2
