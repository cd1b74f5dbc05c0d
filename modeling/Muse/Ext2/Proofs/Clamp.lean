import Muse.Ext2.Proofs.FileArray
import Muse.Ext2.Proofs.ReadBack

/-!
# Reads at the end of a file

Which reads `ext2_transfer` cuts off at the end of the file as it should. The sums of the loop are
32-bit words, and in every round the position of the transfer is `skip` bytes behind the start of
its block, modulo 2^32 (`Cursor.Steady`). From this alone: on a working device the loop ends by the
number of bytes or at a block that has no indirect block, and in the first case at a block whose end
is not before the end of the transfer. So reads that go around 2^32, that start behind the end of
the file or that need the last block of the 32-bit offsets are not cut off.
-/

namespace Muse.Ext2

open Muse.Library

variable {sb : Superblock} {bdev b : Bdev} {i idx offset len : BitVec 32} {inode x : Inode}
  {data : Bytes} {disk : Bytes}

/-! ## The property -/

/-- Every block of the file that the inode can map is allocated. -/
def FileAllocated (sb : Superblock) (disk : Bytes) (inode : Inode) : Prop :=
  ∀ k < 12 + sb.entriesPerBlock, k * sb.blockBytes < inode.sizeLo.toNat →
    sb.mapped disk inode k ≠ 0#32

/-- A read ends, copies only into the first `len` bytes of the buffer, and on a working device
    returns the bytes of the file from `offset` on, `len` at most. -/
def ReadsClamped (sb : Superblock) (disk : Bytes) (inode : Inode) (offset len : BitVec 32) : Prop :=
  ∀ (bdev : Bdev) (i : BitVec 32) (data : Bytes), bdev.disk = disk →
    ∃ n v t, ext2Transfer n sb bdev i inode offset len data .read = some (v, t) ∧
      (∀ k, len.toNat ≤ k → t.data k = data k) ∧
      ((∀ n, bdev.result n = .success) → v.toNat =
        if offset.toNat < inode.sizeLo.toNat then
          min len.toNat (inode.sizeLo.toNat - offset.toNat)
        else 0)

/-- The read starts in a direct block that is not there, which it fills. -/
def FillsHole (sb : Superblock) (inode : Inode) (offset : BitVec 32) : Prop :=
  offset / sb.blockSize < 12#32 ∧ inode.directBlock (offset / sb.blockSize).toNat = 0#32

/-- Writing an inode does not fault. -/
def InodeWritable (sb : Superblock) : Prop :=
  sb.inodesPerGroup ≠ 0#32 ∧ ¬ (sb.inodeBytes = 0#32 ∨ 512#32 / sb.inodeBytes = 0#32)

/-- The read starts in a block that the singly indirect block would map, and there is none. -/
def NoIndirect (sb : Superblock) (inode : Inode) (offset : BitVec 32) : Prop :=
  sb.InIndirect (offset / sb.blockSize) ∧ inode.indirectBlockSingle = 0#32

/-- The read starts in the file or at its end, it does not go around 2^32, and it does not need the
    block that ends there. -/
structure ClampedRange (sb : Superblock) (inode : Inode) (offset len : BitVec 32) : Prop where
  le : offset.toNat ≤ inode.sizeLo.toNat
  noWrap : offset.toNat + len.toNat < 2 ^ 32
  first : offset.toNat + sb.blockBytes < 2 ^ 32
  last : min (offset.toNat + len.toNat) inode.sizeLo.toNat + sb.blockBytes ≤ 2 ^ 32
  hole : FillsHole sb inode offset → InodeWritable sb

/-! ## One block -/

/-- Without errors, an inode is written, unless the processor faults. -/
theorem inodeTransfer_ok (hok : ∀ k, b.result k = .success) {r : DriveRes × Inode × Bdev}
    (h : inodeTransfer sb b i x .write = some r) :
    r.1 = .success ∧ r.2.1 = x ∧ r.2.2.result = b.result := by
  have hnext : b.tick.next = .success := hok _
  have hnext' : b.tick.tick.next = .success := hok _
  unfold inodeTransfer at h
  simp only [descriptorTransfer_eq sb (hok b.transfers), ne_eq, not_true_eq_false, if_false,
    Bdev.read_fresh hnext, Bdev.write_ok hnext'] at h
  split at h
  · cases h
  split at h
  · cases h
  · obtain rfl := Option.some.inj h
    exact ⟨rfl, rfl, rfl⟩

theorem inodeTransfer_fault (hok : ∀ k, b.result k = .success) (h : ¬ InodeWritable sb)
    (dir : DataDir) : inodeTransfer sb b i x dir = none := by
  have hnext : b.tick.next = .success := hok _
  unfold inodeTransfer
  simp only [descriptorTransfer_eq sb (hok b.transfers), ne_eq, not_true_eq_false, if_false,
    Bdev.read_fresh hnext]
  split
  · rfl
  next hne =>
    split
    · rfl
    next hsize => exact absurd ⟨hne, hsize⟩ h

theorem inodeTransfer_some (h : InodeWritable sb) (dir : DataDir) :
    ∃ r, inodeTransfer sb b i x dir = some r := by
  unfold inodeTransfer
  rw [if_neg h.1]
  dsimp only
  split
  · exact ⟨_, rfl⟩
  split
  · exact ⟨_, rfl⟩
  rw [if_neg h.2]
  cases dir with
  | read => exact ⟨_, rfl⟩
  | write => exact ⟨_, rfl⟩

/-- Without errors, the end of a read gives no error. -/
theorem transferBlock_ok (hok : ∀ k, b.result k = .success) {lba : BitVec 32} {writeInode : Bool}
    {r : Transferred} (h : transferBlock sb b i x lba writeInode data .read = some r) :
    r.err = .success ∧ r.inode = x ∧ r.bdev.result = b.result := by
  unfold transferBlock at h
  simp only [Bdev.read_err (hok _), Bdev.read_bdev, ne_eq, not_true_eq_false, if_false] at h
  split at h
  · obtain ⟨⟨err, x', b'⟩, hrun, rfl⟩ := Option.map_eq_some_iff.mp h
    exact inodeTransfer_ok (b := b.tick) hok hrun
  · obtain rfl := Option.some.inj h
    exact ⟨rfl, rfl, rfl⟩

theorem Bdev.write_result (source : Source) (lba count : BitVec 32) (buf : Bytes) :
    (bdev.write source lba count buf).2.result = bdev.result := by
  unfold Bdev.write
  split <;> rfl

/-- Without errors, a block is read unless it would be mapped by an indirect block that is not
    there. -/
theorem inodeDataTransfer_ok (hok : ∀ k, bdev.result k = .success) {r : Transferred}
    (h : inodeDataTransfer sb bdev i inode idx data .read = some r) :
    r.bdev.result = bdev.result ∧ r.inode.indirectBlockSingle = inode.indirectBlockSingle ∧
      (r.err = .success ∨ sb.InIndirect idx ∧ inode.indirectBlockSingle = 0#32) := by
  have halloc : ∀ b : Bdev, b.result = bdev.result →
      (allocExt2Obj sb b (inode.groupId.setWidth 32) false).2.result = bdev.result :=
    fun b hb => by rw [(allocExt2Obj_bdev sb b _).1, hb]
  unfold inodeDataTransfer at h
  split at h
  next hdirect =>
    split at h
    · have hres := halloc bdev rfl
      have hok' : ∀ k, (allocExt2Obj sb bdev (inode.groupId.setWidth 32) false).2.result k =
          .success := by
        intro k
        rw [hres]
        exact hok k
      obtain ⟨herr, hinode, hresult⟩ := transferBlock_ok hok' h
      refine ⟨by rw [hresult, hres], ?_, .inl herr⟩
      rw [hinode]
      rw [BitVec.lt_def] at hdirect
      have hidx : idx.toNat < 12 := hdirect
      exact Bytes.word32_setWord32_of_apart _ (by omega)
    · obtain ⟨herr, hinode, hresult⟩ := transferBlock_ok hok h
      exact ⟨hresult, by rw [hinode], .inl herr⟩
  next hdirect =>
    split at h
    next hlt =>
      split at h
      next hnone =>
        simp only [if_true] at h
        obtain rfl := Option.some.inj h
        exact ⟨rfl, rfl, .inr ⟨⟨BitVec.not_lt.mp hdirect, hlt⟩, hnone⟩⟩
      next hsome =>
        unfold transferIndirect at h
        simp only [Bdev.read_fresh (hok bdev.transfers), ne_eq, not_true_eq_false, if_false] at h
        split at h
        · have hres := halloc bdev.tick rfl
          have hok' : ∀ (lba count : BitVec 32) (buf : Bytes) (k : Nat),
              ((allocExt2Obj sb bdev.tick (inode.groupId.setWidth 32) false).2.write .indirectBlock
                lba count buf).2.result k = .success := by
            intro lba count buf k
            rw [Bdev.write_result, hres]
            exact hok k
          obtain ⟨herr, hinode, hresult⟩ := transferBlock_ok (hok' _ _ _) h
          exact ⟨by rw [hresult, Bdev.write_result, hres], by rw [hinode], .inl herr⟩
        · obtain ⟨herr, hinode, hresult⟩ := transferBlock_ok (b := bdev.tick) hok h
          exact ⟨hresult, by rw [hinode], .inl herr⟩
    next hlt =>
      obtain ⟨herr, hinode, hresult⟩ := transferBlock_ok hok h
      exact ⟨hresult, by rw [hinode], .inl herr⟩

/-- A block other than a direct one that is not there is read without a fault, whichever transfers
    fail, and the inode stays as it is. -/
theorem inodeDataTransfer_some (sb : Superblock) (inode : Inode) (bdev : Bdev) (i : BitVec 32)
    (data : Bytes)
    (h : idx < 12#32 → inode.directBlock idx.toNat ≠ 0#32) :
    ∃ r, inodeDataTransfer sb bdev i inode idx data .read = some r ∧ r.inode = inode ∧
      r.bdev.result = bdev.result := by
  unfold inodeDataTransfer
  split
  next hdirect =>
    rw [if_neg (h hdirect), transferBlock_read]
    exact ⟨_, rfl, rfl, rfl⟩
  next =>
    split
    · split
      · exact ⟨_, rfl, rfl, rfl⟩
      · unfold transferIndirect
        by_cases hnext : bdev.next = .success
        · simp only [Bdev.read_fresh hnext, ne_eq, not_true_eq_false, if_false]
          split
          · rw [transferBlock_read]
            refine ⟨_, rfl, rfl, ?_⟩
            rw [Bdev.tick_result, Bdev.write_result, (allocExt2Obj_bdev sb bdev.tick _).1,
              Bdev.tick_result]
          · rw [transferBlock_read]
            exact ⟨_, rfl, rfl, rfl⟩
        · simp only [Bdev.read_failed hnext, ne_eq, hnext, not_false_eq_true, if_true]
          exact ⟨_, rfl, rfl, rfl⟩
    · rw [transferBlock_read]
      exact ⟨_, rfl, rfl, rfl⟩

/-- A direct block that is not there is filled, and the inode is written. -/
theorem inodeDataTransfer_fill (bdev : Bdev) (i : BitVec 32) (data : Bytes)
    (hidx : idx < 12#32) (hzero : inode.directBlock idx.toNat = 0#32) (hw : InodeWritable sb) :
    ∃ r, inodeDataTransfer sb bdev i inode idx data .read = some r := by
  unfold inodeDataTransfer transferBlock
  rw [if_pos hidx, if_pos hzero]
  dsimp only
  split
  · exact ⟨_, rfl⟩
  · rw [if_pos rfl]
    obtain ⟨r, hr⟩ := inodeTransfer_some (b := ((allocExt2Obj sb bdev
      (inode.groupId.setWidth 32) false).2.read (sb.blockLba ((inode.setDirectBlock idx.toNat
        (allocExt2Obj sb bdev (inode.groupId.setWidth 32) false).1).directBlock idx.toNat))
          sb.blockSectors data).2.2) (i := i) (x := inode.setDirectBlock idx.toNat
        (allocExt2Obj sb bdev (inode.groupId.setWidth 32) false).1) hw .write
    rw [hr]
    exact ⟨_, rfl⟩

/-- If the inode cannot be written, filling a direct block faults on a working device. -/
theorem inodeDataTransfer_fault (bdev : Bdev) (hok : ∀ k, bdev.result k = .success) (i : BitVec 32)
    (data : Bytes)
    (hidx : idx < 12#32) (hzero : inode.directBlock idx.toNat = 0#32) (hw : ¬ InodeWritable sb) :
    inodeDataTransfer sb bdev i inode idx data .read = none := by
  have hok' : ∀ k, (allocExt2Obj sb bdev (inode.groupId.setWidth 32) false).2.result k =
      .success := by
    intro k
    rw [(allocExt2Obj_bdev sb bdev _).1]
    exact hok k
  unfold inodeDataTransfer transferBlock
  rw [if_pos hidx, if_pos hzero]
  simp only [Bdev.read_err (hok' _), Bdev.read_bdev, ne_eq, not_true_eq_false, if_false, if_true]
  rw [inodeTransfer_fault (b := (allocExt2Obj sb bdev (inode.groupId.setWidth 32) false).2.tick)
    hok' hw]
  rfl

/-! ## Blocks of the file -/

namespace FileAllocated

variable (hall : FileAllocated sb disk inode)

include hall

theorem direct_ne (h : idx < 12#32) (hin : idx.toNat * sb.blockBytes < inode.sizeLo.toNat) :
    inode.directBlock idx.toNat ≠ 0#32 := by
  have hlt : idx.toNat < 12 := (idx_direct_iff idx).mp h
  have hne := hall idx.toNat (by omega) hin
  rwa [Superblock.mapped, if_pos hlt] at hne

theorem indirect_ne {k : Nat} (hlo : 12 ≤ k) (hhi : k < 12 + sb.entriesPerBlock)
    (hin : k * sb.blockBytes < inode.sizeLo.toNat) : inode.indirectBlockSingle ≠ 0#32 := by
  intro h0
  have hne := hall k hhi hin
  rw [Superblock.mapped, if_neg (by omega), if_pos h0] at hne
  exact hne rfl

end FileAllocated

theorem Superblock.inIndirect_iff (hlog : sb.blockSizeLog.toNat ≤ 6) (idx : BitVec 32) :
    sb.InIndirect idx ↔ 12 ≤ idx.toNat ∧ idx.toNat < 12 + sb.entriesPerBlock := by
  rw [Superblock.InIndirect, Superblock.idx_indirect_iff hlog, BitVec.le_def]
  exact Iff.rfl

/-! ## Reads that are cut off -/

/-- A read returns the bytes of its last round. -/
theorem ext2Transfer_read_eq_some {n : Nat} {v : BitVec 32} {t : Transfer} :
    ext2Transfer n sb bdev i inode offset len data .read = some (v, t) ↔
      (Transfer.start sb bdev inode offset data).rounds sb i offset
        (clampedLen inode offset len) .read n = some t ∧
      t.done = true ∧ v = t.cursor.bytesWritten := by
  rw [ext2Transfer]
  simp only [Transfer.finish, reduceCtorEq, false_and, if_false, Option.bind_eq_bind,
    Option.bind_some, Option.bind_eq_some_iff]
  constructor
  · rintro ⟨u, hrounds, hrest⟩
    split at hrest
    next hdone =>
      obtain ⟨rfl, rfl⟩ := Prod.mk.inj (Option.some.inj hrest)
      exact ⟨hrounds, hdone, rfl⟩
    next => cases hrest
  · rintro ⟨hrounds, hdone, rfl⟩
    exact ⟨t, hrounds, if_pos hdone⟩

/-- The first block is transferred, but no byte of it is copied. -/
theorem ext2Transfer_nothing (data : Bytes) {r : Transferred}
    (hrun : inodeDataTransfer sb bdev i inode (offset / sb.blockSize) fresh .read = some r)
    (h : r.err ≠ .success ∨ clampedLen inode offset len = 0#32 ∧
      (Cursor.start sb offset).cnt sb (offset + clampedLen inode offset len) = 0#32) :
    ∃ t, ext2Transfer 1 sb bdev i inode offset len data .read = some (0#32, t) ∧ t.data = data := by
  simp only [ext2Transfer_read_eq_some]
  generalize clampedLen inode offset len = len' at h
  have hround := Transfer.round_read (t := .start sb bdev inode offset data) offset len' hrun
  by_cases herr : r.err ≠ .success
  · rw [if_pos herr] at hround
    exact ⟨_, ⟨Transfer.rounds_of_round 0 rfl hround, rfl, rfl⟩, rfl⟩
  · obtain ⟨rfl, hcnt⟩ := h.resolve_left herr
    rw [if_neg herr] at hround
    have hsum : 0#32 + (Cursor.start sb offset).cnt sb (offset + 0#32) = 0#32 := by rw [hcnt]; rfl
    refine ⟨_, ⟨Transfer.rounds_of_round 0 rfl hround, decide_eq_true hsum, hsum.symm⟩,
      funext fun a => ?_⟩
    dsimp only
    refine Bytes.splice_of_not_mem (.inr ?_)
    rw [show (Transfer.start sb bdev inode offset data).cursor = .start sb offset from rfl, hcnt]
    exact Nat.zero_le a

/-- If the processor faults in the first round, the read does not return. -/
theorem ext2Transfer_fault
    (h : inodeDataTransfer sb bdev i inode (offset / sb.blockSize) fresh .read = none) (n : Nat) :
    ext2Transfer n sb bdev i inode offset len data .read = none := by
  refine Option.eq_none_iff_forall_ne_some.mpr fun ⟨v, t⟩ hrun => ?_
  obtain ⟨hrounds, hdone, -⟩ := ext2Transfer_read_eq_some.mp hrun
  have hround : (Transfer.start sb bdev inode offset data).round sb i offset
      (clampedLen inode offset len) .read = none := by
    refine Option.bind_eq_none_iff.mpr fun r hr => ?_
    exact nomatch h.symm.trans hr
  cases n with
  | zero =>
      obtain rfl := Option.some.inj hrounds
      cases hdone
  | succ n =>
      rw [Transfer.rounds, if_neg (by exact Bool.false_ne_true), hround] at hrounds
      cases hrounds

section Clamped

variable {e k : Nat} {t : Transfer} (hlog : sb.blockSizeLog.toNat ≤ 6)
  (hall : FileAllocated sb disk inode) (hlimit : (offset + len).toNat = e)
  (hlen : len.toNat = e - offset.toNat) (hoe : offset.toNat ≤ e)

include hlog hall hlimit hlen hoe

/-- A round of a read in a block of the file. Nothing behind the first `len` bytes is copied, and
    only an error of the device ends it before the end of the read. -/
theorem Transfer.round_clamped (hinode : t.inode = inode) (hat : t.cursor.At sb offset.toNat k)
    (hk : k * sb.blockBytes < inode.sizeLo.toNat)
    (hpos : max offset.toNat (k * sb.blockBytes) ≤ e) :
    ∃ t', t.round sb i offset len .read = some t' ∧ t'.inode = inode ∧
      t'.bdev.result = t.bdev.result ∧ (∀ a, len.toNat ≤ a → t'.data a = t.data a) ∧
      ((t'.done = true ∧ ¬ ∀ k, t.bdev.result k = .success) ∨
        t'.cursor = t.cursor.next sb (offset + len) ∧
          t'.done = decide (e ≤ (k + 1) * sb.blockBytes)) := by
  subst hinode
  have hblock := hat.block
  have hcnt := hat.cnt_toNat hlog hlimit hpos
  have hbytes := hat.bytesWritten
  obtain ⟨r, hrun, hrinode, hres⟩ := inodeDataTransfer_some sb t.inode
    t.bdev i fresh fun hidx => hall.direct_ne hidx (by rw [hblock]; exact hk)
  have hround := Transfer.round_read offset len hrun
  by_cases herr : r.err ≠ .success
  · rw [if_pos herr] at hround
    refine ⟨_, hround, hrinode, hres, fun _ _ => rfl, .inl ⟨rfl, fun hok => ?_⟩⟩
    rcases (inodeDataTransfer_ok hok hrun).2.2 with hsucc | ⟨hin, hzero⟩
    · exact herr hsucc
    · rw [Superblock.inIndirect_iff hlog, hblock] at hin
      exact hall.indirect_ne hin.1 hin.2 hk hzero
  · rw [if_neg herr] at hround
    have hcopied : t.cursor.bytesWritten.toNat + (t.cursor.cnt sb (offset + len)).toNat ≤
        len.toNat := by
      rw [hbytes, hcnt]
      omega
    refine ⟨_, hround, hrinode, hres, fun a ha => ?_, .inr ⟨rfl, ?_⟩⟩
    · dsimp only
      exact Bytes.splice_of_not_mem (.inr (Nat.le_trans hcopied ha))
    · exact decide_eq_decide.mpr (hat.last_iff hlog hlimit hlen hoe hpos)

/-- The rounds of a read that does not need the last block of the 32-bit offsets. -/
theorem Transfer.rounds_clamped (he : e ≤ inode.sizeLo.toNat) (hfit : e + sb.blockBytes ≤ 2 ^ 32)
    (n : Nat) (hinode : t.inode = inode) (hat : t.cursor.At sb offset.toNat k)
    (hdone : t.done = false) (hk : k * sb.blockBytes < inode.sizeLo.toNat)
    (hpos : max offset.toNat (k * sb.blockBytes) ≤ e) (hn : e ≤ (k + n + 1) * sb.blockBytes) :
    ∃ t', t.rounds sb i offset len .read (n + 1) = some t' ∧ t'.done = true ∧
      (∀ a, len.toNat ≤ a → t'.data a = t.data a) ∧
      ((∀ k, t.bdev.result k = .success) → t'.cursor.bytesWritten = len) := by
  induction n generalizing k t with
  | zero =>
      obtain ⟨t', hround, -, -, hold, hend⟩ :=
        Transfer.round_clamped (i := i) hlog hall hlimit hlen hoe hinode hat hk hpos
      have hround := Transfer.rounds_of_round 0 hdone hround
      rcases hend with ⟨hdone', hbad⟩ | ⟨hcursor, hlast⟩
      · exact ⟨t', hround, hdone', hold, fun hok => absurd hok hbad⟩
      · refine ⟨t', hround, by rw [hlast]; exact decide_eq_true hn, hold, fun _ => ?_⟩
        rw [hcursor]
        exact (hat.last_iff hlog hlimit hlen hoe hpos).mpr hn
  | succ n ih =>
      obtain ⟨t', hround, hinode', hres, hold, hend⟩ :=
        Transfer.round_clamped (i := i) hlog hall hlimit hlen hoe hinode hat hk hpos
      rw [Transfer.rounds_of_round (n + 1) hdone hround]
      rcases hend with ⟨hdone', hbad⟩ | ⟨hcursor, hlast⟩
      · exact ⟨t', Transfer.rounds_of_done _ hdone', hdone', hold, fun hok => absurd hok hbad⟩
      by_cases hle : e ≤ (k + 1) * sb.blockBytes
      · have hdone' : t'.done = true := by rw [hlast]; exact decide_eq_true hle
        refine ⟨t', Transfer.rounds_of_done _ hdone', hdone', hold, fun _ => ?_⟩
        rw [hcursor]
        exact (hat.last_iff hlog hlimit hlen hoe hpos).mpr hle
      · have hat' := hat.next_at hlog hlimit (by omega) (by omega)
        rw [← hcursor] at hat'
        obtain ⟨u, hu, hudone, hudata, hubytes⟩ := ih hinode' hat'
          (by rw [hlast]; exact decide_eq_false hle) (by omega) (by omega)
          (by rw [show k + 1 + n + 1 = k + (n + 1) + 1 by omega]; exact hn)
        refine ⟨u, hu, hudone, fun a ha => (hudata a ha).trans (hold a ha), ?_⟩
        rw [hres] at hubytes
        exact hubytes

end Clamped

/-- A read that starts in the file or at its end and does not go around is cut off as in exact
    arithmetic. -/
theorem clampedLen_toNat (hle : offset.toNat ≤ inode.sizeLo.toNat)
    (hno : offset.toNat + len.toNat < 2 ^ 32) :
    (clampedLen inode offset len).toNat =
        min (offset.toNat + len.toNat) inode.sizeLo.toNat - offset.toNat ∧
      (offset + clampedLen inode offset len).toNat =
        min (offset.toNat + len.toNat) inode.sizeLo.toNat := by
  have hsum : (offset + len).toNat = offset.toNat + len.toNat := by
    rw [BitVec.toNat_add, Nat.mod_eq_of_lt hno]
  have hsize := inode.sizeLo.isLt
  have hlen : (clampedLen inode offset len).toNat =
      min (offset.toNat + len.toNat) inode.sizeLo.toNat - offset.toNat := by
    unfold clampedLen
    split
    next hlt =>
      rw [BitVec.lt_def, hsum] at hlt
      rw [BitVec.toNat_sub_of_le hle]
      omega
    next hlt =>
      rw [BitVec.lt_def, hsum] at hlt
      omega
  refine ⟨hlen, ?_⟩
  rw [BitVec.toNat_add, hlen]
  omega

theorem ClampedRange.reads (hlog : sb.blockSizeLog.toNat ≤ 6) (hall : FileAllocated sb disk inode)
    (h : ClampedRange sb inode offset len) : ReadsClamped sb disk inode offset len := by
  intro bdev i data _
  have hle := h.le
  have hpos := Superblock.blockBytes_pos hlog
  obtain ⟨hlen, hlimit⟩ := clampedLen_toNat h.le h.noWrap
  have hat := Cursor.start_at hlog offset h.first
  have hfloor : offset.toNat / sb.blockBytes * sb.blockBytes ≤ offset.toNat :=
    Nat.div_mul_le_self _ _
  by_cases hin : offset.toNat < inode.sizeLo.toNat
  · have hblocks : min (offset.toNat + len.toNat) inode.sizeLo.toNat ≤
        (offset.toNat / sb.blockBytes + (clampedLen inode offset len).toNat + 1) *
          sb.blockBytes := by
      have h1 := Nat.lt_div_mul_add (a := offset.toNat) hpos
      have h2 : (clampedLen inode offset len).toNat ≤
        (clampedLen inode offset len).toNat * sb.blockBytes := Nat.le_mul_of_pos_right _ hpos
      rw [Nat.add_mul, Nat.add_mul, Nat.one_mul]
      omega
    obtain ⟨t, hrounds, hdone, hold, hbytes⟩ := Transfer.rounds_clamped (i := i) hlog hall hlimit
      hlen (by omega) (by omega) h.last _ (t := .start sb bdev inode offset data) rfl hat rfl
      (by omega) (by omega) hblocks
    refine ⟨_, _, t, ext2Transfer_read_eq_some.mpr ⟨hrounds, hdone, rfl⟩,
      fun a ha => hold a (by omega), fun hok => ?_⟩
    rw [hbytes hok, hlen, if_pos hin]
    omega
  · have hzero : clampedLen inode offset len = 0#32 := BitVec.eq_of_toNat_eq (by
      rw [hlen, BitVec.toNat_ofNat]
      omega)
    have hcnt : (Cursor.start sb offset).cnt sb (offset + clampedLen inode offset len) = 0#32 := by
      refine BitVec.eq_of_toNat_eq ?_
      rw [hat.cnt_toNat hlog hlimit (by omega), BitVec.toNat_ofNat]
      omega
    have hrun : ∃ r, inodeDataTransfer sb bdev i inode (offset / sb.blockSize) fresh .read =
        some r := by
      by_cases hhole : FillsHole sb inode offset
      · exact inodeDataTransfer_fill bdev i fresh hhole.1 hhole.2 (h.hole hhole)
      · obtain ⟨r, hr, -⟩ := inodeDataTransfer_some sb inode bdev i fresh
          fun hidx hzero => hhole ⟨hidx, hzero⟩
        exact ⟨r, hr⟩
    obtain ⟨r, hr⟩ := hrun
    obtain ⟨t, ht, hdata⟩ := ext2Transfer_nothing data hr (.inr ⟨hzero, hcnt⟩)
    exact ⟨1, 0#32, t, ht, fun a _ => by rw [hdata],
      fun _ => by rw [if_neg hin, BitVec.toNat_ofNat]⟩

theorem NoIndirect.reads (h : NoIndirect sb inode offset)
    (hout : inode.sizeLo.toNat ≤ offset.toNat) : ReadsClamped sb disk inode offset len := by
  intro bdev i data _
  have hrun : inodeDataTransfer sb bdev i inode (offset / sb.blockSize) fresh .read =
      some ⟨.errBadArgs, inode, fresh, bdev⟩ := by
    rw [inodeDataTransfer, if_neg (BitVec.not_lt.mpr h.1.1), if_pos h.1.2, if_pos h.2, if_pos rfl]
  obtain ⟨t, ht, hdata⟩ := ext2Transfer_nothing data hrun (.inl fun herr => by cases herr)
  exact ⟨1, 0#32, t, ht, fun a _ => by rw [hdata],
    fun _ => by rw [if_neg (Nat.not_lt.mpr hout), BitVec.toNat_ofNat]⟩

/-! ## How a read ends -/

/-- How a read of `len` bytes ends on a working device: with `len` bytes, at a block that does not
    end before it, or in front of a block that has no indirect block. -/
def Ends (sb : Superblock) (inode : Inode) (offset len v : BitVec 32) : Prop :=
  (v = len ∧ ∃ b : BitVec 32, offset + len ≤ (b + 1#32) * sb.blockSize) ∨
    inode.indirectBlockSingle = 0#32 ∧ ∃ b, sb.InIndirect b ∧
      (v = 0#32 ∧ b = offset / sb.blockSize ∨
        v + offset = b * sb.blockSize ∧ ¬ offset + len < (Cursor.start sb offset).blockEnd)

/-- What the rounds of a read keep on a working device, whatever sums have gone around. -/
structure Reading (sb : Superblock) (inode : Inode) (offset len : BitVec 32) (t : Transfer) :
    Prop where
  ok : ∀ k, t.bdev.result k = .success
  indirect : t.inode.indirectBlockSingle = inode.indirectBlockSingle
  running : t.done = false → t.cursor.Steady sb offset ∧ (t.cursor = .start sb offset ∨
    t.cursor.skip = 0#32 ∧ ¬ offset + len < (Cursor.start sb offset).blockEnd)
  ended : t.done = true → Ends sb inode offset len t.cursor.bytesWritten

theorem Reading.round {t t' : Transfer} (h : Reading sb inode offset len t) (hdone : t.done = false)
    (hround : t.round sb i offset len .read = some t') : Reading sb inode offset len t' := by
  obtain ⟨hsteady, hat⟩ := h.running hdone
  obtain ⟨r, hrun, -⟩ := Option.bind_eq_some_iff.mp hround
  obtain ⟨hres, hind, hfail⟩ := inodeDataTransfer_ok h.ok hrun
  rw [Transfer.round_read offset len hrun] at hround
  have hok : ∀ k, r.bdev.result k = .success := by
    intro k
    rw [hres]
    exact h.ok k
  by_cases herr : r.err ≠ .success
  · rw [if_pos herr] at hround
    obtain rfl := Option.some.inj hround
    refine ⟨hok, hind.trans h.indirect, fun hmore => (nomatch hmore), fun _ => .inr ?_⟩
    obtain ⟨hin, hzero⟩ := hfail.resolve_left herr
    refine ⟨by rw [← h.indirect, hzero], t.cursor.block, hin, ?_⟩
    rcases hat with hstart | ⟨hskip, hlimit⟩
    · rw [hstart]
      exact .inl ⟨rfl, rfl⟩
    · refine .inr ⟨?_, hlimit⟩
      have hpos := hsteady.position
      rw [hsteady.blockEnd, hskip, BitVec.add_zero, BitVec.add_mul, BitVec.one_mul] at hpos
      exact add_right_cancel hpos
  · rw [if_neg herr] at hround
    obtain rfl := Option.some.inj hround
    refine ⟨hok, hind.trans h.indirect, fun hmore => ?_, fun hlast => .inl ?_⟩
    · have hge : ¬ offset + len < t.cursor.blockEnd := fun hlt =>
        of_decide_eq_false hmore (hsteady.last_of_lt hlt)
      refine ⟨hsteady.next hge, .inr ⟨rfl, ?_⟩⟩
      rcases hat with hstart | ⟨-, hlimit⟩
      · rwa [hstart] at hge
      · exact hlimit
    · have hlast := of_decide_eq_true hlast
      refine ⟨hlast, t.cursor.block, ?_⟩
      rw [← hsteady.blockEnd]
      by_cases hlt : offset + len < t.cursor.blockEnd
      · exact BitVec.le_of_lt hlt
      · rw [hsteady.limit_eq hlt hlast]
        exact BitVec.le_refl _

theorem ext2Transfer_ends {n : Nat} {v : BitVec 32} {t : Transfer}
    (hok : ∀ k, bdev.result k = .success)
    (h : ext2Transfer n sb bdev i inode offset len data .read = some (v, t)) :
    Ends sb inode offset (clampedLen inode offset len) v := by
  obtain ⟨hrounds, hdone, rfl⟩ := ext2Transfer_read_eq_some.mp h
  have hstart : Reading sb inode offset (clampedLen inode offset len)
      (.start sb bdev inode offset data) :=
    ⟨hok, rfl, fun _ => ⟨Cursor.start_steady sb offset, .inl rfl⟩, fun hdone => nomatch hdone⟩
  exact (Transfer.rounds_invariant (fun _ _ hr => hr.round) n hstart hrounds).ended hdone

/-! ## Reads that are not cut off -/

theorem InIndirect_mul_toNat (hlog : sb.blockSizeLog.toNat ≤ 6) {b : BitVec 32}
    (hin : sb.InIndirect b) : (b * sb.blockSize).toNat = b.toNat * sb.blockBytes := by
  have hmax := Superblock.file_bytes_lt hlog
  have hlt := ((Superblock.inIndirect_iff hlog b).mp hin).2
  have hle : b.toNat * sb.blockBytes ≤ (12 + sb.entriesPerBlock) * sb.blockBytes :=
    Nat.mul_le_mul_right _ (Nat.le_of_lt hlt)
  rw [BitVec.toNat_mul, Superblock.blockSize_toNat hlog, Nat.mod_eq_of_lt (by omega)]

theorem Superblock.blockBytes_dvd (hlog : sb.blockSizeLog.toNat ≤ 6) :
    sb.blockBytes ∣ 2 ^ 32 := by
  unfold blockBytes
  interval_cases sb.blockSizeLog.toNat <;> decide

/-- The end of a block is not in the last block of the 32-bit offsets, as it is 0 for this one. -/
theorem blockEnd_le (hlog : sb.blockSizeLog.toNat ≤ 6) (b : BitVec 32) :
    (b * sb.blockSize).toNat + sb.blockBytes ≤ 2 ^ 32 := by
  have hdvd := Superblock.blockBytes_dvd hlog
  have hmul : sb.blockBytes ∣ (b * sb.blockSize).toNat := by
    rw [BitVec.toNat_mul, Superblock.blockSize_toNat hlog, Nat.dvd_mod_iff hdvd]
    exact Nat.dvd_mul_left _ _
  have hlt := (b * sb.blockSize).isLt
  have := Nat.le_of_dvd (by omega) (Nat.dvd_sub hdvd hmul)
  omega

/-- A read that returns 0, but has a length, met a missing indirect block. -/
theorem Ends.noIndirect (hlog : sb.blockSizeLog.toNat ≤ 6) (h : Ends sb inode offset len 0#32)
    (hlen : len ≠ 0#32) : NoIndirect sb inode offset := by
  rcases h with ⟨rfl, -⟩ | ⟨hzero, b, hin, ⟨-, rfl⟩ | ⟨hpos, -⟩⟩
  · exact absurd rfl hlen
  · exact ⟨hin, hzero⟩
  · have hb : offset / sb.blockSize = b := by
      refine BitVec.eq_of_toNat_eq ?_
      rw [BitVec.zero_add] at hpos
      rw [BitVec.toNat_udiv, hpos, InIndirect_mul_toNat hlog hin, Superblock.blockSize_toNat hlog,
        Nat.mul_div_cancel _ (Superblock.blockBytes_pos hlog)]
    rw [NoIndirect, hb]
    exact ⟨hin, hzero⟩

section Ended

variable {v : BitVec 32} (hlog : sb.blockSizeLog.toNat ≤ 6)
  (hends : Ends sb inode offset (clampedLen inode offset len) v)
  (hv : v.toNat = if offset.toNat < inode.sizeLo.toNat then
    min len.toNat (inode.sizeLo.toNat - offset.toNat) else 0)
  (hout : ¬ (inode.sizeLo.toNat ≤ offset.toNat ∧ NoIndirect sb inode offset))

include hlog hends hv hout

/-- What returns 0 behind the end of the file without an error starts at the end. -/
theorem Ends.offset_le : offset.toNat ≤ inode.sizeLo.toNat := by
  by_contra hgt
  have hzero : v = 0#32 := BitVec.eq_of_toNat_eq (by rw [hv, if_neg (by omega)]; rfl)
  rw [hzero] at hends
  refine hout ⟨by omega, hends.noIndirect hlog ?_⟩
  unfold clampedLen
  split
  next =>
    intro hsub
    rw [← BitVec.toNat_inj, BitVec.toNat_sub, BitVec.toNat_ofNat] at hsub
    have := inode.sizeLo.isLt
    omega
  next hle =>
    rintro rfl
    rw [BitVec.lt_def, BitVec.add_zero] at hle
    omega

theorem Ends.no_wrap (hle : offset.toNat ≤ inode.sizeLo.toNat) :
    offset.toNat + len.toNat < 2 ^ 32 := by
  by_contra hwrap
  have hsum : (offset + len).toNat = offset.toNat + len.toNat - 2 ^ 32 := by
    rw [BitVec.toNat_add]
    omega
  have hlen : clampedLen inode offset len = len := by
    rw [clampedLen, if_neg]
    rw [BitVec.lt_def, hsum]
    omega
  rw [hlen] at hends
  have hsize := inode.sizeLo.isLt
  have hpos : v.toNat = inode.sizeLo.toNat - offset.toNat := by
    rw [hv]
    split
    · omega
    · omega
  by_cases hzero : v = 0#32
  · rw [hzero] at hends hpos
    rw [BitVec.toNat_ofNat] at hpos
    exact hout ⟨by omega, hends.noIndirect hlog (by rintro rfl; simp at hwrap; omega)⟩
  · rcases hends with ⟨rfl, -⟩ | ⟨-, b, hin, ⟨h0, -⟩ | ⟨hb, hge⟩⟩
    · omega
    · exact absurd h0 hzero
    · have hmul := InIndirect_mul_toNat hlog hin
      have hmax := Superblock.file_bytes_lt hlog
      have hlt := ((Superblock.inIndirect_iff hlog b).mp hin).2
      have hbound : b.toNat * sb.blockBytes ≤ (12 + sb.entriesPerBlock) * sb.blockBytes :=
        Nat.mul_le_mul_right _ (Nat.le_of_lt hlt)
      rw [← hb, BitVec.toNat_add, hpos] at hmul
      have hat := Cursor.start_at hlog offset (by omega)
      have hend := hat.blockEnd
      have hstart := hat.lt
      rw [BitVec.lt_def, hsum, hend] at hge
      omega

end Ended

/-- The indirect block is there if the file gets to the last block of the 32-bit offsets, so a read
    that returns all its bytes ends before it. -/
theorem Ends.last_le (hlog : sb.blockSizeLog.toNat ≤ 6) (hall : FileAllocated sb disk inode)
    {e : Nat} {v : BitVec 32} (hends : Ends sb inode offset len v)
    (hlimit : (offset + len).toNat = e) (he : e ≤ inode.sizeLo.toNat) :
    e + sb.blockBytes ≤ 2 ^ 32 := by
  have hmax := Superblock.file_bytes_lt hlog
  have hE := Superblock.entriesPerBlock_eq sb
  have hpos := Superblock.blockBytes_pos hlog
  rcases hends with ⟨-, b, hb⟩ | ⟨hzero, -⟩
  · have := blockEnd_le hlog (b + 1#32)
    rw [BitVec.le_def, hlimit] at hb
    omega
  · by_contra hgt
    rw [Nat.add_mul] at hmax
    exact hall.indirect_ne (k := 12) (by omega) (by omega) (by omega) hzero

/-! ## The last block of the 32-bit offsets -/

/-- Behind the blocks that the singly indirect block maps, sector `DRV_ERR_BAD_ARGS` is
    transferred. -/
theorem inodeDataTransfer_far (hlog : sb.blockSizeLog.toNat ≤ 6)
    (h : 12 + sb.entriesPerBlock ≤ idx.toNat) (dir : DataDir) :
    inodeDataTransfer sb bdev i inode idx data dir =
      transferBlock sb bdev i inode DriveRes.errBadArgs.toWord false data dir := by
  have hdirect : ¬ idx < 12#32 := fun hlt => by
    have := (idx_direct_iff idx).mp hlt
    omega
  have hindirect : ¬ idx < 12#32 + sb.blockSize / 4#32 := fun hlt => by
    have := (Superblock.idx_indirect_iff hlog idx).mp hlt
    omega
  rw [inodeDataTransfer, if_neg hdirect, if_neg hindirect]

/-- A device whose first transfer succeeds and all others fail. -/
def failsLater (disk : Bytes) : Bdev :=
  ⟨disk, fun k => if k = 0 then .success else .errIoFailed, 0, []⟩

section LastBlock

variable (hlog : sb.blockSizeLog.toNat ≤ 6) (ho : offset.toNat + sb.blockBytes = 2 ^ 32)

include hlog ho

theorem lastBlock_mul : offset / sb.blockSize * sb.blockSize = offset := by
  have hmul : offset.toNat / sb.blockBytes * sb.blockBytes = offset.toNat := by
    refine Nat.div_mul_cancel ((Nat.dvd_add_left (Nat.dvd_refl _)).mp ?_)
    rw [ho]
    exact Superblock.blockBytes_dvd hlog
  refine BitVec.eq_of_toNat_eq ?_
  rw [BitVec.toNat_mul, BitVec.toNat_udiv, Superblock.blockSize_toNat hlog, hmul,
    Nat.mod_eq_of_lt offset.isLt]

/-- The end of the last block is 0, so the round copies the whole block. -/
theorem lastBlock_cnt : (Cursor.start sb offset).cnt sb (offset + 0#32) = sb.blockSize := by
  have hmul := lastBlock_mul hlog ho
  have hend : (Cursor.start sb offset).blockEnd = 0#32 := by
    refine BitVec.eq_of_toNat_eq ?_
    rw [Cursor.start, BitVec.add_mul, BitVec.one_mul, hmul, BitVec.toNat_add,
      Superblock.blockSize_toNat hlog, ho]
    rfl
  rw [Cursor.cnt, if_neg (by rw [hend]; exact BitVec.not_lt_zero), Cursor.start, hmul,
    BitVec.sub_self, BitVec.sub_zero]

theorem lastBlock_far : 12 + sb.entriesPerBlock ≤ (offset / sb.blockSize).toNat ∧
    12 + sb.entriesPerBlock ≤ (offset / sb.blockSize + 1#32).toNat := by
  have hmax := Superblock.file_bytes_lt hlog
  have hspb := Superblock.sectorsPerBlock_bounds hlog
  have hbytes := Superblock.blockBytes_eq sb
  have hle := Nat.div_le_self offset.toNat sb.blockBytes
  have hfar : 12 + sb.entriesPerBlock ≤ offset.toNat / sb.blockBytes :=
    (Nat.le_div_iff_mul_le (by omega)).mpr (by omega)
  rw [BitVec.toNat_add, BitVec.toNat_udiv, Superblock.blockSize_toNat hlog, BitVec.toNat_ofNat]
  rw [Nat.mod_eq_of_lt (by omega : offset.toNat / sb.blockBytes + 1 % 2 ^ 32 < 2 ^ 32)]
  omega

/-- A read of no bytes at the start of the last block copies the whole block. -/
theorem last_block_copied (hzero : clampedLen inode offset len = 0#32) (i : BitVec 32)
    (disk : Bytes) : ∃ b : Bytes, ∀ data, ∃ n v t,
      ext2Transfer n sb (failsLater disk) i inode offset len data .read = some (v, t) ∧
        ∀ a < sb.blockBytes, t.data a = b a := by
  have hcnt := lastBlock_cnt hlog ho
  obtain ⟨hfar, hfar'⟩ := lastBlock_far hlog ho
  have hsize := Superblock.blockSize_toNat hlog
  have hpos := Superblock.blockBytes_pos hlog
  have hskip : (Cursor.start sb offset).skip = 0#32 := by
    rw [Cursor.start, lastBlock_mul hlog ho, BitVec.sub_self]
  have hmore : 0#32 + (Cursor.start sb offset).cnt sb (offset + 0#32) ≠ 0#32 := by
    intro h0
    rw [hcnt, BitVec.zero_add, ← BitVec.toNat_inj, hsize, BitVec.toNat_ofNat] at h0
    omega
  -- the first transfer moves the block, the second one is the error that ends the read
  have hfirst : inodeDataTransfer sb (failsLater disk) i inode (offset / sb.blockSize) fresh
      .read = some ⟨.success, inode, ((failsLater disk).read DriveRes.errBadArgs.toWord
        sb.blockSectors fresh).2.1, (failsLater disk).tick⟩ := by
    rw [inodeDataTransfer_far hlog hfar, transferBlock_read, Bdev.read_err rfl]
  have hsecond : inodeDataTransfer sb (failsLater disk).tick i inode (offset / sb.blockSize + 1#32)
      fresh .read = some ⟨.errIoFailed, inode, fresh, (failsLater disk).tick.tick⟩ := by
    rw [inodeDataTransfer_far hlog hfar', transferBlock_read,
      Bdev.read_failed (by exact DriveRes.noConfusion)]
    rfl
  generalize ((failsLater disk).read DriveRes.errBadArgs.toWord sb.blockSectors fresh).2.1 = b
    at hfirst
  refine ⟨b, fun data => ?_⟩
  have hround : ∃ t, (Transfer.start sb (failsLater disk) inode offset data).round sb i offset 0#32
      .read = some t ∧ t.done = false ∧ t.inode = inode ∧ t.bdev = (failsLater disk).tick ∧
      t.cursor.block = offset / sb.blockSize + 1#32 ∧ ∀ a < sb.blockBytes, t.data a = b a := by
    refine ⟨_, (Transfer.round_read offset 0#32 hfirst).trans (if_neg fun h => h rfl),
      decide_eq_false hmore, rfl, rfl, rfl, fun a ha => ?_⟩
    dsimp only [Transfer.start]
    rw [hcnt, hsize, hskip]
    refine (Bytes.splice_of_mem (Nat.zero_le a) ?_).trans ?_
    · omega
    · exact congrArg b (Nat.zero_add a)
  obtain ⟨t, ht, hdone, hinode, hbdev, hblock, hdata⟩ := hround
  rw [← hinode, ← hbdev, ← hblock] at hsecond
  have hround' := Transfer.round_read offset 0#32 hsecond
  rw [if_pos (by exact DriveRes.noConfusion)] at hround'
  refine ⟨2, _, { t with inode := t.inode, bdev := t.bdev.tick, done := true },
    ext2Transfer_read_eq_some.mpr ⟨?_, rfl, rfl⟩, hdata⟩
  rw [hzero, Transfer.rounds_of_round 1 rfl ht]
  exact Transfer.rounds_of_round 0 hdone hround'

end LastBlock

/-! ## The intended behaviour -/

/-- Reads of a file whose blocks are all there are cut off at its end exactly if they start in it or
    at its end, do not go around 2^32 and do not need the last block before it, or start in a block
    behind the file that has no indirect block. -/
theorem reads_clamped_iff (hlog : sb.blockSizeLog.toNat ≤ 6) (hall : FileAllocated sb disk inode) :
    ReadsClamped sb disk inode offset len ↔
      ClampedRange sb inode offset len ∨
        inode.sizeLo.toNat ≤ offset.toNat ∧ NoIndirect sb inode offset := by
  constructor
  · intro h
    by_cases hout : inode.sizeLo.toNat ≤ offset.toNat ∧ NoIndirect sb inode offset
    · exact .inr hout
    refine .inl ?_
    obtain ⟨n, v, t, hrun, -, hv⟩ := h ⟨disk, fun _ => .success, 0, []⟩ 0#32 fresh rfl
    have hv := hv fun _ => rfl
    have hends := ext2Transfer_ends (fun _ => rfl) hrun
    have hle := Ends.offset_le hlog hends hv hout
    have hno := Ends.no_wrap hlog hends hv hout hle
    obtain ⟨hlen, hlimit⟩ := clampedLen_toNat hle hno
    have hlast := hends.last_le hlog hall hlimit (Nat.min_le_right _ _)
    refine ⟨hle, hno, ?_, hlast, ?_⟩
    · -- otherwise the read starts in the last block and has no bytes, but a block is copied
      by_contra hge
      have hpos := Superblock.blockBytes_pos hlog
      have hend : offset.toNat ≤ min (offset.toNat + len.toNat) inode.sizeLo.toNat :=
        Nat.le_min.mpr ⟨Nat.le_add_right _ _, hle⟩
      have hzero : clampedLen inode offset len = 0#32 := BitVec.eq_of_toNat_eq (by
        rw [hlen, BitVec.toNat_ofNat]
        omega)
      obtain ⟨b, hb⟩ := last_block_copied hlog (by omega) hzero 0#32 disk
      obtain ⟨n, v, t, ht, hdata⟩ := hb fun a => b a + 1#8
      obtain ⟨n', v', t', ht', hold, -⟩ := h (failsLater disk) 0#32 (fun a => b a + 1#8) rfl
      obtain ⟨-, rfl⟩ := Prod.mk.inj (ext2Transfer_unique ht ht')
      have hne := hold len.toNat (Nat.le_refl _)
      rw [hdata len.toNat (by omega)] at hne
      exact absurd hne (by generalize b len.toNat = x; revert x; decide)
    · intro hhole
      by_contra hw
      have hfault := inodeDataTransfer_fault ⟨disk, fun _ => .success, 0, []⟩
        (fun _ => rfl) 0#32 fresh hhole.1 hhole.2 hw
      rw [ext2Transfer_fault hfault n] at hrun
      cases hrun
  · rintro (h | ⟨hout, h⟩)
    · exact h.reads hlog hall
    · exact h.reads hout

theorem short_fileAllocated : FileAllocated smallSuperblock smallDisk shortInode := by
  intro k _ hk
  rw [show smallSuperblock.blockBytes = 2048 by decide,
    show shortInode.sizeLo.toNat = 2 by decide] at hk
  rw [shortInode_mapped, if_pos (by omega)]
  decide

/-- A read across the end of a file of two bytes. -/
theorem reads_clamped_iff_short : ReadsClamped smallSuperblock smallDisk shortInode 1#32 9#32 :=
  (reads_clamped_iff (by decide) short_fileAllocated).mpr
    (.inl ⟨by decide, by decide, by decide, by decide, fun h => absurd h.2 (by decide)⟩)

/-- A read behind the end of the same file does not return 0. -/
theorem read_behind_end : ¬ ∀ (sb : Superblock) (disk : Bytes) (inode : Inode),
    sb.blockSizeLog.toNat ≤ 6 → FileAllocated sb disk inode →
    ∀ offset len, ReadsClamped sb disk inode offset len := by
  intro h
  obtain ⟨n, v, t, hrun, -, hv⟩ := h smallSuperblock smallDisk shortInode (by decide)
    short_fileAllocated 3#32 1#32 ⟨smallDisk, fun _ => .success, 0, []⟩ 0#32 fresh rfl
  have hle := Ends.offset_le (by decide) (ext2Transfer_ends (fun _ => rfl) hrun)
    (hv fun _ => rfl) fun hout => absurd hout.2.1.1 (by decide)
  exact absurd hle (by decide)

end Muse.Ext2
