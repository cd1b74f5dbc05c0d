import Mathlib.Data.BitVec
import Mathlib.Tactic.LinearCombination
import Mathlib.Tactic.Ring
import Muse.Ext2.Layout
import Muse.Ext2.Transfer

/-!
# The rounds of a transfer

What the counters of `ext2_transfer` are in exact arithmetic. In the round for block `k` of the file
the transfer is at the position `max o (k * bs)`, where `o` is its offset and `bs` the size of a
block, and it copies up to the end of the block or up to the end `e` of the transfer, whichever
comes first. This holds as long as the end of the block is below the end of the 32-bit numbers.
-/

namespace Muse.Ext2

open Muse.Library

namespace Cursor

/-- The counters in the round for block `k`. -/
structure At (c : Cursor) (sb : Superblock) (o k : Nat) : Prop where
  block : c.block.toNat = k
  blockEnd : c.blockEnd.toNat = (k + 1) * sb.blockBytes
  skip : c.skip.toNat = max o (k * sb.blockBytes) - k * sb.blockBytes
  bytesWritten : c.bytesWritten.toNat = max o (k * sb.blockBytes) - o
  lt : o < (k + 1) * sb.blockBytes

variable {sb : Superblock} {c : Cursor} {o e k : Nat}

/-- The first round is that of the block of the offset. -/
theorem start_at (hlog : sb.blockSizeLog.toNat ≤ 6) (offset : BitVec 32)
    (h : offset.toNat + sb.blockBytes < 2 ^ 32) :
    (start sb offset).At sb offset.toNat (offset.toNat / sb.blockBytes) := by
  have hpos := Superblock.blockBytes_pos hlog
  have hsize := Superblock.blockSize_toNat hlog
  have hdiv : (offset / sb.blockSize).toNat = offset.toNat / sb.blockBytes := by
    rw [BitVec.toNat_udiv, hsize]
  have hle : offset.toNat / sb.blockBytes * sb.blockBytes ≤ offset.toNat := Nat.div_mul_le_self _ _
  have hlt : offset.toNat < (offset.toNat / sb.blockBytes + 1) * sb.blockBytes := by
    rw [Nat.add_mul, Nat.one_mul]
    exact Nat.lt_div_mul_add hpos
  have hsucc : (offset.toNat / sb.blockBytes + 1) * sb.blockBytes =
      offset.toNat / sb.blockBytes * sb.blockBytes + sb.blockBytes := by
    rw [Nat.add_mul, Nat.one_mul]
  have hquot : offset.toNat / sb.blockBytes + 1 < 2 ^ 32 := by
    have := Nat.div_le_self offset.toNat sb.blockBytes
    omega
  refine ⟨hdiv, ?_, ?_, ?_, hlt⟩
  · simp only [start, BitVec.toNat_mul, BitVec.toNat_add, hdiv, hsize, BitVec.toNat_ofNat]
    rw [Nat.mod_eq_of_lt (by decide : 1 < 2 ^ 32), Nat.mod_eq_of_lt hquot,
      Nat.mod_eq_of_lt (by omega)]
  · have hmul : (offset / sb.blockSize * sb.blockSize).toNat =
        offset.toNat / sb.blockBytes * sb.blockBytes := by
      rw [BitVec.toNat_mul, hdiv, hsize, Nat.mod_eq_of_lt (by omega)]
    rw [start, BitVec.toNat_sub_of_le (by rw [BitVec.le_def, hmul]; exact hle), hmul]
    omega
  · simp only [start, BitVec.toNat_ofNat]
    omega

namespace At

variable (h : c.At sb o k)

include h

/-- A round copies up to the end of the block or of the transfer. -/
theorem cnt_toNat (hlog : sb.blockSizeLog.toNat ≤ 6) {limit : BitVec 32}
    (hlimit : limit.toNat = e) (hpos : max o (k * sb.blockBytes) ≤ e) :
    (c.cnt sb limit).toNat = min e ((k + 1) * sb.blockBytes) - max o (k * sb.blockBytes) := by
  have hsize := Superblock.blockSize_toNat hlog
  have hskip := h.skip
  have hend := h.blockEnd
  have hlt := h.lt
  have hsucc : (k + 1) * sb.blockBytes = k * sb.blockBytes + sb.blockBytes := by
    rw [Nat.add_mul, Nat.one_mul]
  unfold cnt
  split
  next hcmp =>
    rw [BitVec.lt_def, hlimit, hend] at hcmp
    rw [BitVec.toNat_add, BitVec.toNat_sub, BitVec.toNat_sub, hsize, hskip, hlimit, hend]
    omega
  next hcmp =>
    rw [BitVec.lt_def, hlimit, hend] at hcmp
    rw [BitVec.toNat_sub, hsize, hskip]
    omega

/-- After a round, the bytes up to the end of the block or of the transfer have been copied. -/
theorem next_bytesWritten (hlog : sb.blockSizeLog.toNat ≤ 6) {limit : BitVec 32}
    (hlimit : limit.toNat = e) (hpos : max o (k * sb.blockBytes) ≤ e) :
    (c.next sb limit).bytesWritten.toNat = min e ((k + 1) * sb.blockBytes) - o := by
  have hcnt := h.cnt_toNat hlog hlimit hpos
  have hbytes := h.bytesWritten
  have hlt := h.lt
  have hsucc : (k + 1) * sb.blockBytes = k * sb.blockBytes + sb.blockBytes := by
    rw [Nat.add_mul, Nat.one_mul]
  rw [next, BitVec.toNat_add, hcnt, hbytes]
  omega

/-- If the transfer goes on behind the block, the next round is that of the next block. -/
theorem next_at (hlog : sb.blockSizeLog.toNat ≤ 6) {limit : BitVec 32} (hlimit : limit.toNat = e)
    (hmore : (k + 1) * sb.blockBytes ≤ e)
    (hfit : (k + 1) * sb.blockBytes + sb.blockBytes < 2 ^ 32) :
    (c.next sb limit).At sb o (k + 1) := by
  have hlt := h.lt
  have hsize := Superblock.blockSize_toNat hlog
  have hpos := Superblock.blockBytes_pos hlog
  have hsucc : (k + 1) * sb.blockBytes = k * sb.blockBytes + sb.blockBytes := by
    rw [Nat.add_mul, Nat.one_mul]
  have hsucc' : (k + 1 + 1) * sb.blockBytes = (k + 1) * sb.blockBytes + sb.blockBytes := by
    rw [Nat.add_mul (k + 1), Nat.one_mul]
  have hk : k + 1 ≤ (k + 1) * sb.blockBytes := Nat.le_mul_of_pos_right _ hpos
  refine ⟨?_, ?_, ?_, ?_, by omega⟩
  · rw [next, BitVec.toNat_add, h.block]
    simp only [BitVec.toNat_ofNat, Nat.reducePow, Nat.reduceMod]
    omega
  · rw [next, BitVec.toNat_add, h.blockEnd, hsize, hsucc']
    omega
  · simp only [next, BitVec.toNat_ofNat]
    omega
  · rw [h.next_bytesWritten hlog hlimit (by omega)]
    omega

/-- The round is the last one if the transfer ends in the block. -/
theorem last_iff (hlog : sb.blockSizeLog.toNat ≤ 6) {limit len : BitVec 32}
    (hlimit : limit.toNat = e) (hlen : len.toNat = e - o) (ho : o ≤ e)
    (hpos : max o (k * sb.blockBytes) ≤ e) :
    c.bytesWritten + c.cnt sb limit = len ↔ e ≤ (k + 1) * sb.blockBytes := by
  have hnext := h.next_bytesWritten hlog hlimit hpos
  have hlt := h.lt
  rw [← BitVec.toNat_inj, hlen]
  rw [next] at hnext
  rw [hnext]
  omega

end At

/-- What holds of the words of the counters in every round, whatever sums have gone around: the
    position of the transfer is in the block, `skip` bytes behind its start. -/
structure Steady (c : Cursor) (sb : Superblock) (offset : BitVec 32) : Prop where
  blockEnd : c.blockEnd = (c.block + 1#32) * sb.blockSize
  position : c.bytesWritten + offset + sb.blockSize = c.blockEnd + c.skip

theorem start_steady (sb : Superblock) (offset : BitVec 32) :
    (start sb offset).Steady sb offset := by
  refine ⟨rfl, ?_⟩
  simp only [start]
  rw [BitVec.zero_add, BitVec.add_mul, BitVec.one_mul]
  ring

namespace Steady

variable {offset len limit : BitVec 32} (h : c.Steady sb offset)

include h

/-- A round that does not copy up to the end of the block is the last one. -/
theorem last_of_lt (hlt : offset + len < c.blockEnd) :
    c.bytesWritten + c.cnt sb (offset + len) = len := by
  have hpos := h.position
  rw [cnt, if_pos hlt]
  linear_combination hpos

/-- A last round that copies up to the end of the block. -/
theorem limit_eq (hge : ¬ offset + len < c.blockEnd)
    (hlast : c.bytesWritten + c.cnt sb (offset + len) = len) : offset + len = c.blockEnd := by
  have hpos := h.position
  rw [cnt, if_neg hge] at hlast
  linear_combination hpos - hlast

theorem next (hge : ¬ limit < c.blockEnd) : (c.next sb limit).Steady sb offset := by
  have hend := h.blockEnd
  have hpos := h.position
  refine ⟨?_, ?_⟩
  · simp only [Cursor.next, hend]
    generalize c.block + 1#32 = b
    rw [BitVec.add_mul, BitVec.one_mul]
  · simp only [Cursor.next, cnt, if_neg hge]
    rw [BitVec.add_zero]
    linear_combination hpos

end Steady

end Cursor

namespace Transfer

variable {sb : Superblock} {t t' : Transfer} {inodeI offset len : BitVec 32} {dir : DataDir}

/-- A round of a read whose block has been transferred. -/
theorem round_read {r : Transferred} (offset len : BitVec 32)
    (h : inodeDataTransfer sb t.bdev inodeI t.inode t.cursor.block fresh .read = some r) :
    t.round sb inodeI offset len .read =
      if r.err ≠ .success then some { t with inode := r.inode, bdev := r.bdev, done := true }
      else some ⟨t.cursor.next sb (offset + len), r.inode,
        t.data.splice t.cursor.bytesWritten.toNat (t.cursor.cnt sb (offset + len)).toNat
          fun i => r.data (t.cursor.skip.toNat + i), r.bdev,
        t.cursor.bytesWritten + t.cursor.cnt sb (offset + len) = len⟩ := by
  rw [round, h]
  rfl

/-- A round either stops the transfer at an error or steps the counters. -/
theorem round_cursor (h : t.round sb inodeI offset len dir = some t') :
    (t'.done = true ∧ t'.cursor = t.cursor) ∨
      (t'.cursor = t.cursor.next sb (offset + len) ∧
        t'.done = decide (t.cursor.bytesWritten + t.cursor.cnt sb (offset + len) = len)) := by
  unfold round at h
  obtain ⟨r, -, h⟩ := Option.bind_eq_some_iff.mp h
  split at h
  next =>
    obtain rfl := Option.some.inj h
    exact Or.inl ⟨rfl, rfl⟩
  next =>
    cases dir with
    | read =>
        obtain rfl := Option.some.inj h
        exact Or.inr ⟨rfl, rfl⟩
    | write =>
        obtain ⟨w, -, h⟩ := Option.bind_eq_some_iff.mp h
        split at h
        next =>
          obtain rfl := Option.some.inj h
          exact Or.inl ⟨rfl, rfl⟩
        next =>
          obtain rfl := Option.some.inj h
          exact Or.inr ⟨rfl, rfl⟩

/-- What holds at the start and is kept by every round holds after any number of them. -/
theorem rounds_invariant {Inv : Transfer → Prop}
    (hround : ∀ t t', Inv t → t.done = false → t.round sb inodeI offset len dir = some t' → Inv t')
    (n : Nat) {t t' : Transfer} (ht : Inv t)
    (h : t.rounds sb inodeI offset len dir n = some t') : Inv t' := by
  induction n generalizing t with
  | zero =>
      obtain rfl := Option.some.inj h
      exact ht
  | succ n ih =>
      rw [rounds] at h
      split at h
      next =>
        obtain rfl := Option.some.inj h
        exact ht
      next hdone =>
        obtain ⟨u, hu, hrest⟩ := Option.bind_eq_some_iff.mp h
        exact ih (hround t u ht (by simpa using hdone) hu) hrest

/-- The first of `n + 1` rounds. -/
theorem rounds_of_round (n : Nat) (hdone : t.done = false)
    (h : t.round sb inodeI offset len dir = some t') :
    t.rounds sb inodeI offset len dir (n + 1) = t'.rounds sb inodeI offset len dir n := by
  rw [rounds, if_neg (by rw [hdone]; exact Bool.false_ne_true), h]
  rfl

/-- The last of `n + 1` rounds. -/
theorem rounds_succ (n : Nat) (t : Transfer) :
    t.rounds sb inodeI offset len dir (n + 1) =
      (t.rounds sb inodeI offset len dir n).bind fun u =>
        if u.done then some u else u.round sb inodeI offset len dir := by
  induction n generalizing t with
  | zero =>
      simp only [rounds, Option.bind_some]
      split
      · rfl
      · exact Option.bind_fun_some _
  | succ n ih =>
      rw [rounds]
      by_cases hdone : t.done = true
      · simp only [rounds, hdone, if_true, Option.bind_some]
      · rw [if_neg hdone, show t.rounds sb inodeI offset len dir (n + 1) =
          (t.round sb inodeI offset len dir).bind (·.rounds sb inodeI offset len dir n) by
            rw [rounds, if_neg hdone]; rfl, Option.bind_assoc]
        exact congrArg _ (funext fun u => ih u)

/-- A transfer that is done takes no more rounds. -/
theorem rounds_of_done (n : Nat) (h : t.done = true) :
    t.rounds sb inodeI offset len dir n = some t := by
  cases n with
  | zero => rfl
  | succ n => rw [rounds, if_pos h]

/-- More rounds than a transfer needs do nothing. -/
theorem rounds_add {n : Nat} (m : Nat) (h : t.rounds sb inodeI offset len dir n = some t')
    (hdone : t'.done = true) : t.rounds sb inodeI offset len dir (n + m) = some t' := by
  induction m with
  | zero => exact h
  | succ m ih => rw [← Nat.add_assoc, rounds_succ, ih, Option.bind_some, if_pos hdone]

/-- The end of a write does not count. -/
theorem finish_cursor (h : t.finish sb inodeI offset len dir = some t') : t'.cursor = t.cursor := by
  unfold finish at h
  split at h
  next =>
    obtain ⟨u, -, hu⟩ := Option.bind_eq_some_iff.mp h
    obtain rfl := Option.some.inj hu
    rfl
  next =>
    obtain rfl := Option.some.inj h
    rfl

end Transfer

/-- A call has one outcome, whatever number of rounds it is given. -/
theorem ext2Transfer_unique {n m : Nat} {bdev : Bdev} {inode : Inode} {offset len : BitVec 32}
    {data : Bytes} {dir : DataDir} {r r' : BitVec 32 × Transfer}
    (h : ext2Transfer n sb bdev i inode offset len data dir = some r)
    (h' : ext2Transfer m sb bdev i inode offset len data dir = some r') : r = r' := by
  rw [ext2Transfer] at h h'
  obtain ⟨t, hrounds, hrest⟩ := Option.bind_eq_some_iff.mp h
  obtain ⟨t', hrounds', hrest'⟩ := Option.bind_eq_some_iff.mp h'
  have hdone : t.done = true := by
    by_contra hnot
    rw [if_neg hnot] at hrest
    cases hrest
  have hdone' : t'.done = true := by
    by_contra hnot
    rw [if_neg hnot] at hrest'
    cases hrest'
  have heq := Transfer.rounds_add m hrounds hdone
  rw [Nat.add_comm, Transfer.rounds_add n hrounds' hdone'] at heq
  rw [Option.some.inj heq, hrest] at hrest'
  exact Option.some.inj hrest'

end Muse.Ext2
