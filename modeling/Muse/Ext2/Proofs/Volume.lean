import Muse.Ext2.Proofs.FileArray
import Muse.Ext2.Volume

/-!
# The files of a volume do not meet

A transfer on one file writes to its blocks and to its inode. None of these places is one that says
where another file is or that has a byte of it, so the other files stay as they are.
-/

namespace Muse.Ext2

open Muse.Library

/-! ## More rounds, and the caller's buffer -/

section Rounds

variable {sb : Superblock} {i offset len : BitVec 32} {inode : Inode} {data : Bytes} {dir : DataDir}
  {bdev : Bdev} {n m : Nat} {r : BitVec 32 × Transfer} {t t' : Transfer}

theorem ext2Transfer_mono (hle : n ≤ m)
    (h : ext2Transfer n sb bdev i inode offset len data dir = some r) :
    ext2Transfer m sb bdev i inode offset len data dir = some r := by
  rw [ext2Transfer] at h ⊢
  obtain ⟨t, hrounds, hrest⟩ := Option.bind_eq_some_iff.mp h
  have hdone : t.done = true := by
    by_contra hnot
    rw [if_neg hnot] at hrest
    cases hrest
  obtain ⟨k, rfl⟩ := Nat.exists_eq_add_of_le hle
  simp only [Transfer.rounds_add k hrounds hdone]
  exact hrest

/-- A call beyond the end of the file is one up to the end. -/
theorem ext2Transfer_clamped {len' : BitVec 32} (n : Nat) (bdev : Bdev) (i : BitVec 32)
    (data : Bytes)
    (dir : DataDir) (h : clampedLen inode offset len = clampedLen inode offset len') :
    ext2Transfer n sb bdev i inode offset len data dir =
      ext2Transfer n sb bdev i inode offset len' data dir := by
  simp only [ext2Transfer, h]

theorem Transfer.round_write (h : t.round sb i offset len .write = some t') : t'.data = t.data := by
  rw [Transfer.round] at h
  obtain ⟨r, -, h⟩ := Option.bind_eq_some_iff.mp h
  by_cases herr : r.err = .success
  · simp only [herr, ne_eq, not_true_eq_false, if_false] at h
    obtain ⟨w, -, h⟩ := Option.bind_eq_some_iff.mp h
    by_cases hw : w.err = .success
    · simp only [hw, not_true_eq_false, if_false, Option.some_inj] at h
      rw [← h]
    · simp only [hw, not_false_eq_true, if_true, Option.some_inj] at h
      rw [← h]
  · simp only [herr, ne_eq, not_false_eq_true, if_true, Option.some_inj] at h
    rw [← h]

theorem Transfer.rounds_write (h : t.rounds sb i offset len .write n = some t') :
    t'.data = t.data := by
  induction n generalizing t with
  | zero =>
      obtain rfl := Option.some.inj h
      rfl
  | succ n ih =>
      rw [Transfer.rounds] at h
      split at h
      · obtain rfl := Option.some.inj h
        rfl
      · obtain ⟨u, hround, h⟩ := Option.bind_eq_some_iff.mp h
        rw [ih h, Transfer.round_write hround]

/-- A write leaves the caller's buffer as it is. -/
theorem ext2Transfer_write {v : BitVec 32}
    (h : ext2Transfer n sb bdev i inode offset len data .write = some (v, t)) : t.data = data := by
  rw [ext2Transfer] at h
  obtain ⟨u, hrounds, h⟩ := Option.bind_eq_some_iff.mp h
  split at h
  · obtain ⟨w, hfinish, h⟩ := Option.bind_eq_some_iff.mp h
    obtain ⟨-, rfl⟩ := Prod.mk.inj (Option.some.inj h)
    have hdata : w.data = u.data := by
      rw [Transfer.finish] at hfinish
      split at hfinish
      · obtain ⟨x, -, hx⟩ := Option.bind_eq_some_iff.mp hfinish
        rw [← Option.some.inj hx]
      · rw [← Option.some.inj hfinish]
    rw [hdata, Transfer.rounds_write hrounds, Transfer.start]
  · cases h

end Rounds

/-! ## The other files -/

namespace Volume

variable {ι : Type} {v : Volume ι} {files : Set ι} {p q : ι} {disk' : Bytes} {inode' : Inode}

section Frame

variable (hs : v.Sound files) (hp : p ∈ files) (hq : q ∈ files) (hpq : p ≠ q)
  (h : SameLayout v.sb (v.number p) v.bdev.disk disk' (v.inode p) inode')

include hs hp hq hpq h

/-- The blocks of another file are mapped as before. -/
theorem mapped_other {k : Nat} (hk : k < 12 + v.sb.entriesPerBlock) :
    v.sb.mapped disk' (v.inode q) k = v.sb.mapped v.bdev.disk (v.inode q) k := by
  have hpw := hs.whole p hp
  unfold Superblock.mapped
  split
  next => rfl
  next =>
    split
    next => rfl
    next hind =>
      refine hpw.geometry.entry_congr (by omega) fun a ha => h.frame a ?_ ?_
      · rintro l hl rfl
        obtain ⟨hlt, hne⟩ := hpw.block_mapped hl
        rw [hpw.fileAddr_div] at ha
        exact (hs.apart p hp q hq hpq).indirect _ hlt hne (BitVec.eq_of_toNat_eq ha)
      · by_contra hin
        have hholds := hpw.holds_of_inodeAddr (a := a) (by omega) (by omega)
        rw [ha] at hholds
        exact ((hs.whole q hq).file.indirect hind).2.2 _ hholds

theorem fileAddr_other {k : Nat} (hk : k < v.size q) :
    v.sb.fileAddr disk' (v.inode q) k = v.sb.fileAddr v.bdev.disk (v.inode q) k := by
  rw [Superblock.fileAddr, mapped_other hs hp hq hpq h ((hs.whole q hq).block_mapped hk).1,
    Superblock.fileAddr]

/-- The bytes of another file are as before. -/
theorem fileByte_other {k : Nat} (hk : k < v.size q) :
    v.sb.fileByte disk' (v.inode q) k = v.byte q k := by
  have hpw := hs.whole p hp
  have hqw := hs.whole q hq
  rw [byte, Superblock.fileByte, fileAddr_other hs hp hq hpq h hk, Superblock.fileByte]
  apply h.frame
  · intro l hl heq
    obtain ⟨hplt, hpne⟩ := hpw.block_mapped hl
    obtain ⟨hqlt, -⟩ := hqw.block_mapped hk
    apply (hs.apart p hp q hq hpq).blocks _ hplt _ hqlt hpne
    apply BitVec.eq_of_toNat_eq
    rw [← hpw.fileAddr_div, ← heq, hqw.fileAddr_div]
  · by_contra hin
    exact hqw.not_holds_fileAddr hk _ (hpw.holds_of_inodeAddr (by omega) (by omega))

/-- Another file is still a whole one. -/
theorem wholeFile_other : WholeFile v.sb disk' (v.number q) (v.inode q) where
  image := (h.wholeFile (hs.whole p hp)).image
  file :=
    { pos := (hs.whole q hq).file.pos
      le := (hs.whole q hq).file.le
      indirect := by
        intro hind
        rw [h.markedFree_iff (hs.whole p hp)]
        simp only [h.holds_iff (hs.whole p hp)]
        exact (hs.whole q hq).file.indirect hind
      mapped := by
        intro k hk hne
        rw [mapped_other hs hp hq hpq h hk] at hne ⊢
        rw [h.markedFree_iff (hs.whole p hp)]
        simp only [h.holds_iff (hs.whole p hp)]
        exact (hs.whole q hq).file.mapped k hk hne
      inj := by
        intro k hk l hl hne heq
        rw [mapped_other hs hp hq hpq h hk] at hne heq
        rw [mapped_other hs hp hq hpq h hl] at heq
        exact (hs.whole q hq).file.inj k hk l hl hne heq }
  sectors := (hs.whole q hq).sectors
  inode_dvd := (hs.whole q hq).inode_dvd
  blocks := by
    intro k hk
    obtain ⟨hlt, hne⟩ := (hs.whole q hq).blocks k hk
    rw [mapped_other hs hp hq hpq h hlt]
    exact ⟨hlt, hne⟩

end Frame

/-! ## One transfer -/

variable [DecidableEq ι] {n : Nat} {offset len : BitVec 32} {data : Bytes} {dir : DataDir}

/-- The volume behind a transfer on `p`. -/
def after (v : Volume ι) (p : ι) (t : Transfer) : Volume ι :=
  { v with inode := Function.update v.inode p t.inode, bdev := t.bdev }

section After

variable {t : Transfer} (hs : v.Sound files) (hp : p ∈ files)
  (h : SameLayout v.sb (v.number p) v.bdev.disk t.bdev.disk (v.inode p) t.inode)

include h

theorem size_after (q : ι) : (v.after p t).size q = v.size q := by
  rw [size, after]
  by_cases hq : q = p
  · subst q
    simp only [Function.update_self]
    rw [h.size, size]
  · simp only [Function.update_of_ne hq]
    rw [size]

theorem indirect_after (q : ι) :
    ((v.after p t).inode q).indirectBlockSingle = (v.inode q).indirectBlockSingle := by
  rw [after]
  by_cases hq : q = p
  · subst q
    simp only [Function.update_self]
    exact h.indirect
  · simp only [Function.update_of_ne hq]

include hs hp

theorem mapped_after (hq : q ∈ files) {k : Nat} (hk : k < 12 + v.sb.entriesPerBlock) :
    v.sb.mapped t.bdev.disk ((v.after p t).inode q) k = v.sb.mapped v.bdev.disk (v.inode q) k := by
  rw [after]
  by_cases hqp : q = p
  · subst q
    simp only [Function.update_self]
    exact h.mapped_eq (hs.whole p hp) hk
  · simp only [Function.update_of_ne hqp]
    exact mapped_other hs hp hq (Ne.symm hqp) h hk

theorem sound_after (hok : ∀ k, t.bdev.result k = .success) : (v.after p t).Sound files where
  whole := by
    intro q hq
    by_cases hqp : q = p
    · subst q
      have hwhole := h.wholeFile (hs.whole p hp)
      simpa only [after, Function.update_self] using hwhole
    · have hwhole := wholeFile_other hs hp hq (Ne.symm hqp) h
      simpa only [after, Function.update_of_ne hqp] using hwhole
  apart := by
    intro q hq r hr hqr
    obtain ⟨hblocks, hindirect⟩ := hs.apart q hq r hr hqr
    refine ⟨?_, ?_⟩
    · intro k hk l hl hne
      have hleft := mapped_after hs hp h hq hk
      have hright := mapped_after hs hp h hr hl
      simp only [after] at hne hleft hright ⊢
      rw [hleft] at hne ⊢
      rw [hright]
      exact hblocks k hk l hl hne
    · intro k hk hne
      have hleft := mapped_after hs hp h hq hk
      have hright := indirect_after h r
      simp only [after] at hne hleft hright ⊢
      rw [hleft] at hne ⊢
      rw [hright]
      exact hindirect k hk hne
  ok := hok

end After

/-- A transfer that starts below the end of the file. -/
theorem transfer_spec (hs : v.Sound files) (hp : p ∈ files) (hoff : offset.toNat < v.size p)
    (hlen : 0 < len.toNat)
    (hfit : offset.toNat + len.toNat < 2 ^ 32) (hn : 2 ^ 32 ≤ n) (data : Bytes) (dir : DataDir)
    {contents : ι → Bytes} (hcontents : ∀ q ∈ files, ∀ k < v.size q, v.byte q k = contents q k) :
    ∃ out v', v.transfer n p offset len data dir =
        some (BitVec.ofNat 32 (min len.toNat (v.size p - offset.toNat)), out, v') ∧
      v'.Sound files ∧ (∀ q, v'.size q = v.size q) ∧
      (∀ q ∈ files, ∀ k < v.size q, v'.byte q k =
        moved p offset (min len.toNat (v.size p - offset.toNat)) data dir contents q k) ∧
      out = received (contents p) offset (min len.toNat (v.size p - offset.toNat)) data dir := by
  obtain ⟨m, hm⟩ : ∃ m, m = min len.toNat (v.size p - offset.toNat) := ⟨_, rfl⟩
  have hsize : v.size p = (v.inode p).sizeLo.toNat := rfl
  have hlt := (v.inode p).sizeLo.isLt
  have hmlen : (BitVec.ofNat 32 m).toNat = m := by
    rw [BitVec.toNat_ofNat, Nat.mod_eq_of_lt (by omega)]
  rw [← hm]
  have hr : (Call.mk offset (BitVec.ofNat 32 m) data dir).InRange (v.inode p).sizeLo.toNat := by
    simp only [Call.InRange, hmlen]
    omega
  -- the length is cut off at the end of the file
  have hclamp : clampedLen (v.inode p) offset len =
      clampedLen (v.inode p) offset (BitVec.ofNat 32 m) := by
    have hsum : (offset + len).toNat = offset.toNat + len.toNat := by
      rw [BitVec.toNat_add, Nat.mod_eq_of_lt hfit]
    have hsum' : (offset + BitVec.ofNat 32 m).toNat = offset.toNat + m := by
      rw [BitVec.toNat_add, hmlen, Nat.mod_eq_of_lt (by omega)]
    have hend : ¬ (v.inode p).sizeLo < offset + BitVec.ofNat 32 m := by
      rw [BitVec.lt_def, hsum']
      omega
    rw [clampedLen, clampedLen, if_neg hend]
    split
    next hcut =>
      rw [BitVec.lt_def, hsum] at hcut
      apply BitVec.eq_of_toNat_eq
      rw [hmlen, BitVec.toNat_sub_of_le (by rw [BitVec.le_def]; omega)]
      omega
    next hwhole =>
      rw [BitVec.lt_def, hsum] at hwhole
      apply BitVec.eq_of_toNat_eq
      omega
  obtain ⟨t, hcall, hdone⟩ := Call.returns_within (s := ⟨v.inode p, v.bdev⟩) (hs.whole p hp)
    hs.ok hr
  simp only [hmlen] at hcall
  have htransfer : v.transfer n p offset len data dir =
      some (BitVec.ofNat 32 m, t.data, v.after p t) := by
    rw [transfer, ext2Transfer_clamped n v.bdev (v.number p) data dir hclamp,
      ext2Transfer_mono (by omega) hcall]
    rfl
  refine ⟨t.data, v.after p t, htransfer, sound_after hs hp hdone.layout hdone.ok,
    size_after hdone.layout, ?_, ?_⟩
  · intro q hq k hk
    by_cases hqp : q = p
    · subst q
      have hfile : ∀ k < (v.inode p).sizeLo.toNat,
          v.sb.fileByte v.bdev.disk (v.inode p) k = contents p k := hcontents p hp
      have hcorrect := Call.Done.correct (s := ⟨v.inode p, v.bdev⟩) (hs.whole p hp) hr hdone hfile
      have harray := hcorrect.array k hk
      simp only [byte, after, Function.update_self]
      rw [harray]
      cases dir with
      | read => rfl
      | write => rw [moved, Function.update_self, Call.apply_write rfl, hmlen]
    · have hbyte := fileByte_other hs hp hq (Ne.symm hqp) hdone.layout hk
      rw [hcontents q hq k hk] at hbyte
      simp only [byte, after, Function.update_of_ne hqp]
      rw [hbyte]
      cases dir with
      | read => rfl
      | write => rw [moved, Function.update_of_ne hqp]
  · cases dir with
    | read =>
        have hread := (hdone.read rfl).2
        simp only [hmlen] at hread
        funext k
        by_cases hk : k < m
        · have hnew := hread.new (offset.toNat + k) (by omega) (by omega)
          rw [Nat.add_sub_cancel_left] at hnew
          rw [hnew, received, Bytes.splice_of_mem (by omega) (by omega), Nat.sub_zero]
          exact hcontents p hp _ (by omega)
        · rw [received, Bytes.splice_of_not_mem (by omega)]
          apply hread.old
          intro j hlo hhi heq
          omega
    | write => exact ext2Transfer_write hcall

end Volume

end Muse.Ext2
