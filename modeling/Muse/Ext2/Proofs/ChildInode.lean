import Muse.Ext2.ChildInode
import Muse.Ext2.Proofs.Counts

/-!
# The nearest free inode

The rounds of `alloc_child_inode` go outward from the group of the parent, so the first inode that
is found is in a nearest one of the groups that are searched. Not all groups are: the loop stops
before the farthest ones, and a short last group is not counted.
-/

namespace Muse.Ext2

open Muse.Library

variable {sb : Superblock} {bdev : Bdev} {disk : Bytes} {p g d : BitVec 32}

namespace InodeImage

variable (h : InodeImage sb disk)

include h

theorem groupTotal_lt : sb.groupTotal < 2 ^ 31 := by
  have := h.blocks
  have := sb.totalBlocks.isLt
  omega

/-- The groups that are counted are groups of the image. -/
theorem groupCnt_le : sb.groupCnt.toNat ≤ sb.groupTotal := by
  have := h.blocks_pos
  rw [Superblock.groupCnt, BitVec.toNat_udiv, Superblock.groupTotal]
  exact Nat.div_le_div_right (by omega)

/-- The number that a call returns for a free inode. -/
theorem objNumber_toNat {k : Nat} (hk : sb.FreeInode disk g k) :
    (sb.objNumber g true k).toNat = g.toNat * sb.inodesPerGroup.toNat + k + 1 := by
  have hfit := h.numbers
  have hle : (g.toNat + 1) * sb.inodesPerGroup.toNat ≤
      sb.groupTotal * sb.inodesPerGroup.toNat := Nat.mul_le_mul_right _ hk.1
  have hlt := hk.2.1
  rw [Nat.add_mul, Nat.one_mul] at hle
  simp only [Superblock.objNumber, Superblock.perGroup, if_true, BitVec.toNat_add,
    BitVec.toNat_mul, BitVec.toNat_ofNat, Nat.reducePow, Nat.reduceMod]
  omega

/-- A call for a group of the image, if it is made, takes a free inode of the group, or there is
    none and the disk stays as it is. -/
theorem tryGroup_cases (inRange : Bool) (hdisk : bdev.disk = disk)
    (hok : ∀ n, bdev.result n = .success) (hg : inRange = true → g.toNat < sb.groupTotal) :
    ((tryGroup sb bdev inRange g).1 = 0#32 ∧ (tryGroup sb bdev inRange g).2.disk = disk ∧
      (∀ n, (tryGroup sb bdev inRange g).2.result n = .success) ∧
      (inRange = true → ∀ k, ¬ sb.FreeInode disk g k)) ∨
    (inRange = true ∧ (tryGroup sb bdev inRange g).1 ≠ 0#32 ∧ ∃ k, sb.FreeInode disk g k ∧
      (tryGroup sb bdev inRange g).1.toNat = g.toNat * sb.inodesPerGroup.toNat + k + 1) := by
  cases inRange with
  | false => exact .inl ⟨rfl, hdisk, hok, fun hf => absurd hf (by decide)⟩
  | true =>
      subst hdisk
      have hcase := allocExt2Obj_cases sb (fun _ _ => hok _) g true
      simp only [tryGroup, if_true]
      generalize allocExt2Obj sb bdev g true = r at hcase ⊢
      cases hcase with
      | kept hfree hdisk' hresult =>
          refine .inl ⟨rfl, hdisk', fun n => by rw [hresult]; exact hok n, fun _ k hk => ?_⟩
          rcases hfree with hcount | hfull
          · exact h.counted g (hg rfl) hcount k hk
          · have hset := hfull k (Nat.lt_of_lt_of_le hk.2.1 h.inodes_le)
            rw [hk.2.2] at hset
            cases hset
      | @taken bdev' k _ hlow _ _ =>
          have hlt : k < sb.inodesPerGroup.toNat := by
            by_contra hge
            have hset := h.padding g k (hg rfl) (Nat.le_of_not_lt hge) hlow.lt
            rw [hlow.clear] at hset
            cases hset
          have hk : sb.FreeInode bdev.disk g k := ⟨hg rfl, hlt, hlow.clear⟩
          have hnum := h.objNumber_toNat hk
          refine .inr ⟨trivial, fun hz => ?_, k, hk, hnum⟩
          have hzero := congrArg BitVec.toNat hz
          rw [BitVec.toNat_ofNat, Nat.zero_mod] at hzero
          exact absurd (hnum.symm.trans hzero) (Nat.succ_ne_zero _)

end InodeImage

/-- The search found a free inode in a nearest one of the searched groups, or these have none. -/
inductive SearchCase (sb : Superblock) (disk : Bytes) (p : BitVec 32) : BitVec 32 → Prop
  | nothing : (∀ g k, sb.FreeInode disk g k → ¬ sb.Searched p g) → SearchCase sb disk p 0#32
  | found {inode g : BitVec 32} {k : Nat} : sb.FreeInode disk g k → sb.Searched p g →
      inode.toNat = g.toNat * sb.inodesPerGroup.toNat + k + 1 →
      (∀ g' k', sb.FreeInode disk g' k' → sb.Searched p g' →
        groupDistance g p ≤ groupDistance g' p) → SearchCase sb disk p inode

/-! The groups at a distance from `p`. -/

theorem groupDistance_sub (h : d ≤ p) : groupDistance (p - d) p = d.toNat := by
  rw [groupDistance, BitVec.toNat_sub_of_le h]
  rw [BitVec.le_def] at h
  omega

theorem groupDistance_add (h : p.toNat + d.toNat < 2 ^ 32) :
    groupDistance (p + d) p = d.toNat := by
  rw [groupDistance, BitVec.toNat_add_of_lt h]
  omega

theorem eq_of_groupDistance (h : groupDistance g p = d.toNat) :
    d ≤ p ∧ g = p - d ∨ ¬ g ≤ p ∧ g = p + d := by
  rw [groupDistance] at h
  by_cases hbefore : g ≤ p
  · rw [BitVec.le_def] at hbefore
    have hd : d ≤ p := by
      rw [BitVec.le_def]
      omega
    refine .inl ⟨hd, BitVec.eq_of_toNat_eq ?_⟩
    rw [BitVec.toNat_sub_of_le hd]
    omega
  · refine .inr ⟨hbefore, BitVec.eq_of_toNat_eq ?_⟩
    rw [BitVec.le_def] at hbefore
    rw [BitVec.toNat_add]
    omega

/-- No searched group with a free inode is nearer to `p` than `d`. -/
def NoneNearer (sb : Superblock) (disk : Bytes) (p : BitVec 32) (d : Nat) : Prop :=
  ∀ g k, sb.FreeInode disk g k → sb.Searched p g → d ≤ groupDistance g p

/-- A free inode at the distance that the search has got to. -/
theorem NoneNearer.found {k : Nat} (h : NoneNearer sb disk p d.toNat)
    (hdist : groupDistance g p = d.toNat) (hk : sb.FreeInode disk g k) (hs : sb.Searched p g)
    {inode : BitVec 32} (hnum : inode.toNat = g.toNat * sb.inodesPerGroup.toNat + k + 1) :
    SearchCase sb disk p inode := by
  refine .found hk hs hnum fun g' k' hk' hs' => ?_
  rw [hdist]
  exact h g' k' hk' hs'

/-- Neither of the groups at the distance `d` has a free inode. -/
theorem NoneNearer.succ (h : NoneNearer sb disk p d.toNat)
    (hbefore : d ≤ p → ∀ k, ¬ sb.FreeInode disk (p - d) k)
    (hbehind : p + d < sb.groupCnt → ∀ k, ¬ sb.FreeInode disk (p + d) k) :
    NoneNearer sb disk p (d.toNat + 1) := by
  intro g k hk hs
  refine Nat.lt_of_le_of_ne (h g k hk hs) fun heq => ?_
  rcases eq_of_groupDistance heq.symm with ⟨hd, rfl⟩ | ⟨hnot, rfl⟩
  · exact hbefore hd k hk
  · exact hbehind (hs.2.resolve_left hnot) k hk

/-- The loop from the distance `d` on, if no group that is nearer has a free inode. -/
theorem InodeImage.searchGroups_case (h : InodeImage sb disk) (hp : p.toNat < sb.groupTotal)
    (n : Nat) (hn : d.toNat + n = (sb.searchLimit p).toNat)
    (hdisk : bdev.disk = disk) (hok : ∀ n, bdev.result n = .success)
    (hnear : NoneNearer sb disk p d.toNat) :
    SearchCase sb disk p (searchGroups sb p sb.groupCnt n d bdev).1 := by
  have htotal := h.groupTotal_lt
  have hcnt := h.groupCnt_le
  have hlimit := (sb.searchLimit p).isLt
  induction n generalizing d bdev with
  | zero =>
      refine .nothing fun g k hk hs => ?_
      have := hnear g k hk hs
      have := hs.1
      omega
  | succ n ih =>
      have hlt : d.toNat < (sb.searchLimit p).toNat := by omega
      -- the call for the group before the parent's
      have hearlier := h.tryGroup_cases (decide (d ≤ p)) (g := p - d) hdisk hok (by
        intro hle
        rw [BitVec.toNat_sub_of_le (of_decide_eq_true hle)]
        omega)
      rw [searchGroups]
      rcases hearlier with ⟨hzero, hdisk₁, hok₁, hnone₁⟩ | ⟨hin, hne, k, hk, hnum⟩
      · -- the call for the group behind it
        simp only [hzero, ne_eq, not_true_eq_false, if_false]
        have hlater := h.tryGroup_cases (decide (p + d < sb.groupCnt)) (g := p + d) hdisk₁
          hok₁ (by
            intro hlt
            have := of_decide_eq_true hlt
            rw [BitVec.lt_def] at this
            omega)
        rcases hlater with ⟨hzero', hdisk₂, hok₂, hnone₂⟩ | ⟨hin, hne, k, hk, hnum⟩
        · simp only [hzero', not_true_eq_false, if_false]
          have hsucc : (d + 1#32).toNat = d.toNat + 1 := by
            rw [BitVec.toNat_add]
            simp only [BitVec.toNat_ofNat, Nat.reducePow, Nat.reduceMod]
            omega
          refine ih (by omega) hdisk₂ hok₂ ?_
          rw [hsucc]
          exact hnear.succ (fun hd => hnone₁ (decide_eq_true hd))
            fun hd => hnone₂ (decide_eq_true hd)
        · simp only [hne, not_false_eq_true, if_true]
          by_cases hwrap : p.toNat + d.toNat < 2 ^ 32
          · have hdist := groupDistance_add hwrap
            exact hnear.found hdist hk ⟨by omega, .inr (of_decide_eq_true hin)⟩ hnum
          · -- the sum went around: the group lies before the parent's and was looked at before
            have hadd : (p + d).toNat = p.toNat + d.toNat - 2 ^ 32 := by
              rw [BitVec.toNat_add]
              omega
            have hdist : groupDistance (p + d) p = 2 ^ 32 - d.toNat := by
              rw [groupDistance]
              omega
            have := hnear _ k hk ⟨by omega, .inl (by rw [BitVec.le_def]; omega)⟩
            omega
      · simp only [hne, ne_eq, not_false_eq_true, if_true]
        have hle := of_decide_eq_true hin
        have hdist := groupDistance_sub hle
        have hbefore : p - d ≤ p := by
          rw [BitVec.le_def, BitVec.toNat_sub_of_le hle]
          exact Nat.sub_le _ _
        exact hnear.found hdist hk ⟨by omega, .inl hbefore⟩ hnum

/-- **The nearest inode.** On a device without errors, `alloc_child_inode` returns a free inode of a
    nearest group, or 0 if there is none, exactly if no group has a free inode or a nearest one that
    has is searched. -/
theorem child_inode_iff (hok : ∀ n, bdev.result n = .success) (h : InodeImage sb bdev.disk)
    (hp : p.toNat < sb.groupTotal) :
    ∃ inode bdev', allocChildInode sb bdev p = some (inode, bdev') ∧
      (NearestInode sb bdev.disk p inode ↔
        (∀ g k, ¬ sb.FreeInode bdev.disk g k) ∨
          ∃ g, Nearest sb bdev.disk p g ∧ sb.Searched p g) := by
  have hne : sb.blocksPerGroup ≠ 0#32 := fun hz => by
    have := h.blocks_pos
    rw [hz] at this
    exact Nat.lt_irrefl _ this
  have hcase := h.searchGroups_case hp (sb.searchLimit p).toNat (d := 0#32)
    (Nat.zero_add _) (rfl : bdev.disk = bdev.disk) hok fun g k _ _ => Nat.zero_le _
  refine ⟨_, _, if_neg hne, ?_⟩
  generalize (searchGroups sb p sb.groupCnt (sb.searchLimit p).toNat 0#32 bdev).1 = inode at hcase
  cases hcase with
  | nothing hnone =>
      constructor
      · intro hn
        exact .inl (hn.none_free rfl)
      · rintro (hfree | ⟨g, ⟨⟨k, hk⟩, -⟩, hs⟩)
        · exact ⟨fun _ => hfree, fun hz => absurd rfl hz⟩
        · exact absurd hs (hnone g k hk)
  | @found _ g k hk hs hnum hmin =>
      have hne : inode ≠ 0#32 := by
        intro hz
        rw [hz, BitVec.toNat_ofNat, Nat.zero_mod] at hnum
        exact absurd hnum.symm (Nat.succ_ne_zero _)
      constructor
      · intro hn
        obtain ⟨g', k', hk', hnear, hnum'⟩ := hn.nearest hne
        have hsame : g' = g := by
          apply BitVec.eq_of_toNat_eq
          have hquot : ∀ a b : Nat, b < sb.inodesPerGroup.toNat →
              (a * sb.inodesPerGroup.toNat + b) / sb.inodesPerGroup.toNat = a := by
            intro a b hb
            rw [Nat.mul_comm, Nat.mul_add_div (by omega), Nat.div_eq_of_lt hb, Nat.add_zero]
          rw [← hquot g'.toNat k' hk'.2.1, ← hquot g.toNat k hk.2.1]
          congr 1
          omega
        exact .inr ⟨g', hnear, hsame ▸ hs⟩
      · rintro (hfree | ⟨g', hnear, hs'⟩)
        · exact absurd hk (hfree g k)
        · refine ⟨fun hz => absurd hz hne, fun _ => ⟨g, k, hk, ⟨⟨k, hk⟩, ?_⟩, hnum⟩⟩
          intro g'' k'' hk''
          obtain ⟨k', hk'⟩ := hnear.1
          exact Nat.le_trans (hmin g' k' hk' hs') (hnear.2 g'' k'' hk'')

/-! ## An image of three groups -/

/-- The descriptors are in block 2 and the inode bitmaps in the blocks 11 to 13. All inodes of the
    first two groups are free, and none of the third. -/
def thirdFull : Superblock := { oneGroup with totalBlocks := 24576#32 }

def thirdFullBdev : Bdev where
  disk := fun a =>
    if 2048 ≤ a ∧ a < 2144 then
      match (a - 2048) % 32 with
      | 4 => BitVec.ofNat 8 (11 + (a - 2048) / 32)
      | 15 => if (a - 2048) / 32 < 2 then 0x20#8 else 0#8
      | _ => 0#8
    else if a < 13312 then 0#8
    else 0xFF#8
  result := fun _ => .success
  transfers := 0
  written := []

theorem thirdFull_cases {g : BitVec 32} (hg : g.toNat < thirdFull.groupTotal) :
    g = 0#32 ∨ g = 1#32 ∨ g = 2#32 := by
  have htotal : thirdFull.groupTotal = 3 := by decide
  rw [htotal] at hg
  bv_omega

theorem thirdFull_objBit {g : BitVec 32} {k : Nat} (hg : g.toNat < thirdFull.groupTotal)
    (hk : k < 8192) : thirdFull.objBit thirdFullBdev.disk g true k = decide (g = 2#32) := by
  have hlba : (thirdFull.bitmapLba thirdFullBdev.disk g true).toNat = 22 + 2 * g.toNat := by
    rcases thirdFull_cases hg with rfl | rfl | rfl <;> decide +kernel
  have hset : ∀ j < 8, (0xFF#8).getLsbD j = true := by decide
  have hlt := k.div_lt_of_lt_mul (show k < 8 * 1024 from hk)
  rw [Superblock.objBit, Superblock.bitPos, hlba, bitAt, sectorSize, Nat.mul_add_div (by decide)]
  simp only [thirdFullBdev]
  rw [if_neg (by omega)]
  by_cases htwo : g = 2#32
  · subst htwo
    rw [if_neg (by rw [show (2#32).toNat = 2 from rfl]; omega), hset _ (Nat.mod_lt _ (by decide))]
    rfl
  · have hg' : g.toNat < 2 := by
      rcases thirdFull_cases hg with rfl | rfl | rfl
      · decide
      · decide
      · exact absurd rfl htwo
    rw [if_pos (by omega), BitVec.getLsbD_zero, decide_eq_false htwo]

theorem thirdFull_freeInode_iff {g : BitVec 32} {k : Nat} :
    thirdFull.FreeInode thirdFullBdev.disk g k ↔ g.toNat < 2 ∧ k < 8192 := by
  have htotal : thirdFull.groupTotal = 3 := by decide
  have hinodes : thirdFull.inodesPerGroup.toNat = 8192 := by decide
  rw [Superblock.FreeInode, hinodes]
  constructor
  · rintro ⟨hg, hk, hclear⟩
    rw [thirdFull_objBit hg hk, decide_eq_false_iff_not] at hclear
    refine ⟨?_, hk⟩
    bv_omega
  · rintro ⟨hg, hk⟩
    have hlt : g.toNat < thirdFull.groupTotal := by omega
    refine ⟨hlt, hk, ?_⟩
    rw [thirdFull_objBit hlt hk, decide_eq_false_iff_not]
    bv_omega

theorem thirdFull_inodeImage : InodeImage thirdFull thirdFullBdev.disk where
  blocks_pos := by decide
  blocks := by decide
  inodes_le := by decide
  numbers := by decide
  padding := by
    intro g k _ hge hlt
    have hbits : thirdFull.bitmapBits = 8192 := by decide
    have hper : thirdFull.inodesPerGroup.toNat = 8192 := by decide
    omega
  counted := by
    intro g hg hzero k hfree
    rw [thirdFull_freeInode_iff] at hfree
    rcases thirdFull_cases hg with rfl | rfl | rfl
    · exact absurd hzero (by decide +kernel)
    · exact absurd hzero (by decide +kernel)
    · exact absurd hfree.1 (by decide)

/-- For a parent in the third group the first inode of the second one is taken. -/
theorem child_inode_iff_thirdFull :
    ∃ bdev', allocChildInode thirdFull thirdFullBdev 2#32 = some (8193#32, bdev') ∧
      NearestInode thirdFull thirdFullBdev.disk 2#32 8193#32 := by
  obtain ⟨inode, bdev', hrun, hiff⟩ :=
    child_inode_iff (p := 2#32) (fun _ => rfl) thirdFull_inodeImage (by decide)
  have hinode : (allocChildInode thirdFull thirdFullBdev 2#32).map Prod.fst = some 8193#32 := by
    decide +kernel
  obtain rfl : inode = 8193#32 := by simpa [hrun] using hinode
  refine ⟨bdev', hrun, hiff.mpr (.inr ⟨1#32, ⟨⟨0, ?_⟩, fun g k hk => ?_⟩, ?_⟩)⟩
  · exact thirdFull_freeInode_iff.mpr (by decide)
  · rw [thirdFull_freeInode_iff] at hk
    have hg := hk.1
    have hnear : groupDistance 1#32 2#32 = 1 := rfl
    rw [hnear, groupDistance, show (2#32).toNat = 2 from rfl]
    omega
  · exact ⟨by decide, .inl (by decide)⟩

/-! ## An image of one group -/

theorem oneGroup_groupTotal : oneGroup.groupTotal = 1 := by decide

/-- All inodes of the group are free. -/
theorem oneGroup_freeInode {k : Nat} (hk : k < 8192) :
    oneGroup.FreeInode (oneGroupBdev 0#8 0x20#8).disk 0#32 k := by
  have hbits : oneGroup.bitmapBits = 8192 := by decide
  refine ⟨by rw [oneGroup_groupTotal]; decide, hk, ?_⟩
  rw [oneGroupBdev, oneGroup_objBit (by decide +kernel) (by rw [hbits]; exact hk)]
  exact BitVec.getLsbD_zero

theorem oneGroup_inodeImage : InodeImage oneGroup (oneGroupBdev 0#8 0x20#8).disk where
  blocks_pos := by decide
  blocks := by decide
  inodes_le := by decide
  numbers := by decide
  padding := by
    intro g k _ hge hlt
    have hbits : oneGroup.bitmapBits = 8192 := by decide
    have hper : oneGroup.inodesPerGroup.toNat = 8192 := by decide
    omega
  counted := by
    intro g hg
    rw [oneGroup_groupTotal] at hg
    rw [lt_one hg]
    intro hz
    exact absurd hz (by decide +kernel)

/-- With one group the loop has no rounds. -/
theorem child_inode_missed : ¬ ∀ (sb : Superblock) (bdev : Bdev) (p : BitVec 32),
    (∀ n, bdev.result n = .success) → InodeImage sb bdev.disk → p.toNat < sb.groupTotal →
      ∃ inode bdev', allocChildInode sb bdev p = some (inode, bdev') ∧
        NearestInode sb bdev.disk p inode := by
  intro hall
  obtain ⟨inode, bdev', heq, hnear⟩ := hall oneGroup (oneGroupBdev 0#8 0x20#8) 0#32
    (fun _ => rfl) oneGroup_inodeImage (by decide)
  have hrun : allocChildInode oneGroup (oneGroupBdev 0#8 0x20#8) 0#32 =
      some (0#32, oneGroupBdev 0#8 0x20#8) := rfl
  obtain ⟨rfl, -⟩ : 0#32 = inode ∧ oneGroupBdev 0#8 0x20#8 = bdev' := by
    simpa [hrun] using heq
  exact hnear.none_free rfl 0#32 0 (oneGroup_freeInode (by decide))

end Muse.Ext2
