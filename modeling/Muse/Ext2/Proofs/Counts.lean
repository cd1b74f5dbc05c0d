import Mathlib.Data.List.Count
import Muse.Ext2.Proofs.AllocRuns

/-!
# The counts of free objects

`alloc_ext2_obj` tests the count in the descriptor of a group and sets a bit of the bitmap, but it
leaves the count as it was. So the counts stay right as long as no call finds anything to allocate,
and no longer: the first allocation takes a clear bit away that the descriptor still counts.
-/

namespace Muse.Ext2

open Muse.Library

variable {sb : Superblock} {bdev : Bdev} {disk : Bytes} {g : BitVec 32} {inode : Bool}
  {groups : Nat}

/-- A predicate that loses one of the numbers it held of holds of fewer. -/
theorem countP_range_lt {p q : Nat → Bool} {k n : Nat} (hk : k < n) (hp : p k = true)
    (hq : q k = false) (hle : ∀ i, i < n → q i = true → p i = true) :
    (List.range n).countP q < (List.range n).countP p := by
  induction n with
  | zero => exact absurd hk (Nat.not_lt_zero k)
  | succ n ih =>
      rw [List.range_succ, List.countP_append, List.countP_append]
      have hrest : (List.range n).countP q ≤ (List.range n).countP p := by
        apply List.countP_mono_left
        intro i hi
        exact hle i (Nat.lt_succ_of_lt (List.mem_range.mp hi))
      by_cases hlast : k = n
      · subst hlast
        simp only [List.countP_singleton, hp, hq, if_true, Bool.false_eq_true, if_false]
        omega
      · have hless := ih (by omega) fun i hi => hle i (Nat.lt_succ_of_lt hi)
        have hone : [n].countP q ≤ [n].countP p := by
          apply List.countP_mono_left
          intro i hi
          exact hle i (by rw [List.mem_singleton.mp hi]; exact Nat.lt_succ_self n)
        omega

/-- The other bits of the bitmap in which a bit is set. -/
theorem DescriptorsApart.objBit_set (h : DescriptorsApart sb groups disk) (hg : g.toNat < groups)
    {k q : Nat} (hk : k < sb.bitmapBits) :
    sb.objBit (setBitAt disk (sb.bitPos disk g inode k)) g inode q =
      (decide (q = k) || sb.objBit disk g inode q) := by
  have hpos : sb.bitPos (setBitAt disk (sb.bitPos disk g inode k)) g inode q =
      sb.bitPos disk g inode q := by
    rw [Superblock.bitPos, Superblock.bitmapLba, h.bitmapAddr hk hg hg, Superblock.bitPos,
      Superblock.bitmapLba]
  have hsame : sb.bitPos disk g inode q = sb.bitPos disk g inode k ↔ q = k := by
    rw [Superblock.bitPos, Superblock.bitPos]
    omega
  rw [Superblock.objBit, hpos, bitAt_setBitAt (by decide), Superblock.objBit]
  simp only [hsame]

/-- A bit that is taken is still counted. -/
theorem DescriptorsApart.not_counted (h : DescriptorsApart sb groups disk)
    (hcounted : Counted sb groups disk) (hg : g.toNat < groups) {k : Nat}
    (hlow : sb.LowestClear disk g inode k) :
    ¬ Counted sb groups (setBitAt disk (sb.bitPos disk g inode k)) := by
  intro hafter
  have hcount : sb.freeCount (setBitAt disk (sb.bitPos disk g inode k)) g inode =
      sb.freeCount disk g inode := by
    rw [Superblock.freeCount, h.descriptorAt hlow.lt hg hg, Superblock.freeCount]
  have hless : sb.clearBits (setBitAt disk (sb.bitPos disk g inode k)) g inode <
      sb.clearBits disk g inode := by
    apply countP_range_lt hlow.lt
    · rw [hlow.clear]
      rfl
    · rw [h.objBit_set hg hlow.lt]
      simp
    · intro i _ hi
      rw [h.objBit_set hg hlow.lt, Bool.not_or, Bool.and_eq_true] at hi
      exact hi.2
  have hbefore := hcounted g inode hg
  have hnow := hafter g inode hg
  rw [hcount] at hnow
  omega

/-- Where nothing is counted, nothing is allocated. -/
theorem allocExt2Obj_of_count_zero (hok : ∀ n, bdev.result n = .success)
    (hzero : sb.freeCount bdev.disk g inode = 0#16) :
    (allocExt2Obj sb bdev g inode).2.disk = bdev.disk ∧
      (allocExt2Obj sb bdev g inode).2.result = bdev.result := by
  have hcase := allocExt2Obj_cases sb (fun _ _ => hok _) g inode
  generalize allocExt2Obj sb bdev g inode = res at hcase
  cases hcase with
  | kept _ hdisk hresult => exact ⟨hdisk, hresult⟩
  | taken hcount _ _ _ => exact absurd hzero hcount

/-- Where something is counted and the counts are right, a clear bit is taken. -/
theorem allocExt2Obj_of_counted (inode : Bool) (hok : ∀ n, bdev.result n = .success)
    (hcounted : Counted sb groups bdev.disk) (hg : g.toNat < groups)
    (hcount : sb.freeCount bdev.disk g inode ≠ 0#16) :
    ∃ k, sb.LowestClear bdev.disk g inode k ∧ (allocExt2Obj sb bdev g inode).2.disk =
      setBitAt bdev.disk (sb.bitPos bdev.disk g inode k) := by
  have hcase := allocExt2Obj_cases sb (fun _ _ => hok _) g inode
  generalize allocExt2Obj sb bdev g inode = res at hcase
  cases hcase with
  | taken _ hlow hdisk _ => exact ⟨_, hlow, hdisk⟩
  | kept hnothing _ _ =>
      have hfull := hnothing.resolve_left hcount
      have hnone : sb.clearBits bdev.disk g inode = 0 := by
        apply List.countP_eq_zero.mpr
        intro k hk
        rw [hfull k (List.mem_range.mp hk)]
        decide
      have hsame := hcounted g inode hg
      rw [hnone] at hsame
      exact absurd (BitVec.eq_of_toNat_eq hsame) hcount

/-- From an image with the right counts, a sequence of calls keeps them if each call is for a kind
    of object that its group counts none of. Where no bitmap lies over a descriptor, these are the
    only sequences that do. -/
theorem counts_kept (sb : Superblock) (groups : Nat) (calls : List (BitVec 32 × Bool)) :
    ∀ bdev : Bdev, (∀ n, bdev.result n = .success) → Counted sb groups bdev.disk →
      (∀ call ∈ calls, call.1.toNat < groups) →
      ((∀ call ∈ calls, sb.freeCount bdev.disk call.1 call.2 = 0#16) →
          CountsKept sb groups bdev calls) ∧
        (DescriptorsApart sb groups bdev.disk → CountsKept sb groups bdev calls →
          ∀ call ∈ calls, sb.freeCount bdev.disk call.1 call.2 = 0#16) := by
  induction calls with
  | nil =>
      intro bdev _ _ _
      exact ⟨fun _ => trivial, fun _ _ call hcall => absurd hcall List.not_mem_nil⟩
  | cons call calls ih =>
      intro bdev hok hcounted hgroups
      obtain ⟨g, inode⟩ := call
      have hg : g.toNat < groups := hgroups (g, inode) List.mem_cons_self
      have hrest : ∀ call ∈ calls, call.1.toNat < groups :=
        fun call hcall => hgroups call (List.mem_cons_of_mem _ hcall)
      by_cases hzero : sb.freeCount bdev.disk g inode = 0#16
      · -- nothing changes, and the rest of the calls starts from the same disk
        obtain ⟨hdisk, hresult⟩ := allocExt2Obj_of_count_zero hok hzero
        have hnext := ih (allocExt2Obj sb bdev g inode).2 (by rw [hresult]; exact hok)
          (by rw [hdisk]; exact hcounted) hrest
        rw [hdisk] at hnext
        constructor
        · intro hall
          refine ⟨fun hlights => hlights.1 hzero, ?_, ?_⟩
          · rw [hdisk]
            exact hcounted
          · exact hnext.1 fun call hcall => hall call (List.mem_cons_of_mem _ hcall)
        · intro hapart hkept call hcall
          rcases List.mem_cons.mp hcall with hfirst | hlater
          · rw [hfirst]
            exact hzero
          · exact hnext.2 hapart hkept.2.2 call hlater
      · constructor
        · intro hall
          exact absurd (hall (g, inode) List.mem_cons_self) hzero
        · intro hapart hkept
          obtain ⟨k, hlow, hdisk⟩ := allocExt2Obj_of_counted inode hok hcounted hg hzero
          have hafter := hkept.2.1
          rw [hdisk] at hafter
          exact absurd hafter (hapart.not_counted hcounted hg hlow)

/-! ## An image of one group -/

/-- One group with blocks of 1 KiB, its descriptor in block 2 and its bitmaps in the blocks 10 and
    11. The descriptor counts `256 * high` free objects of each kind. -/
def oneGroup : Superblock := ⟨8192#32, 0#32, 0#32, 8192#32, 8192#32, 0#32, 128#16⟩

def oneGroupDisk (fill high : BitVec 8) : Bytes := fun a =>
  if 2048 ≤ a ∧ a < 2080 then
    match a - 2048 with
    | 0 => 10#8
    | 4 => 11#8
    | 13 => high
    | 15 => high
    | _ => 0#8
  else fill

/-- A device without errors. -/
def oneGroupBdev (fill high : BitVec 8) : Bdev :=
  ⟨oneGroupDisk fill high, fun _ => .success, 0, []⟩

theorem lt_one (h : g.toNat < 1) : g = 0#32 := by
  bv_omega

/-- The bitmaps are made of the byte `fill`. -/
theorem oneGroup_objBit {fill high : BitVec 8}
    (hlba : (oneGroup.bitmapLba (oneGroupDisk fill high) 0#32 inode).toNat =
      if inode then 22 else 20) {k : Nat} (hk : k < oneGroup.bitmapBits) :
    oneGroup.objBit (oneGroupDisk fill high) 0#32 inode k = fill.getLsbD (k % 8) := by
  have hbits : oneGroup.bitmapBits = 8192 := by decide
  rw [hbits] at hk
  rw [Superblock.objBit, Superblock.bitPos, hlba, bitAt, sectorSize, oneGroupDisk, if_neg]
  · congr 1
    split <;> omega
  · split <;> omega

/-- With full bitmaps and counts of zero no call allocates. -/
theorem counts_kept_full :
    Counted oneGroup 1 (oneGroupDisk 0xFF#8 0#8) ∧
      CountsKept oneGroup 1 (oneGroupBdev 0xFF#8 0#8) [(0#32, true), (0#32, false)] := by
  have hcounted : Counted oneGroup 1 (oneGroupDisk 0xFF#8 0#8) := by
    intro g inode hg
    rw [lt_one hg]
    have hclear : oneGroup.clearBits (oneGroupDisk 0xFF#8 0#8) 0#32 inode = 0 := by
      apply List.countP_eq_zero.mpr
      intro k hk
      have hlba : (oneGroup.bitmapLba (oneGroupDisk 0xFF#8 0#8) 0#32 inode).toNat =
          if inode then 22 else 20 := by
        cases inode <;> decide +kernel
      rw [oneGroup_objBit hlba (List.mem_range.mp hk)]
      have hset : ∀ j, j < 8 → (0xFF#8).getLsbD j = true := by decide
      rw [hset _ (Nat.mod_lt k (by decide))]
      decide
    rw [hclear]
    cases inode <;> decide +kernel
  have hcall : ∀ call ∈ [((0#32 : BitVec 32), true), (0#32, false)], call.1 = 0#32 := by
    simp
  have hgroups : ∀ call ∈ [((0#32 : BitVec 32), true), (0#32, false)], call.1.toNat < 1 := by
    intro call hmem
    rw [hcall call hmem]
    decide
  have hcount : ∀ inode, oneGroup.freeCount (oneGroupDisk 0xFF#8 0#8) 0#32 inode = 0#16 := by
    intro inode
    cases inode <;> decide +kernel
  have hzero : ∀ call ∈ [((0#32 : BitVec 32), true), (0#32, false)],
      oneGroup.freeCount (oneGroupDisk 0xFF#8 0#8) call.1 call.2 = 0#16 := by
    intro call hmem
    rw [hcall call hmem, hcount]
  exact ⟨hcounted, (counts_kept oneGroup 1 [(0#32, true), (0#32, false)]
    (oneGroupBdev 0xFF#8 0#8) (fun _ => rfl) hcounted hgroups).1 hzero⟩

/-- The descriptor of a group whose bitmaps are empty counts all 8192 objects. The first allocation
    leaves it so. -/
theorem count_not_kept :
    ¬ ∀ (sb : Superblock) (groups : Nat) (bdev : Bdev) (calls : List (BitVec 32 × Bool)),
      (∀ n, bdev.result n = .success) → Counted sb groups bdev.disk →
        (∀ call ∈ calls, call.1.toNat < groups) → CountsKept sb groups bdev calls := by
  intro hall
  have hcounted : Counted oneGroup 1 (oneGroupDisk 0#8 0x20#8) := by
    intro g inode hg
    rw [lt_one hg]
    have hclear : oneGroup.clearBits (oneGroupDisk 0#8 0x20#8) 0#32 inode = 8192 := by
      have hlength : (List.range oneGroup.bitmapBits).length = 8192 := by
        rw [List.length_range]
        decide
      rw [← hlength]
      apply List.countP_eq_length.mpr
      intro k hk
      have hlba : (oneGroup.bitmapLba (oneGroupDisk 0#8 0x20#8) 0#32 inode).toNat =
          if inode then 22 else 20 := by
        cases inode <;> decide +kernel
      rw [oneGroup_objBit hlba (List.mem_range.mp hk)]
      simp
    rw [hclear]
    cases inode <;> decide +kernel
  have hapart : DescriptorsApart oneGroup 1 (oneGroupDisk 0#8 0x20#8) := by
    intro g g' inode hg hg'
    rw [lt_one hg, lt_one hg']
    cases inode <;> decide +kernel
  have hkept := hall oneGroup 1 (oneGroupBdev 0#8 0x20#8) [(0#32, true)] (fun _ => rfl) hcounted
    (by simp)
  obtain ⟨k, hlow, hdisk⟩ := allocExt2Obj_of_counted (g := 0#32) true
    (show ∀ n, (oneGroupBdev 0#8 0x20#8).result n = .success from fun _ => rfl) hcounted
    (by decide) (by decide +kernel)
  have hafter := hkept.2.1
  rw [hdisk] at hafter
  exact hapart.not_counted hcounted (by decide) hlow hafter

end Muse.Ext2
