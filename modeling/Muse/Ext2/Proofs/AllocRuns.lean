import Muse.Ext2.Bitmaps
import Muse.Ext2.Proofs.Alloc

/-!
# Runs of allocations hand out no object twice

`allocExt2Obj_cases` says what one call does on any image of an error-free device. From it: while
the descriptors stay as they are and the bitmaps do not overlap, each number that was handed out
belongs to a bit that is set, so a call that takes a clear bit returns a new number.
-/

namespace Muse.Ext2

open Muse.Library

variable {sb : Superblock} {bdev : Bdev} {disk : Bytes} {g g' : BitVec 32} {inode inode' : Bool}

/-! ## One call -/

theorem Superblock.dvd_blockSize (sb : Superblock) : 512 ∣ sb.blockSize.toNat := by
  rw [Superblock.blockSize, BitVec.shiftLeft_eq', BitVec.toNat_shiftLeft, Nat.shiftLeft_eq]
  refine (Nat.dvd_mod_iff (by decide)).mpr ?_
  exact Nat.dvd_trans (by decide) (Nat.dvd_mul_right _ _)

theorem Superblock.blockSectors_mul (sb : Superblock) :
    sectorSize * sb.blockSectors.toNat = sb.blockSize.toNat := by
  rw [Superblock.blockSectors, BitVec.toNat_udiv]
  exact Nat.mul_div_cancel' sb.dvd_blockSize

theorem descriptorTransfer_eq (sb : Superblock) (hok : bdev.next = .success) (d : GroupDescriptor) :
    groupDescriptorTransfer sb bdev g d .read =
      (.success, sb.descriptorAt bdev.disk g, bdev.tick) := by
  unfold groupDescriptorTransfer
  simp only [Bdev.read_fresh hok, ne_eq, not_true_eq_false, if_false]
  rfl

/-- The bits of a part of the disk. -/
theorem bitAt_slice {a n k : Nat} (hk : k < 8 * n) :
    bitAt (disk.slice a n) k = bitAt disk (8 * a + k) := by
  rw [bitAt, bitAt, Bytes.slice_of_lt (by omega), show (8 * a + k) / 8 = a + k / 8 by omega,
    show (8 * a + k) % 8 = k % 8 by omega]

/-- Writing back a part of the disk with one more bit set. -/
theorem splice_setBitAt {a n k : Nat} (hk : k < 8 * n) :
    disk.splice a n (setBitAt (disk.slice a n) k) = setBitAt disk (8 * a + k) := by
  have hdiv : (8 * a + k) / 8 = a + k / 8 := by omega
  have hmod : (8 * a + k) % 8 = k % 8 := by omega
  funext i
  rw [setBitAt, setBitAt, hdiv, hmod]
  by_cases hin : a ≤ i ∧ i < a + n
  · rw [Bytes.splice_of_mem hin.1 hin.2]
    by_cases hi : i = a + k / 8
    · have hsub : i - a = k / 8 := by omega
      rw [hsub, Function.update_self, hi, Function.update_self, Bytes.slice_of_lt (by omega)]
    · have hsub : i - a ≠ k / 8 := by omega
      rw [Function.update_of_ne hsub, Function.update_of_ne hi, Bytes.slice_of_lt (by omega),
        Nat.add_sub_cancel' hin.1]
  · have hi : i ≠ a + k / 8 := by omega
    rw [Bytes.splice_of_not_mem (by omega), Function.update_of_ne hi]

/-- A call on a device without errors. -/
inductive AllocCase (sb : Superblock) (bdev : Bdev) (g : BitVec 32) (inode : Bool) :
    BitVec 32 × Bdev → Prop
  | kept {bdev' : Bdev} : sb.NothingFree bdev.disk g inode → bdev'.disk = bdev.disk →
      bdev'.result = bdev.result → AllocCase sb bdev g inode (0#32, bdev')
  | taken {bdev' : Bdev} {k : Nat} : sb.freeCount bdev.disk g inode ≠ 0#16 →
      sb.LowestClear bdev.disk g inode k →
      bdev'.disk = setBitAt bdev.disk (sb.bitPos bdev.disk g inode k) →
      bdev'.result = bdev.result → AllocCase sb bdev g inode (sb.objNumber g inode k, bdev')

/-- A call that finds the bitmap to be searched: it takes what the search finds. -/
theorem allocExt2Obj_search (hok : ∀ i < 4, bdev.result (bdev.transfers + i) = .success)
    (hcount : sb.freeCount bdev.disk g inode ≠ 0#16) :
    allocExt2Obj sb bdev g inode =
      match findClear (bdev.disk.slice (sectorSize * (sb.bitmapLba bdev.disk g inode).toNat)
        sb.blockSize.toNat) 0 sb.blockSize.toNat with
      | none => (0#32, bdev.tick.tick.tick)
      | some (i, j) => (sb.objNumber g inode (8 * i + j),
          bdev.tick.tick.tick.wrote .bitmap (sb.bitmapLba bdev.disk g inode) sb.blockSectors
            (setBitAt (bdev.disk.slice (sectorSize * (sb.bitmapLba bdev.disk g inode).toNat)
              sb.blockSize.toNat) (8 * i + j))) := by
  have ok0 : bdev.next = .success := hok 0 (by decide)
  have ok1 : bdev.tick.next = .success := hok 1 (by decide)
  have ok2 : bdev.tick.tick.next = .success := hok 2 (by decide)
  have ok3 : bdev.tick.tick.tick.next = .success := hok 3 (by decide)
  have hread : bdev.tick.tick.read (sb.bitmapLba bdev.disk g inode) sb.blockSectors fresh =
      (.success, bdev.disk.slice (sectorSize * (sb.bitmapLba bdev.disk g inode).toNat)
        sb.blockSize.toNat, bdev.tick.tick.tick) := by
    rw [Bdev.read_fresh ok2, sb.blockSectors_mul]
    rfl
  have hset : ∀ (bitmap : Bytes) (i j : Nat), j < 8 →
      Function.update bitmap i (bitmap i ||| 1#8 <<< j) = setBitAt bitmap (8 * i + j) := by
    intro bitmap i j hj
    rw [setBitAt, show (8 * i + j) / 8 = i by omega, show (8 * i + j) % 8 = j by omega]
  have hnum : ∀ i j : Nat,
      BitVec.ofNat 32 (8 * i + j) = BitVec.ofNat 32 (i * 8) + BitVec.ofNat 32 j := by
    intro i j
    rw [← BitVec.ofNat_add, Nat.mul_comm]
  unfold allocExt2Obj
  have hd := descriptorTransfer_eq (g := g) sb ok0
  have hd' := descriptorTransfer_eq (g := g) sb ok1
  have hdisk : bdev.tick.disk = bdev.disk := rfl
  rw [hdisk] at hd'
  have hwrite : ∀ (lba count : BitVec 32) (buf : Bytes),
      bdev.tick.tick.tick.write .bitmap lba count buf =
        (.success, bdev.tick.tick.tick.wrote .bitmap lba count buf) :=
    fun lba count buf => Bdev.write_ok ok3 .bitmap lba count buf
  cases inode with
  | true =>
      simp only [Superblock.freeCount, Superblock.bitmapLba, Superblock.bitmapAddr, if_true]
        at hcount hread ⊢
      simp only [hd, hd', hread, hcount, ne_eq, not_true_eq_false, and_false, false_and, if_false]
      cases hfind : findClear _ 0 sb.blockSize.toNat with
      | none => rfl
      | some found =>
          obtain ⟨-, hj, -, -⟩ := findClear_some hfind
          simp only [hwrite, hset _ _ _ hj, not_true_eq_false, if_false, Superblock.objNumber,
            Superblock.perGroup, if_true, hnum, BitVec.add_assoc]
  | false =>
      simp only [Superblock.freeCount, Superblock.bitmapLba, Superblock.bitmapAddr,
        Bool.false_eq_true, if_false] at hcount hread ⊢
      simp only [hd, hd', hread, hcount, ne_eq, not_true_eq_false, and_false, false_and, if_false]
      cases hfind : findClear _ 0 sb.blockSize.toNat with
      | none => rfl
      | some found =>
          obtain ⟨-, hj, -, -⟩ := findClear_some hfind
          simp only [hwrite, hset _ _ _ hj, not_true_eq_false, if_false, Superblock.objNumber,
            Superblock.perGroup, Bool.false_eq_true, hnum, BitVec.add_assoc, BitVec.add_zero]

/-- A call whose transfers do not fail. -/
theorem allocExt2Obj_cases (sb : Superblock)
    (hok : ∀ i < 4, bdev.result (bdev.transfers + i) = .success) (g : BitVec 32) (inode : Bool) :
    AllocCase sb bdev g inode (allocExt2Obj sb bdev g inode) := by
  have hnext : bdev.next = .success := hok 0 (by decide)
  by_cases hcount : sb.freeCount bdev.disk g inode = 0#16
  · have hkept : allocExt2Obj sb bdev g inode = (0#32, bdev.tick) := by
      unfold allocExt2Obj
      cases inode <;>
        simp only [Superblock.freeCount, if_true, Bool.false_eq_true, if_false] at hcount <;>
        simp [descriptorTransfer_eq sb hnext, hcount]
    rw [hkept]
    exact .kept (.inl hcount) rfl rfl
  · rw [allocExt2Obj_search hok hcount]
    have hbit : ∀ k, k < sb.bitmapBits →
        bitAt (bdev.disk.slice (sectorSize * (sb.bitmapLba bdev.disk g inode).toNat)
          sb.blockSize.toNat) k = sb.objBit bdev.disk g inode k := fun k hk => bitAt_slice hk
    cases hfind : findClear (bdev.disk.slice (sectorSize *
        (sb.bitmapLba bdev.disk g inode).toNat) sb.blockSize.toNat) 0 sb.blockSize.toNat with
    | none =>
        refine .kept (.inr ?_) rfl rfl
        intro k hk
        rw [← hbit k hk]
        apply findClear_none hfind k (Nat.zero_le _)
        rw [Nat.zero_add]
        exact hk
    | some found =>
        obtain ⟨hi, hj, hclear, hlow⟩ := findClear_some hfind
        have hk : 8 * found.1 + found.2 < sb.bitmapBits := by
          rw [Superblock.bitmapBits]
          omega
        refine .taken hcount ⟨hk, ?_, ?_⟩ ?_ rfl
        · rw [← hbit _ hk]
          exact hclear
        · intro q hq
          rw [← hbit q (Nat.lt_trans hq hk)]
          exact hlow q (Nat.zero_le _) hq
        · show bdev.disk.splice _ (sectorSize * sb.blockSectors.toNat) _ = _
          rw [sb.blockSectors_mul]
          exact splice_setBitAt hk

/-! ## Bits and descriptors after an allocation -/

variable {groups : Nat}

theorem setBitAt_of_ne {p i : Nat} (h : i ≠ p / 8) : setBitAt disk p i = disk i := by
  rw [setBitAt, Function.update_of_ne h]

/-- A bit of a bitmap that does not lie over the descriptors leaves them as they are. -/
theorem DescriptorsApart.descriptorAt (h : DescriptorsApart sb groups disk) {k : Nat}
    (hk : k < sb.bitmapBits) (hg : g.toNat < groups) (hg' : g'.toNat < groups) :
    sb.descriptorAt (setBitAt disk (sb.bitPos disk g inode k)) g' = sb.descriptorAt disk g' := by
  have hsize := sb.blockSectors_mul
  have hapart := h g' g inode hg' hg
  have hsector : Bytes.slice (setBitAt disk (sb.bitPos disk g inode k))
      (sectorSize * (sb.descriptorLba g').toNat) sectorSize =
        disk.slice (sectorSize * (sb.descriptorLba g').toNat) sectorSize := by
    apply Bytes.slice_congr
    intro i hi
    apply setBitAt_of_ne
    rw [Superblock.bitPos]
    rw [Superblock.bitmapBits] at hk
    rw [sectorSize] at *
    omega
  rw [Superblock.descriptorAt, hsector, Superblock.descriptorAt]

theorem DescriptorsApart.bitmapAddr (h : DescriptorsApart sb groups disk) {k : Nat}
    (hk : k < sb.bitmapBits) (hg : g.toNat < groups) (hg' : g'.toNat < groups) :
    sb.bitmapAddr (setBitAt disk (sb.bitPos disk g inode k)) g' inode' =
      sb.bitmapAddr disk g' inode' := by
  rw [Superblock.bitmapAddr, h.descriptorAt hk hg hg', Superblock.bitmapAddr]

/-- The first byte of a bitmap. -/
theorem BitmapImage.bitmapLba_mul (h : BitmapImage sb groups disk) (hg : g.toNat < groups) :
    sectorSize * (sb.bitmapLba disk g inode).toNat =
      (sb.bitmapAddr disk g inode).toNat * sb.blockSize.toNat := by
  rw [Superblock.bitmapLba, Superblock.blockLba, BitVec.toNat_udiv, BitVec.toNat_mul,
    Nat.mod_eq_of_lt (h.noWrap g inode hg)]
  exact Nat.mul_div_cancel' (Nat.dvd_mul_left_of_dvd sb.dvd_blockSize _)

/-- Different bits of the bitmaps are in different places. -/
theorem BitmapImage.bitPos_inj (h : BitmapImage sb groups disk) (hg : g.toNat < groups)
    (hg' : g'.toNat < groups) {k q : Nat} (hk : k < sb.bitmapBits) (hq : q < sb.bitmapBits)
    (heq : sb.bitPos disk g' inode' q = sb.bitPos disk g inode k) :
    g' = g ∧ inode' = inode ∧ q = k := by
  rw [Superblock.bitPos, Superblock.bitPos, h.bitmapLba_mul hg, h.bitmapLba_mul hg'] at heq
  rw [Superblock.bitmapBits] at hk hq
  have haddr : sb.bitmapAddr disk g' inode' = sb.bitmapAddr disk g inode := by
    apply BitVec.eq_of_toNat_eq
    have hsize : 0 < 8 * sb.blockSize.toNat := by omega
    have hfirst := Nat.add_mul_div_left q (sb.bitmapAddr disk g' inode').toNat hsize
    have hsecond := Nat.add_mul_div_left k (sb.bitmapAddr disk g inode).toNat hsize
    rw [Nat.div_eq_of_lt hq] at hfirst
    rw [Nat.div_eq_of_lt hk] at hsecond
    have hsame : q + 8 * sb.blockSize.toNat * (sb.bitmapAddr disk g' inode').toNat =
        k + 8 * sb.blockSize.toNat * (sb.bitmapAddr disk g inode).toNat := by
      rw [Nat.mul_assoc, Nat.mul_assoc, Nat.mul_comm sb.blockSize.toNat,
        Nat.mul_comm sb.blockSize.toNat]
      omega
    rw [hsame] at hfirst
    omega
  obtain ⟨hsame, hkind⟩ := h.distinct g' inode' g inode hg' hg haddr
  rw [haddr] at heq
  exact ⟨hsame, hkind, by omega⟩

/-- The bitmaps after bit `k` of one of them is set. -/
theorem BitmapImage.objBit_set (h : BitmapImage sb groups disk)
    (hapart : DescriptorsApart sb groups disk) (hg : g.toNat < groups) (hg' : g'.toNat < groups)
    {k q : Nat} (hk : k < sb.bitmapBits) (hq : q < sb.bitmapBits) :
    sb.objBit (setBitAt disk (sb.bitPos disk g inode k)) g' inode' q =
      (decide (g' = g ∧ inode' = inode ∧ q = k) || sb.objBit disk g' inode' q) := by
  have hpos : sb.bitPos (setBitAt disk (sb.bitPos disk g inode k)) g' inode' q =
      sb.bitPos disk g' inode' q := by
    rw [Superblock.bitPos, Superblock.bitmapLba, hapart.bitmapAddr hk hg hg', Superblock.bitPos,
      Superblock.bitmapLba]
  have hsame : (sb.bitPos disk g' inode' q = sb.bitPos disk g inode k) ↔
      (g' = g ∧ inode' = inode ∧ q = k) := by
    constructor
    · exact h.bitPos_inj hg hg' hk hq
    · rintro ⟨rfl, rfl, rfl⟩
      rfl
  rw [Superblock.objBit, hpos, bitAt_setBitAt (by decide), Superblock.objBit]
  simp only [hsame]

/-- An allocation leaves the image one. -/
theorem BitmapImage.set (inode : Bool) (h : BitmapImage sb groups disk)
    (hapart : DescriptorsApart sb groups disk) (hg : g.toNat < groups) {k : Nat}
    (hk : k < sb.bitmapBits) :
    BitmapImage sb groups (setBitAt disk (sb.bitPos disk g inode k)) ∧
      DescriptorsApart sb groups (setBitAt disk (sb.bitPos disk g inode k)) := by
  refine ⟨⟨?_, ?_, ?_⟩, ?_⟩
  · intro g' inode' hg'
    rw [hapart.bitmapAddr hk hg hg']
    exact h.noWrap g' inode' hg'
  · intro g₁ i₁ g₂ i₂ h₁ h₂ heq
    rw [hapart.bitmapAddr hk hg h₁, hapart.bitmapAddr hk hg h₂] at heq
    exact h.distinct g₁ i₁ g₂ i₂ h₁ h₂ heq
  · intro g' inode' q hg' hper hq
    rw [h.objBit_set hapart hg hg' hk hq, h.beyond g' inode' q hg' hper hq, Bool.or_true]
  · intro g₁ g₂ i₂ h₁ h₂
    rw [Superblock.bitmapLba, hapart.bitmapAddr hk hg h₂]
    exact hapart g₁ g₂ i₂ h₁ h₂

/-! ## Numbers -/

/-- A number belongs to one bit of one group. -/
theorem NumbersFit.objNumber_inj (h : NumbersFit sb groups) (hg : g.toNat < groups)
    (hg' : g'.toNat < groups) {k q : Nat} (hk : k < (sb.perGroup inode).toNat)
    (hq : q < (sb.perGroup inode).toNat)
    (heq : sb.objNumber g inode k = sb.objNumber g' inode q) : g = g' ∧ k = q := by
  have hfits := h inode
  have hsmall : ∀ (x : BitVec 32) (m : Nat), x.toNat < groups → m < (sb.perGroup inode).toNat →
      (x * sb.perGroup inode + BitVec.ofNat 32 m).toNat =
        (sb.perGroup inode).toNat * x.toNat + m := by
    intro x m hx hm
    have hle : (x.toNat + 1) * (sb.perGroup inode).toNat ≤ groups * (sb.perGroup inode).toNat :=
      Nat.mul_le_mul_right _ hx
    rw [Nat.add_one_mul] at hle
    have hmul : x.toNat * (sb.perGroup inode).toNat < 2 ^ 32 := by omega
    rw [BitVec.toNat_add, BitVec.toNat_mul, BitVec.toNat_ofNat, Nat.mod_eq_of_lt hmul,
      Nat.mul_comm x.toNat] at *
    omega
  have hadd : g * sb.perGroup inode + BitVec.ofNat 32 k =
      g' * sb.perGroup inode + BitVec.ofNat 32 q := (BitVec.add_left_inj _).mp heq
  have hnat := congrArg BitVec.toNat hadd
  rw [hsmall g k hg hk, hsmall g' q hg' hq] at hnat
  have hdiv := congrArg (· / (sb.perGroup inode).toNat) hnat
  have hpos : 0 < (sb.perGroup inode).toNat := by omega
  simp only [Nat.mul_add_div hpos, Nat.div_eq_of_lt hk, Nat.div_eq_of_lt hq, Nat.add_zero] at hdiv
  rw [hdiv] at hnat
  exact ⟨BitVec.eq_of_toNat_eq hdiv, by omega⟩

/-! ## Runs -/

namespace AllocRun

/-- Each number that was handed out belongs to a bit that is set. -/
structure Inv (sb : Superblock) (groups : Nat) (s : AllocRun) : Prop where
  ok : ∀ n, s.bdev.result n = .success
  image : BitmapImage sb groups s.bdev.disk
  apart : DescriptorsApart sb groups s.bdev.disk
  marked : ∀ r ∈ s.returned, r.2 ≠ 0#32 → ∃ (g : BitVec 32) (k : Nat), g.toNat < groups ∧
    k < (sb.perGroup r.1).toNat ∧ k < sb.bitmapBits ∧ sb.objBit s.bdev.disk g r.1 k = true ∧
      r.2 = sb.objNumber g r.1 k
  unique : s.returned.Pairwise fun a b => a.1 = b.1 → a.2 ≠ 0#32 → a.2 ≠ b.2

variable {s s' : AllocRun}

theorem Inv.kept {bdev' : Bdev} (h : s.Inv sb groups) (hdisk : bdev'.disk = s.bdev.disk)
    (hresult : bdev'.result = s.bdev.result) :
    Inv sb groups ⟨bdev', (inode, 0#32) :: s.returned⟩ := by
  refine ⟨?_, ?_, ?_, ?_, ?_⟩
  · rw [hresult]
    exact h.ok
  · rw [hdisk]
    exact h.image
  · rw [hdisk]
    exact h.apart
  · rw [hdisk]
    intro r hr hne
    rcases List.mem_cons.mp hr with hnew | hold
    · rw [hnew] at hne
      exact absurd rfl hne
    · exact h.marked r hold hne
  · refine List.pairwise_cons.mpr ⟨?_, h.unique⟩
    intro r _ _ hne
    exact absurd rfl hne

theorem Inv.taken {bdev' : Bdev} {k : Nat} (h : s.Inv sb groups) (hfit : NumbersFit sb groups)
    (hg : g.toNat < groups) (hlow : sb.LowestClear s.bdev.disk g inode k)
    (hdisk : bdev'.disk = setBitAt s.bdev.disk (sb.bitPos s.bdev.disk g inode k))
    (hresult : bdev'.result = s.bdev.result) :
    Inv sb groups ⟨bdev', (inode, sb.objNumber g inode k) :: s.returned⟩ := by
  obtain ⟨himage, hapart⟩ := h.image.set inode h.apart hg hlow.lt
  have hper : k < (sb.perGroup inode).toNat := by
    by_contra hge
    have hset := h.image.beyond g inode k hg (Nat.le_of_not_lt hge) hlow.lt
    rw [hlow.clear] at hset
    cases hset
  refine ⟨?_, ?_, ?_, ?_, ?_⟩
  · rw [hresult]
    exact h.ok
  · rw [hdisk]
    exact himage
  · rw [hdisk]
    exact hapart
  · rw [hdisk]
    intro r hr hne
    rcases List.mem_cons.mp hr with hnew | hold
    · subst hnew
      refine ⟨g, k, hg, hper, hlow.lt, ?_, rfl⟩
      rw [h.image.objBit_set h.apart hg hg hlow.lt hlow.lt]
      simp
    · obtain ⟨g', q, hg', hq, hqbits, hset, hnum⟩ := h.marked r hold hne
      refine ⟨g', q, hg', hq, hqbits, ?_, hnum⟩
      rw [h.image.objBit_set h.apart hg hg' hlow.lt hqbits, hset, Bool.or_true]
  · refine List.pairwise_cons.mpr ⟨?_, h.unique⟩
    intro r hr hkind hne heq
    obtain ⟨g', q, hg', hq, hqbits, hset, hnum⟩ := h.marked r hr (heq ▸ hne)
    -- the bit of the old number is set, that of the new one was clear
    simp only at hkind heq
    subst hkind
    rw [hnum] at heq
    obtain ⟨hsame, hkq⟩ := hfit.objNumber_inj hg hg' hper hq heq
    rw [← hsame, ← hkq, hlow.clear] at hset
    cases hset

/-- Each call for one of the groups keeps the invariant. -/
theorem Inv.step (h : s.Inv sb groups) (hfit : NumbersFit sb groups) (hg : g.toNat < groups)
    (hs : step sb s (g, inode) = some s') : s'.Inv sb groups := by
  have hcase := allocExt2Obj_cases sb (fun _ _ => h.ok _) g inode
  simp only [AllocRun.step, Option.some.injEq] at hs
  subst hs
  generalize allocExt2Obj sb s.bdev g inode = res at hcase
  cases hcase with
  | kept _ hdisk hresult => exact h.kept hdisk hresult
  | taken _ hlow hdisk hresult => exact h.taken hfit hg hlow hdisk hresult

/-- What a call does follows from the error-free device alone. -/
theorem callExact (hok : ∀ n, s.bdev.result n = .success) (g : BitVec 32) (inode : Bool) :
    CallExact sb s g inode := by
  have hcase := allocExt2Obj_cases sb (fun _ _ => hok _) g inode
  constructor
  · intro hne
    generalize allocExt2Obj sb s.bdev g inode = res at hcase hne
    cases hcase with
    | kept _ _ _ => exact absurd rfl hne
    | taken _ hlow hdisk _ => exact ⟨_, hlow, hdisk⟩
  · intro hnothing
    generalize allocExt2Obj sb s.bdev g inode = res at hcase
    cases hcase with
    | kept _ hdisk _ => exact ⟨rfl, hdisk⟩
    | taken hcount hlow _ _ =>
        rcases hnothing with hzero | hfull
        · exact absurd hzero hcount
        · have hset := hfull _ hlow.lt
          rw [hlow.clear] at hset
          cases hset

/-- In every run of calls for the groups of an image whose bitmaps overlap neither each other nor
    the descriptors, and whose objects have 32-bit numbers, every call takes the lowest clear bit or
    nothing, and no object is handed out twice. -/
theorem allocations_unique (sb : Superblock) (groups : Nat) (disk : Bytes)
    (himage : BitmapImage sb groups disk) (hapart : DescriptorsApart sb groups disk)
    (hfit : NumbersFit sb groups) (s : AllocRun)
    (hr : Reaches (step sb) (fun _ call => call.1.toNat < groups) (start disk) s) :
    s.Sound sb groups := by
  have hinv : s.Inv sb groups := by
    refine hr.invariant ⟨fun _ => rfl, himage, hapart, ?_, List.Pairwise.nil⟩ ?_
    · intro r hr
      cases hr
    · intro t call t' ht hg hs
      exact ht.step hfit hg hs
  exact ⟨fun g inode _ => callExact hinv.ok g inode, hinv.unique⟩

/-! ## Small images -/

/-- Three groups with blocks of 1 KiB and 8192 blocks each. -/
def threeGroups (inodesPerGroup : BitVec 32) : Superblock :=
  ⟨24576#32, 0#32, 0#32, 8192#32, inodesPerGroup, 0#32, 128#16⟩

/-- The descriptors are in block 2, the block bitmap of group `g` is in block `10 + 2 * g`. The
    blocks 10 and 11 begin with the byte `used`. -/
def threeGroupsDisk (inodeBitmap : Nat → BitVec 8) (used : BitVec 8) : Bytes := fun a =>
  if 2048 ≤ a ∧ a < 2144 then
    match a % 32 with
    | 0 => BitVec.ofNat 8 (10 + 2 * ((a - 2048) / 32))
    | 4 => inodeBitmap ((a - 2048) / 32)
    | 12 => 1#8
    | 14 => 1#8
    | _ => 0#8
  else if a = 10240 ∨ a = 11264 then used
  else 0#8

/-- The inode bitmap of group `g` is in block `11 + 2 * g`. -/
def behindBlockBitmap (g : Nat) : BitVec 8 := BitVec.ofNat 8 (11 + 2 * g)

theorem lt_three {g : BitVec 32} (h : g.toNat < 3) : g = 0#32 ∨ g = 1#32 ∨ g = 2#32 := by
  bv_omega

theorem threeGroups_beyond {n : BitVec 32} (hn : 8192 ≤ n.toNat) {inode : Bool} {k : Nat}
    (hper : ((threeGroups n).perGroup inode).toNat ≤ k) : ¬ k < (threeGroups n).bitmapBits := by
  have hbits : (threeGroups n).bitmapBits = 8192 := by
    show 8 * (1024#32 <<< 0#32).toNat = 8192
    decide
  rw [hbits]
  cases inode with
  | true =>
      have hle : n.toNat ≤ k := hper
      omega
  | false =>
      have hle : (8192#32).toNat ≤ k := hper
      simp only [BitVec.toNat_ofNat, Nat.reducePow, Nat.reduceMod] at hle
      omega

/-- The bitmaps behind each other: an image, whatever the number of inodes. -/
theorem threeGroups_image {n : BitVec 32} (hn : 8192 ≤ n.toNat) :
    BitmapImage (threeGroups n) 3 (threeGroupsDisk behindBlockBitmap 0#8) ∧
      DescriptorsApart (threeGroups n) 3 (threeGroupsDisk behindBlockBitmap 0#8) := by
  have haddr : (threeGroups n).bitmapAddr = (threeGroups 0#32).bitmapAddr := rfl
  have hlba : (threeGroups n).bitmapLba = (threeGroups 0#32).bitmapLba := rfl
  have hdesc : (threeGroups n).descriptorLba = (threeGroups 0#32).descriptorLba := rfl
  have hsize : (threeGroups n).blockSize = (threeGroups 0#32).blockSize := rfl
  have hsectors : (threeGroups n).blockSectors = (threeGroups 0#32).blockSectors := rfl
  refine ⟨⟨?_, ?_, ?_⟩, ?_⟩
  · intro g inode hg
    rw [haddr, hsize]
    rcases lt_three hg with rfl | rfl | rfl <;> cases inode <;> decide +kernel
  · intro g inode g' inode' hg hg'
    rw [haddr]
    rcases lt_three hg with rfl | rfl | rfl <;> rcases lt_three hg' with rfl | rfl | rfl <;>
      cases inode <;> cases inode' <;> decide +kernel
  · intro g inode k _ hper hk
    exact absurd hk (threeGroups_beyond hn hper)
  · intro g g' inode hg hg'
    rw [hlba, hdesc, hsectors]
    rcases lt_three hg with rfl | rfl | rfl <;> rcases lt_three hg' with rfl | rfl | rfl <;>
      cases inode <;> decide +kernel

/-- Two inodes and a block, each from another group. -/
theorem allocations_unique_three : ∃ s, Reaches (step (threeGroups 8192#32))
    (fun _ call => call.1.toNat < 3) (start (threeGroupsDisk behindBlockBitmap 0#8)) s ∧
      s.returned = [(false, 8192#32), (true, 16385#32), (true, 1#32)] ∧
      s.Sound (threeGroups 8192#32) 3 := by
  have hrun : (runChecked (step (threeGroups 8192#32)) (fun _ call => call.1.toNat < 3)
      (start (threeGroupsDisk behindBlockBitmap 0#8))
      [(0#32, true), (2#32, true), (1#32, false)]).any
      (fun s => decide (s.returned = [(false, 8192#32), (true, 16385#32), (true, 1#32)])) =
        true := by
    decide +kernel
  obtain ⟨s, hr, hs⟩ := exists_reaches_of_any hrun
  obtain ⟨himage, hapart⟩ := threeGroups_image (n := 8192#32) (by decide)
  refine ⟨s, hr, of_decide_eq_true hs, ?_⟩
  exact allocations_unique _ 3 _ himage hapart (by intro inode; cases inode <;> decide) s hr

/-- The inode bitmap of the one group lies over its descriptor. -/
theorem overlapping_image :
    BitmapImage (threeGroups 8192#32) 1 (threeGroupsDisk (fun _ => 2#8) 1#8) := by
  have hzero : ∀ {g : BitVec 32}, g.toNat < 1 → g = 0#32 := by
    intro g hg
    bv_omega
  refine ⟨?_, ?_, ?_⟩
  · intro g inode hg
    rw [hzero hg]
    cases inode <;> decide +kernel
  · intro g inode g' inode' hg hg'
    rw [hzero hg, hzero hg']
    cases inode <;> cases inode' <;> decide +kernel
  · intro g inode k _ hper hk
    exact absurd hk (threeGroups_beyond (by decide) hper)

/-- Distinct bitmaps alone are not enough. With `2 ^ 31` inodes in each group the first inodes of
    the groups 0 and 2 have the same 32-bit number. And where a bitmap lies over a descriptor, an
    allocation can move another bitmap of the group to a block in which the same bit is clear. -/
theorem object_handed_out_twice :
    (∃ (sb : Superblock) (groups : Nat) (disk : Bytes) (s : AllocRun),
      BitmapImage sb groups disk ∧ DescriptorsApart sb groups disk ∧
        Reaches (step sb) (fun _ call => call.1.toNat < groups) (start disk) s ∧
        ¬ s.Sound sb groups) ∧
    ∃ (sb : Superblock) (groups : Nat) (disk : Bytes) (s : AllocRun),
      BitmapImage sb groups disk ∧ NumbersFit sb groups ∧
        Reaches (step sb) (fun _ call => call.1.toNat < groups) (start disk) s ∧
        ¬ s.Sound sb groups := by
  constructor
  · have hrun : (runChecked (step (threeGroups 0x80000000#32)) (fun _ call => call.1.toNat < 3)
        (start (threeGroupsDisk behindBlockBitmap 0#8)) [(0#32, true), (2#32, true)]).any
        (fun s => decide (s.returned = [(true, 1#32), (true, 1#32)])) = true := by
      decide +kernel
    obtain ⟨s, hr, hs⟩ := exists_reaches_of_any hrun
    obtain ⟨himage, hapart⟩ := threeGroups_image (n := 0x80000000#32) (by decide)
    refine ⟨_, 3, _, s, himage, hapart, hr, ?_⟩
    intro hsound
    have hunique := hsound.unique
    rw [of_decide_eq_true hs] at hunique
    exact absurd hunique (by decide)
  · have hrun : (runChecked (step (threeGroups 8192#32)) (fun _ call => call.1.toNat < 1)
        (start (threeGroupsDisk (fun _ => 2#8) 1#8))
        [(0#32, false), (0#32, true), (0#32, false)]).any
        (fun s => decide (s.returned = [(false, 1#32), (true, 1#32), (false, 1#32)])) =
          true := by
      decide +kernel
    obtain ⟨s, hr, hs⟩ := exists_reaches_of_any hrun
    refine ⟨_, 1, _, s, overlapping_image, ?_, hr, ?_⟩
    · intro inode
      cases inode <;> decide
    · intro hsound
      have hunique := hsound.unique
      rw [of_decide_eq_true hs] at hunique
      exact absurd hunique (by decide)

end AllocRun

end Muse.Ext2
