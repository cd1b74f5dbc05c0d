import Muse.Acpi.Rsdp

/-!
# What `verify_rsdp` adds up

The first stage adds the first 20 bytes, each of them once. The second stage adds the bytes of
`rsdt_address` twice where those of `xsdt_address` belong, and the rest of the bytes behind the
first 20.
-/

namespace Muse.Acpi

open Library

variable {image : Bytes}

/-- The bytes of a field of four bytes. -/
theorem shiftedBytes_word32 (image : Bytes) (a : Nat) :
    shiftedBytes (image.word32 a) 32 = (List.range 4).map fun k => image (a + k) := by
  apply List.map_congr_left
  intro k hk
  have hk4 : k < 4 := List.mem_range.mp hk
  rw [mask_setWidth, shr, Nat.mod_eq_of_lt (by omega), Bytes.word32_shiftRight hk4]

/-- The shifts from 32 on give the four bytes again. -/
theorem shiftedBytes_twice (v : BitVec 32) :
    shiftedBytes v 64 = shiftedBytes v 32 ++ shiftedBytes v 32 := rfl

theorem sumOfBytes_eq_zero {n : Nat} :
    addBytes 0#8 ((List.range n).map image) = 0#8 ↔ sumOfBytes image n % 256 = 0 := by
  rw [addBytes_eq_zero, List.map_map]
  rfl

/-- The first stage adds the first 20 bytes. -/
theorem firstSum_eq (image : Bytes) :
    (Rsdp.ofBytes image).firstSum = addBytes 0#8 ((List.range 20).map image) := by
  rw [Rsdp.firstSum, Rsdp.ofBytes]
  dsimp only
  rw [shiftedBytes_word32]
  rfl

/-- The sum of the bytes of `rsdt_address`. -/
def rsdtSum (image : Bytes) : BitVec 8 :=
  addBytes 0#8 ((List.range 4).map fun k => image (16 + k))

/-- The sum of the bytes of `xsdt_address`. -/
def xsdtSum (image : Bytes) : BitVec 8 :=
  addBytes 0#8 ((List.range 8).map fun k => image (24 + k))

/-- The sum of the other bytes behind the first 20. -/
def otherSum (image : Bytes) : BitVec 8 :=
  addBytes 0#8 ((List.range 4).map fun k => image (20 + k)) +
    addBytes 0#8 ((List.range 4).map fun k => image (32 + k))

/-- Of the bytes behind the first 20 the second stage replaces those of `xsdt_address`. -/
theorem secondSum_eq (image : Bytes) :
    (Rsdp.ofBytes image).secondSum = otherSum image + (rsdtSum image + rsdtSum image) := by
  have hlast : ∀ sum, addBytes (sum + image 32) (List.ofFn fun i : Fin 3 => image (33 + i)) =
      sum + addBytes 0#8 ((List.range 4).map fun k => image (32 + k)) := by
    intro sum
    rw [← addBytes_eq_add]
    rfl
  rw [Rsdp.secondSum, Rsdp.ofBytes]
  dsimp only
  rw [hlast, shiftedBytes_twice, shiftedBytes_word32, shiftedBytes_word32, addBytes_append,
    addBytes_eq_add (addBytes (addBytes 0#8 _) _), addBytes_eq_add (addBytes 0#8 _), otherSum,
    rsdtSum]
  ac_rfl

theorem sumOfBytes_all :
    addBytes 0#8 ((List.range 36).map image) =
      addBytes 0#8 ((List.range 20).map image) + (otherSum image + xsdtSum image) := by
  have hparts : (List.range 36).map image = (List.range 20).map image ++
      ((List.range 4).map (fun k => image (20 + k)) ++
        ((List.range 8).map (fun k => image (24 + k)) ++
          (List.range 4).map fun k => image (32 + k))) := rfl
  rw [hparts, addBytes_append, addBytes_append, addBytes_append, addBytes_eq_add,
    addBytes_eq_add (addBytes _ _), addBytes_eq_add (addBytes _ _), otherSum, xsdtSum,
    BitVec.add_assoc, BitVec.add_assoc, BitVec.add_assoc,
    BitVec.add_comm (addBytes 0#8 ((List.range 8).map _))]

/-- The images on which the second stage decides right. It is not reached, or twice the sum of the
    bytes of `rsdt_address` is the sum of those of `xsdt_address`, or the other bytes are the
    negative of neither of the two: then the image is to be rejected, and it is not taken by
    accident. -/
def SecondStageRight (image : Bytes) : Prop :=
  image 15 ≠ 2#8 ∨ sumOfBytes image 20 % 256 ≠ 0 ∨
    rsdtSum image + rsdtSum image = xsdtSum image ∨
    (otherSum image ≠ -(rsdtSum image + rsdtSum image) ∧ otherSum image ≠ -xsdtSum image)

instance (image : Bytes) : Decidable (SecondStageRight image) :=
  inferInstanceAs (Decidable (_ ∨ _))

/-- Two summands have the same effect on whether a sum is 0 if they are equal, or if neither of them
    makes it 0. -/
theorem add_eq_zero_congr {e r x : BitVec 8} :
    (e + r = 0#8 ↔ e + x = 0#8) ↔ r = x ∨ (e ≠ -r ∧ e ≠ -x) := by
  have hneg : ∀ y : BitVec 8, e + y = 0#8 ↔ e = -y := fun y => by bv_omega
  rw [hneg, hneg]
  constructor
  · intro h
    by_cases hr : e = -r
    · exact .inl (BitVec.neg_inj.mp (hr.symm.trans (h.mp hr)))
    · exact .inr ⟨hr, fun hx => hr (h.mpr hx)⟩
  · rintro (rfl | ⟨hr, hx⟩)
    · exact Iff.rfl
    · exact ⟨fun h => absurd h hr, fun h => absurd h hx⟩

/-- `verify_rsdp` accepts exactly the images with right checksums if and only if its second stage
    decides right. -/
theorem verifyRsdp_iff (image : Bytes) :
    (verifyRsdp (Rsdp.ofBytes image) = true ↔ ChecksumsRight image) ↔ SecondStageRight image := by
  have hrevision : (Rsdp.ofBytes image).revision = image 15 := rfl
  have hfirst : addBytes 0#8 ((List.range 20).map image) = 0#8 ↔ sumOfBytes image 20 % 256 = 0 :=
    sumOfBytes_eq_zero
  rw [verifyRsdp, firstSum_eq, secondSum_eq, hrevision, ChecksumsRight, SecondStageRight,
    ← sumOfBytes_eq_zero (n := 36), sumOfBytes_all]
  by_cases hsum : sumOfBytes image 20 % 256 = 0
  · rw [hfirst.mpr hsum, BitVec.zero_add]
    by_cases hrev : image 15 = 2#8
    · simp only [hrev, hsum, ne_eq, not_true_eq_false, if_false, if_true, true_and, false_or,
        true_imp_iff, decide_eq_true_eq]
      exact add_eq_zero_congr
    · simp [hrev, hsum]
  · have hfirst' : addBytes 0#8 ((List.range 20).map image) ≠ 0#8 := fun h => hsum (hfirst.mp h)
    simp [hfirst', hsum]

/-- A root pointer of revision 2 with the XSDT at 2 MiB and the RSDT at 1 MiB. -/
def bothTables : Bytes := fun i =>
  [82#8, 83#8, 68#8, 32#8, 80#8, 84#8, 82#8, 32#8, 207#8, 0#8, 0#8, 0#8, 0#8, 0#8, 0#8, 2#8,
    0#8, 0#8, 16#8, 0#8, 36#8, 0#8, 0#8, 0#8, 0#8, 0#8, 32#8, 0#8, 0#8, 0#8, 0#8, 0#8,
    188#8].getD i 0#8

/-- Its second stage comes out right: the bytes of the one address are half of those of the
    other. -/
theorem verifyRsdp_iff_bothTables :
    verifyRsdp (Rsdp.ofBytes bothTables) = true ∧ ChecksumsRight bothTables := by
  have hright : ChecksumsRight bothTables := ⟨by decide, fun _ => by decide⟩
  exact ⟨((verifyRsdp_iff bothTables).mpr (by decide)).mpr hright, hright⟩

/-- A root pointer of revision 2 without an RSDT, whose XSDT is at 1 MiB. -/
def revisionTwo : Bytes := fun i =>
  [82#8, 83#8, 68#8, 32#8, 80#8, 84#8, 82#8, 32#8, 223#8, 0#8, 0#8, 0#8, 0#8, 0#8, 0#8, 2#8,
    0#8, 0#8, 0#8, 0#8, 36#8, 0#8, 0#8, 0#8, 0#8, 0#8, 16#8, 0#8, 0#8, 0#8, 0#8, 0#8,
    204#8].getD i 0#8

/-- The bytes of `xsdt_address` are not added. -/
theorem revisionTwo_rejected : ¬ ∀ image : Bytes,
    verifyRsdp (Rsdp.ofBytes image) = true ↔ ChecksumsRight image := by
  intro hall
  have hright : ChecksumsRight revisionTwo := ⟨by decide, fun _ => by decide⟩
  have htaken := (hall revisionTwo).mpr hright
  rw [verifyRsdp, firstSum_eq, secondSum_eq] at htaken
  exact absurd htaken (by decide)

end Muse.Acpi
