import Mathlib.Tactic.Ring

/-!
# Records in sectors

A table of records of `size` bytes, of which `per` fill a sector of `sector` bytes. A program finds
a record by the number of its sector and by its slot there; here the two are put together again to
a byte address.
-/

namespace Muse.Library

/-- `per` records of `size` bytes fill a sector. -/
structure Packed (sector size per : Nat) : Prop where
  fill : size * per = sector
  per_pos : 0 < per

namespace Packed

/-- Records of a size that divides the sector fill it. -/
theorem of_dvd {sector size : Nat} (hpos : 0 < sector) (hdvd : size ∣ sector) :
    Packed sector size (sector / size) where
  fill := Nat.mul_div_cancel' hdvd
  per_pos := Nat.div_pos (Nat.le_of_dvd hpos hdvd) (Nat.pos_of_dvd_of_pos hdvd hpos)

variable {sector size per : Nat} (h : Packed sector size per)

include h

/-- Where the record number `k` is, counted in sectors and in slots. -/
theorem split (k : Nat) : k * size = sector * (k / per) + k % per * size :=
  calc k * size = (per * (k / per) + k % per) * size := by rw [Nat.div_add_mod]
    _ = size * per * (k / per) + k % per * size := by ring
    _ = sector * (k / per) + k % per * size := by rw [h.fill]

/-- A record does not go over the end of its sector. -/
theorem slot_le (k : Nat) : k % per * size + size ≤ sector :=
  calc k % per * size + size = (k % per + 1) * size := by ring
    _ ≤ per * size := Nat.mul_le_mul_right _ (Nat.mod_lt k h.per_pos)
    _ = sector := by rw [Nat.mul_comm, h.fill]

/-- The sector of a record by its byte address. -/
theorem div_sector (hsize : 0 < size) (k : Nat) : k * size / sector = k / per := by
  have hslot := h.slot_le k
  have hsplit := h.split k
  refine Nat.div_eq_of_lt_le ?_ ?_
  · rw [Nat.mul_comm]
    omega
  · rw [Nat.add_mul, Nat.mul_comm (k / per), Nat.one_mul]
    omega

end Packed

/-- Different records of a table are apart. -/
theorem record_apart {j k : Nat} (size : Nat) (h : j ≠ k) :
    j * size + size ≤ k * size ∨ k * size + size ≤ j * size := by
  rcases Nat.lt_or_gt_of_ne h with hlt | hgt
  · left
    rw [← Nat.succ_mul]
    exact Nat.mul_le_mul_right _ hlt
  · right
    rw [← Nat.succ_mul]
    exact Nat.mul_le_mul_right _ hgt

/-- A record ends inside its table. -/
theorem record_le {k n : Nat} (size : Nat) (h : k < n) : k * size + size ≤ n * size := by
  rw [← Nat.succ_mul]
  exact Nat.mul_le_mul_right _ h

end Muse.Library
