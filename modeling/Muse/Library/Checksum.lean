import Mathlib.Algebra.GroupWithZero.Nat
import Mathlib.Data.List.Basic

/-!
# Sums of bytes

A checksum adds bytes to an accumulator of eight bits, so it has the sum of the bytes modulo 256.
What is added in several rows is the sum of the rows.
-/

namespace Muse.Library

variable {bytes : List (BitVec 8)}

/-- The accumulator behind a row of bytes. -/
def addBytes (sum : BitVec 8) (bytes : List (BitVec 8)) : BitVec 8 :=
  bytes.foldl (fun sum b => sum + b) sum

@[simp] theorem addBytes_nil (sum : BitVec 8) : addBytes sum [] = sum := rfl

@[simp] theorem addBytes_cons (sum b : BitVec 8) :
    addBytes sum (b :: bytes) = addBytes (sum + b) bytes := rfl

theorem addBytes_append (sum : BitVec 8) (bytes' : List (BitVec 8)) :
    addBytes sum (bytes ++ bytes') = addBytes (addBytes sum bytes) bytes' := by
  rw [addBytes, List.foldl_append]
  rfl

/-- The accumulator starts at any value. -/
theorem addBytes_eq_add (sum : BitVec 8) : addBytes sum bytes = sum + addBytes 0#8 bytes := by
  induction bytes generalizing sum with
  | nil => simp
  | cons b bytes ih =>
      rw [addBytes_cons, addBytes_cons, ih (sum + b), ih (0#8 + b), BitVec.zero_add,
        BitVec.add_assoc]

theorem toNat_addBytes (sum : BitVec 8) :
    (addBytes sum bytes).toNat = (sum.toNat + (bytes.map BitVec.toNat).sum) % 256 := by
  induction bytes generalizing sum with
  | nil => exact (Nat.mod_eq_of_lt sum.isLt).symm
  | cons b bytes ih =>
      rw [addBytes_cons, ih, BitVec.toNat_add, List.map_cons, List.sum_cons]
      omega

theorem addBytes_eq_zero : addBytes 0#8 bytes = 0#8 ↔ (bytes.map BitVec.toNat).sum % 256 = 0 := by
  rw [← BitVec.toNat_inj, toNat_addBytes]
  simp

end Muse.Library
