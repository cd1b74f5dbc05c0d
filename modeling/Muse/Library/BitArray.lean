import Mathlib.Logic.Function.Basic

/-!
# Bit arrays in a memory of words

Bit `p` of a memory of `w`-bit words is bit `p % w` of word `p / w`. Setting and clearing one
bit with a mask changes that bit only.
-/

namespace Muse.Library

variable {w : Nat}

/-- Bit `p` of the memory `mem`. -/
def bitAt (mem : Nat → BitVec w) (p : Nat) : Bool := (mem (p / w)).getLsbD (p % w)

/-- The memory with bit `p` or'ed in. -/
def setBitAt (mem : Nat → BitVec w) (p : Nat) : Nat → BitVec w :=
  Function.update mem (p / w) (mem (p / w) ||| (1#w <<< (p % w)))

/-- The memory with bit `p` masked out. -/
def clearBitAt (mem : Nat → BitVec w) (p : Nat) : Nat → BitVec w :=
  Function.update mem (p / w) (mem (p / w) &&& ~~~(1#w <<< (p % w)))

theorem getLsbD_one_shiftLeft {i : Nat} (j : Nat) (hi : i < w) :
    (1#w <<< i).getLsbD j = decide (j = i) := by
  rw [BitVec.getLsbD_shiftLeft]
  by_cases hji : j < i
  · have : j ≠ i := by omega
    simp [hji, this]
  · by_cases he : j = i
    · have hw : 0 < w := by omega
      simp [he, hi, hw]
    · have : j - i ≠ 0 := by omega
      simp [he, BitVec.getLsbD_one, this]

/-- Two bits are the same if they are the same bit of the same word. -/
theorem bit_eq_iff {p q : Nat} (hd : q / w = p / w) : q % w = p % w ↔ q = p := by
  constructor
  · intro hm
    rw [← Nat.div_add_mod q w, ← Nat.div_add_mod p w, hd, hm]
  · rintro rfl
    rfl

theorem bitAt_setBitAt (hw : 0 < w) (mem : Nat → BitVec w) (p q : Nat) :
    bitAt (setBitAt mem p) q = (decide (q = p) || bitAt mem q) := by
  unfold bitAt setBitAt
  by_cases hd : q / w = p / w
  · rw [hd, Function.update_self, BitVec.getLsbD_or,
      getLsbD_one_shiftLeft _ (Nat.mod_lt _ hw), Bool.or_comm]
    simp only [bit_eq_iff hd]
  · rw [Function.update_of_ne hd]
    have : q ≠ p := fun e => hd (by rw [e])
    simp [this]

theorem bitAt_clearBitAt (hw : 0 < w) (mem : Nat → BitVec w) (p q : Nat) :
    bitAt (clearBitAt mem p) q = (!decide (q = p) && bitAt mem q) := by
  unfold bitAt clearBitAt
  by_cases hd : q / w = p / w
  · have hq : q % w < w := Nat.mod_lt _ hw
    rw [hd, Function.update_self, BitVec.getLsbD_and, BitVec.getLsbD_not,
      getLsbD_one_shiftLeft _ (Nat.mod_lt _ hw), Bool.and_comm]
    simp only [bit_eq_iff hd]
    simp [hq]
  · rw [Function.update_of_ne hd]
    have : q ≠ p := fun e => hd (by rw [e])
    simp [this]

/-- A word that is zero from bit `i` on has bit `i` clear. -/
theorem getLsbD_eq_false_of_ushiftRight {x : BitVec w} {i : Nat} (h : x >>> i = 0#w) :
    x.getLsbD i = false := by
  have := congrArg (fun y : BitVec w => y.getLsbD 0) h
  simpa using this

end Muse.Library
