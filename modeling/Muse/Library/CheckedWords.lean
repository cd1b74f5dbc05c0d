import Mathlib.Data.BitVec
import Mathlib.Data.Option.Basic

/-!
# Checked arithmetic on words

Division, remainder and left shift as a C program has them: dividing by zero, and shifting by the
width or more, is undefined. A computation in which such an operation is evaluated has no value.
-/

namespace Muse.Library.Checked

variable {w : Nat} {x y k : BitVec w}

def shl (x k : BitVec w) : Option (BitVec w) := if k.toNat < w then some (x <<< k) else none

def udiv (x y : BitVec w) : Option (BitVec w) := if y = 0#w then none else some (x / y)

def umod (x y : BitVec w) : Option (BitVec w) := if y = 0#w then none else some (x % y)

theorem shl_of_lt (h : k.toNat < w) : shl x k = some (x <<< k) := if_pos h

theorem shl_of_le (h : w ≤ k.toNat) : shl x k = none := if_neg (Nat.not_lt.mpr h)

theorem udiv_of_ne (h : y ≠ 0#w) : udiv x y = some (x / y) := if_neg h

theorem umod_of_ne (h : y ≠ 0#w) : umod x y = some (x % y) := if_neg h

@[simp] theorem udiv_zero : udiv x 0#w = none := if_pos rfl

@[simp] theorem umod_zero : umod x 0#w = none := if_pos rfl

end Muse.Library.Checked
