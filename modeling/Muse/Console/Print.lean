import Mathlib.Data.Nat.Notation

/-!
# Printing numbers

`nth_digit` and `kprint_int_fancy` of `src/common/text.c`. The output is the sequence of the calls
of `console_put_char`, each with its character and its color.
-/

namespace Muse.Console

/-- The loop of `nth_digit` (`text.c:65-67`). -/
def nthDigitLoop (base : BitVec 32) : Nat → BitVec 32 → BitVec 32
  | 0, x => x
  | rounds + 1, x => nthDigitLoop base rounds (x / base)

/-- `nth_digit` (`text.c:64-69`). -/
def nthDigit (x digit base : BitVec 32) : BitVec 32 :=
  nthDigitLoop base digit.toNat x % base

/-- The character of a digit (`text.c:83-87`), converted to `char`. -/
def digitChar (digit : BitVec 32) : BitVec 8 :=
  if digit < 10#32 then (48#32 + digit).setWidth 8 else (65#32 + digit - 10#32).setWidth 8

/-- The loop of `kprint_int_fancy` (`text.c:77-89`), of which there are at most `base` rounds. The
    comparison is signed. -/
def kprintIntLoop (x base color : BitVec 32) :
    Nat → BitVec 32 → Bool → List (BitVec 8 × BitVec 32)
  | 0, _, _ => []
  | rounds + 1, i, foundNonzero =>
      if i.slt base then
        let digit := nthDigit x (base - 1#32 - i) base
        let foundNonzero := digit ≠ 0#32 || foundNonzero
        let rest := kprintIntLoop x base color rounds (i + 1#32) foundNonzero
        if foundNonzero then (digitChar digit, color) :: rest else rest
      else []

/-- `kprint_int_fancy` (`text.c:71-90`). -/
def kprintIntFancy (x base color : BitVec 32) : List (BitVec 8 × BitVec 32) :=
  if x = 0#32 then [(48#8, color)]
  else kprintIntLoop x base color base.toNat 0#32 false

end Muse.Console
