import Mathlib.Data.Nat.Notation
import Mathlib.Logic.Function.Basic

/-!
# Copies made one element at a time

A copy of `n` elements within one memory, in a given order: step `i` stores at `dst i` what is at
`src i` at that moment. Where the ranges overlap, the order decides. If no step reads what an
earlier one has stored, every element has its original value at its new place.
-/

namespace Muse.Library

variable {A V : Type} [DecidableEq A]

/-- The memory after the first `n` steps. -/
def copyRun (dst src : Nat → A) (m : A → V) : Nat → A → V
  | 0 => m
  | n + 1 => Function.update (copyRun dst src m n) (dst n) (copyRun dst src m n (src n))

variable {dst src : Nat → A} {m : A → V} {n : Nat}

theorem copyRun_succ : copyRun dst src m (n + 1) =
    Function.update (copyRun dst src m n) (dst n) (copyRun dst src m n (src n)) :=
  rfl

/-- Where no step stores, the memory is as before. -/
theorem copyRun_other {a : A} (h : ∀ i < n, a ≠ dst i) : copyRun dst src m n a = m a := by
  induction n with
  | zero => rfl
  | succ n ih =>
    rw [copyRun_succ, Function.update_of_ne (h n (Nat.lt_succ_self n))]
    exact ih fun i hi => h i (Nat.lt_succ_of_lt hi)

/-- The steps read original values and store at different places. -/
theorem copyRun_dst (dst src : Nat → A) (hread : ∀ i j, i < j → j < n → src j ≠ dst i)
    (hinj : ∀ i j, i < j → j < n → dst i ≠ dst j) {i : Nat} (hi : i < n) :
    copyRun dst src m n (dst i) = m (src i) := by
  induction n with
  | zero => exact absurd hi (Nat.not_lt_zero i)
  | succ n ih =>
    rw [copyRun_succ]
    rcases Nat.lt_succ_iff_lt_or_eq.mp hi with hlt | rfl
    · rw [Function.update_of_ne (hinj i n hlt (Nat.lt_succ_self n))]
      apply ih
      · intro j k hjk hk
        exact hread j k hjk (Nat.lt_succ_of_lt hk)
      · intro j k hjk hk
        exact hinj j k hjk (Nat.lt_succ_of_lt hk)
      · exact hlt
    · rw [Function.update_self]
      exact copyRun_other fun j hj => hread j i hj (Nat.lt_succ_self i)

end Muse.Library
