import Mathlib.Algebra.BigOperators.Group.Finset.Basic
import Mathlib.Algebra.Order.BigOperators.Group.Finset
import Mathlib.Data.Fintype.Basic

/-!
# Counting over the parties of a system

The state of a system of finitely many parties is a family `f : ι → σ` of their own states, and a
step of party `i` replaces `f i`. `total w f` adds up a weight over all parties: how many of them
are at some point, or how much they hold together. The lemmas say what a step does to a total, so
that invariants that relate totals to shared words become linear arithmetic.
-/

namespace Muse.Library

variable {ι σ : Type} [Fintype ι]

/-- The sum of the weights of all parties. -/
def total (w : σ → Nat) (f : ι → σ) : Nat := ∑ i, w (f i)

theorem le_total (w : σ → Nat) (f : ι → σ) (i : ι) : w (f i) ≤ total w f :=
  Finset.single_le_sum (f := fun i => w (f i)) (fun _ _ => Nat.zero_le _) (Finset.mem_univ i)

/-- Two parties have at most the total together. -/
theorem add_le_total [DecidableEq ι] (w : σ → Nat) (f : ι → σ) {i j : ι} (h : i ≠ j) :
    w (f i) + w (f j) ≤ total w f := by
  rw [total, ← Finset.add_sum_erase _ _ (Finset.mem_univ i)]
  refine Nat.add_le_add_left ?_ _
  exact Finset.single_le_sum (f := fun i => w (f i)) (fun _ _ => Nat.zero_le _)
    (Finset.mem_erase.mpr ⟨h.symm, Finset.mem_univ j⟩)

theorem total_eq_zero {w : σ → Nat} {f : ι → σ} (h : ∀ i, w (f i) = 0) : total w f = 0 :=
  Finset.sum_eq_zero fun i _ => h i

/-- A step of one party moves a sum over some parties by what its own weight moves. -/
theorem sum_update_add {ι σ : Type} [DecidableEq ι] (parties : Finset ι) (w : σ → Nat) (f : ι → σ)
    {i : ι} (hi : i ∈ parties) (x : σ) :
    ∑ j ∈ parties, w (Function.update f i x j) + w (f i) = ∑ j ∈ parties, w (f j) + w x := by
  have hrest : ∑ j ∈ parties.erase i, w (Function.update f i x j) =
      ∑ j ∈ parties.erase i, w (f j) := by
    refine Finset.sum_congr rfl fun j hj => ?_
    rw [Function.update_of_ne (Finset.ne_of_mem_erase hj)]
  rw [← Finset.add_sum_erase _ _ hi, hrest, Function.update_self,
    ← Finset.add_sum_erase _ (fun j => w (f j)) hi]
  omega

/-- A step of one party moves the total by what its own weight moves. -/
theorem total_update [DecidableEq ι] (w : σ → Nat) (f : ι → σ) (i : ι) (x : σ) :
    total w (Function.update f i x) + w (f i) = total w f + w x :=
  sum_update_add Finset.univ w f (Finset.mem_univ i) x

/-- A step that does not change the weight of its party leaves the total. -/
theorem total_update_of_eq [DecidableEq ι] {w : σ → Nat} {f : ι → σ} {i : ι} {x : σ}
    (h : w x = w (f i)) : total w (Function.update f i x) = total w f := by
  have hsum := total_update w f i x
  omega

end Muse.Library
