import Mathlib.Data.Nat.Notation

/-!
# Counted loops

A loop over the numbers from `lo` on whose body may fail. What each round keeps holds behind the
loop, which then does not fail.
-/

namespace Muse.Library

variable {σ : Type}

/-- The body for `n` numbers, from `lo` on. -/
def forLoop (body : Nat → σ → Option σ) (lo : Nat) : Nat → σ → Option σ
  | 0, s => some s
  | n + 1, s => (body lo s).bind (forLoop body (lo + 1) n)

variable (body : Nat → σ → Option σ) (lo n : Nat) {s : σ}

/-- The rule for a counted loop, with the invariant `Inv i` before the round for `i`. -/
theorem forLoop_rule (Inv : Nat → σ → Prop)
    (hbody : ∀ i, lo ≤ i → i < lo + n → ∀ s, Inv i s → ∃ t, body i s = some t ∧ Inv (i + 1) t)
    (hs : Inv lo s) : ∃ t, forLoop body lo n s = some t ∧ Inv (lo + n) t := by
  induction n generalizing lo s with
  | zero => exact ⟨s, rfl, hs⟩
  | succ n ih =>
    obtain ⟨t, ht, hinv⟩ := hbody lo (Nat.le_refl lo) (by omega) s hs
    obtain ⟨u, hu, hinv'⟩ := ih (lo + 1) (fun i hlo hhi => hbody i (by omega) (by omega)) hinv
    refine ⟨u, ?_, ?_⟩
    · rw [forLoop, ht, Option.bind_some, hu]
    · rwa [show lo + 1 + n = lo + (n + 1) by omega] at hinv'

end Muse.Library
