import Mathlib.Data.Nat.Notation
import Mathlib.Logic.Function.Defs

/-!
# Calls whose loops are given fuel

A loop that may run for ever is a function of the number of rounds that it may make, without a value
when they do not suffice. A call returns when some number of rounds is enough. The rule for a loop
is one induction on its rounds: what each round keeps holds in the round that ends the loop.
-/

namespace Muse.Library

variable {α β σ : Type}

/-- The call ends with the result `r`. -/
def Returns (call : Nat → Option α) (r : α) : Prop :=
  ∃ bound, ∀ fuel, bound ≤ fuel → call fuel = some r

namespace Returns

variable {call : Nat → Option α} {r r' : α}

theorem unique (h : Returns call r) (h' : Returns call r') : r = r' := by
  obtain ⟨b, hb⟩ := h
  obtain ⟨b', hb'⟩ := h'
  have heq := hb (max b b') (Nat.le_max_left _ _)
  rw [hb' (max b b') (Nat.le_max_right _ _)] at heq
  exact (Option.some.inj heq).symm

theorem bind (h : Returns call r) (next : α → Nat → Option β) {t : β} (h' : Returns (next r) t) :
    Returns (fun fuel => (call fuel).bind fun x => next x fuel) t := by
  obtain ⟨b, hb⟩ := h
  obtain ⟨b', hb'⟩ := h'
  refine ⟨max b b', fun fuel hfuel => ?_⟩
  show (call fuel).bind _ = _
  rw [hb fuel (by omega), Option.bind_some, hb' fuel (by omega)]

end Returns

/-- A loop whose first round adds something to what the rest of it gives. -/
theorem returns_round_iff {loop : Nat → Option α} {next : Nat → Option β} {f : β → α}
    (hf : Function.Injective f) (bound : Nat)
    (h : ∀ fuel, bound ≤ fuel → loop (fuel + 1) = (next fuel).map f) {r : α} :
    Returns loop r ↔ ∃ r', Returns next r' ∧ f r' = r := by
  constructor
  · rintro ⟨b, hb⟩
    have hnext : ∀ fuel, max b bound ≤ fuel → ∃ r', next fuel = some r' ∧ f r' = r := by
      intro fuel hfuel
      have hloop := hb (fuel + 1) (by omega)
      rw [h fuel (by omega)] at hloop
      exact Option.map_eq_some_iff.mp hloop
    obtain ⟨r', -, hr'⟩ := hnext (max b bound) (Nat.le_refl _)
    refine ⟨r', ⟨max b bound, fun fuel hfuel => ?_⟩, hr'⟩
    obtain ⟨r'', hr'', heq⟩ := hnext fuel hfuel
    rw [hr'', hf (heq.trans hr'.symm)]
  · rintro ⟨r', ⟨b, hb⟩, rfl⟩
    refine ⟨max b bound + 1, fun fuel hfuel => ?_⟩
    cases fuel with
    | zero => exact absurd hfuel (Nat.not_succ_le_zero _)
    | succ fuel => rw [h fuel (by omega), hb fuel (by omega), Option.map_some]

/-- A call that has no value with any number of rounds does not end. -/
theorem not_returns {call : Nat → Option α} (h : ∀ fuel, call fuel = none) (r : α) :
    ¬ Returns call r := by
  rintro ⟨b, hb⟩
  have hval := hb b (Nat.le_refl b)
  rw [h b] at hval
  exact Option.some_ne_none r hval.symm

/-! ## Rounds -/

section Rounds

variable {loop next : Nat → Option α} {r : α}

/-- A loop that stops in its first round. -/
theorem fuel_stop (h : ∀ fuel, loop (fuel + 1) = some r) (k fuel : Nat) (hfuel : k < fuel) :
    loop fuel = some r := by
  cases fuel with
  | zero => exact absurd hfuel (Nat.not_lt_zero k)
  | succ fuel => exact h fuel

/-- A loop whose first round leads to the next one. -/
theorem fuel_next {k : Nat} (hround : ∀ fuel, loop (fuel + 1) = next fuel)
    (h : ∀ fuel, k < fuel → next fuel = some r) (fuel : Nat) (hfuel : k + 1 < fuel) :
    loop fuel = some r := by
  cases fuel with
  | zero => exact absurd hfuel (Nat.not_lt_zero (k + 1))
  | succ fuel =>
      rw [hround]
      exact h fuel (Nat.lt_of_succ_lt_succ hfuel)

end Rounds

section Rule

variable (loop : Nat → σ → Option α) (k : Nat)

/-- The rule for a loop that ends in round `k`, with the invariant `Inv j` before round `j`. -/
theorem loop_rule (Inv : Nat → σ → Prop) (Post : α → Prop)
    (hround : ∀ j < k, ∀ s, Inv j s → ∃ t, Inv (j + 1) t ∧ ∀ fuel, loop (fuel + 1) s = loop fuel t)
    (hstop : ∀ s, Inv k s → ∃ r, Post r ∧ ∀ fuel, loop (fuel + 1) s = some r)
    (s : σ) (hs : Inv 0 s) : ∃ r, Post r ∧ ∀ fuel, k < fuel → loop fuel s = some r := by
  have hrun : ∀ d j s, j + d = k → Inv j s →
      ∃ r, Post r ∧ ∀ fuel, d < fuel → loop fuel s = some r := by
    intro d
    induction d with
    | zero =>
      intro j s hj hinv
      obtain rfl : j = k := hj
      obtain ⟨r, hpost, hr⟩ := hstop s hinv
      exact ⟨r, hpost, fuel_stop hr 0⟩
    | succ d ih =>
      intro j s hj hinv
      obtain ⟨t, ht, hstep⟩ := hround j (by omega) s hinv
      obtain ⟨r, hpost, hr⟩ := ih (j + 1) t (by omega) ht
      exact ⟨r, hpost, fuel_next hstep hr⟩
  exact hrun k 0 s (by omega) hs

/-- The rule as a statement about the call. -/
theorem loop_returns (Inv : Nat → σ → Prop) (Post : α → Prop)
    (hround : ∀ j < k, ∀ s, Inv j s → ∃ t, Inv (j + 1) t ∧ ∀ fuel, loop (fuel + 1) s = loop fuel t)
    (hstop : ∀ s, Inv k s → ∃ r, Post r ∧ ∀ fuel, loop (fuel + 1) s = some r)
    (s : σ) (hs : Inv 0 s) : ∃ r, Returns (fun fuel => loop fuel s) r ∧ Post r := by
  obtain ⟨r, hpost, hr⟩ := loop_rule loop k Inv Post hround hstop s hs
  exact ⟨r, ⟨k + 1, hr⟩, hpost⟩

/-- A loop whose every round leads to a next one does not end. -/
theorem loop_endless (Inv : σ → Prop) (hout : ∀ s, Inv s → loop 0 s = none)
    (hround : ∀ s, Inv s → ∃ t, Inv t ∧ ∀ fuel, loop (fuel + 1) s = loop fuel t)
    (s : σ) (hs : Inv s) (fuel : Nat) : loop fuel s = none := by
  induction fuel generalizing s with
  | zero => exact hout s hs
  | succ fuel ih =>
    obtain ⟨t, ht, hstep⟩ := hround s hs
    rw [hstep fuel]
    exact ih t ht

end Rule

end Muse.Library
