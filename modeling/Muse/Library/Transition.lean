import Mathlib.Logic.Basic
import Mathlib.Data.Option.Basic

/-!
# Labelled transition systems with partial steps

A system is a step function `step : σ → α → Option σ`; `none` is a step that does
not return (a fault, a halt or an endless loop of the program it models). Steps are
filtered by a guard `ok : σ → α → Prop`, which says which steps a run may take from
which state. `Reaches step ok init` is the set of states that runs from `init`
whose steps all satisfy the guard get to, and `Reaches.invariant` is the rule by which safety
properties of whole runs are proved. `runChecked` executes a list of steps and
`reaches_of_runChecked` turns a successful execution into a reachable state.
-/

namespace Muse.Library

variable {σ α : Type}

/-- The states reached from `init` by steps that satisfy the guard `ok`. -/
inductive Reaches (step : σ → α → Option σ) (ok : σ → α → Prop) (init : σ) : σ → Prop
  | refl : Reaches step ok init init
  | tail {s s' : σ} {a : α} : Reaches step ok init s → ok s a → step s a = some s' →
      Reaches step ok init s'

variable {step : σ → α → Option σ} {ok ok' : σ → α → Prop} {init s : σ}

/-- Invariant induction: what holds initially and is kept by every guarded step
holds in every reachable state. -/
theorem Reaches.invariant {Inv : σ → Prop} (hr : Reaches step ok init s) (h0 : Inv init)
    (hstep : ∀ s a s', Inv s → ok s a → step s a = some s' → Inv s') : Inv s := by
  induction hr with
  | refl => exact h0
  | tail _ hok hs ih => exact hstep _ _ _ ih hok hs

/-- From `s` the steps `as`, which all satisfy the guard, lead to the last state. -/
inductive Trace (step : σ → α → Option σ) (ok : σ → α → Prop) (s : σ) : List α → σ → Prop
  | nil : Trace step ok s [] s
  | snoc {as : List α} {t u : σ} {a : α} : Trace step ok s as t → ok t a → step t a = some u →
      Trace step ok s (as ++ [a]) u

/-- A weaker guard reaches more states. -/
theorem Reaches.mono (hr : Reaches step ok init s) (h : ∀ s a, ok s a → ok' s a) :
    Reaches step ok' init s := by
  induction hr with
  | refl => exact .refl
  | tail _ hok hs ih => exact .tail ih (h _ _ hok) hs

/-- Executes the steps `as` one after another, giving up at a step that does not
return or that the guard forbids. -/
def runChecked (step : σ → α → Option σ) (ok : σ → α → Prop) [∀ s a, Decidable (ok s a)] :
    σ → List α → Option σ
  | s, [] => some s
  | s, a :: as =>
      if ok s a then (step s a).bind fun s' => runChecked step ok s' as else none

theorem reaches_of_runChecked_from [∀ s a, Decidable (ok s a)] :
    ∀ (as : List α) (t s' : σ), Reaches step ok init t →
      runChecked step ok t as = some s' → Reaches step ok init s'
  | [], t, s', hr, h => by
      cases h
      exact hr
  | a :: as, t, s', hr, h => by
      simp only [runChecked] at h
      split at h
      · next hok =>
          obtain ⟨u, hu, hrest⟩ := Option.bind_eq_some_iff.mp h
          exact reaches_of_runChecked_from as u s' (.tail hr hok hu) hrest
      · cases h

/-- The end of a successful execution is reachable. -/
theorem reaches_of_runChecked [∀ s a, Decidable (ok s a)] {as : List α} {s' : σ}
    (h : runChecked step ok init as = some s') : Reaches step ok init s' :=
  reaches_of_runChecked_from as init s' .refl h

/-- A successful execution whose end passes the test `obs` reaches a state that does. -/
theorem exists_reaches_of_any [∀ s a, Decidable (ok s a)] {as : List α} {obs : σ → Bool}
    (h : (runChecked step ok init as).any obs = true) :
    ∃ s', Reaches step ok init s' ∧ obs s' = true := by
  cases hrun : runChecked step ok init as with
  | none => simp [hrun] at h
  | some s' =>
      refine ⟨s', reaches_of_runChecked hrun, ?_⟩
      simpa [hrun] using h

end Muse.Library
