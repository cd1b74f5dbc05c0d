import Mathlib.Data.List.Rotate

/-!
# Weighted round robin

A system whose current item changes in turns: `Ring s l` says that the turns of the items of `l` are
next, in that order and again from the front. If an item keeps its turn for as many steps as its
weight says and then goes to the end, the current item after any number of steps is the one that
the weights give.
-/

namespace Muse.Library

variable {σ α : Type} {step : σ → Option σ}

/-- `n` steps. -/
def runFor (step : σ → Option σ) : Nat → σ → Option σ
  | 0, s => some s
  | n + 1, s => (step s).bind (runFor step n)

theorem runFor_add {n m : Nat} {s t : σ} (h : runFor step n s = some t) :
    runFor step (n + m) s = runFor step m t := by
  induction n generalizing s with
  | zero =>
      cases h
      rw [Nat.zero_add]
  | succ n ih =>
      obtain ⟨u, hu, hrest⟩ := Option.bind_eq_some_iff.mp h
      rw [Nat.succ_add, runFor, hu, Option.bind_some, ih hrest]

/-- The item whose turn is number `j`. -/
def turnOf (l : List α) (j : Nat) : Option α := l[j % l.length]?

/-- The steps before turn number `j`. -/
def turnStart (weight : α → Nat) (l : List α) : Nat → Nat
  | 0 => 0
  | j + 1 => turnStart weight l j + (turnOf l j).elim 0 weight

/-- The turn of the item in front: it is current for as many steps as it weighs, and then it goes to
    the end. -/
def TakesTurns (step : σ → Option σ) (current : σ → α) (weight : α → Nat)
    (Ring : σ → List α → Prop) : Prop :=
  ∀ s a rest, Ring s (a :: rest) → ∀ k, k ≤ weight a →
    ∃ t, runFor step k s = some t ∧ (k < weight a → current t = a) ∧
      (k = weight a → Ring t (rest ++ [a]))

variable {current : σ → α} {weight : α → Nat} {Ring : σ → List α → Prop} {s : σ} {l : List α}

/-- The list with its turn number `j` in front. -/
theorem exists_rotate_eq_cons (hl : l ≠ []) (j : Nat) :
    ∃ a rest, l.rotate j = a :: rest ∧ turnOf l j = some a ∧ l.rotate (j + 1) = rest ++ [a] := by
  have hpos : 0 < l.length := List.length_pos_iff.mpr hl
  have hne : l.rotate j ≠ [] := by
    rw [← List.length_pos_iff, List.length_rotate]
    exact hpos
  obtain ⟨a, rest, hcons⟩ := List.exists_cons_of_ne_nil hne
  refine ⟨a, rest, hcons, ?_, ?_⟩
  · rw [turnOf, ← List.head?_rotate (Nat.mod_lt j hpos), List.rotate_mod, hcons, List.head?_cons]
  · rw [← List.rotate_rotate, hcons, List.rotate_cons_succ, List.rotate_zero]

/-- After whole turns the ring has moved on by as many items. -/
theorem TakesTurns.ring (h : TakesTurns step current weight Ring) (hs : Ring s l) (hl : l ≠ []) :
    ∀ j, ∃ t, runFor step (turnStart weight l j) s = some t ∧ Ring t (l.rotate j) := by
  intro j
  induction j with
  | zero =>
      refine ⟨s, rfl, ?_⟩
      rw [List.rotate_zero]
      exact hs
  | succ j ih =>
      obtain ⟨t, ht, hring⟩ := ih
      obtain ⟨a, rest, hcons, hturn, hnext⟩ := exists_rotate_eq_cons hl j
      rw [hcons] at hring
      obtain ⟨u, hu, -, hlast⟩ := h t a rest hring (weight a) (Nat.le_refl _)
      refine ⟨u, ?_, ?_⟩
      · rw [turnStart, hturn, Option.elim_some, runFor_add ht, hu]
      · rw [hnext]
        exact hlast rfl

/-- The current item after any number of steps. -/
theorem TakesTurns.current_eq (h : TakesTurns step current weight Ring) (hs : Ring s l)
    (hl : l ≠ []) {j n : Nat} (hfrom : turnStart weight l j ≤ n)
    (hto : n < turnStart weight l (j + 1)) :
    ∃ t, runFor step n s = some t ∧ turnOf l j = some (current t) := by
  obtain ⟨t, ht, hring⟩ := h.ring hs hl j
  obtain ⟨a, rest, hcons, hturn, -⟩ := exists_rotate_eq_cons hl j
  rw [turnStart, hturn, Option.elim_some] at hto
  rw [hcons] at hring
  obtain ⟨k, rfl⟩ := Nat.exists_eq_add_of_le hfrom
  obtain ⟨u, hu, hcurrent, -⟩ := h t a rest hring k (by omega)
  refine ⟨u, ?_, ?_⟩
  · rw [runFor_add ht, hu]
  · rw [hturn, hcurrent (by omega)]

end Muse.Library
