import Mathlib.Data.Finset.Card
import Mathlib.Data.List.Nodup

/-!
# The last write wins

A table that is filled by a list of writes holds at every key what the last write at that key wrote.
-/

namespace Muse.Library

variable {α β γ : Type} [DecidableEq α]

/-- What the last of the writes at `k` wrote. -/
def lastWrite (ws : List (α × β)) (k : α) : Option β :=
  (ws.reverse.find? fun w => decide (w.1 = k)).map Prod.snd

@[simp] theorem lastWrite_nil (k : α) : lastWrite ([] : List (α × β)) k = none := rfl

theorem lastWrite_append (ws us : List (α × β)) (k : α) :
    lastWrite (ws ++ us) k = (lastWrite us k).or (lastWrite ws k) := by
  rw [lastWrite, List.reverse_append, List.find?_append, Option.map_or]
  rfl

/-- One more write replaces what its key had. -/
@[simp] theorem lastWrite_concat (ws : List (α × β)) (w : α × β) (k : α) :
    lastWrite (ws ++ [w]) k = if w.1 = k then some w.2 else lastWrite ws k := by
  rw [lastWrite_append]
  by_cases h : w.1 = k
  · simp [lastWrite, h]
  · simp [lastWrite, h]

theorem lastWrite_eq_none {ws : List (α × β)} {k : α} :
    lastWrite ws k = none ↔ ∀ w ∈ ws, w.1 ≠ k := by
  simp [lastWrite]

/-- What is read was written. -/
theorem mem_of_lastWrite_eq_some {ws : List (α × β)} {k : α} {b : β}
    (h : lastWrite ws k = some b) : (k, b) ∈ ws := by
  obtain ⟨w, hw, rfl⟩ := Option.map_eq_some_iff.mp h
  have hkey := List.find?_some hw
  rw [← of_decide_eq_true hkey]
  exact List.mem_reverse.mp (List.mem_of_find?_eq_some hw)

/-- All writes at a key wrote the same. -/
theorem lastWrite_eq_some_of_unique {ws : List (α × β)} {k : α} {b : β} (hmem : (k, b) ∈ ws)
    (hall : ∀ w ∈ ws, w.1 = k → w.2 = b) : lastWrite ws k = some b := by
  cases hlast : lastWrite ws k with
  | none => exact absurd rfl (lastWrite_eq_none.mp hlast _ hmem)
  | some b' => rw [← hall _ (mem_of_lastWrite_eq_some hlast) rfl]

/-- Of the items of a list that each make some writes, the last one that writes at the key
    counts. -/
theorem lastWrite_flatMap (xs : List γ) (f : γ → List (α × β)) (k : α) :
    lastWrite (xs.flatMap f) k = xs.reverse.findSome? fun x => lastWrite (f x) k := by
  induction xs with
  | nil => rfl
  | cons x xs ih =>
      rw [List.flatMap_cons, lastWrite_append, ih, List.reverse_cons, List.findSome?_append]
      congr 1
      cases hx : lastWrite (f x) k with
      | none => simp [hx]
      | some b => simp [hx]

end Muse.Library
