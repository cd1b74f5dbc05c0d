import Mathlib.Data.List.Basic
import Mathlib.Order.Basic

/-!
# Chains of records

Records of different lengths that follow each other in a memory: `next a` is where the record behind
the one at `a` starts, and `ok a` says that there is a record at `a`. A chain is the list of the
places of the records from one place up to another. If the positions of the records grow, the
records of a chain lie apart from each other.
-/

namespace Muse.Library

variable {α : Type}

/-- The records from `a` up to `b` are at the places of the list. -/
inductive RecordChain (ok : α → Prop) (next : α → α) : α → List α → α → Prop
  | nil (a : α) : RecordChain ok next a [] a
  | cons {a b : α} {l : List α} :
      ok a → RecordChain ok next (next a) l b → RecordChain ok next a (a :: l) b

namespace RecordChain

variable {ok ok' : α → Prop} {next next' : α → α} {a b c p q : α} {l l' : List α}

theorem append (h : RecordChain ok next a l b) (h' : RecordChain ok next b l' c) :
    RecordChain ok next a (l ++ l') c := by
  induction h with
  | nil _ => exact h'
  | cons hok _ ih => exact .cons hok (ih h')

theorem mem_ok (h : RecordChain ok next a l b) (hp : p ∈ l) : ok p := by
  induction h with
  | nil _ => exact absurd hp List.not_mem_nil
  | cons hok _ ih =>
      rcases List.mem_cons.mp hp with rfl | hmem
      · exact hok
      · exact ih hmem

/-- The chain depends on its own records only. -/
theorem congr (h : RecordChain ok next a l b) (hok : ∀ p ∈ l, ok p → ok' p)
    (hnext : ∀ p ∈ l, next' p = next p) : RecordChain ok' next' a l b := by
  induction h with
  | nil a => exact .nil a
  | @cons a b l ha _ ih =>
      have htail := ih (fun p hp => hok p (List.mem_cons_of_mem _ hp))
        (fun p hp => hnext p (List.mem_cons_of_mem _ hp))
      refine .cons (hok _ List.mem_cons_self ha) ?_
      rw [hnext _ List.mem_cons_self]
      exact htail

/-- Each record but the first is behind another one. -/
theorem mem_pred (h : RecordChain ok next a l b) (hp : p ∈ l) : p = a ∨ ∃ q ∈ l, next q = p := by
  induction h with
  | nil _ => exact absurd hp List.not_mem_nil
  | @cons a b l _ _ ih =>
      rcases List.mem_cons.mp hp with rfl | hmem
      · exact .inl rfl
      rcases ih hmem with rfl | ⟨q, hq, hnext⟩
      · exact .inr ⟨a, List.mem_cons_self, rfl⟩
      · exact .inr ⟨q, List.mem_cons_of_mem _ hq, hnext⟩

section Grow

variable {β : Type} [Preorder β] {m : α → β} (hgrow : ∀ p, ok p → m p < m (next p))

include hgrow

theorem le (h : RecordChain ok next a l b) : m a ≤ m b := by
  induction h with
  | nil _ => exact le_refl _
  | cons ha _ ih => exact le_trans (le_of_lt (hgrow _ ha)) ih

/-- The records lie between the ends of the chain. -/
theorem mem_bounds (h : RecordChain ok next a l b) (hp : p ∈ l) :
    m a ≤ m p ∧ m (next p) ≤ m b := by
  induction h with
  | nil _ => exact absurd hp List.not_mem_nil
  | @cons a b l ha hrest ih =>
      rcases List.mem_cons.mp hp with rfl | hmem
      · exact ⟨le_refl _, hrest.le hgrow⟩
      · exact ⟨le_trans (le_of_lt (hgrow _ ha)) (ih hmem).1, (ih hmem).2⟩

theorem nodup (h : RecordChain ok next a l b) : l.Nodup := by
  induction h with
  | nil _ => exact .nil
  | cons ha hrest ih =>
      refine List.nodup_cons.mpr ⟨fun hmem => ?_, ih⟩
      exact absurd (lt_of_lt_of_le (hgrow _ ha) (hrest.mem_bounds hgrow hmem).1) (lt_irrefl _)

/-- Two records do not meet. -/
theorem apart (h : RecordChain ok next a l b) (hp : p ∈ l) (hq : q ∈ l) :
    p = q ∨ m (next p) ≤ m q ∨ m (next q) ≤ m p := by
  induction h with
  | nil _ => exact absurd hp List.not_mem_nil
  | cons _ hrest ih =>
      rcases List.mem_cons.mp hp with rfl | hp'
      · rcases List.mem_cons.mp hq with rfl | hq'
        · exact .inl rfl
        · exact .inr (.inl (hrest.mem_bounds hgrow hq').1)
      · rcases List.mem_cons.mp hq with rfl | hq'
        · exact .inr (.inr (hrest.mem_bounds hgrow hp').1)
        · exact ih hp' hq'

end Grow

end RecordChain

end Muse.Library
