import Mathlib.Logic.Function.Basic

/-!
# Families of address ranges

`e a = some m` says that there is a range of `m` bytes at `a`. The ranges of a family are `Apart`
when they lie in `[lo, hi)` and do not meet. The lemmas are the edits an allocator makes: a range is
added at the end, shrunk, or split in two.
-/

namespace Muse.Library

abbrev Extents : Type := Nat → Option Nat

namespace Extents

structure Apart (e : Extents) (lo hi : Nat) : Prop where
  apart : ∀ a b m k, a ≠ b → e a = some m → e b = some k → a + m ≤ b ∨ b + k ≤ a
  within : ∀ a m, e a = some m → lo ≤ a ∧ a + m ≤ hi

theorem apart_empty (lo hi : Nat) : Apart (fun _ => none) lo hi :=
  ⟨fun _ _ _ _ _ h => (by cases h), fun _ _ h => (by cases h)⟩

variable {e : Extents} {lo hi a b m k l : Nat}

/-- A new range behind all others. -/
theorem Apart.add (h : Apart e lo hi) (hlo : lo ≤ hi) (m : Nat) :
    Apart (Function.update e hi (some m)) lo (hi + m) := by
  refine ⟨fun a b x y hab ha hb => ?_, fun a x ha => ?_⟩
  · by_cases ha' : a = hi <;> by_cases hb' : b = hi
    · exact absurd (ha'.trans hb'.symm) hab
    · rw [Function.update_of_ne hb'] at hb
      have := (h.within b y hb).2
      omega
    · rw [Function.update_of_ne ha'] at ha
      have := (h.within a x ha).2
      omega
    · rw [Function.update_of_ne ha'] at ha
      rw [Function.update_of_ne hb'] at hb
      exact h.apart a b x y hab ha hb
  · by_cases ha' : a = hi
    · subst ha'
      rw [Function.update_self, Option.some.injEq] at ha
      omega
    · rw [Function.update_of_ne ha'] at ha
      have := h.within a x ha
      omega

/-- A range gets shorter. -/
theorem Apart.shrink (h : Apart e lo hi) (ha : e a = some m) (hk : k ≤ m) :
    Apart (Function.update e a (some k)) lo hi := by
  -- every range of the new family lies in the one at the same address
  have hsub : ∀ b x, Function.update e a (some k) b = some x → ∃ y, e b = some y ∧ x ≤ y := by
    intro b x hb
    by_cases hba : b = a
    · subst hba
      rw [Function.update_self, Option.some.injEq] at hb
      exact ⟨m, ha, by omega⟩
    · rw [Function.update_of_ne hba] at hb
      exact ⟨x, hb, Nat.le_refl x⟩
  refine ⟨fun b c x y hbc hb hc => ?_, fun b x hb => ?_⟩
  · obtain ⟨x', hb', hx⟩ := hsub b x hb
    obtain ⟨y', hc', hy⟩ := hsub c y hc
    have := h.apart b c x' y' hbc hb' hc'
    omega
  · obtain ⟨x', hb', hx⟩ := hsub b x hb
    have := h.within b x' hb'
    omega

/-- There is no range inside another one. -/
theorem Apart.none_inside (h : Apart e lo hi) (ha : e a = some m) (hab : a < b)
    (hb : b < a + m) : e b = none := by
  cases hb' : e b with
  | none => rfl
  | some k =>
      have := h.apart a b m k (Nat.ne_of_lt hab) ha hb'
      omega

/-- A range is split in two. -/
theorem Apart.split (h : Apart e lo hi) (ha : e a = some m) (hab : a < b) (hk : a + k ≤ b)
    (hl : b + l ≤ a + m) :
    Apart (Function.update (Function.update e a (some k)) b (some l)) lo hi := by
  have hshrink := h.shrink ha (k := k) (by omega)
  have hother : ∀ c x, c ≠ b → Function.update e a (some k) c = some x →
      c + x ≤ b ∨ b + l ≤ c := by
    intro c x hcb hc
    by_cases hca : c = a
    · subst hca
      rw [Function.update_self, Option.some.injEq] at hc
      omega
    · rw [Function.update_of_ne hca] at hc
      have := h.apart a c m x (Ne.symm hca) ha hc
      omega
  refine ⟨fun c d x y hcd hc hd => ?_, fun c x hc => ?_⟩
  · by_cases hcb : c = b <;> by_cases hdb : d = b
    · exact absurd (hcb.trans hdb.symm) hcd
    · subst hcb
      rw [Function.update_self, Option.some.injEq] at hc
      rw [Function.update_of_ne hdb] at hd
      have := hother d y hdb hd
      omega
    · subst hdb
      rw [Function.update_self, Option.some.injEq] at hd
      rw [Function.update_of_ne hcb] at hc
      have := hother c x hcb hc
      omega
    · rw [Function.update_of_ne hcb] at hc
      rw [Function.update_of_ne hdb] at hd
      exact hshrink.apart c d x y hcd hc hd
  · by_cases hcb : c = b
    · subst hcb
      rw [Function.update_self, Option.some.injEq] at hc
      have := h.within a m ha
      omega
    · rw [Function.update_of_ne hcb] at hc
      exact hshrink.within c x hc

end Extents

end Muse.Library
