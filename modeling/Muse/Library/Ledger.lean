import Mathlib.Data.List.Nodup
import Mathlib.Data.List.Perm.Subperm

/-!
# Obtaining and releasing

A computation obtains resources one after the other, and releases them. The ledger numbers them in
the order in which they were obtained, and records what was released. It balances when each was
released exactly once. The number of those that a step obtains and keeps adds up when steps follow
each other, so a computation is accounted for by the numbers of its parts.
-/

namespace Muse.Library

/-- How many resources were obtained, and which were released, the last one first. -/
structure Ledger where
  obtained : Nat
  released : List Nat
  deriving DecidableEq, Repr

namespace Ledger

/-- Nothing has been obtained yet. -/
def empty : Ledger := ⟨0, []⟩

/-- The number of the next resource, which is obtained. -/
def take (l : Ledger) : Nat × Ledger := (l.obtained, { l with obtained := l.obtained + 1 })

def release (l : Ledger) (b : Nat) : Ledger := { l with released := b :: l.released }

/-- Each resource was released exactly once. -/
def Balanced (l : Ledger) : Prop := ∀ b < l.obtained, l.released.count b = 1

instance (l : Ledger) : Decidable l.Balanced :=
  inferInstanceAs (Decidable (∀ b < l.obtained, l.released.count b = 1))

/-- On the way from `l` to `l'`, resources were obtained, `k` of them were kept, and the others were
    released once each. -/
def Leaks (l l' : Ledger) (k : Nat) : Prop :=
  ∃ back, l'.released = back ++ l.released ∧ back.Nodup ∧
    (∀ b ∈ back, l.obtained ≤ b ∧ b < l'.obtained) ∧ back.length + k + l.obtained = l'.obtained

variable {l l' l'' : Ledger} {k k' : Nat}

theorem Leaks.refl (l : Ledger) : l.Leaks l 0 :=
  ⟨[], rfl, List.nodup_nil, fun _ hb => (by cases hb), Nat.zero_add _⟩

/-- What two steps keep adds up. -/
theorem Leaks.trans (h : l.Leaks l' k) (h' : l'.Leaks l'' k') : l.Leaks l'' (k + k') := by
  obtain ⟨back, hrel, hnodup, hmem, hlen⟩ := h
  obtain ⟨back', hrel', hnodup', hmem', hlen'⟩ := h'
  refine ⟨back' ++ back, ?_, ?_, fun b hb => ?_, ?_⟩
  · rw [hrel', hrel, List.append_assoc]
  · apply List.nodup_append.mpr
    refine ⟨hnodup', hnodup, fun a ha b hb he => ?_⟩
    have hlow := (hmem' a ha).1
    have hhigh := (hmem b hb).2
    omega
  · rcases List.mem_append.mp hb with hb | hb
    · have := hmem' b hb
      omega
    · have := hmem b hb
      omega
  · rw [List.length_append]
    omega

/-- A resource that is obtained and never released is one more that is kept. -/
theorem Leaks.keep (h : l.take.2.Leaks l' k) : l.Leaks l' (k + 1) := by
  obtain ⟨back, hrel, hnodup, hmem, hlen⟩ := h
  simp only [take] at hrel hmem hlen
  refine ⟨back, hrel, hnodup, fun b hb => ?_, by omega⟩
  have := hmem b hb
  omega

/-- A resource that is obtained and released in the end. -/
theorem Leaks.give (h : l.take.2.Leaks l' k) : l.Leaks (l'.release l.take.1) k := by
  obtain ⟨back, hrel, hnodup, hmem, hlen⟩ := h
  simp only [take] at hrel hmem hlen
  refine ⟨l.obtained :: back, ?_, ?_, fun b hb => ?_, ?_⟩
  · simp only [release, take, hrel, List.cons_append]
  · refine List.nodup_cons.mpr ⟨fun hb => ?_, hnodup⟩
    have := hmem _ hb
    omega
  · simp only [release]
    rcases List.mem_cons.mp hb with rfl | hb
    · omega
    · have := hmem b hb
      omega
  · simp only [release, List.length_cons]
    omega

/-- A computation that keeps nothing is one that balances. -/
theorem Leaks.balanced_iff (h : empty.Leaks l k) : l.Balanced ↔ k = 0 := by
  obtain ⟨back, hrel, hnodup, hmem, hlen⟩ := h
  simp only [empty, List.append_nil, Nat.add_zero] at hrel hmem hlen
  rw [Balanced, hrel]
  constructor
  · intro hall
    have hsub : List.range l.obtained ⊆ back := by
      intro b hb
      apply List.count_pos_iff.mp
      rw [hall b (List.mem_range.mp hb)]
      exact Nat.one_pos
    have hle := (List.nodup_range.subperm hsub).length_le
    rw [List.length_range] at hle
    omega
  · rintro rfl b hb
    have hsub : back ⊆ List.range l.obtained := fun c hc => List.mem_range.mpr (hmem c hc).2
    have hperm := (hnodup.subperm hsub).perm_of_length_le (by rw [List.length_range]; omega)
    exact List.count_eq_one_of_mem hnodup (hperm.mem_iff.mpr (List.mem_range.mpr hb))

end Ledger

end Muse.Library
