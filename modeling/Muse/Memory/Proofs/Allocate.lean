import Muse.Library.Fallible
import Muse.Memory.Proofs.ChunkHeap

/-!
# The outcomes of a request

What a request does, one lemma for each way through the code: the chunk that the search of a tier
returns, the chunk taken whole, split, or not to be taken off its list. None of them
moves the end of the region.
-/

namespace Muse.Memory.ChunkHeap

open Muse.Library

variable {n : Nat}

/-! ## The fields of one chunk -/

section Fields

variable (h : ChunkHeap n) (c x : BitVec 32)

theorem prevSize_setSizeOf : (h.setSizeOf c x).prevSize c = h.prevSize c := by
  have hfield := readWord_writeWord_field h.mem c x (i := 4#32) (j := 0#32) (by decide) (by decide)
  rw [BitVec.add_zero] at hfield
  exact hfield

theorem prevSize_setNext : (h.setNext c x).prevSize c = h.prevSize c := by
  have hfield := readWord_writeWord_field h.mem c x (i := 8#32) (j := 0#32) (by decide) (by decide)
  rw [BitVec.add_zero] at hfield
  exact hfield

theorem sizeOf_setNext : (h.setNext c x).sizeOf c = h.sizeOf c :=
  readWord_writeWord_field h.mem c x (by decide) (by decide)

end Fields

/-! ## The search of a tier -/

/-- The search returns the first chunk of the list with enough room, and a chunk in front of it, or
    0 for the first. -/
theorem findChunk_eq (h : ChunkHeap n) (chSize : BitVec 32) : ∀ {l : List (BitVec 32)} (fuel : Nat)
    (prev : BitVec 32) {ch : BitVec 32}, Chain h.next 0#32 ch l → l.length < fuel →
    ∃ p, h.findChunk chSize fuel prev ch =
        .ok (p, (l.find? fun c => decide (chSize ≤ h.room c)).getD 0#32) ∧
      (p = prev ∨ p ∈ l ∧ h.room p < chSize)
  | [], fuel + 1, prev, ch, hl, _ => by
      obtain rfl : ch = 0#32 := hl
      exact ⟨prev, by rw [findChunk, if_pos rfl]; rfl, .inl rfl⟩
  | c :: cs, fuel + 1, prev, ch, hl, hf => by
      obtain ⟨rfl, hc, hcs⟩ := hl
      rw [findChunk, if_neg hc]
      by_cases hroom : h.room ch < chSize
      · obtain ⟨p, hfind, hp⟩ := h.findChunk_eq chSize fuel ch hcs
          (by simpa using hf)
        refine ⟨p, ?_, ?_⟩
        · rw [if_pos hroom, hfind, List.find?_cons_of_neg]
          simpa using hroom
        · rcases hp with rfl | ⟨hp, hlt⟩
          · exact .inr ⟨List.mem_cons_self, hroom⟩
          · exact .inr ⟨List.mem_cons_of_mem _ hp, hlt⟩
      · refine ⟨prev, ?_, .inl rfl⟩
        rw [if_neg hroom, List.find?_cons_of_pos]
        · rfl
        · simpa using hroom

/-! ## What becomes of a request -/

/-- Without a chunk that fits, the region grows. -/
theorem allocate_of_none {h : ChunkHeap n}
    {grow : ChunkHeap n → BitVec 32 → Except Fault (ChunkHeap n)} {account size prev : BitVec 32}
    (hfit : h.fittingChunk size = .ok (prev, 0#32)) :
    h.allocate grow account size = (grow h (chunkSize size)).map fun g =>
      (h.limit - 4#32 + chunkOverhead,
        { g.setSizeOf (h.limit - 4#32) (chunkSize size) with size := g.size + account }) := by
  simp only [allocate, hfit, bind, Except.bind, ne_eq, not_true_eq_false, if_false]
  cases grow h (chunkSize size) <;> rfl

section Found

variable {h h₁ : ChunkHeap n} {grow : ChunkHeap n → BitVec 32 → Except Fault (ChunkHeap n)}
  {account size prev c : BitVec 32} (hfit : h.fittingChunk size = .ok (prev, c)) (hc : c ≠ 0#32)

include hfit hc

/-- A chunk that fits is taken out of its list. -/
theorem allocate_of_unlink_error {f : Fault}
    (hunlink : h.unlinkChunk (tierIdx (chunkSize size)) prev c = .error f) :
    h.allocate grow account size = .error f := by
  simp only [allocate, hfit, bind, Except.bind, ne_eq, hc, not_false_eq_true, if_true, hunlink]

theorem allocate_of_whole (hunlink : h.unlinkChunk (tierIdx (chunkSize size)) prev c = .ok h₁)
    (hsplit : ¬ h₁.Splits c size) :
    h.allocate grow account size = .ok (c + chunkOverhead, h₁) := by
  simp only [allocate, hfit, bind, Except.bind, ne_eq, hc, not_false_eq_true, if_true, hunlink,
    hsplit, if_false]

theorem allocate_of_split (hunlink : h.unlinkChunk (tierIdx (chunkSize size)) prev c = .ok h₁)
    (hsplit : h₁.Splits c size) :
    h.allocate grow account size =
      (h₁.splitChunk c size).map fun h₂ => (c + chunkOverhead, h₂) := by
  simp only [allocate, hfit, bind, Except.bind, ne_eq, hc, not_false_eq_true, if_true, hunlink,
    hsplit]
  rfl

end Found

/-- A tier index out of range is the only way for a chunk not to be linked. -/
theorem linkChunk_eq (h : ChunkHeap n) (i c : BitVec 32) :
    h.linkChunk i c = if hi : i.toNat < n then
      .ok { h.setNext c (h.tiers ⟨i.toNat, hi⟩) with
        tiers := Function.update h.tiers ⟨i.toNat, hi⟩ c }
    else .error .tierIndex := by
  rw [linkChunk, tier]
  split
  · next hi =>
      change (h.setNext c _).setTier i c = _
      rw [setTier, dif_pos hi]
      rfl
  · rfl

/-! ## The end of the region -/

theorem setTier_limit {h h' : ChunkHeap n} {i c : BitVec 32} (hs : h.setTier i c = .ok h') :
    h'.limit = h.limit := by
  unfold setTier at hs
  split at hs
  · cases hs
    rfl
  · cases hs

theorem linkChunk_limit {h h' : ChunkHeap n} {i c : BitVec 32} (hs : h.linkChunk i c = .ok h') :
    h'.limit = h.limit := by
  rw [linkChunk_eq] at hs
  split at hs
  · cases hs
    rfl
  · cases hs

theorem splitChunk_limit {h h' : ChunkHeap n} {c size : BitVec 32}
    (hs : h.splitChunk c size = .ok h') : h'.limit = h.limit := by
  unfold splitChunk at hs
  have hlink := linkChunk_limit hs
  exact hlink

theorem unlinkChunk_limit {h h' : ChunkHeap n} {i prev c : BitVec 32}
    (hs : h.unlinkChunk i prev c = .ok h') : h'.limit = h.limit := by
  unfold unlinkChunk at hs
  split at hs
  · cases hs
    rfl
  · exact setTier_limit hs

theorem allocate_found_limit {h h' : ChunkHeap n}
    {grow : ChunkHeap n → BitVec 32 → Except Fault (ChunkHeap n)}
    {account size prev c ptr : BitVec 32} (hfit : h.fittingChunk size = .ok (prev, c))
    (hc : c ≠ 0#32) (hs : h.allocate grow account size = .ok (ptr, h')) : h'.limit = h.limit := by
  cases hu : h.unlinkChunk (tierIdx (chunkSize size)) prev c with
  | error f =>
      rw [allocate_of_unlink_error hfit hc hu] at hs
      cases hs
  | ok h₁ =>
      rw [← unlinkChunk_limit hu]
      by_cases hsp : h₁.Splits c size
      · rw [allocate_of_split hfit hc hu hsp] at hs
        obtain ⟨h₂, hsplit, heq⟩ := map_eq_ok.mp hs
        cases heq
        exact splitChunk_limit hsplit
      · rw [allocate_of_whole hfit hc hu hsp] at hs
        cases hs
        rfl

theorem mergeChunk_limit (h : ChunkHeap n) (c : BitVec 32) :
    (h.mergeChunk c).2.limit = h.limit := by
  unfold mergeChunk
  split <;> rfl

theorem release_limit {h h' : ChunkHeap n} {ptr : BitVec 32} (hs : h.release ptr = .ok h') :
    h'.limit = h.limit := by
  rw [← mergeChunk_limit h (ptr - chunkOverhead)]
  simp only [release] at hs
  obtain ⟨h₁, hlink, heq⟩ := bind_eq_ok.mp hs
  cases heq
  have hlimit := linkChunk_limit hlink
  exact hlimit

end Muse.Memory.ChunkHeap
