import Muse.Paging.Proofs.Within

/-!
# Temporary mappings

While a directory is built, pages of the heap are mapped in the active address space. `Temporary`
records which pages were handed out since a state `s₀`: the other pages have the mapping they had
in `s₀`, and of those pages only the ones that are still held are mapped.
-/

namespace Muse.Memory.PageHeap

/-- The next `n` pages that the heap hands out, and the heap afterwards. -/
def handOut (h : PageHeap) : Nat → Option (List (BitVec 32) × PageHeap)
  | 0 => some ([], h)
  | n + 1 => do
      let (pages, h) ← h.handOut n
      let (page, h) ← h.kmallocAligned
      some (pages ++ [page], h)

theorem handOut_succ {h h' h'' : PageHeap} {n : Nat} {pages : List (BitVec 32)} {page : BitVec 32}
    (hn : h.handOut n = some (pages, h')) (hp : h'.kmallocAligned = some (page, h'')) :
    h.handOut (n + 1) = some (pages ++ [page], h'') := by
  rw [handOut, hn, Option.bind_eq_bind, Option.bind_some]
  simp only [hp, Option.bind_eq_bind, Option.bind_some]

theorem handOut_nextPages {h h' : PageHeap} {n : Nat} {pages : List (BitVec 32)}
    (hn : h.handOut n = some (pages, h')) (m : Nat) :
    h.nextPages (n + m) = pages ++ h'.nextPages m := by
  induction n generalizing h' pages m with
  | zero =>
      obtain ⟨rfl, rfl⟩ := Prod.mk.inj (Option.some.inj hn)
      rw [Nat.zero_add, List.nil_append]
  | succ n ih =>
      simp only [handOut, Option.bind_eq_bind, Option.bind_eq_some_iff, Prod.exists] at hn
      obtain ⟨pages, h₁, hn, page, h', hp, he⟩ := hn
      obtain ⟨rfl, rfl⟩ := Prod.mk.inj (Option.some.inj he)
      rw [Nat.add_assoc, Nat.add_comm 1 m, ih hn, nextPages_cons hp, List.append_assoc,
        List.singleton_append]

end Muse.Memory.PageHeap

namespace Muse.Paging

open Muse.Library

namespace Vm

/-- From `s₀` to `s` the heap handed out `pages`, and of these only pages that are `held` are
    mapped. -/
structure Temporary (s₀ s : Vm) (held : BitVec 20 → Prop) (pages : List (BitVec 20)) : Prop where
  heap : s₀.pageHeap.handOut pages.length = some (pages.map pageAddr, s.pageHeap)
  other : ∀ w, pageOf w ∉ pages → s.space.frameOf w = s₀.space.frameOf w
  unmapped : ∀ X ∈ pages, ¬ held X → s.space.frameOf (pageAddr X) = none

namespace Temporary

variable {s₀ s s' : Vm} {held held' : BitVec 20 → Prop} {pages : List (BitVec 20)} {W : BitVec 20}

theorem refl (s : Vm) (held : BitVec 20 → Prop) : Temporary s s held [] :=
  ⟨rfl, fun _ _ => rfl, fun _ hX => absurd hX List.not_mem_nil⟩

/-- Steps that change no mapping and take no page of the heap. -/
theorem congr (h : Temporary s₀ s held pages)
    (hmaps : ∀ w, s'.space.frameOf w = s.space.frameOf w) (hheap : s'.pageHeap = s.pageHeap) :
    Temporary s₀ s' held pages := by
  refine ⟨hheap ▸ h.heap, fun w hw => ?_, fun X hX hn => ?_⟩
  · rw [hmaps, h.other w hw]
  · rw [hmaps, h.unmapped X hX hn]

theorem mono (h : Temporary s₀ s held pages) (hle : ∀ X, held X → held' X) :
    Temporary s₀ s held' pages :=
  ⟨h.heap, h.other, fun X hX hn => h.unmapped X hX fun hx => hn (hle X hx)⟩

/-- `kmalloc_page` takes the page `W` of the heap. -/
theorem malloc (h : Temporary s₀ s held pages)
    (halloc : s.pageHeap.kmallocAligned = some (pageAddr W, s'.pageHeap))
    (hother : ∀ w, pageOf w ≠ W → s'.space.frameOf w = s.space.frameOf w) :
    Temporary s₀ s' (fun X => held X ∨ X = W) (pages ++ [W]) := by
  refine ⟨?_, fun w hw => ?_, fun X hX hn => ?_⟩
  · rw [List.length_append, List.length_singleton, List.map_append, List.map_singleton]
    exact Memory.PageHeap.handOut_succ h.heap halloc
  · rw [List.mem_append, not_or, List.mem_singleton] at hw
    rw [hother w hw.2, h.other w hw.1]
  · rw [not_or] at hn
    have hXp : X ∈ pages := by
      rcases List.mem_append.mp hX with hX | hX
      · exact hX
      · exact absurd (List.mem_singleton.mp hX) hn.2
    rw [hother _ (by rw [frame_pageAddr]; exact hn.2), h.unmapped X hXp hn.1]

/-- The page `W` is unmapped. -/
theorem unmap (h : Temporary s₀ s held pages) (hW : W ∈ pages) (hheap : s'.pageHeap = s.pageHeap)
    (hother : ∀ w, pageOf w ≠ W → s'.space.frameOf w = s.space.frameOf w)
    (hnone : s'.space.frameOf (pageAddr W) = none) :
    Temporary s₀ s' (fun X => held X ∧ X ≠ W) pages := by
  refine ⟨hheap ▸ h.heap, fun w hw => ?_, fun X hX hn => ?_⟩
  · rw [hother w fun he => hw (he ▸ hW), h.other w hw]
  · by_cases hXW : X = W
    · rw [hXW, hnone]
    · rw [hother _ (by rw [frame_pageAddr]; exact hXW), h.unmapped X hX fun hx => hn ⟨hx, hXW⟩]

/-- The next page of the heap has its table as long as fewer pages were handed out than have
    their tables in `s₀`. -/
theorem heapTables (h : Temporary s₀ s held pages) (h₀ : s₀.Ready) (hw : Within s₀ s) {n : Nat}
    (ht : s₀.HeapTables n) (hlt : pages.length < n) : s.HeapTables 1 := by
  intro v hv
  have hv₀ : v ∈ s₀.pageHeap.nextPages (pages.length + 1) := by
    rw [Memory.PageHeap.handOut_nextPages h.heap]
    exact List.mem_append_right _ hv
  have := ht.mono hlt v hv₀
  rwa [Space.pde, ← hw.dir h₀] at this

/-- In the end, when no page is held any more. -/
theorem frameOf_eq (h : Temporary s₀ s (fun _ => False) pages) (w : BitVec 32) :
    s.space.frameOf w = if pageOf w ∈ pages then none else s₀.space.frameOf w := by
  split
  · next hw =>
      rw [Space.frameOf_congr (frame_pageAddr (pageOf w)).symm, h.unmapped _ hw id]
  · next hw => rw [h.other w hw]

end Temporary

end Vm

end Muse.Paging
