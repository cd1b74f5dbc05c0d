import Muse.Paging.Proofs.TaskDirectory

/-!
# Building a directory and the active address space

A directory is built on pages of the heap, which are mapped and unmapped again. In the end
`scroll_unmap` passes the physical address of the directory to `unmap_page`, so the page with that
number is unmapped in the active address space as well.
-/

namespace Muse.Paging

open Muse.Library

namespace Vm

/-- The pages of the heap that are mapped for the directory, its stack and its tables: the
    next ones that the heap hands out. -/
def temporaryPages (s : Vm) (tables : Nat) : List (BitVec 32) :=
  ((s.pageHeap.handOut (2 + tables)).map Prod.fst).getD []

theorem temporaryPages_subset (s : Vm) (tables : Nat) :
    s.temporaryPages tables ⊆ s.pageHeap.nextPages (2 + tables) := by
  cases hn : s.pageHeap.handOut (2 + tables) with
  | none => simp [temporaryPages, hn]
  | some p =>
      have hpages := Memory.PageHeap.handOut_nextPages hn 0
      rw [Nat.add_zero, Memory.PageHeap.nextPages, List.append_nil] at hpages
      simp [temporaryPages, hn, hpages]

/-- The address of the next free page, on which the directory is. -/
def directoryPage (s : Vm) : BitVec 32 := pageAddr (s.freePages.headD 0#20)

/-- What was mapped keeps its mapping, and the temporary pages are unmapped. -/
structure LeavesAlone (s s' : Vm) (temporaries : List (BitVec 32)) : Prop where
  mapping : ∀ v, s.space.frameOf v ≠ none → s'.getPageMapping v = s.getPageMapping v
  temporary : ∀ t ∈ temporaries, s'.space.frameOf t = none

/-- `get_page_mapping` finds nothing at the pages that are going to be unmapped: the temporary ones,
    and the one whose number is that of the page of the directory. -/
def Unseen (s : Vm) (temporaries : List (BitVec 32)) : Prop :=
  ∀ v ∈ s.directoryPage :: temporaries, s.getPageMapping v = some 0#32

/-- The pages that were handed out are the temporary ones. -/
theorem Completed.temporaryPages {s₀ s : Vm} {d S : BitVec 20} {base : BitVec 10 → BitVec 32}
    {funcPtr : BitVec 32} {tbl : BitVec 10 → Option (BitVec 20)} {pages : List (BitVec 20)}
    (user : Bool) (rest : List (BitVec 20)) {scrolls : List Scroll}
    (h : Completed s₀ s d S base funcPtr tbl pages
      (taskScrolls (userScrolls user rest) (pageAddr S) scrolls))
    (huser : user = true → rest ≠ []) :
    s₀.temporaryPages (tableCount user scrolls) = pages.map pageAddr := by
  have hheap := h.heap
  rw [h.count, card_taskScrolls huser] at hheap
  rw [Vm.temporaryPages, hheap]
  rfl

/-- The active address space is left alone exactly if the pages that are unmapped were not
    mapped. -/
theorem Completed.leavesAlone_iff {s₀ s : Vm} {d S : BitVec 20} {base : BitVec 10 → BitVec 32}
    {funcPtr : BitVec 32} {tbl : BitVec 10 → Option (BitVec 20)} {pages rest : List (BitVec 20)}
    {scrolls : List Scroll} (h₀ : s₀.Ready) (hfree : s₀.freePages = d :: rest)
    (h : Completed s₀ s d S base funcPtr tbl pages scrolls) :
    LeavesAlone s₀ s (pages.map pageAddr) ↔ Unseen s₀ (pages.map pageAddr) := by
  have hself₀ := h₀.tables.selfMapped
  have hself := (h.within.tables h₀).selfMapped
  have hpage : ∀ X, X ∈ d :: pages ↔ pageAddr X ∈ s₀.directoryPage :: pages.map pageAddr := by
    intro X
    rw [directoryPage, hfree, List.headD_cons, ← List.map_cons,
      List.mem_map_of_injective fun _ _ => pageAddr_inj.mp]
  constructor
  · intro hl v hv
    by_cases hnone : s₀.space.frameOf v = none
    · rw [getPageMapping_eq hself₀, hnone]
      rfl
    · obtain ⟨X, hX, rfl⟩ : ∃ X, X ∈ d :: pages ∧ pageAddr X = v := by
        rw [directoryPage, hfree, List.headD_cons, ← List.map_cons] at hv
        exact List.mem_map.mp hv
      rw [← hl.mapping _ hnone, getPageMapping_eq hself, h.maps, frame_pageAddr, if_pos hX]
      rfl
  · intro hu
    refine ⟨fun v _ => ?_, fun t ht => ?_⟩
    · rw [getPageMapping_eq hself, h.maps]
      split
      · next hX =>
          have := hu _ ((hpage _).mp hX)
          rw [getPageMapping_eq hself₀, Space.frameOf_congr (frame_pageAddr (pageOf v))] at this
          rw [getPageMapping_eq hself₀, this]
          rfl
      · rw [getPageMapping_eq hself₀]
    · obtain ⟨X, hX, rfl⟩ := List.mem_map.mp ht
      rw [h.maps, frame_pageAddr, if_pos (List.mem_cons_of_mem _ hX)]

/-- Where the temporary pages have their tables, both functions leave the active address space alone
    exactly if `get_page_mapping` finds nothing at these pages and at the page with the number of
    the directory's page. -/
theorem directories_leave_alone (s s' : Vm) (funcPtr p : BitVec 32) (scrolls : List Scroll)
    (h₀ : s.Ready)
    (hbind : ∀ i : BitVec 10, s.space.mem s.space.cr3 i &&& manuscriptBind = 0#32) :
    (∀ user, s.HeapTables (2 + tableCount user scrolls) →
      s.createTaskDirectory funcPtr user scrolls = some (p, s') →
      (LeavesAlone s s' (s.temporaryPages (tableCount user scrolls)) ↔
        s.Unseen (s.temporaryPages (tableCount user scrolls)))) ∧
    (s.HeapTables (2 + tableCount false scrolls) →
      s.createKernelDirectory funcPtr scrolls = some (p, s') →
      (LeavesAlone s s' (s.temporaryPages (tableCount false scrolls)) ↔
        s.Unseen (s.temporaryPages (tableCount false scrolls)))) := by
  refine ⟨fun user ht₀ hs => ?_, fun ht₀ hs => ?_⟩
  · obtain ⟨d, S, rest, tbl, pages, hfree, huser, rfl, hdone⟩ :=
      createTaskDirectory_completed h₀ (fun i _ => hbind i) ht₀ hs
    rw [hdone.temporaryPages user rest huser]
    exact hdone.leavesAlone_iff h₀ hfree
  · obtain ⟨d, S, rest, tbl, pages, hfree, rfl, hdone⟩ :=
      createKernelDirectory_completed h₀ (fun i _ => hbind i) ht₀ hs
    rw [Completed.temporaryPages false rest hdone fun h => by cases h]
    exact hdone.leavesAlone_iff h₀ hfree

/-! ## Two machines after boot -/

/-- Nothing is mapped below the window. -/
theorem bootVm_frameOf {v : BitVec 32} (hv : dirIdx v ≠ 1023#10) :
    bootVm.space.frameOf v = none := by
  rw [Space.frameOf_eq_none]
  intro hp
  have hd : dirIdx v = 513#10 := (bootVm_present hp).resolve_left hv
  have hpde : bootVm.space.pde v = 0x2003#32 := by
    rw [Space.pde, hd]
    exact bootVm_entry 513#10
  have hf : frame 0x2003#32 = 2#20 := by decide
  rw [Space.pte, hpde, hf]
  simp [bootVm, present]

theorem directories_leave_alone_boot : ∃ p s',
    bootVm.createTaskDirectory 0x80100000#32 true [] = some (p, s') ∧
      LeavesAlone bootVm s' (bootVm.temporaryPages (tableCount true [])) := by
  obtain ⟨p, s', hs⟩ := bootVm_creates 0x80100000#32 true [] (by decide)
  refine ⟨p, s', hs, ((directories_leave_alone bootVm s' _ p [] bootVm_ready
    bootVm_unbound).1 true (bootVm_heapTables.mono (by decide)) hs).mpr fun v hv => ?_⟩
  have hdir : ∀ v ∈ bootVm.directoryPage :: bootVm.temporaryPages (tableCount true []),
      dirIdx v ≠ 1023#10 := by
    intro v hv
    rcases List.mem_cons.mp hv with rfl | hv
    · decide
    · rw [bootVm_dirIdx (Memory.PageHeap.nextPages_subset (by decide) _
        (bootVm.temporaryPages_subset _ hv))]
      decide
  rw [getPageMapping_eq bootVm_tables.selfMapped, bootVm_frameOf (hdir v hv)]
  rfl

/-- The machine of `bootVm` with page 16 mapped to frame 7 by a table in frame 3. -/
def lowVm : Vm := (bootVm.write 1#20 0#10 0x3003#32).write 3#20 16#10 0x7003#32

theorem lowVm_entry (i : BitVec 10) : lowVm.space.mem lowVm.space.cr3 i =
    if i = 0#10 then 0x3003#32 else bootVm.space.mem 1#20 i := by
  rw [show lowVm.space.cr3 = 1#20 from rfl, lowVm, write_mem,
    PhysMem.write_of_ne _ _ fun h => absurd h (by decide), write_mem, PhysMem.write]
  simp only [true_and]

theorem lowVm_present {i : BitVec 10} (hp : present (lowVm.space.mem lowVm.space.cr3 i) = true) :
    i = 0#10 ∨ i = 1023#10 ∨ i = 513#10 := by
  by_cases h0 : i = 0#10
  · exact .inl h0
  · rw [lowVm_entry, if_neg h0] at hp
    exact .inr (bootVm_present hp)

theorem lowVm_tables : Tables lowVm.space := by
  refine ⟨⟨?_, ?_⟩, fun i j hi hj hf => ?_⟩
  · rw [lowVm_entry, bootVm_entry]
    decide
  · rw [lowVm_entry, bootVm_entry]
    decide
  · rw [lowVm_entry, lowVm_entry, bootVm_entry, bootVm_entry] at hf
    rcases lowVm_present hi with rfl | rfl | rfl <;> rcases lowVm_present hj with rfl | rfl | rfl
    all_goals first | rfl | exact absurd hf (by decide)

theorem lowVm_ready : lowVm.Ready := by
  refine ⟨lowVm_tables, fun t ht => ⟨fun i hi he => ?_, (bootVm_ready.fresh t ht).2⟩,
    bootVm_ready.nodup, by decide, by decide, by decide⟩
  have hle := (bootVm_free ht).1
  rw [← he, lowVm_entry, bootVm_entry] at hle
  rcases lowVm_present hi with rfl | rfl | rfl <;> exact absurd hle (by decide)

theorem lowVm_unbound (i : BitVec 10) :
    lowVm.space.mem lowVm.space.cr3 i &&& manuscriptBind = 0#32 := by
  rw [lowVm_entry]
  split
  · decide
  · exact bootVm_unbound i

theorem lowVm_heapTables : lowVm.HeapTables 7 := by
  intro v hv
  rw [Space.pde, bootVm_dirIdx hv, lowVm_entry, if_neg (by decide)]
  decide

/-- Page 16 is mapped before the call and not afterwards: 16 is the number of the page that the
    directory is on. -/
theorem low_page_unmapped : ¬ ∀ (s s' : Vm) (funcPtr p : BitVec 32) (user : Bool)
    (scrolls : List Scroll), s.Ready → s.HeapTables (2 + tableCount user scrolls) →
    (∀ i : BitVec 10, s.space.mem s.space.cr3 i &&& manuscriptBind = 0#32) →
    s.createTaskDirectory funcPtr user scrolls = some (p, s') →
    LeavesAlone s s' (s.temporaryPages (tableCount user scrolls)) := by
  intro hall
  obtain ⟨p, s', hs⟩ := createTaskDirectory_total lowVm_ready (fun i _ => lowVm_unbound i)
    0x80100000#32 true [] (lowVm_heapTables.mono (by decide)) (bootVm_supply.of_le (by decide))
    (by decide)
  have hl := hall lowVm s' _ p true [] lowVm_ready (lowVm_heapTables.mono (by decide))
    lowVm_unbound hs
  have hbefore : lowVm.space.frameOf 0x10000#32 = some 7#20 := by
    have hpde : lowVm.space.pde 0x10000#32 = 0x3003#32 := by
      rw [Space.pde, lowVm_entry]
      decide
    have hpte : lowVm.space.pte 0x10000#32 = 0x7003#32 := by
      have hf : frame 0x3003#32 = 3#20 := by decide
      have ht : tblIdx 0x10000#32 = 16#10 := by decide
      rw [Space.pte, hpde, hf, ht, lowVm, write_mem, PhysMem.write_self]
    rw [Space.frameOf_eq_some, hpde, hpte]
    decide
  obtain ⟨d, S, rest, tbl, pages, hfree, -, -, hdone⟩ :=
    createTaskDirectory_completed lowVm_ready (fun i _ => lowVm_unbound i)
      (lowVm_heapTables.mono (by decide)) hs
  obtain rfl : d = 16#20 := (List.cons.inj hfree).1.symm
  have hafter : s'.space.frameOf 0x10000#32 = none := by
    rw [hdone.maps, if_pos]
    exact List.mem_cons_self ..
  have hmapping := hl.mapping 0x10000#32 (by rw [hbefore]; exact Option.some_ne_none _)
  rw [getPageMapping_eq (hdone.within.tables lowVm_ready).selfMapped,
    getPageMapping_eq lowVm_tables.selfMapped, hbefore, hafter] at hmapping
  exact absurd hmapping (by decide)

end Vm

end Muse.Paging
