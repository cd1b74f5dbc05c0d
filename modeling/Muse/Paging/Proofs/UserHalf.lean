import Muse.Paging.Proofs.TaskDirectory

/-!
# The user half of a new task

What a directory of `create_task_directory` shows below `0x80000000` is given by the scrolls alone:
the last scroll of a page counts, and the other pages are absent.
-/

namespace Muse.Paging

open Muse.Library

namespace Vm

/-- An entry through which the user may write. -/
def OpenEntry (e : BitVec 32) : Prop := UserEntry e ∧ e &&& pagingBitWriteable ≠ 0#32

theorem openEntry_createPagingEntry (a : BitVec 32) :
    OpenEntry (createPagingEntry a true true true) :=
  ⟨userEntry_createPagingEntry a, createPagingEntry_writeable a true true⟩

/-- The page of `v` is the frame `f`, and the user may write to it. -/
structure UserPage (space : Space) (v : BitVec 32) (f : BitVec 20) : Prop where
  mapped : space.frameOf v = some f
  directory : OpenEntry (space.pde v)
  table : OpenEntry (space.pte v)

/-- The directory `d` shows the scrolls below `0x80000000` and nothing else there, and
    no entry is left that `bind_manuscript` would bind. -/
structure ShowsScrolls (mem : PhysMem) (d : BitVec 20) (scrolls : List Scroll) : Prop where
  shown : ∀ v < 0x80000000#32, ∀ f,
    lastWrite (scrolls.map Scroll.mapping) (pageOf v) = some f → UserPage ⟨mem, d⟩ v f
  absent : ∀ v < 0x80000000#32, lastWrite (scrolls.map Scroll.mapping) (pageOf v) = none →
    (Space.mk mem d).frameOf v = none
  entries : ∀ i, mem d i &&& manuscriptBind = 0#32
  tables : ∀ v < 0x80000000#32, present ((Space.mk mem d).pde v) = true →
    (Space.mk mem d).pte v &&& manuscriptBind = 0#32

theorem dirIdx_lt_half {v : BitVec 32} : v < 0x80000000#32 ↔ (dirIdx v).toNat < 512 := by
  rw [BitVec.lt_def, dirIdx_toNat, BitVec.toNat_ofNat]
  omega

/-- A page of the scrolls has its entry among theirs. -/
theorem mem_slotsOf_of_lastWrite {scrolls : List Scroll} {v : BitVec 32} {f : BitVec 20}
    (h : lastWrite (scrolls.map Scroll.mapping) (pageOf v) = some f) :
    dirIdx v ∈ slotsOf scrolls := by
  by_contra hnot
  have hnone : lastWrite (scrolls.map Scroll.mapping) (pageOf v) = none := by
    refine lastWrite_eq_none.mpr fun w hw he => hnot ?_
    obtain ⟨scr, hscr, rfl⟩ := List.mem_map.mp hw
    exact mem_slotsOf.mpr ⟨scr, hscr, (pageOf_eq_iff.mp he).1⟩
  rw [hnone] at h
  cases h

section Completed

variable {s₀ s : Vm} {d S : BitVec 20} {base : BitVec 10 → BitVec 32} {funcPtr : BitVec 32}
  {tbl : BitVec 10 → Option (BitVec 20)} {pages : List (BitVec 20)} {scrolls : List Scroll}

/-- The entries of a page whose directory entry has a table. -/
theorem Completed.entries (h : Completed s₀ s d S base funcPtr tbl pages scrolls) {v : BitVec 32}
    {T : BitVec 20} (hT : tbl (dirIdx v) = some T) :
    (Space.mk s.space.mem d).pde v = createPagingEntry (pageAddr T) true true true ∧
      (Space.mk s.space.mem d).pte v =
        pageWord true (lastWrite (scrolls.map Scroll.mapping) (pageOf v)) := by
  have hpde : (Space.mk s.space.mem d).pde v = createPagingEntry (pageAddr T) true true true :=
    h.entry _ T hT
  refine ⟨hpde, ?_⟩
  rw [Space.pte, hpde, frame_createPagingEntry, frame_pageAddr]
  exact h.content v T hT

/-- The page of a scroll. -/
theorem Completed.shown (h : Completed s₀ s d S base funcPtr tbl pages scrolls) {v : BitVec 32}
    {f : BitVec 20} (hf : lastWrite (scrolls.map Scroll.mapping) (pageOf v) = some f) :
    UserPage ⟨s.space.mem, d⟩ v f := by
  obtain ⟨T, hT⟩ := Option.ne_none_iff_exists'.mp
    ((h.only (dirIdx v)).mpr (mem_slotsOf_of_lastWrite hf))
  obtain ⟨hpde, hpte⟩ := h.entries hT
  rw [hf] at hpte
  refine ⟨?_, ?_, ?_⟩
  · rw [Space.frameOf_eq_some, hpde, hpte]
    exact ⟨present_createPagingEntry .., present_createPagingEntry .., by
      rw [pageWord, frame_createPagingEntry, frame_pageAddr]⟩
  · rw [hpde]
    exact openEntry_createPagingEntry _
  · rw [hpte]
    exact openEntry_createPagingEntry _

/-- Where the first entries are absent, a page of no scroll is absent. -/
theorem Completed.absent (h : Completed s₀ s d S base funcPtr tbl pages scrolls) {v : BitVec 32}
    (hbase : base (dirIdx v) = 0#32)
    (hf : lastWrite (scrolls.map Scroll.mapping) (pageOf v) = none) :
    (Space.mk s.space.mem d).frameOf v = none := by
  rw [Space.frameOf_eq_none]
  intro hp
  cases hT : tbl (dirIdx v) with
  | none =>
      rw [Space.pde, h.unbound _ hT, hbase] at hp
      cases hp
  | some T =>
      rw [(h.entries hT).2, hf]
      rfl

/-- No entry is bound. -/
theorem Completed.entry_bind (h : Completed s₀ s d S base funcPtr tbl pages scrolls)
    (hbase : ∀ i, base i &&& manuscriptBind = 0#32) (i : BitVec 10) :
    s.space.mem d i &&& manuscriptBind = 0#32 := by
  cases hT : tbl i with
  | none => rw [h.unbound i hT, hbase]
  | some T => rw [h.entry i T hT, createPagingEntry_bind]

theorem pageWord_bind (user : Bool) (o : Option (BitVec 20)) :
    pageWord user o &&& manuscriptBind = 0#32 := by
  cases o with
  | none => exact BitVec.zero_and
  | some f => exact createPagingEntry_bind ..

end Completed

theorem higherHalf_low {s₀ : Vm} {d : BitVec 20} {v : BitVec 32} (hv : v < 0x80000000#32) :
    higherHalf s₀ d (dirIdx v) = 0#32 := by
  have hlow := dirIdx_lt_half.mp hv
  have hne : dirIdx v ≠ 1023#10 := by
    intro he
    rw [he] at hlow
    exact absurd hlow (by decide)
  rw [higherHalf, if_neg hne, if_pos hlow]

/-- The stack of the task lies in the other half. -/
theorem lastWrite_taskScrolls {userScrs scrolls : List Scroll} {page v : BitVec 32}
    (hv : v < 0x80000000#32) :
    lastWrite ((taskScrolls userScrs page scrolls).map Scroll.mapping) (pageOf v) =
      lastWrite ((userScrs ++ scrolls).map Scroll.mapping) (pageOf v) := by
  have hstack : pageOf (alignPgDown taskStackBase) ≠ pageOf v := by
    intro he
    have hlow := dirIdx_lt_half.mp hv
    rw [← (pageOf_eq_iff.mp he).1] at hlow
    exact absurd hlow (by decide)
  have hnone : lastWrite [Scroll.mapping ⟨alignPgDown taskStackBase, pageSize, .aligned, page⟩]
      (pageOf v) = none := by
    rw [lastWrite_eq_none]
    simpa [Scroll.mapping] using hstack
  rw [taskScrolls, ← List.singleton_append, List.map_append, List.map_append, List.map_append,
    lastWrite_append, lastWrite_append, lastWrite_append, List.map_singleton, hnone,
    Option.or_none]

/-- A directory of `create_task_directory` shows, below `0x80000000`, the user stack and the
    scrolls and nothing else; the function returns if there are pages for all of them. -/
theorem user_half_shows_scrolls (s : Vm) (funcPtr : BitVec 32) (user : Bool)
    (scrolls : List Scroll) (h₀ : s.Ready)
    (ht₀ : s.HeapTables (2 + tableCount user scrolls))
    (hbind : ∀ i : BitVec 10, 512 ≤ i.toNat →
      s.space.mem s.space.cr3 i &&& manuscriptBind = 0#32) :
    (Supply (scrolls.length + 4) s.pageHeap → scrolls.length + 5 ≤ s.freePages.length →
      ∃ p s', s.createTaskDirectory funcPtr user scrolls = some (p, s')) ∧
    ∀ p s', s.createTaskDirectory funcPtr user scrolls = some (p, s') →
      ShowsScrolls s'.space.mem (pageOf p) (userScrolls user (s.freePages.drop 2) ++ scrolls) := by
  refine ⟨createTaskDirectory_total h₀ hbind funcPtr user scrolls ht₀, fun p s' hs => ?_⟩
  obtain ⟨d, S, rest, tbl, pages, hfree, -, rfl, hdone⟩ :=
    createTaskDirectory_completed h₀ hbind ht₀ hs
  rw [hfree, List.drop_succ_cons, List.drop_succ_cons, List.drop_zero,
    show pageOf (pageAddr d) = d from frame_pageAddr d]
  refine ⟨fun v hv f hf => ?_, fun v hv hf => ?_,
    hdone.entry_bind (higherHalf_bind hbind), fun v hv hp => ?_⟩
  · rw [← lastWrite_taskScrolls hv] at hf
    exact hdone.shown hf
  · rw [← lastWrite_taskScrolls hv] at hf
    exact hdone.absent (higherHalf_low hv) hf
  · cases hT : tbl (dirIdx v) with
    | none =>
        rw [Space.pde, hdone.unbound _ hT, higherHalf_low hv] at hp
        cases hp
    | some T => rw [(hdone.entries hT).2, pageWord_bind]

/-- Two scrolls of the page `0x400000`: the second one counts. -/
theorem user_half_shows_scrolls_boot : ∃ p s',
    bootVm.createTaskDirectory 0x80100000#32 true
      [⟨0x400000#32, pageSize, .aligned, 0x5000#32⟩,
        ⟨0x400000#32, pageSize, .aligned, 0x6000#32⟩] = some (p, s') ∧
      (Space.mk s'.space.mem (pageOf p)).frameOf 0x400000#32 = some 6#20 := by
  have h := user_half_shows_scrolls bootVm 0x80100000#32 true
    [⟨0x400000#32, pageSize, .aligned, 0x5000#32⟩, ⟨0x400000#32, pageSize, .aligned, 0x6000#32⟩]
    bootVm_ready (bootVm_heapTables.mono (by decide)) fun i _ => bootVm_unbound i
  obtain ⟨p, s', hs⟩ := h.1 (bootVm_supply.of_le (by decide)) (by decide)
  exact ⟨p, s', hs, ((h.2 p s' hs).shown 0x400000#32 (by decide) 6#20 (by decide)).mapped⟩

end Vm

end Muse.Paging
