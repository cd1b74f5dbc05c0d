import Muse.Paging.Proofs.Manuscript
import Muse.Paging.Proofs.Stack

/-!
# What `create_task_directory` and `create_kernel_directory` build

The two differ in the entries they start from. `Completed` describes the directory that is returned
and what else has changed; `Built` is what the isolation of the tasks needs of it.
-/

namespace Muse.Paging

open Muse.Library

namespace Vm

/-- The entries of a new directory of a task before any scroll is inserted. -/
def higherHalf (s : Vm) (d : BitVec 20) (i : BitVec 10) : BitVec 32 :=
  if i = 1023#10 then createPagingEntry (pageAddr d) true true false
  else if i.toNat < 512 then 0#32
  else s.space.mem s.space.cr3 i

/-- Those of a new directory of the kernel. -/
def lowerHalf (s : Vm) (d : BitVec 20) (i : BitVec 10) : BitVec 32 :=
  if i = 1023#10 then createPagingEntry (pageAddr d) true true false
  else if i.toNat < 512 then s.space.mem s.space.cr3 i
  else 0#32

/-- No entry of a new directory is bound if no entry of the active one is. -/
theorem higherHalf_bind {s₀ : Vm} {d : BitVec 20}
    (hbind : ∀ i : BitVec 10, 512 ≤ i.toNat →
      s₀.space.mem s₀.space.cr3 i &&& manuscriptBind = 0#32) (i : BitVec 10) :
    higherHalf s₀ d i &&& manuscriptBind = 0#32 := by
  unfold higherHalf
  split
  · exact createPagingEntry_bind ..
  · split
    · simp
    · exact hbind i (by omega)

theorem lowerHalf_bind {s₀ : Vm} {d : BitVec 20}
    (hbind : ∀ i : BitVec 10, i.toNat < 512 →
      s₀.space.mem s₀.space.cr3 i &&& manuscriptBind = 0#32) (i : BitVec 10) :
    lowerHalf s₀ d i &&& manuscriptBind = 0#32 := by
  unfold lowerHalf
  split
  · exact createPagingEntry_bind ..
  · split
    · next hlow => exact hbind i hlow
    · simp

/-! ## The directory page -/

/-- The state after the entries of the directory `d` were filled. -/
structure Filled (s₀ s : Vm) (V d : BitVec 20) (base : BitVec 10 → BitVec 32) : Prop where
  freePages : s₀.freePages = d :: s.freePages
  building : Building s₀ s V d base (fun _ => none) [V]

/-- The page of the stack has its table if it is the second one that the heap hands out. -/
theorem Filled.heapTables {s₀ s : Vm} {V d : BitVec 20} {base : BitVec 10 → BitVec 32}
    (hf : Filled s₀ s V d base) (h₀ : s₀.Ready) {n : Nat} (ht₀ : s₀.HeapTables (2 + n)) :
    s.HeapTables 1 :=
  hf.building.trace.heapTables h₀ hf.building.within ht₀ (by rw [List.length_singleton]; omega)

section Create

variable {s₀ s s' : Vm} {V d : BitVec 20} {base : BitVec 10 → BitVec 32} (h₀ : s₀.Ready)

include h₀

/-- The page of a new directory, filled with its entries. -/
theorem filled_of_fills (ht₀ : s₀.HeapTables 1) {scr : Scroll} {T : BitVec 20}
    (hs : s₀.kmallocPage = some (scr, s))
    (hscr : scr = ⟨pageAddr V, pageSize, .aligned, pageAddr T⟩)
    (hfill : Fills s₀ s s' T) (hbase : ∀ i, s'.space.mem T i = base i) :
    Filled s₀ s' V T base := by
  have halloc := kmallocPage_heap h₀ ht₀ (Within.refl s₀) hs
  obtain ⟨W, T', hscr', hfree, -, hV, -, hed, hmap⟩ :=
    kmallocPage_spec h₀ ht₀ (Within.refl s₀) hs
  rw [hscr] at halloc hscr'
  simp only [Scroll.mk.injEq, pageAddr_inj, true_and] at hscr'
  obtain ⟨rfl, rfl⟩ := hscr'
  obtain ⟨hd, hused⟩ := (Within.refl s₀).head_not_mem h₀ hfree
  have htrace := (Temporary.refl s₀ (Holds V (fun _ => none) 0)).malloc halloc hed.other
  refine ⟨by rw [hfill.freePages]; exact hfree, hfill.within, hd, hfill.freePages ▸ hused,
    (hfill.maps _).trans hmap, ?_, fun i W T hi => (by cases hi), fun i W T hi => (by cases hi),
    fun i j W T W' T' hi => (by cases hi), fun i _ => hbase i, ?_, List.mem_singleton.mpr rfl,
    fun i W T hi => (by cases hi)⟩
  · simpa only [Taken, HeapPage, hfill.pageHeap] using hV
  · refine (htrace.congr hfill.maps hfill.pageHeap).mono fun X hX => ?_
    exact hX.elim id fun hXV => .inl hXV

/-- The page for a directory: it is mapped, and it was free. -/
theorem kmallocPage_dir (ht₀ : s₀.HeapTables 1) {scr : Scroll}
    (hs : s₀.kmallocPage = some (scr, s)) : ∃ V d,
      scr = ⟨pageAddr V, pageSize, .aligned, pageAddr d⟩ ∧ d ∈ s₀.freePages ∧ Within s₀ s ∧
      s.space.frameOf (pageAddr V) = some d := by
  obtain ⟨V, d, rfl, hfree, -, -, -, hed, hmap⟩ :=
    kmallocPage_spec h₀ ht₀ (Within.refl s₀) hs
  exact ⟨V, d, rfl, ((Within.refl s₀).head_not_mem h₀ hfree).1, hed.within, hmap⟩

/-- The last entry of a directory that was filled names the directory itself. -/
theorem fills_selfEntry {s₂ : Vm} (hd : d ∈ s₀.freePages) (hf : Fills s₀ s s₂ d)
    (hmap : s.space.frameOf (pageAddr V) = some d) :
    s₂.store (elem (pageAddr V) 1023#32) (createPagingEntry (pageAddr d) true true false) =
        some (s₂.write d 1023#10 (createPagingEntry (pageAddr d) true true false)) ∧
      Fills s₀ s (s₂.write d 1023#10 (createPagingEntry (pageAddr d) true true false)) d :=
  ⟨storePage ((hf.maps _).trans hmap) 1023#10 _, hf.trans (hf.within.fills_write h₀ hd 1023#10 _)⟩

theorem task_start (ht₀ : s₀.HeapTables 1) {scr : Scroll} (hs : s₀.kmallocPage = some (scr, s)) :
    ∃ V d s₁ s₂ s₃, scr = ⟨pageAddr V, pageSize, .aligned, pageAddr d⟩ ∧
      s.clearWords (pageAddr V) 512 = some s₁ ∧ s₁.copyHigherHalf (pageAddr V) 512 = some s₂ ∧
      s₂.store (elem (pageAddr V) 1023#32) (createPagingEntry (pageAddr d) true true false) =
        some s₃ ∧
      s₃.pageHeap = s.pageHeap ∧ s₃.freePages = s.freePages ∧
      Filled s₀ s₃ V d (higherHalf s₀ d) := by
  obtain ⟨V, d, hscr, hd, hw, hmap⟩ := kmallocPage_dir h₀ ht₀ hs
  obtain ⟨hs₁, hf₁⟩ := hw.clearWords h₀ hd hmap (n := 512) (by decide)
  obtain ⟨s₂, hs₂, hf₂, hmem₂⟩ :=
    hf₁.within.copyEntries h₀ hd ((hf₁.maps _).trans hmap) 512 512 (Nat.le_refl _)
  obtain ⟨hstore, hfill⟩ := fills_selfEntry h₀ hd (hf₁.trans hf₂) hmap
  refine ⟨V, d, _, s₂, _, hscr, hs₁, (copyHigherHalf_eq ..).trans hs₂, hstore, hfill.pageHeap,
    hfill.freePages, filled_of_fills h₀ ht₀ hs hscr hfill fun i => ?_⟩
  have h1023 : i = 1023#10 ↔ i.toNat = 1023 := by
    rw [← BitVec.toNat_inj, BitVec.toNat_ofNat]
  have hi : i.toNat < 1024 := i.isLt
  simp only [higherHalf, write_mem, PhysMem.write, true_and]
  split
  · rfl
  · next hne =>
      rw [h1023] at hne
      rw [hmem₂, cleared_mem]
      by_cases hlow : i.toNat < 512
      · rw [if_neg (by omega), if_pos ⟨rfl, hlow⟩, if_pos hlow]
      · rw [if_pos (by omega), if_neg hlow]

theorem kernel_start (ht₀ : s₀.HeapTables 1) {scr : Scroll} (hs : s₀.kmallocPage = some (scr, s)) :
    ∃ V d s₁ s₂ s₃, scr = ⟨pageAddr V, pageSize, .aligned, pageAddr d⟩ ∧
      s.copyEntries (pageAddr V) 0 512 = some s₁ ∧ s₁.clearEntries (pageAddr V) 512 511 = some s₂ ∧
      s₂.store (elem (pageAddr V) 1023#32) (createPagingEntry (pageAddr d) true true false) =
        some s₃ ∧
      s₃.pageHeap = s.pageHeap ∧ s₃.freePages = s.freePages ∧
      Filled s₀ s₃ V d (lowerHalf s₀ d) := by
  obtain ⟨V, d, hscr, hd, hw, hmap⟩ := kmallocPage_dir h₀ ht₀ hs
  obtain ⟨s₁, hs₁, hf₁, hmem₁⟩ := hw.copyEntries h₀ hd hmap 0 512 (by decide)
  obtain ⟨s₂, hs₂, hf₂, hmem₂⟩ :=
    hf₁.within.clearEntries h₀ hd ((hf₁.maps _).trans hmap) 512 511 (by decide)
  obtain ⟨hstore, hfill⟩ := fills_selfEntry h₀ hd (hf₁.trans hf₂) hmap
  refine ⟨V, d, s₁, s₂, _, hscr, hs₁, hs₂, hstore, hfill.pageHeap, hfill.freePages,
    filled_of_fills h₀ ht₀ hs hscr hfill fun i => ?_⟩
  have h1023 : i = 1023#10 ↔ i.toNat = 1023 := by
    rw [← BitVec.toNat_inj, BitVec.toNat_ofNat]
  have hi : i.toNat < 1024 := i.isLt
  simp only [lowerHalf, write_mem, PhysMem.write, true_and]
  split
  · rfl
  · next hne =>
      rw [h1023] at hne
      rw [hmem₂, hmem₁]
      by_cases hlow : i.toNat < 512
      · rw [if_neg (by omega), if_pos (by omega), if_pos hlow]
      · rw [if_pos (by omega), if_neg hlow]

/-! ## The stacks -/

/-- The stack is filled and taken off the page it was filled on. -/
theorem Building.stack {bound : BitVec 10 → Option (BitVec 20 × BitVec 20)}
    {pages : List (BitVec 20)} (ht : s.HeapTables 1)
    (hb : Building s₀ s V d base bound pages) {scr : Scroll} (funcPtr : BitVec 32)
    (hs : s.kmallocPage = some (scr, s')) :
    ∃ W S s₁ s₂, scr = ⟨pageAddr W, pageSize, .aligned, pageAddr S⟩ ∧
      s'.fillStack (scr.vaddr + taskStackBase % pageSize) funcPtr = some s₁ ∧
      s₁.unmapPage scr.vaddr = some s₂ ∧ s₂.kfree scr.vaddr = some s₂ ∧
      s₂.freePages = s'.freePages ∧ s₂.pageHeap = s'.pageHeap ∧ s.freePages = S :: s₂.freePages ∧
      s₂.HoldsFrame S funcPtr ∧ Building s₀ s₂ V d base bound (pages ++ [W]) := by
  have halloc := kmallocPage_heap h₀ ht hb.within hs
  obtain ⟨W, S, rfl, hfree, hW, hW', htaken, hed, hmap⟩ :=
    kmallocPage_spec h₀ ht hb.within hs
  obtain ⟨hS, -⟩ := hb.within.head_not_mem h₀ hfree
  have hdS : d ≠ S := fun he => hb.used (he ▸ hfree ▸ List.mem_cons_self ..)
  obtain ⟨hWV, hWb⟩ := hb.ne_of_not_taken hW
  have htrace := hb.trace.malloc halloc hed.other
  obtain ⟨s₁, hs₁, hf₁, hframe⟩ := hed.within.fillStack h₀ hS hmap funcPtr
  have hdirW := hW'.dirIdx_ne h₀ hed.within
  obtain ⟨s₂, hs₂, hed₂, hfree₂, hheap₂⟩ := hf₁.within.unmapPage h₀ hdirW
  have hnone := hf₁.within.frameOf_unmapPage h₀ hdirW hs₂
  rw [frame_pageAddr] at hed₂
  have hheap : s₂.pageHeap = s'.pageHeap := hheap₂.trans hf₁.pageHeap
  have hpool : s₂.freePages = s'.freePages := hfree₂.trans hf₁.freePages
  have hbuilding : Building s₀ s₂ V d base bound (pages ++ [W]) := by
    refine hb.congr hed₂.within (fun X hX => ?_) (fun k => ?_) ?_ (fun Y hY => ?_) ?_
      (List.subset_append_left ..)
    · -- the page of the stack is none of those on which the directory is built
      have hXW : pageOf (pageAddr X) ≠ W := by
        rw [frame_pageAddr]
        rcases hX with rfl | ⟨i, T, -, hi⟩
        · exact hWV.symm
        · exact (hWb i X T hi).symm
      rw [hed₂.other _ hXW, hf₁.maps, hed.other _ hXW]
    · rw [hed₂.own d hb.mem, hf₁.mem d hdS, hed.own d hb.mem]
    · rw [hpool, hfree]
      exact List.suffix_cons ..
    · have := htaken Y hY
      simpa only [Taken, HeapPage, hheap] using this
    · refine ((htrace.congr hf₁.maps hf₁.pageHeap).unmap
        (List.mem_append_right _ (List.mem_singleton.mpr rfl)) hheap₂ hed₂.other hnone).mono
        fun X hX => ?_
      exact hX.1.resolve_right hX.2
  refine ⟨W, S, s₁, s₂, rfl, hs₁, hs₂, Taken.kfree h₀ hed₂.within ?_, hpool, hheap,
    hpool ▸ hfree, hframe.congr (hed₂.own S hS), hbuilding⟩
  simpa only [Taken, HeapPage, hheap] using hW'

end Create

/-- The scroll of the user stack, on the first one of the pages `free`. -/
def userScrolls (user : Bool) (free : List (BitVec 20)) : List Scroll :=
  if user then (free.head?.map fun U =>
    ⟨alignPgDown userStackBase, userStackSize, .aligned, pageAddr U⟩).toList
  else []

theorem userScrolls_vaddr {user : Bool} {free : List (BitVec 20)} {scr : Scroll}
    (h : scr ∈ userScrolls user free) : scr.vaddr = alignPgDown userStackBase := by
  cases user with
  | false => cases h
  | true =>
      obtain ⟨U, -, rfl⟩ := Option.map_eq_some_iff.mp (Option.mem_toList.mp h)
      rfl

/-- The addresses of the scrolls that `create_task_directory` inserts; `create_kernel_directory`
    inserts those of a task without a user stack. -/
def insertedPages (user : Bool) (scrolls : List Scroll) : List (BitVec 32) :=
  (if user then [alignPgDown userStackBase] else []) ++
    alignPgDown taskStackBase :: scrolls.map Scroll.vaddr

/-- The number of tables that these scrolls need. -/
def tableCount (user : Bool) (scrolls : List Scroll) : Nat :=
  ((insertedPages user scrolls).map dirIdx).dedup.length

theorem userStack_spec {s s' : Vm} {user : Bool} {scrs : List Scroll}
    (hs : s.userStack user = some (scrs, s')) :
    scrs = userScrolls user s.freePages ∧ s'.space = s.space ∧ s'.pageHeap = s.pageHeap ∧
      s'.freePages <:+ s.freePages ∧ (user = true → s.freePages ≠ []) := by
  cases user with
  | false =>
      obtain ⟨rfl, rfl⟩ := Prod.mk.inj (Option.some.inj hs)
      exact ⟨rfl, rfl, rfl, List.suffix_refl _, fun h => (by cases h)⟩
  | true =>
      cases hfree : s.freePages with
      | nil => simp [userStack, kpageAlloc, hfree] at hs
      | cons U us =>
          simp only [userStack, kpageAlloc, hfree, if_true, Option.bind_eq_bind, Option.bind_some,
            Option.some.injEq, Prod.mk.injEq] at hs
          obtain ⟨rfl, rfl⟩ := hs
          exact ⟨rfl, rfl, rfl, List.suffix_cons .., fun _ => List.cons_ne_nil U us⟩

/-! ## The rest -/

/-- `create_task_directory` and `create_kernel_directory` from the stack on. -/
def completeDirectory (s : Vm) (directoryScr : Scroll) (funcPtr : BitVec 32) (user : Bool)
    (scrolls : List Scroll) : Option (BitVec 32 × Vm) := do
  let directory := directoryScr.vaddr
  let (stackScr, s) ← s.kmallocPage
  let s ← s.fillStack (stackScr.vaddr + taskStackBase % pageSize) funcPtr
  let s ← s.unmapPage stackScr.vaddr
  let s ← s.kfree stackScr.vaddr
  let stackScr := { stackScr with vaddr := alignPgDown taskStackBase }
  let (userScrs, s) ← s.userStack user
  let s ← s.insertScrolls directory (userScrs ++ stackScr :: scrolls)
  let s ← s.bindManuscript directory
  let s ← s.scrollUnmap directoryScr
  some (directoryScr.page, s)

theorem createTaskDirectory_eq (s : Vm) (funcPtr : BitVec 32) (user : Bool)
    (scrolls : List Scroll) : s.createTaskDirectory funcPtr user scrolls = (do
      let (directoryScr, s) ← s.kmallocPage
      let s ← s.clearWords directoryScr.vaddr 512
      let s ← s.copyHigherHalf directoryScr.vaddr 512
      let s ← s.store (elem directoryScr.vaddr 1023#32)
        (createPagingEntry directoryScr.page true true false)
      s.completeDirectory directoryScr funcPtr user scrolls) := rfl

theorem createKernelDirectory_eq (s : Vm) (funcPtr : BitVec 32) (scrolls : List Scroll) :
    s.createKernelDirectory funcPtr scrolls = (do
      let (directoryScr, s) ← s.kmallocPage
      let s ← s.copyEntries directoryScr.vaddr 0 512
      let s ← s.clearEntries directoryScr.vaddr 512 511
      let s ← s.store (elem directoryScr.vaddr 1023#32)
        (createPagingEntry directoryScr.page true true false)
      s.completeDirectory directoryScr funcPtr false scrolls) := rfl

/-- The scrolls of a new task: a user stack if it has one, the stack and its own scrolls. -/
def taskScrolls (userScrs : List Scroll) (stackPage : BitVec 32) (scrolls : List Scroll) :
    List Scroll :=
  userScrs ++ ⟨alignPgDown taskStackBase, pageSize, .aligned, stackPage⟩ :: scrolls

theorem map_vaddr_taskScrolls {user : Bool} {rest : List (BitVec 20)}
    (h : user = true → rest ≠ []) (stackPage : BitVec 32) (scrolls : List Scroll) :
    (taskScrolls (userScrolls user rest) stackPage scrolls).map Scroll.vaddr =
      insertedPages user scrolls := by
  cases user with
  | false => rfl
  | true =>
      cases rest with
      | nil => exact absurd rfl (h rfl)
      | cons U us => rfl

theorem card_slotsOf (scrolls : List Scroll) :
    (slotsOf scrolls).card = ((scrolls.map Scroll.vaddr).map dirIdx).dedup.length := by
  rw [slotsOf, List.card_toFinset, List.map_map]
  rfl

/-- The scrolls of a new task use as many entries as `tableCount` says. -/
theorem card_taskScrolls {user : Bool} {rest : List (BitVec 20)} (h : user = true → rest ≠ [])
    (stackPage : BitVec 32) (scrolls : List Scroll) :
    (slotsOf (taskScrolls (userScrolls user rest) stackPage scrolls)).card =
      tableCount user scrolls := by
  rw [card_slotsOf, map_vaddr_taskScrolls h, tableCount]

/-- The directory `d` was built from the entries `base` and the scrolls, with the stack on page
    `S`: `tbl i` is the table of entry `i`. The heap handed out `pages` on the way, and these pages
    and the page whose number is `d` are not mapped any more. -/
structure Completed (s₀ s : Vm) (d S : BitVec 20) (base : BitVec 10 → BitVec 32)
    (funcPtr : BitVec 32) (tbl : BitVec 10 → Option (BitVec 20)) (pages : List (BitVec 20))
    (scrolls : List Scroll) : Prop where
  within : Within s₀ s
  mem : d ∈ s₀.freePages
  used : d ∉ s.freePages
  table : ∀ i T, tbl i = some T → T ∈ s₀.freePages ∧ T ∉ s.freePages ∧ T ≠ d
  entry : ∀ i T, tbl i = some T →
    s.space.mem d i = createPagingEntry (pageAddr T) true true true
  inj : ∀ i j T, tbl i = some T → tbl j = some T → i = j
  unbound : ∀ i, tbl i = none → s.space.mem d i = base i
  only : ∀ i, tbl i ≠ none ↔ i ∈ slotsOf scrolls
  content : ∀ v T, tbl (dirIdx v) = some T → s.space.mem T (tblIdx v) =
    pageWord true (lastWrite (scrolls.map Scroll.mapping) (pageOf v))
  frame : s.HoldsFrame S funcPtr
  heap : s₀.pageHeap.handOut pages.length = some (pages.map pageAddr, s.pageHeap)
  count : pages.length = 2 + (slotsOf scrolls).card
  maps : ∀ w, s.space.frameOf w = if pageOf w ∈ d :: pages then none else s₀.space.frameOf w

section Complete

variable {s₀ s s' : Vm} {V d : BitVec 20} {base : BitVec 10 → BitVec 32} (h₀ : s₀.Ready)

include h₀

/-- From the inserted scrolls on. -/
theorem Inserted.completed {b : Vm} {S : BitVec 20} {funcPtr : BitVec 32}
    {bound : BitVec 10 → Option (BitVec 20 × BitVec 20)} {pages : List (BitVec 20)}
    {scrolls : List Scroll} (hbase : ∀ i, base i &&& manuscriptBind = 0#32)
    (hins : Inserted s₀ b s V d base 2 bound pages scrolls) (hS : S ∈ s₀.freePages)
    (hSb : S ∉ b.freePages) (hSd : S ≠ d) (hframe : b.HoldsFrame S funcPtr) :
    ∃ s₁ s₂, s.bindManuscript (pageAddr V) = some s₁ ∧
      s₁.scrollUnmap ⟨pageAddr V, pageSize, .aligned, pageAddr d⟩ = some s₂ ∧
      Completed s₀ s₂ d S base funcPtr (fun i => (bound i).map Prod.snd) pages scrolls := by
  have hb := hins.building
  obtain ⟨s₁, s₂, hs₁, hs₂, hr⟩ := hb.release h₀ hbase
  refine ⟨s₁, s₂, hs₁, hs₂, hr.within, hb.mem, hr.pool ▸ hb.used, fun i T hT => ?_,
    fun i T hT => ?_, fun i j T hT hT' => ?_, fun i hT => ?_, fun i => ?_, fun v T hT => ?_, ?_,
    hr.heap, hins.count, hr.maps⟩
  · obtain ⟨⟨W, T⟩, hW, rfl⟩ := Option.map_eq_some_iff.mp hT
    have ht := hb.table i W T hW
    exact ⟨ht.mem, hr.pool ▸ ht.used, ht.ne_dir⟩
  · obtain ⟨⟨W, T⟩, hW, rfl⟩ := Option.map_eq_some_iff.mp hT
    exact hr.entry i W T hW
  · obtain ⟨⟨W, T⟩, hW, rfl⟩ := Option.map_eq_some_iff.mp hT
    obtain ⟨⟨W', T'⟩, hW', rfl⟩ := Option.map_eq_some_iff.mp hT'
    exact hb.inj i j W T' W' T' hW hW' (.inr rfl)
  · exact hr.unbound i (Option.map_eq_none_iff.mp hT)
  · rw [← hins.only i, ne_eq, Option.map_eq_none_iff]
  · obtain ⟨⟨W, T⟩, hW, rfl⟩ := Option.map_eq_some_iff.mp hT
    have ht := hb.table _ W T hW
    rw [hr.own T ht.mem ht.ne_dir, hins.content v W T hW]
  · refine hframe.congr fun k => ?_
    rw [hr.own S hS hSd, hins.own S hS hSb hSd]

theorem completeDirectory_spec (hbase : ∀ i, base i &&& manuscriptBind = 0#32)
    (hf : Filled s₀ s V d base) {funcPtr p : BitVec 32} {user : Bool} {scrolls : List Scroll}
    (ht₀ : s₀.HeapTables (2 + tableCount user scrolls))
    (hs : s.completeDirectory ⟨pageAddr V, pageSize, .aligned, pageAddr d⟩ funcPtr user scrolls =
      some (p, s')) :
    ∃ S rest tbl pages, s₀.freePages = d :: S :: rest ∧ (user = true → rest ≠ []) ∧
      p = pageAddr d ∧ Completed s₀ s' d S base funcPtr tbl pages
        (taskScrolls (userScrolls user rest) (pageAddr S) scrolls) := by
  simp only [completeDirectory, Option.bind_eq_bind, Option.bind_eq_some_iff, Prod.exists] at hs
  obtain ⟨stackScr, s₅, hs₅, s₆, hs₆, s₇, hs₇, s₈, hs₈, userScrs, s₉, hs₉, s₁₀, hs₁₀, s₁₁,
    hs₁₁, s₁₂, hs₁₂, hret⟩ := hs
  obtain ⟨rfl, rfl⟩ := Prod.mk.inj (Option.some.inj hret)
  obtain ⟨W, S, t₆, t₇, rfl, ht₆, ht₇, ht₈, -, -, hfree₇, hframe₇, hb₇⟩ :=
    hf.building.stack h₀ (hf.heapTables h₀ ht₀) funcPtr hs₅
  obtain rfl := Option.some.inj (ht₆.symm.trans hs₆)
  obtain rfl := Option.some.inj (ht₇.symm.trans hs₇)
  obtain rfl := Option.some.inj (ht₈.symm.trans hs₈)
  obtain ⟨rfl, hspace, hheap, hpool, huser⟩ := userStack_spec hs₉
  have hb₉ := hb₇.rest hspace hheap hpool
  obtain ⟨bound, pages, hins⟩ := (Inserted.start hb₉).insertScrolls h₀ ht₀ hbase _ []
    (by rw [List.nil_append, ← taskScrolls, card_taskScrolls huser]; rfl) hs₁₀
  rw [List.nil_append] at hins
  have hfree₀ : s₀.freePages = d :: S :: t₇.freePages := by rw [hf.freePages, hfree₇]
  have hnodup := h₀.nodup
  rw [hfree₀, List.nodup_cons, List.nodup_cons, List.mem_cons, not_or] at hnodup
  have hS : S ∈ s₀.freePages := by
    rw [hfree₀]
    exact List.mem_cons_of_mem _ (List.mem_cons_self ..)
  have hframe₉ : s₉.HoldsFrame S funcPtr := hframe₇.congr fun k => by rw [hspace]
  obtain ⟨t₁₁, t₁₂, ht₁₁, ht₁₂, hdone⟩ := hins.completed h₀ hbase hS
    (fun hm => hnodup.2.1 (hpool.subset hm)) (Ne.symm hnodup.1.1) hframe₉
  obtain rfl := Option.some.inj (ht₁₁.symm.trans hs₁₁)
  obtain rfl := Option.some.inj (ht₁₂.symm.trans hs₁₂)
  exact ⟨S, _, _, pages, hfree₀, huser, rfl, hdone⟩

/-- What `create_task_directory` builds and what it changes. -/
theorem createTaskDirectory_completed
    (hbind : ∀ i : BitVec 10, 512 ≤ i.toNat →
      s₀.space.mem s₀.space.cr3 i &&& manuscriptBind = 0#32)
    {funcPtr p : BitVec 32} {user : Bool} {scrolls : List Scroll}
    (ht₀ : s₀.HeapTables (2 + tableCount user scrolls))
    (hs : s₀.createTaskDirectory funcPtr user scrolls = some (p, s')) :
    ∃ d S rest tbl pages, s₀.freePages = d :: S :: rest ∧ (user = true → rest ≠ []) ∧
      p = pageAddr d ∧ Completed s₀ s' d S (higherHalf s₀ d) funcPtr tbl pages
        (taskScrolls (userScrolls user rest) (pageAddr S) scrolls) := by
  simp only [createTaskDirectory_eq, Option.bind_eq_bind, Option.bind_eq_some_iff,
    Prod.exists] at hs
  obtain ⟨dirScr, s₁, hs₁, s₂, hs₂, s₃, hs₃, s₄, hs₄, hrest⟩ := hs
  obtain ⟨V, d, t₂, t₃, t₄, rfl, ht₂, ht₃, ht₄, -, -, hf⟩ :=
    task_start h₀ (ht₀.mono (by omega)) hs₁
  obtain rfl := Option.some.inj (ht₂.symm.trans hs₂)
  obtain rfl := Option.some.inj (ht₃.symm.trans hs₃)
  obtain rfl := Option.some.inj (ht₄.symm.trans hs₄)
  exact ⟨d, completeDirectory_spec h₀ (higherHalf_bind hbind) hf ht₀ hrest⟩

/-- What `create_kernel_directory` builds and what it changes. -/
theorem createKernelDirectory_completed
    (hbind : ∀ i : BitVec 10, i.toNat < 512 →
      s₀.space.mem s₀.space.cr3 i &&& manuscriptBind = 0#32)
    {funcPtr p : BitVec 32} {scrolls : List Scroll}
    (ht₀ : s₀.HeapTables (2 + tableCount false scrolls))
    (hs : s₀.createKernelDirectory funcPtr scrolls = some (p, s')) :
    ∃ d S rest tbl pages, s₀.freePages = d :: S :: rest ∧ p = pageAddr d ∧
      Completed s₀ s' d S (lowerHalf s₀ d) funcPtr tbl pages
        (taskScrolls [] (pageAddr S) scrolls) := by
  simp only [createKernelDirectory_eq, Option.bind_eq_bind, Option.bind_eq_some_iff,
    Prod.exists] at hs
  obtain ⟨dirScr, s₁, hs₁, s₂, hs₂, s₃, hs₃, s₄, hs₄, hrest⟩ := hs
  obtain ⟨V, d, t₂, t₃, t₄, rfl, ht₂, ht₃, ht₄, -, -, hf⟩ :=
    kernel_start h₀ (ht₀.mono (by omega)) hs₁
  obtain rfl := Option.some.inj (ht₂.symm.trans hs₂)
  obtain rfl := Option.some.inj (ht₃.symm.trans hs₃)
  obtain rfl := Option.some.inj (ht₄.symm.trans hs₄)
  obtain ⟨S, rest, tbl, pages, hfree, -, hp, hdone⟩ :=
    completeDirectory_spec h₀ (lowerHalf_bind hbind) hf ht₀ hrest
  exact ⟨d, S, rest, tbl, pages, hfree, hp, hdone⟩

end Complete

/-- A table entry that gives the user access. -/
def UserEntry (e : BitVec 32) : Prop := present e = true ∧ e &&& pagingBitUser ≠ 0#32

theorem userEntry_createPagingEntry (a : BitVec 32) :
    UserEntry (createPagingEntry a true true true) := by
  refine ⟨present_createPagingEntry .., fun h => ?_⟩
  have := congrArg (fun x : BitVec 32 => x.getLsbD 2) h
  simp [createPagingEntry, setUser, setWriteable, setPresent, setAddr, addrMask,
    pagingBitPresent, pagingBitWriteable, pagingBitUser] at this

/-- The directory `d` was built: `tbl i` is the table of entry `i`, the other entries are those
    of `higherHalf`. There are tables for the entries of the scrolls only, and the page of
    every scroll is accessible to the user. -/
structure Built (s₀ s : Vm) (d : BitVec 20) (tbl : BitVec 10 → Option (BitVec 20))
    (scrolls : List Scroll) : Prop where
  within : Within s₀ s
  mem : d ∈ s₀.freePages
  used : d ∉ s.freePages
  table : ∀ i T, tbl i = some T → T ∈ s₀.freePages ∧ T ∉ s.freePages ∧ T ≠ d
  entry : ∀ i T, tbl i = some T →
    s.space.mem d i = createPagingEntry (pageAddr T) true true true
  inj : ∀ i j T, tbl i = some T → tbl j = some T → i = j
  unbound : ∀ i, tbl i = none → s.space.mem d i = higherHalf s₀ d i
  shown : ∀ scr ∈ scrolls, ∃ T, tbl (dirIdx scr.vaddr) = some T ∧
    UserEntry (s.space.mem T (tblIdx scr.vaddr))
  only : ∀ i, tbl i ≠ none → ∃ scr ∈ scrolls, dirIdx scr.vaddr = i

/-- A scroll of the list has a mapping at its page. -/
theorem lastWrite_mapping_some {scrolls : List Scroll} {scr : Scroll} (h : scr ∈ scrolls) :
    ∃ f, lastWrite (scrolls.map Scroll.mapping) (pageOf scr.vaddr) = some f := by
  refine Option.ne_none_iff_exists'.mp fun hnone => ?_
  exact lastWrite_eq_none.mp hnone _ (List.mem_map_of_mem h) rfl

theorem Completed.built {s₀ s : Vm} {d S : BitVec 20} {funcPtr : BitVec 32}
    {tbl : BitVec 10 → Option (BitVec 20)} {pages : List (BitVec 20)} {scrolls : List Scroll}
    (h : Completed s₀ s d S (higherHalf s₀ d) funcPtr tbl pages scrolls) :
    Built s₀ s d tbl scrolls := by
  refine ⟨h.within, h.mem, h.used, h.table, h.entry, h.inj, h.unbound, fun scr hscr => ?_,
    fun i hi => mem_slotsOf.mp ((h.only i).mp hi)⟩
  obtain ⟨T, hT⟩ := Option.ne_none_iff_exists'.mp
    ((h.only (dirIdx scr.vaddr)).mpr (mem_slotsOf.mpr ⟨scr, hscr, rfl⟩))
  obtain ⟨f, hf⟩ := lastWrite_mapping_some hscr
  refine ⟨T, hT, ?_⟩
  rw [h.content scr.vaddr T hT, hf]
  exact userEntry_createPagingEntry _

theorem createTaskDirectory_spec {s₀ s' : Vm} {funcPtr p : BitVec 32} {user : Bool}
    {scrolls : List Scroll} (h₀ : s₀.Ready)
    (ht₀ : s₀.HeapTables (2 + tableCount user scrolls))
    (hbind : ∀ i : BitVec 10, 512 ≤ i.toNat →
      s₀.space.mem s₀.space.cr3 i &&& manuscriptBind = 0#32)
    (hs : s₀.createTaskDirectory funcPtr user scrolls = some (p, s')) :
    ∃ d tbl userScrs stackPage, p = pageAddr d ∧
      (∀ scr ∈ userScrs, scr.vaddr = alignPgDown userStackBase) ∧
      Built s₀ s' d tbl (taskScrolls userScrs stackPage scrolls) := by
  obtain ⟨d, S, rest, tbl, pages, -, -, rfl, hdone⟩ :=
    createTaskDirectory_completed h₀ hbind ht₀ hs
  exact ⟨d, tbl, userScrolls user rest, pageAddr S, rfl, fun scr hscr => userScrolls_vaddr hscr,
    hdone.built⟩

/-! ## Enough pages -/

/-- The heap hands out `n` more pages. -/
def Supply : Nat → Memory.PageHeap → Prop
  | 0, _ => True
  | n + 1, h => ∃ v h', h.kmallocAligned = some (v, h') ∧ Supply n h'

/-- `n` more calls of `kmalloc_page` find a page of the heap and a free page, and `m` free pages
    are left then. -/
def Supplied (s : Vm) (n m : Nat) : Prop :=
  Supply n s.pageHeap ∧ n + m ≤ s.freePages.length

theorem supply_iff {n : Nat} {h : Memory.PageHeap} : Supply n h ↔ (h.nextPages n).length = n := by
  induction n generalizing h with
  | zero => exact iff_of_true trivial rfl
  | succ n ih =>
      cases hp : h.kmallocAligned with
      | none => simp [Supply, Memory.PageHeap.nextPages, hp]
      | some p =>
          obtain ⟨v, h'⟩ := p
          simp [Supply, Memory.PageHeap.nextPages, hp, ih]

theorem Supply.mono : ∀ {n : Nat} {h : Memory.PageHeap}, Supply (n + 1) h → Supply n h
  | 0, _, _ => trivial
  | _ + 1, _, ⟨v, h', hv, hs⟩ => ⟨v, h', hv, hs.mono⟩

theorem Supply.of_le {n m : Nat} {h : Memory.PageHeap} (hle : n ≤ m) (hs : Supply m h) :
    Supply n h := by
  induction hle with
  | refl => exact hs
  | step _ ih => exact ih hs.mono

theorem Supplied.mono {s : Vm} {n m : Nat} (h : Supplied s (n + 1) m) : Supplied s n m :=
  ⟨h.1.mono, by have := h.2; omega⟩

theorem Supplied.congr {s s' : Vm} {n m : Nat} (h : Supplied s n m)
    (hp : s'.freePages = s.freePages) (hh : s'.pageHeap = s.pageHeap) : Supplied s' n m := by
  rwa [Supplied, hp, hh]

section Total

variable {s₀ s s' : Vm} {V d : BitVec 20} {base : BitVec 10 → BitVec 32} (h₀ : s₀.Ready)

include h₀

theorem kmallocPage_total (hw : Within s₀ s) (ht : s.HeapTables 1) {n m : Nat}
    (hn : Supplied s (n + 1) m) :
    ∃ scr s', s.kmallocPage = some (scr, s') ∧ Supplied s' n m := by
  obtain ⟨⟨v, heap, halloc, hrest⟩, hlen⟩ := hn
  cases hfree : s.freePages with
  | nil => simp [hfree] at hlen
  | cons T ts =>
      rw [hfree, List.length_cons] at hlen
      refine ⟨_, _, kmallocPage_eq h₀ ht hw halloc hfree, hrest, ?_⟩
      simp only [write_freePages]
      omega

theorem allocTable_total {bound : BitVec 10 → Option (BitVec 20 × BitVec 20)}
    {pages : List (BitVec 20)} (hb : Building s₀ s V d base bound pages) {i : BitVec 10}
    (ht : bound i = none → s.HeapTables 1) {n : Nat}
    (hbase : ∀ i, base i &&& manuscriptBind = 0#32) (hn : Supplied s (n + 1) 0) :
    ∃ table s', s.allocTable (pageAddr V) (i.setWidth 32) = some (table, s') ∧
      Supplied s' n 0 := by
  simp only [allocTable, loadPage hb.map, Option.bind_eq_bind, Option.bind_some]
  cases hi : bound i with
  | some p =>
      rw [hb.entry i p.1 p.2 hi, if_pos (boundEntry_bind _)]
      exact ⟨_, s, rfl, hn.mono⟩
  | none =>
      have hzero : ¬ s.space.mem d i &&& manuscriptBind ≠ 0#32 := by
        rw [hb.unbound i hi, hbase]
        simp
      rw [if_neg hzero]
      obtain ⟨scr, s₁, hs₁, hn₁⟩ := kmallocPage_total h₀ hb.within (ht hi) hn
      obtain ⟨W, T, hscr, -, -, -, -, hV, -, hb₂⟩ := hb.bind h₀ (ht hi) hi hs₁
      have ht := hb₂.table i W T (Function.update_self ..)
      obtain ⟨hc, -⟩ := hb₂.within.clearWords h₀ ht.mem ht.map (n := 1024) (Nat.le_refl _)
      refine ⟨pageAddr W, (s₁.write d i (boundEntry W)).cleared T 1024, ?_, hn₁⟩
      have hentry : createPagingEntry (pageAddr W) true true true ||| manuscriptBind =
          boundEntry W := rfl
      simp only [hs₁, hscr, hentry, storePage hV, hc, Option.bind_some]

theorem insertScrolls_total {b : Vm} {n N : Nat} (ht₀ : s₀.HeapTables N)
    (hbase : ∀ i, base i &&& manuscriptBind = 0#32) :
    ∀ (scrolls done : List Scroll) {s : Vm} {bound : BitVec 10 → Option (BitVec 20 × BitVec 20)}
      {pages : List (BitVec 20)}, Inserted s₀ b s V d base n bound pages done →
      n + (slotsOf (done ++ scrolls)).card ≤ N → Supplied s scrolls.length 0 →
      ∃ s', s.insertScrolls (pageAddr V) scrolls = some s'
  | [], _, s, _, _, _, _, _ => ⟨s, rfl⟩
  | scr :: scrolls, done, s, bound, pages, hins, hN, hn => by
      rw [List.append_cons] at hN
      have hN₁ := card_slotsOf_le hN
      obtain ⟨table, s₁, hs₁, hn₁⟩ :=
        allocTable_total h₀ hins.building (hins.heapTables h₀ ht₀ hN₁) hbase hn
      obtain ⟨bound', pages', W, T, rfl, hi, hb₁, -⟩ := hins.allocTable h₀ ht₀ hbase hN₁ hs₁
      have hstore := storePage (hb₁.table _ W T hi).map (tblIdx scr.vaddr)
        (createPagingEntry scr.page true true true)
      obtain ⟨bound'', pages'', hins'⟩ := hins.insert h₀ ht₀ hbase hN₁ hs₁ hstore
      obtain ⟨s', hs'⟩ := insertScrolls_total ht₀ hbase scrolls (done ++ [scr]) hins' hN hn₁
      refine ⟨s', ?_⟩
      simp only [insertScrolls, pgDirIdx_eq, pgTblIdx_eq, hs₁, hstore, hs', Option.bind_eq_bind,
        Option.bind_some]

omit h₀ in
/-- The user stack takes the spare page. -/
theorem userStack_total (user : Bool) {n : Nat} (hn : Supplied s (n + 2) 1) :
    ∃ scrs s', s.userStack user = some (scrs, s') ∧ Supplied s' (scrs.length + n + 1) 0 := by
  obtain ⟨hsup, hlen⟩ := hn
  cases user with
  | false => exact ⟨[], s, rfl, by simpa [Supplied] using ⟨hsup.mono, by omega⟩⟩
  | true =>
      cases hfree : s.freePages with
      | nil => simp [hfree] at hlen
      | cons t ts =>
          refine ⟨[⟨alignPgDown userStackBase, userStackSize, .aligned, pageAddr t⟩],
            { s with freePages := ts }, by simp [userStack, kpageAlloc, hfree], ?_⟩
          rw [hfree, List.length_cons] at hlen
          refine ⟨?_, by simp only [List.length_singleton]; omega⟩
          rw [List.length_singleton, Nat.add_comm 1 n]
          exact hsup

theorem completeDirectory_total (hbase : ∀ i, base i &&& manuscriptBind = 0#32)
    (hf : Filled s₀ s V d base) (funcPtr : BitVec 32) (user : Bool) (scrolls : List Scroll)
    (ht₀ : s₀.HeapTables (2 + tableCount user scrolls))
    (hn : Supplied s (scrolls.length + 3) 1) :
    ∃ p s', s.completeDirectory ⟨pageAddr V, pageSize, .aligned, pageAddr d⟩ funcPtr user
      scrolls = some (p, s') := by
  have ht := hf.heapTables h₀ ht₀
  obtain ⟨stackScr, s₅, hs₅, hn₅⟩ := kmallocPage_total h₀ hf.building.within ht hn
  obtain ⟨W, S, s₆, s₇, rfl, hs₆, hs₇, hs₈, hfree₇, hheap₇, -, -, hb₇⟩ :=
    hf.building.stack h₀ ht funcPtr hs₅
  obtain ⟨userScrs, s₉, hs₉, hn₉⟩ := userStack_total user (hn₅.congr hfree₇ hheap₇)
  obtain ⟨hscrs, hspace, hheap, hpool, huser⟩ := userStack_spec hs₉
  have hb₉ := hb₇.rest hspace hheap hpool
  have hN : 2 + (slotsOf (taskScrolls userScrs (pageAddr S) scrolls)).card ≤
      2 + tableCount user scrolls := by
    rw [hscrs, card_taskScrolls huser]
  have hn₁₀ : Supplied s₉ (taskScrolls userScrs (pageAddr S) scrolls).length 0 := by
    rw [taskScrolls, List.length_append, List.length_cons, ← Nat.add_assoc]
    exact hn₉
  obtain ⟨s₁₀, hs₁₀⟩ := insertScrolls_total h₀ ht₀ hbase
    (taskScrolls userScrs (pageAddr S) scrolls) [] (Inserted.start hb₉) hN hn₁₀
  obtain ⟨bound, pages, hins⟩ := (Inserted.start hb₉).insertScrolls h₀ ht₀ hbase _ [] hN hs₁₀
  obtain ⟨s₁₁, s₁₂, hs₁₁, hs₁₂, -⟩ := hins.building.release h₀ hbase
  refine ⟨pageAddr d, s₁₂, ?_⟩
  rw [taskScrolls] at hs₁₀
  simp only [completeDirectory, hs₅, hs₆, hs₇, hs₈, hs₉, hs₁₀, hs₁₁, hs₁₂, Option.bind_eq_bind,
    Option.bind_some]

end Total

/-- `create_task_directory` returns when the heap has a page for the directory, the stack and
    a table for every scroll, and there are free pages for them and for the user stack. -/
theorem createTaskDirectory_total {s₀ : Vm} (h₀ : s₀.Ready)
    (hbind : ∀ i : BitVec 10, 512 ≤ i.toNat →
      s₀.space.mem s₀.space.cr3 i &&& manuscriptBind = 0#32)
    (funcPtr : BitVec 32) (user : Bool) (scrolls : List Scroll)
    (ht₀ : s₀.HeapTables (2 + tableCount user scrolls))
    (hheap : Supply (scrolls.length + 4) s₀.pageHeap)
    (hpages : scrolls.length + 5 ≤ s₀.freePages.length) :
    ∃ p s', s₀.createTaskDirectory funcPtr user scrolls = some (p, s') := by
  obtain ⟨dirScr, s₁, hs₁, hn₁⟩ :=
    kmallocPage_total (n := scrolls.length + 3) (m := 1) h₀ (Within.refl s₀)
      (ht₀.mono (by omega)) ⟨hheap, hpages⟩
  obtain ⟨V, d, s₂, s₃, s₄, rfl, hs₂, hs₃, hs₄, hheap₄, hfree₄, hf⟩ :=
    task_start h₀ (ht₀.mono (by omega)) hs₁
  obtain ⟨p, s', hs'⟩ := completeDirectory_total h₀ (higherHalf_bind hbind) hf funcPtr user
    scrolls ht₀ (hn₁.congr hfree₄ hheap₄)
  refine ⟨p, s', ?_⟩
  simp only [createTaskDirectory_eq, hs₁, hs₂, hs₃, hs₄, hs', Option.bind_eq_bind,
    Option.bind_some]

/-- A machine after boot: the directory is in frame 1, its entry 513 names the table in frame 2, and
    the heap hands out the 4096 pages from `0x80400000` on, of which that table covers the first
    ones. -/
def bootVm : Vm where
  space := {
    mem := fun f k =>
      if f = 1#20 ∧ k = 1023#10 then 0x1003#32
      else if f = 1#20 ∧ k = 513#10 then 0x2003#32
      else 0#32
    cr3 := 1#20 }
  freePages := [16#20, 17#20, 18#20, 19#20, 20#20, 21#20, 22#20, 23#20]
  pageHeap := ⟨fun _ => 0#32, 128, 0x80400000#32⟩

theorem bootVm_entry (i : BitVec 10) : bootVm.space.mem 1#20 i =
    if i = 1023#10 then 0x1003#32 else if i = 513#10 then 0x2003#32 else 0#32 := by
  simp [bootVm]

theorem bootVm_present {i : BitVec 10} (hp : present (bootVm.space.mem 1#20 i) = true) :
    i = 1023#10 ∨ i = 513#10 := by
  by_contra hne
  rw [not_or] at hne
  rw [bootVm_entry, if_neg hne.1, if_neg hne.2] at hp
  cases hp

theorem bootVm_tables : Tables bootVm.space := by
  refine ⟨⟨by decide, by decide⟩, fun i j hi hj hf => ?_⟩
  rcases bootVm_present hi with rfl | rfl <;> rcases bootVm_present hj with rfl | rfl
  · rfl
  · exact absurd hf (by decide)
  · exact absurd hf (by decide)
  · rfl

theorem bootVm_free {t : BitVec 20} (ht : t ∈ bootVm.freePages) : 16#20 ≤ t ∧ t ≤ 23#20 := by
  simp only [bootVm, List.mem_cons, List.not_mem_nil, or_false] at ht
  rcases ht with rfl | rfl | rfl | rfl | rfl | rfl | rfl | rfl <;> decide

theorem bootVm_fresh {t : BitVec 20} (ht : t ∈ bootVm.freePages) : FreshPage bootVm.space t := by
  intro i hi he
  have hle := (bootVm_free ht).1
  rw [← he] at hle
  rcases bootVm_present hi with rfl | rfl <;> exact absurd hle (by decide)

theorem bootVm_ready : bootVm.Ready := by
  refine ⟨bootVm_tables, fun t ht => ⟨bootVm_fresh ht, ?_, ?_⟩, by decide, by decide, by decide,
    by decide⟩
  · rintro rfl
    exact absurd (bootVm_free ht).1 (by decide)
  · have hle := (bootVm_free ht).2
    bv_omega

theorem bootVm_unbound (i : BitVec 10) :
    bootVm.space.mem bootVm.space.cr3 i &&& manuscriptBind = 0#32 := by
  have h := bootVm_entry i
  rw [show bootVm.space.cr3 = 1#20 from rfl, h]
  split
  · decide
  · split <;> decide

/-- The next pages of a heap of which only the first `i` pages may have been handed out. -/
theorem nextPages_of_clear {h : Memory.PageHeap} (hcnt : 0 < h.bitmapCnt) {m i : Nat}
    (him : i + m ≤ 32) (hfree : h.pageBitmap 0 >>> i = 0#32) :
    (h.nextPages m).length = m ∧ ∀ v ∈ h.nextPages m, ∃ n < i + m,
      v = h.alignedStart + BitVec.ofNat 32 n * 4096#32 := by
  induction m generalizing h i with
  | zero => exact ⟨rfl, fun v hv => absurd hv List.not_mem_nil⟩
  | succ m ih =>
      obtain ⟨n, hn, hs, hfree'⟩ := Memory.PageHeap.kmallocAligned_first (by omega) hcnt hfree
      obtain ⟨hlen, hmem⟩ := ih (h := h.mark n) hcnt (i := i + 1) (by omega) hfree'
      rw [Memory.PageHeap.nextPages_cons hs]
      refine ⟨by rw [List.length_cons, hlen], fun v hv => ?_⟩
      rcases List.mem_cons.mp hv with rfl | hv
      · exact ⟨n, by omega, rfl⟩
      · obtain ⟨k, hk, he⟩ := hmem v hv
        exact ⟨k, by omega, he⟩

theorem bootVm_nextPages : (bootVm.pageHeap.nextPages 7).length = 7 ∧
    ∀ v ∈ bootVm.pageHeap.nextPages 7, ∃ n < 7, v = 0x80400000#32 + BitVec.ofNat 32 n * 4096#32 :=
  nextPages_of_clear (i := 0) (by decide) (by decide) rfl

/-- The first pages of the heap lie in the slot of entry 513. -/
theorem bootVm_dirIdx {v : BitVec 32} (hv : v ∈ bootVm.pageHeap.nextPages 7) :
    dirIdx v = 513#10 := by
  obtain ⟨n, hn, rfl⟩ := bootVm_nextPages.2 v hv
  interval_cases n <;> decide

theorem bootVm_heapTables : bootVm.HeapTables 7 := by
  intro v hv
  rw [Space.pde, bootVm_dirIdx hv]
  decide

/-- The scrolls of a task need at most two tables more than there are scrolls of its own. -/
theorem tableCount_le (user : Bool) (scrolls : List Scroll) :
    tableCount user scrolls ≤ scrolls.length + 2 := by
  refine (List.dedup_sublist _).length_le.trans ?_
  cases user <;> simp [insertedPages]

theorem bootVm_supply : Supply 7 bootVm.pageHeap := by
  rw [supply_iff]
  exact bootVm_nextPages.1

/-- The machine has the pages for a task with a user stack and three scrolls. -/
theorem bootVm_creates (funcPtr : BitVec 32) (user : Bool) (scrolls : List Scroll)
    (hlen : scrolls.length ≤ 3) :
    ∃ p s', bootVm.createTaskDirectory funcPtr user scrolls = some (p, s') := by
  have hfree : bootVm.freePages.length = 8 := rfl
  have hcount := tableCount_le user scrolls
  exact createTaskDirectory_total bootVm_ready (fun i _ => bootVm_unbound i)
    funcPtr user scrolls (bootVm_heapTables.mono (by omega)) (bootVm_supply.of_le (by omega))
    (by omega)

end Vm

end Muse.Paging
