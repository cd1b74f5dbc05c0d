import Muse.Library.Transition
import Muse.Paging.Contexts
import Muse.Paging.Proofs.TaskDirectory

/-!
# User access to the kernel half

`create_task_directory` inserts the stack of a task like any other scroll, with the user bit
in both entries. The page `0xFF8FF000` of every directory it returns is open to the user.
-/

namespace Muse.Paging

open Muse.Library

namespace Vm

/-- What is `Ready` stays so. -/
theorem Within.ready {s₀ s : Vm} (h₀ : s₀.Ready) (hw : Within s₀ s) : s.Ready := by
  refine ⟨hw.tables h₀, fun t ht => ?_, h₀.nodup.sublist hw.pool.sublist, ?_, ?_, ?_⟩
  · have hmem := hw.pool.subset ht
    exact ⟨hw.freshPage h₀ hmem, (h₀.fresh t hmem).2⟩
  · rw [hw.alignedStart]
    exact h₀.heap_aligned
  · rw [hw.alignedStart]
    exact h₀.heap_start
  · rw [hw.alignedStart, hw.bitmapCnt]
    exact h₀.heap_limit

theorem Within.mapPage {s s' : Vm} {v paddr : BitVec 32} (h : s.Ready)
    (hv : dirIdx v ≠ 1023#10) (hp : present (s.space.pde v) = true)
    (hs : s.mapPage v paddr = some s') : Within s s' := by
  rw [mapPage_of_present h.tables.selfMapped hp] at hs
  obtain rfl := Option.some.inj hs
  exact ((Within.refl s).writePte h hv hp _).within

end Vm

namespace System

/-- The runs of `map_page` on kernel addresses below the window and of `create_task_directory`, as
    far as the page tables of the pages that they map are in place. -/
def Builds (s : System) : Op → Prop
  | .createContext _ user scrolls => s.vm.HeapTables (2 + Vm.tableCount user scrolls)
  | .mapPage vaddr _ => 0x80000000#32 ≤ vaddr ∧ vaddr < 0xFFC00000#32 ∧
      present (s.vm.space.pde vaddr) = true
  | .contextSwitch _ | .unmapPage _ => False

/-- The page of a task's stack. -/
def stackPage : BitVec 32 := alignPgDown taskStackBase

/-- The directory `d` has a table for the stack that gives the user access, and both are in use
    and no tables of the active directory. -/
structure StackOpen (s : Vm) (d : BitVec 20) : Prop where
  used : d ∉ s.freePages ∧ ¬ IsTable s.space d
  entry : ∃ T, s.space.mem d (dirIdx stackPage) = createPagingEntry (pageAddr T) true true true ∧
    T ∉ s.freePages ∧ ¬ IsTable s.space T ∧
    Vm.UserEntry (s.space.mem T (tblIdx stackPage))

theorem StackOpen.exposed {s : Vm} {d : BitVec 20} (h : StackOpen s d) :
    ExposedIn s.space.mem d stackPage := by
  obtain ⟨T, hentry, -, -, huser⟩ := h.entry
  have hpde := Vm.userEntry_createPagingEntry (pageAddr T)
  rw [← hentry] at hpde
  refine ⟨by decide, hpde.1, hpde.2, ?_⟩
  have hpte : (Space.mk s.space.mem d).pte stackPage = s.space.mem T (tblIdx stackPage) := by
    rw [Space.pte, Space.pde]
    simp only [hentry, frame_createPagingEntry, frame_pageAddr]
  rw [hpte]
  exact huser

/-- Nothing that is in use is written. -/
theorem StackOpen.within {s s' : Vm} {d : BitVec 20} (h₀ : s.Ready) (hw : Vm.Within s s')
    (h : StackOpen s d) : StackOpen s' d := by
  obtain ⟨T, hentry, hT, hTt, huser⟩ := h.entry
  have hkeep : ∀ f, f ∉ s.freePages → ¬ IsTable s.space f →
      f ∉ s'.freePages ∧ ¬ IsTable s'.space f := fun f hf ht =>
    ⟨fun hm => hf (hw.pool.subset hm), fun ht' => ht (hw.isTable h₀ ht')⟩
  refine ⟨hkeep d h.used.1 h.used.2, T, ?_, (hkeep T hT hTt).1, (hkeep T hT hTt).2, ?_⟩
  · rw [hw.mem d h.used.1 h.used.2, hentry]
  · rw [hw.mem T hT hTt]
    exact huser

/-- A page that was free is no table of the active directory. -/
theorem not_isTable_of_free {s s' : Vm} (h₀ : s.Ready) (hw : Vm.Within s s') {f : BitVec 20}
    (hf : f ∈ s.freePages) : ¬ IsTable s'.space f := by
  rintro ⟨i, -, hp, he⟩
  exact hw.freshPage h₀ hf i hp he

/-- A directory that was just built. -/
theorem stackOpen_of_built {s s' : Vm} {d : BitVec 20} {tbl : BitVec 10 → Option (BitVec 20)}
    {userScrs scrolls : List Scroll} {page : BitVec 32} (h₀ : s.Ready)
    (hb : Vm.Built s s' d tbl (Vm.taskScrolls userScrs page scrolls)) : StackOpen s' d := by
  obtain ⟨T, hT, huser⟩ := hb.shown ⟨stackPage, pageSize, .aligned, page⟩
    (by simp [Vm.taskScrolls, stackPage])
  obtain ⟨hTm, hTu, -⟩ := hb.table _ T hT
  exact ⟨⟨hb.used, not_isTable_of_free h₀ hb.within hb.mem⟩, T, hb.entry _ T hT, hTu,
    not_isTable_of_free h₀ hb.within hTm, huser⟩

/-- The active directory of a run of `Builds`. -/
structure CanBuild (s : Vm) : Prop where
  ready : s.Ready
  unbound : ∀ i : BitVec 10, 512 ≤ i.toNat →
    s.space.mem s.space.cr3 i &&& manuscriptBind = 0#32

theorem CanBuild.within {s s' : Vm} (h : CanBuild s) (hw : Vm.Within s s') : CanBuild s' := by
  refine ⟨hw.ready h.ready, fun i hi => ?_⟩
  rw [hw.dir h.ready]
  exact h.unbound i hi

theorem step_stackOpen {s s' : System} {op : Op} (hc : CanBuild s.vm)
    (hopen : ∀ d ∈ s.dirs, StackOpen s.vm d) (hok : Builds s op) (hs : step s op = some s') :
    CanBuild s'.vm ∧ ∀ d ∈ s'.dirs, StackOpen s'.vm d := by
  cases op with
  | createContext funcPtr user scrolls =>
      obtain ⟨⟨p, vm⟩, hcreate, rfl⟩ := Option.map_eq_some_iff.mp hs
      obtain ⟨d, tbl, userScrs, page, rfl, -, hb⟩ :=
        Vm.createTaskDirectory_spec hc.ready hok hc.unbound hcreate
      refine ⟨hc.within hb.within, fun d' hd' => ?_⟩
      rcases List.mem_cons.mp hd' with rfl | hd'
      · rw [frame_pageAddr]
        exact stackOpen_of_built hc.ready hb
      · exact (hopen d' hd').within hc.ready hb.within
  | mapPage vaddr paddr =>
      obtain ⟨vm, hmap, rfl⟩ := Option.map_eq_some_iff.mp hs
      have hw := Vm.Within.mapPage hc.ready (Vm.dirIdx_ne_of_lt hok.2.1) hok.2.2 hmap
      exact ⟨hc.within hw, fun d hd => (hopen d hd).within hc.ready hw⟩
  | contextSwitch dir => exact absurd hok id
  | unmapPage vaddr => exact absurd hok id

/-- The invariant of a run. -/
def StacksOpen (s : System) : Prop := CanBuild s.vm ∧ ∀ d ∈ s.dirs, StackOpen s.vm d

/-- The directories that a run has built are isolated exactly when there are none: each of them
    opens the page of the stack to the user. -/
theorem isolated_iff_none_built (vm : Vm) (hvm : CanBuild vm) (s : System)
    (hr : Reaches step Builds ⟨vm, []⟩ s) :
    (∀ d ∈ s.dirs, Isolated s.vm.space.mem d) ↔ s.dirs = [] := by
  have hinv : StacksOpen s := by
    refine hr.invariant ⟨hvm, fun d hd => (by cases hd)⟩ ?_
    rintro t op t' ⟨hc, hopen⟩ hok hstep
    exact step_stackOpen hc hopen hok hstep
  constructor
  · intro hiso
    refine List.eq_nil_iff_forall_not_mem.mpr fun d hd => ?_
    exact hiso d hd stackPage (hinv.2 d hd).exposed
  · intro hnil d hd
    rw [hnil] at hd
    cases hd

theorem bootVm_canBuild : CanBuild Vm.bootVm :=
  ⟨Vm.bootVm_ready, fun i _ => Vm.bootVm_unbound i⟩

/-- A run that builds one directory. -/
theorem exists_built : ∃ s, Reaches step Builds ⟨Vm.bootVm, []⟩ s ∧ s.dirs ≠ [] := by
  obtain ⟨p, vm, hcreate⟩ := Vm.bootVm_creates 0x80100000#32 true [] (by decide)
  refine ⟨⟨vm, [pageOf p]⟩,
    .tail (a := .createContext 0x80100000#32 true []) .refl
      (Vm.bootVm_heapTables.mono (by decide)) ?_, by simp⟩
  simp [step, hcreate]

theorem isolated_iff_none_built_boot : ∃ s, Reaches step Builds ⟨Vm.bootVm, []⟩ s ∧
    s.dirs ≠ [] ∧ ((∀ d ∈ s.dirs, Isolated s.vm.space.mem d) ↔ s.dirs = []) := by
  obtain ⟨s, hr, hne⟩ := exists_built
  exact ⟨s, hr, hne, isolated_iff_none_built Vm.bootVm bootVm_canBuild s hr⟩

/-- The first task that is created after boot can reach its kernel stack. -/
theorem stack_not_isolated : ¬ ∀ s, Reaches step Builds ⟨Vm.bootVm, []⟩ s →
    ∀ d ∈ s.dirs, Isolated s.vm.space.mem d := by
  intro hall
  obtain ⟨p, vm, hcreate⟩ := Vm.bootVm_creates 0x80100000#32 true [] (by decide)
  have hstep : step ⟨Vm.bootVm, []⟩ (.createContext 0x80100000#32 true []) =
      some ⟨vm, [pageOf p]⟩ := by
    simp [step, hcreate]
  have hok : Builds ⟨Vm.bootVm, []⟩ (.createContext 0x80100000#32 true []) :=
    Vm.bootVm_heapTables.mono (by decide)
  obtain ⟨-, hopen⟩ := step_stackOpen bootVm_canBuild (fun d hd => (by cases hd)) hok hstep
  exact hall _ (.tail .refl hok hstep) (pageOf p) (by simp) stackPage
    (hopen (pageOf p) (by simp)).exposed

end System

end Muse.Paging
