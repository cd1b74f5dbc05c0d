import Muse.Paging.Proofs.Isolation

/-!
# One kernel half for all contexts

A new directory copies the entries 512 to 1021 of the active one, and from then on nothing keeps the
two in step. They stay equal because no directory is written at all: `map_page` and `unmap_page`
edit tables, which all contexts share, unless `map_page` has to insert a table, and then it writes
to the active directory only.
-/

namespace Muse.Paging

open Muse.Library

namespace System

/-- The steps of a run: any context may become active, and pages are mapped and unmapped in the
    kernel half. -/
def Runs (s : System) : Op → Prop
  | .createContext _ _ _ => True
  | .contextSwitch dir => dir ∈ s.dirs
  | .mapPage vaddr _ => KernelAddr vaddr
  | .unmapPage vaddr => KernelAddr vaddr

/-- The scroll leaves the entries of the kernel half and the window alone. -/
def OutsideKernel (v : BitVec 32) : Prop :=
  v < 0x80000000#32 ∨ 0xFF800000#32 ≤ v ∧ v < 0xFFC00000#32

/-- A step of a run that finds the page tables it needs, and whose new task has no scroll in the
    kernel half or in the window. -/
def KeepsHalf (s : System) (op : Op) : Prop :=
  Runs s op ∧ match op with
  | .createContext _ user scrolls =>
      s.vm.HeapTables (2 + Vm.tableCount user scrolls) ∧ ∀ scr ∈ scrolls, OutsideKernel scr.vaddr
  | .mapPage vaddr _ => present (s.vm.space.pde vaddr) = true
  | .contextSwitch _ | .unmapPage _ => True

/-- The directories of the contexts are self-mapped, have distinct tables, and are no tables
    themselves; the free pages are in no use, and the heap lies below the window. -/
structure Sane (s : System) : Prop where
  active : s.vm.space.cr3 ∈ s.dirs
  tables : ∀ d ∈ s.dirs, Tables ⟨s.vm.space.mem, d⟩
  separate : ∀ d ∈ s.dirs, ∀ i, i ≠ 1023#10 → present (s.vm.space.mem d i) = true →
    frame (s.vm.space.mem d i) ∉ s.dirs
  fresh : ∀ t ∈ s.vm.freePages, t ∉ s.dirs ∧ t ≠ 0#20 ∧ t < 0xFFC00#20 ∧
    ∀ d ∈ s.dirs, FreshPage ⟨s.vm.space.mem, d⟩ t
  nodup : s.vm.freePages.Nodup
  unbound : ∀ d ∈ s.dirs, ∀ i : BitVec 10, 512 ≤ i.toNat →
    s.vm.space.mem d i &&& manuscriptBind = 0#32
  heap_aligned : s.vm.pageHeap.alignedStart.toNat % 4096 = 0
  heap_start : 0 < s.vm.pageHeap.alignedStart.toNat
  heap_limit : s.vm.pageHeap.alignedStart.toNat + s.vm.pageHeap.bitmapCnt * 131072 ≤ 0xFFC00000

section Sane

variable {s s' : System}

theorem Sane.canBuild (h : s.Sane) : CanBuild s.vm :=
  ⟨⟨h.tables _ h.active, fun t ht => ⟨(h.fresh t ht).2.2.2 _ h.active, (h.fresh t ht).2.1,
      (h.fresh t ht).2.2.1⟩, h.nodup, h.heap_aligned, h.heap_start, h.heap_limit⟩,
    h.unbound _ h.active⟩

/-- What is written to free pages and to tables leaves the directories as they are. -/
theorem Sane.dirs_eq (h : s.Sane) {vm : Vm} (hw : Vm.Within s.vm vm) {d : BitVec 20}
    (hd : d ∈ s.dirs) (i : BitVec 10) : vm.space.mem d i = s.vm.space.mem d i := by
  refine hw.mem d (fun hm => (h.fresh d hm).1 hd) ?_ i
  rintro ⟨j, hj, hp, rfl⟩
  exact h.separate _ h.active j hj hp hd

theorem Sane.same_within (h : s.Sane) (hsame : SameKernelHalf s) {vm : Vm}
    (hw : Vm.Within s.vm vm) : SameKernelHalf ⟨vm, s.dirs⟩ := by
  intro d hd d' hd' i hi hi'
  rw [h.dirs_eq hw hd, h.dirs_eq hw hd']
  exact hsame d hd d' hd' i hi hi'

theorem Sane.within (h : s.Sane) {vm : Vm} (hw : Vm.Within s.vm vm) : Sane ⟨vm, s.dirs⟩ := by
  have hready := hw.ready h.canBuild.ready
  refine ⟨hw.cr3 ▸ h.active, fun d hd => ?_, fun d hd i hi hp => ?_, fun t ht => ?_, hready.nodup,
    fun d hd i hi => ?_, hready.heap_aligned, hready.heap_start, hready.heap_limit⟩
  · exact Vm.tables_congr (h.tables d hd) rfl (h.dirs_eq hw hd)
  · simp only [h.dirs_eq hw hd] at hp ⊢
    exact h.separate d hd i hi hp
  · obtain ⟨hdirs, h0, hlt, hfr⟩ := h.fresh t (hw.pool.subset ht)
    refine ⟨hdirs, h0, hlt, fun d hd i hp => ?_⟩
    simp only [h.dirs_eq hw hd] at hp ⊢
    exact hfr d hd i hp
  · simp only [h.dirs_eq hw hd]
    exact h.unbound d hd i hi

theorem dirIdx_kernel {v : BitVec 32} (hv : KernelAddr v) :
    512 ≤ (dirIdx v).toNat ∧ (dirIdx v).toNat ≤ 1021 := by
  obtain ⟨hlo, hhi⟩ := hv
  rw [dirIdx_toNat]
  simp only [BitVec.le_def, BitVec.lt_def, BitVec.toNat_ofNat] at hlo hhi
  omega

theorem dirIdx_kernel_ne {v : BitVec 32} (hv : KernelAddr v) : dirIdx v ≠ 1023#10 := by
  intro he
  have hle := (dirIdx_kernel hv).2
  rw [he] at hle
  exact absurd hle (by decide)

theorem dirIdx_outside {v : BitVec 32} (hv : OutsideKernel v) :
    (dirIdx v).toNat < 512 ∨ (dirIdx v).toNat = 1022 := by
  rw [dirIdx_toNat]
  rcases hv with hlo | ⟨hlo, hhi⟩
  · simp only [BitVec.lt_def, BitVec.toNat_ofNat] at hlo
    omega
  · simp only [BitVec.le_def, BitVec.lt_def, BitVec.toNat_ofNat] at hlo hhi
    omega

/-- A present entry of a new directory: a table of a scroll, the directory itself, or an
    entry of the active directory. -/
theorem built_entry {vm vm' : Vm} {d : BitVec 20} {tbl : BitVec 10 → Option (BitVec 20)}
    {scrolls : List Scroll} (hb : Vm.Built vm vm' d tbl scrolls) {i : BitVec 10}
    (hp : present (vm'.space.mem d i) = true) :
    (∃ T, tbl i = some T ∧ frame (vm'.space.mem d i) = T) ∨
      (tbl i = none ∧ i = 1023#10 ∧ frame (vm'.space.mem d i) = d) ∨
      (tbl i = none ∧ i ≠ 1023#10 ∧ 512 ≤ i.toNat ∧
        vm'.space.mem d i = vm.space.mem vm.space.cr3 i) := by
  cases hT : tbl i with
  | some T =>
      refine .inl ⟨T, rfl, ?_⟩
      rw [hb.entry i T hT, frame_createPagingEntry, frame_pageAddr]
  | none =>
      have hent := hb.unbound i hT
      unfold Vm.higherHalf at hent
      split at hent
      · next hi =>
          exact .inr (.inl ⟨rfl, hi, by rw [hent, frame_createPagingEntry, frame_pageAddr]⟩)
      · next hi =>
          split at hent
          · rw [hent] at hp
            simp [present] at hp
          · exact .inr (.inr ⟨rfl, hi, by omega, hent⟩)

/-- The scrolls of a new task leave the kernel half and the window alone. -/
theorem built_unbound {vm vm' : Vm} {d : BitVec 20} {tbl : BitVec 10 → Option (BitVec 20)}
    {userScrs scrolls : List Scroll} {page : BitVec 32}
    (hb : Vm.Built vm vm' d tbl (Vm.taskScrolls userScrs page scrolls))
    (huser : ∀ scr ∈ userScrs, scr.vaddr = alignPgDown userStackBase)
    (hout : ∀ scr ∈ scrolls, OutsideKernel scr.vaddr) {i : BitVec 10} (hi : 512 ≤ i.toNat)
    (hi' : i.toNat ≠ 1022) : tbl i = none := by
  by_contra hne
  obtain ⟨scr, hscr, rfl⟩ := hb.only i hne
  have hidx : OutsideKernel scr.vaddr := by
    rcases List.mem_append.mp hscr with hscr | hscr
    · rw [huser scr hscr]
      exact .inl (by decide)
    · rcases List.mem_cons.mp hscr with rfl | hscr
      · exact .inr (by decide : 0xFF800000#32 ≤ alignPgDown taskStackBase ∧
          alignPgDown taskStackBase < 0xFFC00000#32)
      · exact hout scr hscr
  have := dirIdx_outside hidx
  omega

section Create

variable {vm : Vm} {d : BitVec 20} {tbl : BitVec 10 → Option (BitVec 20)}
  {userScrs scrolls : List Scroll} {page : BitVec 32} (h : s.Sane)
  (hb : Vm.Built s.vm vm d tbl (Vm.taskScrolls userScrs page scrolls))
  (huser : ∀ scr ∈ userScrs, scr.vaddr = alignPgDown userStackBase)
  (hout : ∀ scr ∈ scrolls, OutsideKernel scr.vaddr)

include h hb huser hout

theorem Sane.tables_built : Tables ⟨vm.space.mem, d⟩ := by
  have hfresh : ∀ t ∈ s.vm.freePages, FreshPage s.vm.space t := fun t ht =>
    (h.fresh t ht).2.2.2 _ h.active
  have hself : vm.space.mem d 1023#10 = createPagingEntry (pageAddr d) true true false := by
    rw [hb.unbound _ (built_unbound hb huser hout (by decide) (by decide)), Vm.higherHalf,
      if_pos rfl]
  refine ⟨⟨?_, ?_⟩, fun i j hi hj hf => ?_⟩
  · simp only [hself]
    exact present_createPagingEntry ..
  · simp only [hself, frame_createPagingEntry, frame_pageAddr]
  · -- two entries with one frame are of one kind
    rcases built_entry hb hi with ⟨T, hT, hTf⟩ | ⟨-, rfl, hdf⟩ | ⟨-, -, -, hold⟩ <;>
      rcases built_entry hb hj with ⟨T', hT', hTf'⟩ | ⟨-, rfl, hdf'⟩ | ⟨-, -, -, hold'⟩
    · obtain rfl : T = T' := hTf.symm.trans (hf.trans hTf')
      exact hb.inj i j T hT hT'
    · exact absurd (hTf.symm.trans (hf.trans hdf')) (hb.table i T hT).2.2
    · simp only [hold'] at hj hf
      exact absurd (hf.symm.trans hTf) (hfresh T (hb.table i T hT).1 j hj)
    · exact absurd (hTf'.symm.trans (hf.symm.trans hdf)) (hb.table j T' hT').2.2
    · rfl
    · simp only [hold'] at hj hf
      exact absurd (hf.symm.trans hdf) (hfresh d hb.mem j hj)
    · simp only [hold] at hi hf
      exact absurd (hf.trans hTf') (hfresh T' (hb.table j T' hT').1 i hi)
    · simp only [hold] at hi hf
      exact absurd (hf.trans hdf') (hfresh d hb.mem i hi)
    · simp only [hold] at hi hf
      simp only [hold'] at hj hf
      exact (h.tables _ h.active).distinct i j hi hj hf

theorem Sane.create : Sane ⟨vm, d :: s.dirs⟩ := by
  have hold := h.within hb.within
  refine ⟨List.mem_cons_of_mem _ hold.active, fun d' hd' => ?_, fun d' hd' i hi hp => ?_,
    fun t ht => ?_, hold.nodup, fun d' hd' i hi => ?_, hold.heap_aligned, hold.heap_start,
    hold.heap_limit⟩
  · rcases List.mem_cons.mp hd' with rfl | hd'
    · exact h.tables_built hb huser hout
    · exact hold.tables d' hd'
  · rw [List.mem_cons, not_or]
    rcases List.mem_cons.mp hd' with rfl | hd'
    · rcases built_entry hb hp with ⟨T, hT, hTf⟩ | ⟨-, rfl, -⟩ | ⟨-, -, -, he⟩
      · obtain ⟨hTm, -, hTd⟩ := hb.table i T hT
        rw [hTf]
        exact ⟨hTd, (h.fresh T hTm).1⟩
      · exact absurd rfl hi
      · simp only [he] at hp ⊢
        exact ⟨(h.fresh _ hb.mem).2.2.2 _ h.active i hp, h.separate _ h.active i hi hp⟩
    · refine ⟨?_, hold.separate d' hd' i hi hp⟩
      simp only [h.dirs_eq hb.within hd'] at hp ⊢
      exact (h.fresh d hb.mem).2.2.2 d' hd' i hp
  · obtain ⟨hdirs, h0, hlt, hfr⟩ := hold.fresh t ht
    have htd : t ≠ d := fun he => hb.used (he ▸ ht)
    refine ⟨fun hm => ?_, h0, hlt, fun d' hd' => ?_⟩
    · rcases List.mem_cons.mp hm with he | hm
      · exact htd he
      · exact hdirs hm
    · rcases List.mem_cons.mp hd' with rfl | hd'
      · intro i hp
        rcases built_entry hb hp with ⟨T, hT, hTf⟩ | ⟨-, -, hdf⟩ | ⟨-, -, -, he⟩
        · rintro rfl
          exact (hb.table i T hT).2.1 (hTf ▸ ht)
        · simp only [hdf]
          exact htd.symm
        · simp only [he] at hp ⊢
          exact (h.fresh t (hb.within.pool.subset ht)).2.2.2 _ h.active i hp
      · exact hfr d' hd'
  · rcases List.mem_cons.mp hd' with rfl | hd'
    · cases hT : tbl i with
      | some T =>
          simp only [hb.entry i T hT]
          exact Vm.createPagingEntry_bind ..
      | none =>
          simp only [hb.unbound i hT]
          exact Vm.higherHalf_bind (h.unbound _ h.active) i
    · exact hold.unbound d' hd' i hi

/-- The new directory has the kernel half of the active one. -/
theorem Sane.create_same (hsame : SameKernelHalf s) : SameKernelHalf ⟨vm, d :: s.dirs⟩ := by
  have hold := h.same_within hsame hb.within
  have hnew : ∀ d' ∈ s.dirs, ∀ i : BitVec 10, 512 ≤ i.toNat → i.toNat ≤ 1021 →
      vm.space.mem d i = vm.space.mem d' i := by
    intro d' hd' i hi hi'
    have hne : i ≠ 1023#10 := by
      rintro rfl
      exact absurd hi' (by decide)
    rw [hb.unbound i (built_unbound hb huser hout hi (by omega)), Vm.higherHalf, if_neg hne,
      if_neg (by omega), h.dirs_eq hb.within hd']
    exact hsame _ h.active d' hd' i hi hi'
  intro d₁ hd₁ d₂ hd₂ i hi hi'
  rcases List.mem_cons.mp hd₁ with rfl | hm₁ <;> rcases List.mem_cons.mp hd₂ with rfl | hm₂
  · rfl
  · exact hnew d₂ hm₂ i hi hi'
  · exact (hnew d₁ hm₁ i hi hi').symm
  · exact hold d₁ hm₁ d₂ hm₂ i hi hi'

end Create

/-- One step keeps the directories apart and their kernel halves equal. -/
theorem step_keepsHalf {op : Op} (h : s.Sane) (hsame : SameKernelHalf s) (hok : KeepsHalf s op)
    (hs : step s op = some s') : s'.Sane ∧ SameKernelHalf s' := by
  obtain ⟨hruns, hok⟩ := hok
  cases op with
  | createContext funcPtr user scrolls =>
      obtain ⟨⟨p, vm⟩, hcreate, rfl⟩ := Option.map_eq_some_iff.mp hs
      obtain ⟨d, tbl, userScrs, page, rfl, huser, hb⟩ :=
        Vm.createTaskDirectory_spec h.canBuild.ready hok.1 h.canBuild.unbound hcreate
      rw [show pageOf (pageAddr d) = d from frame_pageAddr d]
      exact ⟨h.create hb huser hok.2, h.create_same hb huser hok.2 hsame⟩
  | contextSwitch dir =>
      cases hs
      exact ⟨⟨hruns, h.tables, h.separate, h.fresh, h.nodup, h.unbound, h.heap_aligned,
        h.heap_start, h.heap_limit⟩, hsame⟩
  | mapPage vaddr paddr =>
      obtain ⟨vm, hmap, rfl⟩ := Option.map_eq_some_iff.mp hs
      have hw := Vm.Within.mapPage h.canBuild.ready (dirIdx_kernel_ne hruns) hok hmap
      exact ⟨h.within hw, h.same_within hsame hw⟩
  | unmapPage vaddr =>
      obtain ⟨vm, hmap, rfl⟩ := Option.map_eq_some_iff.mp hs
      obtain ⟨vm', hmap', hed, -⟩ :=
        (Vm.Within.refl s.vm).unmapPage h.canBuild.ready (dirIdx_kernel_ne hruns)
      obtain rfl := Option.some.inj (hmap'.symm.trans hmap)
      exact ⟨h.within hed.within, h.same_within hsame hed.within⟩

/-- Directories with one kernel half translate kernel addresses in the same way. -/
theorem SameKernelHalf.translation (h : SameKernelHalf s) : SameTranslation s := by
  intro d hd d' hd' v hv
  obtain ⟨hlo, hhi⟩ := dirIdx_kernel hv
  have hpde : (Space.mk s.vm.space.mem d).pde v = (Space.mk s.vm.space.mem d').pde v :=
    h d hd d' hd' (dirIdx v) hlo hhi
  have hpte : (Space.mk s.vm.space.mem d).pte v = (Space.mk s.vm.space.mem d').pte v := by
    rw [Space.pte, Space.pte, hpde]
  rw [Space.frameOf, Space.frameOf, hpde, hpte]

/-- The invariant of a run. -/
def Coherent (s : System) : Prop := s.Sane ∧ SameKernelHalf s

end Sane

/-- In every run whose steps find the page tables they need, all directories have one kernel
    half, and a kernel address is translated in the same way in all contexts. -/
theorem kernel_half_coherent (init : System) (h : init.Sane) (hsame : SameKernelHalf init)
    (s : System) (hr : Reaches step KeepsHalf init s) : SameKernelHalf s ∧ SameTranslation s := by
  have hinv : Coherent s := by
    refine hr.invariant ⟨h, hsame⟩ ?_
    rintro t op t' ⟨ht, hsame'⟩ hok hstep
    exact step_keepsHalf ht hsame' hok hstep
  exact ⟨hinv.2, hinv.2.translation⟩

theorem bootVm_sane : Sane ⟨Vm.bootVm, [1#20]⟩ := by
  have hready := Vm.bootVm_ready
  refine ⟨by decide, fun d hd => ?_, fun d hd i hi hp => ?_, fun t ht => ?_, hready.nodup,
    fun d hd i _ => ?_, hready.heap_aligned, hready.heap_start, hready.heap_limit⟩
  · rw [List.mem_singleton.mp hd]
    exact hready.tables
  · rw [List.mem_singleton.mp hd] at hp ⊢
    rw [List.mem_singleton]
    exact hready.tables.frame_ne_cr3 hi hp
  · obtain ⟨hfresh, h0, hlt⟩ := hready.fresh t ht
    refine ⟨?_, h0, hlt, fun d hd => ?_⟩
    · rw [List.mem_singleton]
      exact hfresh.ne_cr3 hready.tables.selfMapped
    · rw [List.mem_singleton.mp hd]
      exact hfresh
  · rw [List.mem_singleton.mp hd]
    exact Vm.bootVm_unbound i

theorem same_of_singleton (vm : Vm) (d : BitVec 20) : SameKernelHalf ⟨vm, [d]⟩ := by
  intro d₁ hd₁ d₂ hd₂ i _ _
  rw [List.mem_singleton.mp hd₁, List.mem_singleton.mp hd₂]

/-- After boot a second context is created, becomes active and maps a page of the heap. -/
theorem kernel_half_coherent_boot : ∃ d s, Reaches step KeepsHalf ⟨Vm.bootVm, [1#20]⟩ s ∧
    s.dirs = [d, 1#20] ∧ s.vm.space.cr3 = d ∧ SameKernelHalf s ∧ SameTranslation s := by
  obtain ⟨p, vm, hcreate⟩ := Vm.bootVm_creates 0x80100000#32 true [] (by decide)
  have hr₁ : Reaches step KeepsHalf ⟨Vm.bootVm, [1#20]⟩ ⟨vm, [pageOf p, 1#20]⟩ := by
    refine .tail (a := .createContext 0x80100000#32 true []) .refl
      ⟨trivial, Vm.bootVm_heapTables.mono (by decide), fun scr hscr => (by cases hscr)⟩ ?_
    simp [step, hcreate]
  have hr₂ : Reaches step KeepsHalf ⟨Vm.bootVm, [1#20]⟩
      ⟨{ vm with space.cr3 := pageOf p }, [pageOf p, 1#20]⟩ :=
    .tail (a := .contextSwitch (pageOf p)) hr₁ ⟨List.mem_cons_self .., trivial⟩ rfl
  -- the new directory has the table of the heap
  obtain ⟨d, tbl, userScrs, page, rfl, huser, hb⟩ := Vm.createTaskDirectory_spec
    Vm.bootVm_ready (Vm.bootVm_heapTables.mono (by decide)) (fun i _ => Vm.bootVm_unbound i)
    hcreate
  rw [show pageOf (pageAddr d) = d from frame_pageAddr d] at hr₂
  have hout : ∀ scr ∈ ([] : List Scroll), OutsideKernel scr.vaddr := fun scr hscr => (by cases hscr)
  have hself := (bootVm_sane.tables_built hb huser hout).selfMapped
  have hp : present (vm.space.mem d 513#10) = true := by
    rw [hb.unbound _ (built_unbound hb huser hout (by decide) (by decide)), Vm.higherHalf,
      if_neg (by decide), if_neg (by decide)]
    decide
  have hmap := Vm.mapPage_of_present (s := { vm with space.cr3 := d }) (v := 0x80500000#32) hself
    hp 0x9000#32
  have hkernel : KernelAddr 0x80500000#32 := by decide
  have hok : KeepsHalf ⟨{ vm with space.cr3 := d }, [d, 1#20]⟩
      (.mapPage 0x80500000#32 0x9000#32) := ⟨hkernel, hp⟩
  have hr₃ := hr₂.tail hok (by rw [step, hmap]; rfl)
  exact ⟨d, _, hr₃, rfl, rfl, kernel_half_coherent _ bootVm_sane (same_of_singleton _ _) _ hr₃⟩

/-- Two contexts: the first one, which is active, has its directory in frame 1 and maps page 5 to
    itself; the directory of the second is in frame 3, with its stack table in frame 4. Both share
    the table of the heap in frame 2. -/
def twoContexts : System where
  vm := {
    space := {
      mem := fun f k =>
        if f = 1#20 ∧ k = 1023#10 then 0x1003#32
        else if f = 1#20 ∧ k = 513#10 then 0x2003#32
        else if f = 1#20 ∧ k = 0#10 then 0x6003#32
        else if f = 3#20 ∧ k = 1023#10 then 0x3003#32
        else if f = 3#20 ∧ k = 513#10 then 0x2003#32
        else if f = 3#20 ∧ k = 1022#10 then 0x4007#32
        else if f = 6#20 ∧ k = 5#10 then 0x5003#32
        else 0#32
      cr3 := 1#20 }
    freePages := [5#20]
    pageHeap := ⟨fun _ => 0#32, 1, 0x80400000#32⟩ }
  dirs := [3#20, 1#20]

theorem twoContexts_first {i : BitVec 10}
    (hp : present (twoContexts.vm.space.mem 1#20 i) = true) :
    i = 1023#10 ∨ i = 513#10 ∨ i = 0#10 := by
  by_contra hne
  simp only [not_or] at hne
  simp [twoContexts, hne.1, hne.2.1, hne.2.2, present] at hp

theorem twoContexts_second {i : BitVec 10}
    (hp : present (twoContexts.vm.space.mem 3#20 i) = true) :
    i = 1023#10 ∨ i = 513#10 ∨ i = 1022#10 := by
  by_contra hne
  simp only [not_or] at hne
  simp [twoContexts, hne.1, hne.2.1, hne.2.2, present] at hp

theorem twoContexts_dirs {d : BitVec 20} (hd : d ∈ twoContexts.dirs) : d = 3#20 ∨ d = 1#20 := by
  simpa [twoContexts] using hd

theorem twoContexts_sane : twoContexts.Sane := by
  refine ⟨by decide, fun d hd => ⟨⟨?_, ?_⟩, fun i j hi hj hf => ?_⟩, fun d hd i hi hp => ?_,
    fun t ht => ?_, by decide, fun d hd i _ => ?_, by decide, by decide, by decide⟩
  · rcases twoContexts_dirs hd with rfl | rfl <;> decide
  · rcases twoContexts_dirs hd with rfl | rfl <;> decide
  · rcases twoContexts_dirs hd with rfl | rfl
    · rcases twoContexts_second hi with rfl | rfl | rfl <;>
        rcases twoContexts_second hj with rfl | rfl | rfl <;>
          first | rfl | exact absurd hf (by decide)
    · rcases twoContexts_first hi with rfl | rfl | rfl <;>
        rcases twoContexts_first hj with rfl | rfl | rfl <;>
          first | rfl | exact absurd hf (by decide)
  · rcases twoContexts_dirs hd with rfl | rfl
    · rcases twoContexts_second hp with rfl | rfl | rfl
      · exact absurd rfl hi
      · decide
      · decide
    · rcases twoContexts_first hp with rfl | rfl | rfl
      · exact absurd rfl hi
      · decide
      · decide
  · obtain rfl : t = 5#20 := by simpa [twoContexts] using ht
    refine ⟨by decide, by decide, by decide, fun d hd i hi => ?_⟩
    rcases twoContexts_dirs hd with rfl | rfl
    · rcases twoContexts_second hi with rfl | rfl | rfl <;> decide
    · rcases twoContexts_first hi with rfl | rfl | rfl <;> decide
  · simp only [twoContexts]
    repeat' split
    all_goals decide

theorem twoContexts_same : SameKernelHalf twoContexts := by
  have heq : ∀ i : BitVec 10, 512 ≤ i.toNat → i.toNat ≤ 1021 →
      twoContexts.vm.space.mem 3#20 i = twoContexts.vm.space.mem 1#20 i := by
    intro i hi hi'
    have h0 : i ≠ 0#10 := by
      rintro rfl
      exact absurd hi (by decide)
    have h1022 : i ≠ 1022#10 := by
      rintro rfl
      exact absurd hi' (by decide)
    have h1023 : i ≠ 1023#10 := by
      rintro rfl
      exact absurd hi' (by decide)
    simp [twoContexts, h0, h1022, h1023]
  intro d hd d' hd' i hi hi'
  rcases twoContexts_dirs hd with rfl | rfl <;> rcases twoContexts_dirs hd' with rfl | rfl
  · rfl
  · exact heq i hi hi'
  · exact (heq i hi hi').symm
  · rfl

/-- `map_page` inserts a table into the active directory, and the other one does not get it. -/
theorem kernel_half_diverges : ¬ ∀ init s, init.Sane → SameKernelHalf init →
    Reaches step Runs init s → SameKernelHalf s := by
  intro hall
  have hself : twoContexts.vm.space.SelfMapped :=
    (twoContexts_sane.tables _ twoContexts_sane.active).selfMapped
  have hmap : twoContexts.vm.mapPage 0x80800000#32 0x9000#32 =
      some (twoContexts.vm.mapped 5#20 5#20 [] 0x80800000#32 0x9000#32) :=
    Vm.mapPage_absent_eq hself (by decide) (by decide) rfl
      (by decide : twoContexts.vm.space.frameOf (pageAddr 5#20) = some 5#20)
      (by decide) (by decide) 0x9000#32
  have hstep : step twoContexts (.mapPage 0x80800000#32 0x9000#32) =
      some ⟨twoContexts.vm.mapped 5#20 5#20 [] 0x80800000#32 0x9000#32, twoContexts.dirs⟩ := by
    rw [step, hmap]
    rfl
  have hruns : Runs twoContexts (.mapPage 0x80800000#32 0x9000#32) :=
    (by decide : KernelAddr 0x80800000#32)
  have hsame := hall twoContexts _ twoContexts_sane twoContexts_same (.tail .refl hruns hstep)
  have hentry := hsame 1#20 (by decide) 3#20 (by decide) 514#10 (by decide) (by decide)
  simp only [Vm.mapped_mem] at hentry
  exact absurd hentry (by decide)

end System

end Muse.Paging
