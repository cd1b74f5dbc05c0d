import Muse.Elf.Proofs.Lockstep
import Muse.Paging.Proofs.UserHalf

/-!
# Programs in the kernel half

`parse_elf` takes the addresses of a program from the file, and `create_task_directory` puts a table
of its own into the entry of every scroll. A program with a page in the kernel half loses the table
of the kernel there.
-/

namespace Muse.Paging.Vm

open Muse.Library

/-- The directory at `p` has the entries of the kernel, and the page of the task's stack is the
    second one of the free pages, with the initial frame on it. -/
structure KernelKept (s s' : Vm) (p funcPtr : BitVec 32) : Prop where
  entries : ∀ i : BitVec 10, 512 ≤ i.toNat → i.toNat < 1022 →
    s'.space.mem (pageOf p) i = s.space.mem s.space.cr3 i
  stack : ∃ S, s.freePages[1]? = some S ∧
    (Space.mk s'.space.mem (pageOf p)).frameOf (alignPgDown taskStackBase) = some S ∧
    s'.HoldsFrame S funcPtr

/-- An address that is neither in an entry of the kernel nor on the page of the stack. -/
def OutsideKernel (v : BitVec 32) : Prop :=
  (v < 0x80000000#32 ∨ 0xFF800000#32 ≤ v) ∧ pageOf v ≠ pageOf (alignPgDown taskStackBase)

theorem kernel_entry_iff {v : BitVec 32} :
    (v < 0x80000000#32 ∨ 0xFF800000#32 ≤ v) ↔
      ¬ (512 ≤ (dirIdx v).toNat ∧ (dirIdx v).toNat < 1022) := by
  simp only [BitVec.lt_def, BitVec.le_def, dirIdx_toNat, BitVec.toNat_ofNat]
  omega

/-- Only the scrolls of the program can be in an entry of the kernel. -/
theorem mem_slotsOf_taskScrolls {user : Bool} {free : List (BitVec 20)} {page : BitVec 32}
    {scrolls : List Scroll} {i : BitVec 10} (hlo : 512 ≤ i.toNat) (hhi : i.toNat < 1022) :
    i ∈ slotsOf (taskScrolls (userScrolls user free) page scrolls) ↔ i ∈ slotsOf scrolls := by
  rw [mem_slotsOf, mem_slotsOf]
  constructor
  · rintro ⟨scr, hscr, rfl⟩
    rcases List.mem_append.mp hscr with huser | htask
    · rw [userScrolls_vaddr huser] at hlo
      exact absurd hlo (by decide)
    · rcases List.mem_cons.mp htask with rfl | hscr
      · have hstack : ¬ (dirIdx (alignPgDown taskStackBase)).toNat < 1022 := by decide
        exact absurd hhi hstack
      · exact ⟨scr, hscr, rfl⟩
  · rintro ⟨scr, hscr, rfl⟩
    exact ⟨scr, List.mem_append_right _ (List.mem_cons_of_mem _ hscr), rfl⟩

/-- What the page of the stack is mapped to: a scroll of the program comes after the stack. -/
theorem lastWrite_stack (user : Bool) (free : List (BitVec 20)) (S : BitVec 20)
    (scrolls : List Scroll) :
    lastWrite ((taskScrolls (userScrolls user free) (pageAddr S) scrolls).map Scroll.mapping)
        (pageOf (alignPgDown taskStackBase)) =
      (lastWrite (scrolls.map Scroll.mapping) (pageOf (alignPgDown taskStackBase))).or
        (some S) := by
  have hstack : lastWrite ((userScrolls user free ++
        [(⟨alignPgDown taskStackBase, pageSize, .aligned, pageAddr S⟩ : Scroll)]).map
          Scroll.mapping) (pageOf (alignPgDown taskStackBase)) = some S := by
    rw [List.map_append, List.map_singleton, lastWrite_concat]
    exact (if_pos rfl).trans (congrArg some (frame_pageAddr S))
  rw [taskScrolls, List.append_cons, List.map_append, lastWrite_append, hstack]

section Completed

variable {s₀ s : Vm} {d S : BitVec 20} {funcPtr : BitVec 32}
  {tbl : BitVec 10 → Option (BitVec 20)} {pages rest : List (BitVec 20)} {user : Bool}
  {scrolls : List Scroll}

/-- An entry is the one of the active directory unless a scroll uses it: the tables of the scrolls
    were free pages. -/
theorem Completed.entry_kept_iff (h₀ : s₀.Ready)
    (h : Completed s₀ s d S (higherHalf s₀ d) funcPtr tbl pages scrolls) {i : BitVec 10}
    (hlo : 512 ≤ i.toNat) (hhi : i.toNat < 1022) :
    s.space.mem d i = s₀.space.mem s₀.space.cr3 i ↔ i ∉ slotsOf scrolls := by
  rw [← h.only i, ne_eq, not_not]
  constructor
  · intro he
    cases hT : tbl i with
    | none => rfl
    | some T =>
        rw [h.entry i T hT] at he
        have hfresh := (h₀.fresh T (h.table i T hT).1).1
        refine absurd ?_ (hfresh i ?_)
        · rw [← he, frame_createPagingEntry]
          exact frame_pageAddr T
        · rw [← he, present_createPagingEntry]
  · intro hT
    have hne : i ≠ 1023#10 := by
      rintro rfl
      exact absurd hhi (by decide)
    rw [h.unbound i hT, higherHalf, if_neg hne, if_neg (by omega)]

/-- The page of the stack keeps its mapping unless a scroll takes it. -/
theorem Completed.stack_kept_iff
    (h : Completed s₀ s d S (higherHalf s₀ d) funcPtr tbl pages
      (taskScrolls (userScrolls user rest) (pageAddr S) scrolls))
    (hpages : ∀ scr ∈ scrolls, pageOf scr.page ≠ S) :
    (Space.mk s.space.mem d).frameOf (alignPgDown taskStackBase) = some S ↔
      ∀ scr ∈ scrolls, pageOf scr.vaddr ≠ pageOf (alignPgDown taskStackBase) := by
  have hlast := lastWrite_stack user rest S scrolls
  cases hown : lastWrite (scrolls.map Scroll.mapping) (pageOf (alignPgDown taskStackBase)) with
  | none =>
      rw [hown, Option.none_or] at hlast
      refine iff_of_true (h.shown hlast).mapped fun scr hscr => ?_
      exact lastWrite_eq_none.mp hown _ (List.mem_map_of_mem hscr)
  | some f =>
      rw [hown, Option.some_or] at hlast
      obtain ⟨scr, hscr, hmap⟩ := List.mem_map.mp (mem_of_lastWrite_eq_some hown)
      obtain ⟨hv, rfl⟩ := Prod.mk.inj hmap
      refine iff_of_false (fun hS => hpages scr hscr ?_) fun hall => hall scr hscr hv
      rw [(h.shown hlast).mapped] at hS
      exact Option.some.inj hS

/-- The kernel is kept exactly if every scroll of the program lies outside. -/
theorem Completed.kernelKept_iff (h₀ : s₀.Ready) (hfree : s₀.freePages = d :: S :: rest)
    (h : Completed s₀ s d S (higherHalf s₀ d) funcPtr tbl pages
      (taskScrolls (userScrolls user rest) (pageAddr S) scrolls))
    (hpages : ∀ scr ∈ scrolls, pageOf scr.page ≠ S) :
    KernelKept s₀ s (pageAddr d) funcPtr ↔ ∀ scr ∈ scrolls, OutsideKernel scr.vaddr := by
  have hd : pageOf (pageAddr d) = d := frame_pageAddr d
  constructor
  · intro hkept
    obtain ⟨S', hS', hmap, -⟩ := hkept.stack
    rw [hfree, List.getElem?_cons_succ, List.getElem?_cons_zero, Option.some_inj] at hS'
    rw [hd, ← hS'] at hmap
    intro scr hscr
    refine ⟨kernel_entry_iff.mpr fun ⟨hlo, hhi⟩ => ?_, (h.stack_kept_iff hpages).mp hmap scr hscr⟩
    have hent := hkept.entries _ hlo hhi
    rw [hd, h.entry_kept_iff h₀ hlo hhi, mem_slotsOf_taskScrolls hlo hhi] at hent
    exact hent (mem_slotsOf.mpr ⟨scr, hscr, rfl⟩)
  · intro hall
    refine ⟨fun i hlo hhi => ?_, S, by rw [hfree]; rfl, ?_, h.frame⟩
    · rw [hd, h.entry_kept_iff h₀ hlo hhi, mem_slotsOf_taskScrolls hlo hhi, mem_slotsOf]
      rintro ⟨scr, hscr, rfl⟩
      exact kernel_entry_iff.mp (hall scr hscr).1 ⟨hlo, hhi⟩
    · rw [hd]
      exact (h.stack_kept_iff hpages).mpr fun scr hscr => (hall scr hscr).2

end Completed

end Muse.Paging.Vm

namespace Muse.Elf

open Muse.Library Muse.Paging

/-- A segment without a page in the entries of the kernel or on the page of the stack: it has no
    page, or ends below `0x80000000`, or starts behind the entries of the kernel and leaves out the
    stack. -/
def ProgramHeader.OutsideKernel (h : ProgramHeader) : Prop :=
  h.limitPage ≤ h.firstPage ∨ h.limitPage ≤ 0x80000000#32 ∨
    (0xFF800000#32 ≤ h.firstPage ∧
      (h.limitPage ≤ alignPgDown taskStackBase ∨ alignPgDown taskStackBase < h.firstPage))

theorem pageNo_outside {n : Nat} (hn : n < 2 ^ 20) :
    Vm.OutsideKernel (pageNo n) ↔ (n < 0x80000 ∨ 0xFF800 ≤ n) ∧ n ≠ 0xFF8FF := by
  have hstack : (pageOf (alignPgDown taskStackBase)).toNat = 0xFF8FF := by decide
  rw [Vm.OutsideKernel, ne_eq, ← BitVec.toNat_inj, hstack, pageOf_toNat, BitVec.lt_def,
    BitVec.le_def, pageNo_toNat hn]
  simp only [BitVec.toNat_ofNat]
  omega

/-- The pages of a segment are outside exactly if its bounds say so. -/
theorem pages_outside_iff (h : ProgramHeader) :
    (∀ v ∈ h.pages, Vm.OutsideKernel v) ↔ h.OutsideKernel := by
  have ha := h.firstPage.isLt
  have hb := h.limitPage.isLt
  have hfirst := firstPage_toNat h
  have hlimit : h.limitPage.toNat % 4096 = 0 := by
    rw [limitPage_eq, pageNo, BitVec.toNat_ofNat]
    omega
  have hstack : (alignPgDown taskStackBase).toNat = 0xFF8FF000 := by decide
  have hpages : (∀ v ∈ h.pages, Vm.OutsideKernel v) ↔
      ∀ n, h.firstPage.toNat / 4096 ≤ n → n < h.limitPage.toNat / 4096 →
        (n < 0x80000 ∨ 0xFF800 ≤ n) ∧ n ≠ 0xFF8FF := by
    rw [pages_eq, pagesFrom, List.forall_mem_map]
    simp only [List.mem_range]
    constructor
    · intro hall n hlo hhi
      have hn := hall (n - h.firstPage.toNat / 4096) (by omega)
      rwa [Nat.add_sub_cancel' hlo, pageNo_outside (by omega)] at hn
    · intro hall i hi
      rw [pageNo_outside (by omega)]
      exact hall _ (by omega) (by omega)
  rw [hpages, ProgramHeader.OutsideKernel]
  simp only [BitVec.lt_def, BitVec.le_def, hstack, BitVec.toNat_ofNat]
  constructor
  · intro hall
    have hstart := hall (h.firstPage.toNat / 4096) (Nat.le_refl _)
    have hhalf := hall 0x80000
    have hpage := hall 0xFF8FF
    omega
  · intro hout n hlo hhi
    omega

/-- Loading a program keeps the kernel and the stack exactly if every segment of the file lies
    outside. -/
theorem kernel_kept_iff {kpageAlloc : Nat → BitVec 32} {file : Option ElfFile} {elf : ElfInfo}
    (hparse : parseElf kpageAlloc file = some elf) {s s' : Vm} {funcPtr p : BitVec 32}
    {user : Bool} (h₀ : s.Ready)
    (ht₀ : s.HeapTables (2 + Vm.tableCount user elf.scrolls))
    (hbind : ∀ i : BitVec 10, 512 ≤ i.toNat →
      s.space.mem s.space.cr3 i &&& manuscriptBind = 0#32)
    (hpages : ∀ scr ∈ elf.scrolls, pageOf scr.page ∉ s.freePages)
    (hs : s.createTaskDirectory funcPtr user elf.scrolls = some (p, s')) :
    Vm.KernelKept s s' p funcPtr ↔ ∀ h ∈ loads elf.contents, h.OutsideKernel := by
  obtain ⟨d, S, rest, tbl, pages, hfree, -, rfl, hdone⟩ :=
    Vm.createTaskDirectory_completed h₀ hbind ht₀ hs
  rw [hdone.kernelKept_iff h₀ hfree fun scr hscr he => hpages scr hscr ?_]
  · calc (∀ scr ∈ elf.scrolls, Vm.OutsideKernel scr.vaddr)
        ↔ ∀ v ∈ elf.scrolls.map (·.vaddr), Vm.OutsideKernel v := List.forall_mem_map.symm
      _ ↔ ∀ h ∈ loads elf.contents, ∀ v ∈ h.pages, Vm.OutsideKernel v := by
          rw [parseElf_vaddrs hparse]
          exact List.forall_mem_flatMap
      _ ↔ ∀ h ∈ loads elf.contents, h.OutsideKernel :=
          forall₂_congr fun h _ => pages_outside_iff h
  · rw [he, hfree]
    exact List.mem_cons_of_mem _ (List.mem_cons_self ..)

/-! ## Programs of one segment -/

/-- What `parse_elf` makes of a segment of 32 bytes at `0x400000`. -/
theorem oneSegment_scrolls : ∃ elf, parseElf (fun _ => 0x9000#32) (some (oneSegment 32#8 0#8)) =
    some elf ∧ elf.scrolls = [⟨0x400000#32, pageSize, .aligned, 0x9000#32⟩] ∧
      loads elf.contents = [⟨1#32, 0#32, 0x400000#32, 0#32, 32#32⟩] := by
  obtain ⟨elf, hparse⟩ := exists_parseElf (fun _ => 0x9000#32) 32#8 0#8
  have hscrolls : (parseElf (fun _ => 0x9000#32) (some (oneSegment 32#8 0#8))).map (·.scrolls) =
      some [⟨0x400000#32, pageSize, .aligned, 0x9000#32⟩] := by decide +kernel
  rw [hparse] at hscrolls
  refine ⟨elf, hparse, Option.some.inj hscrolls, ?_⟩
  rw [parseElf_contents hparse]
  decide +kernel

theorem kernel_kept_small : ∃ elf p s',
    parseElf (fun _ => 0x9000#32) (some (oneSegment 32#8 0#8)) = some elf ∧
      Vm.bootVm.createTaskDirectory 0x80100000#32 true elf.scrolls = some (p, s') ∧
      Vm.KernelKept Vm.bootVm s' p 0x80100000#32 := by
  obtain ⟨elf, hparse, hscrolls, hloads⟩ := oneSegment_scrolls
  obtain ⟨p, s', hs⟩ := Vm.bootVm_creates 0x80100000#32 true elf.scrolls
    (by rw [hscrolls]; decide)
  have hpages : ∀ scr ∈ elf.scrolls, pageOf scr.page ∉ Vm.bootVm.freePages := by
    rw [hscrolls, List.forall_mem_singleton]
    decide
  refine ⟨elf, p, s', hparse, hs, (kernel_kept_iff hparse Vm.bootVm_ready
    (Vm.bootVm_heapTables.mono (by rw [hscrolls]; decide)) (fun i _ => Vm.bootVm_unbound i) hpages
    hs).mpr ?_⟩
  rw [hloads, List.forall_mem_singleton]
  exact .inr (.inl (by decide))

/-- The file with its segment at `0x80400000`. -/
def kernelSegment : ElfFile :=
  { oneSegment 32#8 0#8 with contents := Function.update (oneSegment 32#8 0#8).contents 63 0x80#8 }

/-- In the directory of this program the table of the kernel heap is not the kernel's. -/
theorem kernel_displaced : ¬ ∀ (kpageAlloc : Nat → BitVec 32) (file : Option ElfFile)
    (elf : ElfInfo) (s s' : Vm) (funcPtr p : BitVec 32) (user : Bool),
    parseElf kpageAlloc file = some elf → s.Ready →
    s.HeapTables (2 + Vm.tableCount user elf.scrolls) →
    (∀ i : BitVec 10, 512 ≤ i.toNat → s.space.mem s.space.cr3 i &&& manuscriptBind = 0#32) →
    (∀ scr ∈ elf.scrolls, pageOf scr.page ∉ s.freePages) →
    s.createTaskDirectory funcPtr user elf.scrolls = some (p, s') →
    Vm.KernelKept s s' p funcPtr := by
  intro hall
  have hscrolls : (parseElf (fun _ => 0x9000#32) (some kernelSegment)).map (·.scrolls) =
      some [⟨0x80400000#32, pageSize, .aligned, 0x9000#32⟩] := by decide +kernel
  obtain ⟨elf, hparse, hscrolls⟩ := Option.map_eq_some_iff.mp hscrolls
  obtain ⟨p, s', hs⟩ := Vm.bootVm_creates 0x80100000#32 true elf.scrolls
    (by rw [hscrolls]; decide)
  have hpages : ∀ scr ∈ elf.scrolls, pageOf scr.page ∉ Vm.bootVm.freePages := by
    rw [hscrolls, List.forall_mem_singleton]
    decide
  have htables : Vm.bootVm.HeapTables (2 + Vm.tableCount true elf.scrolls) :=
    Vm.bootVm_heapTables.mono (by rw [hscrolls]; decide)
  have hkept := hall _ _ elf Vm.bootVm s' _ p true hparse Vm.bootVm_ready htables
    (fun i _ => Vm.bootVm_unbound i) hpages hs
  obtain ⟨d, S, rest, tbl, pages, hfree, -, rfl, hdone⟩ :=
    Vm.createTaskDirectory_completed Vm.bootVm_ready (fun i _ => Vm.bootVm_unbound i) htables hs
  have hout := (hdone.kernelKept_iff Vm.bootVm_ready hfree fun scr hscr he =>
    hpages scr hscr (by rw [he, hfree]; simp)).mp hkept
  rw [hscrolls, List.forall_mem_singleton] at hout
  exact absurd hout.1 (by decide)

end Muse.Elf
