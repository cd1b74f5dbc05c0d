import Muse.Paging.Proofs.UserHalf
import Muse.Scheduler.Proofs.Switch

/-!
# The first run of a context

`create_context` and `create_kernel_context` (`src/common/context.c`) set the stack pointer of a new
context to five words below `TASK_STACK_BASE`. There the new page directory shows what the end of
`context_switch` takes off the stack, so that the context begins in its function, with an empty
stack.
-/

namespace Muse.Scheduler

open Muse.Library Muse.Library.X86 Muse.Paging

/-- The field `esp` of a new context (`context.c:29`, `context.c:68`). -/
def firstEsp : BitVec 32 := taskStackBase - 20#32

/-- What a new context begins with. -/
def firstKept (funcPtr : BitVec 32) : Kept :=
  ⟨0#32, 0#32, 0#32, taskStackBase, taskStackBase, funcPtr⟩

/-- In the directory `d`, `context_switch` returns to `funcPtr` from the stack of a new context. -/
def StartsAt (mem : PhysMem) (d : BitVec 20) (funcPtr : BitVec 32) : Prop :=
  ∀ (activeCtx : BitVec 32) (c : Cpu Space), c.mem = ⟨mem, d⟩ → c.reg .esp = firstEsp →
    ∃ c', c.run ((contextSwitchCode activeCtx).drop 11) = some c' ∧ c'.mem = c.mem ∧
      Kept.now c' = firstKept funcPtr

/-- The bytes of a frame and the places in it. -/
theorem byte_eq_bytesOf (s : Vm) (f : BitVec 20) {o : Nat} (ho : o < 4096) :
    s.space.mem.byte (f, BitVec.ofNat 12 o) = s.bytesOf f o := by
  have hmod : (BitVec.ofNat 12 o).toNat = o := by
    rw [BitVec.toNat_ofNat]
    omega
  have hword : Place.word (f, BitVec.ofNat 12 o) = BitVec.ofNat 10 (o / 4) := by
    apply BitVec.eq_of_toNat_eq
    rw [Place.word_toNat, hmod, BitVec.toNat_ofNat]
    omega
  rw [PhysMem.byte, hword, hmod, Vm.bytesOf]

/-- A directory that shows the frame of a new stack. -/
theorem startsAt_of_frame {s : Vm} {d S : BitVec 20} {funcPtr : BitVec 32}
    (hmap : Space.frameOf ⟨s.space.mem, d⟩ taskStackBase = some S) (hf : s.HoldsFrame S funcPtr) :
    StartsAt s.space.mem d funcPtr := by
  intro activeCtx c hc hesp
  have hload : ∀ (i : Nat) (v w : BitVec 32), (Vm.initialFrame funcPtr)[i]? = some w →
      pageOf v = pageOf taskStackBase → v.toNat % 4096 = 0xFFF - 4 * (i + 1) →
      v.toNat % 4096 + 4 ≤ 4096 → Memory.load c.mem v = some w := by
    intro i v w hi hv ho hle
    have hfr : Space.frameOf ⟨s.space.mem, d⟩ v = some S := by
      rw [Space.frameOf_congr hv, hmap]
    rw [hc, ← hf i w hi, ← ho]
    refine (Space.load32_of_frame hfr hle).trans ?_
    exact congrArg some (Bytes.word32_congr fun k hk => byte_eq_bytesOf s S (by omega))
  refine run_resume (c := c) (k := firstKept funcPtr) ?_
  rw [hesp]
  exact ⟨hload 4 _ _ rfl (by decide) (by decide) (by decide),
    hload 3 _ _ rfl (by decide) (by decide) (by decide),
    hload 2 _ _ rfl (by decide) (by decide) (by decide),
    hload 1 _ _ rfl (by decide) (by decide) (by decide),
    hload 0 _ _ rfl (by decide) (by decide) (by decide),
    (by decide : taskStackBase = firstEsp + 20#32)⟩

/-- The stack is shown unless a scroll takes its place. -/
theorem lastWrite_stack (userScrs : List Scroll) {scrolls : List Scroll} (page : BitVec 32)
    (h : ∀ scr ∈ scrolls, pageOf scr.vaddr ≠ pageOf taskStackBase) :
    lastWrite ((Vm.taskScrolls userScrs page scrolls).map Scroll.mapping) (pageOf taskStackBase) =
      some (pageOf page) := by
  have hnone : lastWrite (scrolls.map Scroll.mapping) (pageOf taskStackBase) = none := by
    rw [lastWrite_eq_none]
    simpa [Scroll.mapping] using h
  have hpage : pageOf (alignPgDown taskStackBase) = pageOf taskStackBase := by decide
  rw [Vm.taskScrolls, List.map_append, List.map_cons, List.append_cons, lastWrite_append, hnone,
    Option.none_or, lastWrite_concat, Scroll.mapping, if_pos hpage]

/-- A context that was created begins at its function. -/
theorem new_context_starts (s : Vm) (funcPtr : BitVec 32) (scrolls : List Scroll) (h₀ : s.Ready)
    (hscr : ∀ scr ∈ scrolls, pageOf scr.vaddr ≠ pageOf taskStackBase)
    (hbind : ∀ i, s.space.mem s.space.cr3 i &&& manuscriptBind = 0#32) :
    (∀ user p s', s.HeapTables (2 + Vm.tableCount user scrolls) →
      s.createTaskDirectory funcPtr user scrolls = some (p, s') →
      StartsAt s'.space.mem (pageOf p) funcPtr) ∧
    ∀ p s', s.HeapTables (2 + Vm.tableCount false scrolls) →
      s.createKernelDirectory funcPtr scrolls = some (p, s') →
      StartsAt s'.space.mem (pageOf p) funcPtr := by
  constructor
  · intro user p s' ht₀ hs
    obtain ⟨d, S, rest, tbl, pages, -, -, rfl, hdone⟩ :=
      Vm.createTaskDirectory_completed h₀ (fun i _ => hbind i) ht₀ hs
    rw [show pageOf (pageAddr d) = d from frame_pageAddr d]
    have hlast := lastWrite_stack (Vm.userScrolls user rest) (pageAddr S) hscr
    exact startsAt_of_frame ((hdone.shown hlast).mapped.trans (congrArg some (frame_pageAddr S)))
      hdone.frame
  · intro p s' ht₀ hs
    obtain ⟨d, S, rest, tbl, pages, -, rfl, hdone⟩ :=
      Vm.createKernelDirectory_completed h₀ (fun i _ => hbind i) ht₀ hs
    rw [show pageOf (pageAddr d) = d from frame_pageAddr d]
    have hlast := lastWrite_stack [] (pageAddr S) hscr
    exact startsAt_of_frame ((hdone.shown hlast).mapped.trans (congrArg some (frame_pageAddr S)))
      hdone.frame

/-- A task that starts in the kernel half. -/
theorem new_context_starts_boot : ∃ p s' c',
    Vm.bootVm.createTaskDirectory 0x80100000#32 true [] = some (p, s') ∧
    (Cpu.mk (fun _ => firstEsp) (fun _ => 0#16) 0#32 0#32 (Space.mk s'.space.mem (pageOf p))).run
      ((contextSwitchCode 0#32).drop 11) = some c' ∧
    Kept.now c' = firstKept 0x80100000#32 := by
  obtain ⟨p, s', hs⟩ := Vm.bootVm_creates 0x80100000#32 true [] (by decide)
  obtain ⟨c', hc', -, hk⟩ := (new_context_starts Vm.bootVm 0x80100000#32 [] Vm.bootVm_ready
    (fun _ hscr => absurd hscr List.not_mem_nil) Vm.bootVm_unbound).1 true p s'
      (Vm.bootVm_heapTables.mono (by decide)) hs 0#32
      ⟨fun _ => firstEsp, fun _ => 0#16, 0#32, 0#32, ⟨s'.space.mem, pageOf p⟩⟩ rfl rfl
  exact ⟨p, s', c', hs, hc', hk⟩

end Muse.Scheduler
