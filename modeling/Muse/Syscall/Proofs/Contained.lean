import Muse.Syscall.Proofs.Table

/-!
# Calls with a descriptor stay inside the table

`transfer`, `seek` and `close` take their descriptor from the user program. Only `transfer` compares
it with `FOPEN_MAX`, and none looks at the mode of the slot: `contained_iff` says for which
calls nothing beyond the open slots is touched.
-/

namespace Muse.Syscall

open Muse.Paging

/-- A call with a descriptor, with the words that the user program passes. -/
inductive FileCall where
  | transfer (arg size data : BitVec 32)
  | seek (fd offset whence : BitVec 32)
  | close (fd : BitVec 32)

namespace FileCall

def run (drivers : Drivers) (vm : Vm) (s : Kernel) : FileCall → Outcome
  | .transfer arg size data => s.syscallTransfer drivers vm arg size data
  | .seek fd offset whence => s.syscallSeek fd offset whence
  | .close fd => s.syscallClose fd

/-- The descriptor that the call is about. -/
def descriptor : FileCall → BitVec 32
  | .transfer arg _ _ => if arg.slt 0#32 then -arg else arg
  | .seek fd _ _ => fd
  | .close fd => fd

end FileCall

namespace Kernel

/-- The descriptor is an index of the table, and the slot is open. -/
def IsOpen (s : Kernel) (fd : BitVec 32) : Prop := ∃ i, slot? fd = some i ∧ (s.file i).mode ≠ 0#8

/-- A seek that finds position -1 in a closed slot, and leaves it there. -/
def SeeksNowhere (s : Kernel) (fd offset whence : BitVec 32) : Prop :=
  ∃ i, slot? fd = some i ∧ (s.file i).pos = -1#32 ∧ whence ≠ 2#32 ∧
    s.seekPos i offset whence = -1#32

end Kernel

/-- The call accesses the table inside its bounds and uses inodes of open slots only; if the
    descriptor is not open, it returns -1 and changes nothing. -/
structure Outcome.Contained (o : Outcome) (s : Kernel) (fd : BitVec 32) : Prop where
  indices : ∀ j ∈ o.indices, 0 ≤ j ∧ j < fopenMax
  uses : ∀ i ∈ o.uses, (s.file i).mode ≠ 0#8
  refused : ¬ s.IsOpen fd → o.final = some (-1#32, s)

/-- The calls that find their descriptor open, or are refused before it is used. -/
def FileCall.Guarded (vm : Vm) (s : Kernel) : FileCall → Prop
  | .transfer arg size data =>
      let fd := if arg.slt 0#32 then -arg else arg
      (16#32).sle fd ∨ vm.cleanData data size = some 0#32 ∨ s.IsOpen fd
  | .seek fd offset whence => s.IsOpen fd ∨ s.SeeksNowhere fd offset whence
  | .close fd => s.IsOpen fd

variable {s : Kernel} {fd : BitVec 32} {i : Fin fopenMax} {k : Fin fopenMax → Outcome}

theorem isOpen_iff (h : slot? fd = some i) : s.IsOpen fd ↔ (s.file i).mode ≠ 0#8 := by
  constructor
  · rintro ⟨j, hj, hmode⟩
    rw [h] at hj
    cases hj
    exact hmode
  · intro hmode
    exact ⟨i, h, hmode⟩

theorem not_isOpen (h : slot? fd = none) : ¬ s.IsOpen fd := by
  rintro ⟨i, hi, -⟩
  rw [h] at hi
  cases hi

theorem refuse_contained (s : Kernel) (fd : BitVec 32) : s.refuse.Contained s fd where
  indices := by simp [Kernel.refuse]
  uses := by simp [Kernel.refuse]
  refused := fun _ => rfl

/-- An access beyond the table is not contained. -/
theorem not_contained_access (h : slot? fd = none) : ¬ (Outcome.access fd k).Contained s fd := by
  intro hcontained
  have hmem : fd.toInt ∈ (Outcome.access fd k).indices := by
    rw [Outcome.access, h]
    exact List.mem_singleton_self _
  exact slot?_eq_none h (hcontained.indices _ hmem)

/-- An access inside the table: what counts is what the call does with the slot. -/
theorem access_contained_iff (h : slot? fd = some i) (hk : (k i).indices = []) :
    (Outcome.access fd k).Contained s fd ↔ (∀ j ∈ (k i).uses, (s.file j).mode ≠ 0#8) ∧
      ((s.file i).mode = 0#8 → (k i).final = some (-1#32, s)) := by
  have hfd := slot?_eq_some h
  have haccess : Outcome.access fd k = { k i with indices := [fd.toInt] } := by
    rw [Outcome.access, h]
    simp only [hk]
  rw [haccess]
  constructor
  · intro hcontained
    refine ⟨hcontained.uses, ?_⟩
    intro hmode
    apply hcontained.refused
    rw [isOpen_iff h]
    exact fun hopen => hopen hmode
  · rintro ⟨huses, hfinal⟩
    refine ⟨?_, huses, ?_⟩
    · intro j hj
      obtain rfl := List.mem_singleton.mp hj
      have hi := i.isLt
      omega
    · intro hclosed
      rw [isOpen_iff h, not_not] at hclosed
      exact hfinal hclosed

/-- A call that uses the inode of its slot is contained if the slot is open. -/
theorem access_uses_contained_iff {final : Fin fopenMax → Option (BitVec 32 × Kernel)} :
    (Outcome.access fd fun i => ⟨[], [i], final i⟩).Contained s fd ↔ s.IsOpen fd := by
  cases hslot : slot? fd with
  | none => exact iff_of_false (not_contained_access hslot) (not_isOpen hslot)
  | some i =>
      rw [access_contained_iff hslot rfl, isOpen_iff hslot]
      constructor
      · intro h
        exact h.1 i (List.mem_singleton_self i)
      · intro hmode
        refine ⟨?_, fun hclosed => absurd hclosed hmode⟩
        intro j hj
        rwa [List.mem_singleton.mp hj]

theorem setFile_pos_eq_self_iff {pos : BitVec 32} :
    s.setFile i { s.file i with pos } = s ↔ (s.file i).pos = pos := by
  constructor
  · intro h
    have hpos := congrArg (fun t : Kernel => (t.file i).pos) h
    simpa [Kernel.setFile, Kernel.file] using hpos.symm
  · rintro rfl
    simp only [Kernel.setFile, Kernel.file, Function.update_eq_self]

theorem close_contained_iff : (s.syscallClose fd).Contained s fd ↔ s.IsOpen fd :=
  access_uses_contained_iff

theorem seek_contained_iff {offset whence : BitVec 32} :
    (s.syscallSeek fd offset whence).Contained s fd ↔
      s.IsOpen fd ∨ s.SeeksNowhere fd offset whence := by
  cases hslot : slot? fd with
  | none =>
      have hnowhere : ¬ s.SeeksNowhere fd offset whence := by
        rintro ⟨i, hi, -⟩
        rw [hslot] at hi
        cases hi
      exact iff_of_false (not_contained_access hslot)
        (fun h => h.elim (not_isOpen hslot) hnowhere)
  | some i =>
      rw [Kernel.syscallSeek, access_contained_iff hslot rfl, isOpen_iff hslot]
      by_cases hmode : (s.file i).mode = 0#8
      · have hnowhere : s.SeeksNowhere fd offset whence ↔
            (s.file i).pos = -1#32 ∧ whence ≠ 2#32 ∧ s.seekPos i offset whence = -1#32 := by
          constructor
          · rintro ⟨j, hj, hrest⟩
            rw [hslot] at hj
            cases hj
            exact hrest
          · intro hrest
            exact ⟨i, hslot, hrest⟩
        rw [hnowhere]
        by_cases hwhence : whence = 2#32
        · simp [hwhence, hmode]
        · simp only [Option.some_inj, Prod.mk.injEq, setFile_pos_eq_self_iff]
          simp only [hmode, hwhence, if_false, List.not_mem_nil, false_implies, implies_true,
            true_and, forall_const, ne_eq, not_true_eq_false, not_false_eq_true, false_or]
          constructor
          · rintro ⟨hpos, heq⟩
            exact ⟨heq.trans hpos, hpos⟩
          · rintro ⟨hold, hpos⟩
            exact ⟨hpos, hold.trans hpos.symm⟩
      · refine iff_of_true ⟨?_, fun hclosed => absurd hclosed hmode⟩ (.inl hmode)
        intro j hj
        split at hj
        · rwa [List.mem_singleton.mp hj]
        · cases hj

theorem transfer_contained_iff {drivers : Drivers} {vm : Vm} {arg size data : BitVec 32} :
    (s.syscallTransfer drivers vm arg size data).Contained s
        (if arg.slt 0#32 then -arg else arg) ↔
      (16#32).sle (if arg.slt 0#32 then -arg else arg) ∨ vm.cleanData data size = some 0#32 ∨
        s.IsOpen (if arg.slt 0#32 then -arg else arg) := by
  rw [Kernel.syscallTransfer]
  generalize (if arg.slt 0#32 then -arg else arg) = fd
  by_cases hlarge : (16#32).sle fd
  · simp only [if_pos hlarge]
    exact iff_of_true (refuse_contained s fd) (.inl hlarge)
  · simp only [if_neg hlarge]
    cases hclean : vm.cleanData data size with
    | none =>
        -- the check of the buffer itself faults, and nothing was accessed
        simp only [hlarge, false_or, reduceCtorEq]
        constructor
        · intro h
          by_contra hclosed
          cases h.refused hclosed
        · intro hopen
          exact ⟨by simp, by simp, fun hclosed => absurd hopen hclosed⟩
    | some data =>
        by_cases hdata : data = 0#32
        · simp only [if_pos hdata]
          exact iff_of_true (refuse_contained s fd) (.inr (.inl (congrArg some hdata)))
        · simp only [if_neg hdata]
          rw [access_uses_contained_iff]
          simp only [hlarge, Option.some_inj, hdata, Bool.false_eq_true, false_or]

/-- When a call with a descriptor keeps to the open slots. -/
theorem contained_iff (drivers : Drivers) (vm : Vm) (s : Kernel) (call : FileCall) :
    (call.run drivers vm s).Contained s call.descriptor ↔ call.Guarded vm s := by
  cases call with
  | transfer arg size data => exact transfer_contained_iff
  | seek fd offset whence => exact seek_contained_iff
  | close fd => exact close_contained_iff

/-- `close(16)` changes what lies behind the table. -/
theorem close_beyond_table : ¬ ∀ (drivers : Drivers) (vm : Vm) (s : Kernel) (call : FileCall),
    (call.run drivers vm s).Contained s call.descriptor := by
  intro h
  let s : Kernel := ⟨0#32, fun _ _ => ⟨0#32, 0#32, 0#8⟩, fun _ => ⟨false, 0#32, 0#32, 0#32⟩, []⟩
  have hcontained := h ⟨fun _ _ _ _ _ => none, fun _ => none⟩
    ⟨⟨fun _ _ => 0#32, 0#20⟩, [], ⟨fun _ => 0#32, 0, 0#32⟩⟩ s (.close 16#32)
  have hnone : slot? 16#32 = none := by decide
  rw [FileCall.run, FileCall.descriptor, Kernel.syscallClose] at hcontained
  exact not_contained_access hnone hcontained

end Muse.Syscall
