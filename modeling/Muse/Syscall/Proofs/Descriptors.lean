import Muse.Library.Transition
import Muse.Syscall.Proofs.Table

/-!
# Open descriptors keep their file

`open` takes the first slot whose mode is 0, and stores the mode that the user program asks for.
With mode 0 the slot is taken and still looks closed: the next `open` takes it again. In the runs
that do not do this, an open descriptor is handed out once and keeps its inode.
-/

namespace Muse.Syscall

open Muse.Library

/-- A context's calls, with the descriptors that its program holds and the inodes it got them
    for. -/
structure Descriptors where
  kernel : Kernel
  held : Fin fopenMax → Option InodePtr

namespace Descriptors

/-- Any slot that is open at the start is held. -/
def initial (kernel : Kernel) : Descriptors :=
  ⟨kernel, fun i => if (kernel.file i).mode = 0#8 then none else some (kernel.file i).inode⟩

/-- A call; `inode` is what `vfs_open` finds under the path. -/
inductive Op where
  | open (drivers : Drivers) (inode : InodePtr) (arg : BitVec 32)
  | close (fd : BitVec 32)

/-- The descriptor `fd` is held for `inode` from now on, or for none. -/
def hold (s : Descriptors) (fd : BitVec 32) (inode : Option InodePtr) :
    Fin fopenMax → Option InodePtr :=
  match slot? fd with
  | none => s.held
  | some i => Function.update s.held i inode

def step (s : Descriptors) : Op → Option Descriptors
  | .open drivers inode arg =>
      (s.kernel.syscallOpen drivers inode arg).map fun (fd, kernel) =>
        ⟨kernel, s.hold fd (some inode)⟩
  | .close fd =>
      (s.kernel.syscallClose fd).final.map fun (_, kernel) => ⟨kernel, s.hold fd none⟩

/-- The program closes descriptors that it holds. -/
def Allowed (s : Descriptors) : Op → Prop
  | .open .. => True
  | .close fd => ∃ i, slot? fd = some i ∧ s.held i ≠ none

/-- No `open` succeeds with a mode byte of 0. -/
def Marked (s : Descriptors) (op : Op) : Prop :=
  s.Allowed op ∧ ∀ drivers inode arg, op = .open drivers inode arg → arg.setWidth 8 = 0#8 →
    inode = 0#32 ∨ s.kernel.freeSlot = none

/-- The slots of the held descriptors refer to the inodes that were opened, and no call of `open`
    returns a held one. -/
structure Kept (s : Descriptors) : Prop where
  file : ∀ i inode, s.held i = some inode → (s.kernel.file i).inode = inode
  fresh : ∀ drivers inode arg fd kernel,
    s.kernel.syscallOpen drivers inode arg = some (fd, kernel) →
    ∀ i, slot? fd = some i → s.held i = none

/-- The invariant of a run: held descriptors look open. -/
def Inv (s : Descriptors) : Prop :=
  ∀ i inode, s.held i = some inode →
    (s.kernel.file i).inode = inode ∧ (s.kernel.file i).mode ≠ 0#8

variable {s t : Descriptors}

theorem Inv.kept (h : s.Inv) : s.Kept where
  file := fun i inode hheld => (h i inode hheld).1
  fresh := by
    intro drivers inode arg fd kernel hopen i hi
    rcases Kernel.syscallOpen_cases hopen with
      ⟨-, rfl, -⟩ | ⟨-, -, rfl, -⟩ | ⟨-, j, pos, size, hfree, rfl, -⟩
    · rw [slot?_neg_one] at hi
      cases hi
    · rw [slot?_neg_one] at hi
      cases hi
    · rw [slot?_ofNat] at hi
      cases hi
      rw [Option.eq_none_iff_forall_ne_some]
      intro other hheld
      exact (h i other hheld).2 (Kernel.mode_freeSlot hfree)

theorem inv_initial (kernel : Kernel) : (initial kernel).Inv := by
  intro i inode hheld
  simp only [initial, Option.ite_none_left_eq_some, Option.some_inj] at hheld
  exact ⟨hheld.2, hheld.1⟩

/-- A change of one slot keeps the invariant if it suits what the slot is then held for. -/
theorem Inv.update {kernel : Kernel} {i : Fin fopenMax} {held : Option InodePtr} (h : s.Inv)
    (hother : ∀ j, j ≠ i → kernel.file j = s.kernel.file j)
    (hslot : ∀ inode, held = some inode →
      (kernel.file i).inode = inode ∧ (kernel.file i).mode ≠ 0#8) :
    Inv ⟨kernel, Function.update s.held i held⟩ := by
  intro j inode hheld
  by_cases hj : j = i
  · subst hj
    simp only [Function.update_self] at hheld
    exact hslot inode hheld
  · simp only [Function.update_of_ne hj] at hheld
    simp only [hother j hj]
    exact h j inode hheld

theorem step_inv {op : Op} (h : s.Inv) (hok : s.Marked op) (hstep : s.step op = some t) :
    t.Inv := by
  cases op with
  | «open» drivers inode arg =>
      obtain ⟨⟨fd, kernel⟩, hopen, rfl⟩ := Option.map_eq_some_iff.mp hstep
      rcases Kernel.syscallOpen_cases hopen with
        ⟨-, rfl, rfl⟩ | ⟨-, -, rfl, rfl⟩ | ⟨hinode, i, pos, size, hfree, rfl, rfl⟩
      · simpa only [hold, slot?_neg_one] using h
      · simp only [hold, slot?_neg_one]
        exact h
      · have hmode : arg.setWidth 8 ≠ 0#8 := by
          intro hzero
          rcases hok.2 drivers inode arg rfl hzero with heq | hnone
          · exact hinode heq
          · rw [hfree] at hnone
            cases hnone
        simp only [hold, slot?_ofNat]
        refine h.update (fun j hj => Kernel.file_setFile_of_ne hj) ?_
        intro other hother
        cases hother
        rw [Kernel.file_setFile_self]
        exact ⟨rfl, hmode⟩
  | close fd =>
      obtain ⟨i, hi, -⟩ := hok.1
      rw [step, Kernel.syscallClose_final hi, Option.map_some, Option.some_inj] at hstep
      subst hstep
      simp only [hold, hi]
      refine h.update ?_ ?_
      · intro j hj
        rw [Kernel.file_setFile_of_ne hj, Kernel.file_dropRef]
      · intro inode hheld
        cases hheld

/-- In the runs whose `open` calls ask for a mode other than 0, open descriptors keep their
    file. -/
theorem descriptors_kept (kernel : Kernel) {s : Descriptors}
    (h : Reaches step Marked (initial kernel) s) : s.Kept := by
  have hinv : s.Inv :=
    h.invariant (inv_initial kernel) fun _ _ _ hs hok hstep => step_inv hs hok hstep
  exact hinv.kept

/-- A context with an empty table. -/
def noFiles : Kernel :=
  ⟨0#32, fun _ _ => ⟨0#32, 0#32, 0#8⟩, fun _ => ⟨true, 0#32, 0#32, 0#32⟩, []⟩

/-- Drivers that move all they are asked to, and truncate to nothing. -/
def eager : Drivers := ⟨fun _ _ size _ _ => some size, fun _ => some 0#32⟩

/-- The state after `open` was called with the mode `arg`. -/
def opened (arg : BitVec 32) : Option Descriptors :=
  (initial noFiles).step (.open eager 0x500#32 arg)

/-- A program opens a file for reading. -/
theorem descriptors_kept_read : ∃ s, opened 1#32 = some s ∧ s.held 0 = some 0x500#32 ∧ s.Kept := by
  have hok : (initial noFiles).Marked (.open eager 0x500#32 1#32) := by
    refine ⟨trivial, ?_⟩
    rintro _ _ _ ⟨⟩ hmode
    exact absurd hmode (by decide)
  obtain ⟨s, hs⟩ : ∃ s, opened 1#32 = some s := ⟨_, rfl⟩
  have hheld : s.held 0 = some 0x500#32 := by
    cases hs
    rfl
  exact ⟨s, hs, hheld, descriptors_kept noFiles (.tail .refl hok hs)⟩

/-- After an `open` with mode 0, its descriptor is handed out again. -/
theorem descriptor_returned_twice :
    ¬ ∀ kernel s, Reaches step Allowed (initial kernel) s → s.Kept := by
  intro h
  obtain ⟨s, hs⟩ : ∃ s, opened 0#32 = some s := ⟨_, rfl⟩
  have hok : (initial noFiles).Allowed (.open eager 0x500#32 0#32) := trivial
  have hkept := h noFiles s (.tail .refl hok hs)
  cases hs
  have hheld := hkept.fresh eager 0x600#32 1#32 _ _ rfl 0 rfl
  cases hheld

end Descriptors

end Muse.Syscall
