import Muse.Syscall.Files

/-!
# The file table

What each system call does to the slots of the table and to the inodes.
-/

namespace Muse.Syscall

variable {s t : Kernel} {fd : BitVec 32} {i j : Fin fopenMax} {f : File} {inode : InodePtr}
  {x : Inode}

/-! ## Descriptors -/

theorem slot?_eq_some (h : slot? fd = some i) : fd.toInt = i := by
  rw [slot?] at h
  split at h
  · next hfd =>
      cases h
      simp only
      omega
  · cases h

theorem slot?_eq_none (h : slot? fd = none) : ¬ (0 ≤ fd.toInt ∧ fd.toInt < fopenMax) := by
  rw [slot?] at h
  split at h
  · cases h
  · next hfd =>
      intro hbounds
      exact hfd ⟨by omega, hbounds.1⟩

@[simp] theorem slot?_ofNat (i : Fin fopenMax) : slot? (BitVec.ofNat 32 i) = some i := by
  revert i
  decide

@[simp] theorem slot?_neg_one : slot? (-1#32) = none := by decide

/-! ## Slots and inodes -/

namespace Kernel

@[simp] theorem setFile_activeCtx : (s.setFile i f).activeCtx = s.activeCtx := rfl

@[simp] theorem setFile_inodes : (s.setFile i f).inodes = s.inodes := rfl

@[simp] theorem setFile_freed : (s.setFile i f).freed = s.freed := rfl

@[simp] theorem file_setFile_self : (s.setFile i f).file i = f := by
  simp only [file, setFile, Function.update_self]

theorem file_setFile_of_ne (h : j ≠ i) : (s.setFile i f).file j = s.file j := by
  simp only [file, setFile, Function.update_self, Function.update_of_ne h]

@[simp] theorem setInode_files : (s.setInode inode x).files = s.files := rfl

@[simp] theorem setInode_activeCtx : (s.setInode inode x).activeCtx = s.activeCtx := rfl

@[simp] theorem file_setInode : (s.setInode inode x).file i = s.file i := rfl

@[simp] theorem freeSlot_setInode : (s.setInode inode x).freeSlot = s.freeSlot := rfl

theorem mode_freeSlot (h : s.freeSlot = some i) : (s.file i).mode = 0#8 := by
  simpa using List.find?_some h

/-! ## The calls -/

@[simp] theorem file_dropRef : (s.dropRef inode).file i = s.file i := by
  rw [dropRef]
  split <;> rfl

@[simp] theorem dropRef_files : (s.dropRef inode).files = s.files := by
  rw [dropRef]
  split <;> rfl

@[simp] theorem dropRef_activeCtx : (s.dropRef inode).activeCtx = s.activeCtx := by
  rw [dropRef]
  split <;> rfl

theorem dropRef_inodes_of_ne {other : InodePtr} (h : other ≠ inode) :
    (s.dropRef inode).inodes other = s.inodes other := by
  rw [dropRef]
  split <;> exact Function.update_of_ne h _ _

theorem dropRef_refs : ((s.dropRef inode).inodes inode).refs = (s.inodes inode).refs - 1#32 := by
  rw [dropRef]
  split <;> simp only [setInode, Function.update_self]

theorem dropRef_present : ((s.dropRef inode).inodes inode).present = true ↔
    (s.inodes inode).present = true ∧ (s.inodes inode).refs - 1#32 ≠ 0#32 := by
  rw [dropRef]
  split
  · next hzero => simp [setInode, hzero]
  · next hzero => simp [setInode, hzero]

theorem dropRef_freed_ne : (s.dropRef inode).freed ≠ s.freed ↔
    (s.inodes inode).refs - 1#32 = 0#32 := by
  rw [dropRef]
  split
  · next hzero => simp [hzero]
  · next hzero => simp [setInode, hzero]

theorem syscallClose_final (h : slot? fd = some i) : (s.syscallClose fd).final =
    some (0#32, (s.dropRef (s.file i).inode).setFile i ⟨0#32, 0#32, 0#8⟩) := by
  rw [syscallClose, Outcome.access, h]

/-- The three ends of `open`: no inode, no closed slot, or the first closed slot is taken. -/
theorem syscallOpen_cases {drivers : Drivers} {arg : BitVec 32}
    (h : s.syscallOpen drivers inode arg = some (fd, t)) :
    (inode = 0#32 ∧ fd = -1#32 ∧ t = s) ∨
    (inode ≠ 0#32 ∧ s.freeSlot = none ∧ fd = -1#32 ∧
      t = s.setInode inode { s.inodes inode with refs := (s.inodes inode).refs + 1#32 }) ∨
    (inode ≠ 0#32 ∧ ∃ i pos size, s.freeSlot = some i ∧ fd = BitVec.ofNat 32 i ∧
      t = (s.setInode inode
        { s.inodes inode with refs := (s.inodes inode).refs + 1#32, size }).setFile i
          ⟨inode, pos, arg.setWidth 8⟩) := by
  rw [syscallOpen] at h
  by_cases hinode : inode = 0#32
  · rw [if_pos hinode] at h
    cases h
    exact .inl ⟨hinode, rfl, rfl⟩
  · right
    rw [if_neg hinode] at h
    simp only [freeSlot_setInode] at h
    cases hslot : s.freeSlot with
    | none =>
        rw [hslot] at h
        cases h
        exact .inl ⟨hinode, rfl, rfl, rfl⟩
    | some i =>
        right
        refine ⟨hinode, i, ?_⟩
        simp only [hslot] at h
        by_cases htruncate : arg.setWidth 8 &&& modeTruncate ≠ 0#8
        · rw [if_pos htruncate] at h
          obtain ⟨u, hu, hret⟩ := Option.bind_eq_some_iff.mp h
          obtain ⟨size, -, rfl⟩ := Option.map_eq_some_iff.mp hu
          cases hret
          refine ⟨if arg.setWidth 8 &&& modeAppend ≠ 0#8 then (s.inodes inode).size else 0#32, size,
            rfl, rfl, ?_⟩
          simp only [setFile, setInode, Function.update_self, Function.update_idem]
        · rw [if_neg htruncate] at h
          cases h
          exact ⟨_, _, rfl, rfl, rfl⟩

end Kernel

end Muse.Syscall
