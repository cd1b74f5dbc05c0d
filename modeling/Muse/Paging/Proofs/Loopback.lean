import Muse.Paging.PhysObj
import Muse.Paging.Proofs.Window

/-!
# Where the window is

The walk of an address in the window ends in the directory or in a page table: word `j` of
`LOOPBACK_DIR` is word `j` of the directory, and word `j` of `LOOPBACK_TBL(i)` is word `j` of the
table that directory entry `i` names.
-/

namespace Muse.Paging

open Muse.Library

variable {s : Space} {i j : BitVec 32}

theorem elem_pageAddr_toNat (f : BitVec 20) (hj : j.toNat < 1024) :
    (elem (pageAddr f) j).toNat = 4096 * f.toNat + 4 * j.toNat := by
  have hf := f.isLt
  simp only [elem, BitVec.toNat_add, BitVec.toNat_mul, pageAddr_toNat, BitVec.toNat_ofNat]
  omega

theorem elem_loopbackDir (hj : j.toNat < 1024) :
    (elem loopbackDir j).toNat = 0xFFFFF000 + 4 * j.toNat := by
  simp only [elem, loopbackDir, BitVec.toNat_add, BitVec.toNat_mul, BitVec.toNat_ofNat]
  omega

theorem elem_loopbackTbl (hi : i.toNat < 1024) (hj : j.toNat < 1024) :
    (elem (loopbackTbl i) j).toNat = 0xFFC00000 + 4096 * i.toNat + 4 * j.toNat := by
  simp only [elem, loopbackTbl, BitVec.toNat_add, BitVec.toNat_mul, BitVec.toNat_ofNat,
    BitVec.toNat_shiftLeft, Nat.shiftLeft_eq]
  omega

/-- Word `j` of a page that is mapped to the frame `f`. -/
theorem translate_word {v : BitVec 32} {f : BitVec 20} (hf : s.frameOf v = some f)
    (hj : j.toNat < 1024) (hv : v.toNat % 4096 = 4 * j.toNat) :
    translate s v = some (elem (pageAddr f) j) := by
  have hf20 := f.isLt
  have hword : pageAddr f + v % pageSize = elem (pageAddr f) j := by
    apply BitVec.eq_of_toNat_eq
    rw [elem_pageAddr_toNat f hj, BitVec.toNat_add, BitVec.toNat_umod, pageAddr_toNat]
    show (4096 * f.toNat + v.toNat % 4096) % 2 ^ 32 = _
    omega
  rw [translate, hf, Option.map_some, hword]

/-- `LOOPBACK_DIR` shows the directory. -/
theorem translate_loopbackDir (h : s.SelfMapped) (hj : j.toNat < 1024) :
    translate s (elem loopbackDir j) = some (elem (pageAddr s.cr3) j) := by
  have hv := elem_loopbackDir hj
  apply translate_word _ hj
  · omega
  · apply h.frameOf_top
    · rw [← BitVec.toNat_inj, dirIdx_toNat, hv, BitVec.toNat_ofNat]
      omega
    · rw [← BitVec.toNat_inj, tblIdx_toNat, hv, BitVec.toNat_ofNat]
      omega

/-- `LOOPBACK_TBL(i)` shows the table of directory entry `i`. -/
theorem translate_loopbackTbl (h : s.SelfMapped) (hi : i.toNat < 1024) (hj : j.toNat < 1024)
    (hp : present (s.mem s.cr3 (i.setWidth 10)) = true) :
    translate s (elem (loopbackTbl i) j) =
      some (elem (s.mem s.cr3 (i.setWidth 10) &&& addrMask) j) := by
  have hv := elem_loopbackTbl hi hj
  have hdir : dirIdx (elem (loopbackTbl i) j) = 1023#10 := by
    rw [← BitVec.toNat_inj, dirIdx_toNat, hv, BitVec.toNat_ofNat]
    omega
  have htbl : tblIdx (elem (loopbackTbl i) j) = i.setWidth 10 := by
    rw [← BitVec.toNat_inj, tblIdx_toNat, hv, BitVec.toNat_setWidth]
    omega
  rw [and_addrMask]
  apply translate_word _ hj
  · omega
  · rw [h.frameOf_window hdir, htbl, if_pos hp]

/-- While the last directory entry names the directory, the window shows the directory and all its
    tables, and `get_page_entry` reads the entry that the walk of its argument uses. -/
theorem loopback_window (s : Vm) (h : s.space.SelfMapped) :
    (∀ j : BitVec 32, j.toNat < 1024 →
      translate s.space (elem loopbackDir j) = some (elem (pageAddr s.space.cr3) j)) ∧
    (∀ i j : BitVec 32, i.toNat < 1024 → j.toNat < 1024 →
      isPresent (s.space.mem s.space.cr3 (i.setWidth 10)) = true →
      translate s.space (elem (loopbackTbl i) j) =
        some (elem (s.space.mem s.space.cr3 (i.setWidth 10) &&& addrMask) j)) ∧
    ∀ v : BitVec 32, isPresent (s.space.pde v) = true →
      s.getPageEntry v = some (s.space.pte v) := by
  refine ⟨fun j hj => translate_loopbackDir h hj, fun i j hi hj hp => ?_, fun v hp => ?_⟩
  · rw [isPresent_eq] at hp
    exact translate_loopbackTbl h hi hj hp
  · rw [isPresent_eq] at hp
    rw [Vm.getPageEntry_eq h, if_pos hp]

/-- A directory of which only the last entry is set. -/
def emptyDirectory : Vm where
  space := ⟨fun f k => if f = 5#20 ∧ k = 1023#10 then 0x5003#32 else 0#32, 5#20⟩
  freePages := []
  pageHeap := ⟨fun _ => 0#32, 0, 0#32⟩

theorem loopback_window_empty :
    translate emptyDirectory.space (elem loopbackDir 1023#32) = some 0x5FFC#32 ∧
    translate emptyDirectory.space (elem (loopbackTbl 1023#32) 7#32) = some 0x501C#32 ∧
    emptyDirectory.getPageEntry 0xFFFFFFFF#32 = some 0x5003#32 := by
  obtain ⟨hdir, htbl, hentry⟩ := loopback_window emptyDirectory ⟨rfl, rfl⟩
  exact ⟨hdir 1023#32 (by decide), htbl 1023#32 7#32 (by decide) (by decide) (by decide),
    hentry 0xFFFFFFFF#32 (by decide)⟩

end Muse.Paging
