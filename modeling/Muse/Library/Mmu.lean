import Mathlib.Logic.Function.Basic

/-!
# Two-level address translation

A physical memory of 4 KiB frames of 1024 words, and a directory frame that a register names.
Bits 31..22 of a virtual address index the directory, bits 21..12 the table that the
directory entry names, and bits 11..2 a word of the frame that the table entry names. Bit 0 of an
entry is its present bit and bits 31..12 are the frame it names. An access through an entry
that is not present faults.

A directory is self-mapped when its last entry names the directory itself. The top 4 MiB
then show the tables, and the top 4 KiB the directory.
-/

namespace Muse.Library

/-- Physical memory: word `k` of frame `f`. -/
abbrev PhysMem : Type := BitVec 20 → BitVec 10 → BitVec 32

/-- Memory with word `k` of frame `f` replaced. -/
def PhysMem.write (m : PhysMem) (f : BitVec 20) (k : BitVec 10) (x : BitVec 32) : PhysMem :=
  fun f' k' => if f' = f ∧ k' = k then x else m f' k'

@[simp] theorem PhysMem.write_self (m : PhysMem) (f : BitVec 20) (k : BitVec 10)
    (x : BitVec 32) : m.write f k x f k = x := by
  simp [PhysMem.write]

theorem PhysMem.write_of_ne (m : PhysMem) {f f' : BitVec 20} {k k' : BitVec 10} (x : BitVec 32)
    (h : f' = f → k' ≠ k) : m.write f k x f' k' = m f' k' := by
  simp only [PhysMem.write, ite_eq_right_iff]
  rintro ⟨hf, hk⟩
  exact absurd hk (h hf)

/-- The present bit of an entry. -/
def present (e : BitVec 32) : Bool := e.getLsbD 0

/-- The frame that an entry names. -/
def frame (e : BitVec 32) : BitVec 20 := e.extractLsb' 12 20

def dirIdx (v : BitVec 32) : BitVec 10 := v.extractLsb' 22 10

def tblIdx (v : BitVec 32) : BitVec 10 := v.extractLsb' 12 10

def wordIdx (v : BitVec 32) : BitVec 10 := v.extractLsb' 2 10

/-- The page of an address. -/
def pageOf (v : BitVec 32) : BitVec 20 := v.extractLsb' 12 20

theorem dirIdx_toNat (v : BitVec 32) : (dirIdx v).toNat = v.toNat / 4194304 := by
  simp only [dirIdx, BitVec.extractLsb'_toNat, Nat.shiftRight_eq_div_pow]
  omega

theorem tblIdx_toNat (v : BitVec 32) : (tblIdx v).toNat = v.toNat / 4096 % 1024 := by
  simp only [tblIdx, BitVec.extractLsb'_toNat, Nat.shiftRight_eq_div_pow]

theorem wordIdx_toNat (v : BitVec 32) : (wordIdx v).toNat = v.toNat / 4 % 1024 := by
  simp only [wordIdx, BitVec.extractLsb'_toNat, Nat.shiftRight_eq_div_pow]

theorem pageOf_toNat (v : BitVec 32) : (pageOf v).toNat = v.toNat / 4096 := by
  simp only [pageOf, BitVec.extractLsb'_toNat, Nat.shiftRight_eq_div_pow]
  omega

/-- A page is given by its two indices. -/
theorem pageOf_eq_iff {v w : BitVec 32} :
    pageOf v = pageOf w ↔ dirIdx v = dirIdx w ∧ tblIdx v = tblIdx w := by
  simp only [← BitVec.toNat_inj, pageOf_toNat, dirIdx_toNat, tblIdx_toNat]
  omega

/-- An address space. -/
structure Space where
  mem : PhysMem
  cr3 : BitVec 20

namespace Space

/-- The directory entry of an address. -/
def pde (s : Space) (v : BitVec 32) : BitVec 32 := s.mem s.cr3 (dirIdx v)

/-- The table entry of an address, if the directory entry is present. -/
def pte (s : Space) (v : BitVec 32) : BitVec 32 := s.mem (frame (s.pde v)) (tblIdx v)

/-- The frame that the page of `v` is mapped to. -/
def frameOf (s : Space) (v : BitVec 32) : Option (BitVec 20) :=
  if present (s.pde v) && present (s.pte v) then some (frame (s.pte v)) else none

/-- Reads a word. -/
def load (s : Space) (v : BitVec 32) : Option (BitVec 32) :=
  (s.frameOf v).map fun f => s.mem f (wordIdx v)

/-- Writes a word. -/
def store (s : Space) (v x : BitVec 32) : Option Space :=
  (s.frameOf v).map fun f => { s with mem := s.mem.write f (wordIdx v) x }

/-- Writes a byte. -/
def storeByte (s : Space) (v : BitVec 32) (b : BitVec 8) : Option Space :=
  (s.frameOf v).map fun f =>
    let shift := 8 * (v.toNat % 4)
    let rest := s.mem f (wordIdx v) &&& ~~~(0xFF#32 <<< shift)
    { s with mem := s.mem.write f (wordIdx v) (rest ||| (b.setWidth 32 <<< shift)) }

theorem frameOf_eq_some {s : Space} {v : BitVec 32} {f : BitVec 20} :
    s.frameOf v = some f ↔ present (s.pde v) = true ∧ present (s.pte v) = true ∧
      frame (s.pte v) = f := by
  unfold frameOf
  split <;> simp_all

theorem frameOf_eq_none {s : Space} {v : BitVec 32} :
    s.frameOf v = none ↔ (present (s.pde v) = true → present (s.pte v) = false) := by
  unfold frameOf
  split <;> simp_all

theorem frameOf_congr {s : Space} {v w : BitVec 32} (h : pageOf v = pageOf w) :
    s.frameOf v = s.frameOf w := by
  obtain ⟨hd, ht⟩ := pageOf_eq_iff.mp h
  rw [frameOf, frameOf, pte, pte, pde, pde, hd, ht]

theorem load_eq {s : Space} {v : BitVec 32} {f : BitVec 20} (h : s.frameOf v = some f) :
    s.load v = some (s.mem f (wordIdx v)) := by
  simp [load, h]

theorem store_eq {s : Space} {v : BitVec 32} {f : BitVec 20} (h : s.frameOf v = some f)
    (x : BitVec 32) : s.store v x = some { s with mem := s.mem.write f (wordIdx v) x } := by
  simp [store, h]

/-! ## Self-mapped directories -/

/-- The last directory entry names the directory. -/
structure SelfMapped (s : Space) : Prop where
  present : present (s.mem s.cr3 1023#10) = true
  frame : frame (s.mem s.cr3 1023#10) = s.cr3

/-- The word of the directory entry `i` is the table entry of the pages in the window. -/
theorem SelfMapped.pte_window {s : Space} (h : s.SelfMapped) {v : BitVec 32}
    (hv : dirIdx v = 1023#10) : s.pte v = s.mem s.cr3 (tblIdx v) := by
  rw [pte, pde, hv, h.frame]

/-- A page of the window shows the table that the directory entry names. -/
theorem SelfMapped.frameOf_window {s : Space} (h : s.SelfMapped) {v : BitVec 32}
    (hv : dirIdx v = 1023#10) :
    s.frameOf v = if Library.present (s.mem s.cr3 (tblIdx v)) then
      some (Library.frame (s.mem s.cr3 (tblIdx v))) else none := by
  rw [frameOf, h.pte_window hv, pde, hv, h.present, Bool.true_and]

/-- The top page shows the directory. -/
theorem SelfMapped.frameOf_top {s : Space} (h : s.SelfMapped) {v : BitVec 32}
    (hd : dirIdx v = 1023#10) (ht : tblIdx v = 1023#10) : s.frameOf v = some s.cr3 := by
  rw [h.frameOf_window hd, ht, h.present, h.frame]
  rfl

end Space

end Muse.Library
