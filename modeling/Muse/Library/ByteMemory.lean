import Mathlib.Algebra.Group.Nat.Defs
import Mathlib.Data.Nat.Notation
import Mathlib.Logic.Function.Basic

/-!
# Byte memory with words at any address

A memory of bytes with 32-bit addresses, and words of four bytes, lowest byte first, that may start
at any address. A word that is written is read back, and a word that lies apart from it is left
alone.
-/

namespace Muse.Library

abbrev ByteMem : Type := BitVec 32 → BitVec 8

/-- The word at the address `a`. -/
def readWord (m : ByteMem) (a : BitVec 32) : BitVec 32 :=
  m (a + 3#32) ++ m (a + 2#32) ++ m (a + 1#32) ++ m a

/-- The memory with the word at `a` replaced. -/
def writeWord (m : ByteMem) (a x : BitVec 32) : ByteMem := fun b =>
  if b - a < 4#32 then x.extractLsb' (8 * (b - a).toNat) 8 else m b

/-- The bytes of the two words are different ones. -/
def WordsApart (a b : BitVec 32) : Prop :=
  (a.toNat + 4 ≤ b.toNat ∨ b.toNat + 4 ≤ a.toNat) ∧ a.toNat + 4 ≤ 2 ^ 32 ∧ b.toNat + 4 ≤ 2 ^ 32

/-- The address behind an offset. -/
theorem ofNat_succ (i : Nat) : BitVec.ofNat 32 i + 1#32 = BitVec.ofNat 32 (i + 1) := by
  rw [BitVec.ofNat_add]

theorem word_bytes (x : BitVec 32) : x.extractLsb' 24 8 ++ x.extractLsb' 16 8 ++
    x.extractLsb' 8 8 ++ x.extractLsb' 0 8 = x := by
  apply BitVec.eq_of_getLsbD_eq
  intro i hi
  simp only [BitVec.getLsbD_append, BitVec.getLsbD_extractLsb']
  rcases Nat.lt_or_ge i 8 with h | h
  · simp [h]
  · rcases Nat.lt_or_ge i 16 with h' | h'
    · simp [Nat.not_lt.mpr h, show i - 8 < 8 by omega, show 8 + (i - 8) = i by omega]
    · rcases Nat.lt_or_ge i 24 with h'' | h''
      · simp [Nat.not_lt.mpr h, show ¬ i - 8 < 8 by omega, show i - 8 - 8 < 8 by omega,
          show 16 + (i - 8 - 8) = i by omega]
      · simp [Nat.not_lt.mpr h, show ¬ i - 8 < 8 by omega, show ¬ i - 8 - 8 < 8 by omega,
          show i - 8 - 8 - 8 < 8 by omega, show 24 + (i - 8 - 8 - 8) = i by omega]

/-- The low byte of a word. -/
theorem mask_setWidth (v : BitVec 32) : (v &&& 0xFF#32).setWidth 8 = v.setWidth 8 := by
  apply BitVec.eq_of_toNat_eq
  rw [BitVec.toNat_setWidth, BitVec.toNat_and, BitVec.toNat_setWidth, BitVec.toNat_ofNat]
  show (v.toNat &&& (2 ^ 8 - 1)) % 2 ^ 8 = _
  rw [Nat.and_two_pow_sub_one_eq_mod, Nat.mod_mod]

@[simp] theorem readWord_writeWord_self (m : ByteMem) (a x : BitVec 32) :
    readWord (writeWord m a x) a = x := by
  have hsub : ∀ k : BitVec 32, a + k - a = k := fun k => by
    rw [BitVec.add_comm, BitVec.add_sub_cancel]
  have h0 : a - a = 0#32 := BitVec.sub_self a
  simp only [readWord, writeWord, hsub, h0]
  exact word_bytes x

theorem writeWord_of_apart (m : ByteMem) {a b : BitVec 32} (x : BitVec 32)
    (h : b.toNat < a.toNat ∨ a.toNat + 4 ≤ b.toNat) (ha : a.toNat + 4 ≤ 2 ^ 32) :
    writeWord m a x b = m b := by
  rw [writeWord, if_neg]
  rw [BitVec.lt_def, BitVec.toNat_sub, BitVec.toNat_ofNat]
  omega

/-- Memories that agree on the bytes of a word. -/
theorem readWord_congr {m m' : ByteMem} {a : BitVec 32}
    (h : ∀ k : BitVec 32, k < 4#32 → m' (a + k) = m (a + k)) : readWord m' a = readWord m a := by
  have h0 := h 0#32 (by decide)
  rw [BitVec.add_zero] at h0
  rw [readWord, readWord, h 3#32 (by decide), h 2#32 (by decide), h 1#32 (by decide), h0]

theorem readWord_writeWord_of_apart (m : ByteMem) {a b : BitVec 32} (x : BitVec 32)
    (h : WordsApart a b) : readWord (writeWord m a x) b = readWord m b := by
  obtain ⟨hab, ha, hb⟩ := h
  refine readWord_congr fun k hk => writeWord_of_apart m x ?_ ha
  simp only [BitVec.lt_def, BitVec.toNat_ofNat] at hk
  rw [BitVec.toNat_add]
  omega

/-- A word behind another one, also where the address space wraps. -/
theorem readWord_writeWord_of_sub (m : ByteMem) {a b : BitVec 32} (x : BitVec 32)
    (hlo : 4 ≤ (b - a).toNat) (hhi : (b - a).toNat + 4 ≤ 2 ^ 32) :
    readWord (writeWord m a x) b = readWord m b := by
  refine readWord_congr fun k hk => ?_
  rw [writeWord, if_neg]
  rw [BitVec.lt_def] at hk ⊢
  simp only [BitVec.toNat_sub, BitVec.toNat_add, BitVec.toNat_ofNat] at hlo hhi hk ⊢
  omega

/-- Two fields of one record, given by their offsets. -/
theorem readWord_writeWord_field (m : ByteMem) (c x : BitVec 32) {i j : BitVec 32}
    (hlo : 4 ≤ (j - i).toNat) (hhi : (j - i).toNat + 4 ≤ 2 ^ 32) :
    readWord (writeWord m (c + i) x) (c + j) = readWord m (c + j) := by
  have hsub : c + j - (c + i) = j - i := by bv_omega
  apply readWord_writeWord_of_sub
  · rw [hsub]
    exact hlo
  · rw [hsub]
    exact hhi

theorem readWord_update_of_apart (m : ByteMem) {a b : BitVec 32} (x : BitVec 8)
    (h : a.toNat < b.toNat ∨ b.toNat + 4 ≤ a.toNat) (hb : b.toNat + 4 ≤ 2 ^ 32) :
    readWord (Function.update m a x) b = readWord m b := by
  refine readWord_congr fun k hk => Function.update_of_ne ?_ _ _
  simp only [BitVec.lt_def, BitVec.toNat_ofNat] at hk
  rw [Ne, ← BitVec.toNat_inj, BitVec.toNat_add]
  omega

end Muse.Library
