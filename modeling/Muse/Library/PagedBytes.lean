import Muse.Library.Bytes
import Muse.Library.Mmu

/-!
# Bytes behind address translation

The physical memory of `Muse.Library.Mmu` taken as bytes. An address space shows a byte of it at a
virtual address, and words of four bytes may start at any address, so that they can lie across
two pages.
-/

namespace Muse.Library

/-- Replacing a byte of a word. -/
theorem byte_replace (x : BitVec 32) (b : BitVec 8) {k j : Nat} (hk : k < 4) (hj : j < 4) :
    ((x &&& ~~~(0xFF#32 <<< (8 * k))) ||| (b.setWidth 32 <<< (8 * k))).extractLsb' (8 * j) 8 =
      if j = k then b else x.extractLsb' (8 * j) 8 := by
  have hff : ∀ m, (0xFF#32).getLsbD m = decide (m < 8) := by
    intro m
    rw [show 0xFF#32 = (BitVec.allOnes 8).setWidth 32 from rfl, BitVec.getLsbD_setWidth,
      BitVec.getLsbD_allOnes]
    by_cases h : m < 8
    · simp [h]
      omega
    · simp [h]
  ext i hi
  have hbound : 8 * j + i < 32 := by omega
  by_cases he : j = k
  · subst he
    have hge : ¬ 8 * j + i < 8 * j := by omega
    have hsub : 8 * j + i - 8 * j = i := by omega
    simp only [BitVec.getElem_extractLsb', BitVec.getLsbD_or, BitVec.getLsbD_and,
      BitVec.getLsbD_not, BitVec.getLsbD_shiftLeft, hff, BitVec.getLsbD_setWidth, if_true]
    simp [hbound, hsub, hi, hge, show i < 32 by omega]
  · simp only [if_neg he, BitVec.getElem_extractLsb', BitVec.getLsbD_or, BitVec.getLsbD_and,
      BitVec.getLsbD_not, BitVec.getLsbD_shiftLeft, hff, BitVec.getLsbD_setWidth]
    by_cases hlt : 8 * j + i < 8 * k
    · simp [hbound, hlt]
    · have h8 : ¬ 8 * j + i - 8 * k < 8 := by omega
      have hb : b.getLsbD (8 * j + i - 8 * k) = false := BitVec.getLsbD_of_ge _ _ (by omega)
      simp [hbound, hlt, h8, hb]

/-- A byte of physical memory: the frame and the offset in it. -/
abbrev Place : Type := BitVec 20 × BitVec 12

/-- The word that a place lies in. -/
def Place.word (p : Place) : BitVec 10 := p.2.extractLsb' 2 10

theorem Place.word_toNat (p : Place) : p.word.toNat = p.2.toNat / 4 := by
  have hp := p.2.isLt
  simp only [Place.word, BitVec.extractLsb'_toNat, Nat.shiftRight_eq_div_pow]
  omega

namespace PhysMem

variable (m : PhysMem)

def byte (p : Place) : BitVec 8 := (m p.1 p.word).extractLsb' (8 * (p.2.toNat % 4)) 8

/-- Memory with the byte at a place replaced. -/
def setByte (p : Place) (b : BitVec 8) : PhysMem :=
  m.write p.1 p.word ((m p.1 p.word &&& ~~~(0xFF#32 <<< (8 * (p.2.toNat % 4)))) |||
    (b.setWidth 32 <<< (8 * (p.2.toNat % 4))))

theorem byte_setByte (p q : Place) (b : BitVec 8) :
    (m.setByte p b).byte q = if q = p then b else m.byte q := by
  unfold byte setByte
  by_cases hw : q.1 = p.1 ∧ q.word = p.word
  · rw [hw.1, hw.2, write_self, byte_replace _ _ (by omega) (by omega)]
    have hiff : q.2.toNat % 4 = p.2.toNat % 4 ↔ q = p := by
      have h := congrArg BitVec.toNat hw.2
      rw [Place.word_toNat, Place.word_toNat] at h
      rw [Prod.ext_iff, ← BitVec.toNat_inj (x := q.2)]
      constructor
      · intro he
        exact ⟨hw.1, by omega⟩
      · intro he
        rw [he.2]
    simp only [hiff]
  · rw [write_of_ne _ _ fun hf hk => hw ⟨hf, hk⟩, if_neg]
    rintro rfl
    exact hw ⟨rfl, rfl⟩

/-- Other frames keep their words. -/
theorem setByte_of_ne {p : Place} {f : BitVec 20} (b : BitVec 8) (h : f ≠ p.1) (k : BitVec 10) :
    m.setByte p b f k = m f k :=
  write_of_ne _ _ fun hf => absurd hf h

end PhysMem

/-- An address is given by its page and the offset in it. -/
theorem eq_of_page_offset {v w : BitVec 32} (hp : pageOf v = pageOf w)
    (ho : v.extractLsb' 0 12 = w.extractLsb' 0 12) : v = w := by
  have hp := congrArg BitVec.toNat hp
  have ho := congrArg BitVec.toNat ho
  simp only [pageOf_toNat, BitVec.extractLsb'_toNat, Nat.shiftRight_zero] at hp ho
  apply BitVec.eq_of_toNat_eq
  omega

/-- An address behind `v` on the same page. -/
theorem pageOf_add {v k : BitVec 32} (h : v.toNat % 4096 + k.toNat < 4096) :
    pageOf (v + k) = pageOf v := by
  have hv := v.isLt
  apply BitVec.eq_of_toNat_eq
  rw [pageOf_toNat, pageOf_toNat, BitVec.toNat_add]
  omega

/-- The indices of the addresses of a page. -/
theorem indices_of_page {v : BitVec 32} {p : BitVec 20} (hp : pageOf v = p) :
    dirIdx v = p.extractLsb' 10 10 ∧ tblIdx v = p.extractLsb' 0 10 := by
  subst hp
  constructor
  · apply BitVec.eq_of_toNat_eq
    rw [dirIdx_toNat, BitVec.extractLsb'_toNat, pageOf_toNat, Nat.shiftRight_eq_div_pow]
    have hv := v.isLt
    omega
  · apply BitVec.eq_of_toNat_eq
    rw [tblIdx_toNat, BitVec.extractLsb'_toNat, pageOf_toNat, Nat.shiftRight_zero]

namespace Space

/-- The place that an address shows. -/
def place (s : Space) (v : BitVec 32) : Option Place :=
  (s.frameOf v).map fun f => (f, v.extractLsb' 0 12)

def loadByte (s : Space) (v : BitVec 32) : Option (BitVec 8) := (s.place v).map s.mem.byte

/-- Reads a word at any address. -/
def load32 (s : Space) (v : BitVec 32) : Option (BitVec 32) := do
  let b₀ ← s.loadByte v
  let b₁ ← s.loadByte (v + 1#32)
  let b₂ ← s.loadByte (v + 2#32)
  let b₃ ← s.loadByte (v + 3#32)
  some (b₃ ++ b₂ ++ b₁ ++ b₀)

/-- Writes a word at any address. -/
def store32 (s : Space) (v x : BitVec 32) : Option Space := do
  let s ← s.storeByte v (x.extractLsb' 0 8)
  let s ← s.storeByte (v + 1#32) (x.extractLsb' 8 8)
  let s ← s.storeByte (v + 2#32) (x.extractLsb' 16 8)
  s.storeByte (v + 3#32) (x.extractLsb' 24 8)

variable {s : Space} {v : BitVec 32} {p : Place}

theorem place_eq_some : s.place v = some p ↔ s.frameOf v = some p.1 ∧ v.extractLsb' 0 12 = p.2 := by
  rw [place, Option.map_eq_some_iff]
  constructor
  · rintro ⟨f, hf, rfl⟩
    exact ⟨hf, rfl⟩
  · rintro ⟨hf, ho⟩
    exact ⟨p.1, hf, by rw [ho]⟩

theorem loadByte_eq (h : s.place v = some p) : s.loadByte v = some (s.mem.byte p) := by
  rw [loadByte, h, Option.map_some]

theorem storeByte_eq (h : s.place v = some p) (b : BitVec 8) :
    s.storeByte v b = some { s with mem := s.mem.setByte p b } := by
  obtain ⟨hf, ho⟩ := place_eq_some.mp h
  have hmod : v.toNat % 4 = p.2.toNat % 4 := by
    rw [← ho, BitVec.extractLsb'_toNat, Nat.shiftRight_zero]
    omega
  have hword : wordIdx v = p.word := by
    apply BitVec.eq_of_toNat_eq
    rw [wordIdx_toNat, Place.word_toNat, ← ho, BitVec.extractLsb'_toNat, Nat.shiftRight_zero]
    omega
  simp only [storeByte, hf, Option.map_some, hmod, hword]
  rfl

/-- A word that lies on one page. -/
theorem load32_of_frame {f : BitVec 20} (h : s.frameOf v = some f)
    (hpage : v.toNat % 4096 + 4 ≤ 4096) : s.load32 v =
      some (Bytes.word32 (fun o => s.mem.byte (f, BitVec.ofNat 12 o)) (v.toNat % 4096)) := by
  have hbyte : ∀ k : BitVec 32, k.toNat < 4 → s.loadByte (v + k) =
      some (s.mem.byte (f, BitVec.ofNat 12 (v.toNat % 4096 + k.toNat))) := by
    intro k hk
    apply loadByte_eq
    rw [place_eq_some, frameOf_congr (pageOf_add (by omega)), h]
    refine ⟨rfl, ?_⟩
    apply BitVec.eq_of_toNat_eq
    rw [BitVec.extractLsb'_toNat, Nat.shiftRight_zero, BitVec.toNat_add, BitVec.toNat_ofNat]
    omega
  have h0 := hbyte 0#32 (by decide)
  rw [BitVec.add_zero] at h0
  simp only [load32, h0, hbyte 1#32 (by decide), hbyte 2#32 (by decide), hbyte 3#32 (by decide),
    Option.bind_eq_bind, Option.bind_some]
  rfl

end Space

end Muse.Library
