import Mathlib.Data.Set.Basic
import Muse.Library.PagedBytes

/-!
# Address spaces that share a part

Several address spaces over one physical memory, one for each page directory. A `Layout` says at
which place an address space shows each of its addresses: the shared addresses show the same
place in all of them, and no other place is shown twice. `Fits` says that the tables of
a memory agree with the layout, and that no address of it shows a table that translates another one.

`SharedMem` is what such a memory is for: a flat memory of bytes for every address space, in which a
write to a shared address is seen by all. `Shows.load32` and `Shows.store32` refine it.
-/

namespace Muse.Library

/-- The four bytes of the word at `v` are in `A`. -/
def WordIn (A : Set (BitVec 32)) (v : BitVec 32) : Prop := ∀ k : BitVec 32, k < 4#32 → v + k ∈ A

theorem WordIn.bytes {A : Set (BitVec 32)} {v : BitVec 32} (h : WordIn A v) :
    v ∈ A ∧ v + 1#32 ∈ A ∧ v + 2#32 ∈ A ∧ v + 3#32 ∈ A := by
  refine ⟨?_, h 1#32 (by decide), h 2#32 (by decide), h 3#32 (by decide)⟩
  simpa using h 0#32 (by decide)

theorem WordIn.mono {A B : Set (BitVec 32)} {v : BitVec 32} (h : WordIn A v) (hAB : A ⊆ B) :
    WordIn B v :=
  fun k hk => hAB (h k hk)

/-- A byte of the word at `v`. -/
theorem writeWord_of_notIn {m : ByteMem} {A : Set (BitVec 32)} {v w x : BitVec 32}
    (h : WordIn A v) (hw : w ∉ A) : writeWord m v x w = m w := by
  rw [writeWord, if_neg]
  intro hlt
  have hmem := h (w - v) hlt
  rw [BitVec.add_comm, BitVec.sub_add_cancel] at hmem
  exact hw hmem

/-- A word apart from the word at `v`. -/
theorem readWord_writeWord_of_notIn {m : ByteMem} {A : Set (BitVec 32)} {v w x : BitVec 32}
    (h : WordIn A v) (hw : ∀ k : BitVec 32, k < 4#32 → w + k ∉ A) :
    readWord (writeWord m v x) w = readWord m w :=
  readWord_congr fun k hk => writeWord_of_notIn h (hw k hk)

/-- The flat memories of the address spaces. -/
abbrev SharedMem : Type := BitVec 20 → ByteMem

open Classical in
/-- A write of the space `d`. -/
noncomputable def SharedMem.write (shared : Set (BitVec 32)) (m : SharedMem) (d : BitVec 20)
    (v x : BitVec 32) : SharedMem :=
  fun e w => if e = d ∨ w ∈ shared then writeWord (m e) v x w else m e w

namespace SharedMem

variable {shared : Set (BitVec 32)} (m : SharedMem) {d e : BitVec 20} {v : BitVec 32}

@[simp] theorem write_self (x : BitVec 32) :
    m.write shared d v x d = writeWord (m d) v x := by
  funext w
  simp [write]

/-- A write to a shared word is a write of every space. -/
theorem write_shared (h : WordIn shared v) (x : BitVec 32) :
    m.write shared d v x e = writeWord (m e) v x := by
  funext w
  by_cases hw : w ∈ shared
  · simp [write, hw]
  · simp [write, hw, writeWord_of_notIn h hw]

/-- No other space sees a write to a private word. -/
theorem write_private (h : ∀ k : BitVec 32, k < 4#32 → v + k ∉ shared) (he : e ≠ d)
    (x : BitVec 32) : m.write shared d v x e = m e := by
  funext w
  by_cases hw : w ∈ shared
  · have hout : writeWord (m e) v x w = m e w :=
      writeWord_of_notIn (A := fun w => w ∉ shared) h (not_not.mpr hw)
    simp [write, he, hw, hout]
  · simp [write, he, hw]

end SharedMem

/-- Which addresses every address space has, and the place of each. -/
structure Layout where
  dirs : Set (BitVec 20)
  addrs : BitVec 20 → Set (BitVec 32)
  place : BitVec 20 → BitVec 32 → Place
  shared : Set (BitVec 32)
  shared_subset : ∀ d ∈ dirs, shared ⊆ addrs d
  common : ∀ d ∈ dirs, ∀ e ∈ dirs, ∀ v ∈ shared, place d v = place e v
  apart : ∀ d ∈ dirs, ∀ e ∈ dirs, ∀ v ∈ addrs d, ∀ w ∈ addrs e, place d v = place e w →
    v = w ∧ (d = e ∨ v ∈ shared)

namespace Layout

/-- The tables of `m` lead to the places of the layout and lie at none of them. -/
structure Fits (L : Layout) (m : PhysMem) : Prop where
  shows : ∀ d ∈ L.dirs, ∀ v ∈ L.addrs d, Space.place ⟨m, d⟩ v = some (L.place d v)
  noTable : ∀ d ∈ L.dirs, ∀ e ∈ L.dirs, ∀ v ∈ L.addrs d, ∀ w ∈ L.addrs e,
    e ≠ (L.place d v).1 ∧ frame (m e (dirIdx w)) ≠ (L.place d v).1

/-- What the space `d` sees. -/
def view (L : Layout) (m : PhysMem) : SharedMem := fun d v => m.byte (L.place d v)

/-- The memory fits the layout, and the spaces see the flat memories. -/
structure Shows (L : Layout) (m : PhysMem) (flat : SharedMem) : Prop where
  fits : L.Fits m
  byte : ∀ d ∈ L.dirs, ∀ v ∈ L.addrs d, L.view m d v = flat d v

theorem Fits.shows_view {L : Layout} {m : PhysMem} (h : L.Fits m) : L.Shows m (L.view m) :=
  ⟨h, fun _ _ _ _ => rfl⟩

variable {L : Layout} {m : PhysMem} {flat : SharedMem} {d : BitVec 20} {v : BitVec 32}

theorem Shows.readWord_view (h : L.Shows m flat) (hd : d ∈ L.dirs) (hv : WordIn (L.addrs d) v) :
    readWord (L.view m d) v = readWord (flat d) v :=
  readWord_congr fun k hk => h.byte d hd _ (hv k hk)

/-- A store at a place of the layout changes no translation. -/
theorem Fits.setByte (h : L.Fits m) (hd : d ∈ L.dirs) (hv : v ∈ L.addrs d) (b : BitVec 8) :
    L.Fits (m.setByte (L.place d v) b) := by
  have hdir : ∀ e ∈ L.dirs, ∀ w ∈ L.addrs e,
      m.setByte (L.place d v) b e (dirIdx w) = m e (dirIdx w) := by
    intro e he w hw
    exact m.setByte_of_ne b (h.noTable d hd e he v hv w hw).1 _
  refine ⟨fun e he w hw => ?_, fun c hc e he u hu w hw => ?_⟩
  · have hpde : Space.pde ⟨m.setByte (L.place d v) b, e⟩ w = Space.pde ⟨m, e⟩ w := hdir e he w hw
    have hpte : Space.pte ⟨m.setByte (L.place d v) b, e⟩ w = Space.pte ⟨m, e⟩ w := by
      rw [Space.pte, Space.pte, hpde]
      exact m.setByte_of_ne b (h.noTable d hd e he v hv w hw).2 _
    rw [← h.shows e he w hw, Space.place, Space.place, Space.frameOf, Space.frameOf, hpde, hpte]
  · rw [hdir e he w hw]
    exact h.noTable c hc e he u hu w hw

/-- What the spaces see of a store. -/
theorem view_setByte (hd : d ∈ L.dirs) (hv : v ∈ L.addrs d) (b : BitVec 8) {e : BitVec 20}
    (he : e ∈ L.dirs) {w : BitVec 32} (hw : w ∈ L.addrs e) :
    (w = v ∧ (e = d ∨ w ∈ L.shared) → L.view (m.setByte (L.place d v) b) e w = b) ∧
      (¬ (w = v ∧ (e = d ∨ w ∈ L.shared)) →
        L.view (m.setByte (L.place d v) b) e w = L.view m e w) := by
  have hiff : L.place e w = L.place d v ↔ w = v ∧ (e = d ∨ w ∈ L.shared) := by
    constructor
    · exact L.apart e he d hd w hw v hv
    · rintro ⟨rfl, rfl | hs⟩
      · rfl
      · exact L.common e he d hd w hs
  rw [view, PhysMem.byte_setByte]
  exact ⟨fun h => if_pos (hiff.mpr h), fun h => if_neg (mt hiff.mp h)⟩

namespace Shows

variable (h : L.Shows m flat) (hd : d ∈ L.dirs)

include h hd

theorem loadByte (hv : v ∈ L.addrs d) : Space.loadByte ⟨m, d⟩ v = some (flat d v) := by
  rw [Space.loadByte_eq (h.fits.shows d hd v hv), ← h.byte d hd v hv]
  rfl

theorem load32 (hv : WordIn (L.addrs d) v) :
    Space.load32 ⟨m, d⟩ v = some (readWord (flat d) v) := by
  obtain ⟨h0, h1, h2, h3⟩ := hv.bytes
  simp only [Space.load32, h.loadByte hd h0, h.loadByte hd h1, h.loadByte hd h2, h.loadByte hd h3,
    Option.bind_eq_bind, Option.bind_some]
  rfl

theorem store32 (hv : WordIn (L.addrs d) v) (x : BitVec 32) :
    ∃ m', Space.store32 ⟨m, d⟩ v x = some ⟨m', d⟩ ∧ L.Shows m' (flat.write L.shared d v x) := by
  obtain ⟨h0, h1, h2, h3⟩ := hv.bytes
  have hf₁ := h.fits.setByte hd h0 (x.extractLsb' 0 8)
  have hf₂ := hf₁.setByte hd h1 (x.extractLsb' 8 8)
  have hf₃ := hf₂.setByte hd h2 (x.extractLsb' 16 8)
  refine ⟨_, ?_, hf₃.setByte hd h3 (x.extractLsb' 24 8), fun e he w hw => ?_⟩
  · simp only [Space.store32, Space.storeByte_eq (h.fits.shows d hd _ h0),
      Space.storeByte_eq (hf₁.shows d hd _ h1), Space.storeByte_eq (hf₂.shows d hd _ h2),
      Space.storeByte_eq (hf₃.shows d hd _ h3), Option.bind_eq_bind, Option.bind_some]
  · -- the last of the four stores that meets `w` counts
    have hview := fun (m' : PhysMem) (u : BitVec 32) (hu : u ∈ L.addrs d) (b : BitVec 8) =>
      view_setByte (m := m') hd hu b he hw
    by_cases hs : e = d ∨ w ∈ L.shared
    · have hsplit : w = v ∨ w = v + 1#32 ∨ w = v + 2#32 ∨ w = v + 3#32 ∨ ¬ w - v < 4#32 := by
        bv_omega
      have hval : flat.write L.shared d v x e w = writeWord (flat e) v x w := by
        rw [SharedMem.write, if_pos hs]
      rw [hval, writeWord]
      rcases hsplit with rfl | rfl | rfl | rfl | hout
      · have hsub : w - w = 0#32 := BitVec.sub_self w
        rw [hsub, (hview _ _ h3 _).2 (by bv_omega), (hview _ _ h2 _).2 (by bv_omega),
          (hview _ _ h1 _).2 (by bv_omega), (hview _ _ h0 _).1 ⟨rfl, hs⟩]
        rfl
      · have hsub : v + 1#32 - v = 1#32 := by bv_omega
        rw [hsub, (hview _ _ h3 _).2 (by bv_omega), (hview _ _ h2 _).2 (by bv_omega),
          (hview _ _ h1 _).1 ⟨rfl, hs⟩]
        rfl
      · have hsub : v + 2#32 - v = 2#32 := by bv_omega
        rw [hsub, (hview _ _ h3 _).2 (by bv_omega), (hview _ _ h2 _).1 ⟨rfl, hs⟩]
        rfl
      · have hsub : v + 3#32 - v = 3#32 := by bv_omega
        rw [hsub, (hview _ _ h3 _).1 ⟨rfl, hs⟩]
        rfl
      · rw [if_neg hout, (hview _ _ h3 _).2 (by bv_omega), (hview _ _ h2 _).2 (by bv_omega),
          (hview _ _ h1 _).2 (by bv_omega), (hview _ _ h0 _).2 (by bv_omega), h.byte e he w hw]
    · rw [SharedMem.write, if_neg hs, (hview _ _ h3 _).2 (fun hc => hs hc.2),
        (hview _ _ h2 _).2 (fun hc => hs hc.2), (hview _ _ h1 _).2 (fun hc => hs hc.2),
        (hview _ _ h0 _).2 (fun hc => hs hc.2), h.byte e he w hw]

end Shows

end Layout

end Muse.Library
