import Mathlib.Data.List.Pairwise
import Muse.Memory.MemoryMap

/-!
# The region table describes the memory map

The loop records the narrowed range of every available entry, so it is enough to compare these
ranges with the entries. An entry below 4 GiB is narrowed to a part of itself. The range of an entry
above is not backed by the entry, and another entry backs it only with pages that it does not record
itself.
-/

namespace Muse.Memory

namespace MmapEntry

/-- What the loop writes to a region. -/
def extent (e : MmapEntry) : Nat × Nat := (e.regionAddr, e.regionPgCnt)

/-- The end of the narrowed range. -/
def regionEnd (e : MmapEntry) : Nat := e.regionAddr + e.regionPgCnt * pageSize

/-- The narrowed range of `e` lies in the part of `g` behind the pages that are recorded for `g`. -/
def Covers (g e : MmapEntry) : Prop :=
  g.addr.toNat + g.regionPgCnt * pageSize ≤ e.regionAddr ∧
    e.regionEnd ≤ g.addr.toNat + g.len.toNat

end MmapEntry

/-- The entry does not start below 4 GiB. -/
def MmapEntry.High (e : MmapEntry) : Prop := 2 ^ 32 ≤ e.addr.toNat

/-- The memory maps that the region table can describe. -/
structure Narrow (entries : List MmapEntry) : Prop where
  count : (available entries).length ≤ mmapCnt
  aligned : ∀ e ∈ available entries, 0 < e.regionPgCnt →
    pageSize ∣ e.regionAddr ∧ e.regionEnd ≤ 2 ^ 32
  high : ∀ e ∈ available entries, 0 < e.regionPgCnt → e.High → ∃ g ∈ available entries, g.Covers e
  highApart : (available entries).Pairwise fun e f => e.High → f.High →
    e.regionPgCnt = 0 ∨ f.regionPgCnt = 0 ∨ e.regionEnd ≤ f.regionAddr ∨ f.regionEnd ≤ e.regionAddr

/-! ## Narrowed ranges -/

theorem regionAddr_eq (e : MmapEntry) : e.regionAddr = e.addr.toNat % 2 ^ 32 := by
  simp [MmapEntry.regionAddr, BitVec.toNat_setWidth]

theorem regionPgCnt_eq (e : MmapEntry) : e.regionPgCnt = e.len.toNat / pageSize % 2 ^ 32 := by
  simp [MmapEntry.regionPgCnt, BitVec.toNat_setWidth, BitVec.toNat_udiv, pageSize]

theorem regionAddr_lt (e : MmapEntry) : e.regionAddr < 2 ^ 32 := by
  rw [regionAddr_eq]
  exact Nat.mod_lt _ (by decide)

theorem regionAddr_low {e : MmapEntry} (h : ¬ e.High) : e.regionAddr = e.addr.toNat := by
  rw [regionAddr_eq]
  exact Nat.mod_eq_of_lt (by unfold MmapEntry.High at h; omega)

/-- The recorded pages are not more than the entry has. -/
theorem regionPgCnt_le (e : MmapEntry) : e.regionPgCnt * pageSize ≤ e.len.toNat := by
  rw [regionPgCnt_eq]
  have h := Nat.mod_le (e.len.toNat / pageSize) (2 ^ 32)
  have h' := Nat.div_mul_le_self e.len.toNat pageSize
  exact Nat.le_trans (Nat.mul_le_mul_right _ h) h'

/-- Below 16 TiB, every whole page is recorded. -/
theorem len_lt_regionPgCnt {e : MmapEntry} (h : e.len.toNat < 2 ^ 44) :
    e.len.toNat < (e.regionPgCnt + 1) * pageSize := by
  rw [regionPgCnt_eq, Nat.mod_eq_of_lt (by simp only [pageSize]; omega)]
  simp only [pageSize]
  omega

/-! ## The loop -/

/-- The narrowed range as `struct trampoline_region` holds it. -/
def Region.extent (r : Region) : Nat × Nat := (r.addr, r.pgCnt)

theorem available_cons (e : MmapEntry) (es : List MmapEntry) :
    available (e :: es) =
      if e.type = multibootMemoryAvailable then e :: available es else available es := by
  simp only [available, List.filter_cons]
  by_cases h : e.type = multibootMemoryAvailable <;> simp [h]

/-- A recorded entry is appended. -/
theorem recorded_set (t : RegionTable) (h : t.regionCnt < mmapCnt) (r : Region) :
    RegionTable.recorded ⟨t.regions.set t.regionCnt r h, t.regionCnt + 1⟩ = t.recorded ++ [r] := by
  simp only [RegionTable.recorded, Vector.toList_set]
  rw [List.take_add_one, List.take_set_of_le (Nat.le_refl _), List.getElem?_set_self]
  · simp
  · simpa using h

/-- Without too many entries, the loop records the narrowed range of each one. -/
theorem mmapLoop_extents (es : List MmapEntry) (t : RegionTable)
    (h : t.regionCnt + (available es).length ≤ mmapCnt) :
    ∃ t', mmapLoop t es = some t' ∧ t'.regionCnt = t.regionCnt + (available es).length ∧
      t'.recorded.map Region.extent =
        t.recorded.map Region.extent ++ (available es).map MmapEntry.extent := by
  induction es generalizing t with
  | nil => exact ⟨t, rfl, by simp [available], by simp [available]⟩
  | cons e es ih =>
      rw [available_cons] at h ⊢
      by_cases htype : e.type = multibootMemoryAvailable
      · simp only [htype, if_true, List.length_cons] at h ⊢
        have hlt : t.regionCnt < mmapCnt := by omega
        have hne : t.regionCnt ≠ mmapCnt := by omega
        obtain ⟨t', hrun, hcnt, hrec⟩ := ih ⟨t.regions.set t.regionCnt
          { t.regions[t.regionCnt] with addr := e.regionAddr, pgCnt := e.regionPgCnt } hlt,
          t.regionCnt + 1⟩ (by simp only; omega)
        refine ⟨t', ?_, ?_, ?_⟩
        · rw [mmapLoop, if_pos htype, dif_pos hlt]
          dsimp only
          rw [if_neg hne]
          exact hrun
        · simp only [hcnt]
          omega
        · rw [hrec, recorded_set]
          simp [Region.extent, MmapEntry.extent]
      · simp only [htype, if_false] at h ⊢
        obtain ⟨t', hrun, hrest⟩ := ih t h
        exact ⟨t', by rw [mmapLoop, if_neg htype]; exact hrun, hrest⟩

/-- The entry after the last one that fits is written behind the array. -/
theorem mmapLoop_none (es : List MmapEntry) (t : RegionTable) (ht : t.regionCnt ≤ mmapCnt)
    (h : mmapCnt < t.regionCnt + (available es).length) : mmapLoop t es = none := by
  induction es generalizing t with
  | nil =>
      simp only [available, List.filter_nil, List.length_nil] at h
      omega
  | cons e es ih =>
      rw [available_cons] at h
      rw [mmapLoop]
      by_cases htype : e.type = multibootMemoryAvailable
      · simp only [htype, if_true, List.length_cons] at h ⊢
        by_cases hlt : t.regionCnt < mmapCnt
        · rw [dif_pos hlt, if_neg (Nat.ne_of_lt hlt)]
          apply ih
          · exact hlt
          · simp only
            omega
        · rw [dif_neg hlt]
      · simp only [htype, if_false] at h ⊢
        exact ih t ht h

theorem takeMmap_extents {es : List MmapEntry} (t : RegionTable)
    (h : (available es).length ≤ mmapCnt) :
    ∃ t', takeMmap t es = some t' ∧ t'.regionCnt = (available es).length ∧
      t'.recorded.map Region.extent = (available es).map MmapEntry.extent := by
  obtain ⟨t', hrun, hcnt, hrec⟩ := mmapLoop_extents es { t with regionCnt := 0 } (by simpa using h)
  exact ⟨t', hrun, by simpa using hcnt, by simpa [RegionTable.recorded] using hrec⟩

theorem takeMmap_none {es : List MmapEntry} (t : RegionTable)
    (h : mmapCnt < (available es).length) : takeMmap t es = none :=
  mmapLoop_none es _ (Nat.zero_le _) (by simpa using h)

/-! ## The entries decide -/

/-- Two ranges of pages without a common address. -/
def ExtentsApart (p q : Nat × Nat) : Prop :=
  ∀ a, ¬ ((p.1 ≤ a ∧ a < p.1 + p.2 * pageSize) ∧ (q.1 ≤ a ∧ a < q.1 + q.2 * pageSize))

theorem extentsApart_iff (p q : Nat × Nat) : ExtentsApart p q ↔
    p.2 = 0 ∨ q.2 = 0 ∨ p.1 + p.2 * pageSize ≤ q.1 ∨ q.1 + q.2 * pageSize ≤ p.1 := by
  simp only [ExtentsApart, pageSize]
  constructor
  · intro h
    have := h (max p.1 q.1)
    omega
  · intro h a
    omega

/-- A page of a range is backed by an entry. -/
def ExtentBacked (entries : List MmapEntry) (p : Nat × Nat) (k : Nat) : Prop :=
  pageSize ∣ p.1 + k * pageSize ∧ p.1 + k * pageSize + pageSize ≤ 2 ^ 32 ∧
    ∃ e ∈ available entries, e.addr.toNat ≤ p.1 + k * pageSize ∧
      p.1 + k * pageSize + pageSize ≤ e.addr.toNat + e.len.toNat

/-- What is asked of the region table, in terms of the entries. -/
theorem takenOver_iff {entries : List MmapEntry} {t : RegionTable}
    (hcnt : t.regionCnt ≤ mmapCnt)
    (hrec : t.recorded.map Region.extent = (available entries).map MmapEntry.extent) :
    TakenOver entries t ↔
      (available entries).Pairwise (fun e f => ExtentsApart e.extent f.extent) ∧
      ∀ e ∈ available entries, ∀ k < e.regionPgCnt, ExtentBacked entries e.extent k := by
  have hapart : t.recorded.Pairwise Region.Apart ↔
      (available entries).Pairwise (fun e f => ExtentsApart e.extent f.extent) := by
    have h := List.pairwise_map (f := Region.extent) (R := ExtentsApart) (l := t.recorded)
    rw [hrec, List.pairwise_map] at h
    exact h.symm
  have hbacked : (∀ r ∈ t.recorded, ∀ k < r.pgCnt, r.Backed entries k) ↔
      ∀ e ∈ available entries, ∀ k < e.regionPgCnt, ExtentBacked entries e.extent k := by
    have h := List.forall_mem_map (f := Region.extent) (l := t.recorded)
      (P := fun p => ∀ k < p.2, ExtentBacked entries p k)
    rw [hrec, List.forall_mem_map] at h
    exact h.symm
  rw [← hapart, ← hbacked]
  exact ⟨fun h => ⟨h.apart, h.backed⟩, fun h => ⟨hcnt, h.1, h.2⟩⟩

variable {entries : List MmapEntry}

/-- A page inside an entry below 4 GiB is recorded for it, or the entry has at least 16 TiB. -/
theorem recorded_or_long {g : MmapEntry} {a : Nat}
    (halign : 0 < g.regionPgCnt → pageSize ∣ g.regionAddr) (hlow : ¬ g.High) (ha : pageSize ∣ a)
    (hga : g.addr.toNat ≤ a) (hend : a + pageSize ≤ g.addr.toNat + g.len.toNat) :
    a + pageSize ≤ g.regionEnd ∨ 2 ^ 44 ≤ g.len.toNat := by
  by_cases hlen : g.len.toNat < 2 ^ 44
  · left
    have hcnt := len_lt_regionPgCnt hlen
    rw [regionAddr_low hlow] at halign
    simp only [MmapEntry.regionEnd, regionAddr_low hlow]
    by_cases hpos : 0 < g.regionPgCnt
    · obtain ⟨i, hi⟩ := halign hpos
      obtain ⟨j, rfl⟩ := ha
      simp only [pageSize] at *
      omega
    · simp only [pageSize] at *
      omega
  · exact .inr (by omega)

theorem ExtentsApart.symm {p q : Nat × Nat} (h : ExtentsApart p q) : ExtentsApart q p :=
  fun a ha => h a ⟨ha.2, ha.1⟩

instance : Std.Symm fun e f : MmapEntry => ExtentsApart e.extent f.extent :=
  ⟨fun _ _ h => h.symm⟩

instance : Std.Symm MmapEntry.Apart := ⟨fun _ _ h a ha => h a ⟨ha.2, ha.1⟩⟩

/-- The narrowed range of an entry below 4 GiB is a part of the entry. -/
theorem holds_of_extent {e : MmapEntry} (hlow : ¬ e.High) {a : Nat} (ha : e.extent.1 ≤ a)
    (hend : a < e.extent.1 + e.extent.2 * pageSize) : e.Holds a := by
  have hle := regionPgCnt_le e
  simp only [MmapEntry.extent, regionAddr_low hlow] at ha hend
  exact ⟨ha, by omega⟩

/-- Backed pages that are recorded once: what that says about the entry itself. -/
theorem aligned_of_backed {e : MmapEntry} (hpos : 0 < e.regionPgCnt)
    (hb : ∀ k < e.regionPgCnt, ExtentBacked entries e.extent k) :
    pageSize ∣ e.regionAddr ∧ e.regionEnd ≤ 2 ^ 32 := by
  have hfirst := (hb 0 hpos).1
  have hlast := (hb (e.regionPgCnt - 1) (by omega)).2.1
  simp only [MmapEntry.extent, pageSize] at hfirst hlast
  constructor
  · simpa [pageSize] using hfirst
  · simp only [MmapEntry.regionEnd, pageSize]
    omega

/-- An entry above 4 GiB has its pages from another entry that does not record them. -/
theorem covers_of_backed {e : MmapEntry} (he : e ∈ available entries) (hpos : 0 < e.regionPgCnt)
    (hhigh : e.High)
    (hapart : (available entries).Pairwise fun e f => ExtentsApart e.extent f.extent)
    (hb : ∀ e ∈ available entries, ∀ k < e.regionPgCnt, ExtentBacked entries e.extent k) :
    ∃ g ∈ available entries, g.Covers e := by
  obtain ⟨halign, hend⟩ := aligned_of_backed hpos (hb e he)
  obtain ⟨-, -, g, hg, hge, hgend⟩ := hb e he 0 hpos
  simp only [MmapEntry.extent, Nat.zero_mul, Nat.add_zero] at hge hgend
  have hlow : ¬ g.High := by
    have := regionAddr_lt e
    unfold MmapEntry.High
    omega
  have hne : e ≠ g := by
    rintro rfl
    exact hlow hhigh
  have hout := hapart.forall he hg hne
  rw [extentsApart_iff] at hout
  simp only [MmapEntry.extent, regionAddr_low hlow] at hout
  refine ⟨g, hg, ?_, ?_⟩
  · have hg' := recorded_or_long (fun h => (aligned_of_backed h (hb g hg)).1) hlow halign hge hgend
    simp only [MmapEntry.regionEnd, regionAddr_low hlow, pageSize] at *
    omega
  · have hg' := recorded_or_long (fun h => (aligned_of_backed h (hb g hg)).1) hlow halign hge hgend
    simp only [MmapEntry.regionEnd, regionAddr_low hlow, pageSize] at *
    omega

/-- The range of an entry above 4 GiB avoids the recorded pages of the entries below. -/
theorem Narrow.apart_of_high (h : Narrow entries)
    (hd : (available entries).Pairwise MmapEntry.Apart) {e f : MmapEntry}
    (he : e ∈ available entries) (hf : f ∈ available entries) (hhigh : e.High) (hlow : ¬ f.High) :
    ExtentsApart e.extent f.extent := by
  rintro a ⟨⟨hae, hae'⟩, haf, haf'⟩
  have hpos : 0 < e.regionPgCnt := by
    simp only [MmapEntry.extent, pageSize] at hae hae'
    omega
  obtain ⟨g, hg, hbehind, hinside⟩ := h.high e he hpos hhigh
  simp only [MmapEntry.extent] at hae hae'
  simp only [MmapEntry.regionEnd] at hinside
  by_cases hgf : g = f
  · subst hgf
    simp only [MmapEntry.extent, regionAddr_low hlow] at haf haf'
    omega
  · have hga : g.Holds a := ⟨by omega, by omega⟩
    exact hd.forall hg hf hgf a ⟨hga, holds_of_extent hlow haf haf'⟩

theorem Narrow.apart (h : Narrow entries) (hd : (available entries).Pairwise MmapEntry.Apart) :
    (available entries).Pairwise fun e f => ExtentsApart e.extent f.extent := by
  refine (hd.and h.highApart).imp_of_mem ?_
  rintro e f he hf ⟨hef, hhigh⟩
  by_cases heh : e.High <;> by_cases hfh : f.High
  · exact (extentsApart_iff _ _).mpr (hhigh heh hfh)
  · exact h.apart_of_high hd he hf heh hfh
  · exact (h.apart_of_high hd hf he hfh heh).symm
  · rintro a ⟨⟨hae, hae'⟩, haf, haf'⟩
    exact hef a ⟨holds_of_extent heh hae hae', holds_of_extent hfh haf haf'⟩

theorem Narrow.backed (h : Narrow entries) {e : MmapEntry} (he : e ∈ available entries) {k : Nat}
    (hk : k < e.regionPgCnt) : ExtentBacked entries e.extent k := by
  obtain ⟨halign, hend⟩ := h.aligned e he (by omega)
  have hlast : e.regionAddr + k * pageSize + pageSize ≤ e.regionEnd := by
    simp only [MmapEntry.regionEnd, pageSize]
    omega
  refine ⟨Nat.dvd_add halign (Nat.dvd_mul_left _ _), Nat.le_trans hlast hend, ?_⟩
  by_cases hhigh : e.High
  · obtain ⟨g, hg, hbehind, hinside⟩ := h.high e he (by omega) hhigh
    refine ⟨g, hg, ?_, Nat.le_trans hlast hinside⟩
    simp only [MmapEntry.extent]
    omega
  · have hle := regionPgCnt_le e
    simp only [MmapEntry.regionEnd, regionAddr_low hhigh] at hlast
    refine ⟨e, he, ?_, ?_⟩
    · simp only [MmapEntry.extent, regionAddr_low hhigh]
      omega
    · simp only [MmapEntry.extent, regionAddr_low hhigh]
      omega

/-- The maps whose narrowed ranges are apart and backed. -/
theorem narrow_iff (hd : (available entries).Pairwise MmapEntry.Apart) : Narrow entries ↔
    (available entries).length ≤ mmapCnt ∧
    (available entries).Pairwise (fun e f => ExtentsApart e.extent f.extent) ∧
    ∀ e ∈ available entries, ∀ k < e.regionPgCnt, ExtentBacked entries e.extent k := by
  constructor
  · intro h
    exact ⟨h.count, h.apart hd, fun _ he _ hk => h.backed he hk⟩
  · rintro ⟨hcount, hapart, hb⟩
    refine ⟨hcount, fun e he hpos => aligned_of_backed hpos (hb e he), ?_, ?_⟩
    · intro e he hpos hhigh
      exact covers_of_backed he hpos hhigh hapart hb
    · exact hapart.imp fun h _ _ => (extentsApart_iff _ _).mp h

/-- The region table after the loop, in terms of the entries. -/
theorem takeMmap_takenOver (t : RegionTable) :
    (∃ t', takeMmap t entries = some t' ∧ TakenOver entries t') ↔
      (available entries).length ≤ mmapCnt ∧
      (available entries).Pairwise (fun e f => ExtentsApart e.extent f.extent) ∧
      ∀ e ∈ available entries, ∀ k < e.regionPgCnt, ExtentBacked entries e.extent k := by
  by_cases hcount : (available entries).length ≤ mmapCnt
  · obtain ⟨t', hrun, hcnt, hrec⟩ := takeMmap_extents t hcount
    have hiff := takenOver_iff (hcnt ▸ hcount) hrec
    constructor
    · rintro ⟨t'', hrun', htaken⟩
      obtain rfl := Option.some.inj (hrun.symm.trans hrun')
      exact ⟨hcount, hiff.mp htaken⟩
    · rintro ⟨-, h⟩
      exact ⟨t', hrun, hiff.mpr h⟩
  · constructor
    · rintro ⟨t', hrun, -⟩
      rw [takeMmap_none t (by omega)] at hrun
      cases hrun
    · intro h
      exact absurd h.1 hcount

/-! ## Maps -/

theorem apart_of_le {e f : MmapEntry} (h : e.addr.toNat + e.len.toNat ≤ f.addr.toNat) :
    e.Apart f := by
  rintro a ⟨he, hf⟩
  unfold MmapEntry.Holds at he hf
  omega

/-- Memory below 4 GiB. -/
def lowMap : List MmapEntry :=
  [⟨0, 0x9F000, 1⟩, ⟨0x9F000, 0x1000, 2⟩, ⟨0x100000, 0x3FF00000, 1⟩]

/-- The same with 1 GiB at 4 GiB. -/
def highMap : List MmapEntry := lowMap ++ [⟨0x100000000, 0x40000000, 1⟩]

def emptyTable : RegionTable := ⟨Vector.replicate mmapCnt ⟨0, 0, 0⟩, 0⟩

theorem lowMap_apart : (available lowMap).Pairwise MmapEntry.Apart :=
  List.Pairwise.imp apart_of_le (by decide)

theorem highMap_apart : (available highMap).Pairwise MmapEntry.Apart :=
  List.Pairwise.imp apart_of_le (by decide)

theorem lowMap_narrow : Narrow lowMap where
  count := by decide
  aligned := by unfold pageSize; decide
  high := by
    have hlow : ∀ e ∈ available lowMap, e.addr.toNat < 2 ^ 32 := by decide
    intro e he _ hhigh
    exact absurd (hlow e he) (Nat.not_lt.mpr hhigh)
  highApart := by
    have hlow : ∀ e ∈ available lowMap, e.addr.toNat < 2 ^ 32 := by decide
    refine lowMap_apart.imp_of_mem ?_
    intro e f he _ _ hhigh
    exact absurd (hlow e he) (Nat.not_lt.mpr hhigh)

/-- The memory at 4 GiB is recorded at address 0, where the first entry is. -/
theorem highMap_meets :
    ¬ (available highMap).Pairwise fun e f => ExtentsApart e.extent f.extent := by
  intro h
  have h' := h.imp fun h => (extentsApart_iff _ _).mp h
  revert h'
  unfold pageSize
  decide

/-- The loop stays inside `regions` and records pairwise apart regions of backed pages, exactly for
    the maps that the table can describe. -/
theorem takeMmap_correct_iff (t : RegionTable)
    (hd : (available entries).Pairwise MmapEntry.Apart) :
    (∃ t', takeMmap t entries = some t' ∧ TakenOver entries t') ↔ Narrow entries :=
  (takeMmap_takenOver t).trans (narrow_iff hd).symm

theorem lowMap_taken : ∃ t', takeMmap emptyTable lowMap = some t' ∧ TakenOver lowMap t' :=
  (takeMmap_correct_iff emptyTable lowMap_apart).mpr lowMap_narrow

theorem highMap_not_taken :
    ¬ ∀ (t : RegionTable) (entries : List MmapEntry),
      (available entries).Pairwise MmapEntry.Apart →
        ∃ t', takeMmap t entries = some t' ∧ TakenOver entries t' := by
  intro h
  exact highMap_meets ((takeMmap_takenOver emptyTable).mp (h emptyTable highMap highMap_apart)).2.1

end Muse.Memory
