import Mathlib.Data.List.Pairwise
import Mathlib.Data.Nat.Find
import Muse.Memory.Proofs.HandOut

/-!
# Which page is handed out

`kpage_alloc` shifts the byte of a page and takes the page if nothing is left, so it takes a free
page only if the pages after it in the same byte are free too. The lowest free page is found if and
only if that holds of it.
-/

namespace Muse.Memory

open Muse.Library

/-! ## What an allocation should do -/

/-- Page `k` of the region is marked as used. -/
def UsedPage (mem : Nat → BitVec 8) (r : Region) (k : Nat) : Prop := bitAt mem (r.bit k) = true

instance (mem : Nat → BitVec 8) (r : Region) (k : Nat) : Decidable (UsedPage mem r k) :=
  inferInstanceAs (Decidable (_ = _))

/-- Every page of every region is marked as used. -/
def AllUsed (mem : Nat → BitVec 8) (regions : List Region) : Prop :=
  ∀ r ∈ regions, ∀ k < r.pgCnt, UsedPage mem r k

/-- Page `k` is the lowest free page of `r`, the first region that has one. -/
structure LowestFree (mem : Nat → BitVec 8) (regions : List Region) (r : Region) (k : Nat) :
    Prop where
  first : ∃ before after, regions = before ++ r :: after ∧ AllUsed mem before
  lt : k < r.pgCnt
  free : ¬ UsedPage mem r k
  lowest : ∀ j < k, UsedPage mem r j

/-- `kpage_alloc` takes the lowest free page of the first region that has one, and runs out of
    memory only if all pages are used. -/
structure AllocatesLowest (mem : Nat → BitVec 8) (regions : List Region) : Prop where
  takes : ∀ r k, LowestFree mem regions r k →
    kpageAlloc mem regions = some (r.page k, setBitAt mem (r.bit k))
  exhausted : kpageAlloc mem regions = none → AllUsed mem regions

/-- The bitmaps of two regions do not overlap. -/
def BitmapsApart (r s : Region) : Prop :=
  r.bitmap + r.pgCnt / 8 ≤ s.bitmap ∨ s.bitmap + s.pgCnt / 8 ≤ r.bitmap

instance : Std.Symm BitmapsApart := ⟨fun _ _ h => h.symm⟩

/-- Page counts are multiples of 8, and the bitmaps do not overlap. -/
structure OwnBitmaps (regions : List Region) : Prop where
  whole : ∀ r ∈ regions, 8 ∣ r.pgCnt
  apart : regions.Pairwise BitmapsApart

/-- The pages after page `k` that have their bits in the same byte are free. -/
def FreeAbove (mem : Nat → BitVec 8) (r : Region) (k : Nat) : Prop :=
  ∀ j < 8 * (k / 8 + 1), k < j → ¬ UsedPage mem r j

instance (mem : Nat → BitVec 8) (r : Region) (k : Nat) : Decidable (FreeAbove mem r k) :=
  inferInstanceAs (Decidable (∀ j < 8 * (k / 8 + 1), k < j → ¬ UsedPage mem r j))

/-- The bitmaps that `init_memory` lays out do not overlap. -/
theorem ownBitmaps_layout (limit : Nat) (rs : List (Nat × Nat)) (h : ∀ r ∈ rs, 8 ∣ r.2) :
    OwnBitmaps (layout limit rs) := by
  refine ⟨?_, List.pairwise_iff_getElem.mpr fun i j _ hj hij => .inl (layout_le hij hj)⟩
  induction rs generalizing limit with
  | nil =>
      intro r hr
      cases hr
  | cons p rs ih =>
      intro r hr
      rcases List.mem_cons.mp hr with rfl | hr
      · exact h p List.mem_cons_self
      · exact ih _ (fun p hp => h p (List.mem_cons_of_mem _ hp)) r hr

section Table

variable {mem mem' : Nat → BitVec 8} {regions before after : List Region} {r s : Region}
  {a k l : Nat}

/-- A page has a bit of its own. -/
theorem OwnBitmaps.bit_unique (h : OwnBitmaps regions) (hr : r ∈ regions) (hs : s ∈ regions)
    (hk : k < r.pgCnt) (hl : l < s.pgCnt) (he : r.bit k = s.bit l) : r = s ∧ k = l := by
  have hrs : r = s := by
    by_contra hne
    have hapart := h.apart.forall hr hs hne
    obtain ⟨m, hm⟩ := h.whole r hr
    obtain ⟨n, hn⟩ := h.whole s hs
    simp only [Region.bit] at he
    rcases hapart with hapart | hapart <;> omega
  subst hrs
  simp only [Region.bit] at he
  exact ⟨rfl, by omega⟩

/-! ## The test of a page -/

/-- Nothing is left of the shifted byte if the page and those after it in the byte are free. -/
theorem shifted_iff (mem : Nat → BitVec 8) (r : Region) (k : Nat) :
    mem (r.bitmap + k / 8) >>> (k % 8) = 0#8 ↔ ¬ UsedPage mem r k ∧ FreeAbove mem r k := by
  have hbit : ∀ j, j / 8 = k / 8 →
      (UsedPage mem r j ↔ (mem (r.bitmap + k / 8)).getLsbD (j % 8) = true) := by
    intro j hj
    obtain ⟨hbyte, hpos⟩ := byte_of_bit r.bitmap j
    rw [UsedPage, bitAt, Region.bit, hbyte, hpos, hj]
  constructor
  · intro hzero
    have hclear : ∀ i, k % 8 ≤ i → (mem (r.bitmap + k / 8)).getLsbD i = false := by
      intro i hi
      have := congrArg (fun x : BitVec 8 => x.getLsbD (i - k % 8)) hzero
      rw [BitVec.getLsbD_ushiftRight, Nat.add_sub_cancel' hi] at this
      simpa using this
    refine ⟨?_, fun j hj hkj => ?_⟩
    · rw [hbit k rfl, hclear _ (Nat.le_refl _)]
      simp
    · rw [hbit j (by omega), hclear _ (by omega)]
      simp
  · rintro ⟨hfree, habove⟩
    apply BitVec.eq_of_getLsbD_eq
    intro i hi
    rw [BitVec.getLsbD_ushiftRight, BitVec.getLsbD_zero]
    by_cases hlt : k % 8 + i < 8
    · have hj : (k + i) / 8 = k / 8 ∧ (k + i) % 8 = k % 8 + i := by omega
      have hnot : ¬ UsedPage mem r (k + i) := by
        by_cases hi0 : i = 0
        · rwa [hi0]
        · exact habove (k + i) (by omega) (by omega)
      rw [hbit _ hj.1, hj.2] at hnot
      simpa using hnot
    · exact BitVec.getLsbD_of_ge _ _ (by omega)

/-! ## The search through a region -/

theorem Region.page_mono (r : Region) (h : k ≤ l) : r.page k ≤ r.page l :=
  Nat.add_le_add_left (Nat.mul_le_mul_right pageSize h) r.addr

theorem scan_succ (fuel idx : Nat) : scan mem r (fuel + 1) (r.page idx) idx =
    if r.page idx < r.high then
      if ¬ UsedPage mem r idx ∧ FreeAbove mem r idx then some (r.page idx, idx)
      else scan mem r fuel (r.page (idx + 1)) (idx + 1)
    else none := by
  rw [scan]
  by_cases hlt : r.page idx < r.high
  · obtain ⟨-, hle, hhigh⟩ := Region.page_add_le_high hlt
    have hnext : (r.page idx + pageSize) % 2 ^ 32 = r.page (idx + 1) := by
      simp only [Region.page, pageSize] at hle ⊢
      omega
    simp only [if_pos hlt, shifted_iff, hnext]
  · simp only [if_neg hlt]

/-- No page is found in a region without free pages. -/
theorem scan_used (hused : ∀ j < r.pgCnt, UsedPage mem r j) (fuel idx : Nat) :
    scan mem r fuel (r.page idx) idx = none := by
  induction fuel generalizing idx with
  | zero => rfl
  | succ fuel ih =>
      rw [scan_succ]
      by_cases hlt : r.page idx < r.high
      · have hidx := (Region.page_add_le_high hlt).1
        rw [if_pos hlt, if_neg fun hfree => hfree.1 (hused idx hidx)]
        exact ih (idx + 1)
      · exact if_neg hlt

/-- The lowest free page is found if the pages after it in its byte are free. -/
theorem scan_lowest (hlt : r.page k < r.high) (hfree : ¬ UsedPage mem r k)
    (habove : FreeAbove mem r k) (hlow : ∀ j < k, UsedPage mem r j) (fuel idx : Nat)
    (hidx : idx ≤ k) (hfuel : k < fuel + idx) :
    scan mem r fuel (r.page idx) idx = some (r.page k, k) := by
  induction fuel generalizing idx with
  | zero => omega
  | succ fuel ih =>
      have hin : r.page idx < r.high := Nat.lt_of_le_of_lt (Region.page_mono r hidx) hlt
      rw [scan_succ, if_pos hin]
      rcases Nat.lt_or_eq_of_le hidx with hidx | rfl
      · rw [if_neg fun hfree => hfree.1 (hlow idx hidx)]
        exact ih (idx + 1) hidx (by omega)
      · exact if_pos ⟨hfree, habove⟩

/-- A page that is found is free, as are those after it in its byte. -/
theorem scan_found (fuel idx : Nat) (h : scan mem r fuel (r.page idx) idx = some (a, l)) :
    r.page l < r.high ∧ FreeAbove mem r l := by
  induction fuel generalizing idx with
  | zero => cases h
  | succ fuel ih =>
      rw [scan_succ] at h
      split at h
      · next hlt =>
          split at h
          · next hfree =>
              obtain ⟨rfl, rfl⟩ := Prod.mk.inj (Option.some.inj h)
              exact ⟨hlt, hfree.2⟩
          · exact ih (idx + 1) h
      · cases h

/-! ## The search through the table -/

/-- The first region has its address as page 0. -/
theorem Region.addr_eq_page (r : Region) : r.addr = r.page 0 := by
  simp [Region.page]

/-- Regions without free pages are passed. -/
theorem kpageAlloc_append (hused : AllUsed mem before) (regions : List Region) :
    kpageAlloc mem (before ++ regions) = kpageAlloc mem regions := by
  induction before with
  | nil => rfl
  | cons s before ih =>
      have hs := hused s List.mem_cons_self
      rw [List.cons_append, kpageAlloc, Region.addr_eq_page, scan_used hs]
      exact ih fun t ht => hused t (List.mem_cons_of_mem s ht)

/-- A page that is handed out is one that the search finds. -/
theorem kpageAlloc_found (h : kpageAlloc mem regions = some (a, mem')) :
    ∃ s ∈ regions, ∃ l < s.pgCnt, mem' = setBitAt mem (s.bit l) ∧ s.page l < s.high ∧
      FreeAbove mem s l := by
  induction regions with
  | nil => cases h
  | cons s regions ih =>
      rw [kpageAlloc, Region.addr_eq_page] at h
      split at h
      · next addr idx hscan =>
          obtain ⟨hlt, -, -⟩ := scan_spec _ _ hscan
          obtain ⟨hhigh, habove⟩ := scan_found _ _ hscan
          obtain ⟨hbyte, hbit⟩ := byte_of_bit s.bitmap idx
          refine ⟨s, List.mem_cons_self, idx, hlt, ?_, hhigh, habove⟩
          rw [← (Prod.mk.inj (Option.some.inj h)).2, setBitAt, Region.bit, hbyte, hbit]
      · obtain ⟨t, ht, l, hl⟩ := ih h
        exact ⟨t, List.mem_cons_of_mem s ht, l, hl⟩

/-- Either all pages are used or there is a lowest free one. -/
theorem allUsed_or_lowestFree (mem : Nat → BitVec 8) (regions : List Region) :
    AllUsed mem regions ∨ ∃ r k, LowestFree mem regions r k := by
  induction regions with
  | nil => exact .inl fun r hr => by cases hr
  | cons s regions ih =>
      by_cases hs : ∃ k, k < s.pgCnt ∧ ¬ UsedPage mem s k
      · obtain ⟨hlt, hfree⟩ := Nat.find_spec hs
        refine .inr ⟨s, Nat.find hs, ⟨[], regions, rfl, fun r hr => by cases hr⟩, hlt, hfree, ?_⟩
        intro j hj
        by_contra hused
        exact Nat.find_min hs hj ⟨Nat.lt_trans hj hlt, hused⟩
      · have hused : ∀ k < s.pgCnt, UsedPage mem s k := by
          intro k hk
          by_contra hfree
          exact hs ⟨k, hk, hfree⟩
        rcases ih with hall | ⟨r, k, ⟨before, after, rfl, hbefore⟩, hlt, hfree, hlow⟩
        · refine .inl fun r hr => ?_
          rcases List.mem_cons.mp hr with rfl | hr
          · exact hused
          · exact hall r hr
        · refine .inr ⟨r, k, ⟨s :: before, after, rfl, fun t ht => ?_⟩, hlt, hfree, hlow⟩
          rcases List.mem_cons.mp ht with rfl | ht
          · exact hused
          · exact hbefore t ht

theorem LowestFree.region_mem (h : LowestFree mem regions r k) : r ∈ regions := by
  obtain ⟨before, after, rfl, -⟩ := h.first
  exact List.mem_append_right _ List.mem_cons_self

/-- The lowest free page is taken if the search can find it. -/
theorem LowestFree.taken (h : LowestFree mem regions r k) (hlt : r.page k < r.high)
    (habove : FreeAbove mem r k) :
    kpageAlloc mem regions = some (r.page k, setBitAt mem (r.bit k)) := by
  obtain ⟨before, after, rfl, hused⟩ := h.first
  have hhigh := (Region.page_add_le_high hlt).2
  have hfuel : k < 2 ^ 20 + 1 + 0 := by
    simp only [Region.page, pageSize] at hlt
    omega
  have hscan := scan_lowest hlt h.free habove h.lowest (2 ^ 20 + 1) 0 (Nat.zero_le k) hfuel
  obtain ⟨hbyte, hbit⟩ := byte_of_bit r.bitmap k
  rw [kpageAlloc_append hused, kpageAlloc, Region.addr_eq_page, hscan]
  simp only [setBitAt, Region.bit, hbyte, hbit]

end Table

/-- **The lowest free page.** With bitmaps of its own for each region, an allocation takes the
    lowest free page of the first region that has one, and fails only if all pages are used, if and
    only if the end of that region is a 32-bit word and no page after the free one in its byte is
    used. -/
theorem allocatesLowest_iff (mem : Nat → BitVec 8) (regions : List Region)
    (hown : OwnBitmaps regions) : AllocatesLowest mem regions ↔
      ∀ r k, LowestFree mem regions r k → r.page k < r.high ∧ FreeAbove mem r k := by
  constructor
  · intro h r k hk
    obtain ⟨s, hs, l, hl, hmem, hlt, habove⟩ := kpageAlloc_found (h.takes r k hk)
    -- the bit that is set is clear before, so it is the one of the page that was found
    have hbit : r.bit k = s.bit l := by
      have hset := congrArg (fun m : Nat → BitVec 8 => bitAt m (r.bit k)) hmem
      rw [bitAt_setBitAt (by decide), bitAt_setBitAt (by decide)] at hset
      have hfree : bitAt mem (r.bit k) = false := by simpa [UsedPage] using hk.free
      simpa [hfree] using hset
    obtain ⟨rfl, rfl⟩ := hown.bit_unique hk.region_mem hs hk.lt hl hbit
    exact ⟨hlt, habove⟩
  · intro h
    refine ⟨fun r k hk => hk.taken (h r k hk).1 (h r k hk).2, fun hnone => ?_⟩
    rcases allUsed_or_lowestFree mem regions with hall | ⟨r, k, hk⟩
    · exact hall
    · obtain ⟨hlt, habove⟩ := h r k hk
      rw [hk.taken hlt habove] at hnone
      cases hnone

/-- Two regions. All pages of the first are used, and of the second the first three and the last
    one. -/
def twoRegions : List (Nat × Nat) := [(0x100000, 8), (0x200000, 16)]

def partlyUsed : Nat → BitVec 8 := fun b =>
  if b = 0x9000 then 0xFF#8 else if b = 0x9001 then 7#8 else 0x80#8

/-- The lowest free page there. -/
theorem lowestFree_partlyUsed {r : Region} {k : Nat}
    (h : LowestFree partlyUsed (layout 0x9000 twoRegions) r k) :
    r = ⟨0x200000, 16, 0x9001⟩ ∧ k = 3 := by
  have hr : r = ⟨0x100000, 8, 0x9000⟩ ∨ r = ⟨0x200000, 16, 0x9001⟩ := by
    simpa [layout, twoRegions] using h.region_mem
  rcases hr with rfl | rfl
  · have hused : ∀ k < 8, UsedPage partlyUsed ⟨0x100000, 8, 0x9000⟩ k := by decide
    exact absurd (hused k h.lt) h.free
  · have hused : ∀ k < 3, UsedPage partlyUsed ⟨0x200000, 16, 0x9001⟩ k := by decide
    have hfree : ¬ UsedPage partlyUsed ⟨0x200000, 16, 0x9001⟩ 3 := by decide
    rcases Nat.lt_trichotomy k 3 with hlt | rfl | hgt
    · exact absurd (hused k hlt) h.free
    · exact ⟨rfl, rfl⟩
    · exact absurd (h.lowest 3 hgt) hfree

/-- That page is taken: those after it in its byte are free. -/
theorem allocatesLowest_iff_partlyUsed :
    AllocatesLowest partlyUsed (layout 0x9000 twoRegions) ∧
      (kpageAlloc partlyUsed (layout 0x9000 twoRegions)).map Prod.fst = some 0x203000 := by
  refine ⟨(allocatesLowest_iff _ _ (ownBitmaps_layout _ _ (by decide))).mpr fun r k hk => ?_, rfl⟩
  obtain ⟨rfl, rfl⟩ := lowestFree_partlyUsed hk
  decide

/-- Two pages are allocated, and the first is freed. -/
def freedPage : List (Nat × Nat) := [(0x100000, 8)]

/-- The page that was freed is passed over for the third one. -/
theorem freed_page_passed : ¬ ∀ s, Reaches (step (layout 0x9000 freedPage))
    (Allowed (layout 0x9000 freedPage))
      ⟨clearBitmaps (fun _ => 0#8) (layout 0x9000 freedPage), []⟩ s →
    AllocatesLowest s.mem (layout 0x9000 freedPage) := by
  intro hall
  have hrun : (runChecked (step (layout 0x9000 freedPage)) (Allowed (layout 0x9000 freedPage))
      ⟨clearBitmaps (fun _ => 0#8) (layout 0x9000 freedPage), []⟩
      [.alloc, .alloc, .free 0x100000]).any (fun s => decide (s.mem 0x9000 = 2#8 ∧
        (kpageAlloc s.mem (layout 0x9000 freedPage)).map Prod.fst = some 0x102000)) = true := by
    decide +kernel
  obtain ⟨s, hr, hobs⟩ := exists_reaches_of_any hrun
  obtain ⟨hbyte, hnext⟩ := of_decide_eq_true hobs
  have hfree : ¬ UsedPage s.mem ⟨0x100000, 8, 0x9000⟩ 0 := by
    rw [UsedPage, bitAt, show Region.bit ⟨0x100000, 8, 0x9000⟩ 0 / 8 = 0x9000 from rfl, hbyte]
    decide
  have hlow : LowestFree s.mem (layout 0x9000 freedPage) ⟨0x100000, 8, 0x9000⟩ 0 :=
    ⟨⟨[], [], rfl, fun r hr => by cases hr⟩, by decide, hfree,
      fun j hj => absurd hj (Nat.not_lt_zero j)⟩
  rw [(hall s hr).takes _ 0 hlow, Option.map_some] at hnext
  have hpage : Region.page ⟨0x100000, 8, 0x9000⟩ 0 = 0x102000 := Option.some.inj hnext
  exact absurd hpage (by decide)

end Muse.Memory
