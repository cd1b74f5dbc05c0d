import Mathlib.Data.Nat.Init
import Muse.Library.Transition
import Muse.Memory.PageBitmap

/-!
# No page is handed out twice

`kpage_alloc` counts pages while it walks a region, `kpage_set_status` searches the region
and divides. Both agree on the bit of a page, and no two pages share a bit, as long as the
table is `Clean`: the bitmap of a region that has pages starts behind whole bytes, and an
address at the (inclusive) upper bound of an earlier region is the first page of the region
whose bitmap follows. The upper bound of a region that reaches `2 ^ 32` wraps: neither function
finds its pages there, so they are never handed out.
-/

namespace Muse.Memory

open Muse.Library

/-- The end of a region as an integer. -/
def Region.limit (r : Region) : Nat := r.addr + r.pgCnt * pageSize

/-- No address lies in two regions of the table. -/
def DisjointRegions (regions : List Region) : Prop :=
  regions.Pairwise fun r s => ∀ a, r.addr ≤ a → a < r.limit → s.addr ≤ a → a < s.limit → False

/-- The tables on which both functions use one bit of its own for every page. -/
structure Clean (regions : List Region) : Prop where
  whole_bytes : ∀ i j (_ : i < j) (hj : j < regions.length),
    regions[j].pgCnt ≠ 0 → regions[i].pgCnt % 8 = 0
  touching : ∀ i j (_ : i < j) (hj : j < regions.length), ∀ k < regions[j].pgCnt,
    regions[j].page k = regions[i].limit →
      k = 0 ∧ ∀ m (_ : i < m) (_ : m < j), regions[m].pgCnt = 0
  wrapped : ∀ i j (_ : i < j) (hj : j < regions.length), 2 ^ 32 ≤ regions[i].limit →
    ∀ k < regions[i].pgCnt, regions[i].page k ≠ regions[j].limit

theorem Region.high_eq {r : Region} (h : r.limit < 2 ^ 32) : r.high = r.limit :=
  Nat.mod_eq_of_lt h

theorem Region.high_le (r : Region) : r.high ≤ r.limit := Nat.mod_le ..

theorem Region.page_lt_limit {r : Region} {k : Nat} (hk : k < r.pgCnt) :
    r.page k + pageSize ≤ r.limit := by
  simp only [Region.page, Region.limit, pageSize]
  omega

/-- `a` is a page of the table and `p` is its bit. -/
def IsPage (regions : List Region) (a p : Nat) : Prop :=
  ∃ i, ∃ hi : i < regions.length, ∃ k < regions[i].pgCnt,
    a = regions[i].page k ∧ p = regions[i].bit k

theorem isPage_of_mem {regions : List Region} {r : Region} (hr : r ∈ regions) {k : Nat}
    (hk : k < r.pgCnt) : IsPage regions (r.page k) (r.bit k) := by
  obtain ⟨i, hi, rfl⟩ := List.getElem_of_mem hr
  exact ⟨i, hi, k, hk, rfl, rfl⟩

/-- `a` is a page of a region that is not between the bounds of the region. -/
def Skipped (regions : List Region) (a : Nat) : Prop :=
  ∃ r ∈ regions, ∃ k < r.pgCnt, a = r.page k ∧ r.high < a

section Disjoint

variable {regions : List Region}

/-- Page `l` of an earlier region is not page `k` of a later one. -/
theorem page_ne_page (hd : DisjointRegions regions) {i j k l : Nat} (hij : i < j)
    (hj : j < regions.length) (hk : k < regions[i].pgCnt)
    (hl : l < regions[j].pgCnt) :
    regions[i].page k ≠ regions[j].page l := by
  intro he
  have hki := Region.page_lt_limit hk
  have hlj := Region.page_lt_limit hl
  refine List.pairwise_iff_getElem.mp hd i j (by omega) hj hij
    (regions[i].page k) ?_ ?_ ?_ ?_
  all_goals simp only [Region.page, pageSize] at *; omega

/-- A page has one region. -/
theorem region_unique (hd : DisjointRegions regions) {r s : Region} (hr : r ∈ regions)
    (hs : s ∈ regions) {k l : Nat} (hk : k < r.pgCnt) (hl : l < s.pgCnt)
    (he : r.page k = s.page l) : r = s := by
  obtain ⟨i, hi, rfl⟩ := List.getElem_of_mem hr
  obtain ⟨j, hj, rfl⟩ := List.getElem_of_mem hs
  rcases Nat.lt_trichotomy i j with hij | rfl | hji
  · exact absurd he (page_ne_page hd hij hj hk hl)
  · rfl
  · exact absurd he.symm (page_ne_page hd hji hi hl hk)

/-- A page has one bit. -/
theorem IsPage.bit_unique (hd : DisjointRegions regions) {a p q : Nat}
    (hp : IsPage regions a p) (hq : IsPage regions a q) : p = q := by
  obtain ⟨i, hi, k, hk, rfl, rfl⟩ := hp
  obtain ⟨j, hj, l, hl, he, rfl⟩ := hq
  rcases Nat.lt_trichotomy i j with hij | rfl | hji
  · exact absurd he (page_ne_page hd hij hj hk hl)
  · have : k = l := by
      simp only [Region.page, pageSize] at he
      omega
    rw [this]
  · exact absurd he.symm (page_ne_page hd hji hi hl hk)

end Disjoint

/-! ## The layout of the bitmaps -/

@[simp] theorem length_layout (limit : Nat) (rs : List (Nat × Nat)) :
    (layout limit rs).length = rs.length := by
  induction rs generalizing limit with
  | nil => rfl
  | cons r rs ih => simp [layout, ih]

/-- A bitmap starts where the one before it ends. -/
theorem layout_succ (limit : Nat) (rs : List (Nat × Nat)) (i : Nat)
    (h : i + 1 < (layout limit rs).length) :
    (layout limit rs)[i + 1].bitmap =
      (layout limit rs)[i].bitmap + (layout limit rs)[i].pgCnt / 8 := by
  induction rs generalizing limit i with
  | nil => simp [layout] at h
  | cons r rs ih =>
      cases i with
      | zero =>
          cases rs with
          | nil => simp [layout] at h
          | cons r' rs => rfl
      | succ i => exact ih (limit + r.2 / 8) i (by simpa [layout] using h)

section Table

variable {limit : Nat} {rs : List (Nat × Nat)}

/-- Later bitmaps lie behind earlier ones. -/
theorem layout_le {i j : Nat} (hij : i < j) (hj : j < (layout limit rs).length) :
    (layout limit rs)[i].bitmap + (layout limit rs)[i].pgCnt / 8 ≤
      (layout limit rs)[j].bitmap := by
  induction j, hij using Nat.le_induction with
  | base => exact Nat.le_of_eq (layout_succ limit rs i hj).symm
  | succ j hij ih =>
      have hstep := layout_succ limit rs j hj
      have := ih (by omega)
      omega

/-- Regions without pages take no room between two bitmaps. -/
theorem layout_eq {i j : Nat} (hij : i < j) (hj : j < (layout limit rs).length)
    (hmid : ∀ m (_ : i < m) (_ : m < j), (layout limit rs)[m].pgCnt = 0) :
    (layout limit rs)[j].bitmap =
      (layout limit rs)[i].bitmap + (layout limit rs)[i].pgCnt / 8 := by
  induction j, hij using Nat.le_induction with
  | base => exact layout_succ limit rs i hj
  | succ j hij ih =>
      have hzero := hmid j (by omega) (by omega)
      have := ih (by omega) fun m him hmj => hmid m him (by omega)
      rw [layout_succ limit rs j hj, hzero, this]
      omega

/-- The bits of an earlier region lie below those of a later one. -/
theorem bit_lt_bit (hc : Clean (layout limit rs)) {i j k l : Nat} (hij : i < j)
    (hj : j < (layout limit rs).length) (hk : k < (layout limit rs)[i].pgCnt)
    (hl : l < (layout limit rs)[j].pgCnt) :
    (layout limit rs)[i].bit k < (layout limit rs)[j].bit l := by
  have hwhole := hc.whole_bytes i j hij hj (by omega)
  have hle := layout_le hij hj
  simp only [Region.bit]
  omega

/-- Two pages do not share a bit. -/
theorem IsPage.addr_unique (hc : Clean (layout limit rs)) {a b p : Nat}
    (ha : IsPage (layout limit rs) a p) (hb : IsPage (layout limit rs) b p) : a = b := by
  obtain ⟨i, hi, k, hk, rfl, hp⟩ := ha
  obtain ⟨j, hj, l, hl, rfl, hq⟩ := hb
  rcases Nat.lt_trichotomy i j with hij | rfl | hji
  · have := bit_lt_bit hc hij hj hk hl
    omega
  · have : k = l := by
      simp only [Region.bit] at hp hq
      omega
    rw [this]
  · have := bit_lt_bit hc hji hi hl hk
    omega

/-! ## `kpage_set_status` -/

/-- The region that is found for a page has the page's bit at the page's distance. -/
theorem findRegion_page (hd : DisjointRegions (layout limit rs)) (hc : Clean (layout limit rs))
    {a p : Nat} (ha : IsPage (layout limit rs) a p) :
    (∃ r, findRegion (layout limit rs) a = some r ∧ r.bit ((a - r.addr) / pageSize) = p) ∨
      (findRegion (layout limit rs) a = none ∧ Skipped (layout limit rs) a) := by
  obtain ⟨j, hj, k, hk, rfl, rfl⟩ := ha
  have hown : (layout limit rs)[j].addr ≤ (layout limit rs)[j].page k := Nat.le_add_right _ _
  cases hf : findRegion (layout limit rs) ((layout limit rs)[j].page k) with
  | none =>
      have hmiss := List.find?_eq_none.mp hf _ (List.getElem_mem hj)
      simp only [hown, true_and, decide_eq_true_eq, Nat.not_le] at hmiss
      exact .inr ⟨rfl, _, List.getElem_mem hj, k, hk, rfl, hmiss⟩
  | some r =>
      refine .inl ⟨r, rfl, ?_⟩
      obtain ⟨hr, i, hi, rfl, hbefore⟩ := List.find?_eq_some_iff_getElem.mp hf
      obtain ⟨hlow, hhigh⟩ := of_decide_eq_true hr
      replace hhigh := Nat.le_trans hhigh (Region.high_le _)
      rcases Nat.lt_trichotomy i j with hij | rfl | hji
      · -- an earlier region is found at its upper bound only
        have hend : (layout limit rs)[j].page k = (layout limit rs)[i].limit := by
          by_contra hne
          have := Region.page_lt_limit hk
          exact List.pairwise_iff_getElem.mp hd i j hi hj hij _ hlow (by omega) hown
            (by simp only [pageSize] at this; omega)
        obtain ⟨rfl, hmid⟩ := hc.touching i j hij hj k hk hend
        have hwhole := hc.whole_bytes i j hij hj (by omega)
        have hnext := layout_eq hij hj hmid
        rw [hend]
        simp only [Region.bit, Region.limit, pageSize]
        omega
      · simp only [Region.bit, Region.page, pageSize]
        omega
      · -- the search passes region `j` only if its end wraps
        have hmiss := hbefore j hji
        simp only [hown, true_and, Bool.not_eq_true', decide_eq_false_iff_not, Nat.not_le] at hmiss
        have hpage := Region.page_lt_limit hk
        have hwrap : 2 ^ 32 ≤ (layout limit rs)[j].limit := by
          by_contra hbelow
          rw [Region.high_eq (Nat.lt_of_not_le hbelow)] at hmiss
          omega
        have hne := hc.wrapped j i hji hi hwrap k hk
        exfalso
        exact List.pairwise_iff_getElem.mp hd j i hj hi hji _ hown
          (by simp only [pageSize] at hpage; omega) hlow (by omega)

theorem byte_of_bit (b k : Nat) : (8 * b + k) / 8 = b + k / 8 ∧ (8 * b + k) % 8 = k % 8 := by
  omega

/-- On a page of the table `kpage_set_status` changes the bit of that page, or nothing if the page
    is skipped. -/
theorem kpageSetStatus_page (hd : DisjointRegions (layout limit rs))
    (hc : Clean (layout limit rs)) {a p : Nat} (ha : IsPage (layout limit rs) a p)
    (mem : Nat → BitVec 8) (free : Bool) :
    (kpageSetStatus mem (layout limit rs) a free =
      if free then clearBitAt mem p else setBitAt mem p) ∨
      (kpageSetStatus mem (layout limit rs) a free = mem ∧ Skipped (layout limit rs) a) := by
  rcases findRegion_page hd hc ha with ⟨r, hr, rfl⟩ | ⟨hnone, hskip⟩
  · left
    obtain ⟨hbyte, hbit⟩ := byte_of_bit r.bitmap ((a - r.addr) / pageSize)
    simp only [kpageSetStatus, hr, setBitAt, clearBitAt, Region.bit, hbyte, hbit]
  · right
    exact ⟨by rw [kpageSetStatus, hnone], hskip⟩

end Table

/-! ## `kpage_alloc` -/

/-- The pages of a region that the inner loop looks at do not wrap: the upper bound of the loop is a
    whole number of pages away. -/
theorem Region.page_add_le_high {r : Region} {k : Nat} (h : r.page k < r.high) :
    k < r.pgCnt ∧ r.page k + pageSize ≤ r.high ∧ r.high < 2 ^ 32 := by
  simp only [Region.high, Region.page, pageSize] at *
  omega

/-- The inner loop stops at a page of the region whose bit is clear. -/
theorem scan_spec {mem : Nat → BitVec 8} {r : Region} :
    ∀ (fuel idx : Nat) {a d : Nat}, scan mem r fuel (r.page idx) idx = some (a, d) →
      d < r.pgCnt ∧ a = r.page d ∧ a < r.high ∧ bitAt mem (r.bit d) = false
  | 0, idx, a, d, h => by simp [scan] at h
  | fuel + 1, idx, a, d, h => by
      rw [scan] at h
      split at h
      · next hlt =>
          obtain ⟨hidx, hle, hhigh⟩ := Region.page_add_le_high hlt
          split at h
          · next hfree =>
              obtain ⟨rfl, rfl⟩ : r.page idx = a ∧ idx = d := by simpa using h
              refine ⟨hidx, rfl, hlt, ?_⟩
              obtain ⟨hbyte, hbit⟩ := byte_of_bit r.bitmap idx
              rw [bitAt, Region.bit, hbyte, hbit]
              exact getLsbD_eq_false_of_ushiftRight hfree
          · have hnext : (r.page idx + pageSize) % 2 ^ 32 = r.page (idx + 1) := by
              simp only [Region.page, pageSize] at hle ⊢
              omega
            rw [hnext] at h
            exact scan_spec fuel (idx + 1) h
      · cases h

/-- `kpage_alloc` returns a page between the bounds of its region whose bit is clear, and sets
    it. -/
theorem kpageAlloc_spec {mem mem' : Nat → BitVec 8} {a : Nat} :
    ∀ {regions : List Region}, kpageAlloc mem regions = some (a, mem') →
      (∃ r ∈ regions, ∃ k < r.pgCnt, a = r.page k ∧ a < r.high) ∧
        ∃ p, IsPage regions a p ∧ bitAt mem p = false ∧ mem' = setBitAt mem p
  | [], h => by simp [kpageAlloc] at h
  | r :: rs, h => by
      rw [kpageAlloc] at h
      split at h
      · next addr idx hscan =>
          have hstart : r.addr = r.page 0 := by simp [Region.page]
          rw [hstart] at hscan
          obtain ⟨hidx, rfl, hlt, hclear⟩ := scan_spec _ _ hscan
          obtain ⟨hbyte, hbit⟩ := byte_of_bit r.bitmap idx
          simp only [Option.some.injEq, Prod.mk.injEq] at h
          obtain ⟨rfl, rfl⟩ := h
          refine ⟨⟨r, List.mem_cons_self, idx, hidx, rfl, hlt⟩, r.bit idx,
            isPage_of_mem List.mem_cons_self hidx, hclear, ?_⟩
          rw [setBitAt, Region.bit, hbyte, hbit]
      · obtain ⟨⟨s, hs, hbounds⟩, p, ⟨i, hi, k, hk, ha, hp⟩, hclear, hmem⟩ := kpageAlloc_spec h
        exact ⟨⟨s, List.mem_cons_of_mem r hs, hbounds⟩, p,
          ⟨i + 1, by simpa using hi, k, hk, ha, hp⟩, hclear, hmem⟩

/-! ## Runs -/

/-- The pages that are allocated or reserved have their bit set, or are skipped. -/
def Marked (regions : List Region) (s : Pages) : Prop :=
  ∀ a ∈ s.held, ∃ p, IsPage regions a p ∧ (bitAt s.mem p = true ∨ Skipped regions a)

section Run

variable {limit : Nat} {rs : List (Nat × Nat)}

theorem marked_handsOutFree (hd : DisjointRegions (layout limit rs)) {s : Pages}
    (hm : Marked (layout limit rs) s) : HandsOutFree (layout limit rs) s := by
  intro a mem ha hheld
  obtain ⟨p, hp, hset⟩ := hm a hheld
  obtain ⟨⟨r, hr, k, hk, hpage, hlt⟩, q, hq, hclear, -⟩ := kpageAlloc_spec ha
  rcases hset with hset | ⟨r', hr', k', hk', hpage', hskip⟩
  · rw [hp.bit_unique hd hq, hclear] at hset
    cases hset
  · obtain rfl := region_unique hd hr hr' hk hk' (hpage.symm.trans hpage')
    exact Nat.lt_asymm hlt hskip

/-- Setting the bit of a page marks the page and keeps the others. -/
theorem marked_set {s : Pages} (hm : Marked (layout limit rs) s) {a p : Nat}
    (ha : IsPage (layout limit rs) a p) :
    Marked (layout limit rs) ⟨setBitAt s.mem p, a :: s.held⟩ := by
  intro b hb
  rcases List.mem_cons.mp hb with rfl | hb
  · exact ⟨p, ha, .inl (by simp [bitAt_setBitAt])⟩
  · obtain ⟨q, hq, hset⟩ := hm b hb
    exact ⟨q, hq, hset.imp_left fun hset => by simp [bitAt_setBitAt, hset]⟩

/-- Clearing the bit of a page leaves the other pages marked. -/
theorem marked_clear (hc : Clean (layout limit rs)) {s : Pages}
    (hm : Marked (layout limit rs) s) {a p : Nat} (ha : IsPage (layout limit rs) a p) :
    Marked (layout limit rs) ⟨clearBitAt s.mem p, s.held.filter fun b => b ≠ a⟩ := by
  intro b hb
  obtain ⟨hbheld, hne⟩ := List.mem_filter.mp hb
  obtain ⟨q, hq, hset⟩ := hm b hbheld
  have hqp : q ≠ p := by
    rintro rfl
    exact of_decide_eq_true hne (hq.addr_unique hc ha)
  exact ⟨q, hq, hset.imp_left fun hset => by simp [bitAt_clearBitAt, hset, hqp]⟩

theorem step_marked (hd : DisjointRegions (layout limit rs)) (hc : Clean (layout limit rs))
    {s s' : Pages} {op : Op} (hm : Marked (layout limit rs) s)
    (hok : Allowed (layout limit rs) s op) (hs : step (layout limit rs) s op = some s') :
    Marked (layout limit rs) s' := by
  cases op with
  | alloc =>
      obtain ⟨⟨a, mem⟩, halloc, rfl⟩ := Option.map_eq_some_iff.mp hs
      obtain ⟨-, p, hp, -, rfl⟩ := kpageAlloc_spec halloc
      exact marked_set hm hp
  | reserve addr =>
      obtain ⟨r, hr, k, hk, rfl⟩ := hok
      have hp := isPage_of_mem hr hk
      cases hs
      rcases kpageSetStatus_page hd hc hp s.mem false with heq | ⟨heq, hskip⟩
      · rw [heq]
        exact marked_set hm hp
      · rw [heq]
        intro b hb
        rcases List.mem_cons.mp hb with rfl | hb
        · exact ⟨_, hp, .inr hskip⟩
        · exact hm b hb
  | free addr =>
      obtain ⟨p, hp, -⟩ := hm addr hok
      cases hs
      rcases kpageSetStatus_page hd hc hp s.mem true with heq | ⟨heq, -⟩
      · rw [heq]
        exact marked_clear hc hm hp
      · rw [heq]
        exact fun b hb => hm b (List.mem_filter.mp hb).1

/-- On a clean table of disjoint regions whose bitmaps `init_memory` laid out and cleared,
    `kpage_alloc` hands out a page that is neither allocated nor reserved in every state of
    every run. -/
theorem pages_handed_out_once (limit : Nat) (rs : List (Nat × Nat)) (mem : Nat → BitVec 8)
    (hd : DisjointRegions (layout limit rs)) (hc : Clean (layout limit rs)) (s : Pages)
    (hr : Reaches (step (layout limit rs)) (Allowed (layout limit rs))
      ⟨clearBitmaps mem (layout limit rs), []⟩ s) :
    HandsOutFree (layout limit rs) s :=
  marked_handsOutFree hd <| hr.invariant (fun _ ha => by cases ha)
    fun _ _ _ hm hok hs => step_marked hd hc hm hok hs

end Run

/-- Two regions that touch, the first with a whole number of bitmap bytes. -/
def touchingRegions : List (Nat × Nat) := [(0x100000, 8), (0x108000, 8)]

theorem touchingRegions_clean : Clean (layout 0x9000 touchingRegions) := by
  have hlen : (layout 0x9000 touchingRegions).length = 2 := rfl
  refine ⟨fun i j hij hj _ => ?_, fun i j hij hj k hk he => ?_, fun i j hij hj hwrap => ?_⟩
  · obtain ⟨rfl, rfl⟩ : i = 0 ∧ j = 1 := by omega
    simp [layout, touchingRegions]
  · obtain ⟨rfl, rfl⟩ : i = 0 ∧ j = 1 := by omega
    have h : 0x108000 + k * 4096 = 0x100000 + 8 * 4096 := he
    exact ⟨by omega, fun m hm hm' => by omega⟩
  · obtain ⟨rfl, rfl⟩ : i = 0 ∧ j = 1 := by omega
    simp [layout, touchingRegions, Region.limit, pageSize] at hwrap

theorem touchingRegions_disjoint : DisjointRegions (layout 0x9000 touchingRegions) := by
  simp only [DisjointRegions, touchingRegions, layout, Region.limit, pageSize,
    List.pairwise_cons, List.mem_cons, List.not_mem_nil, or_false, forall_eq, false_implies,
    implies_true, List.Pairwise.nil, and_true]
  omega

/-- The page where the two regions touch is reserved and handed back while the first page of
    the table is allocated; the next page is the second one. -/
theorem pages_handed_out_once_touching : ∃ s,
    Reaches (step (layout 0x9000 touchingRegions)) (Allowed (layout 0x9000 touchingRegions))
      ⟨clearBitmaps (fun _ => 0xff#8) (layout 0x9000 touchingRegions), []⟩ s ∧
    s.held = [0x100000] ∧
    (kpageAlloc s.mem (layout 0x9000 touchingRegions)).map Prod.fst = some 0x101000 ∧
    HandsOutFree (layout 0x9000 touchingRegions) s := by
  have hrun : (runChecked (step (layout 0x9000 touchingRegions))
      (Allowed (layout 0x9000 touchingRegions))
      ⟨clearBitmaps (fun _ => 0xff#8) (layout 0x9000 touchingRegions), []⟩
      [.alloc, .reserve 0x108000, .free 0x108000]).any (fun s => decide (s.held = [0x100000] ∧
        (kpageAlloc s.mem (layout 0x9000 touchingRegions)).map Prod.fst = some 0x101000)) =
      true := by decide +kernel
  obtain ⟨s, hr, hobs⟩ := exists_reaches_of_any hrun
  obtain ⟨hheld, hnext⟩ := of_decide_eq_true hobs
  exact ⟨s, hr, hheld, hnext, pages_handed_out_once _ _ _ touchingRegions_disjoint
    touchingRegions_clean s hr⟩

/-- Four pages leave the bitmap of the first region empty: both bitmaps are one byte. -/
def sharedByte : List (Nat × Nat) := [(0x100000, 4), (0x200000, 8)]

/-- Reserving and freeing the first page of the second region frees the first page of the
    first one, which is handed out a second time. -/
theorem page_handed_out_twice : DisjointRegions (layout 0x9000 sharedByte) ∧
    ¬ ∀ s, Reaches (step (layout 0x9000 sharedByte)) (Allowed (layout 0x9000 sharedByte))
      ⟨clearBitmaps (fun _ => 0#8) (layout 0x9000 sharedByte), []⟩ s →
      HandsOutFree (layout 0x9000 sharedByte) s := by
  refine ⟨?_, fun hall => ?_⟩
  · simp only [DisjointRegions, sharedByte, layout, Region.limit, pageSize,
      List.pairwise_cons, List.mem_cons, List.not_mem_nil, or_false, forall_eq, false_implies,
      implies_true, List.Pairwise.nil, and_true]
    omega
  · have hrun : (runChecked (step (layout 0x9000 sharedByte)) (Allowed (layout 0x9000 sharedByte))
        ⟨clearBitmaps (fun _ => 0#8) (layout 0x9000 sharedByte), []⟩
        [.alloc, .reserve 0x200000, .free 0x200000]).any (fun s => decide (0x100000 ∈ s.held ∧
          (kpageAlloc s.mem (layout 0x9000 sharedByte)).map Prod.fst = some 0x100000)) =
        true := by decide +kernel
    obtain ⟨s, hr, hobs⟩ := exists_reaches_of_any hrun
    obtain ⟨hheld, hnext⟩ := of_decide_eq_true hobs
    obtain ⟨⟨a, mem⟩, halloc, rfl⟩ := Option.map_eq_some_iff.mp hnext
    exact hall s hr _ mem halloc hheld

end Muse.Memory
