import Muse.Memory.PageHeap

/-!
# Runs of pages

`kmalloc_aligned_multi` counts the clear bits right before each page and stops behind the first run
of `cnt` of them. A run that ends with the last page is seen only after the loops, where `i * 32 +
j` is 32 pages beyond the end of that run, so other pages are marked and returned.
-/

namespace Muse.Memory

open Muse.Library

namespace PageHeap

variable {h h' : PageHeap} {v cnt : BitVec 32} {c k n contig : Nat}

/-! ## What the search is for -/

/-- None of the `c` pages from page `k` on was handed out. -/
def ClearRun (h : PageHeap) (c k : Nat) : Prop := ∀ i < c, ¬ h.Marked (k + i)

instance (h : PageHeap) (c k : Nat) : Decidable (h.ClearRun c k) :=
  inferInstanceAs (Decidable (∀ i < c, ¬ h.Marked (k + i)))

/-- The bitmap has room for `c` pages from page `k` on. -/
def RoomAt (h : PageHeap) (c k : Nat) : Prop := k + c ≤ h.bitmapCnt * 32 ∧ h.ClearRun c k

/-- A call hands out `cnt` pages that were not handed out before and marks these, or there is no run
    of `cnt` such pages. -/
def TakesRun (h : PageHeap) (cnt : BitVec 32) : Prop :=
  match h.kmallocAlignedMulti cnt with
  | some (v, h') => ∃ k, h.RoomAt cnt.toNat k ∧
      v = h.alignedStart + BitVec.ofNat 32 k * 4096#32 ∧
      h'.bitmapCnt = h.bitmapCnt ∧ h'.alignedStart = h.alignedStart ∧
      ∀ n, h'.Marked n ↔ h.Marked n ∨ k ≤ n ∧ n < k + cnt.toNat
  | none => ∀ k, ¬ h.RoomAt cnt.toNat k

/-! ## Marking -/

theorem markRange_fields (start : Nat) : ∀ c, (h.markRange start c).bitmapCnt = h.bitmapCnt ∧
    (h.markRange start c).alignedStart = h.alignedStart
  | 0 => ⟨rfl, rfl⟩
  | c + 1 => markRange_fields start c

theorem markRange_marked_iff (start c m : Nat) :
    (h.markRange start c).Marked m ↔ h.Marked m ∨ start ≤ m ∧ m < start + c := by
  induction c with
  | zero =>
      rw [markRange]
      exact ⟨Or.inl, fun hm => hm.resolve_right (by omega)⟩
  | succ c ih =>
      rw [markRange, mark_marked_iff, ih]
      constructor
      · rintro (rfl | hm | hm)
        · exact .inr (by omega)
        · exact .inl hm
        · exact .inr (by omega)
      · rintro (hm | hm)
        · exact .inr (.inl hm)
        · by_cases he : m = start + c
          · exact .inl he
          · exact .inr (.inr (by omega))

/-! ## The loops -/

/-- The test of the bit in the loop. -/
theorem clear_iff (x : BitVec 32) (j : Nat) : (x >>> j) &&& 1#32 = 0#32 ↔ x.getLsbD j = false := by
  constructor
  · intro h
    have := congrArg (fun y : BitVec 32 => y.getLsbD 0) h
    simpa using this
  · intro h
    ext i hi
    by_cases hi0 : i = 0
    · subst hi0
      simpa using h
    · simp [hi0]

theorem findRun_succ (left n contig : Nat) (c : Nat) : h.findRun c (left + 1) n contig =
    if contig = c then (contig, n / 32, n % 32)
    else if h.Marked n then h.findRun c left (n + 1) 0
    else h.findRun c left (n + 1) (contig + 1) := by
  rw [findRun]
  by_cases hm : h.Marked n
  · have : ¬ (h.pageBitmap (n / 32) >>> (n % 32)) &&& 1#32 = 0#32 := by
      rw [clear_iff, show (h.pageBitmap (n / 32)).getLsbD (n % 32) = true from hm]
      simp
    simp only [this, hm, if_false, if_true]
  · have : (h.pageBitmap (n / 32) >>> (n % 32)) &&& 1#32 = 0#32 := by
      rw [clear_iff]
      simpa [Marked, bitAt] using hm
    simp only [this, hm, if_false, if_true]

/-- Before page `n`, the counter is the number of clear bits right before that page, and no run has
    ended before. -/
structure Counted (h : PageHeap) (c n contig : Nat) : Prop where
  le : contig ≤ n
  le_cnt : contig ≤ c
  clear : h.ClearRun contig (n - contig)
  stop : contig = n ∨ h.Marked (n - contig - 1)
  none : ∀ k, k + c < n → ¬ h.ClearRun c k

/-- A run that ends right before page `n` is the one that was counted. -/
theorem Counted.ends (hc : h.Counted c n contig) (hk : k + c = n) (hrun : h.ClearRun c k) :
    contig = c := by
  by_contra hne
  have hle := hc.le
  have hlt : contig < c := Nat.lt_of_le_of_ne hc.le_cnt hne
  rcases hc.stop with hstop | hstop
  · omega
  · apply hrun (n - contig - 1 - k) (by omega)
    rwa [show k + (n - contig - 1 - k) = n - contig - 1 by omega]

theorem Counted.none_succ (hc : h.Counted c n contig) (hne : contig ≠ c) (hk : k + c < n + 1) :
    ¬ h.ClearRun c k := by
  intro hrun
  rcases Nat.lt_or_eq_of_le (Nat.le_of_lt_succ hk) with hlt | heq
  · exact hc.none k hlt hrun
  · exact hne (hc.ends heq hrun)

theorem Counted.marked (hc : h.Counted c n contig) (hne : contig ≠ c) (hm : h.Marked n) :
    h.Counted c (n + 1) 0 where
  le := Nat.zero_le _
  le_cnt := Nat.zero_le _
  clear := fun i hi => absurd hi (Nat.not_lt_zero i)
  stop := .inr hm
  none := fun _ hk => hc.none_succ hne hk

theorem Counted.clear_succ (hc : h.Counted c n contig) (hne : contig ≠ c) (hm : ¬ h.Marked n) :
    h.Counted c (n + 1) (contig + 1) where
  le := Nat.succ_le_succ hc.le
  le_cnt := Nat.lt_of_le_of_ne hc.le_cnt hne
  clear := by
    intro i hi
    have hle := hc.le
    rw [Nat.add_sub_add_right]
    by_cases he : i = contig
    · rwa [he, Nat.sub_add_cancel hle]
    · exact hc.clear i (by omega)
  stop := by
    have hstop := hc.stop
    rcases hstop with hstop | hstop
    · exact .inl (by omega)
    · refine .inr ?_
      rwa [Nat.add_sub_add_right]
  none := fun _ hk => hc.none_succ hne hk

/-- Page `k` starts the first run of `c` clear bits. -/
structure FirstRun (h : PageHeap) (c k : Nat) : Prop where
  clear : h.ClearRun c k
  first : ∀ l < k, ¬ h.ClearRun c l

/-- Where the loops stop: right behind the first run, or after the last page. -/
theorem findRun_cases (left : Nat) (hleft : n + left = h.bitmapCnt * 32)
    (hc : h.Counted c n contig) :
    (∃ k, h.findRun c left n contig = (c, (k + c) / 32, (k + c) % 32) ∧
        k + c < h.bitmapCnt * 32 ∧ h.FirstRun c k) ∨
      (∃ k, h.findRun c left n contig = (c, h.bitmapCnt, 32) ∧
        k + c = h.bitmapCnt * 32 ∧ h.FirstRun c k) ∨
      ((h.findRun c left n contig).1 ≠ c ∧ ∀ k, ¬ h.RoomAt c k) := by
  induction left generalizing n contig with
  | zero =>
      right
      rw [findRun]
      have hle := hc.le
      have hn : n = h.bitmapCnt * 32 := hleft
      by_cases he : contig = c
      · subst he
        exact .inl ⟨n - contig, rfl, by omega, hc.clear, fun l hl => hc.none l (by omega)⟩
      · refine .inr ⟨he, fun k hk => ?_⟩
        obtain ⟨hk, hrun⟩ := hk
        exact hc.none_succ he (by omega) hrun
  | succ left ih =>
      rw [findRun_succ]
      by_cases he : contig = c
      · subst he
        have hle := hc.le
        have hback : n - contig + contig = n := Nat.sub_add_cancel hle
        rw [if_pos rfl]
        refine .inl ⟨n - contig, by rw [hback], by omega, hc.clear, fun l hl => ?_⟩
        exact hc.none l (by omega)
      · rw [if_neg he]
        by_cases hm : h.Marked n
        · rw [if_pos hm]
          exact ih (by omega) (hc.marked he hm)
        · rw [if_neg hm]
          exact ih (by omega) (hc.clear_succ he hm)

theorem Counted.start (h : PageHeap) (c : Nat) : h.Counted c 0 0 where
  le := Nat.le_refl 0
  le_cnt := Nat.zero_le c
  clear := fun i hi => absurd hi (Nat.not_lt_zero i)
  stop := .inl rfl
  none := fun _ hk => absurd hk (Nat.not_lt_zero _)

theorem FirstRun.le (hk : h.FirstRun c k) {l : Nat} (hl : h.ClearRun c l) : k ≤ l :=
  Nat.le_of_not_lt fun hlt => hk.first l hlt hl

/-! ## A call -/

/-- What a call does, by the place `p` at which the loops stop with a run. -/
theorem kmallocAlignedMulti_eq {i j : Nat}
    (hrun : h.findRun cnt.toNat (h.bitmapCnt * 32) 0 0 = (cnt.toNat, i, j)) :
    h.kmallocAlignedMulti cnt =
      some (h.alignedStart +
          BitVec.ofNat 32 ((i * 32 + j + 2 ^ 32 - cnt.toNat) % 2 ^ 32) * 4096#32,
        h.markRange ((i * 32 + j + 2 ^ 32 - cnt.toNat) % 2 ^ 32)
          ((i * 32 + j) % 2 ^ 32 - (i * 32 + j + 2 ^ 32 - cnt.toNat) % 2 ^ 32)) := by
  have hlt := cnt.isLt
  have hold : (i * 32 + j + 2 ^ 32 - cnt.toNat) % 2 ^ 32 / 32 * 32 +
      (j + 2 ^ 32 - cnt.toNat) % 2 ^ 32 % 32 = (i * 32 + j + 2 ^ 32 - cnt.toNat) % 2 ^ 32 := by
    omega
  rw [kmallocAlignedMulti, hrun]
  simp only [if_true, hold]

theorem kmallocAlignedMulti_none
    (hne : (h.findRun cnt.toNat (h.bitmapCnt * 32) 0 0).1 ≠ cnt.toNat) :
    h.kmallocAlignedMulti cnt = none := by
  unfold kmallocAlignedMulti
  exact if_neg hne

/-- The run that is found ends before the last page. -/
theorem kmallocAlignedMulti_inside
    (hrun : h.findRun cnt.toNat (h.bitmapCnt * 32) 0 0 =
      (cnt.toNat, (k + cnt.toNat) / 32, (k + cnt.toNat) % 32))
    (hlt : k + cnt.toNat < 2 ^ 32) :
    h.kmallocAlignedMulti cnt =
      some (h.alignedStart + BitVec.ofNat 32 k * 4096#32, h.markRange k cnt.toNat) := by
  have hcnt := cnt.isLt
  have hpos : (k + cnt.toNat) / 32 * 32 + (k + cnt.toNat) % 32 = k + cnt.toNat := by omega
  have hstart : (k + cnt.toNat + 2 ^ 32 - cnt.toNat) % 2 ^ 32 = k := by omega
  have hlen : (k + cnt.toNat) % 2 ^ 32 - k = cnt.toNat := by omega
  rw [kmallocAlignedMulti_eq hrun, hpos, hstart, hlen]

/-- Where the search stops `extra` pages behind the end of the first run or where the end is not
    below `2 ^ 32`, other pages are marked than those of a run. -/
theorem not_takesRun {i j extra : Nat} (hk : h.FirstRun cnt.toNat k) (hpos : 0 < cnt.toNat)
    (hrun : h.findRun cnt.toNat (h.bitmapCnt * 32) 0 0 = (cnt.toNat, i, j))
    (hij : i * 32 + j = k + cnt.toNat + extra)
    (hextra : extra = 32 ∧ k + cnt.toNat = h.bitmapCnt * 32 ∨ extra = 0 ∧ 2 ^ 32 ≤ k + cnt.toNat) :
    ¬ h.TakesRun cnt := by
  intro htake
  have hcnt := cnt.isLt
  rw [TakesRun, kmallocAlignedMulti_eq hrun, hij] at htake
  obtain ⟨l, ⟨hl, hclear⟩, -, -, -, hmarks⟩ := htake
  have hkl := hk.le hclear
  -- the first and the last page of the run that is handed out were not marked before
  have hmem : ∀ m, l ≤ m → m < l + cnt.toNat →
      (k + cnt.toNat + extra + 2 ^ 32 - cnt.toNat) % 2 ^ 32 ≤ m ∧
        m < (k + cnt.toNat + extra) % 2 ^ 32 := by
    intro m hlo hhi
    have hnot : ¬ h.Marked m := by
      have := hclear (m - l) (by omega)
      rwa [show l + (m - l) = m by omega] at this
    have := ((markRange_marked_iff _ _ m).mp ((hmarks m).mpr (.inr ⟨hlo, hhi⟩))).resolve_left hnot
    omega
  have hfirst := hmem l (Nat.le_refl l) (by omega)
  have hlast := hmem (l + cnt.toNat - 1) (by omega) (by omega)
  omega

/-- **Runs of pages.** A call takes a run of `cnt` pages and marks exactly these, or finds that
    there is none, if and only if there is none or one ends before the last page of the bitmap (and
    before page `2 ^ 32`). -/
theorem takesRun_iff (h : PageHeap) (cnt : BitVec 32) (hpos : 0 < cnt.toNat) :
    h.TakesRun cnt ↔
      (∀ k, ¬ h.RoomAt cnt.toNat k) ∨
        ∃ k, h.ClearRun cnt.toNat k ∧ k + cnt.toNat < h.bitmapCnt * 32 ∧
          k + cnt.toNat < 2 ^ 32 := by
  rcases findRun_cases (h.bitmapCnt * 32) (Nat.zero_add _) (Counted.start h cnt.toNat) with
    ⟨k, hrun, hlt, hk⟩ | ⟨k, hrun, hend, hk⟩ | ⟨hne, hnone⟩
  · have hpos' : (k + cnt.toNat) / 32 * 32 + (k + cnt.toNat) % 32 = k + cnt.toNat + 0 := by omega
    by_cases hword : k + cnt.toNat < 2 ^ 32
    · constructor
      · exact fun _ => .inr ⟨k, hk.clear, hlt, hword⟩
      · intro _
        rw [TakesRun, kmallocAlignedMulti_inside hrun hword]
        obtain ⟨hcnt, hstart⟩ := markRange_fields (h := h) k cnt.toNat
        exact ⟨k, ⟨Nat.le_of_lt hlt, hk.clear⟩, rfl, hcnt, hstart, markRange_marked_iff k _⟩
    · constructor
      · intro htake
        exact absurd htake (not_takesRun hk hpos hrun hpos' (.inr ⟨rfl, by omega⟩))
      · rintro (hnone | ⟨l, hl, -, hlt'⟩)
        · exact absurd ⟨Nat.le_of_lt hlt, hk.clear⟩ (hnone k)
        · have := hk.le hl
          omega
  · constructor
    · intro htake
      have hij : h.bitmapCnt * 32 + 32 = k + cnt.toNat + 32 := by omega
      exact absurd htake (not_takesRun hk hpos hrun hij (.inl ⟨rfl, hend⟩))
    · rintro (hnone | ⟨l, hl, hlt, -⟩)
      · exact absurd ⟨Nat.le_of_eq hend, hk.clear⟩ (hnone k)
      · have := hk.le hl
        omega
  · constructor
    · exact fun _ => .inl hnone
    · intro _
      rw [TakesRun, kmallocAlignedMulti_none hne]
      exact hnone

/-- Two words of a bitmap, in which the pages 30 to 33 are the first four that are next to each
    other. -/
def gapsHeap : PageHeap :=
  ⟨fun w => if w = 0 then 0x3FFFFF1F#32 else 0xFFFFFFF0#32, 2, 0x80400000#32⟩

theorem takesRun_iff_gaps : gapsHeap.TakesRun 4#32 ∧
    (gapsHeap.kmallocAlignedMulti 4#32).map Prod.fst = some 0x8041E000#32 :=
  ⟨(takesRun_iff gapsHeap 4#32 (by decide)).mpr (.inr ⟨30, by decide, by decide, by decide⟩),
    by decide⟩

/-- In a bitmap of one word with only the last bit clear, the last page is there to be taken. -/
def lastPageHeap : PageHeap := ⟨fun _ => 0x7FFFFFFF#32, 1, 0x80400000#32⟩

/-- The address behind the heap is returned, and the bitmap stays as it is. -/
theorem last_page_missed :
    ¬ ∀ (h : PageHeap) (cnt : BitVec 32), 0 < cnt.toNat → h.TakesRun cnt := by
  intro hall
  have hk : lastPageHeap.FirstRun (1#32 : BitVec 32).toNat 31 := ⟨by decide, by decide⟩
  have hrun : lastPageHeap.findRun (1#32 : BitVec 32).toNat 32 0 0 = (1, 1, 32) := by decide
  exact not_takesRun hk (by decide) hrun (show 1 * 32 + 32 = 31 + 1 + 32 from rfl)
    (.inl ⟨rfl, rfl⟩) (hall lastPageHeap 1#32 (by decide))

end PageHeap

end Muse.Memory
