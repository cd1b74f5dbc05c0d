import Mathlib.Data.List.Nodup
import Muse.Elf.Proofs.Lockstep

/-!
# The image of a segment

Which byte `load_elf_data` leaves at each address of a segment. The loop that copies counts from
`p_offset`, and so does the loop that clears: its guard compares an offset in the page with
an offset in the file. It stops too early where the difference wraps.
-/

namespace Muse.Elf

open Muse.Library Muse.Paging

/-! ## What is to be shown -/

/-- The pages `scrolls` hold the byte `b` for the address `v`. -/
def StoresAt (scrolls : List Scroll) (memory : BitVec 32 → Nat → BitVec 8) (v : BitVec 32)
    (b : BitVec 8) : Prop :=
  ∃ scr ∈ scrolls, scr.vaddr = alignPgDown v ∧ memory scr.page (v % pageSize).toNat = b

/-- The pages `scrolls` hold the segment: the bytes of the file, and zeros behind them. -/
def Image (contents : Bytes) (h : ProgramHeader) (scrolls : List Scroll)
    (memory : BitVec 32 → Nat → BitVec 8) : Prop :=
  ∀ k < h.memsz.toNat, StoresAt scrolls memory (h.vaddr + BitVec.ofNat 32 k)
    (if k < h.filesz.toNat then contents (h.offset.toNat + k) else 0#8)

/-- The scrolls `own` that `load_elf_data` takes for `h`, the header between `pre` and `post`, are
    the pages of its segment in order. No physical page belongs to two scrolls, and there is a
    scroll for every page. -/
structure OwnPages (elf : ElfInfo) (pre post : List ProgramHeader) (h : ProgramHeader)
    (own : List Scroll) : Prop where
  headers : programHeaders elf.contents = pre ++ h :: post
  taken : ∃ before after, elf.scrolls = before ++ (own ++ after) ∧
    before.length = (allPages pre).length
  vaddrs : own.map (·.vaddr) = (List.range h.pageCount.toNat).map h.pageAddr
  fresh : (elf.scrolls.map (·.page)).Nodup
  enough : (allPages (programHeaders elf.contents)).length ≤ elf.scrolls.length

/-! ## One page -/

variable {contents : Bytes} {h : ProgramHeader}

/-- The guard of the loop that clears, at the offset `d` in the page. -/
def ProgramHeader.Clearing (h : ProgramHeader) (d : Nat) : Prop :=
  BitVec.ofNat 32 d - h.offset < h.memsz

instance (h : ProgramHeader) (d : Nat) : Decidable (h.Clearing d) :=
  inferInstanceAs (Decidable (_ < _))

theorem ofNat_lt_pageSize {d : Nat} (hd : d ≤ 4096) : BitVec.ofNat 32 d < pageSize ↔ d < 4096 := by
  rw [BitVec.lt_def, pageSize, BitVec.toNat_ofNat, BitVec.toNat_ofNat]
  omega

/-- The loop that copies ends with the file or with the page. -/
theorem copyFile_spec (hfile : h.offset.toNat + h.filesz.toNat < 2 ^ 32) (fuel : Nat) :
    ∀ (d j n : Nat) (page : Bytes), 4096 ≤ d + fuel → d ≤ 4096 → j ≤ h.filesz.toNat →
      n = min (h.filesz.toNat - j) (4096 - d) →
      copyFile contents h fuel ⟨page, BitVec.ofNat 32 d, h.offset + BitVec.ofNat 32 j⟩ =
        ⟨page.splice d n fun i => contents (h.offset.toNat + j + i), BitVec.ofNat 32 (d + n),
          h.offset + BitVec.ofNat 32 (j + n)⟩ := by
  induction fuel with
  | zero =>
      intro d j n page hfuel hd hj hn
      obtain rfl : n = 0 := by omega
      rw [copyFile, Bytes.splice_zero]
      rfl
  | succ fuel ih =>
      intro d j n page hfuel hd hj hn
      have hsub : h.offset + BitVec.ofNat 32 j - h.offset = BitVec.ofNat 32 j := by
        rw [BitVec.add_comm, BitVec.add_sub_cancel]
      have hjlt : BitVec.ofNat 32 j < h.filesz ↔ j < h.filesz.toNat := by
        rw [BitVec.lt_def, BitVec.toNat_ofNat]
        have := h.filesz.isLt
        omega
      have hiff := and_congr hjlt (ofNat_lt_pageSize hd)
      rw [copyFile]
      dsimp only
      rw [hsub]
      by_cases hguard : j < h.filesz.toNat ∧ d < 4096
      · have hread : (h.offset + BitVec.ofNat 32 j).toNat = h.offset.toNat + j := by
          rw [BitVec.toNat_add, BitVec.toNat_ofNat]
          omega
        have hd32 : (BitVec.ofNat 32 d).toNat = d := by
          rw [BitVec.toNat_ofNat]
          omega
        obtain ⟨n', rfl⟩ : ∃ n', n = n' + 1 := ⟨n - 1, by omega⟩
        rw [if_pos (hiff.mpr hguard), hread, hd32, ofNat_succ, BitVec.add_assoc, ofNat_succ,
          ih (d + 1) (j + 1) n' _ (by omega) (by omega) (by omega) (by omega),
          ← Bytes.splice_update, Nat.add_right_comm d, Nat.add_right_comm j]
        simp only [Nat.add_zero, Nat.add_assoc, Nat.add_comm 1]
      · obtain rfl : n = 0 := by omega
        rw [if_neg fun hg => hguard (hiff.mp hg), Bytes.splice_zero]
        rfl

/-- The loop that clears ends where its guard fails for the first time, or with the page. -/
theorem clearRest_spec (fuel : Nat) : ∀ (d : Nat) (page : Bytes) (f : BitVec 32),
    4096 ≤ d + fuel → d ≤ 4096 → ∃ n, d + n ≤ 4096 ∧ (∀ i < n, h.Clearing (d + i)) ∧
      (d + n < 4096 → ¬ h.Clearing (d + n)) ∧
      clearRest h fuel ⟨page, BitVec.ofNat 32 d, f⟩ =
        ⟨page.splice d n fun _ => 0#8, BitVec.ofNat 32 (d + n), f⟩ := by
  induction fuel with
  | zero =>
      intro d page f hfuel hd
      refine ⟨0, hd, nofun, by omega, ?_⟩
      rw [clearRest, Bytes.splice_zero]
      rfl
  | succ fuel ih =>
      intro d page f hfuel hd
      have hiff : BitVec.ofNat 32 d - h.offset < h.memsz ∧ BitVec.ofNat 32 d < pageSize ↔
          h.Clearing d ∧ d < 4096 := and_congr Iff.rfl (ofNat_lt_pageSize hd)
      rw [clearRest]
      dsimp only
      by_cases hguard : h.Clearing d ∧ d < 4096
      · have hd32 : (BitVec.ofNat 32 d).toNat = d := by
          rw [BitVec.toNat_ofNat]
          omega
        obtain ⟨n, hend, hall, hstop, heq⟩ :=
          ih (d + 1) (Function.update page d 0#8) f (by omega) (by omega)
        rw [Nat.add_right_comm, Nat.add_assoc] at hend hstop
        refine ⟨n + 1, hend, ?_, hstop, ?_⟩
        · intro i hi
          cases i with
          | zero => exact hguard.1
          | succ i =>
              rw [← Nat.add_assoc, Nat.add_right_comm]
              exact hall i (by omega)
        · rw [if_pos (hiff.mpr hguard), ofNat_succ, hd32, heq, ← Bytes.splice_update,
            Nat.add_right_comm, Nat.add_assoc]
      · refine ⟨0, hd, nofun, fun hlt hc => hguard ⟨hc, hlt⟩, ?_⟩
        rw [if_neg fun hg => hguard (hiff.mp hg), Bytes.splice_zero]
        rfl

/-- What page `i` of the segment holds: at the offset `d`, the byte `k` of the segment. `old` is
    the page before. -/
structure Filled (contents : Bytes) (h : ProgramHeader) (i : Nat) (old page : Nat → BitVec 8) :
    Prop where
  copied : ∀ k d, 4096 * i + d = h.vaddr.toNat % 4096 + k → d < 4096 → k < h.filesz.toNat →
    page d = contents (h.offset.toNat + k)
  cleared : ∀ k d, 4096 * i + d = h.vaddr.toNat % 4096 + k → d < 4096 → h.filesz.toNat ≤ k →
    (∀ k' d', 4096 * i + d' = h.vaddr.toNat % 4096 + k' → h.filesz.toNat ≤ k' → d' ≤ d →
      h.Clearing d') → page d = 0#8
  left : ∀ k d, 4096 * i + d = h.vaddr.toNat % 4096 + k → d < 4096 → h.filesz.toNat ≤ k →
    ¬ h.Clearing d → page d = old d

/-- The offset in page `i` from which on it is filled. -/
def ProgramHeader.pageStart (h : ProgramHeader) (i : Nat) : Nat :=
  if i = 0 then h.vaddr.toNat % 4096 else 0

/-- The bytes of the file that are copied in front of page `i`. -/
def ProgramHeader.copied (h : ProgramHeader) (i : Nat) : Nat :=
  min h.filesz.toNat (4096 * i - h.vaddr.toNat % 4096)

/-- Both loops on page `i`. -/
theorem page_filled (contents : Bytes) (hfile : h.offset.toNat + h.filesz.toNat < 2 ^ 32) (i : Nat)
    (page : Bytes) : ∃ c, clearRest h 4096 (copyFile contents h 4096
        ⟨page, BitVec.ofNat 32 (h.pageStart i), h.offset + BitVec.ofNat 32 (h.copied i)⟩) = c ∧
      c.fileOffset = h.offset + BitVec.ofNat 32 (h.copied (i + 1)) ∧
      Filled contents h i page c.page := by
  obtain ⟨o, ho⟩ : ∃ o, o = h.vaddr.toNat % 4096 := ⟨_, rfl⟩
  have ho' : o < 4096 := by omega
  obtain ⟨d₀, hd₀⟩ : ∃ d₀, d₀ = h.pageStart i := ⟨_, rfl⟩
  obtain ⟨j, hj⟩ : ∃ j, j = h.copied i := ⟨_, rfl⟩
  obtain ⟨n, hn⟩ : ∃ n, n = min (h.filesz.toNat - j) (4096 - d₀) := ⟨_, rfl⟩
  have hstart : i = 0 ∧ d₀ = o ∨ 0 < i ∧ d₀ = 0 := by
    rw [hd₀, ProgramHeader.pageStart, ← ho]
    split <;> omega
  have hcopied : j = min h.filesz.toNat (4096 * i - o) := by
    rw [hj, ProgramHeader.copied, ← ho]
  have hnext : j + n = h.copied (i + 1) := by
    rw [ProgramHeader.copied, ← ho]
    omega
  -- the span that is copied holds the bytes of the file, and ends with them or with the page
  have hcopy : ∀ k d, 4096 * i + d = o + k → d < 4096 → k < h.filesz.toNat →
      d₀ ≤ d ∧ d < d₀ + n ∧ j + (d - d₀) = k := by
    intro k d hk hd hlt
    rcases hstart with ⟨rfl, rfl⟩ | ⟨hi, rfl⟩ <;> omega
  have hbehind : ∀ k d, 4096 * i + d = o + k → h.filesz.toNat ≤ k → d₀ + n ≤ d := by
    intro k d hk hfilesz
    rcases hstart with ⟨rfl, rfl⟩ | ⟨hi, rfl⟩ <;> omega
  have hwhole : d₀ + n < 4096 → o + h.filesz.toNat ≤ 4096 * i + (d₀ + n) := by
    intro hlt
    rcases hstart with ⟨rfl, rfl⟩ | ⟨hi, rfl⟩ <;> omega
  have hpage : d₀ ≤ 4096 ∧ d₀ + n ≤ 4096 := by
    rcases hstart with ⟨-, rfl⟩ | ⟨-, rfl⟩ <;> omega
  have hjle : j ≤ h.filesz.toNat := hcopied ▸ Nat.min_le_left ..
  rw [← hd₀, ← hj, copyFile_spec hfile 4096 d₀ j n page (by omega) hpage.1 hjle hn]
  clear hstart hcopied hn
  obtain ⟨n', hend, hall, hstop, heq⟩ := clearRest_spec (h := h) 4096 (d₀ + n)
    (page.splice d₀ n fun i => contents (h.offset.toNat + j + i))
    (h.offset + BitVec.ofNat 32 (j + n)) (by omega) hpage.2
  refine ⟨_, heq, ?_, ?_, ?_, ?_⟩
  · rw [hnext]
  · intro k d hk hd hlt
    rw [← ho] at hk
    dsimp only
    obtain ⟨hlo, hhi, hfrom⟩ := hcopy k d hk hd hlt
    rw [Bytes.splice_of_not_mem (.inl hhi), Bytes.splice_of_mem hlo hhi, Nat.add_assoc, hfrom]
  · intro k d hk hd hfilesz hclear
    rw [← ho] at hk hclear
    dsimp only
    have hlo := hbehind k d hk hfilesz
    by_cases hd' : d < d₀ + n + n'
    · rw [Bytes.splice_of_mem hlo hd']
    · -- the loop would have stopped at an offset with its guard true
      have hfile := hwhole (by omega)
      refine absurd (hclear (4096 * i + (d₀ + n + n') - o) (d₀ + n + n') ?_ ?_ ?_)
        (hstop ?_) <;> omega
  · intro k d hk hd hfilesz hnot
    rw [← ho] at hk
    dsimp only
    have hlo := hbehind k d hk hfilesz
    have hd' : d₀ + n + n' ≤ d := by
      by_contra hlt
      have hin := hall (d - (d₀ + n)) (by omega)
      rw [Nat.add_sub_cancel' hlo] at hin
      exact hnot hin
    rw [Bytes.splice_of_not_mem (.inr hd'), Bytes.splice_of_not_mem (.inr hlo)]

/-! ## The pages of a segment -/

/-- The rounds over the pages of a segment: each one is filled, and no other page is written. -/
theorem loadPages_filled (contents : Bytes)
    (hfile : h.offset.toNat + h.filesz.toNat < 2 ^ 32)
    (own rest : List Scroll) (hfresh : (own.map (·.page)).Nodup) (i : Nat) (s : Loader)
    (hscr : s.currentScr = own ++ rest) : ∃ t, loadPages contents h own.length i
        (BitVec.ofNat 32 (h.pageStart i)) (h.offset + BitVec.ofNat 32 (h.copied i)) s = some t ∧
      t.currentScr = rest ∧ (∀ p ∉ own.map (·.page), t.memory p = s.memory p) ∧
      ∀ j scr, own[j]? = some scr →
        Filled contents h (i + j) (s.memory scr.page) (t.memory scr.page) := by
  induction own generalizing i s with
  | nil => exact ⟨s, rfl, hscr, fun _ _ => rfl, nofun⟩
  | cons scr own ih =>
      obtain ⟨hnew, hfresh⟩ := List.nodup_cons.mp hfresh
      obtain ⟨c, hc, hoffset, hfilled⟩ := page_filled contents hfile i
        (s.memory scr.page)
      obtain ⟨next, hnext⟩ : ∃ next : Loader, next = ⟨own ++ rest,
        Function.update s.memory scr.page c.page, s.visits ++ [(h, i, scr)]⟩ := ⟨_, rfl⟩
      obtain ⟨t, ht, hrest, hframe, hpages⟩ := ih hfresh (i + 1) next (by rw [hnext])
      have hmem : ∀ p, p ≠ scr.page → next.memory p = s.memory p := fun p hp => by
        rw [hnext]
        exact Function.update_of_ne hp ..
      refine ⟨t, ?_, hrest, ?_, ?_⟩
      · rw [List.length_cons, loadPages, hscr, List.cons_append]
        dsimp only
        rw [hc, ← hnext, hoffset]
        exact ht
      · intro p hp
        obtain ⟨hp, hown⟩ := List.ne_and_not_mem_of_not_mem_cons hp
        rw [hframe p hown, hmem p hp]
      · intro j scr' hj
        cases j with
        | zero =>
            obtain rfl : scr = scr' := Option.some.inj hj
            have hsame : t.memory scr.page = c.page := by
              rw [hframe _ hnew, hnext]
              exact Function.update_self ..
            rw [hsame]
            exact hfilled
        | succ j =>
            have hown : scr' ∈ own := List.mem_of_getElem? hj
            have hne : scr'.page ≠ scr.page := fun he =>
              hnew (List.mem_map.mpr ⟨scr', hown, he⟩)
            have := hpages j scr' hj
            rw [hmem _ hne, Nat.add_assoc, Nat.add_comm 1 j] at this
            exact this

theorem loadHeader_filled (contents : Bytes)
    (hfile : h.offset.toNat + h.filesz.toNat < 2 ^ 32)
    (hload : h.type = ptLoad) {own rest : List Scroll} (hlen : own.length = h.pageCount.toNat)
    (hfresh : (own.map (·.page)).Nodup) {s : Loader} (hscr : s.currentScr = own ++ rest) :
    ∃ t, loadHeader contents s h = some t ∧ t.currentScr = rest ∧
      ∀ j scr, own[j]? = some scr →
        Filled contents h j (s.memory scr.page) (t.memory scr.page) := by
  obtain ⟨t, ht, hrest, -, hpages⟩ := loadPages_filled contents hfile own rest hfresh 0
    s hscr
  have hstart : h.vaddr - h.firstPage = BitVec.ofNat 32 (h.pageStart 0) := by
    apply BitVec.eq_of_toNat_eq
    rw [BitVec.toNat_sub, firstPage_toNat, ProgramHeader.pageStart, if_pos rfl,
      BitVec.toNat_ofNat]
    have := h.vaddr.isLt
    omega
  have hcopied : h.offset = h.offset + BitVec.ofNat 32 (h.copied 0) := by
    simp [ProgramHeader.copied]
  refine ⟨t, ?_, hrest, ?_⟩
  · rw [loadHeader, if_neg (not_not_intro hload), ← hlen, hstart]
    conv_lhs => rw [hcopied]
    exact ht
  · intro j scr hj
    have := hpages j scr hj
    rw [Nat.zero_add] at this
    exact this

/-! ## The other segments -/

/-- Filling pages writes the pages of the scrolls that are taken and no others. -/
theorem loadPages_frame (n i : Nat) (dataOffset fileOffset : BitVec 32) (s t : Loader)
    (ht : loadPages contents h n i dataOffset fileOffset s = some t) :
    ∃ taken, s.currentScr = taken ++ t.currentScr ∧ taken.length = n ∧
      ∀ p ∉ taken.map (·.page), t.memory p = s.memory p := by
  induction n generalizing i dataOffset fileOffset s with
  | zero =>
      cases ht
      exact ⟨[], rfl, rfl, fun _ _ => rfl⟩
  | succ n ih =>
      rw [loadPages] at ht
      cases hscr : s.currentScr with
      | nil =>
          rw [hscr] at ht
          cases ht
      | cons scr rest =>
          rw [hscr] at ht
          obtain ⟨taken, hrest, hlen, hframe⟩ := ih _ _ _ _ ht
          refine ⟨scr :: taken, ?_, by rw [List.length_cons, hlen], ?_⟩
          · rw [List.cons_append, ← hrest]
          · intro p hp
            obtain ⟨hp, htaken⟩ := List.ne_and_not_mem_of_not_mem_cons hp
            rw [hframe p htaken]
            exact Function.update_of_ne hp ..

theorem loadHeaders_frame (headers : List ProgramHeader) (s t : Loader)
    (ht : headers.foldlM (loadHeader contents) s = some t) :
    ∃ taken, s.currentScr = taken ++ t.currentScr ∧ taken.length = (allPages headers).length ∧
      ∀ p ∉ taken.map (·.page), t.memory p = s.memory p := by
  induction headers generalizing s with
  | nil =>
      cases ht
      exact ⟨[], rfl, rfl, fun _ _ => rfl⟩
  | cons h headers ih =>
      rw [List.foldlM_cons] at ht
      obtain ⟨u, hu, ht⟩ := Option.bind_eq_some_iff.mp ht
      obtain ⟨taken', hscr', hlen', hframe'⟩ := ih u ht
      by_cases hload : h.type = ptLoad
      · rw [loadHeader, if_neg (not_not_intro hload)] at hu
        obtain ⟨taken, hscr, hlen, hframe⟩ := loadPages_frame _ _ _ _ _ _ hu
        refine ⟨taken ++ taken', ?_, ?_, ?_⟩
        · rw [hscr, hscr', List.append_assoc]
        · simp [allPages, hload, hlen, hlen', segmentPages]
        · intro p hp
          rw [List.map_append, List.mem_append, not_or] at hp
          rw [hframe' p hp.2, hframe p hp.1]
      · rw [loadHeader, if_pos hload] at hu
        cases hu
        exact ⟨taken', hscr', by simp [allPages, hload, hlen'], hframe'⟩

theorem allPages_append (headers headers' : List ProgramHeader) :
    allPages (headers ++ headers') = allPages headers ++ allPages headers' := by
  simp [allPages]

section Whole

variable {elf : ElfInfo} {pre post : List ProgramHeader} {own : List Scroll}

/-- What the pages of the segment hold after the whole of `load_elf_data`. -/
theorem OwnPages.filled (hown : OwnPages elf pre post h own) (hload : h.type = ptLoad)
    (hfile : h.offset.toNat + h.filesz.toNat < 2 ^ 32) (memory : BitVec 32 → Nat → BitVec 8) :
    ∃ s, loadElfData elf memory = some s ∧ ∀ j scr, own[j]? = some scr →
      Filled elf.contents h j (memory scr.page) (s.memory scr.page) := by
  obtain ⟨before, after, hscrolls, hbefore⟩ := hown.taken
  have hlen : own.length = h.pageCount.toNat := by
    simpa using congrArg List.length hown.vaddrs
  have hfresh := hown.fresh
  rw [hscrolls, List.map_append, List.map_append] at hfresh
  have hapart := List.disjoint_of_nodup_append hfresh
  have hapart' := List.disjoint_of_nodup_append hfresh.of_append_right
  have hnodupOwn := hfresh.of_append_right.of_append_left
  have henough := hown.enough
  rw [hown.headers, ← List.singleton_append, allPages_append, allPages_append, hscrolls,
    List.length_append, List.length_append, List.length_append, List.length_append] at henough
  have hone : (allPages [h]).length = own.length := by
    simp [allPages, hload, segmentPages, hlen]
  -- the headers in front take the scrolls in front
  obtain ⟨u, hu⟩ := Option.isSome_iff_exists.mp
    ((loadHeaders_spec elf.contents pre ⟨elf.scrolls, memory, []⟩).2
      (by rw [hscrolls, List.length_append]; omega))
  obtain ⟨taken, htaken, htakenLen, hframe⟩ := loadHeaders_frame pre _ u hu
  obtain ⟨rfl, hucur⟩ := List.append_inj (hscrolls.symm.trans htaken) (by omega)
  obtain ⟨t, ht, htcur, hfilled⟩ :=
    loadHeader_filled elf.contents hfile hload hlen hnodupOwn hucur.symm
  -- those behind it take the scrolls behind
  obtain ⟨s, hs⟩ := Option.isSome_iff_exists.mp ((loadHeaders_spec elf.contents post t).2
    (by rw [htcur]; omega))
  obtain ⟨taken', htaken', -, hframe'⟩ := loadHeaders_frame post t s hs
  rw [htcur] at htaken'
  refine ⟨s, ?_, ?_⟩
  · rw [loadElfData, hown.headers, List.foldlM_append, hu, Option.bind_eq_bind, Option.bind_some,
      List.foldlM_cons, ht, Option.bind_eq_bind, Option.bind_some, hs]
  · intro j scr hj
    have hmem : scr.page ∈ own.map (·.page) := List.mem_map_of_mem (List.mem_of_getElem? hj)
    have hbefore' : scr.page ∉ before.map (·.page) := fun hm =>
      hapart hm (List.mem_append_left _ hmem)
    have hafter : scr.page ∉ taken'.map (·.page) := fun hm => by
      refine hapart' hmem ?_
      rw [htaken', List.map_append]
      exact List.mem_append_left _ hm
    have := hfilled j scr hj
    rw [hframe _ hbefore'] at this
    rw [hframe' _ hafter]
    exact this

/-! ## When the image is right -/

/-- The byte `k` of the segment is byte `d` of page `j`. -/
theorem vaddr_add_toNat (hfits : h.Fits) {k : Nat} (hk : k < h.memsz.toNat) :
    (h.vaddr + BitVec.ofNat 32 k).toNat = h.vaddr.toNat + k := by
  have := h.memsz.isLt
  have hend : h.vaddr.toNat + h.memsz.toNat < 2 ^ 32 := hfits
  rw [BitVec.toNat_add, BitVec.toNat_ofNat]
  omega

theorem page_of_byte (hfits : h.Fits) {k j d : Nat} (hk : k < h.memsz.toNat) (hd : d < 4096)
    (hpos : 4096 * j + d = h.vaddr.toNat % 4096 + k) :
    alignPgDown (h.vaddr + BitVec.ofNat 32 k) = h.pageAddr j ∧
      ((h.vaddr + BitVec.ofNat 32 k) % pageSize).toNat = d := by
  have hsum := vaddr_add_toNat hfits hk
  constructor
  · rw [alignPgDown_eq, hsum, pageAddr_eq]
    congr 1
    omega
  · have hmod : (h.vaddr.toNat + k) % 4096 = d := by omega
    rw [BitVec.toNat_umod, hsum]
    exact hmod

/-- The pages of the segment have different addresses, all below the end of the address space. -/
theorem pageCount_bound (hfits : h.Fits) :
    h.vaddr.toNat / 4096 + h.pageCount.toNat ≤ 2 ^ 20 := by
  have hend := vaddrEnd_toNat hfits
  have hlt := h.vaddrEnd.isLt
  have := h.vaddr.isLt
  rw [pageCount_toNat hfits]
  split <;> omega

/-- The byte that the own pages hold for an address is the byte of one page. -/
theorem OwnPages.storesAt_iff (hown : OwnPages elf pre post h own) (hfits : h.Fits)
    {memory : BitVec 32 → Nat → BitVec 8} {b : BitVec 8} {k j d : Nat} {scr : Scroll}
    (hk : k < h.memsz.toNat) (hd : d < 4096) (hpos : 4096 * j + d = h.vaddr.toNat % 4096 + k)
    (hj : own[j]? = some scr) :
    StoresAt own memory (h.vaddr + BitVec.ofNat 32 k) b ↔ memory scr.page d = b := by
  obtain ⟨hpage, hoff⟩ := page_of_byte hfits hk hd hpos
  have hlen : own.length = h.pageCount.toNat := by
    simpa using congrArg List.length hown.vaddrs
  have haddr : ∀ i scr', own[i]? = some scr' → i < h.pageCount.toNat ∧
      scr'.vaddr = h.pageAddr i := by
    intro i scr' hi
    have hlt := hlen ▸ (List.getElem?_eq_some_iff.mp hi).1
    have := congrArg (·[i]?) hown.vaddrs
    simp only [List.getElem?_map, hi, Option.map_some, List.getElem?_range hlt,
      Option.some.injEq] at this
    exact ⟨hlt, this⟩
  have hbound := pageCount_bound hfits
  rw [StoresAt, hpage, hoff]
  constructor
  · rintro ⟨scr', hmem, haddr', hb⟩
    obtain ⟨i, hi⟩ := List.mem_iff_getElem?.mp hmem
    obtain ⟨hilt, hia⟩ := haddr i scr' hi
    obtain ⟨hjlt, -⟩ := haddr j scr hj
    have hij : i = j := by
      have := congrArg BitVec.toNat (hia.symm.trans haddr')
      rw [pageAddr_eq, pageAddr_eq, pageNo_toNat (by omega), pageNo_toNat (by omega)] at this
      omega
    rw [hij, hj] at hi
    rw [Option.some.inj hi]
    exact hb
  · intro hb
    exact ⟨scr, List.mem_of_getElem? hj, (haddr j scr hj).2, hb⟩

/-- Every byte of the segment lies in one of the pages that are taken, unless these wrap. -/
theorem OwnPages.exists_page (hown : OwnPages elf pre post h own) (hfits : h.Fits)
    (hlast : 0xFFFFF000 < h.vaddrEnd.toNat → 4096 ≤ h.vaddr.toNat) {k : Nat}
    (hk : k < h.memsz.toNat) : ∃ j d scr, d < 4096 ∧
      4096 * j + d = h.vaddr.toNat % 4096 + k ∧ own[j]? = some scr := by
  have hend := vaddrEnd_toNat hfits
  have hlt := h.vaddrEnd.isLt
  have hlen : own.length = h.pageCount.toNat := by
    simpa using congrArg List.length hown.vaddrs
  have hcount := pageCount_toNat hfits
  rw [if_neg (by omega)] at hcount
  obtain ⟨j, hj⟩ : ∃ j, j = (h.vaddr.toNat % 4096 + k) / 4096 := ⟨_, rfl⟩
  have hin : j < own.length := by omega
  exact ⟨j, (h.vaddr.toNat % 4096 + k) % 4096, own[j], by omega, by omega,
    List.getElem?_eq_getElem hin⟩

/-- The guard of the loop that clears holds at the offset of every byte behind the file part, and
    a segment that starts in the first page does not end in the last one. -/
def ProgramHeader.Clears (h : ProgramHeader) : Prop :=
  (∀ k, h.filesz.toNat ≤ k → k < h.memsz.toNat → h.Clearing ((h.vaddr.toNat + k) % 4096)) ∧
    (0xFFFFF000 < h.vaddrEnd.toNat → 4096 ≤ h.vaddr.toNat)

/-- Pages of ones show which bytes were written. -/
theorem OwnPages.clears (hown : OwnPages elf pre post h own) (hload : h.type = ptLoad)
    (hfile : h.offset.toNat + h.filesz.toNat < 2 ^ 32) (hfits : h.Fits)
    (hall : ∀ memory, ∃ s, loadElfData elf memory = some s ∧ Image elf.contents h own s.memory) :
    h.Clears := by
  obtain ⟨s, hs, himage⟩ := hall fun _ _ => 1#8
  obtain ⟨s', hs', hfilled⟩ := hown.filled hload hfile fun _ _ => 1#8
  obtain rfl : s = s' := Option.some.inj (hs.symm.trans hs')
  have hlast : 0xFFFFF000 < h.vaddrEnd.toNat → 4096 ≤ h.vaddr.toNat := by
    intro hend
    by_contra hfirst
    -- no page is taken for the first byte
    have hcount := pageCount_toNat hfits
    rw [if_pos (by omega)] at hcount
    have hnone : own = [] := by
      refine List.length_eq_zero_iff.mp ?_
      simpa [hcount] using congrArg List.length hown.vaddrs
    have hsum := vaddrEnd_toNat hfits
    obtain ⟨scr, hmem, -⟩ := himage 0 (by omega)
    rw [hnone] at hmem
    cases hmem
  refine ⟨fun k hfilesz hk => ?_, hlast⟩
  obtain ⟨j, d, scr, hd, hpos, hj⟩ := hown.exists_page hfits hlast hk
  have hoffset : (h.vaddr.toNat + k) % 4096 = d := by omega
  have hbyte := himage k hk
  rw [hown.storesAt_iff hfits hk hd hpos hj, if_neg (by omega)] at hbyte
  rw [hoffset]
  by_contra hnot
  have hleft := (hfilled j scr hj).left k d hpos hd hfilesz hnot
  rw [hbyte] at hleft
  cases hleft

theorem OwnPages.image (hown : OwnPages elf pre post h own) (hload : h.type = ptLoad)
    (hfile : h.offset.toNat + h.filesz.toNat < 2 ^ 32) (hfits : h.Fits) (hclears : h.Clears)
    (memory : BitVec 32 → Nat → BitVec 8) :
    ∃ s, loadElfData elf memory = some s ∧ Image elf.contents h own s.memory := by
  obtain ⟨s, hs, hfilled⟩ := hown.filled hload hfile memory
  refine ⟨s, hs, fun k hk => ?_⟩
  obtain ⟨j, d, scr, hd, hpos, hj⟩ := hown.exists_page hfits hclears.2 hk
  rw [hown.storesAt_iff hfits hk hd hpos hj]
  by_cases hfilesz : k < h.filesz.toNat
  · rw [if_pos hfilesz]
    exact (hfilled j scr hj).copied k d hpos hd hfilesz
  · rw [if_neg hfilesz]
    refine (hfilled j scr hj).cleared k d hpos hd (by omega) fun k' d' hpos' hfilesz' hd' => ?_
    have hguard := hclears.1 k' hfilesz' (by omega)
    have hoffset : (h.vaddr.toNat + k') % 4096 = d' := by omega
    rw [hoffset] at hguard
    exact hguard

end Whole

/-- Whatever the pages held before, they hold the segment afterwards: exactly for these headers. -/
theorem segment_image_iff {elf : ElfInfo} {pre post : List ProgramHeader} {h : ProgramHeader}
    {own : List Scroll} (hown : OwnPages elf pre post h own) (hload : h.type = ptLoad)
    (hfile : h.offset.toNat + h.filesz.toNat < 2 ^ 32) (hfits : h.Fits) :
    (∀ memory, ∃ s, loadElfData elf memory = some s ∧ Image elf.contents h own s.memory) ↔
      h.Clears :=
  ⟨hown.clears hload hfile hfits, hown.image hload hfile hfits⟩

/-! ## A segment with zeros -/

/-- A file with one program header, and a segment of 32 bytes at 0x400000 of which the first 16 are
    in the file, from `offset` on. -/
def dataSegment (offset : BitVec 8) : ElfFile where
  size := 128#32
  transferred := 128#32
  contents a :=
    match a with
    | 28 => 52#8
    | 42 => 32#8
    | 44 => 1#8
    | 52 => 1#8
    | 56 => offset
    | 62 => 0x40#8
    | 68 => 16#8
    | 72 => 32#8
    | _ => 0#8

/-- The segment has one page. -/
theorem dataSegment_own {offset : BitVec 8} (hoffset : offset = 0#8 ∨ offset = 84#8) :
    ∃ elf, parseElf (fun _ => 0x9000#32) (some (dataSegment offset)) = some elf ∧
      OwnPages elf [] [] ⟨1#32, offset.setWidth 32, 0x400000#32, 16#32, 32#32⟩
        [⟨0x400000#32, pageSize, .aligned, 0x9000#32⟩] := by
  have hscrolls : (parseElf (fun _ => 0x9000#32) (some (dataSegment offset))).map (·.scrolls) =
      some [⟨0x400000#32, pageSize, .aligned, 0x9000#32⟩] := by
    rcases hoffset with rfl | rfl <;> decide +kernel
  have hheaders : programHeaders (dataSegment offset).contents =
      [⟨1#32, offset.setWidth 32, 0x400000#32, 16#32, 32#32⟩] := by
    rcases hoffset with rfl | rfl <;> decide +kernel
  obtain ⟨elf, hparse, hscrolls⟩ := Option.map_eq_some_iff.mp hscrolls
  rw [← parseElf_contents hparse] at hheaders
  refine ⟨elf, hparse, hheaders, ⟨[], [], hscrolls, rfl⟩, ?_, ?_, ?_⟩
  · rcases hoffset with rfl | rfl <;> decide
  · rw [hscrolls]
    exact List.nodup_singleton _
  · rw [hheaders, hscrolls]
    rcases hoffset with rfl | rfl <;> decide

/-- The file part starts at the front of the file. -/
theorem segment_image_front : ∃ elf, parseElf (fun _ => 0x9000#32) (some (dataSegment 0#8)) =
    some elf ∧ ∀ memory, ∃ s, loadElfData elf memory = some s ∧ Image elf.contents
      ⟨1#32, 0#32, 0x400000#32, 16#32, 32#32⟩ [⟨0x400000#32, pageSize, .aligned, 0x9000#32⟩]
      s.memory := by
  obtain ⟨elf, hparse, hown⟩ := dataSegment_own (.inl rfl)
  have hfits : ProgramHeader.Fits ⟨1#32, 0#32, 0x400000#32, 16#32, 32#32⟩ := by
    unfold ProgramHeader.Fits
    decide
  refine ⟨elf, hparse, (segment_image_iff hown rfl (by decide) hfits).mpr ⟨?_, by decide⟩⟩
  intro k _ (hk : k < 32)
  have hoffset : (0x400000 + k) % 4096 = k := by omega
  change BitVec.ofNat 32 ((0x400000 + k) % 4096) - 0#32 < 32#32
  rw [hoffset, BitVec.sub_zero, BitVec.lt_def, BitVec.toNat_ofNat, BitVec.toNat_ofNat]
  omega

/-- The file part starts behind the headers, at 84: no byte is cleared. -/
theorem segment_left_dirty : ¬ ∀ (kpageAlloc : Nat → BitVec 32) (file : ElfFile) (elf : ElfInfo)
    (pre post : List ProgramHeader) (h : ProgramHeader) (own : List Scroll),
    parseElf kpageAlloc (some file) = some elf → OwnPages elf pre post h own → h.type = ptLoad →
    h.filesz.toNat ≤ h.memsz.toNat → h.offset.toNat + h.filesz.toNat ≤ file.size.toNat → h.Fits →
    ∀ memory, ∃ s, loadElfData elf memory = some s ∧ Image elf.contents h own s.memory := by
  intro hall
  obtain ⟨elf, hparse, hown⟩ := dataSegment_own (.inr rfl)
  have hfits : ProgramHeader.Fits ⟨1#32, 84#32, 0x400000#32, 16#32, 32#32⟩ := by
    unfold ProgramHeader.Fits
    decide
  have hclears := hown.clears rfl (by decide) hfits
    (hall _ _ elf _ _ _ _ hparse hown rfl (by decide) (by decide) hfits)
  exact absurd (hclears.1 16 (by decide) (by decide)) (by decide)

end Muse.Elf
