import Mathlib.Data.List.Basic
import Muse.Elf.Load
import Muse.Paging.Proofs.CleanData

/-!
# The two passes over a program

`load_elf_data` takes the scrolls in the order in which `parse_elf` made them. The two count the
pages of a segment in different ways: they agree unless the segment ends at a page boundary, where
`parse_elf` makes one page more, or in the last page of the address space, where it makes none.
-/

namespace Muse.Elf

open Muse.Library Muse.Paging

/-! ## What is to be shown -/

/-- The segments that are loaded. -/
def loads (contents : Bytes) : List ProgramHeader :=
  (programHeaders contents).filter fun h => h.type = ptLoad

/-- The address of page `i` of a segment. -/
def ProgramHeader.pageAddr (h : ProgramHeader) (i : Nat) : BitVec 32 :=
  alignPgDown h.vaddr + BitVec.ofNat 32 i * pageSize

/-- `load_elf_data` never finds `current_scr` null, the scroll that it takes for a page has the
    address of that page, and in the end no scroll is left. -/
def Lockstep (elf : ElfInfo) (memory : BitVec 32 → Nat → BitVec 8) : Prop :=
  ∃ s, loadElfData elf memory = some s ∧ s.currentScr = [] ∧
    ∀ visit ∈ s.visits, visit.2.2.vaddr = visit.1.pageAddr visit.2.1

/-- The end of the segment does not wrap. -/
def ProgramHeader.Fits (h : ProgramHeader) : Prop := h.vaddr.toNat + h.memsz.toNat < 2 ^ 32

/-- The segments of which both passes count the same pages: those that end inside of a page that is
    not the last one, and two kinds without pages. -/
def ProgramHeader.Regular (h : ProgramHeader) : Prop :=
  (h.vaddrEnd.toNat < 0xFFFFF000 ∧ h.vaddrEnd.toNat % 4096 ≠ 0) ∨
    (h.vaddrEnd.toNat = 0xFFFFF000 ∧ h.memsz = 0#32) ∨
    (0xFFFFF000 < h.vaddrEnd.toNat ∧ h.vaddr.toNat < 4096)

/-! ## Counting pages -/

variable {h : ProgramHeader}

/-- The page numbers `a` to `a + n - 1`. -/
def pagesFrom (a n : Nat) : List (BitVec 32) := (List.range n).map fun i => pageNo (a + i)

theorem pagesFrom_succ (a n : Nat) : pagesFrom a (n + 1) = pageNo a :: pagesFrom (a + 1) n := by
  rw [pagesFrom, List.range_succ_eq_map, List.map_cons, List.map_map, pagesFrom, Nat.add_zero]
  refine congrArg (pageNo a :: ·) (List.map_congr_left fun i _ => ?_)
  rw [Function.comp_apply, Nat.add_assoc, Nat.add_comm 1 i]

@[simp] theorem length_pagesFrom (a n : Nat) : (pagesFrom a n).length = n := by
  rw [pagesFrom, List.length_map, List.length_range]

/-- The inner loop of `parse_elf` ends at its limit. -/
theorem pagesTo_eq {b : Nat} (hb : b < 2 ^ 20) :
    ∀ (fuel a : Nat), a < 2 ^ 20 → b - a < fuel →
      pagesTo (pageNo b) fuel (pageNo a) = pagesFrom a (b - a) := by
  intro fuel
  induction fuel with
  | zero =>
      intro a _ hfuel
      omega
  | succ fuel ih =>
      intro a ha hfuel
      rw [pagesTo]
      by_cases hlt : a < b
      · obtain ⟨n, hn⟩ : ∃ n, b - a = n + 1 := ⟨b - a - 1, by omega⟩
        rw [if_pos ((pageNo_lt_iff ha hb).mpr hlt), pageNo_succ, ih (a + 1) (by omega) (by omega),
          hn, pagesFrom_succ]
        congr 2
        omega
      · rw [if_neg (fun hpage => hlt ((pageNo_lt_iff ha hb).mp hpage))]
        have hzero : b - a = 0 := by omega
        rw [hzero]
        rfl

theorem firstPage_eq (h : ProgramHeader) : h.firstPage = pageNo (h.vaddr.toNat / 4096) :=
  alignPgDown_eq h.vaddr

theorem vaddrEnd_toNat (hfits : h.Fits) : h.vaddrEnd.toNat = h.vaddr.toNat + h.memsz.toNat := by
  rw [ProgramHeader.vaddrEnd, BitVec.toNat_add]
  exact Nat.mod_eq_of_lt hfits

theorem limitPage_eq (h : ProgramHeader) : h.limitPage = pageNo (h.vaddrEnd.toNat / 4096 + 1) := by
  have hend := h.vaddrEnd.isLt
  apply BitVec.eq_of_toNat_eq
  simp only [ProgramHeader.limitPage, pageSize, pageNo, BitVec.toNat_sub, BitVec.toNat_add,
    BitVec.toNat_umod, BitVec.toNat_ofNat, Nat.reducePow, Nat.reduceMod]
  omega

/-- The pages that `parse_elf` makes for a segment. -/
def ProgramHeader.parsePages (h : ProgramHeader) : Nat :=
  if h.vaddrEnd.toNat < 0xFFFFF000 then h.vaddrEnd.toNat / 4096 + 1 - h.vaddr.toNat / 4096 else 0

/-- The pages of the inner loop of `parse_elf`. -/
def ProgramHeader.pages (h : ProgramHeader) : List (BitVec 32) :=
  pagesTo h.limitPage (2 ^ 20) h.firstPage

theorem firstPage_toNat (h : ProgramHeader) :
    h.firstPage.toNat = 4096 * (h.vaddr.toNat / 4096) := by
  have hvaddr := h.vaddr.isLt
  rw [firstPage_eq, pageNo_toNat (by omega)]

/-- They run from the first page to the limit, which wraps to 0 for the last page. -/
theorem pages_eq (h : ProgramHeader) : h.pages =
    pagesFrom (h.firstPage.toNat / 4096) (h.limitPage.toNat / 4096 - h.firstPage.toNat / 4096) := by
  have hvaddr := h.vaddr.isLt
  have hend := h.vaddrEnd.isLt
  have hfirst : h.firstPage = pageNo (h.firstPage.toNat / 4096) := by
    rw [firstPage_toNat, Nat.mul_div_cancel_left _ (by decide), firstPage_eq]
  have hlimit : h.limitPage = pageNo (h.limitPage.toNat / 4096) := by
    rw [limitPage_eq]
    apply BitVec.eq_of_toNat_eq
    simp only [pageNo, BitVec.toNat_ofNat]
    omega
  rw [ProgramHeader.pages]
  have hb := h.limitPage.isLt
  have ha := h.firstPage.isLt
  conv_lhs => rw [hfirst, hlimit]
  exact pagesTo_eq (by omega) _ _ (by omega) (by omega)

theorem pagesTo_limitPage (hfits : h.Fits) :
    h.pages = pagesFrom (h.vaddr.toNat / 4096) h.parsePages := by
  have hvaddr := h.vaddr.isLt
  have hend := vaddrEnd_toNat hfits
  rw [pages_eq, firstPage_toNat, Nat.mul_div_cancel_left _ (by decide), limitPage_eq,
    ProgramHeader.parsePages, pageNo, BitVec.toNat_ofNat]
  congr 1
  split <;> omega

/-- The pages that `load_elf_data` takes for a segment. -/
theorem pageCount_toNat (hfits : h.Fits) : h.pageCount.toNat =
    if 0xFFFFF000 < h.vaddrEnd.toNat ∧ h.vaddr.toNat < 4096 then 0
    else (h.vaddrEnd.toNat + 4095) / 4096 - h.vaddr.toNat / 4096 := by
  have hvaddr := h.vaddr.isLt
  have hlt := h.vaddrEnd.isLt
  have hend := vaddrEnd_toNat hfits
  rw [ProgramHeader.pageCount, firstPage_eq, alignPgUp_eq]
  simp only [pageNo, pageSize, BitVec.toNat_udiv, BitVec.toNat_sub, BitVec.toNat_ofNat,
    Nat.reducePow, Nat.reduceMod]
  split <;> omega

/-- The passes count the same pages of the regular segments. -/
theorem parsePages_eq_iff (hfits : h.Fits) :
    h.parsePages = h.pageCount.toNat ↔ h.Regular := by
  have hvaddr := h.vaddr.isLt
  have hlt := h.vaddrEnd.isLt
  have hend := vaddrEnd_toNat hfits
  have hmemsz : h.memsz = 0#32 ↔ h.memsz.toNat = 0 := by
    rw [← BitVec.toNat_inj]
    rfl
  rw [pageCount_toNat hfits, ProgramHeader.parsePages, ProgramHeader.Regular, hmemsz]
  split <;> split <;> omega

/-- Below the last page `parse_elf` never makes too few. -/
theorem pageCount_le_parsePages (hfits : h.Fits) (hbelow : h.vaddrEnd.toNat < 0xFFFFF000) :
    h.pageCount.toNat ≤ h.parsePages := by
  have hend := vaddrEnd_toNat hfits
  rw [pageCount_toNat hfits, ProgramHeader.parsePages, if_pos hbelow]
  split <;> omega

/-! ## What `parse_elf` builds -/

section Parse

variable (kpageAlloc : Nat → BitVec 32)

theorem addScrolls_contents (pages : List (BitVec 32)) (info : ElfInfo) :
    (pages.foldl (ElfInfo.addScroll kpageAlloc) info).contents = info.contents := by
  induction pages generalizing info with
  | nil => rfl
  | cons p pages ih => exact ih (info.addScroll kpageAlloc p)

theorem parseHeader_contents (info : ElfInfo) (h : ProgramHeader) :
    (info.parseHeader kpageAlloc h).contents = info.contents := by
  have hpages := addScrolls_contents kpageAlloc (pagesTo h.limitPage (2 ^ 20) h.firstPage) info
  unfold ElfInfo.parseHeader
  generalize pagesTo h.limitPage (2 ^ 20) h.firstPage = pages at hpages
  simp only
  split
  · rfl
  split
  · exact hpages
  · exact hpages

theorem parseHeaders_contents (headers : List ProgramHeader) (info : ElfInfo) :
    (headers.foldl (ElfInfo.parseHeader kpageAlloc) info).contents = info.contents := by
  induction headers generalizing info with
  | nil => rfl
  | cons h headers ih =>
      rw [List.foldl_cons, ih, parseHeader_contents]

theorem addScrolls_vaddrs (pages : List (BitVec 32)) (info : ElfInfo) :
    (pages.foldl (ElfInfo.addScroll kpageAlloc) info).scrolls.map (·.vaddr) =
      info.scrolls.map (·.vaddr) ++ pages := by
  induction pages generalizing info with
  | nil => simp
  | cons p pages ih =>
      rw [List.foldl_cons, ih, ElfInfo.addScroll, List.map_append, List.append_assoc]
      rfl

theorem parseHeader_vaddrs (info : ElfInfo) (h : ProgramHeader) :
    (info.parseHeader kpageAlloc h).scrolls.map (·.vaddr) = info.scrolls.map (·.vaddr) ++
      if h.type = ptLoad then h.pages else [] := by
  rw [ElfInfo.parseHeader, ← ProgramHeader.pages]
  by_cases hload : h.type = ptLoad
  · have hpages := addScrolls_vaddrs kpageAlloc h.pages info
    generalize h.pages = pages at hpages ⊢
    simp only [hload, ne_eq, not_true_eq_false, if_false, if_true]
    split
    · exact hpages
    · exact hpages
  · simp [hload]

/-- The addresses of the scrolls are the pages of one segment after another. -/
theorem parseHeaders_vaddrs (headers : List ProgramHeader) (info : ElfInfo) :
    (headers.foldl (ElfInfo.parseHeader kpageAlloc) info).scrolls.map (·.vaddr) =
      info.scrolls.map (·.vaddr) ++
        (headers.filter fun h => h.type = ptLoad).flatMap ProgramHeader.pages := by
  induction headers generalizing info with
  | nil => simp
  | cons h headers ih =>
      rw [List.foldl_cons, ih, parseHeader_vaddrs]
      by_cases hload : h.type = ptLoad
      · simp [hload]
      · simp [hload]

end Parse

/-! ## What `load_elf_data` takes -/

variable {s s' t : Loader} {pages pages' : List (ProgramHeader × Nat)}

/-- From `s` to `t` one scroll was taken for each of `pages`. -/
structure Takes (s t : Loader) (pages : List (ProgramHeader × Nat)) : Prop where
  taken : ∃ taken : List Scroll, taken.length = pages.length ∧
    s.currentScr = taken ++ t.currentScr ∧
    t.visits = s.visits ++ List.zipWith (fun page scr => (page.1, page.2, scr)) pages taken

theorem Takes.refl (s : Loader) : Takes s s [] := ⟨[], rfl, rfl, by simp⟩

theorem Takes.trans (h : Takes s s' pages) (h' : Takes s' t pages') :
    Takes s t (pages ++ pages') := by
  obtain ⟨taken, hlen, hscr, hvisits⟩ := h.taken
  obtain ⟨taken', hlen', hscr', hvisits'⟩ := h'.taken
  refine ⟨taken ++ taken', ?_, ?_, ?_⟩
  · rw [List.length_append, List.length_append, hlen, hlen']
  · rw [hscr, hscr', List.append_assoc]
  · rw [hvisits', hvisits, List.zipWith_append hlen.symm, List.append_assoc]

/-- The pages `i` to `i + n - 1` of a segment. -/
def segmentPages (h : ProgramHeader) (i n : Nat) : List (ProgramHeader × Nat) :=
  (List.range' i n).map fun j => (h, j)

/-- A segment takes as many scrolls as it has pages, if there are as many. -/
theorem loadPages_spec (contents : Bytes) (h : ProgramHeader) (n i : Nat)
    (dataOffset fileOffset : BitVec 32) (s : Loader) :
    (∀ t, loadPages contents h n i dataOffset fileOffset s = some t →
      Takes s t (segmentPages h i n)) ∧
    (n ≤ s.currentScr.length → (loadPages contents h n i dataOffset fileOffset s).isSome) := by
  induction n generalizing i dataOffset fileOffset s with
  | zero =>
      refine ⟨?_, fun _ => rfl⟩
      intro t ht
      cases ht
      exact .refl s
  | succ n ih =>
      rw [loadPages]
      cases hscr : s.currentScr with
      | nil =>
          refine ⟨?_, fun hlen => absurd hlen (Nat.not_succ_le_zero n)⟩
          intro t ht
          cases ht
      | cons scr rest =>
          let c := copyFile contents h 4096 ⟨s.memory scr.page, dataOffset, fileOffset⟩
          let c' := clearRest h 4096 c
          let next : Loader := ⟨rest, Function.update s.memory scr.page c'.page,
            s.visits ++ [(h, i, scr)]⟩
          obtain ⟨htakes, hsome⟩ := ih (i + 1) 0#32 c'.fileOffset next
          refine ⟨?_, ?_⟩
          · intro t ht
            have hone : Takes s next [(h, i)] := ⟨[scr], rfl, hscr, rfl⟩
            exact hone.trans (htakes t ht)
          · intro hlen
            exact hsome (Nat.le_of_succ_le_succ hlen)

/-- The pages of the segments, in the order in which they are filled. -/
def allPages (headers : List ProgramHeader) : List (ProgramHeader × Nat) :=
  (headers.filter fun h => h.type = ptLoad).flatMap fun h => segmentPages h 0 h.pageCount.toNat

theorem loadHeaders_spec (contents : Bytes) (headers : List ProgramHeader) (s : Loader) :
    (∀ t, headers.foldlM (loadHeader contents) s = some t → Takes s t (allPages headers)) ∧
    ((allPages headers).length ≤ s.currentScr.length →
      (headers.foldlM (loadHeader contents) s).isSome) := by
  induction headers generalizing s with
  | nil =>
      refine ⟨?_, fun _ => rfl⟩
      intro t ht
      cases ht
      exact .refl s
  | cons h headers ih =>
      rw [List.foldlM_cons]
      by_cases hload : h.type = ptLoad
      · have hpages : allPages (h :: headers) =
            segmentPages h 0 h.pageCount.toNat ++ allPages headers := by
          simp [allPages, hload]
        obtain ⟨htakes, hsome⟩ := loadPages_spec contents h h.pageCount.toNat 0
          (h.vaddr - h.firstPage) h.offset s
        have hheader : loadHeader contents s h =
            loadPages contents h h.pageCount.toNat 0 (h.vaddr - h.firstPage) h.offset s := by
          rw [loadHeader, if_neg (not_not_intro hload)]
        rw [hpages, hheader]
        constructor
        · intro t ht
          obtain ⟨u, hu, hrest⟩ := Option.bind_eq_some_iff.mp ht
          exact (htakes u hu).trans ((ih u).1 t hrest)
        · intro hlen
          rw [List.length_append] at hlen
          have hcount : (segmentPages h 0 h.pageCount.toNat).length = h.pageCount.toNat := by
            simp [segmentPages]
          obtain ⟨u, hu⟩ := Option.isSome_iff_exists.mp (hsome (by omega))
          obtain ⟨taken, htaken, hscr, -⟩ := (htakes u hu).taken
          rw [hu, Option.bind_eq_bind, Option.bind_some]
          apply (ih u).2
          rw [hscr, List.length_append] at hlen
          omega
      · have hpages : allPages (h :: headers) = allPages headers := by
          simp [allPages, hload]
        have hheader : loadHeader contents s h = some s := by
          rw [loadHeader, if_pos hload]
        rw [hpages, hheader]
        exact ih s

/-! ## Lockstep -/

variable {kpageAlloc : Nat → BitVec 32} {file : Option ElfFile} {elf : ElfInfo}
  {memory : BitVec 32 → Nat → BitVec 8}

theorem visits_match_iff (pages : List (ProgramHeader × Nat)) :
    ∀ taken : List Scroll, taken.length = pages.length →
      ((∀ visit ∈ List.zipWith (fun page scr => (page.1, page.2, scr)) pages taken,
          visit.2.2.vaddr = visit.1.pageAddr visit.2.1) ↔
        taken.map (·.vaddr) = pages.map fun page => page.1.pageAddr page.2) := by
  induction pages with
  | nil =>
      intro taken hlen
      rw [List.length_eq_zero_iff.mp hlen]
      simp
  | cons page pages ih =>
      intro taken hlen
      obtain ⟨scr, taken, rfl⟩ := List.exists_cons_of_length_eq_add_one hlen
      rw [List.zipWith_cons_cons, List.forall_mem_cons, List.map_cons, List.map_cons,
        List.cons.injEq, ih taken (Nat.succ_inj.mp hlen)]

/-- The two passes are in lockstep if the scrolls are the pages that are filled. -/
theorem lockstep_iff_pages : Lockstep elf memory ↔ elf.scrolls.map (·.vaddr) =
    (allPages (programHeaders elf.contents)).map fun page => page.1.pageAddr page.2 := by
  obtain ⟨htakes, hsome⟩ := loadHeaders_spec elf.contents (programHeaders elf.contents)
    ⟨elf.scrolls, memory, []⟩
  constructor
  · rintro ⟨t, ht, hempty, hvisits⟩
    obtain ⟨taken, hlen, hscr, htaken⟩ := (htakes t ht).taken
    rw [htaken, List.nil_append, visits_match_iff _ taken hlen] at hvisits
    simp only [hempty, List.append_nil] at hscr
    rw [hscr, hvisits]
  · intro hpages
    have hcount := congrArg List.length hpages
    rw [List.length_map, List.length_map] at hcount
    obtain ⟨t, ht⟩ := Option.isSome_iff_exists.mp (hsome (Nat.le_of_eq hcount.symm))
    obtain ⟨taken, hlen, hscr, htaken⟩ := (htakes t ht).taken
    have hempty : t.currentScr = [] := by
      have hrest := congrArg List.length hscr
      simp only [List.length_append] at hrest
      exact List.length_eq_zero_iff.mp (by omega)
    refine ⟨t, ht, hempty, ?_⟩
    rw [htaken, List.nil_append, visits_match_iff _ taken hlen]
    simp only [hempty, List.append_nil] at hscr
    rw [← hscr, hpages]

theorem pageAddr_eq (h : ProgramHeader) (i : Nat) :
    h.pageAddr i = pageNo (h.vaddr.toNat / 4096 + i) := by
  apply BitVec.eq_of_toNat_eq
  simp only [ProgramHeader.pageAddr, alignPgDown_eq, pageNo, pageSize, BitVec.toNat_add,
    BitVec.toNat_mul, BitVec.toNat_ofNat, Nat.reducePow, Nat.reduceMod]
  omega

theorem map_segmentPages (h : ProgramHeader) (n : Nat) :
    (segmentPages h 0 n).map (fun page => page.1.pageAddr page.2) =
      pagesFrom (h.vaddr.toNat / 4096) n := by
  rw [segmentPages, List.map_map, pagesFrom, ← List.range_eq_range']
  exact List.map_congr_left fun i _ => pageAddr_eq h i

theorem parseElf_vaddrs (hparse : parseElf kpageAlloc file = some elf) :
    elf.scrolls.map (·.vaddr) = (loads elf.contents).flatMap ProgramHeader.pages := by
  cases file with
  | none => cases hparse
  | some file =>
      rw [parseElf] at hparse
      simp only [Option.ite_none_left_eq_some, Option.some_inj] at hparse
      obtain ⟨-, rfl⟩ := hparse
      rw [parseHeaders_contents]
      exact parseHeaders_vaddrs kpageAlloc (programHeaders file.contents) ⟨[], 0#32, file.contents⟩

theorem parseElf_spec (hparse : parseElf kpageAlloc file = some elf)
    (hfits : ∀ h ∈ loads elf.contents, h.Fits) : elf.scrolls.map (·.vaddr) =
      (loads elf.contents).flatMap fun h => pagesFrom (h.vaddr.toNat / 4096) h.parsePages := by
  rw [parseElf_vaddrs hparse]
  exact List.flatMap_congr fun h hh => pagesTo_limitPage (hfits h hh)

/-- The two ways of counting, segment by segment. -/
theorem lockstep_iff_counts (hparse : parseElf kpageAlloc file = some elf)
    (hfits : ∀ h ∈ loads elf.contents, h.Fits) : Lockstep elf memory ↔
      ((loads elf.contents).flatMap fun h => pagesFrom (h.vaddr.toNat / 4096) h.parsePages) =
        (loads elf.contents).flatMap
          fun h => pagesFrom (h.vaddr.toNat / 4096) h.pageCount.toNat := by
  rw [lockstep_iff_pages, parseElf_spec hparse hfits, allPages, List.map_flatMap]
  simp only [map_segmentPages]
  rfl

theorem lockstep_of_regular (hparse : parseElf kpageAlloc file = some elf)
    (hfits : ∀ h ∈ loads elf.contents, h.Fits) (hregular : ∀ h ∈ loads elf.contents, h.Regular) :
    Lockstep elf memory := by
  rw [lockstep_iff_counts hparse hfits]
  refine List.flatMap_congr fun h hh => ?_
  rw [(parsePages_eq_iff (hfits h hh)).mpr (hregular h hh)]

/-- If each list of one family is no longer than that of another, and all together are as long, each
    is as long. -/
theorem length_eq_of_flatMap {α β : Type} {f g : α → List β} (l : List α)
    (hle : ∀ a ∈ l, (g a).length ≤ (f a).length)
    (hlen : (l.flatMap f).length = (l.flatMap g).length) :
    ∀ a ∈ l, (f a).length = (g a).length := by
  have hsum : ∀ l : List α, (∀ a ∈ l, (g a).length ≤ (f a).length) →
      (l.flatMap g).length ≤ (l.flatMap f).length := by
    intro l
    induction l with
    | nil => simp
    | cons a l ih =>
        intro hle
        have hhead := hle a List.mem_cons_self
        have htail := ih fun b hb => hle b (List.mem_cons_of_mem a hb)
        rw [List.flatMap_cons, List.flatMap_cons, List.length_append, List.length_append]
        omega
  induction l with
  | nil => simp
  | cons a l ih =>
      have hhead := hle a List.mem_cons_self
      have hrest := fun b hb => hle b (List.mem_cons_of_mem a hb)
      have htail := hsum l hrest
      rw [List.flatMap_cons, List.flatMap_cons, List.length_append, List.length_append] at hlen
      rw [List.forall_mem_cons]
      exact ⟨by omega, ih hrest (by omega)⟩

/-- All segments end in the last page or none does, as in every file with one segment. -/
def SameSide (headers : List ProgramHeader) : Prop :=
  (∀ h ∈ headers, h.vaddrEnd.toNat < 0xFFFFF000) ∨ ∀ h ∈ headers, 0xFFFFF000 ≤ h.vaddrEnd.toNat

theorem sameSide_singleton (h : ProgramHeader) : SameSide [h] := by
  rw [SameSide, List.forall_mem_singleton, List.forall_mem_singleton]
  exact Nat.lt_or_ge _ _

/-- Where all segments are on one side, nothing makes up for a page too many or too few. -/
theorem regular_of_lockstep (hparse : parseElf kpageAlloc file = some elf)
    (hfits : ∀ h ∈ loads elf.contents, h.Fits) (hside : SameSide (loads elf.contents))
    (hlock : Lockstep elf memory) : ∀ h ∈ loads elf.contents, h.Regular := by
  rw [lockstep_iff_counts hparse hfits] at hlock
  have hcount : ∀ h ∈ loads elf.contents,
      (pagesFrom (h.vaddr.toNat / 4096) h.parsePages).length =
        (pagesFrom (h.vaddr.toNat / 4096) h.pageCount.toNat).length := by
    rcases hside with hbelow | hlast
    · refine length_eq_of_flatMap (loads elf.contents) (fun h hh => ?_) (congrArg List.length hlock)
      rw [length_pagesFrom, length_pagesFrom]
      exact pageCount_le_parsePages (hfits h hh) (hbelow h hh)
    · intro h hh
      refine (length_eq_of_flatMap (loads elf.contents) (fun h hh => ?_)
        (congrArg List.length hlock.symm) h hh).symm
      rw [length_pagesFrom, ProgramHeader.parsePages, if_neg (Nat.not_lt_of_le (hlast h hh))]
      exact Nat.zero_le _
  intro h hh
  have hlen := hcount h hh
  rw [length_pagesFrom, length_pagesFrom] at hlen
  exact (parsePages_eq_iff (hfits h hh)).mp hlen

/-- The passes are in lockstep over files with regular segments, and over no others unless some of
    the segments end in the last page and some do not. -/
theorem passes_lockstep {kpageAlloc : Nat → BitVec 32} {file : Option ElfFile} {elf : ElfInfo}
    (hparse : parseElf kpageAlloc file = some elf) (hfits : ∀ h ∈ loads elf.contents, h.Fits)
    (memory : BitVec 32 → Nat → BitVec 8) :
    ((∀ h ∈ loads elf.contents, h.Regular) → Lockstep elf memory) ∧
    (SameSide (loads elf.contents) → Lockstep elf memory →
      ∀ h ∈ loads elf.contents, h.Regular) :=
  ⟨lockstep_of_regular hparse hfits, regular_of_lockstep hparse hfits⟩

/-! ## A program of one segment -/

/-- A file with one program header, at offset 52, and a segment of `256 * high + low` bytes at
    0x400000. -/
def oneSegment (low high : BitVec 8) : ElfFile where
  size := 84#32
  transferred := 84#32
  contents a :=
    match a with
    | 28 => 52#8
    | 42 => 32#8
    | 44 => 1#8
    | 52 => 1#8
    | 62 => 0x40#8
    | 72 => low
    | 73 => high
    | _ => 0#8

theorem parseElf_contents {file : ElfFile} (hparse : parseElf kpageAlloc (some file) = some elf) :
    elf.contents = file.contents := by
  rw [parseElf] at hparse
  simp only [Option.ite_none_left_eq_some, Option.some_inj] at hparse
  rw [← hparse.2, parseHeaders_contents]

theorem exists_parseElf (kpageAlloc : Nat → BitVec 32) (low high : BitVec 8) :
    ∃ elf, parseElf kpageAlloc (some (oneSegment low high)) = some elf := by
  have hsize : (oneSegment low high).transferred = (oneSegment low high).size := rfl
  rw [parseElf]
  simp only [if_neg (not_not_intro hsize)]
  exact ⟨_, rfl⟩

/-- A segment of 32 bytes. -/
theorem passes_lockstep_small : ∃ elf, parseElf (fun _ => 0#32) (some (oneSegment 32#8 0#8)) =
    some elf ∧ Lockstep elf fun _ _ => 0#8 := by
  obtain ⟨elf, hparse⟩ := exists_parseElf (fun _ => 0#32) 32#8 0#8
  have hloads : loads elf.contents = [⟨1#32, 0#32, 0x400000#32, 0#32, 32#32⟩] := by
    rw [parseElf_contents hparse]
    decide +kernel
  have hfits : ∀ h ∈ loads elf.contents, h.Fits := by
    rw [hloads, List.forall_mem_singleton, ProgramHeader.Fits]
    decide
  have hregular : ∀ h ∈ loads elf.contents, h.Regular := by
    rw [hloads, List.forall_mem_singleton]
    exact .inl (by decide)
  exact ⟨elf, hparse, (passes_lockstep hparse hfits _).1 hregular⟩

/-- A segment of one page: `parse_elf` makes two scrolls, and one is left. -/
theorem passes_out_of_step : ¬ ∀ (kpageAlloc : Nat → BitVec 32) (file : Option ElfFile)
    (elf : ElfInfo) (memory : BitVec 32 → Nat → BitVec 8),
    parseElf kpageAlloc file = some elf → (∀ h ∈ loads elf.contents, h.Fits) →
      Lockstep elf memory := by
  intro hall
  obtain ⟨elf, hparse⟩ := exists_parseElf (fun _ => 0#32) 0#8 16#8
  have hloads : loads elf.contents = [⟨1#32, 0#32, 0x400000#32, 0#32, 0x1000#32⟩] := by
    rw [parseElf_contents hparse]
    decide +kernel
  have hfits : ∀ h ∈ loads elf.contents, h.Fits := by
    rw [hloads, List.forall_mem_singleton, ProgramHeader.Fits]
    decide
  have hside : SameSide (loads elf.contents) := by
    rw [hloads]
    exact sameSide_singleton _
  have hregular := regular_of_lockstep hparse hfits hside
    (hall _ _ elf (fun _ _ => 0#8) hparse hfits)
  rw [hloads, List.forall_mem_singleton] at hregular
  rcases hregular with ⟨-, hmod⟩ | ⟨hend, -⟩ | ⟨hend, -⟩
  · exact hmod (by decide)
  · exact absurd hend (by decide)
  · exact absurd hend (by decide)

end Muse.Elf
