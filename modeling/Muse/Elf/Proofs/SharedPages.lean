import Mathlib.Data.List.Nodup
import Muse.Elf.Proofs.Lockstep
import Muse.Paging.Proofs.UserHalf

/-!
# One page of memory for each page of a program

`parse_elf` rounds every segment outward to pages, so that two segments whose bytes are apart can
have a page in common. It then has two scrolls, and `create_task_directory` shows the second one.
-/

namespace Muse.Elf

open Muse.Library Muse.Paging

/-! ## What is to be shown -/

/-- No address belongs to both segments. -/
def ProgramHeader.Apart (a b : ProgramHeader) : Prop :=
  ∀ v : Nat, ¬ ((a.vaddr.toNat ≤ v ∧ v < a.vaddr.toNat + a.memsz.toNat) ∧
    b.vaddr.toNat ≤ v ∧ v < b.vaddr.toNat + b.memsz.toNat)

/-- No two scrolls have the same address. -/
def OneScrollEach (elf : ElfInfo) : Prop := (elf.scrolls.map (·.vaddr)).Nodup

/-- One of the segments ends in the last page, or behind it, or the page in which one ends is in
    front of the page in which the other starts. -/
def ProgramHeader.PagesApart (a b : ProgramHeader) : Prop :=
  0xFFFFF000 ≤ a.vaddrEnd.toNat ∨ 0xFFFFF000 ≤ b.vaddrEnd.toNat ∨
    a.vaddrEnd.toNat / 4096 < b.vaddr.toNat / 4096 ∨
    b.vaddrEnd.toNat / 4096 < a.vaddr.toNat / 4096

instance (a b : ProgramHeader) : Decidable (a.PagesApart b) :=
  inferInstanceAs (Decidable (_ ∨ _))

/-! ## Lists of pages -/

theorem pageNo_inj {m n : Nat} (hm : m < 2 ^ 20) (hn : n < 2 ^ 20) :
    pageNo m = pageNo n ↔ m = n := by
  rw [← BitVec.toNat_inj, pageNo_toNat hm, pageNo_toNat hn]
  omega

theorem pagesFrom_nodup {a n : Nat} (h : a + n ≤ 2 ^ 20) : (pagesFrom a n).Nodup := by
  rw [pagesFrom]
  refine List.Nodup.map_on ?_ List.nodup_range
  intro i hi j hj he
  rw [List.mem_range] at hi hj
  rw [pageNo_inj (by omega) (by omega)] at he
  omega

/-- Two runs of pages have none in common if one is empty or ends in front of the other. -/
theorem pagesFrom_disjoint_iff {a b m n : Nat} (ha : a + m ≤ 2 ^ 20) (hb : b + n ≤ 2 ^ 20) :
    (pagesFrom a m).Disjoint (pagesFrom b n) ↔ m = 0 ∨ n = 0 ∨ a + m ≤ b ∨ b + n ≤ a := by
  have hmem : ∀ {c k : Nat} (v : BitVec 32),
      v ∈ pagesFrom c k ↔ ∃ i < k, pageNo (c + i) = v := by
    intro c k v
    rw [pagesFrom, List.mem_map]
    simp only [List.mem_range]
  constructor
  · intro hdis
    by_contra hnot
    -- the later of the two first pages belongs to both
    refine hdis ((hmem (pageNo (max a b))).mpr ⟨max a b - a, by omega, ?_⟩)
      ((hmem _).mpr ⟨max a b - b, by omega, ?_⟩)
    · congr 1
      omega
    · congr 1
      omega
  · intro hor v hva hvb
    obtain ⟨i, hi, rfl⟩ := (hmem v).mp hva
    obtain ⟨j, hj, he⟩ := (hmem _).mp hvb
    rw [pageNo_inj (by omega) (by omega)] at he
    omega

/-! ## The pages of the segments -/

section Pages

variable {h a b : ProgramHeader}

theorem parsePages_bound (hfits : h.Fits) : h.vaddr.toNat / 4096 + h.parsePages ≤ 2 ^ 20 := by
  have hend := vaddrEnd_toNat hfits
  have := h.vaddr.isLt
  rw [ProgramHeader.parsePages]
  split <;> omega

theorem pages_disjoint_iff (ha : a.Fits) (hb : b.Fits) :
    (pagesFrom (a.vaddr.toNat / 4096) a.parsePages).Disjoint
      (pagesFrom (b.vaddr.toNat / 4096) b.parsePages) ↔ a.PagesApart b := by
  have hendA := vaddrEnd_toNat ha
  have hendB := vaddrEnd_toNat hb
  rw [pagesFrom_disjoint_iff (parsePages_bound ha) (parsePages_bound hb),
    ProgramHeader.PagesApart, ProgramHeader.parsePages, ProgramHeader.parsePages]
  split <;> split <;> omega

end Pages

variable {kpageAlloc : Nat → BitVec 32} {file : Option ElfFile} {elf : ElfInfo}

/-- With one scroll for each page, `create_task_directory` shows every scroll. -/
theorem OneScrollEach.shown (hone : OneScrollEach elf)
    (hparse : parseElf kpageAlloc file = some elf)
    {s s' : Vm} {funcPtr p : BitVec 32} {user : Bool} (h₀ : s.Ready)
    (ht₀ : s.HeapTables (2 + Vm.tableCount user elf.scrolls))
    (hbind : ∀ i : BitVec 10, 512 ≤ i.toNat → s.space.mem s.space.cr3 i &&& manuscriptBind = 0#32)
    (hs : s.createTaskDirectory funcPtr user elf.scrolls = some (p, s')) :
    ∀ scr ∈ elf.scrolls, Vm.UserPage ⟨s'.space.mem, pageOf p⟩ scr.vaddr (pageOf scr.page) := by
  obtain ⟨d, S, rest, tbl, pages, -, -, rfl, hdone⟩ :=
    Vm.createTaskDirectory_completed h₀ hbind ht₀ hs
  intro scr hscr
  have haligned : ∀ scr ∈ elf.scrolls, scr.vaddr.toNat % 4096 = 0 := by
    intro scr hscr
    have hmem := List.mem_map_of_mem (f := fun scr : Scroll => scr.vaddr) hscr
    rw [parseElf_vaddrs hparse] at hmem
    obtain ⟨h, -, hv⟩ := List.mem_flatMap.mp hmem
    rw [pages_eq, pagesFrom] at hv
    obtain ⟨i, -, he⟩ := List.mem_map.mp hv
    rw [← he, pageNo, BitVec.toNat_ofNat]
    omega
  have hlast : lastWrite (elf.scrolls.map Scroll.mapping) (pageOf scr.vaddr) =
      some (pageOf scr.page) := by
    refine lastWrite_eq_some_of_unique (List.mem_map_of_mem hscr) (List.forall_mem_map.mpr ?_)
    intro scr' hscr' he
    have hvaddr : scr'.vaddr = scr.vaddr := by
      have hpage := congrArg BitVec.toNat he
      rw [Scroll.mapping, pageOf_toNat, pageOf_toNat] at hpage
      have := haligned scr hscr
      have := haligned scr' hscr'
      exact BitVec.eq_of_toNat_eq (by omega)
    rw [List.inj_on_of_nodup_map hone hscr' hscr hvaddr]
    rfl
  have hframe : pageOf (pageAddr d) = d := frame_pageAddr d
  rw [hframe]
  refine hdone.shown ?_
  -- the scrolls of the file come behind the stacks
  rw [Vm.taskScrolls, ← List.singleton_append, List.map_append, List.map_append,
    lastWrite_append, lastWrite_append, hlast, Option.some_or, Option.some_or]

/-- `parse_elf` gives every page one scroll exactly for the files whose segments end and start in
    different pages. -/
theorem segments_share_no_page_iff {kpageAlloc : Nat → BitVec 32} {file : Option ElfFile}
    {elf : ElfInfo} (hparse : parseElf kpageAlloc file = some elf)
    (hfits : ∀ h ∈ loads elf.contents, h.Fits) :
    OneScrollEach elf ↔ (loads elf.contents).Pairwise ProgramHeader.PagesApart := by
  rw [OneScrollEach, parseElf_spec hparse hfits, List.nodup_flatMap]
  have hiff : ∀ a b, a ∈ loads elf.contents → b ∈ loads elf.contents →
      ((Function.onFun List.Disjoint
        fun h => pagesFrom (h.vaddr.toNat / 4096) h.parsePages) a b ↔ a.PagesApart b) :=
    fun a b ha hb => pages_disjoint_iff (hfits a ha) (hfits b hb)
  constructor
  · rintro ⟨-, hpairs⟩
    exact hpairs.imp_of_mem fun ha hb => (hiff _ _ ha hb).mp
  · intro hpairs
    exact ⟨fun h hh => pagesFrom_nodup (parsePages_bound (hfits h hh)),
      hpairs.imp_of_mem fun ha hb => (hiff _ _ ha hb).mpr⟩

/-! ## A program of two segments -/

/-- A file with two program headers: a segment of `256 * high + low` bytes at 0x400000 and one
    of 32 bytes at 0x401000. -/
def twoSegments (low high : BitVec 8) : ElfFile where
  size := 116#32
  transferred := 116#32
  contents a :=
    match a with
    | 28 => 52#8
    | 42 => 32#8
    | 44 => 2#8
    | 52 => 1#8
    | 62 => 0x40#8
    | 72 => low
    | 73 => high
    | 84 => 1#8
    | 93 => 0x10#8
    | 94 => 0x40#8
    | 104 => 32#8
    | _ => 0#8

/-- The first segment ends inside of its page. -/
theorem short_segments_share_no_page : ∃ elf,
    parseElf (fun _ => 0#32) (some (twoSegments 32#8 0#8)) = some elf ∧ OneScrollEach elf := by
  have hloads : loads (twoSegments 32#8 0#8).contents =
      [⟨1#32, 0#32, 0x400000#32, 0#32, 32#32⟩, ⟨1#32, 0#32, 0x401000#32, 0#32, 32#32⟩] := by
    decide +kernel
  obtain ⟨elf, hparse⟩ : ∃ elf,
      parseElf (fun _ => 0#32) (some (twoSegments 32#8 0#8)) = some elf := ⟨_, rfl⟩
  rw [← parseElf_contents hparse] at hloads
  refine ⟨elf, hparse, (segments_share_no_page_iff hparse ?_).mpr ?_⟩
  · rw [hloads]
    simp [ProgramHeader.Fits]
  · rw [hloads]
    exact List.pairwise_pair.mpr (by decide)

/-- The first segment fills its page: its second scroll is that of the other segment. -/
theorem whole_segments_share_a_page : ¬ ∀ (kpageAlloc : Nat → BitVec 32) (file : Option ElfFile)
    (elf : ElfInfo), parseElf kpageAlloc file = some elf → (∀ h ∈ loads elf.contents, h.Fits) →
    (loads elf.contents).Pairwise ProgramHeader.Apart → OneScrollEach elf := by
  intro hall
  have hloads : loads (twoSegments 0#8 16#8).contents =
      [⟨1#32, 0#32, 0x400000#32, 0#32, 0x1000#32⟩, ⟨1#32, 0#32, 0x401000#32, 0#32, 32#32⟩] := by
    decide +kernel
  have hscrolls : (parseElf (fun _ => 0#32) (some (twoSegments 0#8 16#8))).map
      (fun elf => elf.scrolls.map (·.vaddr)) =
        some [0x400000#32, 0x401000#32, 0x401000#32] := by decide +kernel
  obtain ⟨elf, hparse, hscrolls⟩ := Option.map_eq_some_iff.mp hscrolls
  rw [← parseElf_contents hparse] at hloads
  have hone := hall _ _ elf hparse (by rw [hloads]; simp [ProgramHeader.Fits]) (by
    rw [hloads, List.pairwise_pair]
    rintro v ⟨⟨-, hlt⟩, hle, -⟩
    exact absurd hle (Nat.not_le.mpr hlt))
  rw [OneScrollEach, hscrolls] at hone
  exact absurd hone (by decide)

end Muse.Elf
