import Muse.Library.LastWrite
import Muse.Paging.Initial
import Muse.Paging.Proofs.Within

/-!
# What `init_paging` builds

`Drafted` is the invariant of the loops: the directory is on page `d`, the entries in `slots` have
their tables, and the tables hold what the last of the writes `ws` at each page wrote. Every round
of the inner loop is one more write.
-/

namespace Muse.Paging

open Muse.Library

namespace Phys

/-- The state with word `k` of frame `f` replaced. -/
def write (s : Phys) (f : BitVec 20) (k : BitVec 10) (x : BitVec 32) : Phys :=
  { s with mem := s.mem.write f k x }

@[simp] theorem write_mem (s : Phys) (f : BitVec 20) (k : BitVec 10) (x : BitVec 32) :
    (s.write f k x).mem = s.mem.write f k x := rfl

@[simp] theorem write_freePages (s : Phys) (f : BitVec 20) (k : BitVec 10) (x : BitVec 32) :
    (s.write f k x).freePages = s.freePages := rfl

theorem load_page (s : Phys) (f : BitVec 20) (k : BitVec 10) :
    s.load (elem (pageAddr f) (k.setWidth 32)) = s.mem f k := by
  rw [load, (Vm.elem_index f k).1, (Vm.elem_index f k).2]

theorem store_page (s : Phys) (f : BitVec 20) (k : BitVec 10) (x : BitVec 32) :
    s.store (elem (pageAddr f) (k.setWidth 32)) x = s.write f k x := by
  rw [store, (Vm.elem_index f k).1, (Vm.elem_index f k).2]
  rfl

theorem clearWords_freePages (s : Phys) (table : BitVec 32) (n : Nat) :
    (s.clearWords table n).freePages = s.freePages := by
  induction n with
  | zero => rfl
  | succ n ih => exact ih

/-- Clearing a page changes nothing else. -/
theorem clearWords_mem (s : Phys) (t : BitVec 20) {n : Nat} (hn : n ≤ 1024) (f : BitVec 20)
    (k : BitVec 10) : (s.clearWords (pageAddr t) n).mem f k =
      if f = t ∧ k.toNat < n then 0#32 else s.mem f k := by
  induction n with
  | zero => rw [if_neg (by omega)]; rfl
  | succ n ih =>
      have hk : k = BitVec.ofNat 10 n ↔ k.toNat = n := by
        rw [← BitVec.toNat_inj, BitVec.toNat_ofNat, Nat.mod_eq_of_lt (by omega)]
      rw [clearWords, Vm.ofNat_eq_setWidth (by omega), store_page, write_mem, PhysMem.write,
        ih (by omega)]
      simp only [hk]
      by_cases hf : f = t
      · by_cases hkn : k.toNat = n
        · rw [if_pos ⟨hf, hkn⟩, if_pos ⟨hf, by omega⟩]
        · rw [if_neg (fun h => hkn h.2)]
          by_cases hlt : k.toNat < n
          · rw [if_pos ⟨hf, hlt⟩, if_pos ⟨hf, by omega⟩]
          · rw [if_neg (fun h => hlt h.2), if_neg (by omega)]
      · rw [if_neg (fun h => hf h.1), if_neg (fun h => hf h.1), if_neg (fun h => hf h.1)]

theorem cleared_page (s : Phys) (t f : BitVec 20) (k : BitVec 10) :
    (s.clearWords (pageAddr t) 1024).mem f k = if f = t then 0#32 else s.mem f k := by
  have hk : k.toNat < 1024 := k.isLt
  rw [clearWords_mem s t (Nat.le_refl _)]
  simp only [hk, and_true]

end Phys

/-! ## Entries -/

/-- Changing the address of such an entry keeps its flags. -/
theorem setAddr_createPagingEntry (a b : BitVec 32) :
    setAddr (createPagingEntry a true true false) b = createPagingEntry b true true false := by
  ext i hi
  simp only [createPagingEntry, setUser, setWriteable, setPresent, setAddr, addrMask,
    pagingBitPresent, pagingBitWriteable, pagingBitUser]
  interval_cases i <;> simp

/-! ## The invariant -/

/-- The directory `d` has the table `tables i` for each entry `i` of `slots`, the tables hold what
    the writes `ws` left, and `n` pages are in use or free. -/
structure Drafted (s : Phys) (d : BitVec 20) (slots : Finset (BitVec 10))
    (tables : BitVec 10 → BitVec 20) (ws : List (BitVec 20 × BitVec 20)) (n : Nat) : Prop where
  nodup : s.freePages.Nodup
  used : d ∉ s.freePages
  count : slots.card + s.freePages.length = n
  table : ∀ i ∈ slots, tables i ∉ s.freePages ∧ tables i ≠ d
  inj : ∀ i ∈ slots, ∀ j ∈ slots, tables i = tables j → i = j
  entry : ∀ i ∈ slots, s.mem d i = createPagingEntry (pageAddr (tables i)) true true true
  absent : ∀ i, i ∉ slots → s.mem d i = 0#32
  content : ∀ v, dirIdx v ∈ slots →
    s.mem (tables (dirIdx v)) (tblIdx v) = pageWord false (lastWrite ws (pageOf v))
  missing : ∀ v, dirIdx v ∉ slots → lastWrite ws (pageOf v) = none

/-- There are 1024 entries. -/
theorem card_slots_lt {slots : Finset (BitVec 10)} {i : BitVec 10} (hi : i ∉ slots) :
    slots.card < 1024 := by
  have hle : (insert i slots).card ≤ (Finset.range 1024).card :=
    Finset.card_le_card_of_injOn BitVec.toNat
      (fun j _ => Finset.mem_coe.mpr (Finset.mem_range.mpr j.isLt))
      fun j _ k _ h => BitVec.eq_of_toNat_eq h
  rw [Finset.card_insert_of_notMem hi, Finset.card_range] at hle
  omega

namespace Drafted

variable {s : Phys} {d : BitVec 20} {slots : Finset (BitVec 10)} {tables : BitVec 10 → BitVec 20}
  {ws : List (BitVec 20 × BitVec 20)} {n : Nat}

/-- The table of an address is there. -/
theorem check_present (h : Drafted s d slots tables ws n) {v : BitVec 32}
    (hv : dirIdx v ∈ slots) :
    s.checkOrInsertTableStructure (pageAddr d) v true = some (pgDirIdx v, s) := by
  simp only [Phys.checkOrInsertTableStructure, Vm.pgDirIdx_eq, Phys.load_page, h.entry _ hv,
    isPresent_eq, present_createPagingEntry, if_true]

/-- The table of an address is made. -/
theorem check_absent (h : Drafted s d slots tables ws n) {v : BitVec 32}
    (hv : dirIdx v ∉ slots) {t : BitVec 20} {ts : List (BitVec 20)}
    (hfree : s.freePages = t :: ts) :
    ∃ s', s.checkOrInsertTableStructure (pageAddr d) v true = some (pgDirIdx v, s') ∧
      Drafted s' d (insert (dirIdx v) slots) (Function.update tables (dirIdx v) t) ws n := by
  have hnodup := h.nodup
  have hcount := h.count
  rw [hfree] at hnodup hcount
  obtain ⟨htts, hts⟩ := List.nodup_cons.mp hnodup
  have hd : d ∉ t :: ts := hfree ▸ h.used
  rw [List.mem_cons, not_or] at hd
  have hnew : ∀ i ∈ slots, tables i ∉ ts ∧ tables i ≠ t := by
    intro i hi
    have := (h.table i hi).1
    rw [hfree, List.mem_cons, not_or] at this
    exact ⟨this.2, this.1⟩
  have hne : ∀ i ∈ slots, i ≠ dirIdx v := fun i hi he => hv (he ▸ hi)
  have hcheck : s.checkOrInsertTableStructure (pageAddr d) v true = some (pgDirIdx v,
      (({ s with freePages := ts } : Phys).clearWords (pageAddr t) 1024).write d (dirIdx v)
        (createPagingEntry (pageAddr t) true true true)) := by
    have hzero : ¬ present 0#32 = true := by decide
    simp only [Phys.checkOrInsertTableStructure, Vm.pgDirIdx_eq, Phys.load_page, h.absent _ hv,
      isPresent_eq, Phys.kpageAlloc, hfree, Phys.store_page, if_neg hzero, Option.bind_eq_bind,
      Option.bind_some]
  obtain ⟨s', hs'⟩ : ∃ s', s' = (({ s with freePages := ts } : Phys).clearWords (pageAddr t)
      1024).write d (dirIdx v) (createPagingEntry (pageAddr t) true true true) := ⟨_, rfl⟩
  rw [← hs'] at hcheck
  have hmem : ∀ f k, s'.mem f k = if f = d ∧ k = dirIdx v then
      createPagingEntry (pageAddr t) true true true else if f = t then 0#32 else s.mem f k := by
    intro f k
    simp only [hs', Phys.write_mem, PhysMem.write, Phys.cleared_page]
  have hfree' : s'.freePages = ts := by
    rw [hs', Phys.write_freePages, Phys.clearWords_freePages]
  refine ⟨s', hcheck, hfree' ▸ hts, hfree' ▸ hd.2, ?_, fun i hi => ?_, fun i hi j hj hij => ?_,
    fun i hi => ?_, fun i hi => ?_, fun w hw => ?_, fun w hw => ?_⟩
  · rw [Finset.card_insert_of_notMem hv, hfree']
    rw [List.length_cons] at hcount
    omega
  · rw [hfree']
    rcases Finset.mem_insert.mp hi with rfl | hi
    · rw [Function.update_self]
      exact ⟨htts, Ne.symm hd.1⟩
    · rw [Function.update_of_ne (hne i hi)]
      exact ⟨(hnew i hi).1, (h.table i hi).2⟩
  · rcases Finset.mem_insert.mp hi with rfl | hi <;> rcases Finset.mem_insert.mp hj with rfl | hj
    · rfl
    · rw [Function.update_self, Function.update_of_ne (hne j hj)] at hij
      exact absurd hij.symm (hnew j hj).2
    · rw [Function.update_self, Function.update_of_ne (hne i hi)] at hij
      exact absurd hij (hnew i hi).2
    · rw [Function.update_of_ne (hne i hi), Function.update_of_ne (hne j hj)] at hij
      exact h.inj i hi j hj hij
  · rw [hmem]
    rcases Finset.mem_insert.mp hi with rfl | hi
    · rw [if_pos ⟨rfl, rfl⟩, Function.update_self]
    · rw [if_neg fun he => hne i hi he.2, if_neg hd.1, Function.update_of_ne (hne i hi),
        h.entry i hi]
  · rw [Finset.mem_insert, not_or] at hi
    rw [hmem, if_neg fun he => hi.1 he.2, if_neg hd.1, h.absent i hi.2]
  · rw [hmem]
    rcases Finset.mem_insert.mp hw with he | hw
    · -- nothing was written to the pages of the new table
      rw [he, Function.update_self, if_neg fun hd' => hd.1 hd'.1.symm, if_pos rfl,
        h.missing w (he ▸ hv)]
      rfl
    · rw [Function.update_of_ne (hne _ hw), if_neg fun he => (h.table _ hw).2 he.1,
        if_neg (hnew _ hw).2, h.content w hw]
  · rw [Finset.mem_insert, not_or] at hw
    exact h.missing w hw.2

/-- A page is mapped in its table, whether it was mapped before or not. -/
theorem modify (h : Drafted s d slots tables ws n) {v : BitVec 32} (hv : dirIdx v ∈ slots)
    (p : BitVec 32) : ∃ s',
      (s.modifyOrInsertPageStructure (s.load (elem (pageAddr d) (pgDirIdx v)) &&& addrMask)
        v p false).2 = s' ∧ Drafted s' d slots tables (ws ++ [(pageOf v, pageOf p)]) n := by
  have htable : s.load (elem (pageAddr d) (pgDirIdx v)) &&& addrMask =
      pageAddr (tables (dirIdx v)) := by
    rw [Vm.pgDirIdx_eq, Phys.load_page, h.entry _ hv, and_addrMask, frame_createPagingEntry,
      frame_pageAddr]
  refine ⟨s.write (tables (dirIdx v)) (tblIdx v) (createPagingEntry p true true false), ?_,
    h.nodup, h.used, h.count, h.table, h.inj, fun i hi => ?_, fun i hi => ?_, fun w hw => ?_,
    fun w hw => ?_⟩
  · rw [htable]
    simp only [Phys.modifyOrInsertPageStructure, Vm.pgTblIdx_eq, Phys.load_page, Phys.store_page,
      h.content v hv, isPresent_eq]
    cases lastWrite ws (pageOf v) with
    | none => rfl
    | some f =>
        simp only [pageWord, present_createPagingEntry, if_true]
        rw [setAddr_createPagingEntry]
  · rw [Phys.write_mem, PhysMem.write_of_ne _ _ fun he => absurd he.symm (h.table _ hv).2,
      h.entry i hi]
  · rw [Phys.write_mem, PhysMem.write_of_ne _ _ fun he => absurd he.symm (h.table _ hv).2,
      h.absent i hi]
  · rw [Phys.write_mem, lastWrite_concat]
    by_cases hp : pageOf v = pageOf w
    · obtain ⟨hd, ht⟩ := pageOf_eq_iff.mp hp
      rw [if_pos hp, ← hd, ← ht, PhysMem.write_self]
      exact (createPagingEntry_pageOf ..).symm
    · rw [if_neg hp, PhysMem.write_of_ne _ _ fun he ht => hp ?_, h.content w hw]
      exact pageOf_eq_iff.mpr ⟨(h.inj _ hw _ hv he).symm, ht.symm⟩
  · have hp : pageOf v ≠ pageOf w := by
      intro hp
      rw [← (pageOf_eq_iff.mp hp).1] at hw
      exact hw hv
    rw [lastWrite_concat, if_neg hp, h.missing w hw]

end Drafted

/-- The directory `d` shows what the writes `ws` left. -/
def Draft (s : Phys) (d : BitVec 20) (ws : List (BitVec 20 × BitVec 20)) (n : Nat) : Prop :=
  ∃ slots tables, Drafted s d slots tables ws n

/-! ## The loops -/

/-- The step returned, and the directory shows the writes; or it ran out of pages, and there
    were less pages than a directory has entries. -/
def Outcome (r : Option Phys) (d : BitVec 20) (ws : List (BitVec 20 × BitVec 20)) (n : Nat) :
    Prop :=
  (r = none ∧ n < 1024) ∨ ∃ s', r = some s' ∧ Draft s' d ws n

theorem Outcome.bind {r : Option Phys} {d : BitVec 20} {ws ws' : List (BitVec 20 × BitVec 20)}
    {n : Nat} (h : Outcome r d ws n) {f : Phys → Option Phys}
    (hf : ∀ s, Draft s d ws n → Outcome (f s) d ws' n) : Outcome (r.bind f) d ws' n := by
  rcases h with ⟨rfl, hn⟩ | ⟨s, rfl, hs⟩
  · exact .inl ⟨rfl, hn⟩
  · exact hf s hs

section Loops

variable {s : Phys} {d : BitVec 20} {ws : List (BitVec 20 × BitVec 20)} {n : Nat}

/-- `map_page_inactive` makes one write. -/
theorem mapPageInactive_outcome (h : Draft s d ws n) (v p : BitVec 32) :
    Outcome (s.mapPageInactive (pageAddr d) v p) d (ws ++ [(pageOf v, pageOf p)]) n := by
  obtain ⟨slots, tables, h⟩ := h
  by_cases hv : dirIdx v ∈ slots
  · obtain ⟨s', hs', h'⟩ := h.modify hv p
    refine .inr ⟨s', ?_, slots, tables, h'⟩
    rw [← hs', Phys.mapPageInactive, h.check_present hv]
    rfl
  · cases hfree : s.freePages with
    | nil =>
        have hcount := h.count
        rw [hfree, List.length_nil] at hcount
        have hlt := card_slots_lt hv
        refine .inl ⟨?_, by omega⟩
        simp [Phys.mapPageInactive, Phys.checkOrInsertTableStructure, Vm.pgDirIdx_eq,
          Phys.load_page, h.absent _ hv, present, Phys.kpageAlloc, hfree]
    | cons t ts =>
        obtain ⟨s₁, hs₁, h₁⟩ := h.check_absent hv hfree
        obtain ⟨s', hs', h'⟩ := h₁.modify (Finset.mem_insert_self ..) p
        refine .inr ⟨s', ?_, _, _, h'⟩
        rw [← hs', Phys.mapPageInactive, hs₁]
        rfl

/-- The writes of `map_page_range_inactive`. -/
def rangeWrites (vaddr paddr : BitVec 32) (pages : Nat) : List (BitVec 20 × BitVec 20) :=
  (List.range pages).map fun i =>
    (pageOf (vaddr + BitVec.ofNat 32 i * pageSize), pageOf (paddr + BitVec.ofNat 32 i * pageSize))

theorem mapPageRangeInactive_outcome (h : Draft s d ws n) (v p : BitVec 32) (pages : Nat) :
    Outcome (s.mapPageRangeInactive (pageAddr d) v p pages) d (ws ++ rangeWrites v p pages) n := by
  induction pages with
  | zero =>
      rw [show rangeWrites v p 0 = [] from rfl, List.append_nil]
      exact .inr ⟨s, rfl, h⟩
  | succ pages ih =>
      rw [rangeWrites, List.range_succ, List.map_append, ← List.append_assoc]
      exact ih.bind fun s' hs' => mapPageInactive_outcome hs' _ _

/-- The writes of a scroll. -/
def Scroll.writes (scr : Scroll) : List (BitVec 20 × BitVec 20) :=
  rangeWrites scr.vaddr scr.page (scr.size / pageSize).toNat

theorem mapScrolls_outcome (scrolls : List Scroll) (h : Draft s d ws n) :
    Outcome (s.mapScrolls (pageAddr d) scrolls) d (ws ++ scrolls.flatMap Scroll.writes) n := by
  induction scrolls generalizing s ws with
  | nil =>
      rw [List.flatMap_nil, List.append_nil]
      exact .inr ⟨s, rfl, h⟩
  | cons scr scrolls ih =>
      rw [List.flatMap_cons, ← List.append_assoc]
      exact (mapPageRangeInactive_outcome h ..).bind fun s' hs' => ih hs'

/-- The directory before the first scroll. -/
theorem draft_start {ts : List (BitVec 20)} (hfree : s.freePages = d :: ts)
    (hnodup : s.freePages.Nodup) :
    Draft (({ s with freePages := ts } : Phys).clearWords (pageAddr d) 1024) d [] ts.length := by
  rw [hfree] at hnodup
  obtain ⟨hd, hts⟩ := List.nodup_cons.mp hnodup
  refine ⟨∅, fun _ => 0#20, ?_, ?_, ?_, fun i hi => ?_, fun i hi => ?_, fun i hi => ?_,
    fun i _ => ?_, fun v hv => ?_, fun v _ => rfl⟩
  · rw [Phys.clearWords_freePages]
    exact hts
  · rw [Phys.clearWords_freePages]
    exact hd
  · rw [Phys.clearWords_freePages, Finset.card_empty, Nat.zero_add]
  · exact absurd hi (Finset.notMem_empty i)
  · exact absurd hi (Finset.notMem_empty i)
  · exact absurd hi (Finset.notMem_empty i)
  · rw [Phys.cleared_page, if_pos rfl]
  · exact absurd hv (Finset.notMem_empty _)

end Loops

/-! ## What the writes of the scrolls leave -/

/-- The pages of a scroll of whole pages are those that it covers. -/
theorem Scroll.lastWrite_writes {scr : Scroll} (h : scr.Paged) (v : BitVec 32) :
    lastWrite scr.writes (pageOf v) =
      if scr.Covers v then some (pageOf (scr.page + (v - scr.vaddr))) else none := by
  obtain ⟨hvaddr, hpage, hsize, hbelow⟩ := h
  have hpages : (scr.size / pageSize).toNat = scr.size.toNat / 4096 := by
    rw [BitVec.toNat_udiv]
    rfl
  -- the pages of the scroll, without wrapping around
  have hkey : ∀ i < scr.size.toNat / 4096,
      (pageOf (scr.vaddr + BitVec.ofNat 32 i * pageSize)).toNat =
      scr.vaddr.toNat / 4096 + i := by
    intro i hi
    rw [pageOf_toNat, BitVec.toNat_add, BitVec.toNat_mul, BitVec.toNat_ofNat, pageSize,
      BitVec.toNat_ofNat]
    omega
  have hv := v.isLt
  rw [writes, rangeWrites, hpages]
  split
  · next hc =>
      obtain ⟨hlo, hhi⟩ := hc
      obtain ⟨i, hi⟩ : ∃ i, i = (v.toNat - scr.vaddr.toNat) / 4096 := ⟨_, rfl⟩
      have hlt : i < scr.size.toNat / 4096 := by omega
      refine lastWrite_eq_some_of_unique (List.mem_map.mpr ⟨i, List.mem_range.mpr hlt, ?_⟩)
        fun w hw hwk => ?_
      · rw [Prod.mk.injEq]
        constructor
        · apply BitVec.eq_of_toNat_eq
          rw [hkey i hlt, pageOf_toNat]
          omega
        · apply BitVec.eq_of_toNat_eq
          rw [pageOf_toNat, pageOf_toNat, BitVec.toNat_add, BitVec.toNat_mul, BitVec.toNat_ofNat,
            pageSize, BitVec.toNat_ofNat, BitVec.toNat_add, BitVec.toNat_sub]
          omega
      · obtain ⟨j, hj, rfl⟩ := List.mem_map.mp hw
        have hkj := hkey j (List.mem_range.mp hj)
        dsimp only at hwk ⊢
        rw [hwk, pageOf_toNat] at hkj
        apply BitVec.eq_of_toNat_eq
        rw [pageOf_toNat, pageOf_toNat, BitVec.toNat_add, BitVec.toNat_mul, BitVec.toNat_ofNat,
          pageSize, BitVec.toNat_ofNat, BitVec.toNat_add, BitVec.toNat_sub]
        omega
  · next hc =>
      refine lastWrite_eq_none.mpr fun w hw hwk => hc ?_
      obtain ⟨j, hj, rfl⟩ := List.mem_map.mp hw
      have hj := List.mem_range.mp hj
      have hkj := hkey j hj
      dsimp only at hwk
      rw [hwk, pageOf_toNat] at hkj
      exact ⟨by omega, by omega⟩

/-- The writes of all scrolls leave at a page what the last scroll that covers it has there. -/
theorem lastWrite_scrolls {scrolls : List Scroll} (h : ∀ scr ∈ scrolls, scr.Paged)
    (v : BitVec 32) : lastWrite (scrolls.flatMap Scroll.writes) (pageOf v) =
      (lastCovering scrolls v).map fun scr => pageOf (scr.page + (v - scr.vaddr)) := by
  rw [lastWrite_flatMap, lastCovering]
  have hall : ∀ scr ∈ scrolls.reverse, scr.Paged := fun scr hscr =>
    h scr (List.mem_reverse.mp hscr)
  generalize scrolls.reverse = rest at hall
  induction rest with
  | nil => rfl
  | cons scr rest ih =>
      rw [List.findSome?_cons, List.find?_cons,
        Scroll.lastWrite_writes (hall scr (List.mem_cons_self ..))]
      by_cases hc : scr.Covers v
      · simp [hc]
      · simp only [hc, if_false, decide_false]
        exact ih fun scr' hscr' => hall scr' (List.mem_cons_of_mem _ hscr')

/-! ## The directory -/

theorem Drafted.shows {s : Phys} {d : BitVec 20} {slots : Finset (BitVec 10)}
    {tables : BitVec 10 → BitVec 20} {scrolls : List Scroll} {n : Nat}
    (hscr : ∀ scr ∈ scrolls, scr.Paged)
    (h : Drafted s d slots tables (scrolls.flatMap Scroll.writes) n) :
    ShowsScrolls ⟨(s.write d 1023#10 (createPagingEntry (pageAddr d) true true true)).mem, d⟩
      scrolls := by
  obtain ⟨sp, hsp⟩ : ∃ sp : Space, sp =
    ⟨(s.write d 1023#10 (createPagingEntry (pageAddr d) true true true)).mem, d⟩ := ⟨_, rfl⟩
  rw [← hsp]
  have hself : sp.mem d 1023#10 = createPagingEntry (pageAddr d) true true true := by
    rw [hsp]
    exact PhysMem.write_self ..
  have hcr3 : sp.cr3 = d := by rw [hsp]
  -- below the window, entries and tables are those of the draft
  have hpde : ∀ v, v < 0xFFC00000#32 → sp.pde v = s.mem d (dirIdx v) := by
    intro v hv
    rw [Space.pde, hsp]
    exact PhysMem.write_of_ne _ _ fun _ => Vm.dirIdx_ne_of_lt hv
  have hpte : ∀ v, v < 0xFFC00000#32 → dirIdx v ∈ slots →
      sp.pte v = pageWord false (lastWrite (scrolls.flatMap Scroll.writes) (pageOf v)) := by
    intro v hv hd
    rw [Space.pte, hpde v hv, h.entry _ hd, frame_createPagingEntry, frame_pageAddr, hsp,
      ← h.content v hd]
    exact PhysMem.write_of_ne _ _ fun he => absurd he (h.table _ hd).2
  refine ⟨fun v scr hv hlast => ?_, fun v hv hlast => ?_, ⟨?_, ?_⟩⟩
  · have hw := lastWrite_scrolls hscr v
    rw [hlast] at hw
    have hd : dirIdx v ∈ slots := by
      by_contra hd
      rw [h.missing v hd] at hw
      cases hw
    have hpte := hpte v hv hd
    rw [hw] at hpte
    have hpde := (hpde v hv).trans (h.entry _ hd)
    rw [Option.map_some, pageWord] at hpte
    refine ⟨?_, ?_, ?_⟩
    · rw [Space.frameOf_eq_some, hpde, hpte]
      exact ⟨present_createPagingEntry .., present_createPagingEntry ..,
        (frame_createPagingEntry ..).trans (frame_pageAddr _)⟩
    · rw [hpde]
      exact createPagingEntry_writeable _ true true
    · rw [hpte]
      exact createPagingEntry_writeable _ true false
  · have hw := lastWrite_scrolls hscr v
    rw [hlast] at hw
    rw [Space.frameOf_eq_none]
    intro hp
    by_cases hd : dirIdx v ∈ slots
    · rw [hpte v hv hd, hw, Option.map_none, pageWord]
      decide
    · rw [hpde v hv, h.absent _ hd] at hp
      cases hp
  · rw [hcr3, hself, present_createPagingEntry]
  · rw [hcr3, hself, frame_createPagingEntry, frame_pageAddr]

/-- `init_paging` returns when there are pages for the directory and for a table for each of its
    entries, and the directory that it returns shows the scrolls. -/
theorem initPaging_shows (s : Phys) (scrolls : List Scroll) (hnodup : s.freePages.Nodup)
    (hscr : ∀ scr ∈ scrolls, scr.Paged) :
    (1025 ≤ s.freePages.length → ∃ p s', s.initPaging scrolls = some (p, s')) ∧
      ∀ p s', s.initPaging scrolls = some (p, s') →
        ∃ d, p = pageAddr d ∧ ShowsScrolls ⟨s'.mem, d⟩ scrolls := by
  cases hfree : s.freePages with
  | nil =>
      refine ⟨fun hlen => ?_, fun p s' hs => ?_⟩
      · cases hlen
      · simp [Phys.initPaging, Phys.kpageAlloc, hfree] at hs
  | cons d ts =>
      have hout := mapScrolls_outcome scrolls (draft_start hfree hnodup)
      have hinit : s.initPaging scrolls =
          ((({ s with freePages := ts } : Phys).clearWords (pageAddr d) 1024).mapScrolls
            (pageAddr d) scrolls).bind fun s' => some (pageAddr d,
              s'.write d 1023#10 (createPagingEntry (pageAddr d) true true true)) := by
        have hstore : ∀ s' : Phys, s'.store (elem (pageAddr d) 1023#32)
            (createPagingEntry (pageAddr d) true true true) =
            s'.write d 1023#10 (createPagingEntry (pageAddr d) true true true) :=
          fun s' => Phys.store_page s' d 1023#10 _
        simp only [Phys.initPaging, Phys.kpageAlloc, hfree, hstore, Option.bind_eq_bind,
          Option.bind_some]
      rw [hinit]
      rcases hout with ⟨hnone, hlt⟩ | ⟨s', hs', slots, tables, hdraft⟩
      · rw [hnone]
        refine ⟨fun hlen => ?_, fun p s' hs => (by cases hs)⟩
        rw [List.length_cons] at hlen
        omega
      · rw [hs']
        refine ⟨fun _ => ⟨_, _, rfl⟩, fun p s'' hs => ?_⟩
        obtain ⟨rfl, rfl⟩ := Prod.mk.inj (Option.some.inj hs)
        exact ⟨d, rfl, hdraft.shows hscr⟩

/-- Two scrolls that overlap: the second one counts for the page they share. -/
theorem initPaging_shows_overlap :
    ∃ (s s' : Phys) (d : BitVec 20), s.initPaging
      [⟨0x1000#32, 0x2000#32, .aligned, 0x1000#32⟩, ⟨0x2000#32, 0x1000#32, .aligned, 0x9000#32⟩] =
        some (pageAddr d, s') ∧
      (⟨s'.mem, d⟩ : Space).frameOf 0x1000#32 = some 1#20 ∧
      (⟨s'.mem, d⟩ : Space).frameOf 0x2000#32 = some 9#20 ∧
      (⟨s'.mem, d⟩ : Space).frameOf 0x3000#32 = none := by
  obtain ⟨ts, hnodup, hlen⟩ : ∃ ts : List (BitVec 20), ts.Nodup ∧ 1025 ≤ ts.length := by
    refine ⟨(List.range 2000).map (BitVec.ofNat 20),
      List.Nodup.map_on (fun a ha b hb hab => ?_) List.nodup_range, by simp⟩
    have := congrArg BitVec.toNat hab
    rw [List.mem_range] at ha hb
    rw [BitVec.toNat_ofNat, BitVec.toNat_ofNat] at this
    omega
  obtain ⟨htotal, hshows⟩ := initPaging_shows ⟨fun _ _ => 7#32, ts⟩
    [⟨0x1000#32, 0x2000#32, .aligned, 0x1000#32⟩, ⟨0x2000#32, 0x1000#32, .aligned, 0x9000#32⟩]
    hnodup fun scr hscr => by
      simp only [List.mem_cons, List.not_mem_nil, or_false] at hscr
      rcases hscr with rfl | rfl <;> exact ⟨by decide, by decide, by decide, by decide⟩
  obtain ⟨p, s', hs'⟩ := htotal hlen
  obtain ⟨d, rfl, hd⟩ := hshows p s' hs'
  exact ⟨_, s', d, hs', (hd.covered 0x1000#32 _ (by decide) rfl).1,
    (hd.covered 0x2000#32 _ (by decide) rfl).1, hd.rest 0x3000#32 (by decide) (by decide)⟩

end Muse.Paging
