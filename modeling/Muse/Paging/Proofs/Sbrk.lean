import Muse.Memory.Proofs.HandOut
import Muse.Paging.Proofs.AddressSpace
import Muse.Paging.Proofs.CleanData
import Muse.Paging.Proofs.Within
import Muse.Paging.Sbrk

/-!
# When the heap of a task is exact

A call of `sbrk` that grows the heap maps the pages up to the new limit, one a round. A call that
gives up a page only moves the limit: the page stays mapped, and `kpage_set_status` marks a page as
allocated. So the heap is exact in the runs in which no call gives up a page, as far as
`map_page` can be relied on to map one page.
-/

namespace Muse.Paging

open Muse.Library

/-! ## Mapping one page -/

namespace Vm

variable {s s' : Vm} {v paddr : BitVec 32}

/-- `v` is mapped to the frame `f`, the other pages below the window keep their mapping, and a new
    directory entry names the page that `kpage_alloc` returned. -/
structure MapsOne (s s' : Vm) (v : BitVec 32) (f : BitVec 20) : Prop where
  tables : Tables s'.space
  mapped : s'.space.frameOf v = some f
  others : ∀ w, pageOf w ≠ pageOf v → dirIdx w ≠ 1023#10 →
    s'.space.frameOf w = s.space.frameOf w
  dir : ∀ i, s'.space.mem s'.space.cr3 i ≠ s.space.mem s.space.cr3 i →
    s.freePages = frame (s'.space.mem s'.space.cr3 i) :: s'.freePages

theorem mapsOne_of_present (h : Tables s.space) (hv : dirIdx v ≠ 1023#10)
    (hp : present (s.space.pde v) = true) :
    MapsOne s (s.write (frame (s.space.pde v)) (tblIdx v) (mapEntry (s.space.pte v) paddr)) v
      (pageOf paddr) := by
  have hcr3 := frame_pde_ne_cr3 h hv hp
  have hdir : ∀ i, (s.write (frame (s.space.pde v)) (tblIdx v)
      (mapEntry (s.space.pte v) paddr)).space.mem s.space.cr3 i = s.space.mem s.space.cr3 i :=
    fun i => PhysMem.write_of_ne _ _ fun he => absurd he.symm hcr3
  refine ⟨tables_congr h rfl hdir, ?_, fun w hw _ => write_pte_frameOf h hv hp _ hw,
    fun i hi => absurd (hdir i) hi⟩
  rw [Space.frameOf, write_pde hcr3, hp, write_pte_self h hv hp, present_mapEntry, frame_mapEntry]
  rfl

theorem mapsOne_of_insertsCleanly {g t : BitVec 20} {ts : List (BitVec 20)} (h : Tables s.space)
    (hv : dirIdx v ≠ 1023#10) (habs : present (s.space.pde v) = false)
    (hfree : s.freePages = t :: ts) (ht : FreshPage s.space t) (hg : g ≠ s.space.cr3)
    (hzero : ∀ k, (g = t ∧ k = tblIdx v) ∨ s.space.mem g k = 0#32)
    (hnew : ∀ k, k ≠ tblIdx v → present (s.space.mem t k) = false) :
    MapsOne s (s.mapped g t ts v paddr) v (pageOf paddr) := by
  have htc : t ≠ s.space.cr3 := ht.ne_cr3 h.selfMapped
  have hsame := @mapped_of_zero s v g t ts paddr hzero
  have hnewEntry : (s.mapped g t ts v paddr).space.mem s.space.cr3 (dirIdx v) =
      createPagingEntry (pageAddr t) true true true := mapped_pde htc
  have hdir : ∀ i, i ≠ dirIdx v →
      (s.mapped g t ts v paddr).space.mem s.space.cr3 i = s.space.mem s.space.cr3 i :=
    fun i hi => hsame _ _ (fun he => htc he.1.symm) (fun he => hi he.2)
  refine ⟨⟨mapped_selfMapped h hv hg htc, fun i j hi hj hf => ?_⟩, mapped_frameOf_self htc,
    fun w hw hd => mapped_frameOf h habs ht hsame hnew hw fun he => ?_, fun i hi => ?_⟩
  · -- the new table is none of the old ones
    change present ((s.mapped g t ts v paddr).space.mem s.space.cr3 i) = true at hi
    change present ((s.mapped g t ts v paddr).space.mem s.space.cr3 j) = true at hj
    change frame ((s.mapped g t ts v paddr).space.mem s.space.cr3 i) =
      frame ((s.mapped g t ts v paddr).space.mem s.space.cr3 j) at hf
    by_cases hiv : i = dirIdx v <;> by_cases hjv : j = dirIdx v
    · rw [hiv, hjv]
    · rw [hdir j hjv] at hj hf
      rw [hiv, hnewEntry, frame_createPagingEntry, frame_pageAddr] at hf
      exact absurd hf.symm (ht j hj)
    · rw [hdir i hiv] at hi hf
      rw [hjv, hnewEntry, frame_createPagingEntry, frame_pageAddr] at hf
      exact absurd hf (ht i hi)
    · rw [hdir i hiv] at hi hf
      rw [hdir j hjv] at hj hf
      exact h.distinct i j hi hj hf
  · obtain ⟨hwd, hwt, -⟩ := loopbackTbl_indices v
    exact hd ((pageOf_eq_iff.mp (he.trans (pageOf_loopbackTbl hwd hwt).symm)).1.trans hwd)
  · obtain rfl : i = dirIdx v := by
      by_contra hne
      exact hi (hdir i hne)
    change s.freePages = frame ((s.mapped g t ts v paddr).space.mem s.space.cr3 _) :: ts
    rw [hnewEntry, frame_createPagingEntry, frame_pageAddr, hfree]

/-- `map_page` maps one page if the page table is in place, or can be inserted without disturbing
    anything. -/
theorem mapPage_mapsOne (h : Tables s.space) (hv : dirIdx v ≠ 1023#10) (paddr : BitVec 32)
    (hcase : present (s.space.pde v) = true ∨ ∃ t ts, s.freePages = t :: ts ∧
      FreshPage s.space t ∧ s.InsertsCleanly t v) :
    ∃ s', s.mapPage v paddr = some s' ∧ MapsOne s s' v (pageOf paddr) := by
  cases hp : present (s.space.pde v) with
  | true => exact ⟨_, mapPage_of_present h.selfMapped hp paddr, mapsOne_of_present h hv hp⟩
  | false =>
      rcases hcase with hpr | ⟨t, ts, hfree, ht, g, hgt, hzero, hnew⟩
      · rw [hp] at hpr
        cases hpr
      · obtain ⟨hg, hgf⟩ := cleared_frame_ne h ht hgt hzero
        exact ⟨_, mapPage_absent_eq h.selfMapped hv hp hfree hgt hg hgf paddr,
          mapsOne_of_insertsCleanly h hv hp hfree ht hg hzero hnew⟩

end Vm

namespace Sbrk

/-! ## Physical pages -/

/-- Regions of whole pages that are disjoint and end below 4 GiB. -/
structure WholePages (regions : List Memory.Region) : Prop where
  aligned : ∀ r ∈ regions, r.addr % 4096 = 0
  below : ∀ r ∈ regions, r.limit < 2 ^ 32
  disjoint : Memory.DisjointRegions regions

/-- The frame is a page of the regions that is marked free. -/
def Free (regions : List Memory.Region) (bitmaps : Nat → BitVec 8) (f : BitVec 20) : Prop :=
  ∃ p, Memory.IsPage regions (4096 * f.toNat) p ∧ bitAt bitmaps p = false

section Pages

variable {regions : List Memory.Region} {bitmaps bitmaps' : Nat → BitVec 8} {a : Nat}

theorem Free.of_setBitAt {p : Nat} {f : BitVec 20} (h : Free regions (setBitAt bitmaps p) f) :
    Free regions bitmaps f := by
  obtain ⟨q, hq, hclear⟩ := h
  rw [bitAt_setBitAt (by decide)] at hclear
  exact ⟨q, hq, (Bool.or_eq_false_iff.mp hclear).2⟩

/-- A page of the regions is a frame. -/
theorem frame_of_isPage (hw : WholePages regions) {p : Nat} (ha : Memory.IsPage regions a p) :
    4096 * (BitVec.ofNat 20 (a / 4096)).toNat = a ∧ a < 2 ^ 32 := by
  obtain ⟨i, hi, k, hk, rfl, -⟩ := ha
  have haligned := hw.aligned _ (List.getElem_mem hi)
  have hbelow := hw.below _ (List.getElem_mem hi)
  simp only [Memory.Region.limit, Memory.Region.page, Memory.pageSize, BitVec.toNat_ofNat] at *
  omega

/-- `kpage_alloc` takes a free frame, marks it, and frees none. -/
theorem kpageAlloc_frame (hw : WholePages regions)
    (h : Memory.kpageAlloc bitmaps regions = some (a, bitmaps')) :
    Free regions bitmaps (BitVec.ofNat 20 (a / 4096)) ∧
      ¬ Free regions bitmaps' (BitVec.ofNat 20 (a / 4096)) ∧
      ∀ f, Free regions bitmaps' f → Free regions bitmaps f := by
  obtain ⟨-, p, hp, hclear, rfl⟩ := Memory.kpageAlloc_spec h
  obtain ⟨ha, -⟩ := frame_of_isPage hw hp
  refine ⟨⟨p, by rwa [ha], hclear⟩, ?_, fun f hf => hf.of_setBitAt⟩
  rintro ⟨q, hq, hq'⟩
  rw [ha] at hq
  rw [hp.bit_unique hw.disjoint hq, bitAt_setBitAt (by decide)] at hq'
  simp at hq'

theorem pageOf_kpageAlloc (hw : WholePages regions)
    (h : Memory.kpageAlloc bitmaps regions = some (a, bitmaps')) :
    pageOf (BitVec.ofNat 32 a) = BitVec.ofNat 20 (a / 4096) := by
  obtain ⟨-, p, hp, -, -⟩ := Memory.kpageAlloc_spec h
  obtain ⟨ha, hlt⟩ := frame_of_isPage hw hp
  apply BitVec.eq_of_toNat_eq
  rw [pageOf_toNat, BitVec.toNat_ofNat, Nat.mod_eq_of_lt hlt]
  omega

end Pages

/-! ## What is proved -/

/-- The page of an address, as a number. -/
def page (v : BitVec 32) : Nat := v.toNat / 4096

/-- The heap of a task that started at `b`. -/
structure HeapExact (regions : List Memory.Region) (b : BitVec 32) (s : Task) : Prop where
  /-- Above the page of `b - 1` the pages up to that of `limit - 1` are mapped, and no others. -/
  mapped : ∀ v, v < 0x80000000#32 → page (b - 1#32) < page v →
    (s.space.frameOf v ≠ none ↔ page v ≤ page (s.limit - 1#32))
  /-- No page that is mapped below the limit is marked free. -/
  held : ∀ v f, v < s.limit → s.space.frameOf v = some f → ¬ Free regions s.bitmaps f
  /-- The last call returned the limit it found and added its increment, and the pages it gave up
      are unmapped and marked free. -/
  last : ∀ d, s.last = some d → d.ret = d.entry.limit ∧ s.limit = d.entry.limit + d.inc ∧
    ∀ v f, page (s.limit - 1#32) < page v → page v ≤ page (d.entry.limit - 1#32) →
      d.entry.space.frameOf v = some f → s.space.frameOf v = none ∧ Free regions s.bitmaps f

/-- A task before its first call: the page of `b - 1` is mapped, no page above it is, and neither
    the pages up to it nor the tables are marked free. -/
structure Starts (regions : List Memory.Region) (b : BitVec 32) (s : Task) : Prop where
  base : 0#32 < b ∧ b < 0x80000000#32
  limit : s.limit = b
  call : s.call = none
  last : s.last = none
  tables : Tables s.space
  tables_held : ∀ i, present (s.space.mem s.space.cr3 i) = true →
    ¬ Free regions s.bitmaps (frame (s.space.mem s.space.cr3 i))
  mapped : s.space.frameOf (b - 1#32) ≠ none
  above : ∀ v, v < 0x80000000#32 → page (b - 1#32) < page v → s.space.frameOf v = none
  held : ∀ v f, page v ≤ page (b - 1#32) → s.space.frameOf v = some f →
    ¬ Free regions s.bitmaps f

/-- The next page can be mapped: there are free pages, and the page table is in place or can be
    inserted without disturbing anything. -/
def CanGrow (regions : List Memory.Region) (s : Task) : Prop :=
  ∃ a bitmaps, Memory.kpageAlloc s.bitmaps regions = some (a, bitmaps) ∧
    (present (s.space.pde (lastPage (s.limit + pageSize))) = true ∨
      ∃ t bitmaps', Memory.kpageAlloc bitmaps regions = some (t, bitmaps') ∧
        (s.vm none).InsertsCleanly (BitVec.ofNat 20 (t / 4096))
          (lastPage (s.limit + pageSize)))

/-- The condition on a step: a call gives up no page, and each page it grows by can be mapped. -/
def Grows (regions : List Memory.Region) (s : Task) : Op → Prop
  | .sbrk inc => page (s.limit - 1#32) ≤ page (s.limit + inc - 1#32)
  | .resume => ∀ c, s.call = some c → page (s.limit - 1#32) < page (c.prevLimit + c.inc - 1#32) →
      CanGrow regions s

/-! ## One round -/

section Arithmetic

variable {v w : BitVec 32}

theorem pageOf_eq_iff_page : pageOf v = pageOf w ↔ page v = page w := by
  rw [← BitVec.toNat_inj, pageOf_toNat, pageOf_toNat]
  rfl

theorem page_lt (v : BitVec 32) : page v < 2 ^ 20 := by
  have := v.isLt
  simp only [page]
  omega

theorem page_lastPage (v : BitVec 32) : page (lastPage v) = page (v - 1#32) := by
  have hlt := page_lt (v - 1#32)
  simp only [page] at hlt ⊢
  rw [lastPage, alignPgDown_eq, pageNo_toNat hlt]
  omega

theorem lastPage_lt_iff : lastPage v < lastPage w ↔ page (v - 1#32) < page (w - 1#32) := by
  rw [lastPage, lastPage, alignPgDown_eq, alignPgDown_eq]
  exact pageNo_lt_iff (page_lt _) (page_lt _)

/-- The user half lies below the window. -/
theorem dirIdx_ne_of_page (hv : page v < 0x80000) : dirIdx v ≠ 1023#10 := by
  apply Vm.dirIdx_ne_of_lt
  simp only [page] at hv
  simp only [BitVec.lt_def, BitVec.toNat_ofNat, Nat.reducePow, Nat.reduceMod]
  omega

theorem page_lt_of_lt (hv : v < 0x80000000#32) : page v < 0x80000 := by
  simp only [BitVec.lt_def, BitVec.toNat_ofNat, Nat.reducePow, Nat.reduceMod] at hv
  simp only [page]
  omega

/-- A limit in the user half is behind its last byte. -/
theorem toNat_sub_one (hv : 0 < v.toNat) : (v - 1#32).toNat = v.toNat - 1 := by
  have := v.isLt
  simp only [BitVec.toNat_sub, BitVec.toNat_ofNat, Nat.reducePow, Nat.reduceMod]
  omega

theorem lt_of_page_lt (hv : page v < 0x80000) : v < 0x80000000#32 := by
  simp only [page] at hv
  simp only [BitVec.lt_def, BitVec.toNat_ofNat, Nat.reducePow, Nat.reduceMod]
  omega

theorem page_sub_one_lt (hv : 0 < v.toNat) (hv' : v < 0x80000000#32) :
    page (v - 1#32) < 0x80000 := by
  apply page_lt_of_lt
  rw [BitVec.lt_def] at hv' ⊢
  rw [toNat_sub_one hv]
  omega

/-- The next page follows the last one. -/
theorem page_add_pageSize (hv : 0 < v.toNat) (hv' : v.toNat ≤ 0x80000000) :
    (v + pageSize).toNat = v.toNat + 4096 ∧
      page (v + pageSize - 1#32) = page (v - 1#32) + 1 := by
  have hadd : (v + pageSize).toNat = v.toNat + 4096 := by
    simp only [pageSize, BitVec.toNat_add, BitVec.toNat_ofNat, Nat.reducePow, Nat.reduceMod]
    omega
  refine ⟨hadd, ?_⟩
  rw [page, page, toNat_sub_one (by omega), toNat_sub_one hv, hadd]
  omega

end Arithmetic

section Round

variable {regions : List Memory.Region} {b : BitVec 32} {s s' : Task}

/-- The tables of the task are in order, and none of them is marked free. -/
structure TablesHeld (regions : List Memory.Region) (s : Task) : Prop where
  tables : Tables s.space
  held : ∀ i, present (s.space.mem s.space.cr3 i) = true →
    ¬ Free regions s.bitmaps (frame (s.space.mem s.space.cr3 i))

/-- A round of the first loop maps the page behind the limit to a page that is not marked free any
    more. -/
structure Grown (regions : List Memory.Region) (s s' : Task) : Prop where
  limit : s'.limit = s.limit + pageSize
  call : s'.call = s.call
  last : s'.last = s.last
  tables : TablesHeld regions s'
  mapped : ∃ f, s'.space.frameOf (lastPage (s.limit + pageSize)) = some f ∧
    ¬ Free regions s'.bitmaps f
  others : ∀ w, w < 0x80000000#32 → page w ≠ page (s.limit + pageSize - 1#32) →
    s'.space.frameOf w = s.space.frameOf w
  marks : ∀ f, Free regions s'.bitmaps f → Free regions s.bitmaps f

theorem TablesHeld.freshPage (h : TablesHeld regions s) {t : BitVec 20}
    (ht : Free regions s.bitmaps t) : FreshPage s.space t := by
  rintro i hi rfl
  exact h.held i hi ht

/-- `map_page` on the bitmaps: the page that it may take for a table is not free any more. -/
theorem mapPage_spec (hw : WholePages regions) (h : TablesHeld regions s) {v : BitVec 32}
    (hv : dirIdx v ≠ 1023#10) (paddr : BitVec 32)
    (hcase : present (s.space.pde v) = true ∨ ∃ t bitmaps,
      Memory.kpageAlloc s.bitmaps regions = some (t, bitmaps) ∧
        (s.vm none).InsertsCleanly (BitVec.ofNat 20 (t / 4096)) v) :
    ∃ s', s.mapPage regions v paddr = some s' ∧ s'.limit = s.limit ∧ s'.call = s.call ∧
      s'.last = s.last ∧ TablesHeld regions s' ∧ s'.space.frameOf v = some (pageOf paddr) ∧
      (∀ w, pageOf w ≠ pageOf v → dirIdx w ≠ 1023#10 →
        s'.space.frameOf w = s.space.frameOf w) ∧
      ∀ f, Free regions s'.bitmaps f → Free regions s.bitmaps f := by
  generalize hnext : Memory.kpageAlloc s.bitmaps regions = next at hcase
  have hcase' : present ((s.vm (next.map Prod.fst)).space.pde v) = true ∨
      ∃ t ts, (s.vm (next.map Prod.fst)).freePages = t :: ts ∧
        FreshPage (s.vm (next.map Prod.fst)).space t ∧
        (s.vm (next.map Prod.fst)).InsertsCleanly t v := by
    rcases hcase with hp | ⟨t, bitmaps, rfl, hc⟩
    · exact .inl hp
    · exact .inr ⟨_, [], rfl, h.freshPage (kpageAlloc_frame hw hnext).1, hc⟩
  obtain ⟨vm, hvm, hone⟩ := Vm.mapPage_mapsOne h.tables hv paddr hcase'
  have hs : s.mapPage regions v paddr = some { s with
      space := vm.space
      bitmaps := if vm.freePages = [] then (next.map Prod.snd).getD s.bitmaps
        else s.bitmaps } := by
    simp only [Task.mapPage, hnext, hvm, Option.map_some]
  have hmarks : ∀ f, Free regions (if vm.freePages = [] then (next.map Prod.snd).getD s.bitmaps
      else s.bitmaps) f → Free regions s.bitmaps f := by
    intro f hf
    split at hf
    · cases next with
      | none => exact hf
      | some p => exact (kpageAlloc_frame hw hnext).2.2 f hf
    · exact hf
  refine ⟨_, hs, rfl, rfl, rfl, ⟨hone.tables, fun i hi => ?_⟩, hone.mapped, hone.others, hmarks⟩
  by_cases hsame : vm.space.mem vm.space.cr3 i = s.space.mem s.space.cr3 i
  · change present (vm.space.mem vm.space.cr3 i) = true at hi
    rw [hsame] at hi
    intro hf
    change Free regions _ (frame (vm.space.mem vm.space.cr3 i)) at hf
    rw [hsame] at hf
    exact h.held i hi (hmarks _ hf)
  · -- the new table is the page that was taken
    have hdir := hone.dir i hsame
    cases next with
    | none => cases hdir
    | some p =>
        obtain ⟨hframe, hrest⟩ := List.cons.inj hdir
        change ¬ Free regions _ (frame (vm.space.mem vm.space.cr3 i))
        rw [← hframe, if_pos hrest.symm]
        exact (kpageAlloc_frame hw hnext).2.1

/-- A round of the first loop whose page can be mapped. -/
theorem growRound_spec (hw : WholePages regions) (h : TablesHeld regions s)
    (hpos : 0 < s.limit.toNat) (hlt : page (s.limit - 1#32) < 0x7FFFF)
    (hc : CanGrow regions s) : ∃ s', s.growRound regions = some s' ∧ Grown regions s s' := by
  obtain ⟨a, bitmaps, halloc, hcase⟩ := hc
  obtain ⟨-, hmarked, hmarks⟩ := kpageAlloc_frame hw halloc
  have hle : s.limit.toNat ≤ 0x80000000 := by
    rw [page, toNat_sub_one hpos] at hlt
    omega
  obtain ⟨-, hnext⟩ := page_add_pageSize hpos hle
  have hv := page_lastPage (s.limit + pageSize)
  have hdir : dirIdx (lastPage (s.limit + pageSize)) ≠ 1023#10 :=
    dirIdx_ne_of_page (by omega)
  obtain ⟨s', hs', hlim, hcall, hlast, htables, hmapped, hothers, hmarks'⟩ :=
    mapPage_spec (s := { s with limit := s.limit + pageSize, bitmaps }) hw
      ⟨h.tables, fun i hi hf => h.held i hi (hmarks _ hf)⟩ hdir (BitVec.ofNat 32 a) hcase
  refine ⟨s', ?_, hlim, hcall, hlast, htables, ⟨_, hmapped, ?_⟩, fun w hw32 hne => ?_,
    fun f hf => hmarks f (hmarks' f hf)⟩
  · simp only [Task.growRound, halloc, Option.bind_eq_bind, Option.bind_some]
    exact hs'
  · rw [pageOf_kpageAlloc hw halloc]
    exact fun hf => hmarked (hmarks' _ hf)
  · refine hothers w (fun he => hne ?_) (dirIdx_ne_of_page (page_lt_of_lt hw32))
    rw [pageOf_eq_iff_page, hv] at he
    exact he

/-! ## Whole runs -/

/-- What holds between the steps of a run. -/
structure Sound (regions : List Memory.Region) (b : BitVec 32) (s : Task) : Prop where
  base : 0 < b.toNat
  limit : b.toNat ≤ s.limit.toNat ∧ s.limit.toNat ≤ 0x80000000
  tables : TablesHeld regions s
  mapped : ∀ v, v < 0x80000000#32 → page (b - 1#32) < page v →
    (s.space.frameOf v ≠ none ↔ page v ≤ page (s.limit - 1#32))
  held : ∀ v f, page v ≤ page (s.limit - 1#32) → s.space.frameOf v = some f →
    ¬ Free regions s.bitmaps f
  /-- A call in progress has not passed its target, and reaches it in its first loop. -/
  call : ∀ c, s.call = some c → c.prevLimit = c.entry.limit ∧
    b ≤ c.prevLimit + c.inc ∧ c.prevLimit + c.inc < 0x80000000#32 ∧
    page (c.entry.limit - 1#32) ≤ page (s.limit - 1#32) ∧
    page (s.limit - 1#32) ≤ page (c.prevLimit + c.inc - 1#32) ∧
    (c.loop = .shrink → page (c.prevLimit + c.inc - 1#32) = page (s.limit - 1#32))
  /-- The last call gave up no page. -/
  last : s.call = none → ∀ d, s.last = some d → d.ret = d.entry.limit ∧
    s.limit = d.entry.limit + d.inc ∧ page (d.entry.limit - 1#32) ≤ page (s.limit - 1#32)

theorem Starts.sound (h : Starts regions b s) : Sound regions b s := by
  obtain ⟨hpos, hlt⟩ := h.base
  simp only [BitVec.lt_def, BitVec.toNat_ofNat, Nat.reducePow, Nat.reduceMod] at hpos hlt
  refine ⟨hpos, ?_, ⟨h.tables, h.tables_held⟩, fun v hv hpage => ?_, ?_, fun c hc => ?_,
    fun _ d hd => ?_⟩
  · rw [h.limit]
    omega
  · rw [h.above v hv hpage, h.limit]
    simp only [ne_eq, not_true_eq_false, false_iff]
    omega
  · rw [h.limit]
    exact h.held
  · rw [h.call] at hc
    cases hc
  · rw [h.last] at hd
    cases hd

/-- Between calls the heap is exact. -/
theorem Sound.heapExact (h : Sound regions b s) (hidle : s.call = none) :
    HeapExact regions b s := by
  refine ⟨h.mapped, fun v f hv => h.held v f ?_, fun d hd => ?_⟩
  · obtain ⟨hlow, -⟩ := h.limit
    have hbase := h.base
    rw [BitVec.lt_def] at hv
    rw [page, page, toNat_sub_one (by omega)]
    omega
  · obtain ⟨hret, hlimit, hpages⟩ := h.last hidle d hd
    exact ⟨hret, hlimit, fun v f hv hv' => by omega⟩

/-- A round of the first loop. -/
theorem Sound.grow (h : Sound regions b s) {c : Call} (hc : s.call = some c)
    (hloop : c.loop = .grow)
    (hlt : page (s.limit - 1#32) < page (c.prevLimit + c.inc - 1#32))
    (hg : Grown regions s s') : Sound regions b s' := by
  obtain ⟨hprev, hbase, htarget, hentry, -, -⟩ := h.call c hc
  obtain ⟨hlow, hhigh⟩ := h.limit
  have hpos : 0 < s.limit.toNat := Nat.lt_of_lt_of_le h.base hlow
  obtain ⟨hadd, hnext⟩ := page_add_pageSize hpos hhigh
  have hlast := page_lastPage (s.limit + pageSize)
  obtain ⟨f, hf, hfree⟩ := hg.mapped
  have hnew : ∀ v, page v = page (s.limit + pageSize - 1#32) → s'.space.frameOf v = some f := by
    intro v hv
    rw [Space.frameOf_congr (pageOf_eq_iff_page.mpr (hv.trans hlast.symm)), hf]
  have htop : page (c.prevLimit + c.inc - 1#32) < 0x80000 := by
    rw [BitVec.le_def] at hbase
    exact page_sub_one_lt (Nat.lt_of_lt_of_le h.base hbase) htarget
  have hhigh' : (s.limit + pageSize).toNat ≤ 0x80000000 := by
    have : page (s.limit + pageSize - 1#32) < 0x80000 := by omega
    rw [page, toNat_sub_one (by omega)] at this
    omega
  refine ⟨h.base, ?_, hg.tables, fun v hv hpage => ?_, fun v f' hv hf' => ?_, fun c' hc' => ?_,
    fun hidle => ?_⟩
  · rw [hg.limit]
    omega
  · rw [hg.limit]
    by_cases hnewPage : page v = page (s.limit + pageSize - 1#32)
    · rw [hnew v hnewPage]
      simp only [ne_eq, reduceCtorEq, not_false_eq_true, true_iff]
      omega
    · rw [hg.others v hv hnewPage, h.mapped v hv hpage]
      omega
  · rw [hg.limit] at hv
    by_cases hnewPage : page v = page (s.limit + pageSize - 1#32)
    · rw [hnew v hnewPage] at hf'
      obtain rfl := Option.some.inj hf'
      exact hfree
    · rw [hg.others v (lt_of_page_lt (by omega)) hnewPage] at hf'
      exact fun hfr => h.held v f' (by omega) hf' (hg.marks _ hfr)
  · rw [hg.call, hc] at hc'
    obtain rfl := Option.some.inj hc'
    rw [hg.limit]
    refine ⟨hprev, hbase, htarget, by omega, by omega, fun hl => ?_⟩
    rw [hloop] at hl
    cases hl
  · rw [hg.call, hc] at hidle
    cases hidle

/-- Entering a call. -/
theorem Sound.sbrk (h : Sound regions b s) {inc : BitVec 32}
    (hok : Allowed b s (.sbrk inc)) (hsafe : Grows regions s (.sbrk inc)) :
    Sound regions b { s with call := some ⟨inc, s.limit, .grow, ⟨s.space, s.limit⟩⟩ } := by
  obtain ⟨-, hbase, htarget⟩ := hok
  refine ⟨h.base, h.limit, ⟨h.tables.tables, h.tables.held⟩, h.mapped, h.held, fun c hc => ?_,
    fun hidle => ?_⟩
  · obtain rfl := Option.some.inj hc
    exact ⟨rfl, hbase, htarget, Nat.le_refl _, hsafe, fun hl => by cases hl⟩
  · cases hidle

/-- Leaving the first loop. -/
theorem Sound.leaveGrow (h : Sound regions b s) {c : Call} (hc : s.call = some c)
    (hpage : page (c.prevLimit + c.inc - 1#32) = page (s.limit - 1#32)) :
    Sound regions b { s with call := some { c with loop := .shrink } } := by
  refine ⟨h.base, h.limit, ⟨h.tables.tables, h.tables.held⟩, h.mapped, h.held, fun c' hc' => ?_,
    fun hidle => ?_⟩
  · obtain rfl := Option.some.inj hc'
    obtain ⟨hprev, hbase, htarget, hentry, hle, -⟩ := h.call c hc
    exact ⟨hprev, hbase, htarget, hentry, hle, fun _ => hpage⟩
  · cases hidle

/-- Returning: with the target's last page reached, only the limit changes. -/
theorem Sound.finish (h : Sound regions b s) {c : Call} (hc : s.call = some c)
    (hpage : page (c.prevLimit + c.inc - 1#32) = page (s.limit - 1#32)) :
    Sound regions b { s with limit := c.prevLimit + c.inc, call := none,
                             last := some ⟨c.inc, c.prevLimit, c.entry⟩ } := by
  obtain ⟨hprev, hbase, htarget, hentry, -, -⟩ := h.call c hc
  refine ⟨h.base, ⟨hbase, ?_⟩, ⟨h.tables.tables, h.tables.held⟩, ?_, ?_, fun c' hc' => ?_,
    fun _ d hd => ?_⟩
  · exact Nat.le_of_lt htarget
  · simp only [hpage]
    exact h.mapped
  · simp only [hpage]
    exact h.held
  · cases hc'
  · obtain rfl := Option.some.inj hd
    refine ⟨hprev, by rw [hprev], ?_⟩
    simp only [hpage]
    exact hentry

/-- How many steps the call still takes. -/
def stepsLeft (s : Task) : Nat :=
  s.call.elim 0 fun c =>
    match c.loop with
    | .grow => page (c.prevLimit + c.inc - 1#32) - page (s.limit - 1#32) + 2
    | .shrink => 1

/-- What a call does next: a round of the first loop, or the way out of a loop. -/
inductive Resumes (regions : List Memory.Region) (s : Task) (c : Call) : Task → Prop
  | grow {s' : Task} : c.loop = .grow →
      page (s.limit - 1#32) < page (c.prevLimit + c.inc - 1#32) → Grown regions s s' →
      Resumes regions s c s'
  | leaveGrow : c.loop = .grow →
      page (c.prevLimit + c.inc - 1#32) = page (s.limit - 1#32) →
      Resumes regions s c { s with call := some { c with loop := .shrink } }
  | finish : c.loop = .shrink →
      page (c.prevLimit + c.inc - 1#32) = page (s.limit - 1#32) →
      Resumes regions s c { s with limit := c.prevLimit + c.inc, call := none,
                                   last := some ⟨c.inc, c.prevLimit, c.entry⟩ }

theorem resume_cases (hw : WholePages regions) (h : Sound regions b s) {c : Call}
    (hc : s.call = some c) (hsafe : Grows regions s .resume) :
    ∃ s', step regions s .resume = some s' ∧ Resumes regions s c s' := by
  obtain ⟨-, hbase, htarget, -, hle, hshrink⟩ := h.call c hc
  simp only [step, hc, Option.bind_some, resume]
  cases hloop : c.loop with
  | grow =>
      simp only [lastPage_lt_iff]
      split
      · next hlt =>
          have hpos : 0 < s.limit.toNat := Nat.lt_of_lt_of_le h.base h.limit.1
          have htop := page_sub_one_lt (Nat.lt_of_lt_of_le h.base (BitVec.le_def.mp hbase)) htarget
          obtain ⟨s', hs', hg⟩ :=
            growRound_spec hw h.tables hpos (by omega) (hsafe c hc hlt)
          exact ⟨s', hs', .grow hloop hlt hg⟩
      · next hlt => exact ⟨_, rfl, .leaveGrow hloop (by omega)⟩
  | shrink =>
      simp only [lastPage_lt_iff]
      have hpage := hshrink hloop
      rw [if_neg (by omega)]
      exact ⟨_, rfl, .finish hloop hpage⟩

theorem Sound.resumes (h : Sound regions b s) {c : Call} (hc : s.call = some c)
    (hr : Resumes regions s c s') : Sound regions b s' := by
  cases hr with
  | grow hloop hlt hg => exact h.grow hc hloop hlt hg
  | leaveGrow hloop hpage => exact h.leaveGrow hc hpage
  | finish hloop hpage => exact h.finish hc hpage

/-- Each step brings the call one step closer to its end. -/
theorem Resumes.stepsLeft (h : Sound regions b s) {c : Call} (hc : s.call = some c)
    (hr : Resumes regions s c s') : stepsLeft s' + 1 = stepsLeft s := by
  cases hr with
  | grow hloop hlt hg =>
      obtain ⟨hlow, hhigh⟩ := h.limit
      obtain ⟨-, hnext⟩ := page_add_pageSize (Nat.lt_of_lt_of_le h.base hlow) hhigh
      simp only [Sbrk.stepsLeft, hg.call, hg.limit, hc, Option.elim_some, hloop, hnext]
      omega
  | leaveGrow hloop hpage =>
      simp only [Sbrk.stepsLeft, hc, Option.elim_some, hloop]
      omega
  | finish hloop hpage => simp only [Sbrk.stepsLeft, hc, Option.elim_some, Option.elim_none, hloop]

theorem Sound.step (hw : WholePages regions) (h : Sound regions b s) {op : Op}
    (hok : Allowed b s op) (hsafe : Grows regions s op) (hs : step regions s op = some s') :
    Sound regions b s' := by
  cases op with
  | sbrk inc =>
      obtain rfl := Option.some.inj hs
      exact h.sbrk hok hsafe
  | resume =>
      obtain ⟨c, hc, -⟩ := Option.bind_eq_some_iff.mp hs
      obtain ⟨s'', hs'', hr⟩ := resume_cases hw h hc hsafe
      obtain rfl := Option.some.inj (hs.symm.trans hs'')
      exact h.resumes hc hr

/-- In every run in which no call gives up a page, and each page that a call grows by can be mapped,
    the heap is exact between any two calls, and a call in progress is one step closer to its end
    with each of its steps. -/
theorem heap_exact_of_grows (regions : List Memory.Region) (hw : WholePages regions)
    (b : BitVec 32) (init s : Task) (h : Starts regions b init)
    (hr : Reaches (step regions) (fun s op => Allowed b s op ∧ Grows regions s op) init s) :
    (s.call = none → HeapExact regions b s) ∧
      (s.call ≠ none → Grows regions s .resume →
        ∃ s', step regions s .resume = some s' ∧ stepsLeft s' + 1 = stepsLeft s) := by
  have hsound : Sound regions b s :=
    hr.invariant h.sound fun _ _ _ hi hok hs => hi.step hw hok.1 hok.2 hs
  refine ⟨hsound.heapExact, fun hcall hsafe => ?_⟩
  obtain ⟨c, hc⟩ := Option.ne_none_iff_exists'.mp hcall
  obtain ⟨s', hs', hres⟩ := resume_cases hw hsound hc hsafe
  exact ⟨s', hs', hres.stepsLeft hsound hc⟩

end Round

/-! ## A small task -/

/-- Eight pages from `0x10000` on. -/
def eightPages : List Memory.Region := [⟨0x10000, 8, 0x9000⟩]

/-- A task that has page 5 mapped, to frame 8, and whose heap starts behind it. -/
def smallTask : Task where
  space := (Vm.pageFive 0x8007#32).space
  bitmaps := fun _ => 0#8
  limit := 0x6000#32
  call := none
  last := none

theorem eightPages_whole : WholePages eightPages := by
  refine ⟨by decide, by decide, ?_⟩
  simp [Memory.DisjointRegions, eightPages]

theorem eightPages_not_free {bitmaps : Nat → BitVec 8} {f : BitVec 20} (hf : f.toNat < 16) :
    ¬ Free eightPages bitmaps f := by
  rintro ⟨p, ⟨i, hi, k, hk, ha, -⟩, -⟩
  obtain rfl : i = 0 := by
    simp only [eightPages, List.length_cons, List.length_nil] at hi
    omega
  simp only [eightPages, List.getElem_cons_zero, Memory.Region.page, Memory.pageSize] at ha
  omega

theorem smallTask_frameOf {v : BitVec 32} (hv : v < 0x80000000#32) :
    smallTask.space.frameOf v = if page v = 5 then some 8#20 else none := by
  have hpage : page v = 5 ↔ dirIdx v = 0#10 ∧ tblIdx v = 5#10 := by
    simp only [page, ← BitVec.toNat_inj, dirIdx_toNat, tblIdx_toNat, BitVec.toNat_ofNat,
      Nat.reducePow, Nat.reduceMod]
    omega
  have hwin : dirIdx v ≠ 1023#10 := dirIdx_ne_of_page (page_lt_of_lt hv)
  rw [Space.frameOf, Space.pte, Space.pde]
  by_cases hd : dirIdx v = 0#10
  · by_cases ht : tblIdx v = 5#10
    · rw [if_pos (hpage.mpr ⟨hd, ht⟩), hd, ht]
      rfl
    · have hentry : smallTask.space.mem 2#20 (tblIdx v) = 0#32 := by
        simp [smallTask, Vm.pageFive, ht]
      have hdir : frame (smallTask.space.mem smallTask.space.cr3 0#10) = 2#20 := by decide
      rw [if_neg fun he => ht (hpage.mp he).2, hd, hdir, hentry]
      simp [present]
  · have hentry : smallTask.space.mem smallTask.space.cr3 (dirIdx v) = 0#32 := by
      simp [smallTask, Vm.pageFive, hd, hwin]
    rw [if_neg fun he => hd (hpage.mp he).1, hentry]
    simp [present]

theorem smallTask_starts : Starts eightPages 0x6000#32 smallTask := by
  refine ⟨by decide, rfl, rfl, rfl, Vm.pageFive_tables _, fun i hi => ?_, by decide,
    fun v hv hpage => ?_, fun v f hpage hf => ?_⟩
  · rcases Vm.pageFive_present hi with rfl | rfl
    · exact eightPages_not_free (by decide)
    · exact eightPages_not_free (by decide)
  · have hbase : page (0x6000#32 - 1#32) = 5 := by decide
    rw [smallTask_frameOf hv, if_neg (by omega)]
  · have hbase : page (0x6000#32 - 1#32) = 5 := by decide
    rw [smallTask_frameOf (lt_of_page_lt (by omega))] at hf
    split at hf
    · obtain rfl := Option.some.inj hf
      exact eightPages_not_free (by decide)
    · cases hf

/-- A step that passes this test meets the condition, with the page table in place. -/
def TableInPlace (s : Task) : Op → Prop
  | .sbrk inc => page (s.limit - 1#32) ≤ page (s.limit + inc - 1#32)
  | .resume => (Memory.kpageAlloc s.bitmaps eightPages).isSome = true ∧
      present (s.space.pde (lastPage (s.limit + pageSize))) = true

instance (s : Task) : ∀ op, Decidable (TableInPlace s op)
  | .sbrk _ => inferInstanceAs (Decidable (_ ≤ _))
  | .resume => inferInstanceAs (Decidable (_ ∧ _))

theorem TableInPlace.grows {s : Task} {op : Op} (h : TableInPlace s op) :
    Grows eightPages s op := by
  cases op with
  | sbrk inc => exact h
  | resume =>
      obtain ⟨hsome, hp⟩ := h
      obtain ⟨⟨a, bitmaps⟩, halloc⟩ := Option.isSome_iff_exists.mp hsome
      exact fun _ _ _ => ⟨a, bitmaps, halloc, .inl hp⟩

/-- `sbrk(5000)` maps pages 6 and 7, `sbrk(-100)` keeps them, and the heap is exact. -/
theorem heap_exact_of_grows_small : ∃ s, Reaches (step eightPages)
    (fun s op => Allowed 0x6000#32 s op ∧ Grows eightPages s op) smallTask s ∧
    s.limit = 0x7324#32 ∧ s.space.frameOf 0x7000#32 = some 17#20 ∧
    HeapExact eightPages 0x6000#32 s := by
  have hrun : (runChecked (step eightPages)
      (fun s op => Allowed 0x6000#32 s op ∧ TableInPlace s op) smallTask
      [.sbrk 5000#32, .resume, .resume, .resume, .resume, .sbrk (-100#32), .resume,
        .resume]).any (fun s => decide (s.call.isNone = true ∧ s.limit = 0x7324#32 ∧
          s.space.frameOf 0x7000#32 = some 17#20)) = true := by decide +kernel
  obtain ⟨s, hr, hobs⟩ := exists_reaches_of_any hrun
  obtain ⟨hidle, hlimit, hframe⟩ := of_decide_eq_true hobs
  have hr' : Reaches (step eightPages)
      (fun s op => Allowed 0x6000#32 s op ∧ Grows eightPages s op) smallTask s :=
    hr.mono fun _ _ hok => ⟨hok.1, hok.2.grows⟩
  exact ⟨s, hr', hlimit, hframe, (heap_exact_of_grows eightPages eightPages_whole 0x6000#32
    smallTask s smallTask_starts hr').1 (Option.isNone_iff_eq_none.mp hidle)⟩

/-- After `sbrk(4096)` and `sbrk(-4096)` the limit is back at `0x6000`, and page 6 is mapped. -/
theorem heap_not_exact : ¬ ∀ (regions : List Memory.Region) (b : BitVec 32) (init s : Task),
    WholePages regions → Starts regions b init → Reaches (step regions) (Allowed b) init s →
    s.call = none → HeapExact regions b s := by
  intro hall
  have hrun : (runChecked (step eightPages) (Allowed 0x6000#32) smallTask
      [.sbrk 4096#32, .resume, .resume, .resume, .sbrk (-4096#32), .resume, .resume,
        .resume]).any (fun s => decide (s.call.isNone = true ∧ s.limit = 0x6000#32 ∧
          (s.space.frameOf 0x6000#32).isSome = true)) = true := by decide +kernel
  obtain ⟨s, hr, hobs⟩ := exists_reaches_of_any hrun
  obtain ⟨hidle, hlimit, hframe⟩ := of_decide_eq_true hobs
  have hexact := hall eightPages 0x6000#32 smallTask s eightPages_whole smallTask_starts hr
    (Option.isNone_iff_eq_none.mp hidle)
  have hmapped := (hexact.mapped 0x6000#32 (by decide) (by decide)).mp
    (Option.isSome_iff_ne_none.mp hframe)
  rw [hlimit] at hmapped
  exact absurd hmapped (by decide)

end Sbrk

end Muse.Paging
