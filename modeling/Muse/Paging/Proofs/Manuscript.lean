import Muse.Library.LastWrite
import Muse.Paging.Proofs.Temporary

/-!
# Directories under construction

`create_task_directory` and `create_kernel_directory` build a directory in the same way, from
different entries. `Building` is the invariant of a directory under construction: it is on page `V`
of the heap, backed by the page `d`, `base` are its first entries, and `bound i` is the table of
entry `i` with the page of the heap it is built on. `Inserted` adds what the tables hold after some
scrolls, and `Binding` is the invariant of `bind_manuscript`.
-/

namespace Muse.Paging

open Muse.Library

/-- The page of a scroll that is inserted, and the page behind it. -/
def Scroll.mapping (scr : Scroll) : BitVec 20 × BitVec 20 := (pageOf scr.vaddr, pageOf scr.page)

/-- The entries of a directory that scrolls use. -/
def slotsOf (scrolls : List Scroll) : Finset (BitVec 10) :=
  (scrolls.map fun scr => dirIdx scr.vaddr).toFinset

theorem mem_slotsOf {scrolls : List Scroll} {i : BitVec 10} :
    i ∈ slotsOf scrolls ↔ ∃ scr ∈ scrolls, dirIdx scr.vaddr = i := by
  rw [slotsOf, List.mem_toFinset, List.mem_map]

theorem slotsOf_subset {scrolls scrolls' : List Scroll} (h : scrolls ⊆ scrolls') :
    slotsOf scrolls ⊆ slotsOf scrolls' := by
  intro i hi
  obtain ⟨scr, hscr, rfl⟩ := mem_slotsOf.mp hi
  exact mem_slotsOf.mpr ⟨scr, h hscr, rfl⟩

theorem slotsOf_concat (scrolls : List Scroll) (scr : Scroll) :
    slotsOf (scrolls ++ [scr]) = insert (dirIdx scr.vaddr) (slotsOf scrolls) := by
  ext i
  simp only [slotsOf, List.map_append, List.toFinset_append, Finset.mem_union, Finset.mem_insert,
    List.map_singleton, List.mem_toFinset, List.mem_singleton]
  exact or_comm

namespace Vm

/-- The entry of a table that is under construction on page `W`. -/
def boundEntry (W : BitVec 20) : BitVec 32 :=
  createPagingEntry (pageAddr W) true true true ||| manuscriptBind

/-- Entry `i` of the directory `d` has its table `T` on page `W`. -/
structure TableAt (s₀ s : Vm) (V d W T : BitVec 20) : Prop where
  mem : T ∈ s₀.freePages
  used : T ∉ s.freePages
  ne_dir : T ≠ d
  ne_page : W ≠ V
  map : s.space.frameOf (pageAddr W) = some T
  taken : s.Taken W

/-- The pages on which the directory and the tables of the entries from `n` on are built. -/
def Holds (V : BitVec 20) (bound : BitVec 10 → Option (BitVec 20 × BitVec 20)) (n : Nat)
    (X : BitVec 20) : Prop :=
  X = V ∨ ∃ i T, n ≤ i.toNat ∧ bound i = some (X, T)

structure Building (s₀ s : Vm) (V d : BitVec 20) (base : BitVec 10 → BitVec 32)
    (bound : BitVec 10 → Option (BitVec 20 × BitVec 20)) (pages : List (BitVec 20)) : Prop where
  within : Within s₀ s
  mem : d ∈ s₀.freePages
  used : d ∉ s.freePages
  map : s.space.frameOf (pageAddr V) = some d
  taken : s.Taken V
  table : ∀ i W T, bound i = some (W, T) → TableAt s₀ s V d W T
  entry : ∀ i W T, bound i = some (W, T) → s.space.mem d i = boundEntry W
  inj : ∀ i j W T W' T', bound i = some (W, T) → bound j = some (W', T') →
    W = W' ∨ T = T' → i = j
  unbound : ∀ i, bound i = none → s.space.mem d i = base i
  trace : Temporary s₀ s (Holds V bound 0) pages
  dir_page : V ∈ pages
  table_page : ∀ i W T, bound i = some (W, T) → W ∈ pages

section Building

variable {s₀ s s' : Vm} {V d : BitVec 20} {base : BitVec 10 → BitVec 32}
  {bound : BitVec 10 → Option (BitVec 20 × BitVec 20)} {pages pages' : List (BitVec 20)}

/-- Steps that leave the directory and the pages on which it is built. -/
theorem Building.congr (hb : Building s₀ s V d base bound pages) (hw : Within s₀ s')
    (hmaps : ∀ X, Holds V bound 0 X → s'.space.frameOf (pageAddr X) = s.space.frameOf (pageAddr X))
    (hmem : ∀ k, s'.space.mem d k = s.space.mem d k) (hpool : s'.freePages <:+ s.freePages)
    (htaken : ∀ Y, s.Taken Y → s'.Taken Y) (htrace : Temporary s₀ s' (Holds V bound 0) pages')
    (hpages : pages ⊆ pages') : Building s₀ s' V d base bound pages' := by
  refine ⟨hw, hb.mem, fun hd => hb.used (hpool.subset hd), (hmaps V (.inl rfl)).trans hb.map,
    htaken V hb.taken, fun i W T hi => ?_, fun i W T hi => ?_, hb.inj, fun i hi => ?_, htrace,
    hpages hb.dir_page, fun i W T hi => hpages (hb.table_page i W T hi)⟩
  · have ht := hb.table i W T hi
    exact ⟨ht.mem, fun hm => ht.used (hpool.subset hm), ht.ne_dir, ht.ne_page,
      (hmaps W (.inr ⟨i, T, Nat.zero_le _, hi⟩)).trans ht.map, htaken W ht.taken⟩
  · rw [hmem, hb.entry i W T hi]
  · rw [hmem, hb.unbound i hi]

/-- Filling a page other than the directory. -/
theorem Building.fills (hb : Building s₀ s V d base bound pages) {f : BitVec 20}
    (hf : Fills s₀ s s' f) (hne : d ≠ f) : Building s₀ s' V d base bound pages := by
  refine hb.congr hf.within (fun X _ => hf.maps _) (hf.mem d hne)
    (hf.freePages ▸ List.suffix_refl _)
    (fun Y hY => ?_) (hb.trace.congr hf.maps hf.pageHeap) (List.Subset.refl _)
  simpa only [Taken, HeapPage, hf.pageHeap] using hY

/-- Taking free pages. -/
theorem Building.rest (hb : Building s₀ s V d base bound pages)
    (hs : s'.space = s.space) (hheap : s'.pageHeap = s.pageHeap)
    (hpool : s'.freePages <:+ s.freePages) : Building s₀ s' V d base bound pages := by
  have hw := hb.within
  have hw' : Within s₀ s' := ⟨hs ▸ hw.cr3, hs ▸ hw.mem, hpool.trans hw.pool,
    hheap ▸ hw.alignedStart, hheap ▸ hw.bitmapCnt, hheap ▸ hw.marks⟩
  refine hb.congr hw' (fun X _ => by rw [hs]) (fun k => by rw [hs]) hpool (fun Y hY => ?_)
    (hb.trace.congr (fun w => by rw [hs]) hheap) (List.Subset.refl _)
  simpa only [Taken, HeapPage, hheap] using hY

/-- A page that was not handed out yet carries neither the directory nor a table. -/
theorem Building.ne_of_not_taken (hb : Building s₀ s V d base bound pages) {X : BitVec 20}
    (hX : ¬ s.Taken X) : X ≠ V ∧ ∀ i W T, bound i = some (W, T) → X ≠ W := by
  refine ⟨fun he => hX (he ▸ hb.taken), fun i W T hi he => ?_⟩
  exact hX (he ▸ (hb.table i W T hi).taken)

theorem update_eq_some {i j : BitVec 10} {p q : BitVec 20 × BitVec 20} :
    Function.update bound i (some p) j = some q ↔ j = i ∧ p = q ∨ j ≠ i ∧ bound j = some q := by
  by_cases hji : j = i
  · simp [hji]
  · simp [hji]

/-- A table whose page and frame are both new keeps the tables apart. -/
theorem Building.inj_update (hb : Building s₀ s V d base bound pages) {i : BitVec 10}
    {W T : BitVec 20} (hW : ¬ s.Taken W) (hT : T ∈ s.freePages) (j k : BitVec 10)
    (W₁ T₁ W₂ T₂ : BitVec 20) (hj : Function.update bound i (some (W, T)) j = some (W₁, T₁))
    (hk : Function.update bound i (some (W, T)) k = some (W₂, T₂)) (hor : W₁ = W₂ ∨ T₁ = T₂) :
    j = k := by
  have hnew : ∀ l W' T', bound l = some (W', T') → ¬ (W = W' ∨ T = T') := by
    intro l W' T' hl hor'
    rcases hor' with rfl | rfl
    · exact hW (hb.table l W T' hl).taken
    · exact (hb.table l W' T hl).used hT
  rcases update_eq_some.mp hj with ⟨hji, he⟩ | ⟨-, hj'⟩ <;>
    rcases update_eq_some.mp hk with ⟨hki, he'⟩ | ⟨-, hk'⟩
  · exact hji.trans hki.symm
  · obtain ⟨rfl, rfl⟩ := Prod.mk.inj he
    exact absurd hor (hnew k W₂ T₂ hk')
  · obtain ⟨rfl, rfl⟩ := Prod.mk.inj he'
    exact absurd (hor.imp Eq.symm Eq.symm) (hnew j W₁ T₁ hj')
  · exact hb.inj j k W₁ T₁ W₂ T₂ hj' hk' hor

end Building

/-! ## Entries under construction -/

theorem boundEntry_bind (W : BitVec 20) : boundEntry W &&& manuscriptBind ≠ 0#32 := by
  intro h
  have := congrArg (fun x : BitVec 32 => x.getLsbD 10) h
  simp [boundEntry, manuscriptBind] at this

theorem boundEntry_addr (W : BitVec 20) : boundEntry W &&& addrMask = pageAddr W := by
  rw [and_addrMask]
  congr 1
  ext i hi
  simp only [frame, boundEntry, manuscriptBind, createPagingEntry, setUser, setWriteable,
    setPresent, setAddr, addrMask, pagingBitPresent, pagingBitWriteable, pagingBitUser, pageAddr]
  interval_cases i <;> simp

/-- What `bind_manuscript` makes of such an entry. -/
theorem boundEntry_bound (W T : BitVec 20) :
    ((boundEntry W &&& ~~~addrMask) ||| pageAddr T) &&& ~~~manuscriptBind =
      createPagingEntry (pageAddr T) true true true := by
  ext i hi
  simp only [boundEntry, manuscriptBind, createPagingEntry, setUser, setWriteable,
    setPresent, setAddr, addrMask, pagingBitPresent, pagingBitWriteable, pagingBitUser, pageAddr]
  interval_cases i <;> simp

theorem createPagingEntry_bind (a : BitVec 32) (p w u : Bool) :
    createPagingEntry a p w u &&& manuscriptBind = 0#32 := by
  ext i hi
  by_cases hi10 : i = 10
  · subst hi10
    cases p <;> cases w <;> cases u <;>
      simp [manuscriptBind, createPagingEntry, setUser, setWriteable, setPresent, setAddr,
        addrMask, pagingBitPresent, pagingBitWriteable, pagingBitUser]
  · have : (manuscriptBind)[i] = false := by
      simp only [manuscriptBind]
      interval_cases i <;> simp_all
    simp [this]

/-! ## Inserting the scrolls -/

/-- From `s` to `s'` the entry `i` gets a table if it has none. -/
structure Allocates (s₀ s s' : Vm) (d : BitVec 20) (i : BitVec 10)
    (bound bound' : BitVec 10 → Option (BitVec 20 × BitVec 20)) (pages pages' : List (BitVec 20)) :
    Prop where
  other : ∀ j, j ≠ i → bound' j = bound j
  kept : bound i ≠ none → bound' i = bound i ∧ pages'.length = pages.length
  new : bound i = none → pages'.length = pages.length + 1 ∧
    ∀ W T, bound' i = some (W, T) → T ∈ s.freePages ∧ ∀ k, s'.space.mem T k = 0#32
  own : ∀ f ∈ s₀.freePages, f ∉ s.freePages → f ≠ d → ∀ k,
    s'.space.mem f k = s.space.mem f k
  pool : s'.freePages <:+ s.freePages

section Loop

variable {s₀ s s' : Vm} {V d : BitVec 20} {base : BitVec 10 → BitVec 32}
  {bound : BitVec 10 → Option (BitVec 20 × BitVec 20)} {pages : List (BitVec 20)} (h₀ : s₀.Ready)

include h₀

/-- A page that is taken from the free ones is not among them any more. -/
theorem Within.head_not_mem (hw : Within s₀ s) {T : BitVec 20} {ts : List (BitVec 20)}
    (hfree : s.freePages = T :: ts) : T ∈ s₀.freePages ∧ T ∉ ts := by
  refine ⟨hw.pool.subset (hfree ▸ List.mem_cons_self ..), ?_⟩
  have hnd : s.freePages.Nodup := h₀.nodup.sublist hw.pool.sublist
  rw [hfree] at hnd
  exact (List.nodup_cons.mp hnd).1

/-- A new table is bound to the entry `i`. -/
theorem Building.bind (ht : s.HeapTables 1) (hb : Building s₀ s V d base bound pages)
    {i : BitVec 10} (hi : bound i = none) {scr : Scroll} (hs : s.kmallocPage = some (scr, s')) :
    ∃ W T, scr.vaddr = pageAddr W ∧ s'.space.frameOf (pageAddr W) = some T ∧ d ≠ T ∧
      T ∈ s.freePages ∧ s'.freePages <:+ s.freePages ∧ s'.space.frameOf (pageAddr V) = some d ∧
      (∀ f ∈ s₀.freePages, ∀ k, s'.space.mem f k = s.space.mem f k) ∧
      Building s₀ (s'.write d i (boundEntry W)) V d base (Function.update bound i (some (W, T)))
        (pages ++ [W]) := by
  have halloc := kmallocPage_heap h₀ ht hb.within hs
  obtain ⟨W, T, rfl, hfree, hW, hW', htaken, hed, hmap⟩ :=
    kmallocPage_spec h₀ ht hb.within hs
  obtain ⟨hT, hTs'⟩ := hb.within.head_not_mem h₀ hfree
  have hTs : T ∈ s.freePages := hfree ▸ List.mem_cons_self ..
  have hTd : T ≠ d := fun he => hb.used (he ▸ hTs)
  obtain ⟨hWV, hWb⟩ := hb.ne_of_not_taken hW
  have hpool : s'.freePages <:+ s.freePages := hfree ▸ List.suffix_cons T _
  have htrace := hb.trace.malloc halloc hed.other
  have hmap' : ∀ X f, W ≠ X → s.space.frameOf (pageAddr X) = some f →
      s'.space.frameOf (pageAddr X) = some f := by
    intro X f hne hf
    rw [hed.other _ (by rw [frame_pageAddr]; exact Ne.symm hne), hf]
  have hfill := hed.within.fills_write h₀ hb.mem i (boundEntry W)
  have htab : TableAt s₀ (s'.write d i (boundEntry W)) V d W T :=
    ⟨hT, hTs', hTd, hWV, (hfill.maps _).trans hmap, hW'⟩
  have hold : ∀ j W' T', bound j = some (W', T') →
      TableAt s₀ (s'.write d i (boundEntry W)) V d W' T' := by
    intro j W' T' hj
    have ht := hb.table j W' T' hj
    exact ⟨ht.mem, fun hm => ht.used (hpool.subset hm), ht.ne_dir, ht.ne_page,
      (hfill.maps _).trans (hmap' W' T' (hWb j W' T' hj) ht.map), htaken W' ht.taken⟩
  refine ⟨W, T, rfl, hmap, hTd.symm, hTs, hpool, hmap' V d hWV hb.map, hed.own, hfill.within,
    hb.mem, fun hd => hb.used (hpool.subset hd), (hfill.maps _).trans (hmap' V d hWV hb.map),
    htaken V hb.taken, fun j W' T' hj => ?_, fun j W' T' hj => ?_, hb.inj_update hW hTs,
    fun j hj => ?_, ?_, List.mem_append_left _ hb.dir_page, fun j W' T' hj => ?_⟩
  · rcases update_eq_some.mp hj with ⟨rfl, he⟩ | ⟨-, hj⟩
    · obtain ⟨rfl, rfl⟩ := Prod.mk.inj he
      exact htab
    · exact hold j W' T' hj
  · rcases update_eq_some.mp hj with ⟨rfl, he⟩ | ⟨hji, hj⟩
    · obtain ⟨rfl, rfl⟩ := Prod.mk.inj he
      exact PhysMem.write_self ..
    · rw [write_mem, PhysMem.write_of_ne _ _ fun _ => hji, hed.own d hb.mem, hb.entry j W' T' hj]
  · have hji : j ≠ i := by
      rintro rfl
      simp at hj
    rw [Function.update_of_ne hji] at hj
    rw [write_mem, PhysMem.write_of_ne _ _ fun _ => hji, hed.own d hb.mem, hb.unbound j hj]
  · refine (htrace.congr hfill.maps hfill.pageHeap).mono fun X hX => ?_
    rcases hX with (hXV | ⟨j, T', hj, hbj⟩) | hXW
    · exact .inl hXV
    · have hji : j ≠ i := by
        rintro rfl
        rw [hi] at hbj
        cases hbj
      exact .inr ⟨j, T', hj, update_eq_some.mpr (.inr ⟨hji, hbj⟩)⟩
    · exact .inr ⟨i, T, Nat.zero_le _, update_eq_some.mpr (.inl ⟨rfl, by rw [hXW]⟩)⟩
  · rcases update_eq_some.mp hj with ⟨-, he⟩ | ⟨-, hj⟩
    · obtain ⟨rfl, rfl⟩ := Prod.mk.inj he
      exact List.mem_append_right _ (List.mem_singleton.mpr rfl)
    · exact List.mem_append_left _ (hb.table_page j W' T' hj)

/-- The table of entry `i`, which is bound afterwards. -/
theorem Building.allocTable (hbase : ∀ i, base i &&& manuscriptBind = 0#32)
    (hb : Building s₀ s V d base bound pages) {i : BitVec 10}
    (ht : bound i = none → s.HeapTables 1) {table : BitVec 32}
    (hs : s.allocTable (pageAddr V) (i.setWidth 32) = some (table, s')) :
    ∃ bound' pages' W T, table = pageAddr W ∧ bound' i = some (W, T) ∧
      Building s₀ s' V d base bound' pages' ∧ Allocates s₀ s s' d i bound bound' pages pages' := by
  simp only [Vm.allocTable, loadPage hb.map, Option.bind_eq_bind, Option.bind_some] at hs
  cases hi : bound i with
  | some p =>
      obtain ⟨W, T⟩ := p
      rw [hb.entry i W T hi, if_pos (boundEntry_bind W), boundEntry_addr] at hs
      obtain ⟨rfl, rfl⟩ := Prod.mk.inj (Option.some.inj hs)
      refine ⟨bound, pages, W, T, rfl, hi, hb, fun _ _ => rfl, fun _ => ⟨rfl, rfl⟩, fun hn => ?_,
        fun _ _ _ _ _ => rfl, List.suffix_refl _⟩
      rw [hi] at hn
      cases hn
  | none =>
      have hzero : ¬ s.space.mem d i &&& manuscriptBind ≠ 0#32 := by
        rw [hb.unbound i hi, hbase]
        simp
      rw [if_neg hzero] at hs
      simp only [Option.bind_eq_some_iff, Prod.exists] at hs
      obtain ⟨scr, s₁, hpage, s₂, hstore, s₃, hclear, hret⟩ := hs
      obtain ⟨rfl, rfl⟩ := Prod.mk.inj (Option.some.inj hret)
      obtain ⟨W, T, hscr, hW, hdT, hTs, hpool, hV, hown, hb₂⟩ := hb.bind h₀ (ht hi) hi hpage
      have hentry : createPagingEntry scr.vaddr true true true ||| manuscriptBind =
          boundEntry W := by rw [hscr]; rfl
      rw [storePage hV, hentry] at hstore
      obtain rfl := Option.some.inj hstore
      have ht := hb₂.table i W T (Function.update_self ..)
      obtain ⟨hc, hfill⟩ := hb₂.within.clearWords h₀ ht.mem ht.map (n := 1024) (Nat.le_refl _)
      rw [hscr, hc] at hclear
      obtain rfl := Option.some.inj hclear
      refine ⟨_, _, W, T, hscr, Function.update_self .., hb₂.fills hfill hdT,
        fun j hj => Function.update_of_ne hj .., fun hn => absurd hi hn,
        fun _ => ⟨List.length_append, fun W' T' hi' => ?_⟩, fun f hf hfs hfd k => ?_, hpool⟩
      · rw [Function.update_self, Option.some.injEq, Prod.mk.injEq] at hi'
        obtain ⟨-, rfl⟩ := hi'
        exact ⟨hTs, fun k => by rw [cleared_all, if_pos rfl]⟩
      · have hfT : f ≠ T := fun he => hfs (he ▸ hTs)
        rw [hfill.mem f hfT, write_mem, PhysMem.write_of_ne _ _ fun he => absurd he hfd, hown f hf]

end Loop

/-- From `b` to `s` the scrolls `done` were inserted: there are tables for their entries only, the
    tables hold the last mapping of each page, and the other pages that were in use in `b` are as
    they were. -/
structure Inserted (s₀ b s : Vm) (V d : BitVec 20) (base : BitVec 10 → BitVec 32) (n : Nat)
    (bound : BitVec 10 → Option (BitVec 20 × BitVec 20)) (pages : List (BitVec 20))
    (done : List Scroll) : Prop where
  building : Building s₀ s V d base bound pages
  content : ∀ v W T, bound (dirIdx v) = some (W, T) → s.space.mem T (tblIdx v) =
    pageWord true (lastWrite (done.map Scroll.mapping) (pageOf v))
  only : ∀ i, bound i ≠ none ↔ i ∈ slotsOf done
  fresh : ∀ i W T, bound i = some (W, T) → T ∈ b.freePages
  count : pages.length = n + (slotsOf done).card
  own : ∀ f ∈ s₀.freePages, f ∉ b.freePages → f ≠ d → ∀ k, s.space.mem f k = b.space.mem f k
  pool : s.freePages <:+ b.freePages

/-- Nothing was inserted yet. -/
theorem Inserted.start {s₀ b : Vm} {V d : BitVec 20} {base : BitVec 10 → BitVec 32}
    {pages : List (BitVec 20)} (hb : Building s₀ b V d base (fun _ => none) pages) :
    Inserted s₀ b b V d base pages.length (fun _ => none) pages [] := by
  refine ⟨hb, fun v W T hi => ?_, fun i => ?_, fun i W T hi => ?_, rfl, fun _ _ _ _ _ => rfl,
    List.suffix_refl _⟩
  · cases hi
  · simp [slotsOf]
  · cases hi

/-- A page with a mapping has its entry among the slots. -/
theorem lastWrite_mapping_none {scrolls : List Scroll} {v : BitVec 32}
    (h : dirIdx v ∉ slotsOf scrolls) :
    lastWrite (scrolls.map Scroll.mapping) (pageOf v) = none := by
  refine lastWrite_eq_none.mpr fun w hw he => h ?_
  obtain ⟨scr, hscr, rfl⟩ := List.mem_map.mp hw
  exact mem_slotsOf.mpr ⟨scr, hscr, (pageOf_eq_iff.mp he).1⟩

/-- The slots of the first scrolls are no more than those of all of them. -/
theorem card_slotsOf_le {scrolls scrolls' : List Scroll} {n N : Nat}
    (h : n + (slotsOf (scrolls ++ scrolls')).card ≤ N) : n + (slotsOf scrolls).card ≤ N :=
  (Nat.add_le_add_left
    (Finset.card_le_card (slotsOf_subset (List.subset_append_left ..))) n).trans h

section Insert

variable {s₀ b s s' : Vm} {V d : BitVec 20} {base : BitVec 10 → BitVec 32} {n : Nat}
  {bound : BitVec 10 → Option (BitVec 20 × BitVec 20)} {pages : List (BitVec 20)}
  (h₀ : s₀.Ready) {N : Nat} (ht₀ : s₀.HeapTables N)

include h₀ ht₀

/-- The next page of the heap has its table as long as not all tables were needed. -/
theorem Inserted.heapTables {done : List Scroll}
    (hins : Inserted s₀ b s V d base n bound pages done) {scr : Scroll}
    (hN : n + (slotsOf (done ++ [scr])).card ≤ N) (hi : bound (dirIdx scr.vaddr) = none) :
    s.HeapTables 1 := by
  have hcount := hins.count
  have hb := hins.building
  refine hb.trace.heapTables h₀ hb.within ht₀ ?_
  rw [slotsOf_concat, Finset.card_insert_of_notMem fun hm => (hins.only _).mpr hm hi] at hN
  omega

/-- A table for the entry of the next scroll. -/
theorem Inserted.allocTable (hbase : ∀ i, base i &&& manuscriptBind = 0#32)
    {done : List Scroll} (hins : Inserted s₀ b s V d base n bound pages done) {scr : Scroll}
    (hN : n + (slotsOf (done ++ [scr])).card ≤ N) {table : BitVec 32}
    (hs : s.allocTable (pageAddr V) ((dirIdx scr.vaddr).setWidth 32) = some (table, s')) :
    ∃ bound' pages' W T, table = pageAddr W ∧ bound' (dirIdx scr.vaddr) = some (W, T) ∧
      Building s₀ s' V d base bound' pages' ∧
      (∀ v W T, bound' (dirIdx v) = some (W, T) → s'.space.mem T (tblIdx v) =
        pageWord true (lastWrite (done.map Scroll.mapping) (pageOf v))) ∧
      (∀ i, bound' i ≠ none ↔ i ∈ slotsOf (done ++ [scr])) ∧
      (∀ i W T, bound' i = some (W, T) → T ∈ b.freePages) ∧
      pages'.length = n + (slotsOf (done ++ [scr])).card ∧
      (∀ f ∈ s₀.freePages, f ∉ b.freePages → f ≠ d → ∀ k,
        s'.space.mem f k = b.space.mem f k) ∧ s'.freePages <:+ b.freePages := by
  have hb := hins.building
  obtain ⟨bound', pages', W, T, rfl, hi, hb', ha⟩ :=
    hb.allocTable h₀ hbase (hins.heapTables h₀ ht₀ hN) hs
  -- the tables that were bound before keep their contents
  have hold : ∀ j W T, bound j = some (W, T) → ∀ k, s'.space.mem T k = s.space.mem T k := by
    intro j W T hj k
    have ht := hb.table j W T hj
    exact ha.own T ht.mem ht.used ht.ne_dir k
  have hcase : ∀ j W' T', bound' j = some (W', T') → bound j = some (W', T') ∨
      j = dirIdx scr.vaddr ∧ bound j = none ∧ T' ∈ s.freePages ∧ ∀ k, s'.space.mem T' k = 0#32 := by
    intro j W' T' hj
    by_cases hji : j = dirIdx scr.vaddr
    · subst hji
      cases hbj : bound (dirIdx scr.vaddr) with
      | none => exact .inr ⟨rfl, rfl, (ha.new hbj).2 W' T' hj⟩
      | some p =>
          refine .inl ?_
          rw [← hbj, ← (ha.kept (by rw [hbj]; exact Option.some_ne_none p)).1, hj]
    · exact .inl ((ha.other j hji).symm.trans hj)
  refine ⟨bound', pages', W, T, rfl, hi, hb', fun v W' T' hv => ?_, fun i => ?_,
    fun i W' T' hi' => ?_, ?_, fun f hf hfb hfd k => ?_, ha.pool.trans hins.pool⟩
  · rcases hcase _ W' T' hv with hbv | ⟨-, hnone, -, hzero⟩
    · rw [hold _ W' T' hbv, hins.content v W' T' hbv]
    · have hslot : dirIdx v ∉ slotsOf done := fun hm => (hins.only _).mpr hm hnone
      rw [hzero, lastWrite_mapping_none hslot]
      rfl
  · rw [slotsOf_concat, Finset.mem_insert, ← hins.only]
    by_cases hne : i = dirIdx scr.vaddr
    · refine iff_of_true ?_ (.inl hne)
      rw [hne, hi]
      exact Option.some_ne_none _
    · rw [ha.other i hne]
      exact ⟨.inr, fun hor => hor.resolve_left hne⟩
  · rcases hcase i W' T' hi' with hbi | ⟨-, -, hT', -⟩
    · exact hins.fresh i W' T' hbi
    · exact hins.pool.subset hT'
  · have hcount := hins.count
    rw [slotsOf_concat]
    cases hbi : bound (dirIdx scr.vaddr) with
    | none =>
        rw [Finset.card_insert_of_notMem fun hm => (hins.only _).mpr hm hbi, (ha.new hbi).1]
        omega
    | some p =>
        have hne : bound (dirIdx scr.vaddr) ≠ none := by
          rw [hbi]
          exact Option.some_ne_none p
        rw [Finset.insert_eq_of_mem ((hins.only _).mp hne), (ha.kept hne).2, hcount]
  · rw [ha.own f hf (fun hm => hfb (hins.pool.subset hm)) hfd, hins.own f hf hfb hfd]

/-- One scroll is inserted. -/
theorem Inserted.insert (hbase : ∀ i, base i &&& manuscriptBind = 0#32)
    {done : List Scroll} (hins : Inserted s₀ b s V d base n bound pages done) {scr : Scroll}
    (hN : n + (slotsOf (done ++ [scr])).card ≤ N) {table : BitVec 32} {s₁ : Vm}
    (hs₁ : s.allocTable (pageAddr V) ((dirIdx scr.vaddr).setWidth 32) = some (table, s₁))
    (hs' : s₁.store (elem table ((tblIdx scr.vaddr).setWidth 32))
      (createPagingEntry scr.page true true true) = some s') :
    ∃ bound' pages', Inserted s₀ b s' V d base n bound' pages' (done ++ [scr]) := by
  obtain ⟨bound', pages', W, T, rfl, hi, hb₁, hcontent, honly, hfresh, hcount, hown, hpool⟩ :=
    hins.allocTable h₀ ht₀ hbase hN hs₁
  have ht := hb₁.table _ W T hi
  rw [storePage ht.map] at hs'
  obtain rfl := Option.some.inj hs'
  have hfill := hb₁.within.fills_write h₀ ht.mem (tblIdx scr.vaddr)
    (createPagingEntry scr.page true true true)
  refine ⟨bound', pages', hb₁.fills hfill ht.ne_dir.symm, fun v W' T' hv => ?_, honly, hfresh,
    hcount, fun f hf hfb hfd k => ?_, hpool⟩
  · rw [List.map_append, List.map_singleton, lastWrite_concat, Scroll.mapping]
    by_cases hp : pageOf scr.vaddr = pageOf v
    · obtain ⟨hdir, htbl⟩ := pageOf_eq_iff.mp hp
      rw [← hdir, hi, Option.some.injEq, Prod.mk.injEq] at hv
      obtain ⟨-, rfl⟩ := hv
      rw [if_pos hp, ← htbl, write_mem, PhysMem.write_self]
      exact (createPagingEntry_pageOf ..).symm
    · rw [if_neg hp, write_mem, PhysMem.write_of_ne _ _ fun hT htbl => hp ?_, hcontent v W' T' hv]
      exact pageOf_eq_iff.mpr ⟨hb₁.inj _ _ W T W' T' hi hv (.inr hT.symm), htbl.symm⟩
  · have hfT : f ≠ T := fun he => hfb (he ▸ hfresh _ W T hi)
    rw [hfill.mem f hfT, hown f hf hfb hfd]

/-- The loop over the scrolls. -/
theorem Inserted.insertScrolls (hbase : ∀ i, base i &&& manuscriptBind = 0#32) :
    ∀ (todo done : List Scroll) {s s' : Vm} {bound : BitVec 10 → Option (BitVec 20 × BitVec 20)}
      {pages : List (BitVec 20)}, Inserted s₀ b s V d base n bound pages done →
      n + (slotsOf (done ++ todo)).card ≤ N → s.insertScrolls (pageAddr V) todo = some s' →
      ∃ bound' pages', Inserted s₀ b s' V d base n bound' pages' (done ++ todo)
  | [], done, s, s', bound, pages, hins, _, hs => by
      cases hs
      rw [List.append_nil]
      exact ⟨bound, pages, hins⟩
  | scr :: todo, done, s, s', bound, pages, hins, hN, hs => by
      simp only [Vm.insertScrolls, Option.bind_eq_bind, Option.bind_eq_some_iff, Prod.exists,
        pgDirIdx_eq, pgTblIdx_eq] at hs
      obtain ⟨table, s₁, halloc, s₂, hstore, hrest⟩ := hs
      rw [List.append_cons] at hN ⊢
      obtain ⟨bound', pages', hins'⟩ :=
        hins.insert h₀ ht₀ hbase (card_slotsOf_le hN) halloc hstore
      exact Inserted.insertScrolls hbase todo (done ++ [scr]) hins' hN hrest

end Insert

/-! ## Binding the tables -/

/-- The state in `bind_manuscript` after the first `n` entries: `b` is the state before. -/
structure Binding (s₀ b s : Vm) (V d : BitVec 20) (base : BitVec 10 → BitVec 32)
    (bound : BitVec 10 → Option (BitVec 20 × BitVec 20)) (pages : List (BitVec 20)) (n : Nat) :
    Prop where
  within : Within s₀ s
  pool : s.freePages = b.freePages
  heap : s.pageHeap = b.pageHeap
  map : s.space.frameOf (pageAddr V) = some d
  own : ∀ f ∈ s₀.freePages, f ≠ d → ∀ k, s.space.mem f k = b.space.mem f k
  done : ∀ i W T, i.toNat < n → bound i = some (W, T) →
    s.space.mem d i = createPagingEntry (pageAddr T) true true true
  todo : ∀ i W T, n ≤ i.toNat → bound i = some (W, T) →
    s.space.frameOf (pageAddr W) = some T ∧ s.space.mem d i = boundEntry W
  unbound : ∀ i, bound i = none → s.space.mem d i = base i
  trace : Temporary s₀ s (Holds V bound n) pages

/-- From `s` to `s'` the entry `i` was bound to the table `T`, and its page `W` was unmapped. -/
structure BindsOne (s₀ s s' : Vm) (d W T : BitVec 20) (i : BitVec 10) : Prop where
  within : Within s₀ s'
  pool : s'.freePages = s.freePages
  heap : s'.pageHeap = s.pageHeap
  other : ∀ w, pageOf w ≠ W → s'.space.frameOf w = s.space.frameOf w
  dropped : s'.space.frameOf (pageAddr W) = none
  own : ∀ f ∈ s₀.freePages, f ≠ d → ∀ k, s'.space.mem f k = s.space.mem f k
  keep : ∀ j, j ≠ i → s'.space.mem d j = s.space.mem d j
  entry : s'.space.mem d i = createPagingEntry (pageAddr T) true true true

/-- The pages of the heap that were handed out lie below the window. -/
theorem Taken.dirIdx_ne {s₀ s : Vm} (h₀ : s₀.Ready) (hw : Within s₀ s) {W : BitVec 20}
    (hW : s.Taken W) : dirIdx (pageAddr W) ≠ 1023#10 := by
  obtain ⟨n, hn, -⟩ := hW
  refine HeapPage.dirIdx_ne (n := n) h₀ ?_
  rwa [HeapPage, ← hw.alignedStart, ← hw.bitmapCnt]

section Bind

variable {s₀ b s s' : Vm} {V d : BitVec 20} {base : BitVec 10 → BitVec 32}
  {bound : BitVec 10 → Option (BitVec 20 × BitVec 20)} {pages : List (BitVec 20)} {n : Nat}
  (h₀ : s₀.Ready) (hbase : ∀ i, base i &&& manuscriptBind = 0#32)
  (hb : Building s₀ b V d base bound pages)

include h₀ hb

/-- One entry is bound to the frame of its table. -/
theorem Binding.bindOne (hi : Binding s₀ b s V d base bound pages n) {i : BitVec 10}
    {W T : BitVec 20}
    (hn : n ≤ i.toNat) (hiW : bound i = some (W, T)) :
    ∃ s', s.bindEntry (pageAddr V) (i.setWidth 32) = some s' ∧ BindsOne s₀ s s' d W T i := by
  obtain ⟨hmapW, hentry⟩ := hi.todo i W T hn hiW
  have htab := hb.table i W T hiW
  have hdirW : dirIdx (pageAddr W) ≠ 1023#10 := htab.taken.dirIdx_ne h₀ hb.within
  have hload := loadPage hi.map i
  rw [hentry] at hload
  -- the two stores that put the frame in
  have hf₁ := hi.within.fills_write h₀ hb.mem i (boundEntry W &&& ~~~addrMask)
  have hmap₁ := (hf₁.maps (pageAddr V)).trans hi.map
  have hload₁ := loadPage hmap₁ i
  rw [write_mem, PhysMem.write_self] at hload₁
  have hf₂ := hf₁.within.fills_write h₀ hb.mem i
    ((boundEntry W &&& ~~~addrMask) ||| pageAddr T)
  have hf₁₂ := hf₁.trans hf₂
  have hmapping : s.getPageMapping (pageAddr W) = some (pageAddr T) := by
    rw [getPageMapping_eq (hi.within.tables h₀).selfMapped, hmapW]
    rfl
  -- the page of the table stays marked, and is unmapped
  have hkfree := Taken.kfree h₀ hf₂.within (W := W)
    (by simpa only [Taken, HeapPage, hf₁₂.pageHeap, hi.heap] using htab.taken)
  obtain ⟨s₄, hs₄, hed, hfree₄, hheap₄⟩ := hf₂.within.unmapPage h₀ hdirW
  have hnone := hf₂.within.frameOf_unmapPage h₀ hdirW hs₄
  rw [frame_pageAddr] at hed
  have hother : ∀ w, pageOf w ≠ W → s₄.space.frameOf w = s.space.frameOf w := by
    intro w hw
    rw [hed.other w hw, hf₁₂.maps]
  have hmap₄ : s₄.space.frameOf (pageAddr V) = some d :=
    (hother _ (by rw [frame_pageAddr]; exact htab.ne_page.symm)).trans hi.map
  have hload₄ := loadPage hmap₄ i
  rw [hed.own d hb.mem, write_mem, PhysMem.write_self] at hload₄
  have hf₅ := hed.within.fills_write h₀ hb.mem i (createPagingEntry (pageAddr T) true true true)
  refine ⟨s₄.write d i (createPagingEntry (pageAddr T) true true true), ?_, hf₅.within, hfree₄,
    hheap₄, fun w hw => (hf₅.maps w).trans (hother w hw), (hf₅.maps _).trans hnone,
    fun f hf hfd k => ?_, fun j hj => ?_, PhysMem.write_self ..⟩
  · simp only [Vm.bindEntry, hload, Option.bind_eq_bind, Option.bind_some, boundEntry_bind,
      if_false, boundEntry_addr, hmapping, storePage hi.map, hload₁, storePage hmap₁, hkfree, hs₄,
      hload₄, storePage hmap₄, boundEntry_bound]
  · rw [hf₅.mem f hfd, hed.own f hf, hf₁₂.mem f hfd]
  · rw [write_mem, PhysMem.write_of_ne _ _ fun _ => hj, hed.own d hb.mem, write_mem,
      PhysMem.write_of_ne _ _ fun _ => hj, write_mem, PhysMem.write_of_ne _ _ fun _ => hj]

theorem Binding.bindBound (hi : Binding s₀ b s V d base bound pages n) {i : BitVec 10}
    (hn : i.toNat = n) {W T : BitVec 20} (hiW : bound i = some (W, T)) :
    ∃ s', s.bindEntry (pageAddr V) (i.setWidth 32) = some s' ∧
      Binding s₀ b s' V d base bound pages (n + 1) := by
  have htab := hb.table i W T hiW
  obtain ⟨s', hs', hone⟩ := hi.bindOne h₀ hb (Nat.le_of_eq hn.symm) hiW
  have hother : ∀ X, X ≠ W → s'.space.frameOf (pageAddr X) = s.space.frameOf (pageAddr X) :=
    fun X hX => hone.other _ (by rw [frame_pageAddr]; exact hX)
  refine ⟨s', hs', hone.within, hone.pool.trans hi.pool, hone.heap.trans hi.heap,
    (hother V htab.ne_page.symm).trans hi.map, fun f hf hfd k => ?_, fun j W' T' hj hjW => ?_,
    fun j W' T' hj hjW => ?_, fun j hj => ?_, ?_⟩
  · rw [hone.own f hf hfd, hi.own f hf hfd]
  · by_cases hji : j = i
    · subst hji
      rw [hiW, Option.some.injEq, Prod.mk.injEq] at hjW
      obtain ⟨-, rfl⟩ := hjW
      exact hone.entry
    · have : j.toNat ≠ i.toNat := fun he => hji (BitVec.eq_of_toNat_eq he)
      rw [hone.keep j hji]
      exact hi.done j W' T' (by omega) hjW
  · have hji : j ≠ i := by
      rintro rfl
      omega
    obtain ⟨hm, he⟩ := hi.todo j W' T' (by omega) hjW
    have hWW : W' ≠ W := fun he => hji (hb.inj j i W' T' W T hjW hiW (.inl he))
    exact ⟨(hother W' hWW).trans hm, (hone.keep j hji).trans he⟩
  · have hji : j ≠ i := by
      rintro rfl
      rw [hiW] at hj
      cases hj
    rw [hone.keep j hji, hi.unbound j hj]
  · -- only the page of this table is dropped
    refine (hi.trace.unmap (hb.table_page i W T hiW) hone.heap hone.other hone.dropped).mono
      fun X hX => ?_
    obtain ⟨hXV | ⟨j, T', hj, hbj⟩, hXW⟩ := hX
    · exact .inl hXV
    · refine .inr ⟨j, T', ?_, hbj⟩
      have hne : j.toNat ≠ n := by
        intro he
        rw [BitVec.eq_of_toNat_eq (he.trans hn.symm), hiW, Option.some.injEq, Prod.mk.injEq] at hbj
        exact hXW hbj.1.symm
      omega

include hbase

theorem Binding.bindEntry (hi : Binding s₀ b s V d base bound pages n) {i : BitVec 10}
    (hn : i.toNat = n) : ∃ s', s.bindEntry (pageAddr V) (i.setWidth 32) = some s' ∧
      Binding s₀ b s' V d base bound pages (n + 1) := by
  cases hiW : bound i with
  | some p => exact hi.bindBound h₀ hb hn hiW
  | none =>
      have hne : ∀ j W T, bound j = some (W, T) → j.toNat ≠ i.toNat := by
        intro j W T hjW he
        rw [BitVec.eq_of_toNat_eq he, hiW] at hjW
        cases hjW
      refine ⟨s, ?_, hi.within, hi.pool, hi.heap, hi.map, hi.own, fun j W T hj hjW => ?_,
        fun j W T hj hjW => hi.todo j W T (by omega) hjW, hi.unbound, hi.trace.mono fun X hX => ?_⟩
      · simp only [Vm.bindEntry, loadPage hi.map, Option.bind_eq_bind, Option.bind_some,
          hi.unbound i hiW, hbase, if_true]
      · have := hne j W T hjW
        exact hi.done j W T (by omega) hjW
      · rcases hX with hXV | ⟨j, T, hj, hjW⟩
        · exact .inl hXV
        · have := hne j X T hjW
          exact .inr ⟨j, T, by omega, hjW⟩

theorem bindEntries_spec : ∀ n ≤ 1024, ∃ s', b.bindEntries (pageAddr V) n = some s' ∧
    Binding s₀ b s' V d base bound pages n
  | 0, _ => ⟨b, rfl, hb.within, rfl, rfl, hb.map, fun _ _ _ _ => rfl,
      fun i W T hi => absurd hi (by omega),
      fun i W T _ hi => ⟨(hb.table i W T hi).map, hb.entry i W T hi⟩, hb.unbound, hb.trace⟩
  | n + 1, hn => by
      obtain ⟨s₁, hs₁, hi⟩ := bindEntries_spec n (by omega)
      obtain ⟨s₂, hs₂, hi'⟩ := hi.bindEntry h₀ hbase hb (i := BitVec.ofNat 10 n)
        (by rw [BitVec.toNat_ofNat, Nat.mod_eq_of_lt (by omega)])
      refine ⟨s₂, ?_, hi'⟩
      rw [bindEntries, hs₁, Option.bind_eq_bind, Option.bind_some, ofNat_eq_setWidth (by omega),
        hs₂]

end Bind

/-! ## The directory that is returned -/

/-- What is left when the tables are bound and the pages are dropped on which the directory was
    built: `b` is the state before. The mapping of the directory's physical address is dropped,
    too. -/
structure Released (s₀ b s : Vm) (d : BitVec 20) (base : BitVec 10 → BitVec 32)
    (bound : BitVec 10 → Option (BitVec 20 × BitVec 20)) (pages : List (BitVec 20)) : Prop where
  within : Within s₀ s
  pool : s.freePages = b.freePages
  own : ∀ f ∈ s₀.freePages, f ≠ d → ∀ k, s.space.mem f k = b.space.mem f k
  entry : ∀ i W T, bound i = some (W, T) →
    s.space.mem d i = createPagingEntry (pageAddr T) true true true
  unbound : ∀ i, bound i = none → s.space.mem d i = base i
  heap : s₀.pageHeap.handOut pages.length = some (pages.map pageAddr, s.pageHeap)
  maps : ∀ w, s.space.frameOf w = if pageOf w ∈ d :: pages then none else s₀.space.frameOf w

/-- `bind_manuscript` and the `scroll_unmap` after it. -/
theorem Building.release {s₀ b : Vm} {V d : BitVec 20} {base : BitVec 10 → BitVec 32}
    {bound : BitVec 10 → Option (BitVec 20 × BitVec 20)} {pages : List (BitVec 20)}
    (h₀ : s₀.Ready) (hbase : ∀ i, base i &&& manuscriptBind = 0#32)
    (hb : Building s₀ b V d base bound pages) :
    ∃ s₁ s₂, b.bindManuscript (pageAddr V) = some s₁ ∧
      s₁.scrollUnmap ⟨pageAddr V, pageSize, .aligned, pageAddr d⟩ = some s₂ ∧
      Released s₀ b s₂ d base bound pages := by
  obtain ⟨t₁, ht₁, hi⟩ := bindEntries_spec h₀ hbase hb 1024 (Nat.le_refl _)
  have hdirV := hb.taken.dirIdx_ne h₀ hb.within
  obtain ⟨t₂, ht₂, hed₂, hfree₂, hheap₂⟩ := hi.within.unmapPage h₀ hdirV
  have hnone₂ := hi.within.frameOf_unmapPage h₀ hdirV ht₂
  rw [frame_pageAddr] at hed₂
  have hkfree := Taken.kfree h₀ hed₂.within (W := V)
    (by simpa only [Taken, HeapPage, hheap₂, hi.heap] using hb.taken)
  have hdir : dirIdx (pageAddr d) ≠ 1023#10 := by
    have hlt := (h₀.fresh d hb.mem).2.2
    intro he
    have := congrArg BitVec.toNat he
    simp only [BitVec.lt_def, BitVec.toNat_ofNat] at hlt
    simp only [dirIdx_toNat, pageAddr_toNat, BitVec.toNat_ofNat] at this
    omega
  obtain ⟨u, hu, hed, hfree, hheap⟩ := hed₂.within.unmapPage h₀ hdir
  have hnone := hed₂.within.frameOf_unmapPage h₀ hdir hu
  rw [frame_pageAddr] at hed
  -- no page is held any more
  have htrace : Temporary s₀ t₂ (fun _ => False) pages := by
    refine (hi.trace.unmap hb.dir_page hheap₂ hed₂.other hnone₂).mono fun X hX => ?_
    obtain ⟨hXV | ⟨i, T, hi, -⟩, hne⟩ := hX
    · exact hne hXV
    · exact absurd i.isLt (by omega)
  -- the pages that were free keep what binding left in them
  have hmem : ∀ f ∈ s₀.freePages, ∀ k, u.space.mem f k = t₁.space.mem f k := by
    intro f hf k
    rw [hed.own f hf, hed₂.own f hf]
  refine ⟨t₂, u, ?_, ?_, hed.within, ?_, fun f hf hfd k => ?_, fun i W T hW => ?_,
    fun i hn => ?_, ?_, fun w => ?_⟩
  · simp only [bindManuscript, ht₁, ht₂, hkfree, Option.bind_eq_bind, Option.bind_some]
  · simp only [scrollUnmap, if_true, hkfree, hu, Option.bind_eq_bind, Option.bind_some]
  · rw [hfree, hfree₂, hi.pool]
  · rw [hmem f hf, hi.own f hf hfd]
  · rw [hmem d hb.mem]
    exact hi.done i W T i.isLt hW
  · rw [hmem d hb.mem, hi.unbound i hn]
  · rw [hheap]
    exact htrace.heap
  · by_cases hw : pageOf w = d
    · rw [if_pos (by rw [hw]; exact List.mem_cons_self ..), ← hnone]
      exact Space.frameOf_congr (hw.trans (frame_pageAddr d).symm)
    · rw [hed.other w hw, htrace.frameOf_eq w]
      simp only [List.mem_cons, hw, false_or]

end Vm

end Muse.Paging
