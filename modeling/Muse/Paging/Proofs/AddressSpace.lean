import Muse.Paging.Proofs.Window

/-!
# The laws of the active address space

With the page table of `v` in place, `map_page` and `unmap_page` write one table entry, and
no other page notices. Without it `check_or_insert_table_structure` takes a page from
`kpage_alloc` and clears it through a pointer to its *physical* address. What is cleared is
the page that happens to be mapped there, and the entries that were in the new table before
come alive.
-/

namespace Muse.Paging

open Muse.Library

/-- The address spaces the laws are about: the directory is self-mapped and its present
    entries name distinct tables. -/
structure Tables (s : Space) : Prop where
  selfMapped : s.SelfMapped
  distinct : ∀ i j, present (s.mem s.cr3 i) = true → present (s.mem s.cr3 j) = true →
    frame (s.mem s.cr3 i) = frame (s.mem s.cr3 j) → i = j

/-- A page that `kpage_alloc` may return: it is no table of the address space. -/
def FreshPage (s : Space) (t : BitVec 20) : Prop :=
  ∀ i, present (s.mem s.cr3 i) = true → frame (s.mem s.cr3 i) ≠ t

theorem FreshPage.ne_cr3 {s : Space} {t : BitVec 20} (ht : FreshPage s t)
    (h : s.SelfMapped) : t ≠ s.cr3 := by
  rintro rfl
  exact ht _ h.present h.frame

theorem Tables.frame_ne_cr3 {s : Space} (h : Tables s) {i : BitVec 10} (hi : i ≠ 1023#10)
    (hp : present (s.mem s.cr3 i) = true) : frame (s.mem s.cr3 i) ≠ s.cr3 := by
  intro he
  exact hi (h.distinct i 1023#10 hp h.selfMapped.present (he.trans h.selfMapped.frame.symm))

/-- `w` shows a word of the entries of `v`: its directory entry, or its entry in the table
    that the directory entry names afterwards. -/
def ShowsEntry (s s' : Space) (v w : BitVec 32) : Prop :=
  ∃ f, s.frameOf w = some f ∧
    (f = s.cr3 ∧ wordIdx w = dirIdx v ∨ f = frame (s'.pde v) ∧ wordIdx w = tblIdx v)

/-- What `map_page(v, p)` must do: `v` is mapped to `p`; a page that was mapped keeps its
    mapping, and what it shows, unless that is an entry of `v` itself; a page that was not
    mapped stays unmapped, apart from the page of the window with the table of `v`. -/
structure MapLaw (s s' : Vm) (v paddr : BitVec 32) : Prop where
  mapped : s'.getPageMapping v = some (paddr &&& addrMask)
  mapping : ∀ w, pageOf w ≠ pageOf v → s.space.frameOf w ≠ none →
    s'.getPageMapping w = s.getPageMapping w
  contents : ∀ w, pageOf w ≠ pageOf v → s.space.frameOf w ≠ none →
    ¬ ShowsEntry s.space s'.space v w → s'.load w = s.load w
  unmapped : ∀ w, pageOf w ≠ pageOf v → pageOf w ≠ pageOf (loopbackTbl (pgDirIdx v)) →
    s.space.frameOf w = none → s'.space.frameOf w = none

/-- What `unmap_page(v)` must do. -/
structure UnmapLaw (s s' : Vm) (v : BitVec 32) : Prop where
  unmapped : s'.getPageMapping v = some 0#32
  mapping : ∀ w, pageOf w ≠ pageOf v → s'.getPageMapping w = s.getPageMapping w

namespace Vm

variable {s s' : Vm} {v : BitVec 32}

@[simp] theorem write_mem (f : BitVec 20) (k : BitVec 10) (x : BitVec 32) :
    (s.write f k x).space.mem = s.space.mem.write f k x := rfl

@[simp] theorem write_cr3 (f : BitVec 20) (k : BitVec 10) (x : BitVec 32) :
    (s.write f k x).space.cr3 = s.space.cr3 := rfl

@[simp] theorem write_freePages (f : BitVec 20) (k : BitVec 10) (x : BitVec 32) :
    (s.write f k x).freePages = s.freePages := rfl

/-- A write outside the directory keeps the directory entries. -/
theorem write_pde {f : BitVec 20} (hf : f ≠ s.space.cr3) (k : BitVec 10) (x w : BitVec 32) :
    (s.write f k x).space.pde w = s.space.pde w := by
  simp only [Space.pde, write_mem, write_cr3]
  exact PhysMem.write_of_ne _ _ fun he => absurd he.symm hf

theorem write_selfMapped (h : s.space.SelfMapped) {f : BitVec 20} {k : BitVec 10}
    (hf : f = s.space.cr3 → k ≠ 1023#10) (x : BitVec 32) : (s.write f k x).space.SelfMapped := by
  have he : (s.write f k x).space.mem s.space.cr3 1023#10 = s.space.mem s.space.cr3 1023#10 :=
    PhysMem.write_of_ne _ _ fun hc => (hf hc.symm).symm
  refine ⟨?_, ?_⟩
  · rw [write_cr3, he]
    exact h.present
  · rw [write_cr3, he]
    exact h.frame

/-! ## With the page table in place -/

section Present

variable (h : Tables s.space) (hv : dirIdx v ≠ 1023#10) (hp : present (s.space.pde v) = true)

include h hv hp

theorem frame_pde_ne_cr3 : frame (s.space.pde v) ≠ s.space.cr3 := h.frame_ne_cr3 hv hp

theorem write_pte_selfMapped (e : BitVec 32) :
    (s.write (frame (s.space.pde v)) (tblIdx v) e).space.SelfMapped :=
  write_selfMapped h.selfMapped (fun hc => absurd hc (frame_pde_ne_cr3 h hv hp)) e

/-- The entry is the new table entry of `v`. -/
theorem write_pte_self (e : BitVec 32) :
    (s.write (frame (s.space.pde v)) (tblIdx v) e).space.pte v = e := by
  rw [Space.pte, write_pde (frame_pde_ne_cr3 h hv hp)]
  exact PhysMem.write_self ..

/-- The other pages keep their mapping. -/
theorem write_pte_frameOf (e : BitVec 32) {w : BitVec 32} (hw : pageOf w ≠ pageOf v) :
    (s.write (frame (s.space.pde v)) (tblIdx v) e).space.frameOf w = s.space.frameOf w := by
  have hpde := write_pde (s := s) (frame_pde_ne_cr3 h hv hp) (tblIdx v) e w
  cases hpw : present (s.space.pde w) with
  | false => simp [Space.frameOf, hpde, hpw]
  | true =>
      have hpte : (s.write (frame (s.space.pde v)) (tblIdx v) e).space.pte w =
          s.space.pte w := by
        rw [Space.pte, hpde]
        refine PhysMem.write_of_ne _ _ fun hf ht => ?_
        exact hw (pageOf_eq_iff.mpr ⟨h.distinct _ _ hpw hp hf, ht⟩)
      simp only [Space.frameOf, hpde, hpte]

theorem write_pte_getPageMapping (e : BitVec 32) {w : BitVec 32} (hw : pageOf w ≠ pageOf v) :
    (s.write (frame (s.space.pde v)) (tblIdx v) e).getPageMapping w = s.getPageMapping w := by
  rw [getPageMapping_eq (write_pte_selfMapped h hv hp e), getPageMapping_eq h.selfMapped,
    write_pte_frameOf h hv hp e hw]

theorem mapLaw_of_present (paddr : BitVec 32) :
    MapLaw s (s.write (frame (s.space.pde v)) (tblIdx v) (mapEntry (s.space.pte v) paddr)) v
      paddr := by
  have hpde := write_pde (s := s) (frame_pde_ne_cr3 h hv hp) (tblIdx v)
    (mapEntry (s.space.pte v) paddr) v
  refine ⟨?_, fun w hw _ => write_pte_getPageMapping h hv hp _ hw, ?_, ?_⟩
  · rw [getPageMapping_eq (write_pte_selfMapped h hv hp _), Space.frameOf, hpde, hp,
      write_pte_self h hv hp, present_mapEntry, and_addrMask, frame_mapEntry]
    rfl
  · intro w hw hmapped hshow
    obtain ⟨f, hf⟩ := Option.ne_none_iff_exists'.mp hmapped
    rw [load, load, Space.load_eq hf,
      Space.load_eq ((write_pte_frameOf h hv hp _ hw).trans hf)]
    congr 1
    refine PhysMem.write_of_ne _ _ fun hff hk => hshow ⟨f, hf, .inr ⟨?_, hk⟩⟩
    rw [hpde, hff]
  · intro w hw _ hnone
    rw [write_pte_frameOf h hv hp _ hw, hnone]

end Present

theorem unmapLaw_unmapPage (h : Tables s.space) (hv : dirIdx v ≠ 1023#10) :
    ∃ s', s.unmapPage v = some s' ∧ UnmapLaw s s' v := by
  refine ⟨_, unmapPage_eq h.selfMapped v, ?_⟩
  split
  · next hp =>
      refine ⟨?_, fun w hw => write_pte_getPageMapping h hv hp _ hw⟩
      rw [getPageMapping_eq (write_pte_selfMapped h hv hp _), Space.frameOf,
        write_pte_self h hv hp]
      simp [present]
  · next hp =>
      refine ⟨?_, fun w _ => rfl⟩
      rw [getPageMapping_eq h.selfMapped, Space.frameOf]
      simp [hp]

/-! ## Without the page table -/

/-- The state with the first `n` words of frame `g` cleared. -/
def cleared (s : Vm) (g : BitVec 20) (n : Nat) : Vm :=
  { s with space := { s.space with
      mem := fun f k => if f = g ∧ k.toNat < n then 0#32 else s.space.mem f k } }

@[simp] theorem cleared_cr3 (g : BitVec 20) (n : Nat) :
    (s.cleared g n).space.cr3 = s.space.cr3 := rfl

theorem cleared_mem (g : BitVec 20) (n : Nat) (f : BitVec 20) (k : BitVec 10) :
    (s.cleared g n).space.mem f k = if f = g ∧ k.toNat < n then 0#32 else s.space.mem f k := rfl

theorem cleared_all (g f : BitVec 20) (k : BitVec 10) :
    (s.cleared g 1024).space.mem f k = if f = g then 0#32 else s.space.mem f k := by
  have hk : k.toNat < 1024 := k.isLt
  simp [cleared_mem, hk]

theorem cleared_of_ne {g f : BitVec 20} (n : Nat) (k : BitVec 10) (hf : f ≠ g) :
    (s.cleared g n).space.mem f k = s.space.mem f k := by
  simp [cleared_mem, hf]

theorem cleared_selfMapped (h : s.space.SelfMapped) {g : BitVec 20} (hg : g ≠ s.space.cr3)
    (n : Nat) : (s.cleared g n).space.SelfMapped := by
  refine ⟨?_, ?_⟩
  · rw [cleared_cr3, cleared_of_ne _ _ (Ne.symm hg)]
    exact h.present
  · rw [cleared_cr3, cleared_of_ne _ _ (Ne.symm hg)]
    exact h.frame

theorem cleared_succ (g : BitVec 20) {n : Nat} (hn : n < 1024) :
    (s.cleared g n).write g (BitVec.ofNat 10 n) 0#32 = s.cleared g (n + 1) := by
  have hmem : (s.cleared g n).space.mem.write g (BitVec.ofNat 10 n) 0#32 =
      (s.cleared g (n + 1)).space.mem := by
    funext f k
    have hk : k = BitVec.ofNat 10 n ↔ k.toNat = n := by
      rw [← BitVec.toNat_inj, BitVec.toNat_ofNat, Nat.mod_eq_of_lt (by omega)]
    simp only [PhysMem.write, cleared_mem, hk]
    split
    · next he => simp [he]
    · next he =>
        by_cases hf : f = g
        · have : k.toNat < n ↔ k.toNat < n + 1 := by
            simp only [hf, true_and] at he
            omega
          simp [hf, this]
        · simp [hf]
  simp only [write, hmem]
  rfl

/-- An entry that is present after clearing was not touched. -/
theorem cleared_present {g : BitVec 20} {n : Nat} {f : BitVec 20} {k : BitVec 10}
    (hp : present ((s.cleared g n).space.mem f k) = true) :
    (s.cleared g n).space.mem f k = s.space.mem f k := by
  rw [cleared_mem] at hp ⊢
  split
  · next hc =>
      rw [if_pos hc] at hp
      simp [present] at hp
  · rfl

/-- Clearing only takes mappings away. -/
theorem frameOf_of_cleared {g : BitVec 20} {n : Nat} {w : BitVec 32} {f : BitVec 20}
    (hf : (s.cleared g n).space.frameOf w = some f) : s.space.frameOf w = some f := by
  obtain ⟨hd, ht, hfr⟩ := Space.frameOf_eq_some.mp hf
  have hpde : (s.cleared g n).space.pde w = s.space.pde w := cleared_present hd
  have hpte : (s.cleared g n).space.pte w = s.space.pte w := by
    rw [Space.pte, cleared_present ht, hpde]
    rfl
  rw [hpde] at hd
  rw [hpte] at ht hfr
  exact Space.frameOf_eq_some.mpr ⟨hd, ht, hfr⟩

theorem pageAddr_inj {f g : BitVec 20} : pageAddr f = pageAddr g ↔ f = g := by
  rw [← BitVec.toNat_inj, pageAddr_toNat, pageAddr_toNat, ← BitVec.toNat_inj]
  omega

/-- Element `n` of the page `t` taken as an array. -/
theorem elem_pageAddr (t : BitVec 20) {n : Nat} (hn : n < 1024) :
    pageOf (elem (pageAddr t) (BitVec.ofNat 32 n)) = t ∧
      wordIdx (elem (pageAddr t) (BitVec.ofNat 32 n)) = BitVec.ofNat 10 n := by
  have ht := t.isLt
  simp only [← BitVec.toNat_inj, pageOf_toNat, wordIdx_toNat, elem, BitVec.toNat_add,
    BitVec.toNat_mul, pageAddr_toNat, BitVec.toNat_ofNat]
  omega

/-- The loop has something to write to. -/
theorem clearWords_mapped {t : BitVec 20} :
    ∀ {n : Nat} {s' : Vm}, 0 < n → s.clearWords (pageAddr t) n = some s' →
      ∃ g, s.space.frameOf (pageAddr t) = some g
  | 1, s', _, hs => by
      obtain ⟨hpage, -⟩ := elem_pageAddr t (n := 0) (by decide)
      simp only [clearWords, Option.bind_eq_bind, Option.bind_some, store, Option.map_eq_some_iff,
        Space.store] at hs
      obtain ⟨sp, ⟨g, hg, -⟩, -⟩ := hs
      exact ⟨g, by rwa [Space.frameOf_congr (hpage.trans (frame_pageAddr t).symm)] at hg⟩
  | n + 2, s', _, hs => by
      rw [clearWords, Option.bind_eq_bind, Option.bind_eq_some_iff] at hs
      obtain ⟨s₁, hs₁, -⟩ := hs
      exact clearWords_mapped (Nat.succ_pos n) hs₁

/-- If the loop that clears the new table ends, it has cleared the frame that is mapped at the
    physical address of the table. -/
theorem clearWords_inv {t g : BitVec 20} (hg : s.space.frameOf (pageAddr t) = some g) :
    ∀ (n : Nat) {s' : Vm}, n ≤ 1024 → s.clearWords (pageAddr t) n = some s' → s' = s.cleared g n
  | 0, s', _, hs => by
      rw [clearWords, Option.some.injEq] at hs
      rw [← hs, cleared]
      simp
  | n + 1, s', hn, hs => by
      rw [clearWords, Option.bind_eq_bind, Option.bind_eq_some_iff] at hs
      obtain ⟨s₁, hs₁, hs'⟩ := hs
      obtain rfl := clearWords_inv hg n (by omega) hs₁
      obtain ⟨hpage, hword⟩ := elem_pageAddr t (n := n) (by omega)
      obtain ⟨sp, hsp, -⟩ := Option.map_eq_some_iff.mp hs'
      obtain ⟨f, hf, -⟩ := Option.map_eq_some_iff.mp hsp
      -- the store goes to `g`: nothing is mapped anew
      have hfg : f = g := by
        have hft := frameOf_of_cleared hf
        rw [Space.frameOf_congr (hpage.trans (frame_pageAddr t).symm), hg] at hft
        exact (Option.some.inj hft).symm
      subst hfg
      rw [store_eq hf, hword, cleared_succ f (by omega)] at hs'
      exact (Option.some.inj hs').symm

/-- The loop ends when the frame it clears holds neither the directory nor the table through
    which it is reached. -/
theorem clearWords_eq {t g : BitVec 20} (hg : s.space.frameOf (pageAddr t) = some g)
    (hgd : g ≠ s.space.cr3) (hgt : g ≠ frame (s.space.pde (pageAddr t))) :
    ∀ n ≤ 1024, s.clearWords (pageAddr t) n = some (s.cleared g n)
  | 0, _ => by simp [clearWords, cleared]
  | n + 1, hn => by
      obtain ⟨hpage, hword⟩ := elem_pageAddr t (n := n) (by omega)
      have hpde : (s.cleared g n).space.pde (pageAddr t) = s.space.pde (pageAddr t) :=
        cleared_of_ne _ _ (Ne.symm hgd)
      have hpte : (s.cleared g n).space.pte (pageAddr t) = s.space.pte (pageAddr t) := by
        rw [Space.pte, hpde]
        exact cleared_of_ne _ _ (Ne.symm hgt)
      have hf : (s.cleared g n).space.frameOf (elem (pageAddr t) (BitVec.ofNat 32 n)) =
          some g := by
        rw [Space.frameOf_congr (hpage.trans (frame_pageAddr t).symm), Space.frameOf, hpde, hpte]
        exact hg
      rw [clearWords, clearWords_eq hg hgd hgt n (by omega), Option.bind_eq_bind,
        Option.bind_some, store_eq hf, hword, cleared_succ g (by omega)]

/-- The state after the page `t` was made the table of `v`, with the frame `g` cleared. -/
def withTable (s : Vm) (g t : BitVec 20) (ts : List (BitVec 20)) (v : BitVec 32) : Vm :=
  ({ s with freePages := ts }.cleared g 1024).write s.space.cr3 (dirIdx v)
    (createPagingEntry (pageAddr t) true true true)

section Absent

variable {g t : BitVec 20} {ts : List (BitVec 20)}

@[simp] theorem withTable_cr3 : (s.withTable g t ts v).space.cr3 = s.space.cr3 := rfl

theorem withTable_mem (f : BitVec 20) (k : BitVec 10) :
    (s.withTable g t ts v).space.mem f k =
      if f = s.space.cr3 ∧ k = dirIdx v then createPagingEntry (pageAddr t) true true true
      else if f = g then 0#32 else s.space.mem f k := by
  simp only [withTable, write_mem, PhysMem.write, cleared_all]

theorem withTable_selfMapped (h : s.space.SelfMapped) (hv : dirIdx v ≠ 1023#10)
    (hg : g ≠ s.space.cr3) : (s.withTable g t ts v).space.SelfMapped := by
  have he : (s.withTable g t ts v).space.mem s.space.cr3 1023#10 =
      s.space.mem s.space.cr3 1023#10 := by
    simp [withTable_mem, Ne.symm hv, Ne.symm hg]
  exact ⟨by rw [withTable_cr3, he]; exact h.present, by rw [withTable_cr3, he]; exact h.frame⟩

theorem withTable_pde : (s.withTable g t ts v).space.pde v =
    createPagingEntry (pageAddr t) true true true := by
  simp [Space.pde, withTable_mem]

/-- The state after `map_page` inserted a table. -/
def mapped (s : Vm) (g t : BitVec 20) (ts : List (BitVec 20)) (v paddr : BitVec 32) : Vm :=
  (s.withTable g t ts v).write t (tblIdx v)
    (mapEntry ((s.withTable g t ts v).space.pte v) paddr)

theorem mapPage_withTable (h : s.space.SelfMapped) (hv : dirIdx v ≠ 1023#10)
    (hg : g ≠ s.space.cr3) (paddr : BitVec 32) :
    (s.withTable g t ts v).modifyOrInsertPageStructure (loopbackTbl (pgDirIdx v)) v paddr true =
      some (present ((s.withTable g t ts v).space.pte v), s.mapped g t ts v paddr) := by
  rw [modifyOrInsertPageStructure_eq (withTable_selfMapped h hv hg)
    (by rw [withTable_pde]; simp), withTable_pde, frame_createPagingEntry, frame_pageAddr]
  rfl

variable (h : s.space.SelfMapped) (hv : dirIdx v ≠ 1023#10)
  (habs : present (s.space.pde v) = false) (hfree : s.freePages = t :: ts)

include h habs hfree

theorem checkOrInsertTableStructure_absent :
    s.checkOrInsertTableStructure loopbackDir v true =
      ({ s with freePages := ts }.clearWords (pageAddr t) 1024).bind fun s₁ =>
        (s₁.store (elem loopbackDir (pgDirIdx v))
          (createPagingEntry (pageAddr t) true true true)).bind fun s₂ =>
            some (pgDirIdx v, s₂) := by
  simp only [checkOrInsertTableStructure, load_dir h, Option.bind_eq_bind, Option.bind_some,
    isPresent_eq, habs, Bool.false_eq_true, if_false, kpageAlloc, hfree]

include hv

/-- A `map_page` that returns without a page table has cleared the frame that is mapped at the
    physical address of the new one. -/
theorem mapPage_absent_inv {paddr : BitVec 32} (hs : s.mapPage v paddr = some s') :
    ∃ g, s.space.frameOf (pageAddr t) = some g ∧ g ≠ s.space.cr3 ∧
      s' = s.mapped g t ts v paddr := by
  simp only [mapPage, checkOrInsertTableStructure_absent h habs hfree, Option.bind_eq_bind,
    Option.bind_eq_some_iff, Prod.exists] at hs
  obtain ⟨index, s₃, ⟨s₁, hs₁, s₂, hs₂, hidx⟩, b, s₄, hs₄, hret⟩ := hs
  obtain ⟨rfl, rfl⟩ := Prod.mk.inj (Option.some.inj hidx)
  obtain rfl := Option.some.inj hret
  obtain ⟨g, hg⟩ := clearWords_mapped (n := 1024) (by decide) hs₁
  obtain rfl := clearWords_inv hg 1024 (Nat.le_refl _) hs₁
  -- a cleared directory does not show itself any more
  have hgd : g ≠ s.space.cr3 := by
    rintro rfl
    have hnone : ({ s with freePages := ts }.cleared s.space.cr3 1024).space.frameOf
        (elem loopbackDir (pgDirIdx v)) = none := by
      rw [Space.frameOf_eq_none]
      intro hp
      simp [Space.pde, cleared_all, present] at hp
    simp [store, Space.store, hnone] at hs₂
  have hsm : ({ s with freePages := ts }.cleared g 1024).space.SelfMapped :=
    cleared_selfMapped h hgd 1024
  rw [store_dir hsm] at hs₂
  obtain rfl := Option.some.inj hs₂
  refine ⟨g, hg, hgd, ?_⟩
  have := @mapPage_withTable s v g t ts h hv hgd paddr
  rw [withTable] at this
  exact (congrArg Prod.snd (Option.some.inj (hs₄.symm.trans this)))

/-- `map_page` inserts a table if the frame that it clears instead of the new table holds neither
    the directory nor the table through which it is reached. -/
theorem mapPage_absent_eq {g : BitVec 20} (hg : s.space.frameOf (pageAddr t) = some g)
    (hgd : g ≠ s.space.cr3) (hgt : g ≠ frame (s.space.pde (pageAddr t))) (paddr : BitVec 32) :
    s.mapPage v paddr = some (s.mapped g t ts v paddr) := by
  have hclear := clearWords_eq (s := { s with freePages := ts }) hg hgd hgt 1024 (Nat.le_refl _)
  have hsm : ({ s with freePages := ts }.cleared g 1024).space.SelfMapped :=
    cleared_selfMapped h hgd 1024
  have hmod := @mapPage_withTable s v g t ts h hv hgd paddr
  rw [withTable] at hmod
  simp only [mapPage, checkOrInsertTableStructure_absent h habs hfree, hclear, store_dir hsm,
    Option.bind_eq_bind, Option.bind_some]
  rw [cleared_cr3]
  rw [hmod, Option.bind_some]

end Absent

/-- The memory after a table was inserted: the two entries of `v` are new, and the frame `g`
    is cleared. -/
theorem mapped_mem {g t : BitVec 20} {ts : List (BitVec 20)} {paddr : BitVec 32} (f : BitVec 20)
    (k : BitVec 10) : (s.mapped g t ts v paddr).space.mem f k =
      if f = t ∧ k = tblIdx v then mapEntry ((s.withTable g t ts v).space.pte v) paddr
      else if f = s.space.cr3 ∧ k = dirIdx v then createPagingEntry (pageAddr t) true true true
      else if f = g then 0#32 else s.space.mem f k := by
  simp only [mapped, write_mem, PhysMem.write, withTable_mem]

/-- The window shows the table of `v` on the page of `LOOPBACK_TBL(PG_DIR_IDX(v))`. -/
theorem pageOf_loopbackTbl {w : BitVec 32} (hd : dirIdx w = 1023#10) (ht : tblIdx w = dirIdx v) :
    pageOf w = pageOf (loopbackTbl (pgDirIdx v)) := by
  have hv := v.isLt
  simp only [← BitVec.toNat_inj, dirIdx_toNat, tblIdx_toNat, BitVec.toNat_ofNat] at hd ht
  simp only [← BitVec.toNat_inj, pageOf_toNat, loopbackTbl, BitVec.toNat_add, pgDirIdx_toNat,
    BitVec.toNat_ofNat, BitVec.toNat_shiftLeft, Nat.shiftLeft_eq]
  omega

/-- The condition under which inserting a table disturbs nothing: what is cleared instead
    of the new table is a page of zeros (or the new table itself), and the new table holds no
    present entry beside that of `v`. -/
def InsertsCleanly (s : Vm) (t : BitVec 20) (v : BitVec 32) : Prop :=
  ∃ g, s.space.frameOf (pageAddr t) = some g ∧
    (∀ k, (g = t ∧ k = tblIdx v) ∨ s.space.mem g k = 0#32) ∧
    ∀ k, k ≠ tblIdx v → present (s.space.mem t k) = false

section Insert

variable {g t : BitVec 20} {ts : List (BitVec 20)} {paddr : BitVec 32} (h : Tables s.space)
  (hv : dirIdx v ≠ 1023#10) (habs : present (s.space.pde v) = false)
  (ht : FreshPage s.space t)

theorem mapped_cr3 : (s.mapped g t ts v paddr).space.cr3 = s.space.cr3 := rfl

include h hv in
theorem mapped_selfMapped (hg : g ≠ s.space.cr3) (ht : t ≠ s.space.cr3) :
    (s.mapped g t ts v paddr).space.SelfMapped :=
  write_selfMapped (withTable_selfMapped h.selfMapped hv hg) (fun he => absurd he ht) _

theorem mapped_pde (ht : t ≠ s.space.cr3) : (s.mapped g t ts v paddr).space.pde v =
    createPagingEntry (pageAddr t) true true true := by
  rw [Space.pde, mapped_cr3]
  simp [mapped_mem, Ne.symm ht]

include h habs ht

/-- Where the cleared words were zero already, only the entries of `v` change. -/
theorem mapped_frameOf (hsame : ∀ f k, ¬ (f = t ∧ k = tblIdx v) →
      ¬ (f = s.space.cr3 ∧ k = dirIdx v) →
      (s.mapped g t ts v paddr).space.mem f k = s.space.mem f k)
    (hnew : ∀ k, k ≠ tblIdx v → present (s.space.mem t k) = false) {w : BitVec 32}
    (hw : pageOf w ≠ pageOf v) (hwin : pageOf w ≠ pageOf (loopbackTbl (pgDirIdx v))) :
    (s.mapped g t ts v paddr).space.frameOf w = s.space.frameOf w := by
  have htc : t ≠ s.space.cr3 := ht.ne_cr3 h.selfMapped
  by_cases hd : dirIdx w = dirIdx v
  · -- `w` lies in the slot of the new table
    have htw : tblIdx w ≠ tblIdx v := fun he => hw (pageOf_eq_iff.mpr ⟨hd, he⟩)
    have hnone : s.space.frameOf w = none := by
      rw [Space.frameOf_eq_none, Space.pde, hd]
      intro hp
      rw [Space.pde, hp] at habs
      cases habs
    rw [hnone, Space.frameOf_eq_none]
    intro _
    have hpde : (s.mapped g t ts v paddr).space.pde w =
        createPagingEntry (pageAddr t) true true true := by
      rw [Space.pde, hd]
      exact mapped_pde htc
    rw [Space.pte, hpde, frame_createPagingEntry, frame_pageAddr,
      hsame t _ (fun he => htw he.2) (fun he => htc he.1)]
    exact hnew _ htw
  · have hpde : (s.mapped g t ts v paddr).space.pde w = s.space.pde w :=
      hsame _ _ (fun he => htc he.1.symm) (fun he => hd he.2)
    cases hp : present (s.space.pde w) with
    | false => simp [Space.frameOf, hpde, hp]
    | true =>
        have hpte : (s.mapped g t ts v paddr).space.pte w = s.space.pte w := by
          rw [Space.pte, hpde]
          refine hsame _ _ (fun he => ht _ hp he.1) (fun he => hwin ?_)
          have hself : dirIdx w = 1023#10 :=
            h.distinct _ _ hp h.selfMapped.present (he.1.trans h.selfMapped.frame.symm)
          exact pageOf_loopbackTbl hself he.2
        simp only [Space.frameOf, hpde, hpte]

omit h habs ht in
/-- Clearing a frame of zeros leaves the entries of `v` as the only change. -/
theorem mapped_of_zero (hzero : ∀ k, (g = t ∧ k = tblIdx v) ∨ s.space.mem g k = 0#32)
    (f : BitVec 20) (k : BitVec 10) (h1 : ¬ (f = t ∧ k = tblIdx v))
    (h2 : ¬ (f = s.space.cr3 ∧ k = dirIdx v)) :
    (s.mapped g t ts v paddr).space.mem f k = s.space.mem f k := by
  rw [mapped_mem, if_neg h1, if_neg h2]
  split
  · next hf =>
      subst hf
      rcases hzero k with ⟨rfl, rfl⟩ | h0
      · exact absurd ⟨rfl, rfl⟩ h1
      · exact h0.symm
  · rfl

omit h habs ht in
theorem mapped_frameOf_self (ht : t ≠ s.space.cr3) :
    (s.mapped g t ts v paddr).space.frameOf v = some (pageOf paddr) := by
  have hpde := @mapped_pde s v g t ts paddr ht
  have hpte : (s.mapped g t ts v paddr).space.pte v =
      mapEntry ((s.withTable g t ts v).space.pte v) paddr := by
    rw [Space.pte, hpde, frame_createPagingEntry, frame_pageAddr, mapped_mem]
    simp
  rw [Space.frameOf, hpde, hpte, present_createPagingEntry, present_mapEntry, frame_mapEntry]
  rfl

omit habs in
/-- A frame of zeros is neither the directory nor a table with a present entry. -/
theorem cleared_frame_ne (hgt : s.space.frameOf (pageAddr t) = some g)
    (hzero : ∀ k, (g = t ∧ k = tblIdx v) ∨ s.space.mem g k = 0#32) :
    g ≠ s.space.cr3 ∧ g ≠ frame (s.space.pde (pageAddr t)) := by
  have hne : ∀ f k, present (s.space.mem f k) = true → t ≠ f → g ≠ f := by
    rintro f k hpr htf rfl
    rcases hzero k with ⟨rfl, -⟩ | h0
    · exact htf rfl
    · rw [h0] at hpr
      simp [present] at hpr
  obtain ⟨hpt, hpte, -⟩ := Space.frameOf_eq_some.mp hgt
  exact ⟨hne _ _ h.selfMapped.present (ht.ne_cr3 h.selfMapped), hne _ _ hpte (Ne.symm (ht _ hpt))⟩

include hv

theorem mapLaw_of_insertsCleanly (hg : g ≠ s.space.cr3)
    (hzero : ∀ k, (g = t ∧ k = tblIdx v) ∨ s.space.mem g k = 0#32)
    (hnew : ∀ k, k ≠ tblIdx v → present (s.space.mem t k) = false) :
    MapLaw s (s.mapped g t ts v paddr) v paddr := by
  have htc : t ≠ s.space.cr3 := ht.ne_cr3 h.selfMapped
  have hsm := @mapped_selfMapped s v g t ts paddr h hv hg htc
  have hpde := @mapped_pde s v g t ts paddr htc
  have hsame := @mapped_of_zero s v g t ts paddr hzero
  -- a page that was mapped is not the new page of the window
  have hwin : ∀ w, s.space.frameOf w ≠ none → pageOf w ≠ pageOf (loopbackTbl (pgDirIdx v)) := by
    intro w hmapped he
    obtain ⟨hd, hti, -⟩ := loopbackTbl_indices v
    have hpage : pageOf w = pageOf (elem (loopbackTbl (pgDirIdx v)) (pgTblIdx v)) :=
      he.trans (pageOf_loopbackTbl hd hti).symm
    rw [Space.frameOf_congr hpage, frameOf_tbl h.selfMapped, habs] at hmapped
    exact hmapped rfl
  refine ⟨?_, fun w hw hmapped => ?_, fun w hw hmapped hshow => ?_, fun w hw hww hnone => ?_⟩
  · rw [getPageMapping_eq hsm, mapped_frameOf_self htc, and_addrMask]
    rfl
  · rw [getPageMapping_eq hsm, getPageMapping_eq h.selfMapped,
      mapped_frameOf h habs ht hsame hnew hw (hwin w hmapped)]
  · obtain ⟨f, hf⟩ := Option.ne_none_iff_exists'.mp hmapped
    have hf' := (mapped_frameOf h habs ht hsame hnew hw (hwin w hmapped)).trans hf
    rw [load, load, Space.load_eq hf, Space.load_eq hf']
    congr 1
    refine hsame _ _ (fun he => hshow ⟨f, hf, .inr ⟨?_, he.2⟩⟩)
      (fun he => hshow ⟨f, hf, .inl he⟩)
    rw [hpde, frame_createPagingEntry, frame_pageAddr]
    exact he.1
  · rw [mapped_frameOf h habs ht hsame hnew hw hww, hnone]

omit h hv ht in
/-- The page behind the physical address of the new table is not the page of `v`. -/
theorem pageOf_ne_of_mapped {w : BitVec 32} (hg : s.space.frameOf w = some g) :
    pageOf w ≠ pageOf v := by
  intro he
  obtain ⟨hp, -, -⟩ := Space.frameOf_eq_some.mp hg
  rw [Space.pde, (pageOf_eq_iff.mp he).1] at hp
  rw [Space.pde, hp] at habs
  cases habs

theorem insertsCleanly_of_mapLaw (hgt : s.space.frameOf (pageAddr t) = some g)
    (hg : g ≠ s.space.cr3) (hl : MapLaw s (s.mapped g t ts v paddr) v paddr) :
    s.InsertsCleanly t v := by
  have htc : t ≠ s.space.cr3 := ht.ne_cr3 h.selfMapped
  have hsm := @mapped_selfMapped s v g t ts paddr h hv hg htc
  have hpde := @mapped_pde s v g t ts paddr htc
  have hzero : ∀ k, (g = t ∧ k = tblIdx v) ∨ s.space.mem g k = 0#32 := by
    intro k
    by_cases hk : g = t ∧ k = tblIdx v
    · exact .inl hk
    · refine .inr ?_
      -- the word `w` of the cleared page must show what it showed before
      obtain ⟨hpage, hword⟩ := elem_pageAddr t (n := k.toNat) k.isLt
      generalize elem (pageAddr t) (BitVec.ofNat 32 k.toNat) = w at hpage hword
      rw [BitVec.ofNat_toNat, BitVec.setWidth_eq] at hword
      have hfw : s.space.frameOf w = some g := by
        rw [Space.frameOf_congr (hpage.trans (frame_pageAddr t).symm), hgt]
      have hne : pageOf w ≠ pageOf v := pageOf_ne_of_mapped habs hfw
      have hmapped : s.space.frameOf w ≠ none := by simp [hfw]
      have hshow : ¬ ShowsEntry s.space (s.mapped g t ts v paddr).space v w := by
        rintro ⟨f, hf, hcase⟩
        obtain rfl : f = g := Option.some.inj (hf.symm.trans hfw)
        rw [hpde, frame_createPagingEntry, frame_pageAddr, hword] at hcase
        rcases hcase with ⟨hc, -⟩ | hc
        · exact hg hc
        · exact hk hc
      have hload := hl.contents w hne hmapped hshow
      have hmap := hl.mapping w hne hmapped
      rw [load, load, Space.load_eq hfw, hword] at hload
      obtain ⟨f', hf', hmem⟩ := Option.map_eq_some_iff.mp hload
      rw [getPageMapping_eq hsm, getPageMapping_eq h.selfMapped, hf', hfw, Option.some.injEq]
        at hmap
      obtain rfl : f' = g := pageAddr_inj.mp hmap
      rw [← hmem, hword, mapped_mem, if_neg hk, if_neg (fun he => hg he.1), if_pos rfl]
  refine ⟨g, hgt, hzero, fun k hk => ?_⟩
  -- page `k` of the slot must stay unmapped
  have hvlt := (dirIdx v).isLt
  have hklt := k.isLt
  obtain ⟨w, hwd, hwt⟩ : ∃ w : BitVec 32, dirIdx w = dirIdx v ∧ tblIdx w = k := by
    refine ⟨BitVec.ofNat 32 ((dirIdx v).toNat * 4194304 + k.toNat * 4096), ?_, ?_⟩
    · rw [← BitVec.toNat_inj, dirIdx_toNat, BitVec.toNat_ofNat]
      omega
    · rw [← BitVec.toNat_inj, tblIdx_toNat, BitVec.toNat_ofNat]
      omega
  have hne : pageOf w ≠ pageOf v := fun he => hk (hwt.symm.trans (pageOf_eq_iff.mp he).2)
  have hwin : pageOf w ≠ pageOf (loopbackTbl (pgDirIdx v)) := by
    intro he
    obtain ⟨hd, hti, -⟩ := loopbackTbl_indices v
    have := (pageOf_eq_iff.mp (he.trans (pageOf_loopbackTbl hd hti).symm)).1
    exact hv (hwd.symm.trans (this.trans hd))
  have hnone : s.space.frameOf w = none := by
    rw [Space.frameOf_eq_none, Space.pde, hwd]
    intro hp
    rw [Space.pde, hp] at habs
    cases habs
  have hafter := Space.frameOf_eq_none.mp (hl.unmapped w hne hwin hnone)
  have hpw : (s.mapped g t ts v paddr).space.pde w =
      createPagingEntry (pageAddr t) true true true := by
    rw [Space.pde, hwd]
    exact hpde
  rw [Space.pte, hpw, frame_createPagingEntry, frame_pageAddr, hwt, mapped_mem,
    if_neg (fun he => hk he.2), if_neg (fun he => htc he.1)] at hafter
  have := hafter (by simp)
  split at this
  · next htg =>
      rcases hzero k with ⟨-, rfl⟩ | h0
      · exact absurd rfl hk
      · rw [htg, h0]
        exact this
  · exact this

end Insert

theorem dirIdx_ne_of_lt (hv : v < 0xFFC00000#32) : dirIdx v ≠ 1023#10 := by
  intro he
  have := congrArg BitVec.toNat he
  simp only [BitVec.lt_def, BitVec.toNat_ofNat] at hv
  simp only [dirIdx_toNat, BitVec.toNat_ofNat] at this
  omega

/-- `map_page` obeys its law exactly when the page table of `v` is in place already, or is
    inserted without disturbing anything; `unmap_page` obeys its law always. -/
theorem mapPage_laws (s : Vm) (h : Tables s.space) (v paddr : BitVec 32)
    (hv : v < 0xFFC00000#32) (t : BitVec 20) (ts : List (BitVec 20))
    (hfree : s.freePages = t :: ts) (ht : FreshPage s.space t) :
    ((∃ s', s.mapPage v paddr = some s' ∧ MapLaw s s' v paddr) ∧
      ∃ s', s.unmapPage v = some s' ∧ UnmapLaw s s' v) ↔
      (present (s.space.pde v) = true ∨ s.InsertsCleanly t v) := by
  have hd : dirIdx v ≠ 1023#10 := dirIdx_ne_of_lt hv
  rw [and_iff_left (unmapLaw_unmapPage h hd)]
  cases hp : present (s.space.pde v) with
  | true =>
      simp only [true_or, iff_true]
      exact ⟨_, mapPage_of_present h.selfMapped hp paddr, mapLaw_of_present h hd hp paddr⟩
  | false =>
      simp only [Bool.false_eq_true, false_or]
      constructor
      · rintro ⟨s', hs', hl⟩
        obtain ⟨g, hgt, hg, rfl⟩ := mapPage_absent_inv h.selfMapped hd hp hfree hs'
        exact insertsCleanly_of_mapLaw h hd hp ht hgt hg hl
      · rintro ⟨g, hgt, hzero, hnew⟩
        obtain ⟨hg, hgf⟩ := cleared_frame_ne h ht hgt hzero
        exact ⟨_, mapPage_absent_eq h.selfMapped hd hp hfree hgt hg hgf paddr,
          mapLaw_of_insertsCleanly h hd hp ht hg hzero hnew⟩

/-- The directory is in frame 1, its entry 0 names the table in frame 2, and there page 5 is mapped
    by the entry `e`. Frame 7 holds data, and page 5 is the next free one. -/
def pageFive (e : BitVec 32) : Vm where
  space := {
    mem := fun f k =>
      if f = 1#20 ∧ k = 1023#10 then 0x1003#32
      else if f = 1#20 ∧ k = 0#10 then 0x2007#32
      else if f = 2#20 ∧ k = 5#10 then e
      else if f = 7#20 ∧ k = 0#10 then 0x1234#32
      else 0#32
    cr3 := 1#20 }
  freePages := [5#20]
  pageHeap := ⟨fun _ => 0#32, 0, 0#32⟩

theorem pageFive_present {e : BitVec 32} {i : BitVec 10}
    (hp : present ((pageFive e).space.mem 1#20 i) = true) : i = 1023#10 ∨ i = 0#10 := by
  by_contra hne
  rw [not_or] at hne
  simp [pageFive, hne.1, hne.2, present] at hp

theorem pageFive_tables (e : BitVec 32) : Tables (pageFive e).space := by
  refine ⟨⟨(by decide : present 0x1003#32 = true), (by decide : frame 0x1003#32 = 1#20)⟩,
    fun i j hi hj hf => ?_⟩
  have hne : frame 0x1003#32 ≠ frame 0x2007#32 := by decide
  rcases pageFive_present hi with rfl | rfl <;> rcases pageFive_present hj with rfl | rfl
  · rfl
  · exact absurd hf hne
  · exact absurd hf hne.symm
  · rfl

theorem pageFive_fresh (e : BitVec 32) : FreshPage (pageFive e).space 5#20 := by
  intro i hi
  rcases pageFive_present hi with rfl | rfl
  · exact (by decide : frame 0x1003#32 ≠ 5#20)
  · exact (by decide : frame 0x2007#32 ≠ 5#20)

/-- With page 5 mapped to itself and empty, a table for the second slot is inserted and the
    law holds, as it does for a page of the first slot. -/
theorem mapPage_laws_identity :
    (∃ s', (pageFive 0x5007#32).mapPage 0x400000#32 0x9000#32 = some s' ∧
      MapLaw (pageFive 0x5007#32) s' 0x400000#32 0x9000#32) ∧
    ∃ s', (pageFive 0x5007#32).mapPage 0x3000#32 0x9000#32 = some s' ∧
      MapLaw (pageFive 0x5007#32) s' 0x3000#32 0x9000#32 := by
  constructor
  · refine ((mapPage_laws (pageFive 0x5007#32) (pageFive_tables _) 0x400000#32 0x9000#32 (by decide)
      5#20 [] rfl (pageFive_fresh _)).mpr
      (.inr ⟨5#20, by decide, fun k => .inr ?_, fun k _ => ?_⟩)).1
    · simp [pageFive]
    · simp [pageFive, present]
  · exact ((mapPage_laws (pageFive 0x5007#32) (pageFive_tables _) 0x3000#32 0x9000#32 (by decide)
      5#20 [] rfl (pageFive_fresh _)).mpr (.inl (by decide))).1

/-- With frame 7 mapped at page 5, `map_page` clears the data in frame 7 instead of the new
    table. -/
theorem mapPage_clears_data : ¬ ∀ (s : Vm) (v paddr : BitVec 32) (t : BitVec 20)
    (ts : List (BitVec 20)), Tables s.space → v < 0xFFC00000#32 → s.freePages = t :: ts →
    FreshPage s.space t → (∃ s', s.mapPage v paddr = some s' ∧ MapLaw s s' v paddr) ∧
      ∃ s', s.unmapPage v = some s' ∧ UnmapLaw s s' v := by
  intro hall
  have hd : dirIdx 0x400000#32 ≠ 1023#10 := by decide
  have habs : present ((pageFive 0x7007#32).space.pde 0x400000#32) = false := by decide
  obtain ⟨⟨s', hs', hl⟩, -⟩ := hall (pageFive 0x7007#32) 0x400000#32 0x9000#32 5#20 []
    (pageFive_tables _) (by decide) rfl (pageFive_fresh _)
  obtain ⟨g, hgt, hg, rfl⟩ :=
    mapPage_absent_inv (pageFive_tables _).selfMapped hd habs rfl hs'
  obtain rfl : 7#20 = g :=
    Option.some.inj ((by decide : (pageFive 0x7007#32).space.frameOf (pageAddr 5#20) =
      some 7#20).symm.trans hgt)
  obtain ⟨g', hg', hzero, -⟩ :=
    insertsCleanly_of_mapLaw (pageFive_tables _) hd habs (pageFive_fresh _) hgt hg hl
  obtain rfl : 7#20 = g' := Option.some.inj (hgt.symm.trans hg')
  rcases hzero 0#10 with ⟨h5, -⟩ | h0
  · exact absurd h5 (by decide)
  · exact absurd h0 (by decide)

end Vm

end Muse.Paging
