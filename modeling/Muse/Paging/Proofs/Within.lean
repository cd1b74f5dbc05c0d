import Mathlib.Data.List.Infix
import Muse.Paging.Proofs.AddressSpace
import Muse.Paging.TaskDirectory

/-!
# Writes to free pages and to tables

Starting from a state `s₀` in which the free pages are unused (`Ready`) and the next pages that the
heap hands out have their tables (`HeapTables`), what the functions of `Muse.Paging.TaskDirectory`
write lies in pages that were free in `s₀` or in the tables of the active directory (`Within`).
There are two kinds of steps: stores to a page that was free change no mapping (`Fills`), and
`map_page` and `unmap_page` change the mapping of one page (`Edits`).
-/

namespace Muse.Memory.PageHeap

/-- The next `n` pages that the heap hands out, or as many of them as it has left. -/
def nextPages : PageHeap → Nat → List (BitVec 32)
  | _, 0 => []
  | h, n + 1 =>
      match h.kmallocAligned with
      | some (page, h) => page :: h.nextPages n
      | none => []

theorem nextPages_cons {h h' : PageHeap} {page : BitVec 32}
    (hp : h.kmallocAligned = some (page, h')) (n : Nat) :
    h.nextPages (n + 1) = page :: h'.nextPages n := by
  rw [nextPages, hp]

theorem nextPages_subset {n m : Nat} (hle : n ≤ m) (h : PageHeap) :
    h.nextPages n ⊆ h.nextPages m := by
  induction n generalizing h m with
  | zero => exact List.nil_subset _
  | succ n ih =>
      obtain ⟨m, rfl⟩ := Nat.exists_eq_add_of_le' (Nat.le_of_add_left_le hle)
      cases hp : h.kmallocAligned with
      | none => simp [nextPages, hp]
      | some p =>
          rw [nextPages_cons hp, nextPages_cons hp]
          exact List.cons_subset_cons _ (ih (Nat.le_of_succ_le_succ hle) p.2)

end Muse.Memory.PageHeap

namespace Muse.Paging

open Muse.Library

/-- The frame is a table of the address space. -/
def IsTable (s : Space) (f : BitVec 20) : Prop :=
  ∃ i, i ≠ 1023#10 ∧ present (s.mem s.cr3 i) = true ∧ frame (s.mem s.cr3 i) = f

namespace Vm

/-- The state before a directory is built: the free pages are distinct, in no use as tables,
    not at address 0, where `kmalloc_page` reports a failure, and below the window; the pages of the
    heap lie below the window, too. -/
structure Ready (s : Vm) : Prop where
  tables : Tables s.space
  fresh : ∀ t ∈ s.freePages, FreshPage s.space t ∧ t ≠ 0#20 ∧ t < 0xFFC00#20
  nodup : s.freePages.Nodup
  heap_aligned : s.pageHeap.alignedStart.toNat % 4096 = 0
  heap_start : 0 < s.pageHeap.alignedStart.toNat
  heap_limit : s.pageHeap.alignedStart.toNat + s.pageHeap.bitmapCnt * 131072 ≤ 0xFFC00000

/-- From `s₀` to `s` only pages that were free and tables were written. -/
structure Within (s₀ s : Vm) : Prop where
  cr3 : s.space.cr3 = s₀.space.cr3
  mem : ∀ f, f ∉ s₀.freePages → ¬ IsTable s₀.space f →
    ∀ k, s.space.mem f k = s₀.space.mem f k
  pool : s.freePages <:+ s₀.freePages
  alignedStart : s.pageHeap.alignedStart = s₀.pageHeap.alignedStart
  bitmapCnt : s.pageHeap.bitmapCnt = s₀.pageHeap.bitmapCnt
  marks : ∀ n, s₀.pageHeap.Marked n → s.pageHeap.Marked n

theorem Within.refl (s : Vm) : Within s s :=
  ⟨rfl, fun _ _ _ _ => rfl, List.suffix_refl _, rfl, rfl, fun _ h => h⟩

theorem Ready.cr3_not_free {s : Vm} (h : s.Ready) : s.space.cr3 ∉ s.freePages := fun hm =>
  (h.fresh _ hm).1.ne_cr3 h.tables.selfMapped rfl

theorem cr3_not_isTable {s : Space} (h : Tables s) : ¬ IsTable s s.cr3 := by
  rintro ⟨i, hi, hp, hf⟩
  exact h.frame_ne_cr3 hi hp hf

/-- Tables that agree on the directory. -/
theorem tables_congr {s s' : Space} (h : Tables s) (hc : s'.cr3 = s.cr3)
    (hd : ∀ i, s'.mem s'.cr3 i = s.mem s.cr3 i) : Tables s' := by
  refine ⟨⟨?_, ?_⟩, fun i j hi hj hf => ?_⟩
  · rw [hd]
    exact h.selfMapped.present
  · rw [hd, hc]
    exact h.selfMapped.frame
  · rw [hd] at hi
    rw [hd] at hj
    rw [hd, hd] at hf
    exact h.distinct i j hi hj hf

section Within

variable {s₀ s s' : Vm} (h₀ : s₀.Ready) (hw : Within s₀ s)

include h₀ hw

/-- The active directory does not change. -/
theorem Within.dir (i : BitVec 10) :
    s.space.mem s.space.cr3 i = s₀.space.mem s₀.space.cr3 i := by
  rw [hw.cr3]
  exact hw.mem _ h₀.cr3_not_free (cr3_not_isTable h₀.tables) i

theorem Within.tables : Tables s.space := tables_congr h₀.tables hw.cr3 (hw.dir h₀)

theorem Within.freshPage {t : BitVec 20} (ht : t ∈ s₀.freePages) : FreshPage s.space t := by
  intro i hi
  rw [hw.dir h₀] at hi ⊢
  exact (h₀.fresh t ht).1 i hi

theorem Within.isTable {f : BitVec 20} (hf : IsTable s.space f) : IsTable s₀.space f := by
  obtain ⟨i, hi, hp, hfr⟩ := hf
  rw [hw.dir h₀] at hp hfr
  exact ⟨i, hi, hp, hfr⟩

/-- Writing to pages that were free changes no mapping. -/
theorem Within.own (hc : s'.space.cr3 = s.space.cr3)
    (hm : ∀ f, f ∉ s₀.freePages → ∀ k, s'.space.mem f k = s.space.mem f k)
    (hp : s'.freePages = s.freePages) (hh : s'.pageHeap = s.pageHeap) :
    Within s₀ s' ∧ ∀ w, s'.space.frameOf w = s.space.frameOf w := by
  refine ⟨⟨hc.trans hw.cr3, fun f hf ht k => (hm f hf k).trans (hw.mem f hf ht k),
    hp ▸ hw.pool, hh ▸ hw.alignedStart, hh ▸ hw.bitmapCnt, hh ▸ hw.marks⟩, fun w => ?_⟩
  have hpde : s'.space.pde w = s.space.pde w := by
    rw [Space.pde, hc]
    exact hm _ (hw.cr3 ▸ h₀.cr3_not_free) _
  cases hpr : present (s.space.pde w) with
  | false => simp [Space.frameOf, hpde, hpr]
  | true =>
      have hpte : s'.space.pte w = s.space.pte w := by
        rw [Space.pte, hpde]
        exact hm _ (fun hmem => hw.freshPage h₀ hmem _ hpr rfl) _
      simp only [Space.frameOf, hpde, hpte]

end Within

/-! ## Stores to pages that were free -/

/-- From `s` to `s'` the page `f`, which was free, is written. -/
structure Fills (s₀ s s' : Vm) (f : BitVec 20) : Prop where
  within : Within s₀ s'
  maps : ∀ w, s'.space.frameOf w = s.space.frameOf w
  mem : ∀ f', f' ≠ f → ∀ k, s'.space.mem f' k = s.space.mem f' k
  freePages : s'.freePages = s.freePages
  pageHeap : s'.pageHeap = s.pageHeap

theorem Fills.trans {s₀ s s' s'' : Vm} {f : BitVec 20} (h : Fills s₀ s s' f)
    (h' : Fills s₀ s' s'' f) : Fills s₀ s s'' f :=
  ⟨h'.within, fun w => (h'.maps w).trans (h.maps w),
    fun f' hf' k => (h'.mem f' hf' k).trans (h.mem f' hf' k), h'.freePages.trans h.freePages,
    h'.pageHeap.trans h.pageHeap⟩

theorem ofNat_eq_setWidth {n : Nat} (hn : n < 1024) :
    BitVec.ofNat 32 n = (BitVec.ofNat 10 n).setWidth 32 := by
  apply BitVec.eq_of_toNat_eq
  simp only [BitVec.toNat_setWidth, BitVec.toNat_ofNat]
  omega

theorem pgDirIdx_eq (v : BitVec 32) : pgDirIdx v = (dirIdx v).setWidth 32 := by
  have hv := v.isLt
  apply BitVec.eq_of_toNat_eq
  rw [pgDirIdx_toNat, BitVec.toNat_setWidth, dirIdx_toNat]
  omega

theorem pgTblIdx_eq (v : BitVec 32) : pgTblIdx v = (tblIdx v).setWidth 32 := by
  apply BitVec.eq_of_toNat_eq
  rw [pgTblIdx_toNat, BitVec.toNat_setWidth, tblIdx_toNat]
  omega

/-- Word `i` of a page taken as an array. -/
theorem elem_index (V : BitVec 20) (i : BitVec 10) :
    pageOf (elem (pageAddr V) (i.setWidth 32)) = V ∧
      wordIdx (elem (pageAddr V) (i.setWidth 32)) = i := by
  obtain ⟨hp, hw⟩ := elem_pageAddr V (n := i.toNat) i.isLt
  have hi : BitVec.ofNat 32 i.toNat = i.setWidth 32 := by
    rw [ofNat_eq_setWidth i.isLt, BitVec.ofNat_toNat, BitVec.setWidth_eq]
  rw [hi] at hp hw
  rw [BitVec.ofNat_toNat, BitVec.setWidth_eq] at hw
  exact ⟨hp, hw⟩

theorem frameOf_elem {s : Vm} {V f : BitVec 20} (hV : s.space.frameOf (pageAddr V) = some f)
    (i : BitVec 10) : s.space.frameOf (elem (pageAddr V) (i.setWidth 32)) = some f := by
  rw [Space.frameOf_congr ((elem_index V i).1.trans (frame_pageAddr V).symm), hV]

theorem loadPage {s : Vm} {V f : BitVec 20} (hV : s.space.frameOf (pageAddr V) = some f)
    (i : BitVec 10) : s.load (elem (pageAddr V) (i.setWidth 32)) = some (s.space.mem f i) := by
  rw [load, Space.load_eq (frameOf_elem hV i), (elem_index V i).2]

theorem storePage {s : Vm} {V f : BitVec 20} (hV : s.space.frameOf (pageAddr V) = some f)
    (i : BitVec 10) (x : BitVec 32) :
    s.store (elem (pageAddr V) (i.setWidth 32)) x = some (s.write f i x) := by
  rw [store_eq (frameOf_elem hV i), (elem_index V i).2]

theorem copyHigherHalf_eq (s : Vm) (directory : BitVec 32) (n : Nat) :
    s.copyHigherHalf directory n = s.copyEntries directory 512 n := by
  induction n with
  | zero => rfl
  | succ n ih => rw [copyHigherHalf, copyEntries, ih]

theorem load_dirEntry {s : Vm} (h : s.space.SelfMapped) {n : Nat} (hn : n < 1024) :
    s.load (elem loopbackDir (BitVec.ofNat 32 n)) =
      some (s.space.mem s.space.cr3 (BitVec.ofNat 10 n)) := by
  have hv : dirIdx (BitVec.ofNat 32 (n * 4194304)) = BitVec.ofNat 10 n := by
    apply BitVec.eq_of_toNat_eq
    rw [dirIdx_toNat, BitVec.toNat_ofNat, BitVec.toNat_ofNat]
    omega
  have := load_dir h (BitVec.ofNat 32 (n * 4194304))
  rwa [pgDirIdx_eq, Space.pde, hv, ← ofNat_eq_setWidth hn] at this

section Fills

variable {s₀ s : Vm} (h₀ : s₀.Ready) (hw : Within s₀ s) {f : BitVec 20}
  (hf : f ∈ s₀.freePages)

include h₀ hw hf

theorem Within.fills_write (k : BitVec 10) (x : BitVec 32) :
    Fills s₀ s (s.write f k x) f := by
  obtain ⟨hw', hmaps⟩ := @Within.own s₀ s (s.write f k x) h₀ hw rfl
    (fun _ hf' _ => PhysMem.write_of_ne _ _ fun he => absurd (he ▸ hf) hf') rfl rfl
  exact ⟨hw', hmaps, fun f' hne k' => PhysMem.write_of_ne _ _ fun he => absurd he hne, rfl, rfl⟩

/-- Clearing words of a page that was free. -/
theorem Within.clearWords {V : BitVec 20} (hV : s.space.frameOf (pageAddr V) = some f) {n : Nat}
    (hn : n ≤ 1024) : s.clearWords (pageAddr V) n = some (s.cleared f n) ∧
      Fills s₀ s (s.cleared f n) f := by
  have hfresh := hw.freshPage h₀ hf
  obtain ⟨hp, -, -⟩ := Space.frameOf_eq_some.mp hV
  obtain ⟨hw', hmaps⟩ := @Within.own s₀ s (s.cleared f n) h₀ hw rfl
    (fun f' hf' k => cleared_of_ne _ _ fun he => hf' (he ▸ hf)) rfl rfl
  exact ⟨clearWords_eq hV (hfresh.ne_cr3 (hw.tables h₀).selfMapped) (hfresh _ hp).symm n hn,
    hw', hmaps, fun f' hne k => cleared_of_ne _ _ hne, rfl, rfl⟩

omit h₀ hf hw in
/-- One more word of a range of words. -/
theorem write_range_mem {s₁ : Vm} {start n : Nat} (hn : start + (n + 1) ≤ 1024)
    (words : BitVec 10 → BitVec 32) {old : BitVec 10 → BitVec 32} (hmem : ∀ k, s₁.space.mem f k =
      if start ≤ k.toNat ∧ k.toNat < start + n then words k else old k) (k : BitVec 10) :
    (s₁.write f (BitVec.ofNat 10 (start + n)) (words (BitVec.ofNat 10 (start + n)))).space.mem f k =
      if start ≤ k.toNat ∧ k.toNat < start + (n + 1) then words k else old k := by
  have hk : k = BitVec.ofNat 10 (start + n) ↔ k.toNat = start + n := by
    rw [← BitVec.toNat_inj, BitVec.toNat_ofNat, Nat.mod_eq_of_lt (by omega)]
  simp only [write_mem, PhysMem.write, true_and, hk, hmem]
  by_cases he : k.toNat = start + n
  · rw [if_pos he, if_pos (by omega), hk.mpr he]
  · rw [if_neg he]
    congr 1
    simp only [eq_iff_iff, and_congr_right_iff]
    omega

/-- The copy of entries of the active directory. -/
theorem Within.copyEntries {V : BitVec 20} (hV : s.space.frameOf (pageAddr V) = some f)
    (start : Nat) : ∀ n, start + n ≤ 1024 →
      ∃ s', s.copyEntries (pageAddr V) start n = some s' ∧ Fills s₀ s s' f ∧
        ∀ k, s'.space.mem f k = if start ≤ k.toNat ∧ k.toNat < start + n then
          s₀.space.mem s₀.space.cr3 k else s.space.mem f k
  | 0, _ => by
      refine ⟨s, rfl, ⟨hw, fun _ => rfl, fun _ _ _ => rfl, rfl, rfl⟩, fun k => ?_⟩
      rw [if_neg (by omega)]
  | n + 1, hn => by
      obtain ⟨s₁, hs₁, hfill, hmem⟩ := Within.copyEntries hV start n (by omega)
      have hload := load_dirEntry (hfill.within.tables h₀).selfMapped (n := start + n) (by omega)
      rw [hfill.within.dir h₀] at hload
      have hV₁ : s₁.space.frameOf (pageAddr V) = some f := (hfill.maps _).trans hV
      have hstore := storePage hV₁ (BitVec.ofNat 10 (start + n))
        (s₀.space.mem s₀.space.cr3 (BitVec.ofNat 10 (start + n)))
      rw [← ofNat_eq_setWidth (by omega)] at hstore
      refine ⟨s₁.write f (BitVec.ofNat 10 (start + n))
          (s₀.space.mem s₀.space.cr3 (BitVec.ofNat 10 (start + n))), ?_,
        hfill.trans (hfill.within.fills_write h₀ hf _ _), write_range_mem hn _ hmem⟩
      rw [Vm.copyEntries, hs₁]
      simp only [Option.bind_eq_bind, Option.bind_some, hload, hstore]

theorem Within.clearEntries {V : BitVec 20} (hV : s.space.frameOf (pageAddr V) = some f)
    (start : Nat) : ∀ n, start + n ≤ 1024 →
      ∃ s', s.clearEntries (pageAddr V) start n = some s' ∧ Fills s₀ s s' f ∧
        ∀ k, s'.space.mem f k = if start ≤ k.toNat ∧ k.toNat < start + n then 0#32
          else s.space.mem f k
  | 0, _ => by
      refine ⟨s, rfl, ⟨hw, fun _ => rfl, fun _ _ _ => rfl, rfl, rfl⟩, fun k => ?_⟩
      rw [if_neg (by omega)]
  | n + 1, hn => by
      obtain ⟨s₁, hs₁, hfill, hmem⟩ := Within.clearEntries hV start n (by omega)
      have hV₁ : s₁.space.frameOf (pageAddr V) = some f := (hfill.maps _).trans hV
      have hstore := storePage hV₁ (BitVec.ofNat 10 (start + n)) 0#32
      rw [← ofNat_eq_setWidth (by omega)] at hstore
      refine ⟨s₁.write f (BitVec.ofNat 10 (start + n)) 0#32, ?_,
        hfill.trans (hfill.within.fills_write h₀ hf _ _),
        write_range_mem hn (fun _ => 0#32) hmem⟩
      rw [Vm.clearEntries, hs₁]
      simp only [Option.bind_eq_bind, Option.bind_some, hstore]

end Fills

/-! ## Mapping and unmapping pages of the heap -/

/-- From `s` to `s'` tables change, and with them the mapping of page `W`. -/
structure Edits (s₀ s s' : Vm) (W : BitVec 20) : Prop where
  within : Within s₀ s'
  own : ∀ f ∈ s₀.freePages, ∀ k, s'.space.mem f k = s.space.mem f k
  other : ∀ w, pageOf w ≠ W → s'.space.frameOf w = s.space.frameOf w

/-- Page `W` is page `n` of the heap. -/
def HeapPage (s : Vm) (W : BitVec 20) (n : Nat) : Prop :=
  n < s.pageHeap.bitmapCnt * 32 ∧
    (pageAddr W).toNat = s.pageHeap.alignedStart.toNat + 4096 * n

/-- The next `n` pages that the heap hands out have their page tables. -/
def HeapTables (s : Vm) (n : Nat) : Prop :=
  ∀ v ∈ s.pageHeap.nextPages n, present (s.space.pde v) = true

instance (s : Vm) (n : Nat) : Decidable (s.HeapTables n) :=
  inferInstanceAs (Decidable (∀ v ∈ s.pageHeap.nextPages n, _))

theorem HeapTables.mono {s : Vm} {n m : Nat} (h : s.HeapTables m) (hle : n ≤ m) :
    s.HeapTables n := fun v hv => h v (Memory.PageHeap.nextPages_subset hle _ hv)

theorem HeapTables.present {s : Vm} (h : s.HeapTables 1) {v : BitVec 32}
    {heap : Memory.PageHeap} (halloc : s.pageHeap.kmallocAligned = some (v, heap)) :
    present (s.space.pde v) = true := by
  refine h v ?_
  rw [Memory.PageHeap.nextPages_cons halloc]
  exact List.mem_cons_self ..

/-- Page `W` of the heap was handed out. -/
def Taken (s : Vm) (W : BitVec 20) : Prop :=
  ∃ n, s.HeapPage W n ∧ s.pageHeap.Marked n

section Edits

variable {s₀ s s' : Vm} (h₀ : s₀.Ready) (hw : Within s₀ s)

include h₀ hw

theorem Within.writePte {v : BitVec 32} (hv : dirIdx v ≠ 1023#10)
    (hp : present (s.space.pde v) = true) (e : BitVec 32) :
    Edits s₀ s (s.write (frame (s.space.pde v)) (tblIdx v) e) (pageOf v) := by
  have htbl : IsTable s₀.space (frame (s.space.pde v)) := hw.isTable h₀ ⟨_, hv, hp, rfl⟩
  refine ⟨⟨hw.cr3, fun f hf ht k => ?_, hw.pool, hw.alignedStart, hw.bitmapCnt, hw.marks⟩,
    fun f hf k => ?_, fun w hne => write_pte_frameOf (hw.tables h₀) hv hp e hne⟩
  · have hne : f ≠ frame (s.space.pde v) := fun he => ht (he ▸ htbl)
    rw [write_mem, PhysMem.write_of_ne _ _ fun he => absurd he hne]
    exact hw.mem f hf ht k
  · refine PhysMem.write_of_ne _ _ fun he => ?_
    exact absurd he.symm (hw.freshPage h₀ hf _ hp)

theorem Within.unmapPage {v : BitVec 32} (hv : dirIdx v ≠ 1023#10) :
    ∃ s', s.unmapPage v = some s' ∧ Edits s₀ s s' (pageOf v) ∧ s'.freePages = s.freePages ∧
      s'.pageHeap = s.pageHeap := by
  refine ⟨_, unmapPage_eq (hw.tables h₀).selfMapped v, ?_⟩
  split
  · next hp => exact ⟨hw.writePte h₀ hv hp _, rfl, rfl⟩
  · exact ⟨⟨hw, fun _ _ _ => rfl, fun _ _ => rfl⟩, rfl, rfl⟩

/-- The page is not mapped any more. -/
theorem Within.frameOf_unmapPage {v : BitVec 32} (hv : dirIdx v ≠ 1023#10)
    (hs : s.unmapPage v = some s') : s'.space.frameOf v = none := by
  rw [unmapPage_eq (hw.tables h₀).selfMapped] at hs
  obtain rfl := Option.some.inj hs
  rw [Space.frameOf_eq_none]
  split
  · next hpde =>
      intro _
      rw [write_pte_self (hw.tables h₀) hv hpde]
      rfl
  · next hpde => exact fun hp => absurd hp hpde

omit hw in
/-- The pages of the heap lie below the window. -/
theorem HeapPage.dirIdx_ne {W : BitVec 20} {n : Nat} (hW : s₀.HeapPage W n) :
    dirIdx (pageAddr W) ≠ 1023#10 := by
  have hlimit := h₀.heap_limit
  obtain ⟨hn, hWn⟩ := hW
  intro he
  have := congrArg BitVec.toNat he
  simp only [dirIdx_toNat, BitVec.toNat_ofNat] at this
  omega

end Edits

/-- `kfree` of a page that was handed out changes nothing. -/
theorem Taken.kfree {s₀ s : Vm} (h₀ : s₀.Ready) (hw : Within s₀ s) {W : BitVec 20}
    (hW : s.Taken W) : s.kfree (pageAddr W) = some s := by
  obtain ⟨n, ⟨hn, hptr⟩, hmark⟩ := hW
  have hlimit := h₀.heap_limit
  rw [← hw.alignedStart, ← hw.bitmapCnt] at hlimit
  rw [Vm.kfree, Memory.PageHeap.kfree_of_marked (by omega) hn hptr hmark]
  rfl

/-- An address on a page boundary is the address of its page. -/
theorem pageAddr_pageOf {v : BitVec 32} (hv : v.toNat % 4096 = 0) : pageAddr (pageOf v) = v := by
  apply BitVec.eq_of_toNat_eq
  rw [pageAddr_toNat, pageOf_toNat]
  omega

section KmallocPage

variable {s₀ s s' : Vm} (h₀ : s₀.Ready) (ht : s.HeapTables 1) (hw : Within s₀ s)

include h₀ ht hw

/-- The page that the heap hands out next. -/
theorem Within.nextPage {v : BitVec 32} {heap : Memory.PageHeap}
    (halloc : s.pageHeap.kmallocAligned = some (v, heap)) :
    ∃ n, heap = s.pageHeap.mark n ∧ ¬ s.pageHeap.Marked n ∧ s.HeapPage (pageOf v) n ∧
      pageAddr (pageOf v) = v ∧ v ≠ 0#32 ∧ dirIdx v ≠ 1023#10 ∧
      present (s.space.pde v) = true := by
  have hlimit := h₀.heap_limit
  have halign := h₀.heap_aligned
  have hstart := h₀.heap_start
  rw [← hw.alignedStart, ← hw.bitmapCnt] at hlimit
  rw [← hw.alignedStart] at halign hstart
  obtain ⟨n, hn, hclear, hv, rfl⟩ := Memory.PageHeap.kmallocAligned_spec halloc
  have hvn : v.toNat = s.pageHeap.alignedStart.toNat + 4096 * n := by
    rw [hv, BitVec.toNat_add, BitVec.toNat_mul, BitVec.toNat_ofNat, BitVec.toNat_ofNat]
    omega
  have hW : pageAddr (pageOf v) = v := pageAddr_pageOf (by omega)
  have hheap : s.HeapPage (pageOf v) n := ⟨hn, by rw [hW, hvn]⟩
  have hheap₀ : s₀.HeapPage (pageOf v) n := by
    rw [HeapPage, ← hw.alignedStart, ← hw.bitmapCnt]
    exact hheap
  refine ⟨n, rfl, hclear, hheap, hW, ?_, ?_, ht.present halloc⟩
  · rintro rfl
    simp only [BitVec.toNat_ofNat] at hvn
    omega
  · have := hheap₀.dirIdx_ne h₀
    rwa [hW] at this

omit h₀ ht in
/-- Taking a page of the heap and a free page. -/
theorem Within.take {T : BitVec 20} {ts : List (BitVec 20)} (hfree : s.freePages = T :: ts)
    (n : Nat) : Within s₀ { s with pageHeap := s.pageHeap.mark n, freePages := ts } :=
  ⟨hw.cr3, hw.mem, (List.suffix_cons T ts).trans (hfree ▸ hw.pool), hw.alignedStart, hw.bitmapCnt,
    fun m hm => (Memory.PageHeap.mark_marked_iff _ _ _).mpr (.inr (hw.marks m hm))⟩

theorem kmallocPage_eq {v : BitVec 32} {heap : Memory.PageHeap} {T : BitVec 20}
    {ts : List (BitVec 20)} (halloc : s.pageHeap.kmallocAligned = some (v, heap))
    (hfree : s.freePages = T :: ts) :
    s.kmallocPage = some (⟨v, pageSize, .aligned, pageAddr T⟩,
      ({ s with pageHeap := heap, freePages := ts } : Vm).write (frame (s.space.pde v)) (tblIdx v)
        (mapEntry (s.space.pte v) (pageAddr T))) := by
  obtain ⟨n, rfl, -, -, -, hv0, -, hp⟩ := hw.nextPage h₀ ht halloc
  have hT0 : pageAddr T ≠ 0#32 := by
    intro he
    have hz : pageAddr T = pageAddr 0#20 := he
    exact (h₀.fresh T (hw.pool.subset (hfree ▸ List.mem_cons_self ..))).2.1 (pageAddr_inj.mp hz)
  have hmap := mapPage_of_present ((hw.take hfree n).tables h₀).selfMapped hp (pageAddr T)
  simp [kmallocPage, halloc, hv0, kpageAlloc, hfree, hT0, hmap]

/-- What `kmalloc_page` takes and writes when it returns. -/
theorem kmallocPage_cases {scr : Scroll} (hs : s.kmallocPage = some (scr, s')) :
    ∃ v heap T ts, s.pageHeap.kmallocAligned = some (v, heap) ∧ s.freePages = T :: ts ∧
      scr = ⟨v, pageSize, .aligned, pageAddr T⟩ ∧
      s' = ({ s with pageHeap := heap, freePages := ts } : Vm).write (frame (s.space.pde v))
        (tblIdx v) (mapEntry (s.space.pte v) (pageAddr T)) := by
  obtain ⟨⟨v, heap⟩, halloc, hrest⟩ := Option.bind_eq_some_iff.mp hs
  obtain ⟨n, rfl, -, -, -, hv0, -, -⟩ := hw.nextPage h₀ ht halloc
  obtain ⟨T, ts, hfree⟩ : ∃ T ts, s.freePages = T :: ts := by
    cases hfree : s.freePages with
    | nil => simp [hv0, kpageAlloc, hfree] at hrest
    | cons T ts => exact ⟨T, ts, rfl⟩
  rw [kmallocPage_eq h₀ ht hw halloc hfree] at hs
  obtain ⟨hscr, hs'⟩ := Prod.mk.inj (Option.some.inj hs)
  exact ⟨v, _, T, ts, halloc, hfree, hscr.symm, hs'.symm⟩

/-- `kmalloc_page`: the page `W` of the heap, not handed out before, is mapped to the next free
    page `T`. -/
theorem kmallocPage_spec {scr : Scroll} (hs : s.kmallocPage = some (scr, s')) :
    ∃ W T, scr = ⟨pageAddr W, pageSize, .aligned, pageAddr T⟩ ∧
      s.freePages = T :: s'.freePages ∧ ¬ s.Taken W ∧ s'.Taken W ∧
      (∀ X, s.Taken X → s'.Taken X) ∧ Edits s₀ s s' W ∧
      s'.space.frameOf (pageAddr W) = some T := by
  obtain ⟨v, heap, T, ts, halloc, hfree, rfl, rfl⟩ := kmallocPage_cases h₀ ht hw hs
  obtain ⟨n, rfl, hclear, hheap, hW, -, hdir, hp⟩ := hw.nextPage h₀ ht halloc
  have hw₁ := hw.take hfree n
  have hed := hw₁.writePte h₀ hdir hp (mapEntry (s.space.pte v) (pageAddr T))
  refine ⟨pageOf v, T, by rw [hW], by rw [hfree]; rfl, ?_, ?_, ?_, ⟨hed.within, hed.own,
    hed.other⟩, ?_⟩
  · rintro ⟨m, ⟨hm, hWm⟩, hmark⟩
    obtain rfl : m = n := by
      have := hheap.2
      omega
    exact hclear hmark
  · exact ⟨n, hheap, (Memory.PageHeap.mark_marked_iff _ _ _).mpr (.inl rfl)⟩
  · rintro X ⟨m, hX, hmark⟩
    exact ⟨m, hX, (Memory.PageHeap.mark_marked_iff _ _ _).mpr (.inr hmark)⟩
  · rw [hW, Space.frameOf_eq_some,
      write_pde (frame_pde_ne_cr3 (hw₁.tables h₀) hdir hp),
      write_pte_self (hw₁.tables h₀) hdir hp]
    exact ⟨hp, present_mapEntry _ _, by rw [frame_mapEntry, frame_pageAddr]⟩

/-- The page is the next one of the heap. -/
theorem kmallocPage_heap {scr : Scroll} (hs : s.kmallocPage = some (scr, s')) :
    s.pageHeap.kmallocAligned = some (scr.vaddr, s'.pageHeap) := by
  obtain ⟨v, heap, T, ts, halloc, -, rfl, rfl⟩ := kmallocPage_cases h₀ ht hw hs
  exact halloc

end KmallocPage

end Vm

end Muse.Paging
