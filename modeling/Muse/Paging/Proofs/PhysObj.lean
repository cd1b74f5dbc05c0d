import Muse.Paging.PhysObj
import Muse.Paging.Proofs.CleanData
import Muse.Paging.Proofs.Sbrk

/-!
# A mapped object keeps its offsets

The start is rounded down and the end rounded up, so page `i` of the run is mapped to page `i` of
the object, for every page that the object touches. The bound on `obj + size` keeps the rounded
end from wrapping. `map_page` enters with its contract, in any set of states that it does not leave.
-/

namespace Muse.Paging

open Muse.Library

/-! ## Pages by number -/

theorem pageNo_add_sub (r f i : Nat) : pageNo r + pageNo (f + i) - pageNo f = pageNo (r + i) := by
  apply BitVec.eq_of_toNat_eq
  simp only [pageNo, BitVec.toNat_sub, BitVec.toNat_add, BitVec.toNat_ofNat]
  omega

theorem pageOf_pageNo_toNat {k : Nat} (hk : k < 2 ^ 20) : (pageOf (pageNo k)).toNat = k := by
  rw [pageOf_toNat, pageNo_toNat hk]
  omega

/-- The pages that an object touches. -/
theorem objPages_eq {obj size : BitVec 32} (hsize : obj.toNat + size.toNat ≤ 2 ^ 32 - 4096) :
    ∃ n, objPages obj size = BitVec.ofNat 32 n ∧
      alignPgUp (obj + size) = pageNo (obj.toNat / 4096 + n) ∧
      obj.toNat / 4096 + n < 2 ^ 20 ∧
      ∀ k < size.toNat, (obj.toNat % 4096 + k) / 4096 < n := by
  have hsum : (obj + size).toNat = obj.toNat + size.toNat := by
    rw [BitVec.toNat_add]
    omega
  obtain ⟨n, hn⟩ : ∃ n, (obj.toNat + size.toNat + 4095) / 4096 = obj.toNat / 4096 + n :=
    ⟨(obj.toNat + size.toNat + 4095) / 4096 - obj.toNat / 4096, by omega⟩
  have hlt : obj.toNat / 4096 + n < 2 ^ 20 := by omega
  refine ⟨n, ?_, ?_, hlt, ?_⟩
  · rw [objPages, alignPgUp_eq, alignPgDown_eq, hsum, hn]
    apply BitVec.eq_of_toNat_eq
    rw [BitVec.toNat_udiv, BitVec.toNat_sub, pageNo_toNat hlt, pageNo_toNat (by omega)]
    simp only [pageSize, BitVec.toNat_ofNat, Nat.reducePow, Nat.reduceMod]
    omega
  · rw [alignPgUp_eq, hsum, hn]
  · intro k hk
    omega

/-! ## The loop -/

namespace Vm

variable {spared : BitVec 32 → Prop} {Good : Vm → Prop} {r f n : Nat}

/-- After the rounds from `i` on, the pages from `i` on show the object, and no other page
    changed. -/
theorem mapPhysObjLoop_spec (hr : r + n ≤ 2 ^ 20) (hf : f + n < 2 ^ 20)
    (hspared : ∀ j < n, ¬ spared (pageNo (r + j)))
    (hmap : ∀ (s : Vm) (paddr : BitVec 32), Good s → ∀ j < n, ∃ s',
      s.mapPage (pageNo (r + j)) paddr = some s' ∧
      MapContract spared s s' (pageNo (r + j)) paddr ∧ Good s') :
    ∀ (left i : Nat) (s : Vm) (fuel : Nat), i + left = n → left < fuel → Good s →
      ∃ s', mapPhysObjLoop (pageNo r) (pageNo f) (pageNo (f + n)) fuel s (pageNo (f + i)) =
          some s' ∧
        (∀ j, i ≤ j → j < n → s'.space.frameOf (pageNo (r + j)) = some (pageOf (pageNo (f + j)))) ∧
        ∀ w, (∀ j, i ≤ j → j < n → pageOf w ≠ pageOf (pageNo (r + j))) → ¬ spared w →
          s'.space.frameOf w = s.space.frameOf w := by
  intro left
  induction left with
  | zero =>
      intro i s fuel hi hfuel _
      obtain ⟨fuel, rfl⟩ : ∃ m, fuel = m + 1 := ⟨fuel - 1, by omega⟩
      have hend : ¬ pageNo (f + i) < pageNo (f + n) := by
        rw [pageNo_lt_iff (by omega) (by omega)]
        omega
      refine ⟨s, ?_, fun j hij hjn => ?_, fun _ _ _ => rfl⟩
      · rw [mapPhysObjLoop, if_neg hend]
      · omega
  | succ left ih =>
      intro i s fuel hi hfuel hgood
      obtain ⟨fuel, rfl⟩ : ∃ m, fuel = m + 1 := ⟨fuel - 1, by omega⟩
      have hin : i < n := by omega
      have hround : pageNo (f + i) < pageNo (f + n) := by
        rw [pageNo_lt_iff (by omega) (by omega)]
        omega
      obtain ⟨s₁, hs₁, hc, hgood₁⟩ := hmap s (pageNo (f + i)) hgood i hin
      obtain ⟨s', hs', hshow, hsame⟩ := ih (i + 1) s₁ fuel (by omega) (by omega) hgood₁
      -- the rounds that follow write to other pages
      have hne : ∀ j, i + 1 ≤ j → j < n → pageOf (pageNo (r + i)) ≠ pageOf (pageNo (r + j)) := by
        intro j hij hjn he
        have := congrArg BitVec.toNat he
        rw [pageOf_pageNo_toNat (by omega), pageOf_pageNo_toNat (by omega)] at this
        omega
      refine ⟨s', ?_, fun j hij hjn => ?_, fun w hw hws => ?_⟩
      · rw [mapPhysObjLoop, if_pos hround, pageNo_add_sub, hs₁, Option.bind_eq_bind,
          Option.bind_some, pageNo_succ]
        exact hs'
      · rcases Nat.eq_or_lt_of_le hij with rfl | hlt
        · rw [hsame _ hne (hspared i hin)]
          exact hc.mapped
        · exact hshow j hlt hjn
      · rw [hsame w (fun j hij hjn => hw j (by omega) hjn) hws]
        exact hc.others w (hw i (Nat.le_refl _) hin) hws

/-- An address of the run lies on the page of the same number of the object. -/
theorem translate_run {s : Space} {obj k : BitVec 32} {j : Nat}
    (hj : (obj.toNat % 4096 + k.toNat) / 4096 = j) (hr : r + j < 2 ^ 20)
    (hobj : obj.toNat + k.toNat < 2 ^ 32)
    (hs : s.frameOf (pageNo (r + j)) = some (pageOf (pageNo (obj.toNat / 4096 + j)))) :
    translate s (pageNo r + obj % pageSize + k) = some (obj + k) := by
  have hrun : (pageNo r + obj % pageSize + k).toNat =
      4096 * r + (obj.toNat % 4096 + k.toNat) := by
    rw [BitVec.toNat_add, BitVec.toNat_add, pageNo_toNat (by omega)]
    simp only [pageSize, BitVec.toNat_umod, BitVec.toNat_ofNat, Nat.reducePow, Nat.reduceMod]
    omega
  have hpage : pageOf (pageNo r + obj % pageSize + k) = pageOf (pageNo (r + j)) := by
    apply BitVec.eq_of_toNat_eq
    rw [pageOf_pageNo_toNat hr, pageOf_toNat, hrun]
    omega
  rw [translate, Space.frameOf_congr hpage, hs, Option.map_some, Option.some.injEq]
  apply BitVec.eq_of_toNat_eq
  rw [BitVec.toNat_add, pageAddr_toNat, pageOf_pageNo_toNat (by omega), BitVec.toNat_umod, hrun,
    BitVec.toNat_add]
  simp only [pageSize, BitVec.toNat_ofNat, Nat.reducePow, Nat.reduceMod]
  omega

variable {spared : BitVec 32 → Prop} {Good : Vm → Prop}

/-- The page tables of a run are in place. -/
structure TablesFor (region : BitVec 32) (n : Nat) (s : Vm) : Prop where
  tables : Tables s.space
  present : ∀ v, InRun region n v → present (s.space.pde v) = true

/-- With the page tables in place, `map_page` meets its contract and leaves them there. -/
theorem TablesFor.mapPage {region v : BitVec 32} {n : Nat} {s : Vm} (h : TablesFor region n s)
    (hbelow : region.toNat + 4096 * n ≤ 0xFFC00000) (hv : InRun region n v) (paddr : BitVec 32) :
    ∃ s', s.mapPage v paddr = some s' ∧ MapContract (fun _ => False) s s' v paddr ∧
      TablesFor region n s' := by
  have hp := h.present v hv
  have hd : dirIdx v ≠ 1023#10 := by
    apply dirIdx_ne_of_lt
    rw [BitVec.lt_def]
    have := hv.2
    simp only [BitVec.toNat_ofNat]
    omega
  have hcr3 := frame_pde_ne_cr3 h.tables hd hp
  have hone := @mapsOne_of_present s v paddr h.tables hd hp
  refine ⟨_, mapPage_of_present h.tables.selfMapped hp paddr, ⟨hone.mapped, ?_⟩, hone.tables, ?_⟩
  · intro w hw _
    exact write_pte_frameOf h.tables hd hp _ hw
  · intro w hw
    rw [write_pde hcr3]
    exact h.present w hw

/-- The object is mapped to the run that the heap hands out, with the same offset for every byte,
    and no page outside the run changes. -/
theorem mapPhysObj_translates (s : Vm) (obj size region : BitVec 32)
    (pageHeap : Memory.PageHeap) (hsize : obj.toNat + size.toNat ≤ 2 ^ 32 - 4096)
    (halloc : s.pageHeap.kmallocAlignedMulti (objPages obj size) = some (region, pageHeap))
    (haligned : region.toNat % 4096 = 0)
    (hbelow : region.toNat + 4096 * (objPages obj size).toNat ≤ 0xFFC00000)
    (hspared : ∀ w, InRun region (objPages obj size).toNat w → ¬ spared w)
    (hgood : Good { s with pageHeap })
    (hmap : ∀ (s : Vm) (v paddr : BitVec 32), Good s → v.toNat % 4096 = 0 →
      InRun region (objPages obj size).toNat v →
      ∃ s', s.mapPage v paddr = some s' ∧ MapContract spared s s' v paddr ∧ Good s') :
    ∃ r s', s.mapPhysObj obj size = some (r, s') ∧
      (∀ k, k < size → translate s'.space (r + k) = some (obj + k)) ∧
      ∀ w, ¬ InRun region (objPages obj size).toNat w → ¬ spared w →
        s'.space.frameOf w = s.space.frameOf w := by
  obtain ⟨n, hn, hlimit, hlt, htouch⟩ := objPages_eq hsize
  have hcnt : (objPages obj size).toNat = n := by
    rw [hn, BitVec.toNat_ofNat]
    omega
  rw [hcnt] at hbelow hspared hmap ⊢
  obtain ⟨r, hr⟩ : ∃ r, r = region.toNat / 4096 := ⟨_, rfl⟩
  have hlt' := region.isLt
  obtain rfl : region = pageNo r := by
    apply BitVec.eq_of_toNat_eq
    rw [pageNo_toNat (by omega)]
    omega
  have hrlt : r < 2 ^ 20 := by omega
  rw [pageNo_toNat hrlt] at hbelow
  have hin : ∀ j < n, (pageNo (r + j)).toNat = 4096 * (r + j) ∧
      InRun (pageNo r) n (pageNo (r + j)) := by
    intro j hj
    have hnum := pageNo_toNat (k := r + j) (by omega)
    refine ⟨hnum, ?_⟩
    rw [InRun, hnum, pageNo_toNat hrlt]
    omega
  obtain ⟨s', hs', hshow, hsame⟩ := mapPhysObjLoop_spec (r := r) (f := obj.toNat / 4096) (n := n)
    (by omega) hlt (fun j hj => hspared _ (hin j hj).2)
    (fun s paddr hs j hj => hmap s _ paddr hs (by rw [(hin j hj).1]; omega) (hin j hj).2)
    n 0 { s with pageHeap } (2 ^ 20 + 1) (by omega) (by omega) hgood
  refine ⟨pageNo r + obj % pageSize, s', ?_, fun k hk => ?_, fun w hw hws => ?_⟩
  · rw [mapPhysObj, ← objPages, halloc, Option.bind_eq_bind, Option.bind_some, alignPgDown_eq,
      hlimit]
    dsimp only
    simp only [Nat.add_zero] at hs'
    rw [hs']
    rfl
  · rw [BitVec.lt_def] at hk
    have hj := htouch k.toNat hk
    exact translate_run rfl (by omega) (by omega) (hshow _ (Nat.zero_le _) hj)
  · refine hsame w (fun j _ hj he => hw ?_) hws
    have := congrArg BitVec.toNat he
    rw [pageOf_toNat, pageOf_pageNo_toNat (by omega)] at this
    rw [InRun, pageNo_toNat hrlt]
    omega

/-- The address space `pageFive` with an empty heap at 64 KiB. -/
def emptyHeap : Memory.PageHeap := ⟨fun _ => 0#32, 1, 0x10000#32⟩

theorem pageFive_tablesFor : TablesFor 0x10000#32 2
    { pageFive 0#32 with pageHeap := emptyHeap.markRange 0 2 } := by
  refine ⟨pageFive_tables 0#32, fun v hv => ?_⟩
  have hd : dirIdx v = 0#10 := by
    apply BitVec.eq_of_toNat_eq
    obtain ⟨hlo, hhi⟩ := hv
    simp only [BitVec.toNat_ofNat, Nat.reducePow, Nat.reduceMod] at hlo hhi
    rw [dirIdx_toNat]
    simp only [BitVec.toNat_ofNat]
    omega
  rw [Space.pde, hd]
  decide

/-- Two bytes on both sides of a page boundary. -/
theorem mapPhysObj_translates_boundary :
    ∃ r s', Vm.mapPhysObj { pageFive 0#32 with pageHeap := emptyHeap } 0x80000FFF#32 2#32 =
        some (r, s') ∧
      (∀ k, k < 2#32 → translate s'.space (r + k) = some (0x80000FFF#32 + k)) ∧
      ∀ w, ¬ InRun 0x10000#32 (objPages 0x80000FFF#32 2#32).toNat w → ¬ False →
        s'.space.frameOf w = (pageFive 0#32).space.frameOf w :=
  @mapPhysObj_translates (fun _ => False) (TablesFor 0x10000#32 2)
    { pageFive 0#32 with pageHeap := emptyHeap } 0x80000FFF#32 2#32 0x10000#32
    (emptyHeap.markRange 0 2) (by decide) rfl (by decide) (by decide) (fun _ _ h => h)
    pageFive_tablesFor
    (fun _ _ paddr h _ hv => h.mapPage (by decide) hv paddr)

end Vm

end Muse.Paging
