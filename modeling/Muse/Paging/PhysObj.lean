import Muse.Paging.Map

/-!
# Objects at physical addresses

`map_phys_obj` of `src/common/paging.c` maps the pages of an object to a run of pages of the kernel
heap.
-/

namespace Muse.Paging

open Muse.Library

namespace Vm

/-- The loop of `map_phys_obj` (`paging.c:369-371`). `v` grows by `PAGE_SIZE`, so `2 ^ 20` rounds
    are enough below a bound that is page-aligned. -/
def mapPhysObjLoop (region firstPage limitPage : BitVec 32) : Nat → Vm → BitVec 32 → Option Vm
  | 0, _, _ => none
  | fuel + 1, s, v =>
      if v < limitPage then do
        let s ← s.mapPage (region + v - firstPage) v
        mapPhysObjLoop region firstPage limitPage fuel s (v + pageSize)
      else some s

/-- `map_phys_obj` (`paging.c:363-373`). -/
def mapPhysObj (s : Vm) (obj size : BitVec 32) : Option (BitVec 32 × Vm) := do
  let limit := obj + size
  let firstPage := alignPgDown obj
  let limitPage := alignPgUp limit
  let (region, pageHeap) ← s.pageHeap.kmallocAlignedMulti ((limitPage - firstPage) / pageSize)
  let s ← mapPhysObjLoop region firstPage limitPage (2 ^ 20 + 1) { s with pageHeap } firstPage
  some (region + obj % pageSize, s)

end Vm

/-- The physical address of a virtual one. -/
def translate (s : Space) (v : BitVec 32) : Option (BitVec 32) :=
  (s.frameOf v).map fun f => pageAddr f + v % pageSize

/-- What `map_page(v, paddr)` promises: `v` is mapped to `paddr`, and the other pages keep their
    mapping. The pages that `spared` names, such as the page that shows a new table, are left
    open. -/
structure MapContract (spared : BitVec 32 → Prop) (s s' : Vm) (v paddr : BitVec 32) : Prop where
  mapped : s'.space.frameOf v = some (pageOf paddr)
  others : ∀ w, pageOf w ≠ pageOf v → ¬ spared w → s'.space.frameOf w = s.space.frameOf w

/-- The run of `n` pages from `region` on. -/
def InRun (region : BitVec 32) (n : Nat) (w : BitVec 32) : Prop :=
  region.toNat ≤ w.toNat ∧ w.toNat < region.toNat + 4096 * n

/-- The number of pages that `map_phys_obj` asks for. -/
def objPages (obj size : BitVec 32) : BitVec 32 :=
  (alignPgUp (obj + size) - alignPgDown obj) / pageSize

end Muse.Paging
