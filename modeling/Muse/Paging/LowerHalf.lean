import Muse.Memory.PageBitmap
import Muse.Library.BitArray
import Muse.Paging.Map

/-!
# Freeing the lower half

`free_lower_half` of `src/common/paging.c`. `kmain` calls it when it needs the prekernel no more:
the lower half of the active directory is emptied, and its pages are freed. The bitmaps of the
regions are kept apart from the frames.
-/

namespace Muse.Paging.LowerHalf

open Muse.Library

/-- The machine as the page tables see it, and the bitmaps of the physical pages. -/
structure State where
  vm : Vm
  bitmaps : Nat → BitVec 8

variable (regions : List Memory.Region)

namespace State

/-- `kpage_set_status(addr, true)`. -/
def freePage (s : State) (addr : BitVec 32) : State :=
  { s with bitmaps := Memory.kpageSetStatus s.bitmaps regions addr.toNat true }

def store (s : State) (v x : BitVec 32) : Option State :=
  (s.vm.store v x).map fun vm => { s with vm }

/-- A round of the inner loop (`paging.c:342-349`). -/
def freeSlot (s : State) (pageTable j : BitVec 32) : Option State := do
  let entry ← s.vm.load (elem pageTable j)
  let s := if isPresent entry then s.freePage regions (entry &&& addrMask) else s
  s.store (elem pageTable j) 0#32

/-- The first `n` rounds. -/
def freeSlots (s : State) (pageTable : BitVec 32) : Nat → Option State
  | 0 => some s
  | n + 1 => do
      let s ← s.freeSlots pageTable n
      s.freeSlot regions pageTable (BitVec.ofNat 32 n)

/-- A round of the outer loop (`paging.c:338-352`). -/
def freeTable (s : State) (i : BitVec 32) : Option State := do
  let entry ← s.vm.load (elem loopbackDir i)
  if !isPresent entry then some s
  else do
    let pageTable := loopbackTbl i
    let s ← s.freeSlots regions pageTable 512
    (s.freePage regions pageTable).store (elem loopbackDir i) 0#32

/-- The first `n` rounds. -/
def freeTables (s : State) : Nat → Option State
  | 0 => some s
  | n + 1 => do
      let s ← s.freeTables n
      s.freeTable regions (BitVec.ofNat 32 n)

/-- `free_lower_half` (`paging.c:336-354`). -/
def freeLowerHalf (s : State) : Option State := s.freeTables regions 512

/-- Entry `i` of the active directory. -/
def entry (s : State) (i : BitVec 10) : BitVec 32 := s.vm.space.mem s.vm.space.cr3 i

/-- Slot `j` of the table that entry `i` names. -/
def slot (s : State) (i j : BitVec 10) : BitVec 32 := s.vm.space.mem (frame (s.entry i)) j

/-- Page `k` of the region is marked as allocated. -/
def Allocated (s : State) (r : Memory.Region) (k : Nat) : Prop := bitAt s.bitmaps (r.bit k) = true

end State

/-! ## What is to be freed, and what is freed -/

/-- The address of the page that an entry names. -/
def pageOfEntry (e : BitVec 32) : Nat := (e &&& addrMask).toNat

/-- A page of the lower half: a table of it, or a page that one of its tables maps. -/
inductive LowerPage (s : State) : Nat → Prop
  | table (i : BitVec 10) (hi : i.toNat < 512) (hp : present (s.entry i) = true) :
      LowerPage s (pageOfEntry (s.entry i))
  | mapped (i j : BitVec 10) (hi : i.toNat < 512) (hp : present (s.entry i) = true)
      (hj : present (s.slot i j) = true) : LowerPage s (pageOfEntry (s.slot i j))

/-- The addresses that the loops pass to `kpage_set_status`: those that the first half of each table
    maps, and the addresses at which the window shows the tables. -/
inductive Visited (s : State) : Nat → Prop
  | window (i : BitVec 10) (hi : i.toNat < 512) (hp : present (s.entry i) = true) :
      Visited s (loopbackTbl (i.setWidth 32)).toNat
  | mapped (i j : BitVec 10) (hi : i.toNat < 512) (hp : present (s.entry i) = true)
      (hj : j.toNat < 512) (hpj : present (s.slot i j) = true) :
      Visited s (pageOfEntry (s.slot i j))

/-- The bit that `kpage_set_status` takes for the status of an address. -/
def statusBit (addr : Nat) : Option Nat :=
  (Memory.findRegion regions addr).map fun r => r.bit ((addr - r.addr) / Memory.pageSize)

/-- What `free_lower_half` is for: the lower half of the directory is empty, the upper half is as it
    was, and a page is free if it was free or belonged to the lower half. -/
structure Reclaimed (s s' : State) : Prop where
  lower : ∀ i : BitVec 10, i.toNat < 512 → s'.entry i = 0#32
  upper : ∀ i : BitVec 10, 512 ≤ i.toNat → s'.entry i = s.entry i
  status : ∀ r ∈ regions, ∀ k < r.pgCnt,
    ¬ s'.Allocated r k ↔ ¬ s.Allocated r k ∨ LowerPage s (r.page k)

/-- The states from which it does that: entries that are not present are 0, each allocated page of
    the lower half has its bit among those of the visited addresses, and no other allocated page
    has. -/
structure Reclaimable (s : State) : Prop where
  absent : ∀ i : BitVec 10, i.toNat < 512 → present (s.entry i) = false → s.entry i = 0#32
  reached : ∀ r ∈ regions, ∀ k < r.pgCnt, s.Allocated r k → LowerPage s (r.page k) →
    ∃ a, Visited s a ∧ statusBit regions a = some (r.bit k)
  own : ∀ r ∈ regions, ∀ k < r.pgCnt, s.Allocated r k →
    ∀ a, Visited s a → statusBit regions a = some (r.bit k) → LowerPage s (r.page k)

/-- The directories it is about: the window shows the tables, and the lower half does not name the
    directory itself as a table. -/
structure Active (s : State) : Prop where
  selfMapped : s.vm.space.SelfMapped
  tables : ∀ i : BitVec 10, i.toNat < 512 → present (s.entry i) = true →
    frame (s.entry i) ≠ s.vm.space.cr3

end Muse.Paging.LowerHalf
