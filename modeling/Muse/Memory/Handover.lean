import Mathlib.Algebra.GroupWithZero.Nat
import Muse.Library.Bytes
import Muse.Memory.PageBitmap

/-!
# Handing the bitmaps over to the kernel

`kmain` (`src/kernel/kernel.c`) moves `t_info` and the bitmaps of the regions to the kernel heap.
Each `kmalloc` extends the heap, because nothing has been freed yet, and the pages that `heap_sbrk`
maps come from `kpage_alloc`, which uses the bitmaps that are being moved.

The memory is the virtual memory of the kernel, with the bitmaps and the heap in it; pages that
are not mapped yet have the contents that they will show. `t_info` is a record, and what
`map_page` writes to the page tables is the subject of `Muse.Paging`.
-/

namespace Muse.Memory.Handover

open Muse.Library

/-- `sizeof(struct trampoline_info)`. -/
def trampolineInfoSize : Nat := 228

/-- `heap.max_limit`. -/
def maxLimit : Nat := 0xFF8FF000

/-- The memory, `t_info->regions` and the end of the heap; for which pages `get_page_mapping` is not
    0 and which slots of the directory have a table; and the pages that `kpage_alloc` returned, as
    the index of the region and that of the page. -/
structure State where
  mem : Bytes
  regions : List Region
  limit : Nat
  mapped : Nat → Bool
  tables : Nat → Bool
  handed : List (Nat × Nat)

/-- The page that `kpage_alloc` finds, from region `i` on. -/
def foundPage (mem : Bytes) : List Region → Nat → Option (Nat × Nat)
  | [], _ => none
  | r :: rs, i =>
      match scan mem r (2 ^ 20 + 1) r.addr 0 with
      | some (_, idx) => some (i, idx)
      | none => foundPage mem rs (i + 1)

/-- `memcpy` (`memory.c:18-22`). -/
def memcpy (mem : Bytes) (dst src : Nat) : Nat → Bytes
  | 0 => mem
  | size + 1 => Function.update (memcpy mem dst src size) (dst + size)
      (memcpy mem dst src size (src + size))

namespace State

/-- `kpage_alloc` (`memory.c:38-60`). -/
def kpageAlloc (s : State) : Option State :=
  (Memory.kpageAlloc s.mem s.regions).map fun p =>
    { s with mem := p.2, handed := (foundPage s.mem s.regions 0).toList ++ s.handed }

/-- `map_page(v, kpage_alloc())` for page `v` (`alloc.c:20`). -/
def mapPage (s : State) (v : Nat) : Option State := do
  let s ← s.kpageAlloc
  let s ← if s.tables (v / 1024) then some s else s.kpageAlloc
  some { s with
    tables := Function.update s.tables (v / 1024) true
    mapped := Function.update s.mapped v true }

/-- The loop of `heap_sbrk` (`alloc.c:17-23`) over `n` pages from `v` on. -/
def mapPages (s : State) (v : Nat) : Nat → Option State
  | 0 => some s
  | n + 1 => do
      let s ← if s.mapped v then some s else s.mapPage v
      s.mapPages (v + 1) n

/-- `heap_sbrk` (`alloc.c:11-26`); over the limit, the kernel halts. -/
def heapSbrk (s : State) (inc : Nat) : Option State :=
  let limit := (s.limit + inc) % 2 ^ 32
  if maxLimit < limit then none
  else (s.mapPages (s.limit / 4096) (limit / 4096 + 1 - s.limit / 4096)).map fun s =>
    { s with limit }

/-- The size of the chunk for a request. -/
def chunkSize (size : Nat) : Nat := if 16 ≤ size + 8 then size + 8 else 16

/-- `kmalloc` (`alloc.c:77-119`) without free chunks. -/
def kmalloc (s : State) (size : Nat) : Option (Nat × State) := do
  let newCh := s.limit - 4
  let s ← s.heapSbrk (chunkSize size)
  let s := { s with mem := s.mem.setWord32 (newCh + 4) (BitVec.ofNat 32 (chunkSize size)) }
  some (newCh + 8, s)

/-- A round of the loop over the regions (`kernel.c:56-59`). -/
def copyBitmap (s : State) (i : Nat) : Option State := do
  let r ← s.regions[i]?
  let size := r.pgCnt / 8
  let (bitmap, s) ← s.kmalloc size
  some { s with
    mem := memcpy s.mem bitmap r.bitmap size
    regions := s.regions.set i { r with bitmap } }

/-- The first `n` rounds of the loop. -/
def copyBitmaps (s : State) : Nat → Option State
  | 0 => some s
  | n + 1 => do
      let s ← s.copyBitmaps n
      s.copyBitmap n

end State

/-- Page `k` of the region is marked as allocated. -/
def Allocated (mem : Bytes) (r : Region) (k : Nat) : Prop := bitAt mem (r.bit k) = true

/-- The status of the pages is preserved: what was allocated or was handed out on the way is
    allocated, and nothing else is. -/
def Preserves (s s' : State) : Prop :=
  s'.regions.length = s.regions.length ∧
  ∀ (i : Nat) (r r' : Region), s.regions[i]? = some r → s'.regions[i]? = some r' →
    r'.addr = r.addr ∧ r'.pgCnt = r.pgCnt ∧
    ∀ k < r.pgCnt, Allocated s'.mem r' k ↔ Allocated s.mem r k ∨ (i, k) ∈ s'.handed

/-- What `kmain` finds: the bitmaps that `init_memory` laid out behind `t_info`, which is at address
    0, and the heap somewhere above them, with room for the copies below the end of memory. -/
structure Starts (table : List (Nat × Nat)) (s : State) : Prop where
  regions : s.regions = layout trampolineInfoSize table
  handed : s.handed = []
  above : trampolineInfoSize + (table.map fun r => r.2 / 8).sum + 4 ≤ s.limit
  below : s.limit + State.chunkSize trampolineInfoSize +
    (table.map fun r => State.chunkSize (r.2 / 8)).sum < 2 ^ 32

end Muse.Memory.Handover
