import Muse.Memory.ChunkHeap
import Muse.Memory.PageHeap

/-!
# The kernel heap

`src/common/alloc.c`. The chunks of `kmalloc` and the pages of `kmalloc_aligned` belong to one
`struct heap`. The struct and the bitmap of its pages are themselves allocated by `init_heap`; they
are records here, and their chunks are live from the start. What `heap_sbrk` maps is the subject of
`Muse.Paging`.
-/

namespace Muse.Memory

open Muse.Library

/-- `CHUNK_SIZE_LIMIT_LOG`. -/
abbrev chunkSizeLimitLog : Nat := 25

/-- `TIER_CNT`. -/
abbrev tierCnt : Nat := chunkSizeLimitLog - 4

/-- `struct heap`. -/
structure KernelHeap where
  chunks : ChunkHeap tierCnt
  maxLimit : BitVec 32
  pages : PageHeap

namespace KernelHeap

/-- `heap_sbrk` (`alloc.c:11-26`); over the limit, the kernel halts. -/
def heapSbrk (maxLimit : BitVec 32) (h : ChunkHeap tierCnt) (inc : BitVec 32) :
    Except Fault (ChunkHeap tierCnt) :=
  if maxLimit < h.limit + inc then .error .outOfMemory else .ok (h.extend inc)

/-- `kmalloc` (`alloc.c:77-119`). -/
def kmalloc (h : KernelHeap) (size : BitVec 32) : Except Fault (BitVec 32 × KernelHeap) := do
  let (ptr, chunks) ← h.chunks.allocate (heapSbrk h.maxLimit) size size
  .ok (ptr, { h with chunks })

/-- `kfree` (`alloc.c:121-144`). -/
def kfree (h : KernelHeap) (ptr : BitVec 32) : Except Fault KernelHeap :=
  match h.pages.kfree ptr with
  | some pages => .ok { h with pages }
  | none => do
      let chunks ← h.chunks.release ptr
      .ok { h with chunks }

end KernelHeap

/-- The kernel heap, and the pointers that were returned and not freed, with the sizes
    requested. -/
structure KernelState where
  heap : KernelHeap
  live : List (BitVec 32 × BitVec 32)

namespace KernelState

/-- The part of the state that the chunks are about. -/
def chunkState (s : KernelState) : HeapState tierCnt := ⟨s.heap.chunks, s.live⟩

def perform (s : KernelState) : HeapState.Op → Except Fault KernelState
  | .malloc size => do
      let (ptr, heap) ← s.heap.kmalloc size
      .ok ⟨heap, (ptr, size) :: s.live⟩
  | .free ptr => do
      let heap ← s.heap.kfree ptr
      .ok ⟨heap, s.live.filter (·.1 ≠ ptr)⟩
  | .write addr byte =>
      .ok { s with heap.chunks.mem := Function.update s.heap.chunks.mem addr byte }

def step (s : KernelState) (op : HeapState.Op) : Option KernelState := (s.perform op).toOption

/-- The heap of `init_heap` before its first `kmalloc`, at the address `base`. -/
def initial (mem : ByteMem) (base maxLimit alignedStart : BitVec 32) (bitmapCnt : Nat) :
    KernelState where
  heap := ⟨.empty mem base, maxLimit, ⟨fun _ => 0#32, bitmapCnt, alignedStart⟩⟩
  live := []

/-- `init_heap` (`alloc.c:28-47`): the bitmap of the pages and the struct, of 112 bytes, are the
    first two allocations. -/
def initHeap (mem : ByteMem) (base maxLimit alignedStart : BitVec 32) (bitmapCnt : Nat) :
    Except Fault KernelState := do
  if maxLimit < base + 4#32 then .error .outOfMemory
  else do
    let s ← (initial mem base maxLimit alignedStart bitmapCnt).perform
      (.malloc (4#32 * BitVec.ofNat 32 bitmapCnt))
    s.perform (.malloc 112#32)

end KernelState

end Muse.Memory
