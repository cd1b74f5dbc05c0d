import Muse.Memory.ChunkHeap

/-!
# The userspace heap

`libc/lib/heap.c`. `sbrk` hands out one region that grows upwards.
-/

namespace Muse.Libc

open Muse.Library Muse.Memory

/-- `CHUNK_SIZE_LIMIT_LOG`. -/
abbrev chunkSizeLimitLog : Nat := 15

/-- `TIER_CNT`. -/
abbrev tierCnt : Nat := chunkSizeLimitLog - 4

/-- `sbrk(increment)` at the end of the region, which is where `limit` is, followed by the update of
    `limit`. The region cannot grow over the end of the address space. -/
def sbrk (h : ChunkHeap tierCnt) (increment : BitVec 32) : Except Fault (ChunkHeap tierCnt) :=
  if h.limit.toNat + increment.toNat < 2 ^ 32 then .ok (h.extend increment)
  else .error .outOfMemory

/-- `init_heap` (`heap.c:31-41`), with the region of `sbrk` starting at `base`. -/
def initHeap (mem : ByteMem) (base : BitVec 32) : ChunkHeap tierCnt := .empty mem base

/-- `malloc` (`heap.c:71-112`). -/
def malloc (h : ChunkHeap tierCnt) (size : BitVec 32) :
    Except Fault (BitVec 32 × ChunkHeap tierCnt) :=
  h.allocate sbrk (ChunkHeap.chunkSize size) size

/-- `free` (`heap.c:114-127`). -/
def free (h : ChunkHeap tierCnt) (ptr : BitVec 32) : Except Fault (ChunkHeap tierCnt) :=
  h.release ptr

/-- `p = malloc(size); free(p);`. -/
def pair (size : BitVec 32) (h : ChunkHeap tierCnt) : Except Fault (ChunkHeap tierCnt) := do
  let (ptr, h) ← malloc h size
  free h ptr

/-- The pair `k` times. -/
def pairs (size : BitVec 32) : Nat → ChunkHeap tierCnt → Except Fault (ChunkHeap tierCnt)
  | 0, h => .ok h
  | k + 1, h => do
      let h ← pair size h
      pairs size k h

abbrev State : Type := HeapState tierCnt

namespace State

def step (s : State) (op : HeapState.Op) : Option State := (s.perform malloc free op).toOption

end State

end Muse.Libc
