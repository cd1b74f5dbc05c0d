import Muse.Library.ByteMemory

/-!
# Chunks and tiers

`libc/lib/heap.c` and `src/common/alloc.c` have the same allocator: chunks with a header of two
words, and an array `tiers` of lists of free chunks by size. The functions here are the ones both
files have, with the number of tiers `n` and what differs between the two files as parameters.
The fields of a chunk are words of the heap's memory, `struct heap` is a record beside it.

An operation that does not return gives a `Fault`. That includes an access to `tiers` with an
index that is not below `n`, which is undefined in C.
-/

namespace Muse.Memory

open Muse.Library

inductive Fault where
  /-- An index outside of `tiers`. -/
  | tierIndex
  /-- The region of the heap cannot grow. -/
  | outOfMemory
  /-- The list of a tier does not end. -/
  | endless
  deriving DecidableEq, Repr

/-- `MIN_CHUNK_SIZE`. -/
def minChunkSize : BitVec 32 := 16#32

/-- `TIER_IDX`, as an `unsigned int`. `__builtin_clz(0)` is undefined; the index of 0 is out of
    range here. -/
def tierIdx (x : BitVec 32) : BitVec 32 := BitVec.ofNat 32 x.toNat.log2 - 4#32

/-- `CHUNK_OVERHEAD`. -/
def chunkOverhead : BitVec 32 := 8#32

/-- `BIT_FREE`. -/
def bitFree : BitVec 32 := 1#32

/-- `SIZE_MASK`. -/
def sizeMask : BitVec 32 := ~~~bitFree

/-- `struct heap`, with the memory its chunks are in. -/
structure ChunkHeap (n : Nat) where
  mem : ByteMem
  size : BitVec 32
  free : BitVec 32
  tiers : Fin n → BitVec 32
  limit : BitVec 32

namespace ChunkHeap

variable {n : Nat}

/-! ## The fields of a chunk -/

def prevSize (h : ChunkHeap n) (ch : BitVec 32) : BitVec 32 := readWord h.mem ch

def sizeOf (h : ChunkHeap n) (ch : BitVec 32) : BitVec 32 := readWord h.mem (ch + 4#32)

def next (h : ChunkHeap n) (ch : BitVec 32) : BitVec 32 := readWord h.mem (ch + 8#32)

def setPrevSize (h : ChunkHeap n) (ch x : BitVec 32) : ChunkHeap n :=
  { h with mem := writeWord h.mem ch x }

def setSizeOf (h : ChunkHeap n) (ch x : BitVec 32) : ChunkHeap n :=
  { h with mem := writeWord h.mem (ch + 4#32) x }

def setNext (h : ChunkHeap n) (ch x : BitVec 32) : ChunkHeap n :=
  { h with mem := writeWord h.mem (ch + 8#32) x }

/-- `ch->size & SIZE_MASK`. -/
def room (h : ChunkHeap n) (ch : BitVec 32) : BitVec 32 := h.sizeOf ch &&& sizeMask

/-! ## The tiers -/

/-- `tiers[i]`. -/
def tier (h : ChunkHeap n) (i : BitVec 32) : Except Fault (BitVec 32) :=
  if hi : i.toNat < n then .ok (h.tiers ⟨i.toNat, hi⟩) else .error .tierIndex

/-- `tiers[i] = ch`. -/
def setTier (h : ChunkHeap n) (i ch : BitVec 32) : Except Fault (ChunkHeap n) :=
  if hi : i.toNat < n then .ok { h with tiers := Function.update h.tiers ⟨i.toNat, hi⟩ ch }
  else .error .tierIndex

/-- Puts a chunk in front of the list of tier `i`. -/
def linkChunk (h : ChunkHeap n) (i ch : BitVec 32) : Except Fault (ChunkHeap n) := do
  let first ← h.tier i
  (h.setNext ch first).setTier i ch

/-- `split_chunk` (`heap.c:43-69`, `alloc.c:49-75`). The tier is computed from the address of
    the new chunk. -/
def splitChunk (h : ChunkHeap n) (ch size : BitVec 32) : Except Fault (ChunkHeap n) :=
  let nextCh := ch + h.room ch
  let newCh := ch + size + chunkOverhead
  let h := h.setSizeOf newCh ((h.room ch - size - chunkOverhead) ||| bitFree)
  let h := h.setSizeOf ch (size + chunkOverhead)
  let h := h.setPrevSize newCh (h.sizeOf ch)
  let h := h.setPrevSize nextCh (h.sizeOf newCh)
  h.linkChunk (tierIdx newCh) newCh

/-! ## Allocating and freeing -/

/-- The size of the chunk for a request. -/
def chunkSize (size : BitVec 32) : BitVec 32 :=
  if minChunkSize ≤ size + chunkOverhead then size + chunkOverhead else minChunkSize

/-- The loop over the chunks of a tier: the first chunk from `ch` on that is large enough, with the
    chunk before it, or 0 at the end of the list. -/
def findChunk (h : ChunkHeap n) (chSize : BitVec 32) :
    Nat → BitVec 32 → BitVec 32 → Except Fault (BitVec 32 × BitVec 32)
  | 0, _, _ => .error .endless
  | fuel + 1, prev, ch =>
      if ch = 0#32 then .ok (prev, 0#32)
      else if h.room ch < chSize then h.findChunk chSize fuel ch (h.next ch)
      else .ok (prev, ch)

/-- The chunk that a request finds in its tier. A list without repetition has fewer than 2^32
    chunks. -/
def fittingChunk (h : ChunkHeap n) (size : BitVec 32) : Except Fault (BitVec 32 × BitVec 32) := do
  let first ← h.tier (tierIdx (chunkSize size))
  h.findChunk (chunkSize size) (2 ^ 32) 0#32 first

/-- Takes `ch` out of the list of tier `i`. -/
def unlinkChunk (h : ChunkHeap n) (i prev ch : BitVec 32) : Except Fault (ChunkHeap n) :=
  if prev ≠ 0#32 then .ok (h.setNext prev (h.next ch)) else h.setTier i (h.next ch)

/-- It is worth splitting the chunk. -/
def Splits (h : ChunkHeap n) (ch size : BitVec 32) : Prop :=
  chunkSize size + minChunkSize + chunkOverhead ≤ h.room ch

instance (h : ChunkHeap n) (ch size : BitVec 32) : Decidable (h.Splits ch size) :=
  inferInstanceAs (Decidable (_ ≤ _))

/-- The end of the region moves up. -/
def extend (h : ChunkHeap n) (inc : BitVec 32) : ChunkHeap n := { h with limit := h.limit + inc }

/-- `malloc` (`heap.c:71-112`) and `kmalloc` (`alloc.c:77-119`). `grow` extends the region and moves
    `limit`; `account` is what a new chunk adds to the field `size`. -/
def allocate (grow : ChunkHeap n → BitVec 32 → Except Fault (ChunkHeap n)) (account : BitVec 32)
    (h : ChunkHeap n) (size : BitVec 32) : Except Fault (BitVec 32 × ChunkHeap n) := do
  let (prev, ch) ← h.fittingChunk size
  if ch ≠ 0#32 then do
    let h ← h.unlinkChunk (tierIdx (chunkSize size)) prev ch
    let h ← if h.Splits ch size then h.splitChunk ch size else .ok h
    .ok (ch + chunkOverhead, h)
  else do
    let newCh := h.limit - 4#32
    let h ← grow h (chunkSize size)
    let h := h.setSizeOf newCh (chunkSize size)
    .ok (newCh + chunkOverhead, { h with size := h.size + account })

/-- The chunk before `ch` is taken for a free one, and the two are merged (`heap.c:116-121`,
    `alloc.c:133-138`). -/
def mergeChunk (h : ChunkHeap n) (ch : BitVec 32) : BitVec 32 × ChunkHeap n :=
  if h.prevSize ch &&& bitFree ≠ 0#32 then
    let mergedCh := ch - (h.prevSize ch &&& sizeMask)
    (mergedCh, h.setSizeOf mergedCh (h.sizeOf mergedCh + h.sizeOf ch))
  else (ch, h)

/-- `free` (`heap.c:114-127`) and the chunk path of `kfree` (`alloc.c:132-143`). -/
def release (h : ChunkHeap n) (ptr : BitVec 32) : Except Fault (ChunkHeap n) := do
  let (ch, h) := h.mergeChunk (ptr - chunkOverhead)
  let h := h.setSizeOf ch (h.sizeOf ch ||| bitFree)
  let h ← h.linkChunk (tierIdx (h.room ch)) ch
  .ok { h with free := h.free + h.room ch }

/-- An empty heap whose region starts at `base` (`init_heap`). -/
def empty (mem : ByteMem) (base : BitVec 32) : ChunkHeap n where
  mem := writeWord mem base 0#32
  size := 0#32
  free := 0#32
  tiers := fun _ => 0#32
  limit := base + 4#32

end ChunkHeap

/-! ## Runs -/

/-- A heap, and the pointers that were returned and not freed, with the sizes requested. -/
structure HeapState (n : Nat) where
  heap : ChunkHeap n
  live : List (BitVec 32 × BitVec 32)

namespace HeapState

/-- What a program does with its heap. -/
inductive Op where
  | malloc (size : BitVec 32)
  | free (ptr : BitVec 32)
  /-- The program writes to memory. -/
  | write (addr : BitVec 32) (byte : BitVec 8)
  deriving DecidableEq

variable {n : Nat}

/-- One operation, for an allocator and its counterpart. -/
def perform (malloc : ChunkHeap n → BitVec 32 → Except Fault (BitVec 32 × ChunkHeap n))
    (free : ChunkHeap n → BitVec 32 → Except Fault (ChunkHeap n)) (s : HeapState n) :
    Op → Except Fault (HeapState n)
  | .malloc size => do
      let (ptr, heap) ← malloc s.heap size
      .ok ⟨heap, (ptr, size) :: s.live⟩
  | .free ptr => do
      let heap ← free s.heap ptr
      .ok ⟨heap, s.live.filter (·.1 ≠ ptr)⟩
  | .write addr byte =>
      .ok { s with heap.mem := Function.update s.heap.mem addr byte }

end HeapState

end Muse.Memory
