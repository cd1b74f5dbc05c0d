import Muse.Library.Links
import Muse.Memory.KernelHeap
import Muse.Paging.Map

/-!
# Chunks and pages of the kernel heap

The heap that `kmain` (`src/kernel/kernel.c`) configures: its pages start behind the kernel, and its
chunks behind `KERNEL_ALIGNED_HEAP_SIZE` bytes of pages. A run makes chunks with `kmalloc`, pages
with `kmalloc_aligned` and `kmalloc_aligned_multi`, and gives both back to `kfree`, which tells them
apart by their address.
-/

namespace Muse.Memory.Dispatch

open Muse.Library

/-- `KERNEL_ALIGNED_HEAP_SIZE`. -/
def kernelAlignedHeapSize : Nat := 1024 * 4096

/-- The heap of `kmain` (`kernel.c:44-49`) for a kernel that ends at `kernelLimit`. -/
def kmainHeap (mem : ByteMem) (kernelLimit : BitVec 32) : Except Fault KernelState :=
  let alignedStart := Paging.alignPgUp kernelLimit
  KernelState.initHeap mem (alignedStart + BitVec.ofNat 32 kernelAlignedHeapSize) 0xFF8FF000#32
    alignedStart (kernelAlignedHeapSize / 4096 / 8)

/-- The kernel heap with the chunks in use, the pages that `kmalloc_aligned` returned, and those
    that `kmalloc_aligned_multi` returned, with their numbers. -/
structure State where
  kernel : KernelState
  aligned : List (BitVec 32)
  multi : List (BitVec 32 × Nat)

inductive Op where
  /-- `kmalloc`, `kfree` of any pointer, or a write to memory. -/
  | heap (op : HeapState.Op)
  | kmallocAligned
  | kmallocAlignedMulti (cnt : BitVec 32)
  deriving DecidableEq

namespace State

/-- The page part of the heap. -/
def pages (s : State) : PageHeap := s.kernel.heap.pages

def withPages (s : State) (pages : PageHeap) : State :=
  { s with kernel := { s.kernel with heap := { s.kernel.heap with pages } } }

def step (s : State) : Op → Option State
  | .heap (.free ptr) => (s.kernel.step (.free ptr)).map fun kernel =>
      ⟨kernel, s.aligned.filter (· ≠ ptr), s.multi.filter (·.1 ≠ ptr)⟩
  | .heap op => (s.kernel.step op).map fun kernel => { s with kernel }
  | .kmallocAligned => s.pages.kmallocAligned.map fun p =>
      { s.withPages p.2 with aligned := p.1 :: s.aligned }
  | .kmallocAlignedMulti cnt => (s.pages.kmallocAlignedMulti cnt).map fun p =>
      { s.withPages p.2 with multi := (p.1, cnt.toNat) :: s.multi }

/-- A run frees what it was given, and writes to its chunks. -/
def Allowed (s : State) : Op → Prop
  | .heap (.free ptr) => (∃ x ∈ s.kernel.live, x.1 = ptr) ∨ ptr ∈ s.aligned ∨
      ∃ x ∈ s.multi, x.1 = ptr
  | .heap (.write addr _) => ∃ x ∈ s.kernel.live,
      x.1.toNat ≤ addr.toNat ∧ addr.toNat < x.1.toNat + x.2.toNat
  | _ => True

instance (s : State) : ∀ op, Decidable (Allowed s op)
  | .heap (.malloc _) => inferInstanceAs (Decidable True)
  | .heap (.free _) => inferInstanceAs (Decidable (_ ∨ _ ∨ _))
  | .heap (.write _ _) => inferInstanceAs (Decidable (∃ x ∈ _, _))
  | .kmallocAligned => inferInstanceAs (Decidable True)
  | .kmallocAlignedMulti _ => inferInstanceAs (Decidable True)

/-- The end of the pages: `aligned_start + KERNEL_ALIGNED_HEAP_SIZE`. -/
def pagesEnd (s : State) : Nat := s.pages.alignedStart.toNat + kernelAlignedHeapSize

/-- The pages lie below the end of the pages, and the chunks above. -/
structure Separate (s : State) : Prop where
  aligned : ∀ p ∈ s.aligned, p.toNat + 4096 ≤ s.pagesEnd
  multi : ∀ x ∈ s.multi, x.1.toNat + x.2 * 4096 ≤ s.pagesEnd
  chunks : ∀ x ∈ s.kernel.live, s.pagesEnd ≤ (x.1 - chunkOverhead).toNat

/-- The chunk is on the list of a tier. -/
def OnTier (h : ChunkHeap tierCnt) (c : BitVec 32) : Prop :=
  ∃ i l, Chain h.next 0#32 (h.tiers i) l ∧ c ∈ l

/-- What `kfree(ptr)` must do: a chunk goes on a list, and `page_bitmap` stays as it is; a page of
    `kmalloc_aligned` has its bit cleared, and nothing else changes. -/
def FreesWell (s : State) (ptr : BitVec 32) : Prop :=
  ∃ s', s.step (.heap (.free ptr)) = some s' ∧
    ((∃ x ∈ s.kernel.live, x.1 = ptr) →
      s'.pages = s.pages ∧ OnTier s'.kernel.heap.chunks (ptr - chunkOverhead)) ∧
    (ptr ∈ s.aligned → ∃ n, ptr = s.pages.alignedStart + BitVec.ofNat 32 n * 4096#32 ∧
      s'.kernel.heap.chunks = s.kernel.heap.chunks ∧
      ∀ m, s'.pages.Marked m ↔ m ≠ n ∧ s.pages.Marked m)

end State

end Muse.Memory.Dispatch
