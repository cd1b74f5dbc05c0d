import Muse.Library.Transition
import Muse.Memory.PageBitmap
import Muse.Paging.Map

/-!
# The heap of a task

`syscall_sbrk` of `src/kernel/syscall.c`. A task runs it in steps: one step enters the call, each
round of one of its two loops is a step, and so is leaving a loop. Here `kpage_alloc` is the
function of `src/common/memory.c` on the bitmaps of the regions, which are kept apart from the
frames. The log calls are left out.
-/

namespace Muse.Paging.Sbrk

open Muse.Library

/-- The loops of `syscall_sbrk`. -/
inductive Loop where
  | grow
  | shrink
  deriving DecidableEq

/-- What a call found when it was made. -/
structure Entry where
  space : Space
  limit : BitVec 32

/-- A call in progress: its argument, its local variable, and the loop it is in. The entry is kept
    to tell afterwards what the call did. -/
structure Call where
  inc : BitVec 32
  prevLimit : BitVec 32
  loop : Loop
  entry : Entry

/-- A call that returned `ret`. -/
structure Done where
  inc : BitVec 32
  ret : BitVec 32
  entry : Entry

/-- The active task, with the bitmaps of the physical pages. -/
structure Task where
  space : Space
  bitmaps : Nat → BitVec 8
  /-- `active_ctx->limit`. -/
  limit : BitVec 32
  call : Option Call
  last : Option Done

/-- The page of the last byte below `limit`. -/
def lastPage (limit : BitVec 32) : BitVec 32 := alignPgDown (limit - 1#32)

variable (regions : List Memory.Region)

namespace Task

/-- The machine as the page tables see it, when `kpage_alloc` returns the page at `next`. -/
def vm (s : Task) (next : Option Nat) : Vm where
  space := s.space
  freePages := (next.map fun a => BitVec.ofNat 20 (a / 4096)).toList
  pageHeap := ⟨fun _ => 0#32, 0, 0#32⟩

/-- `map_page` (`paging.c:98-104`). It takes at most one page from `kpage_alloc`. -/
def mapPage (s : Task) (vaddr paddr : BitVec 32) : Option Task :=
  let next := Memory.kpageAlloc s.bitmaps regions
  ((s.vm (next.map Prod.fst)).mapPage vaddr paddr).map fun vm =>
    { s with
      space := vm.space
      bitmaps := if vm.freePages = [] then (next.map Prod.snd).getD s.bitmaps else s.bitmaps }

/-- A round of the first loop (`syscall.c:39-43`). -/
def growRound (s : Task) : Option Task := do
  let limit := s.limit + pageSize
  let (page, bitmaps) ← Memory.kpageAlloc s.bitmaps regions
  { s with limit, bitmaps }.mapPage regions (lastPage limit) (BitVec.ofNat 32 page)

/-- A round of the second loop (`syscall.c:47-48`). -/
def shrinkRound (s : Task) : Option Task := do
  let limit := s.limit - pageSize
  let page ← (s.vm none).getPageMapping limit
  some { s with limit, bitmaps := Memory.kpageSetStatus s.bitmaps regions page.toNat false }

end Task

/-- `syscall_sbrk` (`syscall.c:32-55`) from one point to the next. -/
def resume (s : Task) (c : Call) : Option Task :=
  let target := c.prevLimit + c.inc
  match c.loop with
  | .grow =>
      if lastPage s.limit < lastPage target then s.growRound regions
      else some { s with call := some { c with loop := .shrink } }
  | .shrink =>
      if lastPage target < lastPage s.limit then s.shrinkRound regions
      else some { s with limit := target, call := none, last := some ⟨c.inc, c.prevLimit, c.entry⟩ }

inductive Op where
  | sbrk (inc : BitVec 32)
  | resume
  deriving DecidableEq

def step (s : Task) : Op → Option Task
  | .sbrk inc =>
      some { s with call := some ⟨inc, s.limit, .grow, ⟨s.space, s.limit⟩⟩ }
  | .resume => s.call.bind (resume regions s)

/-- The calls of a task whose heap starts at `b`: one after another, and with increments that keep
    the limit in the user half, at `b` or above. -/
def Allowed (b : BitVec 32) (s : Task) : Op → Prop
  | .sbrk inc => s.call.isNone = true ∧ b ≤ s.limit + inc ∧ s.limit + inc < 0x80000000#32
  | .resume => True

instance (b : BitVec 32) (s : Task) : ∀ op, Decidable (Allowed b s op)
  | .sbrk _ => inferInstanceAs (Decidable (_ ∧ _ ∧ _))
  | .resume => inferInstanceAs (Decidable True)

end Muse.Paging.Sbrk
