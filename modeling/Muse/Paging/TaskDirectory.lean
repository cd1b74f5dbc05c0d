import Muse.Paging.Map

/-!
# Directories of tasks

`create_task_directory` of `src/common/paging.c` builds the page directory of a new task, and
`create_kernel_directory` the one that the prekernel hands over to the kernel. A directory and its
tables are built on pages of the kernel heap. While it is being built, a directory entry with the
bit `MANUSCRIPT_BIND` holds the virtual address of its table, and `bind_manuscript` puts the
physical addresses in.
-/

namespace Muse.Paging

open Muse.Library

/-- `MANUSCRIPT_BIND`. -/
def manuscriptBind : BitVec 32 := 1#32 <<< 10

/-- `TASK_STACK_BASE` (`include/muse/context.h`). -/
def taskStackBase : BitVec 32 := 0xFF8FFFFF#32

/-- `USER_STACK_BASE`. -/
def userStackBase : BitVec 32 := 0x1FFFFF#32

/-- `USER_STACK_SIZE`. -/
def userStackSize : BitVec 32 := pageSize

/-- `enum scroll_type` (`include/muse/scroll.h`). -/
inductive ScrollType where
  | failed
  | unbacked
  | aligned
  deriving DecidableEq, Repr

/-- `struct scroll`; a list of scrolls stands for the `next` pointers. -/
structure Scroll where
  vaddr : BitVec 32
  size : BitVec 32
  type : ScrollType
  page : BitVec 32
  deriving DecidableEq, Repr

namespace Vm

def storeByte (s : Vm) (v : BitVec 32) (b : BitVec 8) : Option Vm :=
  (s.space.storeByte v b).map fun space => { s with space }

/-- Writes a word at an address that need not be aligned. -/
def storeUnaligned (s : Vm) (v x : BitVec 32) : Option Vm := do
  let s ← s.storeByte v (x.extractLsb' 0 8)
  let s ← s.storeByte (v + 1#32) (x.extractLsb' 8 8)
  let s ← s.storeByte (v + 2#32) (x.extractLsb' 16 8)
  s.storeByte (v + 3#32) (x.extractLsb' 24 8)

/-- `kfree` of a page. -/
def kfree (s : Vm) (ptr : BitVec 32) : Option Vm :=
  (s.pageHeap.kfree ptr).map fun pageHeap => { s with pageHeap }

/-- `kmalloc_page` (`alloc.c:204-232`). -/
def kmallocPage (s : Vm) : Option (Scroll × Vm) := do
  let (pageVirt, pageHeap) ← s.pageHeap.kmallocAligned
  let s := { s with pageHeap }
  let failed : Scroll := ⟨0#32, 0#32, .failed, 0#32⟩
  if pageVirt = 0#32 then some (failed, s)
  else do
    let (pagePhys, s) ← s.kpageAlloc
    if pagePhys = 0#32 then some (failed, s)
    else do
      let s ← s.mapPage pageVirt pagePhys
      some (⟨pageVirt, pageSize, .aligned, pagePhys⟩, s)

/-- `scroll_unmap` (`scroll.c:5-10`). -/
def scrollUnmap (s : Vm) (scr : Scroll) : Option Vm :=
  if scr.type = .aligned then do
    let s ← s.kfree scr.vaddr
    s.unmapPage scr.page
  else some s

/-- Copies `n` entries from entry 512 of the active directory on. -/
def copyHigherHalf (s : Vm) (directory : BitVec 32) : Nat → Option Vm
  | 0 => some s
  | n + 1 => do
      let s ← s.copyHigherHalf directory n
      let entry ← s.load (elem loopbackDir (BitVec.ofNat 32 (512 + n)))
      s.store (elem directory (BitVec.ofNat 32 (512 + n))) entry

/-- Copies `n` entries from entry `start` of the active directory on. -/
def copyEntries (s : Vm) (directory : BitVec 32) (start : Nat) : Nat → Option Vm
  | 0 => some s
  | n + 1 => do
      let s ← s.copyEntries directory start n
      let entry ← s.load (elem loopbackDir (BitVec.ofNat 32 (start + n)))
      s.store (elem directory (BitVec.ofNat 32 (start + n))) entry

/-- Stores 0 in `n` entries from entry `start` on. -/
def clearEntries (s : Vm) (directory : BitVec 32) (start : Nat) : Nat → Option Vm
  | 0 => some s
  | n + 1 => do
      let s ← s.clearEntries directory start n
      s.store (elem directory (BitVec.ofNat 32 (start + n))) 0#32

/-- What `context_switch` finds on the stack of a new task (`paging.c:212-220`). The base of the
    stack is odd, so the words are not aligned. -/
def fillStack (s : Vm) (stack funcPtr : BitVec 32) : Option Vm := do
  let s ← s.storeUnaligned (stack - 4#32) funcPtr
  let s ← s.storeUnaligned (stack - 8#32) 0#32
  let s ← s.storeUnaligned (stack - 12#32) 0#32
  let s ← s.storeUnaligned (stack - 16#32) 0#32
  s.storeUnaligned (stack - 20#32) taskStackBase

/-- The table of a directory entry that is under construction (`paging.c:238-257`). -/
def allocTable (s : Vm) (directory directoryIndex : BitVec 32) : Option (BitVec 32 × Vm) := do
  let entry ← s.load (elem directory directoryIndex)
  if entry &&& manuscriptBind ≠ 0#32 then some (entry &&& addrMask, s)
  else do
    let (tableScr, s) ← s.kmallocPage
    let s ← s.store (elem directory directoryIndex)
      (createPagingEntry tableScr.vaddr true true true ||| manuscriptBind)
    let s ← s.clearWords tableScr.vaddr 1024
    some (tableScr.vaddr, s)

/-- The loop over the scrolls (`paging.c:237-262`). -/
def insertScrolls (s : Vm) (directory : BitVec 32) : List Scroll → Option Vm
  | [] => some s
  | scr :: scrolls => do
      let (table, s) ← s.allocTable directory (pgDirIdx scr.vaddr)
      let s ← s.store (elem table (pgTblIdx scr.vaddr))
        (createPagingEntry scr.page true true true)
      s.insertScrolls directory scrolls

/-- One round of the loop of `bind_manuscript` (`paging.c:174-187`). -/
def bindEntry (s : Vm) (manuscript i : BitVec 32) : Option Vm := do
  let entry ← s.load (elem manuscript i)
  if entry &&& manuscriptBind = 0#32 then some s
  else do
    let pageTable := entry &&& addrMask
    let tablePaddr ← s.getPageMapping pageTable
    let entry ← s.load (elem manuscript i)
    let s ← s.store (elem manuscript i) (entry &&& ~~~addrMask)
    let entry ← s.load (elem manuscript i)
    let s ← s.store (elem manuscript i) (entry ||| tablePaddr)
    let s ← s.kfree pageTable
    let s ← s.unmapPage pageTable
    let entry ← s.load (elem manuscript i)
    s.store (elem manuscript i) (entry &&& ~~~manuscriptBind)

/-- The first `n` rounds. -/
def bindEntries (s : Vm) (manuscript : BitVec 32) : Nat → Option Vm
  | 0 => some s
  | n + 1 => do
      let s ← s.bindEntries manuscript n
      s.bindEntry manuscript (BitVec.ofNat 32 n)

/-- `bind_manuscript` (`paging.c:173-190`). -/
def bindManuscript (s : Vm) (manuscript : BitVec 32) : Option Vm := do
  let s ← s.bindEntries manuscript 1024
  let s ← s.unmapPage manuscript
  s.kfree manuscript

/-- The scroll of the user stack, and the page behind it (`paging.c:227-235`). -/
def userStack (s : Vm) (user : Bool) : Option (List Scroll × Vm) :=
  if user then do
    let (page, s) ← s.kpageAlloc
    some ([⟨alignPgDown userStackBase, userStackSize, .aligned, page⟩], s)
  else some ([], s)

/-- `create_task_directory` (`paging.c:192-268`): the physical address of the directory. -/
def createTaskDirectory (s : Vm) (funcPtr : BitVec 32) (user : Bool) (scrolls : List Scroll) :
    Option (BitVec 32 × Vm) := do
  let (directoryScr, s) ← s.kmallocPage
  let directory := directoryScr.vaddr
  let s ← s.clearWords directory 512
  let s ← s.copyHigherHalf directory 512
  let s ← s.store (elem directory 1023#32)
    (createPagingEntry directoryScr.page true true false)
  let (stackScr, s) ← s.kmallocPage
  let s ← s.fillStack (stackScr.vaddr + taskStackBase % pageSize) funcPtr
  let s ← s.unmapPage stackScr.vaddr
  let s ← s.kfree stackScr.vaddr
  let stackScr := { stackScr with vaddr := alignPgDown taskStackBase }
  let (userScrs, s) ← s.userStack user
  let s ← s.insertScrolls directory (userScrs ++ stackScr :: scrolls)
  let s ← s.bindManuscript directory
  let s ← s.scrollUnmap directoryScr
  some (directoryScr.page, s)

/-- `create_kernel_directory` (`paging.c:270-334`): the lower half is copied, and there is no user
    stack. -/
def createKernelDirectory (s : Vm) (funcPtr : BitVec 32) (scrolls : List Scroll) :
    Option (BitVec 32 × Vm) := do
  let (directoryScr, s) ← s.kmallocPage
  let directory := directoryScr.vaddr
  let s ← s.copyEntries directory 0 512
  let s ← s.clearEntries directory 512 511
  let s ← s.store (elem directory 1023#32)
    (createPagingEntry directoryScr.page true true false)
  let (stackScr, s) ← s.kmallocPage
  let s ← s.fillStack (stackScr.vaddr + taskStackBase % pageSize) funcPtr
  let s ← s.unmapPage stackScr.vaddr
  let s ← s.kfree stackScr.vaddr
  let stackScr := { stackScr with vaddr := alignPgDown taskStackBase }
  let s ← s.insertScrolls directory (stackScr :: scrolls)
  let s ← s.bindManuscript directory
  let s ← s.scrollUnmap directoryScr
  some (directoryScr.page, s)

end Vm

end Muse.Paging
