import Muse.Library.Mmu
import Muse.Memory.PageHeap

/-!
# Page tables

The functions of `src/common/paging.c` that edit the active page tables. Every access goes through
the active directory: `LOOPBACK_DIR` and `LOOPBACK_TBL` are addresses in the window that its
last entry opens, and so is the pointer through which a new table is cleared. A function
whose access faults does not return (`process_page_fault` halts).

`kpage_alloc` is the list `freePages` of the pages it returns next, without any assumption
on their contents. The `invlpg` instructions are left out, as translations are not cached here.
-/

namespace Muse.Paging

open Muse.Library

/-- `PAGE_SIZE`. -/
def pageSize : BitVec 32 := 4096#32

/-- `ADDR_MASK`. -/
def addrMask : BitVec 32 := 0xFFFFF000#32

/-- `PAGING_BIT_PRESENT`. -/
def pagingBitPresent : BitVec 32 := 1#32

/-- `PAGING_BIT_WRITEABLE`. -/
def pagingBitWriteable : BitVec 32 := 2#32

/-- `PAGING_BIT_USER`. -/
def pagingBitUser : BitVec 32 := 4#32

/-- `PG_DIR_IDX`. -/
def pgDirIdx (x : BitVec 32) : BitVec 32 := x >>> 22

/-- `PG_TBL_IDX`. -/
def pgTblIdx (x : BitVec 32) : BitVec 32 := (x >>> 12) &&& 0x3FF#32

/-- `LOOPBACK_DIR`. -/
def loopbackDir : BitVec 32 := 0xFFFFF000#32

/-- `LOOPBACK_TBL`. -/
def loopbackTbl (i : BitVec 32) : BitVec 32 := 0xFFC00000#32 + (i <<< 12)

/-- The address of element `i` of an array of words. -/
def elem (base i : BitVec 32) : BitVec 32 := base + 4#32 * i

/-- `ALIGN_PG_DOWN`. -/
def alignPgDown (x : BitVec 32) : BitVec 32 := x - x % pageSize

/-- `ALIGN_PG_UP`. -/
def alignPgUp (x : BitVec 32) : BitVec 32 :=
  if 0#32 < x % pageSize then alignPgDown x + pageSize else x

/-! ## Entries -/

/-- `set_present` (`paging.c:22-27`). -/
def setPresent (entry : BitVec 32) (present : Bool) : BitVec 32 :=
  if present then entry ||| pagingBitPresent else entry &&& ~~~pagingBitPresent

/-- `set_writeable` (`paging.c:29-34`). -/
def setWriteable (entry : BitVec 32) (writeable : Bool) : BitVec 32 :=
  if writeable then entry ||| pagingBitWriteable else entry &&& ~~~pagingBitWriteable

/-- `set_addr` (`paging.c:36-38`). -/
def setAddr (entry addr : BitVec 32) : BitVec 32 :=
  (entry &&& ~~~addrMask) ||| (addr &&& addrMask)

/-- `set_user` (`paging.c:40-45`). -/
def setUser (entry : BitVec 32) (user : Bool) : BitVec 32 :=
  if user then entry ||| pagingBitUser else entry &&& ~~~pagingBitUser

/-- `create_paging_entry` (`paging.c:47-52`). -/
def createPagingEntry (addr : BitVec 32) (present writeable user : Bool) : BitVec 32 :=
  setUser (setWriteable (setPresent (setAddr 0#32 addr) present) writeable) user

/-- `is_present` (`paging.c:54`). -/
def isPresent (entry : BitVec 32) : Bool := entry &&& pagingBitPresent ≠ 0#32

/-! ## Editing the active tables -/

/-- The machine as the page tables see it: the address space, the pages that `kpage_alloc`
    returns next, and the pages of the kernel heap. -/
structure Vm where
  space : Space
  freePages : List (BitVec 20)
  pageHeap : Memory.PageHeap

/-- The address of a frame. -/
def pageAddr (f : BitVec 20) : BitVec 32 := f.setWidth 32 <<< 12

namespace Vm

def load (s : Vm) (v : BitVec 32) : Option (BitVec 32) := s.space.load v

def store (s : Vm) (v x : BitVec 32) : Option Vm :=
  (s.space.store v x).map fun space => { s with space }

/-- `kpage_alloc`; out of memory, the kernel halts. -/
def kpageAlloc (s : Vm) : Option (BitVec 32 × Vm) :=
  match s.freePages with
  | [] => none
  | t :: ts => some (pageAddr t, { s with freePages := ts })

/-- Stores 0 in the first `n` words from `table` on. -/
def clearWords (s : Vm) (table : BitVec 32) : Nat → Option Vm
  | 0 => some s
  | n + 1 => do
      let s ← s.clearWords table n
      s.store (elem table (BitVec.ofNat 32 n)) 0#32

/-- `check_or_insert_table_structure` (`paging.c:60-73`). -/
def checkOrInsertTableStructure (s : Vm) (directory addr : BitVec 32) (user : Bool) :
    Option (BitVec 32 × Vm) := do
  let index := pgDirIdx addr
  let entry ← s.load (elem directory index)
  if isPresent entry then
    some (index, s)
  else do
    let (table, s) ← s.kpageAlloc
    let s ← s.clearWords table 1024
    let s ← s.store (elem directory index) (createPagingEntry table true true user)
    some (index, s)

/-- `modify_or_insert_page_structure` (`paging.c:79-88`). -/
def modifyOrInsertPageStructure (s : Vm) (table vaddr paddr : BitVec 32) (user : Bool) :
    Option (Bool × Vm) := do
  let index := pgTblIdx vaddr
  let entry ← s.load (elem table index)
  if isPresent entry then do
    let s ← s.store (elem table index) (setAddr entry paddr)
    some (true, s)
  else do
    let s ← s.store (elem table index) (createPagingEntry paddr true true user)
    some (false, s)

/-- `map_page` (`paging.c:98-104`). -/
def mapPage (s : Vm) (vaddr paddr : BitVec 32) : Option Vm := do
  let (index, s) ← s.checkOrInsertTableStructure loopbackDir vaddr true
  let (_, s) ← s.modifyOrInsertPageStructure (loopbackTbl index) vaddr paddr true
  some s

/-- `unmap_page` (`paging.c:106-115`). -/
def unmapPage (s : Vm) (vaddr : BitVec 32) : Option Vm := do
  let directoryIdx := pgDirIdx vaddr
  let entry ← s.load (elem loopbackDir directoryIdx)
  if !isPresent entry then some s
  else s.store (elem (loopbackTbl directoryIdx) (pgTblIdx vaddr)) 0#32

/-- `get_page_entry` (`paging.c:125-128`). -/
def getPageEntry (s : Vm) (vaddr : BitVec 32) : Option (BitVec 32) :=
  s.load (elem (loopbackTbl (pgDirIdx vaddr)) (pgTblIdx vaddr))

/-- `get_page_mapping` (`paging.c:130-140`). -/
def getPageMapping (s : Vm) (vaddr : BitVec 32) : Option (BitVec 32) := do
  let dirEntry ← s.load (elem loopbackDir (pgDirIdx vaddr))
  if !isPresent dirEntry then some 0#32
  else do
    let entry ← s.getPageEntry vaddr
    if !isPresent entry then some 0#32
    else some (entry &&& addrMask)

/-- `check_user` (`paging.c:142-145`). -/
def checkUser (s : Vm) (vaddr : BitVec 32) : Option Bool := do
  let entry ← s.getPageEntry vaddr
  some (isPresent entry && entry &&& pagingBitUser ≠ 0#32)

end Vm

end Muse.Paging
