import Muse.Paging.TaskDirectory

/-!
# The first directory

`init_paging` of `src/common/paging.c` builds the directory of the reserved scrolls before paging is
on, so that every pointer is a physical address. The editing functions are those of
`Muse.Paging.Map`, here over physical memory.
-/

namespace Muse.Paging

open Muse.Library

/-- The machine before paging is on: its memory, and the pages that `kpage_alloc` returns next. -/
structure Phys where
  mem : PhysMem
  freePages : List (BitVec 20)

namespace Phys

def load (s : Phys) (a : BitVec 32) : BitVec 32 := s.mem (pageOf a) (wordIdx a)

def store (s : Phys) (a x : BitVec 32) : Phys :=
  { s with mem := s.mem.write (pageOf a) (wordIdx a) x }

/-- `kpage_alloc`; out of memory, the kernel halts. -/
def kpageAlloc (s : Phys) : Option (BitVec 32 × Phys) :=
  match s.freePages with
  | [] => none
  | t :: ts => some (pageAddr t, { s with freePages := ts })

/-- Stores 0 in the first `n` words from `table` on. -/
def clearWords (s : Phys) (table : BitVec 32) : Nat → Phys
  | 0 => s
  | n + 1 => (s.clearWords table n).store (elem table (BitVec.ofNat 32 n)) 0#32

/-- `check_or_insert_table_structure` (`paging.c:60-73`). -/
def checkOrInsertTableStructure (s : Phys) (directory addr : BitVec 32) (user : Bool) :
    Option (BitVec 32 × Phys) :=
  let index := pgDirIdx addr
  if isPresent (s.load (elem directory index)) then
    some (index, s)
  else do
    let (table, s) ← s.kpageAlloc
    let s := s.clearWords table 1024
    some (index, s.store (elem directory index) (createPagingEntry table true true user))

/-- `modify_or_insert_page_structure` (`paging.c:79-88`). -/
def modifyOrInsertPageStructure (s : Phys) (table vaddr paddr : BitVec 32) (user : Bool) :
    Bool × Phys :=
  let index := pgTblIdx vaddr
  let entry := s.load (elem table index)
  if isPresent entry then
    (true, s.store (elem table index) (setAddr entry paddr))
  else
    (false, s.store (elem table index) (createPagingEntry paddr true true user))

/-- `map_page_inactive` (`paging.c:90-96`). -/
def mapPageInactive (s : Phys) (directory vaddr paddr : BitVec 32) : Option Phys := do
  let (index, s) ← s.checkOrInsertTableStructure directory vaddr true
  let table := s.load (elem directory index) &&& addrMask
  some (s.modifyOrInsertPageStructure table vaddr paddr false).2

/-- `map_page_range_inactive` (`paging.c:117-123`). -/
def mapPageRangeInactive (s : Phys) (directory vaddr paddr : BitVec 32) : Nat → Option Phys
  | 0 => some s
  | pages + 1 => do
      let s ← s.mapPageRangeInactive directory vaddr paddr pages
      let offset := BitVec.ofNat 32 pages * pageSize
      s.mapPageInactive directory (vaddr + offset) (paddr + offset)

/-- The loop over the scrolls (`paging.c:159-164`). -/
def mapScrolls (s : Phys) (directory : BitVec 32) : List Scroll → Option Phys
  | [] => some s
  | scr :: scrolls => do
      let s ← s.mapPageRangeInactive directory scr.vaddr scr.page (scr.size / pageSize).toNat
      s.mapScrolls directory scrolls

/-- `init_paging` (`paging.c:154-171`): the address of the directory, which is active then. -/
def initPaging (s : Phys) (scrolls : List Scroll) : Option (BitVec 32 × Phys) := do
  let (directory, s) ← s.kpageAlloc
  let s := s.clearWords directory 1024
  let s ← s.mapScrolls directory scrolls
  some (directory, s.store (elem directory 1023#32) (createPagingEntry directory true true true))

end Phys

/-! ## What the directory is to show -/

/-- The address belongs to the scroll. -/
def Scroll.Covers (scr : Scroll) (v : BitVec 32) : Prop :=
  scr.vaddr.toNat ≤ v.toNat ∧ v.toNat < scr.vaddr.toNat + scr.size.toNat

instance (scr : Scroll) (v : BitVec 32) : Decidable (scr.Covers v) :=
  inferInstanceAs (Decidable (_ ∧ _))

/-- The last scroll in the order of the list that the address belongs to. -/
def lastCovering (scrolls : List Scroll) (v : BitVec 32) : Option Scroll :=
  scrolls.reverse.find? fun scr => decide (scr.Covers v)

/-- A scroll of whole pages below the window of the tables. -/
structure Scroll.Paged (scr : Scroll) : Prop where
  vaddr : scr.vaddr.toNat % 4096 = 0
  page : scr.page.toNat % 4096 = 0
  size : scr.size.toNat % 4096 = 0
  below : scr.vaddr.toNat + scr.size.toNat ≤ 0xFFC00000

/-- The page is mapped and can be written to: both of its entries say so. -/
def Writeable (s : Space) (v : BitVec 32) : Prop :=
  s.pde v &&& pagingBitWriteable ≠ 0#32 ∧ s.pte v &&& pagingBitWriteable ≠ 0#32

/-- Below its window, the address space shows the scrolls and nothing else; the window is open. -/
structure ShowsScrolls (s : Space) (scrolls : List Scroll) : Prop where
  covered : ∀ v scr, v < 0xFFC00000#32 → lastCovering scrolls v = some scr →
    s.frameOf v = some (pageOf (scr.page + (v - scr.vaddr))) ∧ Writeable s v
  rest : ∀ v, v < 0xFFC00000#32 → lastCovering scrolls v = none → s.frameOf v = none
  selfMapped : s.SelfMapped

end Muse.Paging
