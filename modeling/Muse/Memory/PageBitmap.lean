import Mathlib.Algebra.Group.Nat.Defs
import Muse.Library.BitArray

/-!
# Physical pages

`kpage_alloc` and `kpage_set_status` of `src/common/memory.c` over the region table of
`struct trampoline_info` (`include/muse/trampoline.h`). Page `k` of a region is the address
`addr + k * PAGE_SIZE`, and its status is bit `k` of the region's bitmap, which starts at
the byte `bitmap` of the memory. Addresses and page counts are 32-bit words: the end of a
region is computed modulo `2 ^ 32`. The bitmaps are addressed by natural numbers, since
they sit at the bottom of memory.

`bitmap_lock` is held throughout both functions, so they are atomic.
-/

namespace Muse.Memory

/-- `PAGE_SIZE` (`include/muse/paging.h`). -/
def pageSize : Nat := 4096

/-- `struct trampoline_region`. -/
structure Region where
  addr : Nat
  pgCnt : Nat
  bitmap : Nat
  deriving DecidableEq, Repr

namespace Region

/-- `addr + pg_cnt * PAGE_SIZE`, a 32-bit sum. -/
def high (r : Region) : Nat := (r.addr + r.pgCnt * pageSize) % 2 ^ 32

/-- Page `k` of the region. -/
def page (r : Region) (k : Nat) : Nat := r.addr + k * pageSize

/-- The bit of the memory that holds the status of page `k`. -/
def bit (r : Region) (k : Nat) : Nat := 8 * r.bitmap + k

end Region

/-- The inner loop of `kpage_alloc` (`memory.c:43-55`). The address grows by a page a round
    and stays below `2 ^ 32`, so `2 ^ 20` rounds are enough. -/
def scan (mem : Nat → BitVec 8) (r : Region) : Nat → Nat → Nat → Option (Nat × Nat)
  | 0, _, _ => none
  | fuel + 1, addr, idx =>
      if addr < r.high then
        if mem (r.bitmap + idx / 8) >>> (idx % 8) = 0#8 then some (addr, idx)
        else scan mem r fuel ((addr + pageSize) % 2 ^ 32) (idx + 1)
      else none

/-- `kpage_alloc` (`memory.c:38-60`): the page and the memory afterwards. Out of memory, the
    kernel halts. -/
def kpageAlloc (mem : Nat → BitVec 8) : List Region → Option (Nat × (Nat → BitVec 8))
  | [] => none
  | r :: rs =>
      match scan mem r (2 ^ 20 + 1) r.addr 0 with
      | some (addr, idx) =>
          let byte := r.bitmap + idx / 8
          some (addr, Function.update mem byte (mem byte ||| (1#8 <<< (idx % 8))))
      | none => kpageAlloc mem rs

/-- The region that `kpage_set_status` takes `addr` to lie in (`memory.c:64-67`). -/
def findRegion (regions : List Region) (addr : Nat) : Option Region :=
  regions.find? fun r => decide (r.addr ≤ addr ∧ addr ≤ r.high)

/-- `kpage_set_status` (`memory.c:62-80`). -/
def kpageSetStatus (mem : Nat → BitVec 8) (regions : List Region) (addr : Nat) (free : Bool) :
    Nat → BitVec 8 :=
  match findRegion regions addr with
  | some r =>
      let idx := (addr - r.addr) / pageSize
      let byte := r.bitmap + idx / 8
      if free then Function.update mem byte (mem byte &&& ~~~(1#8 <<< (idx % 8)))
      else Function.update mem byte (mem byte ||| (1#8 <<< (idx % 8)))
  | none => mem

/-- The bitmaps of `init_memory` (`memory.c:95-103`): they follow each other from `limit` on,
    with `pg_cnt / 8` bytes each. -/
def layout : Nat → List (Nat × Nat) → List Region
  | _, [] => []
  | limit, (addr, pgCnt) :: rs => ⟨addr, pgCnt, limit⟩ :: layout (limit + pgCnt / 8) rs

/-- The loop of `init_memory` over the regions clears every byte of every bitmap. -/
def clearBitmaps (mem : Nat → BitVec 8) (regions : List Region) : Nat → BitVec 8 :=
  fun b => if ∃ r ∈ regions, r.bitmap ≤ b ∧ b < r.bitmap + r.pgCnt / 8 then 0#8 else mem b

/-! ## Runs -/

/-- The memory with the bitmaps, and the pages that are allocated or reserved. -/
structure Pages where
  mem : Nat → BitVec 8
  held : List Nat

inductive Op where
  | alloc
  | reserve (addr : Nat)
  | free (addr : Nat)
  deriving DecidableEq, Repr

/-- One call; `kpage_set_status(a, false)` reserves and `kpage_set_status(a, true)` frees. -/
def step (regions : List Region) (s : Pages) : Op → Option Pages
  | .alloc => (kpageAlloc s.mem regions).map fun p => ⟨p.2, p.1 :: s.held⟩
  | .reserve addr => some ⟨kpageSetStatus s.mem regions addr false, addr :: s.held⟩
  | .free addr =>
      some ⟨kpageSetStatus s.mem regions addr true, s.held.filter fun a => a ≠ addr⟩

/-- A page of a region may be reserved, and a page may be freed while it is allocated or
    reserved. -/
def Allowed (regions : List Region) (s : Pages) : Op → Prop
  | .alloc => True
  | .reserve addr => ∃ r ∈ regions, ∃ k < r.pgCnt, addr = r.page k
  | .free addr => addr ∈ s.held

instance (regions : List Region) (s : Pages) : ∀ op, Decidable (Allowed regions s op)
  | .alloc => inferInstanceAs (Decidable True)
  | .reserve _ => inferInstanceAs (Decidable (∃ r ∈ _, ∃ k < _, _ = _))
  | .free _ => inferInstanceAs (Decidable (_ ∈ _))

/-- The page that `kpage_alloc` hands out next is neither allocated nor reserved. -/
def HandsOutFree (regions : List Region) (s : Pages) : Prop :=
  ∀ a mem, kpageAlloc s.mem regions = some (a, mem) → a ∉ s.held

end Muse.Memory
