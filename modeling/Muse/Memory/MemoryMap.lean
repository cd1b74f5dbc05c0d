import Muse.Memory.PageBitmap

/-!
# The memory map of the boot loader

The loop of `trampoline_main` (`src/trampoline/trampoline.c:46-68`) copies the available entries of
the multiboot memory map to `t_info->regions`. Addresses and lengths of the map are 64-bit words,
those of the region table are 32-bit words. The map is the list of the entries that the walk in
steps of `entry_size` meets.
-/

namespace Muse.Memory

/-- `MMAP_CNT` (`include/muse/trampoline.h`). -/
def mmapCnt : Nat := 16

/-- `MULTIBOOT_MEMORY_AVAILABLE` (`include/muse/multiboot.h`). -/
def multibootMemoryAvailable : BitVec 32 := 1

/-- `struct multiboot_mmap_entry`. -/
structure MmapEntry where
  addr : BitVec 64
  len : BitVec 64
  type : BitVec 32
  deriving DecidableEq, Repr

namespace MmapEntry

/-- The address as `struct trampoline_region` stores it. -/
def regionAddr (e : MmapEntry) : Nat := (e.addr.setWidth 32).toNat

/-- `entry->len / PAGE_SIZE` as `struct trampoline_region` stores it. -/
def regionPgCnt (e : MmapEntry) : Nat := ((e.len / 4096#64).setWidth 32).toNat

/-- The memory that the entry describes. -/
def Holds (e : MmapEntry) (a : Nat) : Prop :=
  e.addr.toNat ≤ a ∧ a < e.addr.toNat + e.len.toNat

end MmapEntry

/-- `regions` and `region_cnt` of `struct trampoline_info`. -/
structure RegionTable where
  regions : Vector Region mmapCnt
  regionCnt : Nat

/-- The regions that are in use. -/
def RegionTable.recorded (t : RegionTable) : List Region :=
  t.regions.toList.take t.regionCnt

/-- The loop (`trampoline.c:50-68`). A write behind the end of `regions` has no result. -/
def mmapLoop (t : RegionTable) : List MmapEntry → Option RegionTable
  | [] => some t
  | entry :: entries =>
      if entry.type = multibootMemoryAvailable then
        if h : t.regionCnt < mmapCnt then
          let region := { t.regions[t.regionCnt] with
            addr := entry.regionAddr
            pgCnt := entry.regionPgCnt }
          let t' : RegionTable := ⟨t.regions.set t.regionCnt region, t.regionCnt + 1⟩
          if t.regionCnt = mmapCnt then some t' else mmapLoop t' entries
        else none
      else mmapLoop t entries

/-- The loop with its initialization (`trampoline.c:49-68`). -/
def takeMmap (t : RegionTable) (entries : List MmapEntry) : Option RegionTable :=
  mmapLoop { t with regionCnt := 0 } entries

/-- The entries that the loop records. -/
def available (entries : List MmapEntry) : List MmapEntry :=
  entries.filter fun e => e.type = multibootMemoryAvailable

/-- No address lies in two entries. -/
def MmapEntry.Apart (e f : MmapEntry) : Prop := ∀ a, ¬ (e.Holds a ∧ f.Holds a)

/-- No address lies in two regions. -/
def Region.Apart (r s : Region) : Prop :=
  ∀ a, ¬ ((r.addr ≤ a ∧ a < r.page r.pgCnt) ∧ (s.addr ≤ a ∧ a < s.page s.pgCnt))

/-- Page `k` of the region is a page of physical memory that one entry describes. -/
def Region.Backed (entries : List MmapEntry) (r : Region) (k : Nat) : Prop :=
  pageSize ∣ r.page k ∧ r.page k + pageSize ≤ 2 ^ 32 ∧
    ∃ e ∈ available entries, e.addr.toNat ≤ r.page k ∧
      r.page k + pageSize ≤ e.addr.toNat + e.len.toNat

/-- What the page allocator takes from the region table. -/
structure TakenOver (entries : List MmapEntry) (t : RegionTable) : Prop where
  count : t.regionCnt ≤ mmapCnt
  apart : t.recorded.Pairwise Region.Apart
  backed : ∀ r ∈ t.recorded, ∀ k < r.pgCnt, r.Backed entries k

end Muse.Memory
