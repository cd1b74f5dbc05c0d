import Mathlib.Algebra.Group.Nat.Defs
import Muse.Library.BitArray

/-!
# Pages of the kernel heap

The part of `struct heap` (`include/muse/alloc.h`) that hands out whole virtual pages: the
page `n` of the heap is `aligned_start + n * PAGE_SIZE`, and bit `n % 32` of word `n / 32` of
`page_bitmap` is set once the page was handed out.
-/

namespace Muse.Memory

open Muse.Library

/-- The fields of `struct heap` for page-sized chunks. -/
structure PageHeap where
  pageBitmap : Nat → BitVec 32
  bitmapCnt : Nat
  alignedStart : BitVec 32

namespace PageHeap

/-- Sets the bit of page `n`. -/
def mark (h : PageHeap) (n : Nat) : PageHeap :=
  { h with
    pageBitmap := Function.update h.pageBitmap (n / 32)
      (h.pageBitmap (n / 32) ||| (1#32 <<< (n % 32))) }

/-- `kmalloc_aligned` (`alloc.c:146-165`). When no page is left, the kernel halts. -/
def kmallocAligned (h : PageHeap) : Option (BitVec 32 × PageHeap) :=
  match (List.range (h.bitmapCnt * 32)).find?
      fun n => h.pageBitmap (n / 32) >>> (n % 32) = 0#32 with
  | some n => some (h.alignedStart + BitVec.ofNat 32 n * 4096#32, h.mark n)
  | none => none

/-- The loops of `kmalloc_aligned_multi` (`alloc.c:171-184`), with `left` pages to look at from page
    `n` on and `contig` clear bits right before it. The result is `contig`, `i` and `j` where they
    stop; `j` is 32 after the last page. -/
def findRun (h : PageHeap) (cnt : Nat) : Nat → Nat → Nat → Nat × Nat × Nat
  | 0, _, contig => (contig, h.bitmapCnt, 32)
  | left + 1, n, contig =>
      if contig = cnt then (contig, n / 32, n % 32)
      else if (h.pageBitmap (n / 32) >>> (n % 32)) &&& 1#32 = 0#32 then
        h.findRun cnt left (n + 1) (contig + 1)
      else h.findRun cnt left (n + 1) 0

/-- Sets the bits of `cnt` pages from `start` on. -/
def markRange (h : PageHeap) (start : Nat) : Nat → PageHeap
  | 0 => h
  | cnt + 1 => (h.markRange start cnt).mark (start + cnt)

/-- `kmalloc_aligned_multi` (`alloc.c:167-197`). The sums and differences are 32-bit ones. -/
def kmallocAlignedMulti (h : PageHeap) (cnt : BitVec 32) : Option (BitVec 32 × PageHeap) :=
  let (contig, i, j) := h.findRun cnt.toNat (h.bitmapCnt * 32) 0 0
  if contig = cnt.toNat then
    let jOld := (j + 2 ^ 32 - cnt.toNat) % 2 ^ 32 % 32
    let offset := (i * 32 + j + 2 ^ 32 - cnt.toNat) % 2 ^ 32
    let iOld := offset / 32
    some (h.alignedStart + BitVec.ofNat 32 (iOld * 32 + jOld) * 4096#32,
      h.markRange offset ((i * 32 + j) % 2 ^ 32 - offset))
  else none

/-- The page path of `kfree` (`alloc.c:122-131`); it sets the bit of the page again. A
    pointer outside the pages is not one that `kmalloc_aligned` returned. -/
def kfree (h : PageHeap) (ptr : BitVec 32) : Option PageHeap :=
  let offset := ptr - h.alignedStart
  if h.alignedStart ≤ ptr ∧ offset < BitVec.ofNat 32 h.bitmapCnt * 32#32 * 4096#32 then
    some (h.mark (offset.toNat / 4096))
  else none

/-! ## Marked pages -/

/-- Page `n` was handed out. -/
def Marked (h : PageHeap) (n : Nat) : Prop := bitAt h.pageBitmap n = true

instance (h : PageHeap) (n : Nat) : Decidable (h.Marked n) := inferInstanceAs (Decidable (_ = _))

theorem mark_marked_iff (h : PageHeap) (n m : Nat) :
    (h.mark n).Marked m ↔ m = n ∨ h.Marked m := by
  have := bitAt_setBitAt (by decide : 0 < 32) h.pageBitmap n m
  rw [setBitAt] at this
  simp only [Marked, mark, this, Bool.or_eq_true, decide_eq_true_eq]

/-- `kmalloc_aligned` returns a page that was not handed out yet. -/
theorem kmallocAligned_spec {h h' : PageHeap} {v : BitVec 32}
    (hs : h.kmallocAligned = some (v, h')) :
    ∃ n < h.bitmapCnt * 32, ¬ h.Marked n ∧
      v = h.alignedStart + BitVec.ofNat 32 n * 4096#32 ∧ h' = h.mark n := by
  unfold kmallocAligned at hs
  split at hs
  · next n hn =>
      obtain ⟨rfl, rfl⟩ := Prod.mk.inj (Option.some.inj hs)
      have hmem := List.mem_of_find?_eq_some hn
      have hfound := List.find?_some hn
      have hzero : h.pageBitmap (n / 32) >>> (n % 32) = 0#32 := of_decide_eq_true hfound
      refine ⟨n, by simpa using hmem, ?_, rfl, rfl⟩
      rw [Marked, bitAt, getLsbD_eq_false_of_ushiftRight hzero]
      simp
  · cases hs

/-- `kmalloc_aligned` takes the first page it can, so one at or before `k` if it can take `k`. -/
theorem kmallocAligned_le {h h' : PageHeap} {v : BitVec 32} {k : Nat}
    (hfree : h.pageBitmap (k / 32) >>> (k % 32) = 0#32)
    (hs : h.kmallocAligned = some (v, h')) :
    ∃ n ≤ k, v = h.alignedStart + BitVec.ofNat 32 n * 4096#32 ∧ h' = h.mark n := by
  unfold kmallocAligned at hs
  split at hs
  · next n hn =>
      obtain ⟨rfl, rfl⟩ := Prod.mk.inj (Option.some.inj hs)
      refine ⟨n, ?_, rfl, rfl⟩
      obtain ⟨-, i, hi, rfl, hbefore⟩ := List.find?_eq_some_iff_getElem.mp hn
      simp only [List.getElem_range] at hbefore ⊢
      by_contra hlt
      have := hbefore k (by omega)
      simp [hfree] at this
  · cases hs

/-- The next page if only the first `i` pages may have been handed out, all in the first word of the
    bitmap. -/
theorem kmallocAligned_first {h : PageHeap} {i : Nat} (hi : i < 32) (hcnt : 0 < h.bitmapCnt)
    (hfree : h.pageBitmap 0 >>> i = 0#32) :
    ∃ n ≤ i, h.kmallocAligned = some (h.alignedStart + BitVec.ofNat 32 n * 4096#32, h.mark n) ∧
      (h.mark n).pageBitmap 0 >>> (i + 1) = 0#32 := by
  have hword : h.pageBitmap (i / 32) >>> (i % 32) = 0#32 := by
    rwa [Nat.div_eq_of_lt hi, Nat.mod_eq_of_lt hi]
  obtain ⟨⟨v, h'⟩, hs⟩ : ∃ p, h.kmallocAligned = some p := by
    rw [kmallocAligned]
    split
    · exact ⟨_, rfl⟩
    · next hnone =>
        have := List.find?_eq_none.mp hnone i (List.mem_range.mpr (by omega))
        simp [hword] at this
  obtain ⟨n, hn, rfl, rfl⟩ := kmallocAligned_le hword hs
  refine ⟨n, hn, hs, ?_⟩
  have hdiv : n / 32 = 0 := Nat.div_eq_of_lt (by omega)
  have hmod : n % 32 = n := Nat.mod_eq_of_lt (by omega)
  rw [mark, hdiv, hmod]
  simp only [Function.update_self]
  rw [BitVec.ushiftRight_or_distrib, BitVec.shiftRight_add, hfree, BitVec.zero_ushiftRight,
    BitVec.zero_or]
  apply BitVec.eq_of_getLsbD_eq
  intro j _
  rw [BitVec.getLsbD_ushiftRight, getLsbD_one_shiftLeft _ (by omega), BitVec.getLsbD_zero,
    decide_eq_false]
  omega

/-- Marking a page again changes nothing. -/
theorem mark_of_marked {h : PageHeap} {n : Nat} (hn : h.Marked n) : h.mark n = h := by
  have hword : h.pageBitmap (n / 32) ||| (1#32 <<< (n % 32)) = h.pageBitmap (n / 32) := by
    apply BitVec.eq_of_getLsbD_eq
    intro i _
    rw [BitVec.getLsbD_or, getLsbD_one_shiftLeft _ (Nat.mod_lt _ (by decide))]
    by_cases hi : i = n % 32
    · subst hi
      rw [show (h.pageBitmap (n / 32)).getLsbD (n % 32) = true from hn]
      simp
    · simp [hi]
  rw [mark, hword, Function.update_eq_self]

/-- `kfree` of a page that was handed out leaves the heap as it is: the page stays marked. -/
theorem kfree_of_marked {h : PageHeap} {ptr : BitVec 32} {n : Nat}
    (hlimit : h.alignedStart.toNat + h.bitmapCnt * 131072 < 2 ^ 32) (hn : n < h.bitmapCnt * 32)
    (hptr : ptr.toNat = h.alignedStart.toNat + 4096 * n) (hmark : h.Marked n) :
    h.kfree ptr = some h := by
  have hoff : (ptr - h.alignedStart).toNat = 4096 * n := by
    rw [BitVec.toNat_sub]
    omega
  have hcond : h.alignedStart ≤ ptr ∧
      ptr - h.alignedStart < BitVec.ofNat 32 h.bitmapCnt * 32#32 * 4096#32 := by
    rw [BitVec.le_def, BitVec.lt_def, hoff, BitVec.toNat_mul, BitVec.toNat_mul,
      BitVec.toNat_ofNat, BitVec.toNat_ofNat, BitVec.toNat_ofNat]
    omega
  have hpage : (ptr - h.alignedStart).toNat / 4096 = n := by omega
  simp only [kfree, if_pos hcond, hpage, mark_of_marked hmark]

end PageHeap

end Muse.Memory
