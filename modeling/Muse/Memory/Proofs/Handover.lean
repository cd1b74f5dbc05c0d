import Muse.Memory.Handover
import Muse.Memory.Proofs.HandOut
import Muse.Memory.Proofs.TierLists

/-!
# When the hand-over preserves the bitmaps

The copy of a bitmap has `pg_cnt / 8` bytes. With whole bytes only, every bit that `kpage_alloc`
reads is copied after the last page was taken for the copy itself. Otherwise the last bits of a
region are read from whatever follows the copy.
-/

namespace Muse.Memory

open Muse.Library

/-! ## The layout of the bitmaps -/

theorem layout_getElem? (limit : Nat) (table : List (Nat × Nat)) (i : Nat) :
    ((layout limit table)[i]?).map Region.pgCnt = (table[i]?).map Prod.snd := by
  induction table generalizing limit i with
  | nil => rfl
  | cons r table ih =>
      cases i with
      | zero => rfl
      | succ i => exact ih (limit + r.2 / 8) i

namespace Handover

/-! ## Bits and bytes -/

theorem allocated_iff (mem : Bytes) (r : Region) (k : Nat) :
    Allocated mem r k ↔ (mem (r.bitmap + k / 8)).getLsbD (k % 8) = true := by
  obtain ⟨hbyte, hbit⟩ := byte_of_bit r.bitmap k
  rw [Allocated, bitAt, Region.bit, hbyte, hbit]

/-- The status of the pages of a region depends on the bytes of its bitmap. -/
theorem allocated_congr {mem mem' : Bytes} {r r' : Region} {k : Nat}
    (h : mem' (r'.bitmap + k / 8) = mem (r.bitmap + k / 8)) :
    Allocated mem' r' k ↔ Allocated mem r k := by
  rw [allocated_iff, allocated_iff, h]

theorem memcpy_outside {mem : Bytes} {dst src a : Nat} :
    ∀ {size : Nat}, a < dst ∨ dst + size ≤ a → memcpy mem dst src size a = mem a
  | 0, _ => rfl
  | size + 1, h => by
      rw [memcpy, Function.update_of_ne (by omega)]
      exact memcpy_outside (by omega)

/-- A copy to bytes behind the source shows the source. -/
theorem memcpy_inside {mem : Bytes} {dst src i : Nat} :
    ∀ {size : Nat}, src + size ≤ dst → i < size →
      memcpy mem dst src size (dst + i) = mem (src + i)
  | 0, _, hi => by omega
  | size + 1, happ, hi => by
      rw [memcpy]
      by_cases hlast : i = size
      · rw [hlast, Function.update_self]
        exact memcpy_outside (by omega)
      · rw [Function.update_of_ne (by omega)]
        exact memcpy_inside (by omega) (by omega)

theorem setWord32_outside {mem : Bytes} {p a : Nat} {x : BitVec 32} (h : a < p ∨ p + 4 ≤ a) :
    mem.setWord32 p x a = mem a :=
  Bytes.splice_of_not_mem h

/-- The page that `kpage_alloc` finds, and the bit that it sets. -/
theorem foundPage_spec {mem mem' : Bytes} {a : Nat} :
    ∀ {regions : List Region} (i : Nat), Memory.kpageAlloc mem regions = some (a, mem') →
      ∃ j r d, foundPage mem regions i = some (i + j, d) ∧ regions[j]? = some r ∧ d < r.pgCnt ∧
        mem' = setBitAt mem (r.bit d)
  | [], i, h => by simp [Memory.kpageAlloc] at h
  | r :: rs, i, h => by
      rw [Memory.kpageAlloc] at h
      rw [foundPage]
      cases hscan : scan mem r (2 ^ 20 + 1) r.addr 0 with
      | some p =>
          obtain ⟨addr, idx⟩ := p
          simp only [hscan, Option.some.injEq, Prod.mk.injEq] at h
          have hstart : r.addr = r.page 0 := by simp [Region.page]
          rw [hstart] at hscan
          obtain ⟨hidx, -, -⟩ := scan_spec _ _ hscan
          obtain ⟨hbyte, hbit⟩ := byte_of_bit r.bitmap idx
          refine ⟨0, r, idx, rfl, rfl, hidx, ?_⟩
          rw [← h.2, setBitAt, Region.bit, hbyte, hbit]
      | none =>
          simp only [hscan] at h
          obtain ⟨j, r', d, hfound, hj, hd, hmem⟩ := foundPage_spec (i + 1) h
          refine ⟨j + 1, r', d, ?_, hj, hd, hmem⟩
          simp only [hfound]
          congr 2
          omega

/-! ## With whole bytes -/

/-- On the way from `s₀` to `s`: the bitmaps have whole bytes, end at `bound` and do not meet, and
    the status of the pages is preserved so far. -/
structure Moving (s₀ : State) (bound : Nat) (s : State) : Prop where
  preserves : Preserves s₀ s
  whole : ∀ (i : Nat) (r : Region), s.regions[i]? = some r →
    r.pgCnt % 8 = 0 ∧ r.bitmap + r.pgCnt / 8 ≤ bound
  apart : ∀ (i j : Nat) (r r' : Region), i ≠ j → s.regions[i]? = some r →
    s.regions[j]? = some r' → r.bitmap + r.pgCnt / 8 ≤ r'.bitmap ∨
      r'.bitmap + r'.pgCnt / 8 ≤ r.bitmap

section Moving

variable {s₀ s s' : State} {bound : Nat}

/-- Only the bytes of the bitmaps, the table and the pages handed out matter. -/
theorem Moving.congr (h : Moving s₀ bound s) (hregions : s'.regions = s.regions)
    (hhanded : s'.handed = s.handed) (hmem : ∀ a < bound, s'.mem a = s.mem a) :
    Moving s₀ bound s' := by
  obtain ⟨hlen, hstatus⟩ := h.preserves
  refine ⟨⟨by rw [hregions, hlen], fun i r r' hr hr' => ?_⟩, ?_, ?_⟩
  · rw [hregions] at hr'
    obtain ⟨haddr, hcnt, hpages⟩ := hstatus i r r' hr hr'
    obtain ⟨hwhole, hbound⟩ := h.whole i r' hr'
    refine ⟨haddr, hcnt, fun k hk => ?_⟩
    rw [hhanded, allocated_congr (hmem _ (by omega))]
    exact hpages k hk
  · rw [hregions]
    exact h.whole
  · rw [hregions]
    exact h.apart

theorem Moving.kpageAlloc (h : Moving s₀ bound s) (hs : s.kpageAlloc = some s') :
    Moving s₀ bound s' ∧ s'.limit = s.limit ∧ s'.regions = s.regions := by
  obtain ⟨⟨a, mem⟩, halloc, rfl⟩ := Option.map_eq_some_iff.mp hs
  obtain ⟨j, q, d, hfound, hj, hd, rfl⟩ := foundPage_spec 0 halloc
  rw [Nat.zero_add] at hfound
  obtain ⟨hlen, hstatus⟩ := h.preserves
  refine ⟨⟨⟨hlen, fun i r r' hr hr' => ?_⟩, h.whole, h.apart⟩, rfl, rfl⟩
  obtain ⟨haddr, hcnt, hpages⟩ := hstatus i r r' hr hr'
  refine ⟨haddr, hcnt, fun k hk => ?_⟩
  -- the bit that is set is the bit of the page that is handed out
  have hbit : r'.bit k = q.bit d ↔ (i, k) = (j, d) := by
    obtain ⟨hq, -⟩ := h.whole j q hj
    obtain ⟨hr8, -⟩ := h.whole i r' hr'
    by_cases hij : i = j
    · subst hij
      obtain rfl := Option.some.inj (hj.symm.trans hr')
      simp only [Region.bit, Prod.mk.injEq, true_and]
      omega
    · have := h.apart i j r' q hij hr' hj
      simp only [Region.bit, Prod.mk.injEq, hij, false_and, iff_false]
      omega
  have hset : Allocated (setBitAt s.mem (q.bit d)) r' k ↔
      (i, k) = (j, d) ∨ Allocated s.mem r' k := by
    simp only [Allocated, bitAt_setBitAt (by decide : 0 < 8), Bool.or_eq_true, decide_eq_true_eq,
      hbit]
  simp only [hfound, Option.toList_some, List.cons_append, List.nil_append, List.mem_cons]
  rw [hset, hpages k hk]
  exact or_left_comm

theorem Moving.mapPage (h : Moving s₀ bound s) {v : Nat} (hs : s.mapPage v = some s') :
    Moving s₀ bound s' ∧ s'.limit = s.limit ∧ s'.regions = s.regions := by
  simp only [State.mapPage, Option.bind_eq_bind, Option.bind_eq_some_iff] at hs
  obtain ⟨s₁, hs₁, hs⟩ := hs
  obtain ⟨h₁, hlim₁, hreg₁⟩ := h.kpageAlloc hs₁
  split at hs
  · obtain rfl := Option.some.inj hs
    exact ⟨h₁.congr rfl rfl fun _ _ => rfl, hlim₁, hreg₁⟩
  · obtain ⟨s₂, hs₂, hret⟩ := Option.bind_eq_some_iff.mp hs
    obtain rfl := Option.some.inj hret
    obtain ⟨h₂, hlim₂, hreg₂⟩ := h₁.kpageAlloc hs₂
    exact ⟨h₂.congr rfl rfl fun _ _ => rfl, hlim₂.trans hlim₁, hreg₂.trans hreg₁⟩

theorem Moving.mapPages : ∀ {n v : Nat} {s s' : State}, Moving s₀ bound s →
    s.mapPages v n = some s' →
    Moving s₀ bound s' ∧ s'.limit = s.limit ∧ s'.regions = s.regions
  | 0, v, s, s', h, hs => by
      obtain rfl := Option.some.inj hs
      exact ⟨h, rfl, rfl⟩
  | n + 1, v, s, s', h, hs => by
      simp only [State.mapPages, Option.bind_eq_bind] at hs
      split at hs
      · exact h.mapPages hs
      · obtain ⟨s₁, hs₁, hrest⟩ := Option.bind_eq_some_iff.mp hs
        obtain ⟨h₁, hlim₁, hreg₁⟩ := h.mapPage hs₁
        obtain ⟨h₂, hlim₂, hreg₂⟩ := h₁.mapPages hrest
        exact ⟨h₂, hlim₂.trans hlim₁, hreg₂.trans hreg₁⟩

/-- A request takes the bytes behind the heap, which no bitmap is in. -/
theorem Moving.kmalloc (h : Moving s₀ bound s) {size p : Nat} (hbound : bound + 4 ≤ s.limit)
    (hwrap : s.limit + State.chunkSize size < 2 ^ 32) (hs : s.kmalloc size = some (p, s')) :
    p = s.limit + 4 ∧ s'.limit = s.limit + State.chunkSize size ∧ s'.regions = s.regions ∧
      Moving s₀ bound s' := by
  simp only [State.kmalloc, State.heapSbrk, Option.bind_eq_bind, Option.bind_eq_some_iff] at hs
  obtain ⟨s₁, hs₁, hret⟩ := hs
  obtain ⟨rfl, rfl⟩ := Prod.mk.inj (Option.some.inj hret)
  rw [Nat.mod_eq_of_lt hwrap] at hs₁
  split at hs₁
  · cases hs₁
  · obtain ⟨s₂, hs₂, rfl⟩ := Option.map_eq_some_iff.mp hs₁
    obtain ⟨h₂, -, hreg⟩ := h.mapPages hs₂
    refine ⟨by omega, rfl, hreg, h₂.congr rfl rfl fun a ha => ?_⟩
    exact setWord32_outside (by omega)

theorem chunkSize_ge (size : Nat) :
    size + 8 ≤ State.chunkSize size ∧ 16 ≤ State.chunkSize size := by
  unfold State.chunkSize
  split <;> omega

/-- The entries of a list with entry `n` replaced. -/
theorem getElem?_set_cases {α : Type} {l : List α} {n i : Nat} {x y : α} (hn : n < l.length)
    (h : (l.set n x)[i]? = some y) : i = n ∧ y = x ∨ i ≠ n ∧ l[i]? = some y := by
  by_cases hin : i = n
  · subst hin
    rw [List.getElem?_set_self hn] at h
    exact .inl ⟨rfl, (Option.some.inj h).symm⟩
  · rw [List.getElem?_set_ne (Ne.symm hin)] at h
    exact .inr ⟨hin, h⟩

/-- The memory behind the bitmaps takes a copy of bitmap `n`, and region `n` goes on with it. -/
theorem Moving.copy (h : Moving s₀ bound s) {n p : Nat} {r : Region} (hr : s.regions[n]? = some r)
    (hp : bound ≤ p) :
    Moving s₀ (p + r.pgCnt / 8) { s with
      mem := memcpy s.mem p r.bitmap (r.pgCnt / 8)
      regions := s.regions.set n { r with bitmap := p } } := by
  obtain ⟨hlen, hstatus⟩ := h.preserves
  obtain ⟨hr8, hrb⟩ := h.whole n r hr
  -- the new table has the old entries apart from entry `n`
  have hget : ∀ (i : Nat) (r' : Region), (s.regions.set n { r with bitmap := p })[i]? = some r' →
      i = n ∧ r' = { r with bitmap := p } ∨ i ≠ n ∧ s.regions[i]? = some r' :=
    fun i r' => getElem?_set_cases (List.getElem?_eq_some_iff.mp hr).1
  refine ⟨⟨by rw [List.length_set, hlen], fun i q q' hq hq' => ?_⟩, fun i q hq => ?_,
    fun i j q q' hij hq hq' => ?_⟩
  · rcases hget i q' hq' with ⟨rfl, rfl⟩ | ⟨-, hq''⟩
    · obtain ⟨haddr, hcnt, hpages⟩ := hstatus i q r hq hr
      refine ⟨haddr, hcnt, fun k hk => ?_⟩
      rw [← hpages k hk]
      exact allocated_congr (memcpy_inside (by omega) (by omega))
    · obtain ⟨haddr, hcnt, hpages⟩ := hstatus i q q' hq hq''
      obtain ⟨hq8, hqb⟩ := h.whole i q' hq''
      refine ⟨haddr, hcnt, fun k hk => ?_⟩
      rw [← hpages k hk]
      exact allocated_congr (memcpy_outside (by omega))
  · rcases hget i q hq with ⟨rfl, rfl⟩ | ⟨-, hq'⟩
    · exact ⟨hr8, Nat.le_refl _⟩
    · obtain ⟨hq8, hqb⟩ := h.whole i q hq'
      exact ⟨hq8, by omega⟩
  · rcases hget i q hq with ⟨rfl, rfl⟩ | ⟨hin, hq₁⟩
    · rcases hget j q' hq' with ⟨rfl, rfl⟩ | ⟨-, hq₂⟩
      · exact absurd rfl hij
      · have := (h.whole j q' hq₂).2
        simp only
        omega
    · rcases hget j q' hq' with ⟨rfl, rfl⟩ | ⟨-, hq₂⟩
      · have := (h.whole i q hq₁).2
        simp only
        omega
      · exact h.apart i j q q' hij hq₁ hq₂

theorem Moving.mono (h : Moving s₀ bound s) {bound' : Nat} (hle : bound ≤ bound') :
    Moving s₀ bound' s :=
  ⟨h.preserves, fun i r hr => ⟨(h.whole i r hr).1, Nat.le_trans (h.whole i r hr).2 hle⟩, h.apart⟩

/-- A round of the loop over the regions. -/
theorem Moving.copyBitmap (h : Moving s₀ (s.limit - 4) s) {n : Nat} {r : Region}
    (hr : s.regions[n]? = some r) (hlimit : 4 ≤ s.limit)
    (hwrap : s.limit + State.chunkSize (r.pgCnt / 8) < 2 ^ 32) (hs : s.copyBitmap n = some s') :
    s'.limit = s.limit + State.chunkSize (r.pgCnt / 8) ∧ Moving s₀ (s'.limit - 4) s' := by
  simp only [State.copyBitmap, hr, Option.bind_eq_bind, Option.bind_some,
    Option.bind_eq_some_iff, Prod.exists] at hs
  obtain ⟨p, s₁, hs₁, hret⟩ := hs
  obtain rfl := Option.some.inj hret
  obtain ⟨rfl, hlim, hreg, h₁⟩ := h.kmalloc (by omega) hwrap hs₁
  have hsize := chunkSize_ge (r.pgCnt / 8)
  refine ⟨hlim, ?_⟩
  have hcopy := h₁.copy (n := n) (p := s.limit + 4) (r := r) (by rw [hreg, hr]) (by omega)
  exact hcopy.mono (by simp only [hlim]; omega)

end Moving

/-! ## The room for the copies -/

/-- The bytes of the chunks for the first `n` bitmaps. -/
def copyRoom (table : List (Nat × Nat)) (n : Nat) : Nat :=
  ((table.take n).map fun r => State.chunkSize (r.2 / 8)).sum

theorem copyRoom_succ {table : List (Nat × Nat)} {n : Nat} {r : Nat × Nat}
    (hr : table[n]? = some r) :
    copyRoom table (n + 1) = copyRoom table n + State.chunkSize (r.2 / 8) := by
  simp only [copyRoom, List.take_add_one, hr, Option.toList_some, List.map_append, List.sum_append,
    List.map_cons, List.map_nil, List.sum_cons, List.sum_nil, Nat.add_zero]

theorem copyRoom_le (table : List (Nat × Nat)) (n : Nat) :
    copyRoom table n ≤ (table.map fun r => State.chunkSize (r.2 / 8)).sum := by
  have hsplit := congrArg (fun l : List (Nat × Nat) =>
    (l.map fun r => State.chunkSize (r.2 / 8)).sum) (List.take_append_drop n table)
  simp only [List.map_append, List.sum_append] at hsplit
  rw [copyRoom]
  omega

/-- The page counts of the regions are those of the table. -/
def Counts (table : List (Nat × Nat)) (s : State) : Prop :=
  s.regions.length = table.length ∧
  ∀ (i : Nat) (r : Region), s.regions[i]? = some r → ∃ q, table[i]? = some q ∧ r.pgCnt = q.2

section Moving

variable {table : List (Nat × Nat)} {s₀ s s' : State} {bound : Nat}

theorem Starts.counts (h : Starts table s) : Counts table s := by
  refine ⟨by rw [h.regions, length_layout], fun i r hr => ?_⟩
  have hcnt := layout_getElem? trampolineInfoSize table i
  rw [← h.regions, hr, Option.map_some] at hcnt
  obtain ⟨q, hq, hqr⟩ := Option.map_eq_some_iff.mp hcnt.symm
  exact ⟨q, hq, hqr.symm⟩

theorem Counts.of_preserves (hc : Counts table s₀) (h : Preserves s₀ s) : Counts table s := by
  obtain ⟨hlen, hstatus⟩ := h
  refine ⟨hlen.trans hc.1, fun i r hr => ?_⟩
  have hi : i < s₀.regions.length := hlen ▸ (List.getElem?_eq_some_iff.mp hr).1
  have hr₀ := List.getElem?_eq_getElem hi
  obtain ⟨q, hq, hcnt⟩ := hc.2 i _ hr₀
  exact ⟨q, hq, (hstatus i _ r hr₀ hr).2.1.trans hcnt⟩

theorem Counts.getElem? (hc : Counts table s) {n : Nat} (hn : n < table.length) :
    ∃ r q, s.regions[n]? = some r ∧ table[n]? = some q ∧ r.pgCnt = q.2 := by
  have hi : n < s.regions.length := by
    rw [hc.1]
    exact hn
  obtain ⟨q, hq, hcnt⟩ := hc.2 n _ (List.getElem?_eq_getElem hi)
  exact ⟨_, q, List.getElem?_eq_getElem hi, hq, hcnt⟩

/-- The first `n` rounds of the loop over the regions. -/
theorem Moving.copyBitmaps (hc : Counts table s₀) (h : Moving s₀ (s.limit - 4) s)
    (hlimit : 4 ≤ s.limit)
    (hwrap : s.limit + (table.map fun r => State.chunkSize (r.2 / 8)).sum < 2 ^ 32) :
    ∀ {n : Nat} {s' : State}, n ≤ table.length → s.copyBitmaps n = some s' →
      s'.limit = s.limit + copyRoom table n ∧ Moving s₀ (s'.limit - 4) s'
  | 0, s', _, hs => by
      obtain rfl := Option.some.inj hs
      exact ⟨by simp [copyRoom], h⟩
  | n + 1, s', hn, hs => by
      simp only [State.copyBitmaps, Option.bind_eq_bind, Option.bind_eq_some_iff] at hs
      obtain ⟨s₁, hs₁, hround⟩ := hs
      obtain ⟨hlim₁, h₁⟩ := Moving.copyBitmaps hc h hlimit hwrap (by omega) hs₁
      obtain ⟨r, q, hr, hq, hcnt⟩ := (hc.of_preserves h₁.preserves).getElem? hn
      have hsum := copyRoom_succ hq
      have hroom := copyRoom_le table (n + 1)
      rw [hcnt.symm] at hsum
      obtain ⟨hlim, h'⟩ := h₁.copyBitmap hr (by omega) (by omega) hround
      exact ⟨by omega, h'⟩

end Moving

/-! ## With a partial last byte -/

section Hole

variable {table : List (Nat × Nat)} {s : State} {n : Nat}

theorem mapPages_of_mapped (hm : ∀ v, s.mapped v = true) :
    ∀ (v n : Nat), s.mapPages v n = some s
  | _, 0 => rfl
  | v, n + 1 => by
      rw [State.mapPages, if_pos (hm v)]
      exact mapPages_of_mapped hm (v + 1) n

/-- A request when all pages are mapped already. -/
theorem kmalloc_of_mapped (hm : ∀ v, s.mapped v = true) {size : Nat}
    (hmax : s.limit + State.chunkSize size ≤ maxLimit) :
    s.kmalloc size = some (s.limit - 4 + 8, { s with
      mem := s.mem.setWord32 (s.limit - 4 + 4) (BitVec.ofNat 32 (State.chunkSize size))
      limit := s.limit + State.chunkSize size }) := by
  have hmod : (s.limit + State.chunkSize size) % 2 ^ 32 = s.limit + State.chunkSize size := by
    rw [maxLimit] at hmax
    exact Nat.mod_eq_of_lt (by omega)
  simp only [State.kmalloc, State.heapSbrk, hmod, if_neg (Nat.not_lt.mpr hmax),
    mapPages_of_mapped hm, Option.map_some, Option.bind_eq_bind, Option.bind_some]

/-- All pages are mapped, the memory behind the heap is filled with ones, and so is the byte behind
    each of the first `n` copies. -/
structure Filled (table : List (Nat × Nat)) (n : Nat) (s : State) : Prop where
  mapped : ∀ v, s.mapped v = true
  handed : s.handed = []
  counts : Counts table s
  limit : 4 ≤ s.limit
  ones : ∀ a, s.limit ≤ a → s.mem a = 0xFF#8
  hole : ∀ i < n, ∀ r, s.regions[i]? = some r →
    r.bitmap + r.pgCnt / 8 < s.limit ∧ s.mem (r.bitmap + r.pgCnt / 8) = 0xFF#8

theorem Filled.copyBitmap (h : Filled table n s) {q : Nat × Nat} (hq : table[n]? = some q)
    (hmax : s.limit + State.chunkSize (q.2 / 8) ≤ maxLimit) :
    ∃ s', s.copyBitmap n = some s' ∧ s'.limit = s.limit + State.chunkSize (q.2 / 8) ∧
      Filled table (n + 1) s' := by
  obtain ⟨r, q', hr, hq', hcnt⟩ := h.counts.getElem? (List.getElem?_eq_some_iff.mp hq).1
  obtain rfl := Option.some.inj (hq.symm.trans hq')
  rw [← hcnt] at hmax ⊢
  have hlt := (List.getElem?_eq_some_iff.mp hr).1
  have hlimit := h.limit
  have hsize := chunkSize_ge (r.pgCnt / 8)
  have hkm := kmalloc_of_mapped h.mapped hmax
  rw [show s.limit - 4 + 8 = s.limit + 4 by omega, show s.limit - 4 + 4 = s.limit by omega] at hkm
  generalize hmem : s.mem.setWord32 s.limit (BitVec.ofNat 32 (State.chunkSize (r.pgCnt / 8))) = mem
    at hkm
  have hs : s.copyBitmap n = some { s with
      mem := memcpy mem (s.limit + 4) r.bitmap (r.pgCnt / 8)
      regions := s.regions.set n { r with bitmap := s.limit + 4 }
      limit := s.limit + State.chunkSize (r.pgCnt / 8) } := by
    simp only [State.copyBitmap, hr, hkm, Option.bind_eq_bind, Option.bind_some]
  -- what the round leaves alone
  have hkeep : ∀ a, a < s.limit ∨ s.limit + 4 + r.pgCnt / 8 ≤ a →
      memcpy mem (s.limit + 4) r.bitmap (r.pgCnt / 8) a = s.mem a := by
    intro a ha
    rw [memcpy_outside (by omega), ← hmem, setWord32_outside (by omega)]
  have hget : ∀ (i : Nat) (r' : Region),
      (s.regions.set n { r with bitmap := s.limit + 4 })[i]? = some r' →
      i = n ∧ r' = { r with bitmap := s.limit + 4 } ∨ i ≠ n ∧ s.regions[i]? = some r' :=
    fun i r' => getElem?_set_cases hlt
  refine ⟨_, hs, rfl, ⟨h.mapped, h.handed, ⟨?_, fun i r' hr' => ?_⟩, ?_, fun a ha => ?_,
    fun i hi r' hr' => ?_⟩⟩
  · rw [List.length_set]
    exact h.counts.1
  · rcases hget i r' hr' with ⟨rfl, rfl⟩ | ⟨-, hr''⟩
    · exact ⟨q, hq, hcnt⟩
    · exact h.counts.2 i r' hr''
  · simp only
    omega
  · simp only at ha ⊢
    rw [hkeep a (by omega)]
    exact h.ones a (by omega)
  · simp only
    rcases hget i r' hr' with ⟨rfl, rfl⟩ | ⟨hin, hr''⟩
    · simp only
      rw [hkeep _ (by omega)]
      exact ⟨by omega, h.ones _ (by omega)⟩
    · obtain ⟨hbelow, hone⟩ := h.hole i (by omega) r' hr''
      rw [hkeep _ (by omega)]
      exact ⟨by omega, hone⟩

theorem Filled.copyBitmaps (h : Filled table 0 s)
    (hmax : s.limit + (table.map fun r => State.chunkSize (r.2 / 8)).sum ≤ maxLimit) :
    ∀ n ≤ table.length, ∃ s', s.copyBitmaps n = some s' ∧
      s'.limit = s.limit + copyRoom table n ∧ Filled table n s'
  | 0, _ => ⟨s, rfl, by simp [copyRoom], h⟩
  | n + 1, hn => by
      obtain ⟨s₁, hs₁, hlim₁, h₁⟩ := Filled.copyBitmaps h hmax n (by omega)
      have hq := List.getElem?_eq_getElem (l := table) (i := n) hn
      have hsum := copyRoom_succ hq
      have hroom := copyRoom_le table (n + 1)
      obtain ⟨s', hs', hlim, h'⟩ := h₁.copyBitmap hq (by omega)
      refine ⟨s', ?_, by omega, h'⟩
      simp only [State.copyBitmaps, hs₁, Option.bind_eq_bind, Option.bind_some, hs']

/-- Empty bitmaps, and a heap right behind them in memory that is filled with ones. -/
def filled (table : List (Nat × Nat)) : State where
  mem := fun a => if a < trampolineInfoSize + (table.map fun r => r.2 / 8).sum + 4 then 0#8
    else 0xFF#8
  regions := layout trampolineInfoSize table
  limit := trampolineInfoSize + (table.map fun r => r.2 / 8).sum + 4
  mapped := fun _ => true
  tables := fun _ => true
  handed := []

/-- There is room in the address space for the bitmaps and their copies. -/
def Fits (table : List (Nat × Nat)) : Prop :=
  trampolineInfoSize + (table.map fun r => r.2 / 8).sum + 4 + State.chunkSize trampolineInfoSize +
    (table.map fun r => State.chunkSize (r.2 / 8)).sum ≤ maxLimit

instance (table : List (Nat × Nat)) : Decidable (Fits table) := inferInstanceAs (Decidable (_ ≤ _))

end Hole

/-! ## The heap of `Muse.Memory.KernelHeap` -/

/-- The two models of the heap agree: `limit`, its bound and the memory are the same. -/
structure Agrees (s : State) (h : KernelHeap) : Prop where
  limit : s.limit = h.chunks.limit.toNat
  maxLimit : maxLimit = h.maxLimit.toNat
  mem : ∀ a : BitVec 32, s.mem a.toNat = h.chunks.mem a

theorem chunkSize_agrees {size : BitVec 32} (hsize : size.toNat + 8 < 2 ^ 32) :
    (ChunkHeap.chunkSize size).toNat = State.chunkSize size.toNat := by
  rw [chunkSize_toNat, State.chunkSize]
  split <;> omega

/-- Writing a word in either memory. -/
theorem setWord32_agrees {mem : Bytes} {bytes : ByteMem} {p x : BitVec 32}
    (hp : p.toNat + 4 ≤ 2 ^ 32) (hmem : ∀ a : BitVec 32, mem a.toNat = bytes a) (a : BitVec 32) :
    mem.setWord32 p.toNat x a.toNat = writeWord bytes p x a := by
  by_cases hin : p.toNat ≤ a.toNat ∧ a.toNat < p.toNat + 4
  · have hoff : (a - p).toNat = a.toNat - p.toNat := by
      rw [BitVec.toNat_sub]
      omega
    have hlt : a - p < 4#32 := by
      rw [BitVec.lt_def, hoff, BitVec.toNat_ofNat]
      omega
    rw [Bytes.setWord32, Bytes.splice_of_mem hin.1 hin.2, writeWord, if_pos hlt, hoff]
  · rw [setWord32_outside (by omega), writeWord_of_apart _ _ (by omega) hp, hmem]

/-- On a heap without free chunks, `kmalloc` is the one that looks through the tiers first. -/
theorem kmalloc_agrees {s : State} {h h' : KernelHeap} (ha : Agrees s h)
    (hempty : ∀ i, h.chunks.tiers i = 0#32) {size ptr : BitVec 32}
    (hsize : size.toNat + 8 < 2 ^ chunkSizeLimitLog) (hlimit : 4 ≤ s.limit)
    (hwrap : s.limit + State.chunkSize size.toNat < 2 ^ 32) (hm : ∀ v, s.mapped v = true)
    (hs : h.kmalloc size = .ok (ptr, h')) :
    ∃ s', s.kmalloc size.toNat = some (ptr.toNat, s') ∧ Agrees s' h' := by
  obtain ⟨hlim, hmax, hmem⟩ := ha
  have h32 : size.toNat + 8 < 2 ^ 32 := Nat.lt_trans hsize (by decide)
  have hch := chunkSize_agrees h32
  have hsize16 := chunkSize_ge size.toNat
  have hadd : (h.chunks.limit + ChunkHeap.chunkSize size).toNat =
      s.limit + State.chunkSize size.toNat := by
    rw [BitVec.toNat_add, hch, ← hlim, Nat.mod_eq_of_lt hwrap]
  have hfit := KernelState.fittingChunk_of_empty (s := ⟨h, []⟩) hempty hsize
  simp only at hfit
  simp only [KernelHeap.kmalloc, ChunkHeap.allocate, hfit, KernelHeap.heapSbrk, bind, Except.bind,
    ne_eq, not_true_eq_false, if_false] at hs
  by_cases hover : h.maxLimit < h.chunks.limit + ChunkHeap.chunkSize size
  · rw [if_pos hover] at hs
    cases hs
  · rw [if_neg hover] at hs
    obtain ⟨rfl, rfl⟩ := Prod.mk.inj (Except.ok.inj hs)
    rw [BitVec.lt_def, hadd, ← hmax, Nat.not_lt] at hover
    have hptr : (h.chunks.limit - 4#32 + chunkOverhead).toNat = s.limit - 4 + 8 := by
      simp only [chunkOverhead, BitVec.toNat_add, BitVec.toNat_sub, BitVec.toNat_ofNat, ← hlim,
        Nat.reducePow, Nat.reduceMod]
      omega
    have hfield : h.chunks.limit - 4#32 + 4#32 = h.chunks.limit := BitVec.sub_add_cancel ..
    refine ⟨_, by rw [kmalloc_of_mapped hm hover, hptr], hadd.symm, hmax, fun a => ?_⟩
    simp only [ChunkHeap.setSizeOf, ChunkHeap.extend, hfield]
    rw [show s.limit - 4 + 4 = h.chunks.limit.toNat by omega, ← hch, BitVec.ofNat_toNat,
      BitVec.setWidth_eq]
    exact setWord32_agrees (by omega) hmem a

end Handover

end Muse.Memory
