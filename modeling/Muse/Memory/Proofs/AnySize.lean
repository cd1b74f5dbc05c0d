import Mathlib.Data.List.Pairwise
import Muse.Libc.Heap
import Muse.Memory.KernelHeap
import Muse.Memory.Proofs.Allocate

/-!
# Requests of any size

A request is safe if it stays inside `tiers` and what it returns can be freed again. The size
decides the tier, and sizes whose sum with the header wraps are in the tier of the smallest chunks.
A chunk that is split leaves `size + CHUNK_OVERHEAD` bytes to the request, which is less than the
smallest chunk for a size below 8, and the tier of the rest is computed from its address.
-/

namespace Muse.Memory

open Muse.Library

variable {n : Nat}

/-- The lists of the tiers are finite and hold free chunks that lie in memory, each list chunks
    apart from each other. -/
structure FreeLists (h : ChunkHeap n) (lists : Nat → List (BitVec 32)) : Prop where
  chain : ∀ i : Fin n, Chain h.next 0#32 (h.tiers i) (lists i)
  free : ∀ i < n, ∀ c ∈ lists i, h.sizeOf c &&& bitFree ≠ 0#32
  min : ∀ i < n, ∀ c ∈ lists i, 16 ≤ (h.room c).toNat
  inside : ∀ i < n, ∀ c ∈ lists i, c.toNat + (h.room c).toNat + 4 < 2 ^ 32
  apart : ∀ i < n, (lists i).Pairwise fun c d =>
    c.toNat + (h.room c).toNat ≤ d.toNat ∨ d.toNat + (h.room d).toNat ≤ c.toNat

/-- The chunk at `ptr` has `size` bytes behind its header, and its size names a tier. -/
def Usable (h : ChunkHeap n) (ptr size : BitVec 32) : Prop :=
  size.toNat + 8 ≤ (h.sizeOf (ptr - chunkOverhead)).toNat ∧
    (tierIdx (h.room (ptr - chunkOverhead))).toNat < n

/-- No tier outside of `tiers` is used, neither now nor when the chunk is freed. -/
def SafeRequest (size : BitVec 32) (r : Except Fault (BitVec 32 × ChunkHeap n)) : Prop :=
  r ≠ .error .tierIndex ∧ ∀ ptr h, r = .ok (ptr, h) → Usable h ptr size

/-- The first chunk with enough room in the tier of the request. -/
def firstFit (h : ChunkHeap n) (lists : Nat → List (BitVec 32)) (size : BitVec 32) :
    Option (BitVec 32) :=
  (lists (tierIdx (ChunkHeap.chunkSize size)).toNat).find? fun c =>
    decide (ChunkHeap.chunkSize size ≤ h.room c)

/-- A chunk for a request that does not wrap: if it is split, the request has at least 8
    bytes and the rest has an address below the limit of the sizes; if not, its size is below the
    limit. -/
def GoodFit (h : ChunkHeap n) (size c : BitVec 32) : Prop :=
  if h.Splits c size then
    8 ≤ size.toNat ∧ (c + size + chunkOverhead).toNat < 2 ^ (n + 4)
  else (h.room c).toNat < 2 ^ (n + 4)

/-- The requests that are safe. `Full` says that the region cannot grow by one smallest chunk. -/
def Safe (h : ChunkHeap n) (lists : Nat → List (BitVec 32)) (Full : Prop) (size : BitVec 32) :
    Prop :=
  (size.toNat + 8 < 2 ^ (n + 4) ∧ ∀ c ∈ firstFit h lists size, GoodFit h size c) ∨
    (2 ^ 32 ≤ size.toNat + 8 ∧ firstFit h lists size = none ∧ Full)

/-! ## Tiers -/

theorem tierIdx_lt_iff (hn : n + 4 < 32) {x : BitVec 32} :
    (tierIdx x).toNat < n ↔ 16 ≤ x.toNat ∧ x.toNat < 2 ^ (n + 4) := by
  constructor
  · intro h
    by_cases h16 : 16 ≤ x.toNat
    · obtain ⟨hidx, hlo⟩ := tierIdx_toNat h16
      exact ⟨h16, (Nat.log2_lt (by omega)).mp (by omega)⟩
    · -- the index of a smaller number wraps
      have hlog : x.toNat.log2 < 4 := by
        by_cases h0 : x.toNat = 0
        · rw [h0]
          decide
        · exact (Nat.log2_lt h0).mpr (by omega)
      rw [tierIdx, BitVec.toNat_sub, BitVec.toNat_ofNat, BitVec.toNat_ofNat] at h
      omega
  · rintro ⟨h16, hlt⟩
    exact tierIdx_lt h16 hlt

theorem pow_le_of_lt (hn : n + 4 < 32) : 2 ^ (n + 4) ≤ 2 ^ 31 :=
  Nat.pow_le_pow_right (by decide) (by omega)

/-- The size of the chunk is below the limit exactly when the size with the header is, or wraps. -/
theorem chunkSize_tier_iff (hn : 0 < n ∧ n + 4 < 32) (size : BitVec 32) :
    (tierIdx (ChunkHeap.chunkSize size)).toNat < n ↔
      size.toNat + 8 < 2 ^ (n + 4) ∨ 2 ^ 32 ≤ size.toNat + 8 := by
  have hs := size.isLt
  have hpow := pow_le_of_lt hn.2
  have hlo : 2 ^ 5 ≤ 2 ^ (n + 4) := Nat.pow_le_pow_right (by decide) (by omega)
  rw [tierIdx_lt_iff hn.2, chunkSize_toNat]
  omega

/-- A request that wraps asks for the smallest chunk. -/
theorem chunkSize_of_wrap {size : BitVec 32} (h : 2 ^ 32 ≤ size.toNat + 8) :
    ChunkHeap.chunkSize size = minChunkSize := by
  have hs := size.isLt
  apply BitVec.eq_of_toNat_eq
  rw [chunkSize_toNat, show minChunkSize.toNat = 16 from rfl]
  omega

/-! ## Free chunks -/

namespace FreeLists

variable {h : ChunkHeap n} {lists : Nat → List (BitVec 32)} (hl : FreeLists h lists)

include hl

theorem length_lt {i : Nat} (hi : i < n) : (lists i).length < 2 ^ 32 := by
  have hchain := hl.chain ⟨i, hi⟩
  refine length_lt_of_nodup ((hl.apart i hi).imp_of_mem ?_) fun hm => hchain.ne_null _ hm rfl
  rintro c d hc - hcd rfl
  have := hl.min i hi c hc
  omega

/-- What the search finds: nothing, or the first chunk with enough room, which can be taken off its
    list without a change to its header. -/
theorem fittingChunk {size : BitVec 32}
    (hi : (tierIdx (ChunkHeap.chunkSize size)).toNat < n) :
    (firstFit h lists size = none ∧ ∃ prev, h.fittingChunk size = .ok (prev, 0#32)) ∨
    ∃ c prev h₁, firstFit h lists size = some c ∧ c ≠ 0#32 ∧
      h.fittingChunk size = .ok (prev, c) ∧
      h.unlinkChunk (tierIdx (ChunkHeap.chunkSize size)) prev c = .ok h₁ ∧
      h₁.sizeOf c = h.sizeOf c ∧ ChunkHeap.chunkSize size ≤ h.room c ∧
      c.toNat + (h.room c).toNat + 4 < 2 ^ 32 := by
  have hchain := hl.chain ⟨_, hi⟩
  obtain ⟨p, hfind, hp⟩ := h.findChunk_eq (ChunkHeap.chunkSize size) (2 ^ 32)
    0#32 hchain (hl.length_lt hi)
  have hfit : h.fittingChunk size = .ok (p, (firstFit h lists size).getD 0#32) := by
    rw [ChunkHeap.fittingChunk, ChunkHeap.tier, dif_pos hi]
    exact hfind
  cases hff : firstFit h lists size with
  | none =>
      rw [hff] at hfit
      exact .inl ⟨rfl, p, hfit⟩
  | some c =>
      right
      rw [hff] at hfit
      have hmem := List.mem_of_find?_eq_some hff
      have hroom : ChunkHeap.chunkSize size ≤ h.room c := of_decide_eq_true (List.find?_some hff :)
      have h16 := hl.min _ hi c hmem
      have hin := hl.inside _ hi c hmem
      have hc0 := hchain.ne_null c hmem
      rcases hp with rfl | ⟨hpm, hlt⟩
      · refine ⟨c, 0#32, { h with tiers := Function.update h.tiers ⟨_, hi⟩ (h.next c) }, rfl, hc0,
          hfit, ?_, rfl, hroom, hin⟩
        rw [ChunkHeap.unlinkChunk, if_neg (by simp), ChunkHeap.setTier, dif_pos hi]
      · have hne : p ≠ c := by
          rintro rfl
          rw [BitVec.lt_def] at hlt
          rw [BitVec.le_def] at hroom
          omega
        have hp16 := hl.min _ hi p hpm
        have hpin := hl.inside _ hi p hpm
        have hpc : p.toNat + (h.room p).toNat ≤ c.toNat ∨ c.toNat + (h.room c).toNat ≤ p.toNat := by
          have hsymm : Std.Symm fun c d : BitVec 32 =>
              c.toNat + (h.room c).toNat ≤ d.toNat ∨ d.toNat + (h.room d).toNat ≤ c.toNat :=
            ⟨fun _ _ => Or.symm⟩
          exact (hl.apart _ hi).forall hpm hmem hne
        refine ⟨c, p, h.setNext p (h.next c), rfl, hc0, hfit, ?_, ?_, hroom, hin⟩
        · rw [ChunkHeap.unlinkChunk, if_pos (hchain.ne_null p hpm)]
        · have h8 : (p + 8#32).toNat = p.toNat + 8 :=
            ChunkHeap.toNat_add_of_le (m := 8) (by omega) (by decide)
          exact h.sizeOf_writeAt _ (by omega) (by omega) (by omega)

end FreeLists

/-! ## What is returned -/

section Outcomes

variable {h h₁ : ChunkHeap n} {size c : BitVec 32}

/-- The sum of the sizes that decides about a split. -/
theorem splits_iff (hn : n + 4 < 32) (hsize : size.toNat + 8 < 2 ^ (n + 4)) :
    h.Splits c size ↔ (ChunkHeap.chunkSize size).toNat + 24 ≤ (h.room c).toNat := by
  have hpow := pow_le_of_lt hn
  have hle := chunkSize_le size
  rw [ChunkHeap.Splits, BitVec.le_def, BitVec.toNat_add, BitVec.toNat_add,
    show minChunkSize.toNat = 16 from rfl, show chunkOverhead.toNat = 8 from rfl]
  omega

/-- The tier of the rest is the only thing that can go wrong in a split. -/
theorem splitChunk_cases (h : ChunkHeap n) (c size : BitVec 32) :
    ((tierIdx (c + size + chunkOverhead)).toNat < n ∧ ∃ h₂, h.splitChunk c size = .ok h₂) ∨
      (¬ (tierIdx (c + size + chunkOverhead)).toNat < n ∧
        h.splitChunk c size = .error .tierIndex) := by
  rw [ChunkHeap.splitChunk, ChunkHeap.linkChunk_eq]
  split
  · next hi => exact .inl ⟨hi, _, rfl⟩
  · next hi => exact .inr ⟨hi, rfl⟩

/-- The front of a chunk that was split has the size of the request. -/
theorem splitChunk_sizeOf {h₂ : ChunkHeap n} (hroom : size.toNat + 32 ≤ (h.room c).toNat)
    (hin : c.toNat + (h.room c).toNat + 4 < 2 ^ 32) (hs : h.splitChunk c size = .ok h₂) :
    h₂.sizeOf c = size + chunkOverhead := by
  have hnew : (c + size + chunkOverhead).toNat = c.toNat + size.toNat + 8 := by
    simp only [chunkOverhead, BitVec.toNat_add, BitVec.toNat_ofNat]
    omega
  have hnew8 : (c + size + chunkOverhead + 8#32).toNat = c.toNat + size.toNat + 16 :=
    (ChunkHeap.toNat_add_of_le (m := 8) (by omega) (by decide)).trans (by rw [hnew]; rfl)
  have hnext : (c + h.room c).toNat = c.toNat + (h.room c).toNat := by
    rw [BitVec.toNat_add]
    omega
  -- every write but one lies behind the header of `c`
  have hkeep : ∀ (g : ChunkHeap n) (a x : BitVec 32), c.toNat + 8 ≤ a.toNat →
      a.toNat + 4 < 2 ^ 32 → (g.writeAt a x).sizeOf c = g.sizeOf c := by
    intro g a x hca ha
    exact g.sizeOf_writeAt x ha (by omega) (.inr hca)
  rw [ChunkHeap.splitChunk, ChunkHeap.linkChunk_eq] at hs
  split at hs
  · cases hs
    refine (hkeep _ _ _ (by omega) (by omega)).trans ?_
    refine (hkeep _ _ _ (by omega) (by omega)).trans ?_
    refine (hkeep _ _ _ (by omega) (by omega)).trans ?_
    exact ChunkHeap.sizeOf_setSizeOf_self ..
  · cases hs

theorem usable_whole (hn : n + 4 < 32) (h16 : 16 ≤ (h.room c).toNat)
    (hsize : size.toNat + 8 ≤ (h.room c).toNat) :
    Usable h (c + chunkOverhead) size ↔ (h.room c).toNat < 2 ^ (n + 4) := by
  have hle : (h.room c).toNat ≤ (h.sizeOf c).toNat := by
    rw [h.room_toNat]
    omega
  rw [Usable, BitVec.add_sub_cancel, tierIdx_lt_iff hn]
  omega

/-- The front of a chunk that was split can be freed unless it is smaller than the smallest
    chunk. -/
theorem usable_split (hn : n + 4 < 32) (hlt : size.toNat + 8 < 2 ^ (n + 4))
    (hsize : h.sizeOf c = size + chunkOverhead) :
    Usable h (c + chunkOverhead) size ↔ 8 ≤ size.toNat := by
  have hpow := pow_le_of_lt hn
  have hsum : (size + chunkOverhead).toNat = size.toNat + 8 :=
    ChunkHeap.toNat_add_of_le (m := 8) (by omega) (by decide)
  rw [Usable, BitVec.add_sub_cancel, tierIdx_lt_iff hn, h.room_toNat, hsize, hsum]
  omega

end Outcomes

/-! ## Requests -/

section Requests

variable {h : ChunkHeap n} {lists : Nat → List (BitVec 32)}
  {grow : ChunkHeap n → BitVec 32 → Except Fault (ChunkHeap n)} {account size ptr : BitVec 32}

theorem safeRequest_ok {h₁ : ChunkHeap n} :
    SafeRequest size (.ok (ptr, h₁)) ↔ Usable h₁ ptr size := by
  constructor
  · rintro ⟨-, hall⟩
    exact hall ptr h₁ rfl
  · intro hu
    refine ⟨by simp, ?_⟩
    rintro ptr' h' he
    cases he
    exact hu

theorem not_safeRequest_tierIndex :
    ¬ SafeRequest size (.error .tierIndex : Except Fault (BitVec 32 × ChunkHeap n)) :=
  fun hs => hs.1 rfl

theorem safeRequest_error {f : Fault} (hf : f ≠ .tierIndex) :
    SafeRequest size (.error f : Except Fault (BitVec 32 × ChunkHeap n)) := by
  refine ⟨?_, by simp⟩
  rintro he
  cases he
  exact hf rfl

/-- A size that wraps is larger than every chunk. -/
theorem not_usable_of_wrap (hwrap : 2 ^ 32 ≤ size.toNat + 8) (g : ChunkHeap n) (ptr : BitVec 32) :
    ¬ Usable g ptr size := by
  intro hu
  have := (g.sizeOf (ptr - chunkOverhead)).isLt
  have := hu.1
  omega

/-- The chunk that was found, for a size that does not wrap. -/
theorem allocate_found_iff (hn : 0 < n ∧ n + 4 < 32) (hsize : size.toNat + 8 < 2 ^ (n + 4))
    {c prev : BitVec 32} {h₁ : ChunkHeap n} (hc : c ≠ 0#32)
    (hfit : h.fittingChunk size = .ok (prev, c))
    (hunlink : h.unlinkChunk (tierIdx (ChunkHeap.chunkSize size)) prev c = .ok h₁)
    (hsame : h₁.sizeOf c = h.sizeOf c) (hroom : ChunkHeap.chunkSize size ≤ h.room c)
    (hin : c.toNat + (h.room c).toNat + 4 < 2 ^ 32) :
    SafeRequest size (h.allocate grow account size) ↔ GoodFit h size c := by
  obtain ⟨h16, -, hch⟩ := chunkSize_bounds hn hsize
  rw [BitVec.le_def] at hroom
  have hroom₁ : h₁.room c = h.room c := by rw [ChunkHeap.room, hsame, ChunkHeap.room]
  have hsplits : h₁.Splits c size ↔ h.Splits c size := by
    rw [ChunkHeap.Splits, hroom₁, ChunkHeap.Splits]
  rw [GoodFit]
  by_cases hsp : h.Splits c size
  · rw [if_pos hsp, ChunkHeap.allocate_of_split hfit hc hunlink (hsplits.mpr hsp)]
    have hlarge := (splits_iff hn.2 hsize).mp hsp
    have hnew : (c + size + chunkOverhead).toNat = c.toNat + size.toNat + 8 := by
      simp only [chunkOverhead, BitVec.toNat_add, BitVec.toNat_ofNat]
      omega
    rcases splitChunk_cases h₁ c size with ⟨hi, h₂, hs⟩ | ⟨hi, hs⟩
    · have hsz := splitChunk_sizeOf (by rw [hroom₁]; omega) (by rw [hroom₁]; exact hin) hs
      rw [hs]
      rw [tierIdx_lt_iff hn.2] at hi
      exact safeRequest_ok.trans ((usable_split hn.2 hsize hsz).trans (by omega))
    · rw [hs]
      rw [tierIdx_lt_iff hn.2] at hi
      constructor
      · exact fun hs => absurd hs not_safeRequest_tierIndex
      · intro hgood
        omega
  · rw [if_neg hsp,
      ChunkHeap.allocate_of_whole hfit hc hunlink (fun hs => hsp (hsplits.mp hs)), safeRequest_ok,
      usable_whole hn.2 (by rw [hroom₁]; omega) (by rw [hroom₁]; omega), hroom₁]

/-- A size whose tier does not exist. -/
theorem allocate_error (hi : ¬ (tierIdx (ChunkHeap.chunkSize size)).toNat < n) :
    h.allocate grow account size = .error .tierIndex := by
  have hfit : h.fittingChunk size = .error .tierIndex := by
    rw [ChunkHeap.fittingChunk, ChunkHeap.tier, dif_neg hi]
    rfl
  rw [ChunkHeap.allocate, hfit]
  rfl

/-- A new chunk at the end of the region is as large as the size with its header, unless that sum
    wraps. -/
theorem usable_new (hn : 0 < n ∧ n + 4 < 32) (hsize : size.toNat + 8 < 2 ^ (n + 4))
    (hc : h.sizeOf (ptr - chunkOverhead) = ChunkHeap.chunkSize size) : Usable h ptr size := by
  obtain ⟨h16, hlt, hch⟩ := chunkSize_bounds hn hsize
  rw [Usable, tierIdx_lt_iff hn.2, h.room_toNat, hc]
  omega

/-- A chunk that was found, for a size that wraps. -/
theorem not_safe_of_wrap (hwrap : 2 ^ 32 ≤ size.toNat + 8) {c prev : BitVec 32} {h₁ : ChunkHeap n}
    (hc : c ≠ 0#32) (hfit : h.fittingChunk size = .ok (prev, c))
    (hunlink : h.unlinkChunk (tierIdx (ChunkHeap.chunkSize size)) prev c = .ok h₁) :
    ¬ SafeRequest size (h.allocate grow account size) := by
  by_cases hsp : h₁.Splits c size
  · rw [ChunkHeap.allocate_of_split hfit hc hunlink hsp]
    rcases splitChunk_cases h₁ c size with ⟨-, h₂, hs⟩ | ⟨-, hs⟩
    · rw [hs]
      exact fun hs => not_usable_of_wrap hwrap _ _ (safeRequest_ok.mp hs)
    · rw [hs]
      exact not_safeRequest_tierIndex
  · rw [ChunkHeap.allocate_of_whole hfit hc hunlink hsp]
    exact fun hs => not_usable_of_wrap hwrap _ _ (safeRequest_ok.mp hs)

/-- Which requests are safe, for any number of tiers. -/
theorem allocate_safe_iff (hn : 0 < n ∧ n + 4 < 32) (hl : FreeLists h lists) {Full : Prop}
    (hgrow : ∀ inc, grow h inc ≠ .error .tierIndex)
    (hfull : Full ↔ ∀ g, grow h minChunkSize ≠ .ok g) :
    SafeRequest size (h.allocate grow account size) ↔ Safe h lists Full size := by
  have hpow := pow_le_of_lt hn.2
  by_cases hi : (tierIdx (ChunkHeap.chunkSize size)).toNat < n
  · rcases (chunkSize_tier_iff hn size).mp hi with hsize | hwrap
    · -- the size is below the limit
      rw [Safe, and_iff_right hsize, or_iff_left (by omega)]
      rcases hl.fittingChunk hi with ⟨hnone, prev, hfit⟩ |
        ⟨c, prev, h₁, hsome, hc, hfit, hunlink, hsame, hroom, hin⟩
      · rw [hnone, ChunkHeap.allocate_of_none hfit]
        simp only [Option.mem_def, reduceCtorEq, false_implies, implies_true, iff_true]
        cases hg : grow h (ChunkHeap.chunkSize size) with
        | error f => exact safeRequest_error fun hf => hgrow _ (hf ▸ hg)
        | ok g =>
            refine safeRequest_ok.mpr (usable_new hn hsize ?_)
            rw [BitVec.add_sub_cancel]
            exact ChunkHeap.sizeOf_setSizeOf_self ..
      · rw [hsome, allocate_found_iff hn hsize hc hfit hunlink hsame hroom hin]
        simp only [Option.mem_def, Option.some.injEq, forall_eq']
    · -- the size wraps
      rw [Safe, or_iff_right (by omega), and_iff_right hwrap]
      rcases hl.fittingChunk hi with ⟨hnone, prev, hfit⟩ |
        ⟨c, prev, h₁, hsome, hc, hfit, hunlink, -, -, -⟩
      · rw [and_iff_right hnone, hfull, ChunkHeap.allocate_of_none hfit, chunkSize_of_wrap hwrap]
        cases hg : grow h minChunkSize with
        | error f =>
            constructor
            · exact fun _ g he => by cases he
            · exact fun _ => safeRequest_error fun hf => hgrow _ (hf ▸ hg)
        | ok g =>
            constructor
            · exact fun hs => absurd (safeRequest_ok.mp hs) (not_usable_of_wrap hwrap _ _)
            · exact fun hnot => absurd rfl (hnot g)
      · rw [hsome]
        simp [not_safe_of_wrap hwrap hc hfit hunlink]
  · rw [allocate_error hi]
    have hnot := fun hs => hi ((chunkSize_tier_iff hn size).mpr hs)
    constructor
    · exact fun hs => absurd hs not_safeRequest_tierIndex
    · rintro (⟨hsize, -⟩ | ⟨hwrap, -⟩)
      · exact absurd (.inl hsize) hnot
      · exact absurd (.inr hwrap) hnot

end Requests

/-! ## The two heaps -/

/-- `kmalloc` adds the chunks to the rest of the heap. -/
theorem kmalloc_chunks (h : KernelHeap) (size : BitVec 32) :
    ((h.kmalloc size).map fun p => (p.1, p.2.chunks)) =
      h.chunks.allocate (KernelHeap.heapSbrk h.maxLimit) size size := by
  rw [KernelHeap.kmalloc]
  cases h.chunks.allocate (KernelHeap.heapSbrk h.maxLimit) size size <;> rfl

theorem heapSbrk_full (maxLimit : BitVec 32) (h : ChunkHeap tierCnt) (inc : BitVec 32) :
    KernelHeap.heapSbrk maxLimit h inc ≠ .error .tierIndex ∧
      (maxLimit < h.limit + inc ↔ ∀ g, KernelHeap.heapSbrk maxLimit h inc ≠ .ok g) := by
  rw [KernelHeap.heapSbrk]
  split <;> simp_all

theorem sbrk_full (h : ChunkHeap Libc.tierCnt) (inc : BitVec 32) :
    Libc.sbrk h inc ≠ .error .tierIndex ∧
      (2 ^ 32 ≤ h.limit.toNat + inc.toNat ↔ ∀ g, Libc.sbrk h inc ≠ .ok g) := by
  rw [Libc.sbrk]
  split
  · next hlt => simpa using hlt
  · next hge => simpa using hge

/-- Which sizes `kmalloc` and `malloc` serve safely. -/
theorem requests_safe_iff (size : BitVec 32) :
    (∀ (h : KernelHeap) (lists : Nat → List (BitVec 32)), FreeLists h.chunks lists →
      (SafeRequest size ((h.kmalloc size).map fun p => (p.1, p.2.chunks)) ↔
        Safe h.chunks lists (h.maxLimit < h.chunks.limit + minChunkSize) size)) ∧
    ∀ (h : ChunkHeap Libc.tierCnt) (lists : Nat → List (BitVec 32)), FreeLists h lists →
      (SafeRequest size (Libc.malloc h size) ↔
        Safe h lists (2 ^ 32 ≤ h.limit.toNat + minChunkSize.toNat) size) := by
  constructor
  · intro h lists hl
    rw [kmalloc_chunks]
    exact allocate_safe_iff (by decide) hl (fun inc => (heapSbrk_full h.maxLimit h.chunks inc).1)
      (heapSbrk_full h.maxLimit h.chunks minChunkSize).2
  · intro h lists hl
    exact allocate_safe_iff (by decide) hl (fun inc => (sbrk_full h inc).1)
      (sbrk_full h minChunkSize).2

theorem freeLists_empty (mem : ByteMem) (base : BitVec 32) :
    FreeLists (ChunkHeap.empty mem base : ChunkHeap n) fun _ => [] where
  chain := fun _ => rfl
  free := fun _ _ _ hc => by cases hc
  min := fun _ _ _ hc => by cases hc
  inside := fun _ _ _ hc => by cases hc
  apart := fun _ _ => List.Pairwise.nil

/-- 24 bytes from two fresh heaps. -/
theorem requests_safe_small :
    SafeRequest 24#32 (((⟨.empty (fun _ => 0#8) 0xC0000000#32, 0xC8000000#32,
      ⟨fun _ => 0#32, 0, 0#32⟩⟩ : KernelHeap).kmalloc 24#32).map fun p => (p.1, p.2.chunks)) ∧
    SafeRequest 24#32 (Libc.malloc (Libc.initHeap (fun _ => 0#8) 0x4000#32) 24#32) := by
  constructor
  · exact ((requests_safe_iff 24#32).1 ⟨.empty (fun _ => 0#8) 0xC0000000#32, 0xC8000000#32,
      ⟨fun _ => 0#32, 0, 0#32⟩⟩ (fun _ => []) (freeLists_empty _ _)).mpr
      (.inl ⟨by decide, fun c hc => by cases hc⟩)
  · exact ((requests_safe_iff 24#32).2 (Libc.initHeap (fun _ => 0#8) 0x4000#32) (fun _ => [])
      (freeLists_empty _ _)).mpr (.inl ⟨by decide, fun c hc => by cases hc⟩)

/-- A size of 4 GiB less 8 bytes gets a chunk of 16 bytes. -/
theorem requests_unsafe : ¬ ∀ size : BitVec 32,
    (∀ (h : KernelHeap) (lists : Nat → List (BitVec 32)), FreeLists h.chunks lists →
      SafeRequest size ((h.kmalloc size).map fun p => (p.1, p.2.chunks))) ∧
    ∀ (h : ChunkHeap Libc.tierCnt) (lists : Nat → List (BitVec 32)), FreeLists h lists →
      SafeRequest size (Libc.malloc h size) := by
  intro hall
  have hs := (hall 0xFFFFFFF8#32).2 (Libc.initHeap (fun _ => 0#8) 0x4000#32) (fun _ => [])
    (freeLists_empty _ _)
  rcases (allocate_safe_iff (by decide) (freeLists_empty _ _) (fun inc => (sbrk_full _ inc).1)
    (sbrk_full _ minChunkSize).2).mp hs with ⟨hsize, -⟩ | ⟨-, -, hfull⟩
  · revert hsize
    decide
  · revert hfull
    decide

end Muse.Memory
