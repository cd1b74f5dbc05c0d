import Muse.Libc.Heap
import Muse.Memory.Proofs.Allocate

/-!
# A freed chunk is used again

After `malloc(size)` and `free` on a fresh heap, the only chunk is in the tier of its size. The next
`malloc(size)` finds it as long as its size is even: an odd size loses its lowest bit to `BIT_FREE`,
and the chunk counts as too small.
-/

namespace Muse.Libc

open Muse.Library Muse.Memory

variable {h h' : ChunkHeap tierCnt} {c size : BitVec 32}

/-- No chunk is free. -/
def NoneFree (h : ChunkHeap tierCnt) : Prop := ∀ i, h.tiers i = 0#32

/-- The heap has one free chunk, `c`, for a request of `size` bytes. -/
structure Parked (h : ChunkHeap tierCnt) (c size : BitVec 32) : Prop where
  prevSize : h.prevSize c = 0#32
  sizeOf : h.sizeOf c = ChunkHeap.chunkSize size ||| bitFree
  next : h.next c = 0#32
  tiers : ∀ i, h.tiers i =
    if i.val = (tierIdx (ChunkHeap.chunkSize size &&& sizeMask)).toNat then c else 0#32

/-! ## Sizes -/

theorem chunkSize_limits (hsize : size.toNat + 8 < 2 ^ chunkSizeLimitLog) :
    16 ≤ (ChunkHeap.chunkSize size).toNat ∧ (ChunkHeap.chunkSize size).toNat < 2 ^ 15 := by
  obtain ⟨h16, hmax, -⟩ := @chunkSize_bounds tierCnt size (by decide) hsize
  exact ⟨h16, hmax⟩

/-- The tier of the chunk after its low bit was taken for `BIT_FREE`. -/
theorem tierIdx_masked_lt (hsize : size.toNat + 8 < 2 ^ chunkSizeLimitLog) :
    (tierIdx (ChunkHeap.chunkSize size &&& sizeMask)).toNat < tierCnt := by
  obtain ⟨h16, hmax⟩ := chunkSize_limits hsize
  have hmask := and_sizeMask_toNat (ChunkHeap.chunkSize size)
  exact tierIdx_lt (by omega) (Nat.lt_of_le_of_lt (by omega) hmax)

/-- The size of the chunk is even for an even request, and for one below the smallest chunk. -/
theorem chunkSize_even_iff (hsize : size.toNat + 8 < 2 ^ chunkSizeLimitLog) :
    ChunkHeap.chunkSize size &&& sizeMask = ChunkHeap.chunkSize size ↔
      size.toNat % 2 = 0 ∨ size.toNat < 8 := by
  have hlt : size.toNat + 8 < 2 ^ 15 := hsize
  rw [← BitVec.toNat_inj, and_sizeMask_toNat, chunkSize_toNat]
  omega

/-! ## The first pair -/

theorem initHeap_noneFree (mem : ByteMem) (base : BitVec 32) : NoneFree (initHeap mem base) :=
  fun _ => rfl

theorem fittingChunk_of_noneFree (hfree : NoneFree h)
    (hsize : size.toNat + 8 < 2 ^ chunkSizeLimitLog) :
    h.fittingChunk size = .ok (0#32, 0#32) := by
  obtain ⟨h16, hmax⟩ := chunkSize_limits hsize
  have hi : (tierIdx (ChunkHeap.chunkSize size)).toNat < tierCnt := tierIdx_lt h16 hmax
  rw [ChunkHeap.fittingChunk, ChunkHeap.tier, dif_pos hi, hfree]
  rfl

/-- Without a chunk that fits, `malloc` extends the region or fails. -/
theorem malloc_of_fitting_none {prev : BitVec 32} (hfit : h.fittingChunk size = .ok (prev, 0#32)) :
    malloc h size =
      if h.limit.toNat + (ChunkHeap.chunkSize size).toNat < 2 ^ 32 then
        .ok (h.limit - 4#32 + chunkOverhead,
          { (h.extend (ChunkHeap.chunkSize size)).setSizeOf (h.limit - 4#32)
            (ChunkHeap.chunkSize size) with size := h.size + ChunkHeap.chunkSize size })
      else .error .outOfMemory := by
  rw [malloc, ChunkHeap.allocate_of_none hfit, sbrk]
  split <;> rfl

/-- `free` of the only chunk parks it. -/
theorem free_parked (hsize : size.toNat + 8 < 2 ^ chunkSizeLimitLog) (hprev : h.prevSize c = 0#32)
    (hsz : h.sizeOf c ||| bitFree = ChunkHeap.chunkSize size ||| bitFree) (hfree : NoneFree h) :
    ∃ h', free h (c + chunkOverhead) = .ok h' ∧ Parked h' c size ∧ h'.limit = h.limit := by
  have hmerge : h.mergeChunk c = (c, h) := by
    rw [ChunkHeap.mergeChunk, hprev, if_neg (by simp)]
  have hi := tierIdx_masked_lt hsize
  have hroom : (h.setSizeOf c (ChunkHeap.chunkSize size ||| bitFree)).room c =
      ChunkHeap.chunkSize size &&& sizeMask := by
    rw [ChunkHeap.room, ChunkHeap.sizeOf_setSizeOf_self, or_bitFree_and_sizeMask]
  have hlink : (h.setSizeOf c (ChunkHeap.chunkSize size ||| bitFree)).linkChunk
      (tierIdx (ChunkHeap.chunkSize size &&& sizeMask)) c =
      .ok { (h.setSizeOf c (ChunkHeap.chunkSize size ||| bitFree)).setNext c 0#32 with
        tiers := Function.update h.tiers ⟨_, hi⟩ c } := by
    have hnull : (h.setSizeOf c (ChunkHeap.chunkSize size ||| bitFree)).tiers ⟨_, hi⟩ = 0#32 :=
      hfree ⟨_, hi⟩
    rw [ChunkHeap.linkChunk_eq, dif_pos hi, hnull]
    rfl
  obtain ⟨h₁, hh₁⟩ : ∃ h₁, h₁ =
      { (h.setSizeOf c (ChunkHeap.chunkSize size ||| bitFree)).setNext c 0#32 with
        tiers := Function.update h.tiers ⟨_, hi⟩ c } := ⟨_, rfl⟩
  rw [← hh₁] at hlink
  have htiers : h₁.tiers = Function.update h.tiers ⟨_, hi⟩ c := by rw [hh₁]
  refine ⟨{ h₁ with free := h₁.free + h₁.room c }, ?_, ⟨?_, ?_, ?_, ?_⟩, by rw [hh₁]; rfl⟩
  · rw [free, ChunkHeap.release, BitVec.add_sub_cancel, hmerge]
    dsimp only
    rw [hsz, hroom, hlink]
    rfl
  · rw [hh₁]
    exact (ChunkHeap.prevSize_setNext ..).trans ((ChunkHeap.prevSize_setSizeOf ..).trans hprev)
  · rw [hh₁]
    exact (ChunkHeap.sizeOf_setNext ..).trans (ChunkHeap.sizeOf_setSizeOf_self ..)
  · rw [hh₁]
    exact ChunkHeap.next_setNext_self ..
  · intro i
    dsimp only
    rw [htiers]
    by_cases hic : i.val = (tierIdx (ChunkHeap.chunkSize size &&& sizeMask)).toNat
    · obtain rfl : i = ⟨_, hi⟩ := Fin.ext hic
      rw [if_pos rfl]
      exact Function.update_self ..
    · rw [if_neg hic]
      refine (Function.update_of_ne (fun he => hic ?_) _ _).trans (hfree i)
      rw [he]

/-- The first pair parks the chunk at the start of the region. -/
theorem pair_initHeap (mem : ByteMem) (base : BitVec 32)
    (hsize : size.toNat + 8 < 2 ^ chunkSizeLimitLog) :
    if (initHeap mem base).limit.toNat + (ChunkHeap.chunkSize size).toNat < 2 ^ 32 then
      ∃ h, pair size (initHeap mem base) = .ok h ∧ Parked h base size ∧
        h.limit = (initHeap mem base).limit + ChunkHeap.chunkSize size
    else pair size (initHeap mem base) = .error .outOfMemory := by
  have hmalloc := malloc_of_fitting_none
    (fittingChunk_of_noneFree (initHeap_noneFree mem base) hsize)
  have hbase : (initHeap mem base).limit - 4#32 = base := BitVec.add_sub_cancel ..
  split
  · next hroom =>
      rw [if_pos hroom, hbase] at hmalloc
      obtain ⟨h, hfree, hparked, hlimit⟩ := free_parked hsize (c := base)
        (h := { ((initHeap mem base).extend (ChunkHeap.chunkSize size)).setSizeOf base
          (ChunkHeap.chunkSize size) with
          size := (initHeap mem base).size + ChunkHeap.chunkSize size })
        ((ChunkHeap.prevSize_setSizeOf ..).trans (readWord_writeWord_self ..))
        (congrArg (· ||| bitFree) (ChunkHeap.sizeOf_setSizeOf_self ..))
        (initHeap_noneFree mem base)
      refine ⟨h, ?_, hparked, hlimit⟩
      rw [pair, hmalloc]
      exact hfree
  · next hroom =>
      rw [if_neg hroom] at hmalloc
      rw [pair, hmalloc]
      rfl

/-! ## The pairs that follow -/

/-- A parked chunk of even size is found, taken and parked again. -/
theorem Parked.pair (hp : Parked h c size) (hsize : size.toNat + 8 < 2 ^ chunkSizeLimitLog)
    (hc : c ≠ 0#32)
    (heven : ChunkHeap.chunkSize size &&& sizeMask = ChunkHeap.chunkSize size) :
    ∃ h', Libc.pair size h = .ok h' ∧ Parked h' c size ∧ h'.limit = h.limit := by
  obtain ⟨h16, hmax⟩ := chunkSize_limits hsize
  have hi : (tierIdx (ChunkHeap.chunkSize size)).toNat < tierCnt := tierIdx_lt h16 hmax
  have hroom : h.room c = ChunkHeap.chunkSize size := by
    rw [ChunkHeap.room, hp.sizeOf, or_bitFree_and_sizeMask, heven]
  have htiers := hp.tiers
  rw [heven] at htiers
  have hfit : h.fittingChunk size = .ok (0#32, c) := by
    rw [ChunkHeap.fittingChunk, ChunkHeap.tier, dif_pos hi, htiers, if_pos rfl]
    change h.findChunk _ _ _ c = _
    rw [show 2 ^ 32 = 4294967295 + 1 from rfl, ChunkHeap.findChunk, if_neg hc, hroom,
      if_neg (BitVec.lt_irrefl _)]
  obtain ⟨h₁, hh₁⟩ : ∃ h₁, h₁ = { h with tiers := Function.update h.tiers ⟨_, hi⟩ 0#32 } :=
    ⟨_, rfl⟩
  have hunlink : h.unlinkChunk (tierIdx (ChunkHeap.chunkSize size)) 0#32 c = .ok h₁ := by
    rw [ChunkHeap.unlinkChunk, if_neg (by simp), hp.next, ChunkHeap.setTier, dif_pos hi, hh₁]
  have hroom₁ : h₁.room c = ChunkHeap.chunkSize size := by
    rw [hh₁]
    exact hroom
  have hsplit : ¬ h₁.Splits c size := by
    intro hs
    rw [ChunkHeap.Splits, hroom₁, BitVec.le_def, BitVec.toNat_add, BitVec.toNat_add,
      show minChunkSize.toNat = 16 from rfl, show chunkOverhead.toNat = 8 from rfl] at hs
    omega
  have hnone : NoneFree h₁ := by
    intro i
    rw [hh₁]
    by_cases hic : i.val = (tierIdx (ChunkHeap.chunkSize size)).toNat
    · obtain rfl : i = ⟨_, hi⟩ := Fin.ext hic
      exact Function.update_self ..
    · refine (Function.update_of_ne (fun he => hic ?_) _ _).trans ?_
      · rw [he]
      · rw [htiers, if_neg hic]
  have hsz : h₁.sizeOf c ||| bitFree = ChunkHeap.chunkSize size ||| bitFree := by
    have hsizeOf : h₁.sizeOf c = ChunkHeap.chunkSize size ||| bitFree := by
      rw [hh₁]
      exact hp.sizeOf
    rw [hsizeOf, BitVec.or_assoc, BitVec.or_self]
  obtain ⟨h', hfree, hparked, hlimit⟩ := free_parked (h := h₁) (c := c) hsize
    (by rw [hh₁]; exact hp.prevSize) hsz hnone
  refine ⟨h', ?_, hparked, ?_⟩
  · rw [Libc.pair, malloc, ChunkHeap.allocate_of_whole hfit hc hunlink hsplit]
    exact hfree
  · rw [hlimit, hh₁]

theorem Parked.pairs (hsize : size.toNat + 8 < 2 ^ chunkSizeLimitLog) (hc : c ≠ 0#32)
    (heven : ChunkHeap.chunkSize size &&& sizeMask = ChunkHeap.chunkSize size) (k : Nat) :
    ∀ {h : ChunkHeap tierCnt}, Parked h c size →
      ∃ h', Libc.pairs size k h = .ok h' ∧ h'.limit = h.limit := by
  induction k with
  | zero => exact fun {h} _ => ⟨h, rfl, rfl⟩
  | succ k ih =>
      intro h hp
      obtain ⟨h₁, hpair, hparked, hlimit⟩ := hp.pair hsize hc heven
      obtain ⟨h', hpairs, hlimit'⟩ := ih hparked
      refine ⟨h', ?_, hlimit'.trans hlimit⟩
      rw [Libc.pairs, hpair]
      exact hpairs

/-- A parked chunk of odd size, or at address 0, is passed over. -/
theorem Parked.fittingChunk_none (hp : Parked h c size)
    (hsize : size.toNat + 8 < 2 ^ chunkSizeLimitLog)
    (hbad : c = 0#32 ∨ ChunkHeap.chunkSize size &&& sizeMask ≠ ChunkHeap.chunkSize size) :
    ∃ prev, h.fittingChunk size = .ok (prev, 0#32) := by
  obtain ⟨h16, hmax⟩ := chunkSize_limits hsize
  have hi : (tierIdx (ChunkHeap.chunkSize size)).toNat < tierCnt := tierIdx_lt h16 hmax
  rw [ChunkHeap.fittingChunk, ChunkHeap.tier, dif_pos hi]
  change ∃ prev, h.findChunk _ _ _ (h.tiers _) = _
  have hempty : ∀ fuel prev, h.findChunk (ChunkHeap.chunkSize size) (fuel + 1) prev 0#32 =
      .ok (prev, 0#32) := by
    intro fuel prev
    rw [ChunkHeap.findChunk, if_pos rfl]
  rw [show 2 ^ 32 = 4294967294 + 1 + 1 from rfl, hp.tiers]
  split
  · by_cases hc : c = 0#32
    · rw [hc]
      exact ⟨0#32, hempty _ _⟩
    · have hroom : h.room c < ChunkHeap.chunkSize size := by
        have hne := BitVec.toNat_ne_iff_ne.mpr (hbad.resolve_left hc)
        rw [ChunkHeap.room, hp.sizeOf, or_bitFree_and_sizeMask, BitVec.lt_def]
        have := and_sizeMask_toNat (ChunkHeap.chunkSize size)
        omega
      rw [ChunkHeap.findChunk, if_neg hc, if_pos hroom, hp.next]
      exact ⟨c, hempty _ _⟩
  · exact ⟨0#32, hempty _ _⟩

/-- An extension moves the end of the region up for good. -/
theorem pair_extends (hsize : size.toNat + 8 < 2 ^ chunkSizeLimitLog) {prev : BitVec 32}
    (hfit : h.fittingChunk size = .ok (prev, 0#32)) (hpair : pair size h = .ok h') :
    h.limit.toNat < h'.limit.toNat := by
  obtain ⟨h16, hmax⟩ := chunkSize_limits hsize
  have hmalloc := malloc_of_fitting_none hfit
  split at hmalloc
  · next hroom =>
      rw [pair, hmalloc] at hpair
      have hlimit : h'.limit = h.limit + ChunkHeap.chunkSize size :=
        ChunkHeap.release_limit hpair
      rw [hlimit, BitVec.toNat_add]
      omega
  · rw [pair, hmalloc] at hpair
    cases hpair

/-- `malloc` never moves the end of the region down. -/
theorem malloc_limit_le {ptr : BitVec 32} (hs : malloc h size = .ok (ptr, h')) :
    h.limit.toNat ≤ h'.limit.toNat := by
  obtain ⟨⟨prev, c⟩, hfit, -⟩ := bind_eq_ok.mp hs
  by_cases hc : c = 0#32
  · subst hc
    rw [malloc_of_fitting_none hfit] at hs
    split at hs
    · next hroom =>
        cases hs
        change h.limit.toNat ≤ (h.limit + ChunkHeap.chunkSize size).toNat
        rw [BitVec.toNat_add]
        omega
    · cases hs
  · rw [ChunkHeap.allocate_found_limit hfit hc hs]

theorem pair_limit_le (hs : pair size h = .ok h') : h.limit.toNat ≤ h'.limit.toNat := by
  obtain ⟨⟨ptr, h₁⟩, hmalloc, hfree⟩ := bind_eq_ok.mp hs
  have hlimit : h'.limit = h₁.limit := ChunkHeap.release_limit hfree
  rw [hlimit]
  exact malloc_limit_le hmalloc

theorem pairs_limit_le (k : Nat) : ∀ {h h' : ChunkHeap tierCnt}, pairs size k h = .ok h' →
    h.limit.toNat ≤ h'.limit.toNat := by
  induction k with
  | zero =>
      intro h h' hs
      cases hs
      exact Nat.le_refl _
  | succ k ih =>
      intro h h' hs
      obtain ⟨h₁, hpair, hrest⟩ := bind_eq_ok.mp hs
      exact Nat.le_trans (pair_limit_le hpair) (ih hrest)

/-- After a chunk was passed over, the end of the region is not where it was. -/
theorem Parked.pairs_moved (hp : Parked h c size)
    (hsize : size.toNat + 8 < 2 ^ chunkSizeLimitLog)
    (hbad : c = 0#32 ∨ ChunkHeap.chunkSize size &&& sizeMask ≠ ChunkHeap.chunkSize size) {k : Nat}
    (hs : Libc.pairs size (k + 1) h = .ok h') : h'.limit ≠ h.limit := by
  obtain ⟨prev, hfit⟩ := hp.fittingChunk_none hsize hbad
  obtain ⟨h₁, hpair, hrest⟩ := bind_eq_ok.mp hs
  have hlt := pair_extends hsize hfit hpair
  have hle := pairs_limit_le k hrest
  intro he
  rw [he] at hle
  omega

/-- `k` pairs leave the end of the region where the first one put it. -/
def Reuses (mem : ByteMem) (base size : BitVec 32) (k : Nat) : Prop :=
  ∃ h₁ h, pairs size 1 (initHeap mem base) = .ok h₁ ∧ pairs size k (initHeap mem base) = .ok h ∧
    h.limit = h₁.limit

theorem pairs_one (h : ChunkHeap tierCnt) : pairs size 1 h = pair size h := by
  rw [pairs]
  cases pair size h <;> rfl

/-- The pairs after the first one reuse its chunk. -/
theorem reuses_succ (size : BitVec 32) (mem : ByteMem) (base : BitVec 32) (k : Nat)
    (hsize : size.toNat + 8 < 2 ^ chunkSizeLimitLog) : Reuses mem base size (k + 1) ↔
      (initHeap mem base).limit.toNat + (ChunkHeap.chunkSize size).toNat < 2 ^ 32 ∧
      (k = 0 ∨ base ≠ 0#32 ∧
        ChunkHeap.chunkSize size &&& sizeMask = ChunkHeap.chunkSize size) := by
  have hfirst := pair_initHeap mem base hsize
  rw [Reuses, pairs_one]
  split at hfirst
  · next hroom =>
      obtain ⟨h₁, hpair, hparked, -⟩ := hfirst
      have hrest : pairs size (k + 1) (initHeap mem base) = pairs size k h₁ := by
        rw [pairs, hpair]
        rfl
      rw [hrest, hpair, and_iff_right hroom]
      constructor
      · rintro ⟨h₁', h, heq, hpairs, hlimit⟩
        obtain rfl := Except.ok.inj heq
        cases k with
        | zero => exact .inl rfl
        | succ k =>
            right
            by_contra hbad
            refine hparked.pairs_moved hsize ?_ hpairs hlimit
            rw [not_and_or, not_not] at hbad
            exact hbad
      · rintro (rfl | ⟨hbase, heven⟩)
        · exact ⟨h₁, h₁, rfl, rfl, rfl⟩
        · obtain ⟨h, hpairs, hlimit⟩ := hparked.pairs hsize hbase heven k
          exact ⟨h₁, h, rfl, hpairs, hlimit⟩
  · next hroom =>
      constructor
      · rintro ⟨h₁, h, hpair, -⟩
        rw [hfirst] at hpair
        cases hpair
      · rintro ⟨hlt, -⟩
        exact absurd hlt hroom

/-- The memory of a freed chunk is used again exactly for requests of an even size or below 8 bytes,
    as long as the region can hold one chunk and does not start at address 0. -/
theorem pairs_reuse_iff (mem : ByteMem) (base size : BitVec 32) (k : Nat)
    (hsize : size.toNat + 8 < 2 ^ chunkSizeLimitLog) (hk : 1 ≤ k) :
    Reuses mem base size k ↔
      (initHeap mem base).limit.toNat + (ChunkHeap.chunkSize size).toNat < 2 ^ 32 ∧
      (k = 1 ∨ base ≠ 0#32 ∧ (size.toNat % 2 = 0 ∨ size.toNat < 8)) := by
  obtain ⟨k, rfl⟩ : ∃ j, k = j + 1 := ⟨k - 1, by omega⟩
  rw [reuses_succ size mem base k hsize, chunkSize_even_iff hsize]
  simp

theorem pairs_reuse_ten : Reuses (fun _ => 0#8) 0x4000#32 10#32 3 :=
  (pairs_reuse_iff (fun _ => 0#8) 0x4000#32 10#32 3 (by decide) (by decide)).mpr
    ⟨by decide, .inr ⟨by decide, .inl (by decide)⟩⟩

/-- The second request for 9 bytes extends the region. -/
theorem pairs_grow : ¬ ∀ (mem : ByteMem) (base size : BitVec 32) (k : Nat),
    size.toNat + 8 < 2 ^ chunkSizeLimitLog → 1 ≤ k → base ≠ 0#32 →
    (initHeap mem base).limit.toNat + (ChunkHeap.chunkSize size).toNat < 2 ^ 32 →
    Reuses mem base size k := by
  intro h
  have h9 := h (fun _ => 0#8) 0x4000#32 9#32 2 (by decide) (by decide) (by decide) (by decide)
  obtain ⟨-, hk | ⟨-, heven⟩⟩ := (reuses_succ 9#32 (fun _ => 0#8) 0x4000#32 1
    (by decide)).mp h9
  · cases hk
  · revert heven
    decide

end Muse.Libc
