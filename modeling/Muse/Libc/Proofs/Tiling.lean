import Muse.Libc.Proofs.NoOverlap
import Muse.Library.Links
import Muse.Library.RecordChain

/-!
# Boundary tags of the userspace heap

Every chunk should begin with a copy of the size word of the chunk in front of it, and the heap
should end with one. A new chunk does not write the copy behind it, and `free` sets `BIT_FREE` in
the chunk, but not in the copy. So the tags are right only in runs without a `free`, in which every
new chunk finds its copy behind it already.
-/

namespace Muse.Libc

open Muse.Library Muse.Memory

namespace State

/-! ## The property -/

/-- The chunk belongs to an allocation. -/
def Allocated (s : State) (c : BitVec 32) : Prop := ∃ x ∈ s.live, x.1 - chunkOverhead = c

/-- The walk by sizes from the first chunk visits `chunks`, and `lists` are the free chunks of the
    tiers. The tags behind the chunks are their size words. -/
structure Tiles (base : BitVec 32) (s : State) (chunks : List (BitVec 32))
    (lists : Fin tierCnt → List (BitVec 32)) : Prop where
  tiers : ∀ i, Chain s.heap.next 0#32 (s.heap.tiers i) (lists i)
  walk : RecordChain (fun c => Allocated s c ∨ ∃ i, c ∈ lists i) (fun c => c + s.heap.room c) base
    chunks (s.heap.limit - 4#32)
  once : chunks.Nodup
  allocated : ∀ c, Allocated s c → c ∈ chunks
  free : ∀ i, ∀ c ∈ lists i, c ∈ chunks
  bit : ∀ c ∈ chunks, s.heap.sizeOf c &&& bitFree = 0#32 ↔ Allocated s c
  tags : ∀ c ∈ chunks, s.heap.prevSize (c + s.heap.room c) = s.heap.sizeOf c

/-- The chunks tile the heap. -/
def Tiled (base : BitVec 32) (s : State) : Prop := ∃ chunks lists, Tiles base s chunks lists

/-- The steps that keep the tags: nothing is freed, and a new chunk has an even size and finds it at
    the end of the heap. -/
def KeepsTags (s : State) (op : HeapState.Op) : Prop :=
  Uses s op ∧ match op with
  | .malloc size => ChunkHeap.chunkSize size &&& bitFree = 0#32 ∧
      s.heap.prevSize (s.heap.limit - 4#32 + ChunkHeap.chunkSize size) = ChunkHeap.chunkSize size
  | .free _ => False
  | .write _ _ => True

instance (s : State) : ∀ op, Decidable (KeepsTags s op)
  | .malloc _ => inferInstanceAs (Decidable (_ ∧ _))
  | .free _ => inferInstanceAs (Decidable (_ ∧ _))
  | .write _ _ => inferInstanceAs (Decidable (_ ∧ _))

/-! ## Heaps without free chunks -/

/-- There is a chunk of at least 16 bytes at `c`, with a word behind it. -/
def ChunkAt (h : ChunkHeap tierCnt) (c : BitVec 32) : Prop :=
  16 ≤ (h.room c).toNat ∧ c.toNat + (h.room c).toNat + 4 ≤ h.limit.toNat

/-- The invariant of a run that frees nothing: all chunks are allocated. -/
structure Laid (base : BitVec 32) (s : State) (chunks : List (BitVec 32)) : Prop where
  limit : base.toNat + 4 ≤ s.heap.limit.toNat
  root : s.heap.prevSize base = 0#32
  empty : ∀ i, s.heap.tiers i = 0#32
  walk : RecordChain (ChunkAt s.heap) (fun c => c + s.heap.room c) base chunks
    (s.heap.limit - 4#32)
  allocated : ∀ c ∈ chunks, Allocated s c
  live : ∀ x ∈ s.live, x.1 - chunkOverhead ∈ chunks ∧
    x.2.toNat + 8 ≤ (s.heap.room (x.1 - chunkOverhead)).toNat
  even : ∀ c ∈ chunks, s.heap.sizeOf c &&& bitFree = 0#32
  tags : ∀ c ∈ chunks, s.heap.prevSize (c + s.heap.room c) = s.heap.sizeOf c

variable {base : BitVec 32} {s s' : State} {chunks : List (BitVec 32)} {c d size : BitVec 32}
  {byte : BitVec 8}

theorem ChunkAt.next_toNat {h : ChunkHeap tierCnt} (hc : ChunkAt h c) :
    (c + h.room c).toNat = c.toNat + (h.room c).toNat := by
  have hlimit := h.limit.isLt
  have := hc.2
  rw [BitVec.toNat_add, Nat.mod_eq_of_lt (by omega)]

theorem ChunkAt.lt_next {h : ChunkHeap tierCnt} (c : BitVec 32) (hc : ChunkAt h c) :
    c.toNat < (c + h.room c).toNat := by
  have hmin := hc.1
  rw [hc.next_toNat]
  omega

namespace Laid

variable (h : Laid base s chunks)

include h

theorem end_toNat : (s.heap.limit - 4#32).toNat = s.heap.limit.toNat - 4 := by
  have := h.limit
  have := s.heap.limit.isLt
  rw [BitVec.toNat_sub, BitVec.toNat_ofNat]
  omega

theorem base_le (hc : c ∈ chunks) : base.toNat ≤ c.toNat :=
  (h.walk.mem_bounds ChunkAt.lt_next hc).1

/-- A heap like this is tiled. -/
theorem tiled : Tiled base s := by
  refine ⟨chunks, fun _ => [], fun i => h.empty i, ?_, h.walk.nodup ChunkAt.lt_next, ?_, ?_, ?_,
    h.tags⟩
  · exact h.walk.congr (fun c hc _ => .inl (h.allocated c hc)) fun _ _ => rfl
  · rintro c ⟨x, hx, rfl⟩
    exact (h.live x hx).1
  · intro i c hc
    cases hc
  · exact fun c hc => ⟨fun _ => h.allocated c hc, fun _ => h.even c hc⟩

/-- An allocation of the program, its chunk, and where the program's bytes are in it. -/
theorem live_toNat {x : BitVec 32 × BitVec 32} (hx : x ∈ s.live) :
    x.1.toNat = (x.1 - chunkOverhead).toNat + 8 := by
  obtain ⟨hmem, -⟩ := h.live x hx
  have hc := h.walk.mem_ok hmem
  have hlimit := s.heap.limit.isLt
  have hback : x.1 - chunkOverhead + chunkOverhead = x.1 := BitVec.sub_add_cancel ..
  have := hc.2
  have := hc.1
  rw [← hback, BitVec.toNat_add, show chunkOverhead.toNat = 8 from rfl, hback]
  omega

/-- The tag in front of a chunk has no `BIT_FREE`. -/
theorem prevSize_even (hc : c ∈ chunks) : s.heap.prevSize c &&& bitFree = 0#32 := by
  rcases h.walk.mem_pred hc with rfl | ⟨d, hd, rfl⟩
  · rw [h.root]
    rfl
  · rw [h.tags d hd]
    exact h.even d hd

end Laid

theorem Laid.init (mem : ByteMem) (base : BitVec 32) (hlimit : base.toNat + 4 < 2 ^ 32) :
    Laid base ⟨initHeap mem base, []⟩ [] where
  limit := by
    rw [initHeap, ChunkHeap.empty, BitVec.toNat_add, BitVec.toNat_ofNat]
    omega
  root := readWord_writeWord_self ..
  empty := fun _ => rfl
  walk := by
    have hend : (initHeap mem base).limit - 4#32 = base := BitVec.add_sub_cancel ..
    rw [hend]
    exact .nil base
  allocated := fun _ hc => nomatch hc
  live := fun _ hx => nomatch hx
  even := fun _ hc => nomatch hc
  tags := fun _ hc => nomatch hc

/-! ## Allocating -/

/-- The heap with a new chunk at its end. -/
def grown (heap : ChunkHeap tierCnt) (chSize : BitVec 32) : ChunkHeap tierCnt :=
  let h := (heap.extend chSize).setSizeOf (heap.limit - 4#32) chSize
  { h with size := h.size + chSize }

namespace Laid

variable (h : Laid base s chunks)

include h

/-- Without free chunks, every allocation takes a new chunk. -/
theorem step_malloc (huses : Uses s (.malloc size)) (hstep : step s (.malloc size) = some s') :
    s.heap.limit.toNat + (ChunkHeap.chunkSize size).toNat < 2 ^ 32 ∧
      s' = ⟨grown s.heap (ChunkHeap.chunkSize size),
        (s.heap.limit - 4#32 + chunkOverhead, size) :: s.live⟩ := by
  obtain ⟨h16, hmax, -⟩ := chunkSize_bounds (n := tierCnt) (by decide) huses
  have htier : s.heap.tier (tierIdx (ChunkHeap.chunkSize size)) = .ok 0#32 := by
    rw [ChunkHeap.tier, dif_pos (tierIdx_lt h16 hmax), h.empty]
  have hnil : Chain s.heap.next 0#32 0#32 [] := chain_nil.mpr rfl
  obtain ⟨⟨prev, ch⟩, hfind⟩ := s.heap.findChunk_total (ChunkHeap.chunkSize size) 0#32 hnil
    (by decide : ([] : List (BitVec 32)).length < 2 ^ 32)
  have hch : ch = 0#32 := by
    rcases s.heap.findChunk_spec hnil hfind with hzero | ⟨xs, ys, hlist, -⟩
    · exact hzero
    · exact absurd hlist.symm (by simp)
  have hfit : s.heap.fittingChunk size = .ok (prev, 0#32) := by
    rw [ChunkHeap.fittingChunk, htier]
    exact hfind.trans (by rw [hch])
  have hmalloc : malloc s.heap size = (sbrk s.heap (ChunkHeap.chunkSize size)).bind fun heap =>
      .ok (s.heap.limit - 4#32 + chunkOverhead,
        { heap.setSizeOf (s.heap.limit - 4#32) (ChunkHeap.chunkSize size) with
          size := heap.size + ChunkHeap.chunkSize size }) := by
    rw [malloc, ChunkHeap.allocate, hfit]
    rfl
  rw [step, HeapState.perform, hmalloc, sbrk] at hstep
  by_cases hlt : s.heap.limit.toNat + (ChunkHeap.chunkSize size).toNat < 2 ^ 32
  · rw [if_pos hlt] at hstep
    exact ⟨hlt, (Option.some.inj hstep).symm⟩
  · rw [if_neg hlt] at hstep
    cases hstep

end Laid

section Grown

variable {heap : ChunkHeap tierCnt} (h16 : 16 ≤ size.toNat)
  (hlt : heap.limit.toNat + size.toNat < 2 ^ 32)

include h16 hlt

/-- A new chunk only writes its own size word. -/
theorem grown_word {a : BitVec 32} (ha : a.toNat + 4 ≤ heap.limit.toNat ∨
    heap.limit.toNat + 4 ≤ a.toNat ∧ a.toNat + 4 ≤ 2 ^ 32) :
    readWord (grown heap size).mem a = readWord heap.mem a := by
  have hmem : (grown heap size).mem = writeWord heap.mem (heap.limit - 4#32 + 4#32) size := rfl
  rw [hmem, BitVec.sub_add_cancel]
  refine readWord_writeWord_of_apart _ _ ⟨?_, ?_, ?_⟩ <;> omega

theorem grown_sizeOf (hc : c.toNat + 8 ≤ heap.limit.toNat) :
    (grown heap size).sizeOf c = heap.sizeOf c := by
  have h4 : (c + 4#32).toNat = c.toNat + 4 :=
    ChunkHeap.toNat_add_of_le (m := 8) (by omega) (by decide)
  exact grown_word h16 hlt (.inl (by omega))

theorem grown_room (hc : c.toNat + 8 ≤ heap.limit.toNat) :
    (grown heap size).room c = heap.room c := by
  rw [ChunkHeap.room, grown_sizeOf h16 hlt hc, ChunkHeap.room]

omit h16 in
theorem grown_limit : (grown heap size).limit.toNat = heap.limit.toNat + size.toNat := by
  change (heap.limit + size).toNat = _
  rw [BitVec.toNat_add, Nat.mod_eq_of_lt hlt]

/-- The tag at the new end is what was there. -/
theorem grown_tag (h4 : 4 ≤ heap.limit.toNat) :
    (grown heap size).prevSize (heap.limit - 4#32 + size) =
      heap.prevSize (heap.limit - 4#32 + size) := by
  have hend : (heap.limit - 4#32 + size).toNat = heap.limit.toNat - 4 + size.toNat := by
    rw [BitVec.toNat_add, BitVec.toNat_sub, BitVec.toNat_ofNat]
    omega
  exact grown_word h16 hlt (.inr (by omega))

end Grown

theorem grown_end (heap : ChunkHeap tierCnt) (size : BitVec 32) :
    (grown heap size).limit - 4#32 = heap.limit - 4#32 + size := by
  change heap.limit + size - 4#32 = _
  exact BitVec.add_sub_comm

theorem grown_new (heap : ChunkHeap tierCnt) (size : BitVec 32) :
    (grown heap size).sizeOf (heap.limit - 4#32) = size :=
  ChunkHeap.sizeOf_setSizeOf_self (heap.extend size) (heap.limit - 4#32) size

/-- A size without `BIT_FREE` is what `SIZE_MASK` leaves of it. -/
theorem and_sizeMask_of_even {x : BitVec 32} (h : x &&& bitFree = 0#32) : x &&& sizeMask = x := by
  have hmod := congrArg BitVec.toNat h
  rw [BitVec.toNat_and, show bitFree.toNat = 1 from rfl, Nat.and_one_is_mod,
    BitVec.toNat_ofNat] at hmod
  refine BitVec.eq_of_toNat_eq ?_
  rw [and_sizeMask_toNat]
  omega

namespace Laid

variable (h : Laid base s chunks)

include h

/-- A new chunk of even size, behind which there is the right word, keeps the tags. -/
theorem malloc (huses : Uses s (.malloc size)) (hkeeps : KeepsTags s (.malloc size))
    (hstep : step s (.malloc size) = some s') :
    Laid base s' (chunks ++ [s.heap.limit - 4#32]) := by
  obtain ⟨hlt, rfl⟩ := h.step_malloc huses hstep
  obtain ⟨-, heven, htag⟩ := hkeeps
  obtain ⟨h16, hmax, hle⟩ := chunkSize_bounds (n := tierCnt) (by decide) huses
  generalize ChunkHeap.chunkSize size = chSize at *
  have hlimit := h.limit
  have hend := h.end_toNat
  have hnew := grown_new s.heap chSize
  have hroom : (grown s.heap chSize).room (s.heap.limit - 4#32) = chSize := by
    rw [ChunkHeap.room, hnew, and_sizeMask_of_even heven]
  have hin : ∀ c ∈ chunks, c.toNat + 8 ≤ s.heap.limit.toNat := by
    intro c hc
    have hat := h.walk.mem_ok hc
    have := hat.1
    have := hat.2
    omega
  have hold : ∀ c ∈ chunks, (grown s.heap chSize).room c = s.heap.room c := fun c hc =>
    grown_room h16 hlt (hin c hc)
  have hgrown := grown_limit hlt
  refine ⟨?_, ?_, h.empty, ?_, ?_, ?_, ?_, ?_⟩
  · rw [hgrown]
    omega
  · exact (grown_word h16 hlt (.inl hlimit)).trans h.root
  · refine RecordChain.append (h.walk.congr ?_ fun c hc => by rw [hold c hc]) (.cons ⟨?_, ?_⟩ ?_)
    · rintro c hc ⟨hmin, hmax⟩
      rw [ChunkAt, hold c hc, hgrown]
      exact ⟨hmin, by omega⟩
    · rw [hroom]
      exact h16
    · rw [hroom, hend, hgrown]
      omega
    · rw [hroom, ← grown_end s.heap chSize]
      exact .nil _
  · intro c hc
    rcases List.mem_append.mp hc with hc | hc
    · obtain ⟨x, hx, rfl⟩ := h.allocated c hc
      exact ⟨x, List.mem_cons_of_mem _ hx, rfl⟩
    · rw [List.mem_singleton.mp hc]
      exact ⟨_, List.mem_cons_self, BitVec.add_sub_cancel ..⟩
  · intro x hx
    rcases List.mem_cons.mp hx with rfl | hx
    · rw [BitVec.add_sub_cancel, hroom]
      exact ⟨List.mem_append_right _ (List.mem_singleton.mpr rfl), hle⟩
    · obtain ⟨hmem, hsize⟩ := h.live x hx
      rw [hold _ hmem]
      exact ⟨List.mem_append_left _ hmem, hsize⟩
  · intro c hc
    rcases List.mem_append.mp hc with hc | hc
    · rw [grown_sizeOf h16 hlt (hin c hc)]
      exact h.even c hc
    · rw [List.mem_singleton.mp hc, hnew]
      exact heven
  · intro c hc
    rcases List.mem_append.mp hc with hc | hc
    · have hat := h.walk.mem_ok hc
      rw [hold c hc, grown_sizeOf h16 hlt (hin c hc), ← h.tags c hc]
      exact grown_word h16 hlt (.inl (by rw [hat.next_toNat]; exact hat.2))
    · rw [List.mem_singleton.mp hc, hroom, hnew, grown_tag h16 hlt (by omega)]
      exact htag

/-- Memory may change apart from the headers of the chunks and the word at the end. -/
theorem frame (mem : ByteMem)
    (hsame : ∀ a : BitVec 32, (a = base ∨ ∃ c ∈ chunks, a = c + 4#32 ∨ a = c + s.heap.room c) →
      readWord mem a = readWord s.heap.mem a) :
    Laid base { s with heap.mem := mem } chunks := by
  have hsize : ∀ c ∈ chunks, ChunkHeap.sizeOf { s.heap with mem } c = s.heap.sizeOf c :=
    fun c hc => hsame _ (.inr ⟨c, hc, .inl rfl⟩)
  have hroom : ∀ c ∈ chunks, ChunkHeap.room { s.heap with mem } c = s.heap.room c := fun c hc => by
    rw [ChunkHeap.room, hsize c hc, ChunkHeap.room]
  refine ⟨h.limit, (hsame base (.inl rfl)).trans h.root, h.empty, ?_, h.allocated, ?_, ?_, ?_⟩
  · refine h.walk.congr (fun c hc hat => ?_) fun c hc => by rw [hroom c hc]
    rw [ChunkAt, hroom c hc]
    exact hat
  · intro x hx
    obtain ⟨hmem, hle⟩ := h.live x hx
    rw [hroom _ hmem]
    exact ⟨hmem, hle⟩
  · intro c hc
    rw [hsize c hc]
    exact h.even c hc
  · intro c hc
    rw [hroom c hc, hsize c hc, ← h.tags c hc]
    exact hsame _ (.inr ⟨c, hc, .inr rfl⟩)

/-- A write of the program to its own memory keeps the tags. -/
theorem write {addr : BitVec 32} (huses : Uses s (.write addr byte)) :
    Laid base { s with heap.mem := Function.update s.heap.mem addr byte } chunks := by
  obtain ⟨x, hx, hlo, hhi⟩ := huses
  obtain ⟨hmem, hsize⟩ := h.live x hx
  have hptr := h.live_toNat hx
  have hbase := h.base_le hmem
  generalize x.1 - chunkOverhead = c at *
  have hat := h.walk.mem_ok hmem
  have hnext := hat.next_toNat
  have hlimit := s.heap.limit.isLt
  refine h.frame _ fun a ha => ?_
  -- the byte is behind the header of `c` and in front of the next chunk
  have hword : (addr.toNat < a.toNat ∨ a.toNat + 4 ≤ addr.toNat) ∧ a.toNat + 4 ≤ 2 ^ 32 := by
    rcases ha with rfl | ⟨d, hd, ha⟩
    · have := h.limit
      omega
    · have hdat := h.walk.mem_ok hd
      have hdnext := hdat.next_toNat
      have := hdat.1
      have := hdat.2
      have hd4 : (d + 4#32).toNat = d.toNat + 4 :=
        ChunkHeap.toNat_add_of_le (m := 8) (by omega) (by decide)
      have hapart := h.walk.apart ChunkAt.lt_next hmem hd
      rcases ha with rfl | rfl <;> rcases hapart with rfl | hle | hle <;> omega
  exact readWord_update_of_apart _ _ hword.1 hword.2

/-! ## Steps that break the tags -/

/-- If the heap is tiled after an allocation, the new chunk has found its tag. -/
theorem keepsTags_of_tiled (huses : Uses s (.malloc size))
    (hstep : step s (.malloc size) = some s') (ht : Tiled base s') :
    KeepsTags s (.malloc size) := by
  obtain ⟨hlt, rfl⟩ := h.step_malloc huses hstep
  obtain ⟨h16, -, -⟩ := chunkSize_bounds (n := tierCnt) (by decide) huses
  refine ⟨huses, ?_⟩
  dsimp only
  generalize ChunkHeap.chunkSize size = chSize at *
  obtain ⟨chunks', lists, ht⟩ := ht
  have hlimit := h.limit
  have hnew := grown_new s.heap chSize
  have hlive : Allocated
      ⟨grown s.heap chSize, (s.heap.limit - 4#32 + chunkOverhead, size) :: s.live⟩
      (s.heap.limit - 4#32) := ⟨_, List.mem_cons_self, BitVec.add_sub_cancel ..⟩
  have hmem := ht.allocated _ hlive
  have heven := (ht.bit _ hmem).mpr hlive
  have htag := ht.tags _ hmem
  dsimp only at heven htag
  rw [hnew] at heven
  rw [ChunkHeap.room, hnew, and_sizeMask_of_even heven, grown_tag h16 hlt (by omega)] at htag
  exact ⟨heven, htag⟩

/-- What `free` writes: the bit, and the link in front of the tier. -/
theorem step_free {ptr : BitVec 32} (huses : Uses s (.free ptr))
    (hstep : step s (.free ptr) = some s') : ∃ i, s'.heap.tiers i = ptr - chunkOverhead ∧
      s'.heap.mem = ((s.heap.setSizeOf (ptr - chunkOverhead)
        (s.heap.sizeOf (ptr - chunkOverhead) ||| bitFree)).setNext (ptr - chunkOverhead)
          (s.heap.tiers i)).mem := by
  obtain ⟨x, hx, rfl⟩ := huses
  have hprev := h.prevSize_even (h.live x hx).1
  generalize hc : x.1 - chunkOverhead = c at *
  have hmerge : s.heap.mergeChunk c = (c, s.heap) := by
    rw [ChunkHeap.mergeChunk, if_neg (not_not.mpr hprev)]
  rw [step, HeapState.perform, free, ChunkHeap.release, hc, hmerge] at hstep
  dsimp only at hstep
  generalize tierIdx ((s.heap.setSizeOf c (s.heap.sizeOf c ||| bitFree)).room c) = i at hstep
  rw [ChunkHeap.linkChunk, ChunkHeap.tier] at hstep
  by_cases hi : i.toNat < tierCnt
  · rw [dif_pos hi] at hstep
    simp only [ChunkHeap.setTier, hi, dite_true, bind, Except.bind] at hstep
    obtain rfl := Option.some.inj hstep
    exact ⟨⟨i.toNat, hi⟩, Function.update_self .., rfl⟩
  · rw [dif_neg hi] at hstep
    cases hstep

/-- After a `free` the heap is not tiled: the tag behind the chunk has no `BIT_FREE`. -/
theorem not_tiled_of_free (hbase : 0 < base.toNat) {ptr : BitVec 32} (huses : Uses s (.free ptr))
    (hstep : step s (.free ptr) = some s') : ¬ Tiled base s' := by
  rintro ⟨chunks', lists, ht⟩
  obtain ⟨i, htier, hmem⟩ := h.step_free huses hstep
  obtain ⟨x, hx, rfl⟩ := huses
  obtain ⟨hc, -⟩ := h.live x hx
  have hle := h.base_le hc
  generalize x.1 - chunkOverhead = c at *
  have hat := h.walk.mem_ok hc
  have hnext := hat.next_toNat
  have hmin := hat.1
  have hmax := hat.2
  have hlimit := s.heap.limit.isLt
  have h4 : (c + 4#32).toNat = c.toNat + 4 :=
    ChunkHeap.toNat_add_of_le (m := 8) (by omega) (by decide)
  have h8 : (c + 8#32).toNat = c.toNat + 8 :=
    ChunkHeap.toNat_add_of_le (m := 8) (by omega) (by decide)
  have hsize : s'.heap.sizeOf c = s.heap.sizeOf c ||| bitFree := by
    rw [ChunkHeap.sizeOf, hmem]
    refine (readWord_writeWord_of_apart _ _ ⟨?_, ?_, ?_⟩).trans (readWord_writeWord_self ..) <;>
      omega
  have hroom : s'.heap.room c = s.heap.room c := by
    rw [ChunkHeap.room, hsize, or_bitFree_and_sizeMask, ChunkHeap.room]
  have htag : s'.heap.prevSize (c + s.heap.room c) = s.heap.sizeOf c := by
    rw [← h.tags c hc, ChunkHeap.prevSize, hmem]
    refine (readWord_writeWord_of_apart _ _ ⟨?_, ?_, ?_⟩).trans
      (readWord_writeWord_of_apart _ _ ⟨?_, ?_, ?_⟩) <;> omega
  -- the freed chunk is on a list, so the walk visits it
  have hchain := ht.tiers i
  have hne : c ≠ 0#32 := fun h0 => by
    rw [h0, BitVec.toNat_ofNat] at hle
    omega
  have hin : c ∈ chunks' := by
    cases hl : lists i with
    | nil =>
        rw [hl, chain_nil, htier] at hchain
        exact absurd hchain hne
    | cons d l =>
        rw [hl, chain_cons, htier] at hchain
        exact ht.free i c (by rw [hl, hchain.1]; exact List.mem_cons_self)
  have hbit := ht.tags c hin
  rw [hroom, htag, hsize] at hbit
  have heven := h.even c hc
  rw [hbit] at heven
  exact or_bitFree_and_bitFree _ heven

end Laid

/-- The invariant of a run. -/
def NoneFree (base : BitVec 32) (s : State) : Prop := ∃ chunks, Laid base s chunks

theorem NoneFree.step (h : NoneFree base s) {op : HeapState.Op} (hkeeps : KeepsTags s op)
    (hstep : State.step s op = some s') : NoneFree base s' := by
  obtain ⟨chunks, h⟩ := h
  cases op with
  | malloc size => exact ⟨_, h.malloc hkeeps.1 hkeeps hstep⟩
  | free ptr => exact absurd hkeeps.2 id
  | write addr byte =>
      obtain rfl := Option.some.inj hstep
      exact ⟨_, h.write hkeeps.1⟩

/-- **Boundary tags.** In every run whose steps all keep the tags, the chunks tile the heap, and
    every other step from there breaks the tiling. -/
theorem tiled_of_keepsTags (mem : ByteMem) (base : BitVec 32) (hbase : 0 < base.toNat)
    (hlimit : base.toNat + 4 < 2 ^ 32) (s : State)
    (hr : Reaches step KeepsTags ⟨initHeap mem base, []⟩ s) :
    Tiled base s ∧ ∀ op s', Uses s op → step s op = some s' → (Tiled base s' ↔ KeepsTags s op) := by
  have hinv : NoneFree base s :=
    hr.invariant ⟨_, Laid.init mem base hlimit⟩ fun _ _ _ ht hkeeps hstep => ht.step hkeeps hstep
  obtain ⟨chunks, h⟩ := hinv
  refine ⟨h.tiled, fun op s' huses hstep => ⟨fun ht => ?_, fun hkeeps => ?_⟩⟩
  · cases op with
    | malloc size => exact h.keepsTags_of_tiled huses hstep ht
    | free ptr => exact absurd ht (h.not_tiled_of_free hbase huses hstep)
    | write addr byte => exact ⟨huses, trivial⟩
  · obtain ⟨_, h'⟩ := NoneFree.step ⟨chunks, h⟩ hkeeps hstep
    exact h'.tiled

/-- Two words of memory that are right by chance. -/
def taggedMem : ByteMem := writeWord (writeWord (fun _ => 0#8) 0x4010#32 16#32) 0x4024#32 20#32

theorem tiled_of_keepsTags_two : ∃ s, Reaches step KeepsTags ⟨initHeap taggedMem 0x4000#32, []⟩ s ∧
    s.live = [(0x4018#32, 12#32), (0x4008#32, 8#32)] ∧ Tiled 0x4000#32 s := by
  have hrun : (runChecked step KeepsTags ⟨initHeap taggedMem 0x4000#32, []⟩
      [.malloc 8#32, .write 0x4008#32 255#8, .malloc 12#32]).any
      (fun s => decide (s.live = [(0x4018#32, 12#32), (0x4008#32, 8#32)])) = true := by
    decide +kernel
  obtain ⟨s, hr, hlive⟩ := exists_reaches_of_any hrun
  exact ⟨s, hr, of_decide_eq_true hlive,
    (tiled_of_keepsTags _ _ (by decide) (by decide) s hr).1⟩

/-- The first allocation on a heap of zeros leaves a 0 behind its chunk of 16 bytes. -/
theorem tags_missing : ¬ ∀ (mem : ByteMem) (base : BitVec 32), 0 < base.toNat →
    base.toNat + 4 < 2 ^ 32 → ∀ s, Reaches step Uses ⟨initHeap mem base, []⟩ s →
      Tiled base s := by
  intro hall
  have huses : Uses ⟨initHeap (fun _ => 0#8) 0x4000#32, []⟩ (.malloc 8#32) := by decide
  have hstep : (step ⟨initHeap (fun _ => 0#8) 0x4000#32, []⟩ (.malloc 8#32)).isSome = true := by
    decide +kernel
  obtain ⟨s, hs⟩ := Option.isSome_iff_exists.mp hstep
  have ht := hall _ _ (by decide) (by decide) s (.tail .refl huses hs)
  have hkeeps := (Laid.init (fun _ => 0#8) 0x4000#32 (by decide)).keepsTags_of_tiled
    huses hs ht
  exact absurd hkeeps (by decide +kernel)

end State

end Muse.Libc
