import Muse.Libc.Heap
import Muse.Library.Transition
import Muse.Memory.Proofs.ChunkHeap

/-!
# Allocations of the userspace heap do not overlap

As long as no `free` merges, which follows a `prev_size` that nothing keeps up to date, and no
`malloc` splits a chunk at an address that gives no tier, every pointer that `malloc` returned owns
its bytes.
-/

namespace Muse.Libc

open Muse.Library Muse.Memory

namespace State

/-- The byte `a` belongs to the allocation. -/
def Covers (x : BitVec 32 × BitVec 32) (a : Nat) : Prop :=
  x.1.toNat ≤ a ∧ a < x.1.toNat + x.2.toNat

instance (x : BitVec 32 × BitVec 32) (a : Nat) : Decidable (Covers x a) :=
  inferInstanceAs (Decidable (_ ∧ _))

/-- The byte `a` belongs to the header in front of the allocation. -/
def Header (x : BitVec 32 × BitVec 32) (a : Nat) : Prop := x.1.toNat ≤ a + 8 ∧ a < x.1.toNat

/-- The live allocations, and the headers in front of them, lie in the region of `sbrk` and apart
    from each other. -/
structure NoOverlap (base : BitVec 32) (s : State) : Prop where
  apart : s.live.Pairwise fun x y => ∀ a, ¬ (Covers x a ∧ Covers y a)
  inside : ∀ x ∈ s.live, ∀ a, Covers x a → base.toNat ≤ a ∧ a < s.heap.limit.toNat
  headers : s.live.Pairwise fun x y =>
    ∀ a, ¬ (Covers x a ∧ Header y a) ∧ ¬ (Covers y a ∧ Header x a)

/-- What a program may do: requests are below the limit, live pointers are freed, and it writes
    to its own memory. -/
def Uses (s : State) : HeapState.Op → Prop
  | .malloc size => size.toNat + 8 < 2 ^ chunkSizeLimitLog
  | .free ptr => ∃ x ∈ s.live, x.1 = ptr
  | .write addr _ => ∃ x ∈ s.live, x.1.toNat ≤ addr.toNat ∧ addr.toNat < x.1.toNat + x.2.toNat

instance (s : State) : ∀ op, Decidable (Uses s op)
  | .malloc _ => inferInstanceAs (Decidable (_ < _))
  | .free _ => inferInstanceAs (Decidable (∃ x ∈ _, _))
  | .write _ _ => inferInstanceAs (Decidable (∃ x ∈ _, _))

/-- The steps after which the heap is still in order: the rest of a chunk that is split has an
    address below `2^15`, and the chunk that is freed is not too small for its links and is not
    merged. -/
def Orderly (s : State) (op : HeapState.Op) : Prop :=
  Uses s op ∧ match op with
  | .malloc size => HeapState.SplitsWell (fun _ _ => True) s.heap size
  | .free ptr => s.heap.prevSize (ptr - chunkOverhead) &&& bitFree = 0#32 ∧
      16 ≤ (s.heap.room (ptr - chunkOverhead)).toNat
  | .write _ _ => True

instance (s : State) : ∀ op, Decidable (Orderly s op)
  | .malloc _ => inferInstanceAs (Decidable (_ ∧ _))
  | .free _ => inferInstanceAs (Decidable (_ ∧ _))
  | .write _ _ => inferInstanceAs (Decidable (_ ∧ _))

/-- The invariant of a run. -/
def InOrder (base : BitVec 32) (s : State) : Prop :=
  ∃ e lists, HeapState.Inv (fun _ _ => True) base.toNat s e lists

/-- An operation returns, unless the region cannot grow, and leaves the heap in order. -/
theorem perform_inOrder {base : BitVec 32} {s : State} (h : InOrder base s) {op : HeapState.Op}
    (hok : Orderly s op) : (∃ s', s.perform malloc free op = .ok s' ∧ InOrder base s') ∨
      s.perform malloc free op = .error .outOfMemory := by
  obtain ⟨e, lists, h⟩ := h
  obtain ⟨huses, hok⟩ := hok
  cases op with
  | malloc size =>
      have hgrow : ∀ prev heap, s.heap.fittingChunk size = .ok (prev, 0#32) →
          sbrk s.heap (ChunkHeap.chunkSize size) = .ok heap →
          heap = s.heap.extend (ChunkHeap.chunkSize size) ∧
            s.heap.limit.toNat + (ChunkHeap.chunkSize size).toNat < 2 ^ 32 := by
        intro prev heap _ hs
        rw [sbrk] at hs
        split at hs
        · next hlt => exact ⟨(Except.ok.inj hs).symm, hlt⟩
        · cases hs
      rcases h.allocate (ChunkHeap.chunkSize size) (by decide) huses hok hgrow with
        ⟨ptr, heap, hs, e', lists', hinv⟩ | ⟨f, hf, hs⟩
      · refine .inl ⟨⟨heap, (ptr, size) :: s.live⟩, ?_, e', lists', hinv⟩
        simp only [HeapState.perform, malloc, hs]
        rfl
      · rw [sbrk] at hf
        split at hf
        · cases hf
        · obtain rfl := Except.error.inj hf
          refine .inr ?_
          simp only [HeapState.perform, malloc, hs]
          rfl
  | free ptr =>
      obtain ⟨⟨p, size⟩, hx, rfl⟩ := huses
      obtain ⟨heap, hs, e', lists', hinv⟩ := h.release hx hok.1 hok.2 fun _ _ => trivial
      refine .inl ⟨_, ?_, e', lists', hinv⟩
      simp only [HeapState.perform, free, hs]
      rfl
  | write addr byte =>
      obtain ⟨⟨p, size⟩, hx, hlo, hhi⟩ := huses
      exact .inl ⟨_, rfl, e, lists, h.write hx hlo hhi byte⟩

/-- Allocations whose chunks do not meet. -/
theorem InOrder.noOverlap {base : BitVec 32} {s : State} (h : InOrder base s) :
    NoOverlap base s := by
  obtain ⟨e, lists, h⟩ := h
  -- two allocations lie in two chunks
  have hpair : ∀ x ∈ s.live, ∀ y ∈ s.live, x.1 ≠ y.1 →
      x.1.toNat + x.2.toNat + 8 ≤ y.1.toNat ∨ y.1.toNat + y.2.toNat + 8 ≤ x.1.toNat := by
    intro x hx y hy hne
    obtain ⟨m, hm, hxm, hxp⟩ := h.range hx
    obtain ⟨k, hk, hyk, hyp⟩ := h.range hy
    have hne' : x.1.toNat ≠ y.1.toNat := fun he => hne (BitVec.eq_of_toNat_eq he)
    have := h.apart.apart _ _ m k (by omega) hm hk
    omega
  have hnd : s.live.Pairwise fun x y => x.1 ≠ y.1 := List.pairwise_map.mp h.live_nodup
  refine ⟨?_, fun x hx a ha => ?_, ?_⟩
  · refine hnd.imp_of_mem fun {x y} hx hy hne a ha => ?_
    have := hpair x hx y hy hne
    simp only [Covers] at ha
    omega
  · obtain ⟨m, hm, hxm, hxp⟩ := h.range hx
    have := h.bounds hm
    simp only [Covers] at ha
    omega
  · refine hnd.imp_of_mem fun {x y} hx hy hne a => ?_
    have := hpair x hx y hy hne
    simp only [Covers, Header]
    omega

/-- In every run whose steps are orderly, every operation returns unless the region cannot grow, and
    the live allocations do not overlap. -/
theorem allocations_apart (mem : ByteMem) (base : BitVec 32) (hbase : 0 < base.toNat)
    (hlimit : base.toNat + 4 < 2 ^ 32) (s : State)
    (hr : Reaches step Orderly ⟨initHeap mem base, []⟩ s) :
    NoOverlap base s ∧ ∀ op, Orderly s op →
      (∃ s', step s op = some s') ∨ s.perform malloc free op = .error .outOfMemory := by
  have hinv : InOrder base s := by
    refine hr.invariant ⟨_, _, HeapState.inv_empty _ mem hbase hlimit⟩ ?_
    intro t op t' ht hok hstep
    rcases perform_inOrder ht hok with ⟨u, hu, hinv⟩ | herr
    · rw [step, hu] at hstep
      obtain rfl := Option.some.inj hstep
      exact hinv
    · rw [step, herr] at hstep
      cases hstep
  refine ⟨hinv.noOverlap, fun op hok => ?_⟩
  rcases perform_inOrder hinv hok with ⟨u, hu, -⟩ | herr
  · exact .inl ⟨u, by rw [step, hu]; rfl⟩
  · exact .inr herr

/-- A chunk is freed and used again, behind one that stays allocated. -/
theorem allocations_apart_reuse : ∃ s, Reaches step Orderly
    ⟨initHeap (fun _ => 0#8) 0x10000000#32, []⟩ s ∧
      s.live = [(0x10000008#32, 1000#32), (0x10000407#32, 8#32)] ∧
      NoOverlap 0x10000000#32 s := by
  have hrun : (runChecked step Orderly ⟨initHeap (fun _ => 0#8) 0x10000000#32, []⟩
      [.malloc 1015#32, .malloc 8#32, .write 0x10000407#32 255#8, .free 0x10000008#32,
        .malloc 1000#32]).any
      (fun s => decide (s.live = [(0x10000008#32, 1000#32), (0x10000407#32, 8#32)])) = true := by
    decide +kernel
  obtain ⟨s, hr, hlive⟩ := exists_reaches_of_any hrun
  exact ⟨s, hr, of_decide_eq_true hlive,
    (allocations_apart _ _ (by decide) (by decide) s hr).1⟩

/-- The split of a chunk of odd size writes a stale `prev_size` with the bit `BIT_FREE`, the next
    `free` merges the chunk with itself, and the chunk of twice the size is handed out over its
    neighbour. -/
theorem allocations_overlap : ¬ ∀ (mem : ByteMem) (base : BitVec 32), 0 < base.toNat →
    base.toNat + 4 < 2 ^ 32 → ∀ s, Reaches step Uses ⟨initHeap mem base, []⟩ s →
      NoOverlap base s := by
  intro hall
  have hrun : (runChecked step Uses ⟨initHeap (fun _ => 0#8) 0x4000#32, []⟩
      [.malloc 1015#32, .malloc 8#32, .malloc 8#32, .free 0x4008#32, .malloc 504#32,
        .free 0x4407#32, .malloc 24#32]).any
      (fun s => decide
        (s.live = [(0x4407#32, 24#32), (0x4008#32, 504#32), (0x4417#32, 8#32)])) = true := by
    decide +kernel
  obtain ⟨s, hr, hlive⟩ := exists_reaches_of_any hrun
  have hno := (hall _ _ (by decide) (by decide) s hr).apart
  rw [of_decide_eq_true hlive, List.pairwise_cons] at hno
  exact hno.1 (0x4417#32, 8#32) (by simp) 0x4417 (by decide)

end State

end Muse.Libc
