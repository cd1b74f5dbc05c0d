import Muse.Library.Fallible
import Muse.Library.Transition
import Muse.Memory.KernelHeap
import Muse.Memory.Proofs.ChunkHeap

/-!
# The tier lists of the kernel heap

`split_chunk` computes the tier of the rest from its address, and `kfree` leaves a chunk that grows
by merging on the list it was on. As long as neither happens, the lists hold each free chunk once
and in the tier of its size.
-/

namespace Muse.Memory

open Muse.Library

namespace KernelState

/-- The lists of the tiers: finite, without a repetition, each chunk free and in the tier of its
    size, and no chunk that is allocated. -/
structure TierLists (s : KernelState) (lists : Fin tierCnt → List (BitVec 32)) : Prop where
  chain : ∀ i, Chain s.heap.chunks.next 0#32 (s.heap.chunks.tiers i) (lists i)
  nodup : ∀ i, (lists i).Nodup
  one : ∀ i j c, c ∈ lists i → c ∈ lists j → i = j
  free : ∀ i, ∀ c ∈ lists i, s.heap.chunks.sizeOf c &&& bitFree ≠ 0#32
  size : ∀ i, ∀ c ∈ lists i, InTier i (s.heap.chunks.room c).toNat
  live : ∀ x ∈ s.live, ∀ i, x.1 - chunkOverhead ∉ lists i

/-- What the kernel may do: requests are below the limit, live pointers that lie outside of the
    pages are freed, and it writes to its own memory. -/
def Uses (s : KernelState) : HeapState.Op → Prop
  | .malloc size => size.toNat + 8 < 2 ^ chunkSizeLimitLog
  | .free ptr => (∃ x ∈ s.live, x.1 = ptr) ∧ (s.heap.pages.kfree ptr).isNone
  | .write addr _ => ∃ x ∈ s.live, x.1.toNat ≤ addr.toNat ∧ addr.toNat < x.1.toNat + x.2.toNat

instance (s : KernelState) : ∀ op, Decidable (Uses s op)
  | .malloc _ => inferInstanceAs (Decidable (_ < _))
  | .free _ => inferInstanceAs (Decidable (_ ∧ _))
  | .write _ _ => inferInstanceAs (Decidable (∃ x ∈ _, _))

/-- A request that splits a chunk finds the rest at an address with the tier of its size, and a
    request that finds no chunk does not take the region over the end of memory. -/
def FindsWell (h : ChunkHeap tierCnt) (size : BitVec 32) : Prop :=
  ∀ p ∈ (h.fittingChunk size).toOption,
    if p.2 = 0#32 then h.limit.toNat + (ChunkHeap.chunkSize size).toNat < 2 ^ 32
    else h.Splits p.2 size → tierIdx (p.2 + size + chunkOverhead) =
      tierIdx ((h.room p.2 - size - chunkOverhead) &&& sizeMask)

instance (h : ChunkHeap tierCnt) (size : BitVec 32) : Decidable (FindsWell h size) :=
  Option.decidableForallMem (h.fittingChunk size).toOption

/-- The steps after which the lists are still in order. -/
def Orderly (s : KernelState) (op : HeapState.Op) : Prop :=
  Uses s op ∧ match op with
  | .malloc size => FindsWell s.heap.chunks size
  | .free ptr => s.heap.chunks.prevSize (ptr - chunkOverhead) &&& bitFree = 0#32 ∧
      16 ≤ (s.heap.chunks.room (ptr - chunkOverhead)).toNat
  | .write _ _ => True

instance (s : KernelState) : ∀ op, Decidable (Orderly s op)
  | .malloc _ => inferInstanceAs (Decidable (_ ∧ _))
  | .free _ => inferInstanceAs (Decidable (_ ∧ _))
  | .write _ _ => inferInstanceAs (Decidable (_ ∧ _))

/-- The invariant of a run. -/
def InOrder (base : BitVec 32) (s : KernelState) : Prop :=
  ∃ e lists, HeapState.Inv InTier base.toNat s.chunkState e lists

theorem InOrder.tierLists {base : BitVec 32} {s : KernelState} (h : InOrder base s) :
    ∃ lists, TierLists s lists := by
  obtain ⟨e, lists, h⟩ := h
  exact ⟨lists, h.chain, h.nodup, h.one, fun i c hc => (h.free i c hc).bit,
    fun i c hc => (h.free i c hc).place, h.live_free⟩

/-- The tier of the size of the rest exists and is the right one. -/
theorem FindsWell.splitsWell {base : Nat} {s : HeapState tierCnt} {e : Extents}
    {lists : Fin tierCnt → List (BitVec 32)} (h : HeapState.Inv InTier base s e lists)
    {size : BitVec 32} (hsize : size.toNat + 8 < 2 ^ chunkSizeLimitLog)
    (hok : FindsWell s.heap size) : HeapState.SplitsWell InTier s.heap size := by
  intro p hp hp0 hsplits
  have htier := hok p hp
  rw [if_neg hp0] at htier
  obtain ⟨hi, prev, ch, hfit, hfound⟩ := h.fittingChunk (by decide) hsize
  rw [hfit] at hp
  obtain rfl := Option.some.inj hp
  obtain ⟨xs, ys, hlist, -, -⟩ := hfound.resolve_left hp0
  have hmax := (h.free ⟨_, hi⟩ ch (by simp [hlist])).max
  have hroom : size.toNat + 32 ≤ (s.heap.room ch).toNat :=
    HeapState.room_of_splits (by decide) hsize hsplits
  have hrest := rest_toNat (s.heap.room ch) size (by omega)
  have hmask := and_sizeMask_toNat (s.heap.room ch - size - chunkOverhead)
  simp only at htier
  rw [htier hsplits]
  exact ⟨tierIdx_lt (by omega) (by omega), inTier_tierIdx (by omega)⟩

theorem perform_inOrder {base : BitVec 32} {s : KernelState} (h : InOrder base s)
    {op : HeapState.Op} (hok : Orderly s op) :
    (∃ s', s.perform op = .ok s' ∧ InOrder base s') ∨ s.perform op = .error .outOfMemory := by
  obtain ⟨e, lists, h⟩ := h
  obtain ⟨huses, hok⟩ := hok
  cases op with
  | malloc size =>
      have hgrow : ∀ prev heap, s.heap.chunks.fittingChunk size = .ok (prev, 0#32) →
          KernelHeap.heapSbrk s.heap.maxLimit s.heap.chunks (ChunkHeap.chunkSize size) = .ok heap →
          heap = s.heap.chunks.extend (ChunkHeap.chunkSize size) ∧
            s.heap.chunks.limit.toNat + (ChunkHeap.chunkSize size).toNat < 2 ^ 32 := by
        intro prev heap hfit hs
        rw [KernelHeap.heapSbrk] at hs
        split at hs
        · cases hs
        · have hwrap := hok (prev, 0#32) (by rw [hfit]; rfl)
          rw [if_pos rfl] at hwrap
          exact ⟨(Except.ok.inj hs).symm, hwrap⟩
      rcases h.allocate size (by decide) huses (hok.splitsWell h huses) hgrow with
        ⟨ptr, heap, hs, e', lists', hinv⟩ | ⟨f, hf, hs⟩
      · refine .inl ⟨⟨{ s.heap with chunks := heap }, (ptr, size) :: s.live⟩, ?_, e', lists', hinv⟩
        simp only [chunkState] at hs
        simp only [perform, KernelHeap.kmalloc, hs]
        rfl
      · simp only [chunkState] at hf hs
        rw [KernelHeap.heapSbrk] at hf
        split at hf
        · obtain rfl := Except.error.inj hf
          refine .inr ?_
          simp only [perform, KernelHeap.kmalloc, hs]
          rfl
        · cases hf
  | free ptr =>
      obtain ⟨⟨⟨p, size⟩, hx, rfl⟩, hpath⟩ := huses
      obtain ⟨heap, hs, e', lists', hinv⟩ := h.release hx hok.1 hok.2 fun _ => inTier_tierIdx
      refine .inl ⟨⟨{ s.heap with chunks := heap }, _⟩, ?_, e', lists', hinv⟩
      simp only [chunkState] at hs
      rw [Option.isNone_iff_eq_none] at hpath
      simp only [perform, KernelHeap.kfree, hpath, hs]
      rfl
  | write addr byte =>
      obtain ⟨⟨p, size⟩, hx, hlo, hhi⟩ := huses
      exact .inl ⟨_, rfl, e, lists, h.write hx hlo hhi byte⟩

/-- A run stays in order. -/
theorem step_inOrder {base : BitVec 32} {s s' : KernelState} (h : InOrder base s)
    {op : HeapState.Op} (hok : Orderly s op) (hs : step s op = some s') : InOrder base s' := by
  rcases perform_inOrder h hok with ⟨t, ht, hinv⟩ | herr
  · rw [step, ht] at hs
    obtain rfl := Option.some.inj hs
    exact hinv
  · rw [step, herr] at hs
    cases hs

/-! ## The first two allocations -/

section Init

variable {s s' : KernelState} (hempty : ∀ i, s.heap.chunks.tiers i = 0#32) {size : BitVec 32}
  (hsize : size.toNat + 8 < 2 ^ chunkSizeLimitLog)

include hempty hsize

theorem fittingChunk_of_empty : s.heap.chunks.fittingChunk size = .ok (0#32, 0#32) := by
  obtain ⟨h16, hlt, -⟩ := chunkSize_bounds (n := tierCnt) (by decide) hsize
  have hi := tierIdx_lt (n := tierCnt) h16 hlt
  simp only [ChunkHeap.fittingChunk, ChunkHeap.tier, hi, dif_pos, hempty]
  rfl

theorem orderly_of_empty
    (hwrap : s.heap.chunks.limit.toNat + (ChunkHeap.chunkSize size).toNat < 2 ^ 32) :
    Orderly s (.malloc size) := by
  refine ⟨hsize, fun p hp => ?_⟩
  rw [fittingChunk_of_empty hempty hsize] at hp
  obtain rfl := Option.some.inj hp
  rw [if_pos rfl]
  exact hwrap

/-- A request on a heap without free chunks extends the region. -/
theorem malloc_of_empty (hs : s.perform (.malloc size) = .ok s') :
    (∀ i, s'.heap.chunks.tiers i = 0#32) ∧
      s'.heap.chunks.limit = s.heap.chunks.limit + ChunkHeap.chunkSize size := by
  simp only [perform, KernelHeap.kmalloc, ChunkHeap.allocate, fittingChunk_of_empty hempty hsize,
    KernelHeap.heapSbrk, bind, Except.bind, ne_eq, not_true_eq_false, if_false] at hs
  by_cases hmax : s.heap.maxLimit < s.heap.chunks.limit + ChunkHeap.chunkSize size
  · rw [if_pos hmax] at hs
    cases hs
  · rw [if_neg hmax] at hs
    obtain rfl := Except.ok.inj hs
    exact ⟨hempty, rfl⟩

end Init

theorem initHeap_inOrder {mem : ByteMem} {base maxLimit alignedStart : BitVec 32} {bitmapCnt : Nat}
    {s : KernelState} (hbase : 0 < base.toNat)
    (hcnt : 4 * bitmapCnt + 8 < 2 ^ chunkSizeLimitLog)
    (hregion : base.toNat + 4 * bitmapCnt + 140 < 2 ^ 32)
    (hs : initHeap mem base maxLimit alignedStart bitmapCnt = .ok s) : InOrder base s := by
  rw [initHeap] at hs
  split at hs
  · cases hs
  have hlimit : (initial mem base maxLimit alignedStart bitmapCnt).heap.chunks.limit.toNat =
      base.toNat + 4 := ChunkHeap.toNat_add_of_le (m := 4) (by omega) (by decide)
  have h0 : InOrder base (initial mem base maxLimit alignedStart bitmapCnt) :=
    ⟨_, _, HeapState.inv_empty InTier mem hbase (by omega)⟩
  have hempty : ∀ i, (initial mem base maxLimit alignedStart bitmapCnt).heap.chunks.tiers i =
      0#32 := fun _ => rfl
  generalize initial mem base maxLimit alignedStart bitmapCnt = s₀ at *
  have hbits : (4#32 * BitVec.ofNat 32 bitmapCnt).toNat = 4 * bitmapCnt := by
    rw [BitVec.toNat_mul, BitVec.toNat_ofNat, BitVec.toNat_ofNat]
    omega
  have hch := chunkSize_le (4#32 * BitVec.ofNat 32 bitmapCnt)
  obtain ⟨s₁, h₁, hs⟩ := bind_eq_ok.mp hs
  have hok₁ := orderly_of_empty hempty (hbits ▸ hcnt) (by omega)
  obtain ⟨hempty₁, hlimit₁⟩ := malloc_of_empty hempty (hbits ▸ hcnt) h₁
  have h112 : (ChunkHeap.chunkSize 112#32).toNat = 120 := rfl
  have hlim₁ : s₁.heap.chunks.limit.toNat + 120 < 2 ^ 32 := by
    rw [hlimit₁, BitVec.toNat_add]
    omega
  have hok₂ : Orderly s₁ (.malloc 112#32) := orderly_of_empty hempty₁ (by decide) (by omega)
  have hinv₁ : InOrder base s₁ := step_inOrder h0 hok₁ (by rw [step, h₁]; rfl)
  exact step_inOrder hinv₁ hok₂ (by rw [step, hs]; rfl)

/-- In every run whose steps are orderly, the lists of the tiers are in order, and no operation
    uses an index outside of `tiers` or follows a list without an end. -/
theorem tiers_in_order (mem : ByteMem) (base maxLimit alignedStart : BitVec 32) (bitmapCnt : Nat)
    (hbase : 0 < base.toNat) (hcnt : 4 * bitmapCnt + 8 < 2 ^ chunkSizeLimitLog)
    (hregion : base.toNat + 4 * bitmapCnt + 140 < 2 ^ 32) (s₀ : KernelState)
    (hinit : initHeap mem base maxLimit alignedStart bitmapCnt = .ok s₀) (s : KernelState)
    (hr : Reaches step Orderly s₀ s) :
    (∃ lists, TierLists s lists) ∧ ∀ op, Orderly s op →
      s.perform op ≠ .error .tierIndex ∧ s.perform op ≠ .error .endless := by
  have hinv : InOrder base s :=
    hr.invariant (initHeap_inOrder hbase hcnt hregion hinit) fun _ _ _ ht hok => step_inOrder ht hok
  refine ⟨hinv.tierLists, fun op hok => ?_⟩
  rcases perform_inOrder hinv hok with ⟨u, hu, -⟩ | herr
  · rw [hu]
    exact ⟨nofun, nofun⟩
  · rw [herr]
    exact ⟨nofun, nofun⟩

/-- A heap at `0x80800000`, behind its pages. -/
def heapAt : Except Fault KernelState :=
  initHeap (fun _ => 0#8) 0x80800000#32 0xFF8FF000#32 0x80400000#32 4

theorem exists_heapAt : ∃ s₀, heapAt = .ok s₀ :=
  exists_ok_of_isSome (by decide +kernel)

/-- A chunk is freed and used again without a split. -/
theorem tiers_in_order_reuse : ∃ s₀ s, heapAt = .ok s₀ ∧ Reaches step Orderly s₀ s ∧
    s.live.length = 3 ∧ ∃ lists, TierLists s lists := by
  obtain ⟨s₀, hs₀⟩ := exists_heapAt
  have hrun : (heapAt.toOption.bind fun s => runChecked step Orderly s [.malloc 1000#32,
      .malloc 100#32, .free 0x80800098#32, .malloc 990#32, .free 0x80800488#32]).any
      (fun s => decide (s.live.length = 3)) = true := by decide +kernel
  rw [hs₀] at hrun
  obtain ⟨s, hr, hlen⟩ := exists_reaches_of_any hrun
  exact ⟨s₀, s, hs₀, hr, of_decide_eq_true hlen,
    (tiers_in_order _ _ _ _ _ (by decide) (by decide) (by decide) s₀ hs₀ s hr).1⟩

/-- The first request that splits a chunk uses the tier of an address above `0x80000000`. -/
theorem tiers_out_of_range : ¬ ∀ (mem : ByteMem) (base maxLimit alignedStart : BitVec 32)
    (bitmapCnt : Nat), 0 < base.toNat → 4 * bitmapCnt + 8 < 2 ^ chunkSizeLimitLog →
    base.toNat + 4 * bitmapCnt + 140 < 2 ^ 32 →
    ∀ s₀, initHeap mem base maxLimit alignedStart bitmapCnt = .ok s₀ →
    ∀ s, Reaches step Uses s₀ s → (∃ lists, TierLists s lists) ∧
      ∀ op, Uses s op → s.perform op ≠ .error .tierIndex := by
  intro hall
  obtain ⟨s₀, hs₀⟩ := exists_heapAt
  have hrun : (heapAt.toOption.bind fun s => runChecked step Uses s [.malloc 1000#32,
      .free 0x80800098#32]).any (fun s => match s.perform (.malloc 504#32) with
        | .error .tierIndex => true
        | _ => false) = true := by decide +kernel
  rw [hs₀] at hrun
  obtain ⟨s, hr, hfault⟩ := exists_reaches_of_any hrun
  obtain ⟨-, hno⟩ := hall _ _ _ _ _ (by decide) (by decide) (by decide) s₀ hs₀ s hr
  have hsize : (504#32).toNat + 8 < 2 ^ chunkSizeLimitLog := by decide
  refine hno (.malloc 504#32) hsize ?_
  split at hfault
  · assumption
  · cases hfault

end KernelState

end Muse.Memory
