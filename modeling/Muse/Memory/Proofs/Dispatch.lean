import Muse.Memory.Dispatch
import Muse.Memory.Proofs.PageRuns
import Muse.Memory.Proofs.TierLists

/-!
# When `kfree` tells chunks and pages apart

`kmain` gives the bitmap 128 words, one bit for each of 4096 pages, while the chunks start behind
1024 pages. So the aligned allocators go on into the chunks once these are used up, and `kfree`
takes the chunks of the first 12 MiB for pages. A page that is freed keeps its bit. The runs that
stay clear of the three are fine.
-/

namespace Muse.Memory

open Muse.Library

/-! ## The search for pages -/

namespace PageHeap

variable {h h' : PageHeap} {v cnt : BitVec 32}

/-- Where there is room for `cnt` pages among the first `k + cnt`, `kmalloc_aligned_multi` returns
    pages of them. -/
theorem kmallocAlignedMulti_le {k : Nat} (hk : k + cnt.toNat < h.bitmapCnt * 32)
    (hword : k + cnt.toNat < 2 ^ 32) (hrun : h.ClearRun cnt.toNat k)
    (hs : h.kmallocAlignedMulti cnt = some (v, h')) :
    ∃ n ≤ k, v = h.alignedStart + BitVec.ofNat 32 n * 4096#32 ∧
      h' = h.markRange n cnt.toNat := by
  rcases findRun_cases (h.bitmapCnt * 32) (Nat.zero_add _) (Counted.start h cnt.toNat) with
    ⟨n, hfind, -, hn⟩ | ⟨n, -, hend, hn⟩ | ⟨-, hnone⟩
  · have hle := hn.le hrun
    rw [kmallocAlignedMulti_inside hfind (by omega)] at hs
    obtain ⟨rfl, rfl⟩ := Prod.mk.inj (Option.some.inj hs)
    exact ⟨n, hle, rfl, rfl⟩
  · have hle := hn.le hrun
    omega
  · exact absurd ⟨Nat.le_of_lt hk, hrun⟩ (hnone k)

/-- Pages below page 1024. -/
theorem page_toNat {n : Nat} (hlimit : h.alignedStart.toNat + 0x400000 < 2 ^ 32) (hn : n ≤ 1024) :
    (h.alignedStart + BitVec.ofNat 32 n * 4096#32).toNat = h.alignedStart.toNat + n * 4096 := by
  simp only [BitVec.toNat_add, BitVec.toNat_mul, BitVec.toNat_ofNat]
  omega

end PageHeap

namespace Dispatch.State

/-- The condition on a step: a request keeps the lists of the tiers in order, a chunk that is freed
    lies behind the pages that the bitmap has bits for, and is not merged, a page is not freed, and
    new pages are found among the first 1024. -/
def Classifies (s : State) : Op → Prop
  | .heap (.malloc size) => s.kernel.Orderly (.malloc size)
  | .heap (.free ptr) => ptr ∉ s.aligned ∧ ((∃ x ∈ s.kernel.live, x.1 = ptr) →
      s.pages.alignedStart.toNat + s.pages.bitmapCnt * 32 * 4096 ≤ ptr.toNat ∧
      s.kernel.heap.chunks.prevSize (ptr - chunkOverhead) &&& bitFree = 0#32 ∧
      16 ≤ (s.kernel.heap.chunks.room (ptr - chunkOverhead)).toNat)
  | .heap (.write _ _) => True
  | .kmallocAligned => ∃ n < 1024, s.pages.pageBitmap (n / 32) >>> (n % 32) = 0#32
  | .kmallocAlignedMulti cnt => ∃ n < 1025, n + cnt.toNat ≤ 1024 ∧
      ∀ i < cnt.toNat, ¬ s.pages.Marked (n + i)

instance (s : State) : ∀ op, Decidable (Classifies s op)
  | .heap (.malloc _) => inferInstanceAs (Decidable (KernelState.Orderly _ _))
  | .heap (.free _) => inferInstanceAs (Decidable (_ ∧ (_ → _)))
  | .heap (.write _ _) => inferInstanceAs (Decidable True)
  | .kmallocAligned => inferInstanceAs (Decidable (∃ n < 1024, _))
  | .kmallocAlignedMulti _ => inferInstanceAs (Decidable (∃ n < 1025, _))

/-- The invariant of a run on a heap whose pages start at `start`. -/
structure Sound (start : BitVec 32) (s : State) : Prop where
  room : start.toNat + 0x400000 < 0xFF8FF000
  inOrder : KernelState.InOrder (start + BitVec.ofNat 32 kernelAlignedHeapSize) s.kernel
  alignedStart : s.pages.alignedStart = start
  bitmapCnt : s.pages.bitmapCnt = 128
  aligned : ∀ p ∈ s.aligned, start.toNat ≤ p.toNat ∧ p.toNat + 4096 ≤ start.toNat + 0x400000
  multi : ∀ x ∈ s.multi, start.toNat ≤ x.1.toNat ∧
    x.1.toNat + x.2 * 4096 ≤ start.toNat + 0x400000

variable {start : BitVec 32} {s s' : State}

theorem kernelAlignedHeapSize_eq : kernelAlignedHeapSize = 0x400000 := by decide

theorem chunksStart_toNat (hroom : start.toNat + 0x400000 < 0xFF8FF000) :
    (start + BitVec.ofNat 32 kernelAlignedHeapSize).toNat = start.toNat + 0x400000 := by
  rw [BitVec.toNat_add, BitVec.toNat_ofNat, kernelAlignedHeapSize_eq]
  omega

/-- Chunks lie behind the pages. -/
theorem Sound.chunks (h : Sound start s) {x : BitVec 32 × BitVec 32} (hx : x ∈ s.kernel.live) :
    start.toNat + 0x400000 ≤ (x.1 - chunkOverhead).toNat ∧
      x.1.toNat = (x.1 - chunkOverhead).toNat + 8 := by
  obtain ⟨e, lists, hinv⟩ := h.inOrder
  obtain ⟨m, hm, -, hptr⟩ := hinv.range hx
  have hlow := (hinv.bounds hm).1
  rw [chunksStart_toNat h.room] at hlow
  exact ⟨hlow, hptr⟩

theorem Sound.pagesEnd_eq (h : Sound start s) : s.pagesEnd = start.toNat + 0x400000 := by
  rw [pagesEnd, h.alignedStart, kernelAlignedHeapSize_eq]

theorem Sound.separate (h : Sound start s) : Separate s := by
  have hend := h.pagesEnd_eq
  refine ⟨fun p hp => ?_, fun x hx => ?_, fun x hx => ?_⟩
  · rw [hend]
    exact (h.aligned p hp).2
  · rw [hend]
    exact (h.multi x hx).2
  · rw [hend]
    exact (h.chunks hx).1

/-! ## The steps -/

/-- The chunks do not depend on the pages. -/
theorem inOrder_withPages {base : BitVec 32} (pages : PageHeap)
    (h : KernelState.InOrder base s.kernel) : KernelState.InOrder base (s.withPages pages).kernel :=
  h

theorem malloc_pages {k k' : KernelState} {size : BitVec 32}
    (hs : k.perform (.malloc size) = .ok k') : k'.heap.pages = k.heap.pages := by
  simp only [KernelState.perform, KernelHeap.kmalloc, bind, Except.bind] at hs
  split at hs
  · cases hs
  · next heq =>
      obtain rfl := Except.ok.inj hs
      split at heq
      · cases heq
      · obtain rfl := Except.ok.inj heq
        rfl

theorem toOption_eq_some {α ε : Type} {x : Except ε α} {a : α} (h : x.toOption = some a) :
    x = .ok a := by
  cases x with
  | error e => cases h
  | ok b => rw [Option.some.inj h]

theorem Sound.malloc (h : Sound start s) {size : BitVec 32}
    (hok : s.kernel.Orderly (.malloc size)) {k : KernelState}
    (hs : s.kernel.step (.malloc size) = some k) : Sound start { s with kernel := k } := by
  have hpages : k.heap.pages = s.pages := malloc_pages (toOption_eq_some hs)
  refine ⟨h.room, KernelState.step_inOrder h.inOrder hok hs, ?_, ?_, h.aligned, h.multi⟩
  · exact (congrArg PageHeap.alignedStart hpages).trans h.alignedStart
  · exact (congrArg PageHeap.bitmapCnt hpages).trans h.bitmapCnt

theorem Sound.write (h : Sound start s) {addr : BitVec 32} {byte : BitVec 8}
    (hok : Allowed s (.heap (.write addr byte))) {k : KernelState}
    (hs : s.kernel.step (.write addr byte) = some k) : Sound start { s with kernel := k } := by
  have horderly : s.kernel.Orderly (.write addr byte) := ⟨hok, trivial⟩
  have hinv := KernelState.step_inOrder h.inOrder horderly hs
  obtain rfl := Option.some.inj hs
  exact ⟨h.room, hinv, h.alignedStart, h.bitmapCnt, h.aligned, h.multi⟩

/-- A page from the first 1024. -/
theorem Sound.page_bounds (h : Sound start s) {n c : Nat} (hn : n + c ≤ 1024) {v : BitVec 32}
    (hv : v = s.pages.alignedStart + BitVec.ofNat 32 n * 4096#32) :
    start.toNat ≤ v.toNat ∧ v.toNat + c * 4096 ≤ start.toNat + 0x400000 := by
  have hroom := h.room
  have := PageHeap.page_toNat (h := s.pages) (n := n) (by rw [h.alignedStart]; omega) (by omega)
  rw [hv, this, h.alignedStart]
  omega

theorem Sound.kmallocAligned (h : Sound start s) (hok : Classifies s .kmallocAligned)
    (hs : s.step .kmallocAligned = some s') : Sound start s' := by
  obtain ⟨k, hk, hfree⟩ := hok
  obtain ⟨⟨v, pages⟩, hp, rfl⟩ := Option.map_eq_some_iff.mp hs
  obtain ⟨n, hn, hv, rfl⟩ := PageHeap.kmallocAligned_le hfree hp
  refine ⟨h.room, inOrder_withPages _ h.inOrder, h.alignedStart, h.bitmapCnt, fun p hp => ?_,
    h.multi⟩
  rcases List.mem_cons.mp hp with rfl | hp
  · have := h.page_bounds (n := n) (c := 1) (by omega) hv
    omega
  · exact h.aligned p hp

theorem Sound.kmallocAlignedMulti (h : Sound start s) {cnt : BitVec 32}
    (hok : Classifies s (.kmallocAlignedMulti cnt))
    (hs : s.step (.kmallocAlignedMulti cnt) = some s') : Sound start s' := by
  obtain ⟨k, -, hk, hfree⟩ := hok
  obtain ⟨⟨v, pages⟩, hp, rfl⟩ := Option.map_eq_some_iff.mp hs
  obtain ⟨n, hn, hv, rfl⟩ :=
    PageHeap.kmallocAlignedMulti_le (by rw [h.bitmapCnt]; omega) (by omega) hfree hp
  obtain ⟨hcnt, hstart⟩ := PageHeap.markRange_fields (h := s.pages) n cnt.toNat
  refine ⟨h.room, inOrder_withPages _ h.inOrder, hstart.trans h.alignedStart,
    hcnt.trans h.bitmapCnt, h.aligned, fun x hx => ?_⟩
  rcases List.mem_cons.mp hx with rfl | hx
  · exact h.page_bounds (by omega) hv
  · exact h.multi x hx

/-- `kfree` without a merge puts the chunk in front of a list. -/
theorem release_head {h h' : ChunkHeap tierCnt} {ptr : BitVec 32}
    (hprev : h.prevSize (ptr - chunkOverhead) &&& bitFree = 0#32) (hs : h.release ptr = .ok h') :
    ∃ i, h'.tiers i = ptr - chunkOverhead := by
  simp only [ChunkHeap.release, ChunkHeap.mergeChunk, hprev, ne_eq, not_true_eq_false, if_false,
    ChunkHeap.linkChunk, bind, Except.bind] at hs
  split at hs
  · cases hs
  · next heap hlink =>
      obtain rfl := Except.ok.inj hs
      split at hlink
      · cases hlink
      · rw [ChunkHeap.setTier] at hlink
        split at hlink
        · obtain rfl := Except.ok.inj hlink
          exact ⟨_, Function.update_self ..⟩
        · cases hlink

/-- A pointer behind the pages that the bitmap has bits for takes the chunk path. -/
theorem Sound.kfree_none (h : Sound start s) {ptr : BitVec 32}
    (hptr : s.pages.alignedStart.toNat + s.pages.bitmapCnt * 32 * 4096 ≤ ptr.toNat) :
    s.pages.kfree ptr = none := by
  rw [h.alignedStart, h.bitmapCnt] at hptr
  have hoff : (ptr - start).toNat = ptr.toNat - start.toNat := by
    rw [BitVec.toNat_sub]
    omega
  have hpages : BitVec.ofNat 32 128 * 32#32 * 4096#32 = 0x1000000#32 := by decide
  rw [PageHeap.kfree, h.alignedStart, h.bitmapCnt, hpages, if_neg]
  rintro ⟨-, hlt⟩
  rw [BitVec.lt_def, hoff, BitVec.toNat_ofNat] at hlt
  omega

/-- A pointer into the pages takes the page path. -/
theorem Sound.kfree_some (h : Sound start s) {ptr : BitVec 32} (hlow : start.toNat ≤ ptr.toNat)
    (hhigh : ptr.toNat ≤ start.toNat + 0x400000) :
    ∃ n, s.pages.kfree ptr = some (s.pages.mark n) := by
  have hoff : (ptr - start).toNat = ptr.toNat - start.toNat := by
    rw [BitVec.toNat_sub]
    omega
  have hpages : BitVec.ofNat 32 128 * 32#32 * 4096#32 = 0x1000000#32 := by decide
  refine ⟨(ptr - s.pages.alignedStart).toNat / 4096, ?_⟩
  rw [PageHeap.kfree, h.alignedStart, h.bitmapCnt, hpages, if_pos]
  refine ⟨hlow, ?_⟩
  rw [BitVec.lt_def, hoff, BitVec.toNat_ofNat]
  omega

theorem step_free {ptr : BitVec 32} {k : KernelState} (hk : s.kernel.step (.free ptr) = some k) :
    s.step (.heap (.free ptr)) =
      some ⟨k, s.aligned.filter (· ≠ ptr), s.multi.filter (·.1 ≠ ptr)⟩ := by
  rw [step, hk]
  rfl

/-- What `kfree` may do to the heap. -/
theorem Sound.freed (h : Sound start s) (ptr : BitVec 32) {k : KernelState}
    (hinv : KernelState.InOrder (start + BitVec.ofNat 32 kernelAlignedHeapSize) k)
    (hstart : k.heap.pages.alignedStart = s.pages.alignedStart)
    (hcnt : k.heap.pages.bitmapCnt = s.pages.bitmapCnt) :
    Sound start ⟨k, s.aligned.filter (· ≠ ptr), s.multi.filter (·.1 ≠ ptr)⟩ :=
  ⟨h.room, hinv, hstart.trans h.alignedStart, hcnt.trans h.bitmapCnt,
    fun p hp => h.aligned p (List.mem_filter.mp hp).1,
    fun x hx => h.multi x (List.mem_filter.mp hx).1⟩

theorem Sound.freeChunk (h : Sound start s) {ptr : BitVec 32}
    (hlive : ∃ x ∈ s.kernel.live, x.1 = ptr) (hok : Classifies s (.heap (.free ptr))) :
    ∃ s', s.step (.heap (.free ptr)) = some s' ∧ Sound start s' ∧ s'.pages = s.pages ∧
      OnTier s'.kernel.heap.chunks (ptr - chunkOverhead) := by
  obtain ⟨hptr, hprev, hmin⟩ := hok.2 hlive
  have hpath : s.kernel.heap.pages.kfree ptr = none := h.kfree_none hptr
  obtain ⟨⟨p, size⟩, hx, rfl⟩ := hlive
  obtain ⟨e, lists, hinv⟩ := h.inOrder
  obtain ⟨heap, hrel, e', lists', hinv'⟩ := hinv.release hx hprev hmin fun _ => inTier_tierIdx
  have hstep : s.kernel.step (.free p) = some
      ⟨{ s.kernel.heap with chunks := heap }, s.kernel.live.filter (·.1 ≠ p)⟩ := by
    simp only [KernelState.chunkState] at hrel
    simp only [KernelState.step, KernelState.perform, KernelHeap.kfree, hpath, hrel, bind,
      Except.bind]
    rfl
  refine ⟨_, step_free hstep, h.freed p ⟨e', lists', hinv'⟩ rfl rfl, rfl, ?_⟩
  obtain ⟨i, hi⟩ := release_head hprev hrel
  have hchain := hinv'.chain i
  refine ⟨i, lists' i, hchain, ?_⟩
  -- the list starts with the chunk, which is not at address 0
  simp only at hchain
  rw [hi] at hchain
  cases hl : lists' i with
  | nil =>
      rw [hl, chain_nil] at hchain
      have hlow := (h.chunks hx).1
      rw [hchain, BitVec.toNat_ofNat] at hlow
      omega
  | cons c cs =>
      rw [hl, chain_cons] at hchain
      rw [hchain.1]
      exact List.mem_cons_self ..

/-- `kfree` of the first page of several takes the page path and keeps the chunks. -/
theorem Sound.freePage (h : Sound start s) {ptr : BitVec 32} (hptr : ∃ x ∈ s.multi, x.1 = ptr) :
    ∃ s', s.step (.heap (.free ptr)) = some s' ∧ Sound start s' := by
  obtain ⟨⟨p, c⟩, hx, rfl⟩ := hptr
  obtain ⟨hlow, hhigh⟩ := h.multi _ hx
  simp only at hlow hhigh
  obtain ⟨n, hpath⟩ := h.kfree_some hlow (by omega)
  have hlive : s.kernel.live.filter (·.1 ≠ p) = s.kernel.live := by
    refine List.filter_eq_self.mpr fun x hx' => ?_
    obtain ⟨hchunk, hback⟩ := h.chunks hx'
    have hne : x.1 ≠ p := by
      rintro rfl
      omega
    simpa using hne
  have hstep : s.kernel.step (.free p) = some
      ⟨{ s.kernel.heap with pages := s.pages.mark n }, s.kernel.live⟩ := by
    simp only [KernelState.step, KernelState.perform, KernelHeap.kfree, bind, Except.bind]
    rw [show s.kernel.heap.pages.kfree p = some (s.pages.mark n) from hpath, hlive]
    rfl
  exact ⟨_, step_free hstep, h.freed p h.inOrder rfl rfl⟩

theorem Sound.free (h : Sound start s) {ptr : BitVec 32} (hallowed : Allowed s (.heap (.free ptr)))
    (hok : Classifies s (.heap (.free ptr))) :
    ∃ s', s.step (.heap (.free ptr)) = some s' ∧ Sound start s' ∧
      ((∃ x ∈ s.kernel.live, x.1 = ptr) →
        s'.pages = s.pages ∧ OnTier s'.kernel.heap.chunks (ptr - chunkOverhead)) := by
  by_cases hlive : ∃ x ∈ s.kernel.live, x.1 = ptr
  · obtain ⟨s', hs', hsound, hpages, htier⟩ := h.freeChunk hlive hok
    exact ⟨s', hs', hsound, fun _ => ⟨hpages, htier⟩⟩
  · have hmulti := (hallowed.resolve_left hlive).resolve_left hok.1
    obtain ⟨s', hs', hsound⟩ := h.freePage hmulti
    exact ⟨s', hs', hsound, fun he => absurd he hlive⟩

theorem Sound.step (h : Sound start s) {op : Op} (hallowed : Allowed s op)
    (hok : Classifies s op) (hs : s.step op = some s') : Sound start s' := by
  cases op with
  | heap op =>
      cases op with
      | malloc size =>
          obtain ⟨k, hk, rfl⟩ := Option.map_eq_some_iff.mp hs
          exact h.malloc hok hk
      | free ptr =>
          obtain ⟨s'', hs'', hsound, -⟩ := h.free hallowed hok
          obtain rfl := Option.some.inj (hs.symm.trans hs'')
          exact hsound
      | write addr byte =>
          simp only [State.step] at hs
          obtain ⟨k, hk, rfl⟩ := Option.map_eq_some_iff.mp hs
          exact h.write hallowed hk
  | kmallocAligned => exact h.kmallocAligned hok hs
  | kmallocAlignedMulti cnt => exact h.kmallocAlignedMulti hok hs

/-- The allocations of `init_heap` keep the pages. -/
theorem initHeap_pages {mem : ByteMem} {base maxLimit alignedStart : BitVec 32} {bitmapCnt : Nat}
    {k : KernelState}
    (hs : KernelState.initHeap mem base maxLimit alignedStart bitmapCnt = .ok k) :
    k.heap.pages = ⟨fun _ => 0#32, bitmapCnt, alignedStart⟩ := by
  rw [KernelState.initHeap] at hs
  split at hs
  · cases hs
  · simp only [bind, Except.bind] at hs
    split at hs
    · cases hs
    · next k₁ hk₁ => rw [malloc_pages hs, malloc_pages hk₁, KernelState.initial]

theorem kmainHeap_sound {mem : ByteMem} {kernelLimit : BitVec 32} {k : KernelState}
    (hroom : (Paging.alignPgUp kernelLimit).toNat + 0x400000 < 0xFF8FF000)
    (hinit : kmainHeap mem kernelLimit = .ok k) :
    Sound (Paging.alignPgUp kernelLimit) ⟨k, [], []⟩ := by
  have hbase := chunksStart_toNat hroom
  have hcnt : kernelAlignedHeapSize / 4096 / 8 = 128 := by decide
  rw [kmainHeap, hcnt] at hinit
  have hpages := initHeap_pages hinit
  exact ⟨hroom, KernelState.initHeap_inOrder (by omega) (by decide) (by omega) hinit,
    congrArg PageHeap.alignedStart hpages, congrArg PageHeap.bitmapCnt hpages, nofun, nofun⟩

/-- In every run on the heap of `kmain` whose steps meet the condition, the pages lie below the end
    of the pages, the chunks above, and every `kfree` that meets the condition does what it must. -/
theorem dispatch_of_classifies (mem : ByteMem) (kernelLimit : BitVec 32)
    (hroom : (Paging.alignPgUp kernelLimit).toNat + kernelAlignedHeapSize < 0xFF8FF000)
    (k : KernelState) (hinit : kmainHeap mem kernelLimit = .ok k) (s : State)
    (hr : Reaches State.step (fun s op => Allowed s op ∧ Classifies s op) ⟨k, [], []⟩ s) :
    Separate s ∧ ∀ ptr, Allowed s (.heap (.free ptr)) → Classifies s (.heap (.free ptr)) →
      FreesWell s ptr := by
  rw [kernelAlignedHeapSize_eq] at hroom
  have hsound : Sound (Paging.alignPgUp kernelLimit) s :=
    hr.invariant (kmainHeap_sound hroom hinit) fun _ _ _ hi hok hs => hi.step hok.1 hok.2 hs
  refine ⟨hsound.separate, fun ptr hallowed hok => ?_⟩
  obtain ⟨s', hs', -, hchunk⟩ := hsound.free hallowed hok
  exact ⟨s', hs', hchunk, fun hpage => absurd hpage hok.1⟩

/-- The heap of a kernel that ends at `0x80100000`. -/
def smallKernel : Except Fault KernelState := kmainHeap (fun _ => 0#8) 0x80100000#32

theorem exists_smallKernel : ∃ k, smallKernel = .ok k :=
  exists_ok_of_isSome (by decide +kernel)

theorem smallKernel_room :
    (Paging.alignPgUp 0x80100000#32).toNat + kernelAlignedHeapSize < 0xFF8FF000 := by decide

/-- Pages are handed out below `0x80500000`, and a chunk behind 16 MiB is freed. -/
theorem dispatch_of_classifies_small : ∃ k s, smallKernel = .ok k ∧
    Reaches State.step (fun s op => Allowed s op ∧ Classifies s op) ⟨k, [], []⟩ s ∧
    s.aligned = [0x80100000#32] ∧ s.multi = [(0x80101000#32, 3)] ∧ Separate s ∧
    FreesWell s 0x81500290#32 := by
  obtain ⟨k, hk⟩ := exists_smallKernel
  have hrun : (smallKernel.toOption.bind fun k => runChecked State.step
      (fun s op => Allowed s op ∧ Classifies s op) ⟨k, [], []⟩
      [.kmallocAligned, .kmallocAlignedMulti 3#32, .heap (.malloc 0x1000000#32),
        .heap (.malloc 100#32)]).any (fun s => decide (s.aligned = [0x80100000#32] ∧
          s.multi = [(0x80101000#32, 3)] ∧ Allowed s (.heap (.free 0x81500290#32)) ∧
          Classifies s (.heap (.free 0x81500290#32)))) = true := by decide +kernel
  simp only [hk, Except.toOption, Option.bind_some] at hrun
  obtain ⟨s, hr, hobs⟩ := exists_reaches_of_any hrun
  obtain ⟨haligned, hmulti, hallowed, hok⟩ := of_decide_eq_true hobs
  obtain ⟨hsep, hfree⟩ := dispatch_of_classifies (fun _ => 0#8) 0x80100000#32
    smallKernel_room k hk s hr
  exact ⟨k, s, hk, hr, haligned, hmulti, hsep, hfree _ hallowed hok⟩

/-- `kfree` takes the first chunk of a run for a page. -/
theorem chunk_taken_for_page : ¬ ∀ (mem : ByteMem) (kernelLimit : BitVec 32) (k : KernelState),
    (Paging.alignPgUp kernelLimit).toNat + kernelAlignedHeapSize < 0xFF8FF000 →
    kmainHeap mem kernelLimit = .ok k → ∀ s, Reaches State.step Allowed ⟨k, [], []⟩ s →
    Separate s ∧ ∀ ptr, Allowed s (.heap (.free ptr)) → FreesWell s ptr := by
  intro hall
  obtain ⟨k, hk⟩ := exists_smallKernel
  have hrun : (smallKernel.toOption.bind fun k => runChecked State.step Allowed ⟨k, [], []⟩
      [.heap (.malloc 100#32)]).any (fun s => decide ((∃ x ∈ s.kernel.live, x.1 = 0x80500288#32) ∧
        ¬ s.pages.Marked 1024 ∧ ((s.step (.heap (.free 0x80500288#32))).any fun s' =>
          decide (s'.pages.Marked 1024)) = true)) = true := by decide +kernel
  rw [hk] at hrun
  obtain ⟨s, hr, hobs⟩ := exists_reaches_of_any hrun
  obtain ⟨hlive, hclear, hset⟩ := of_decide_eq_true hobs
  obtain ⟨-, hfree⟩ := hall (fun _ => 0#8) 0x80100000#32 k smallKernel_room hk s hr
  obtain ⟨s', hs', hchunk, -⟩ := hfree 0x80500288#32 (.inl hlive)
  rw [hs', Option.any_some, decide_eq_true_eq, (hchunk hlive).1] at hset
  exact hclear hset

end Dispatch.State

end Muse.Memory
