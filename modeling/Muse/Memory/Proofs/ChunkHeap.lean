import Mathlib.Data.Fintype.Card
import Muse.Library.Extents
import Muse.Library.Links
import Muse.Memory.ChunkHeap

/-!
# The invariant of the chunk heap

A chunk that is free or allocated occupies a range of the region, and these ranges do not meet
(`Inv`). The range of an allocated chunk may be longer than its field `size` says, as the field
loses its lowest bit to `BIT_FREE`. The fields `prev_size` are not part of the invariant: nothing
keeps them up to date, and a `free` that follows one is not covered.

`place` says which free chunks may be in which tier.
-/

namespace Muse.Memory

open Muse.Library

/-! ## Sizes and tiers -/

theorem and_sizeMask_toNat (x : BitVec 32) : (x &&& sizeMask).toNat = x.toNat / 2 * 2 := by
  have hbits : x &&& sizeMask = (x >>> 1) <<< 1 := by
    apply BitVec.eq_of_getLsbD_eq
    intro i hi
    cases i with
    | zero => simp [sizeMask, bitFree]
    | succ i =>
        have hone : bitFree.getLsbD (i + 1) = false := by simp [bitFree]
        simp only [sizeMask, BitVec.getLsbD_and, BitVec.getLsbD_not, hone, BitVec.getLsbD_shiftLeft,
          BitVec.getLsbD_ushiftRight]
        simp [hi, Nat.add_comm]
  have hx := x.isLt
  rw [hbits, BitVec.toNat_shiftLeft, BitVec.toNat_ushiftRight, Nat.shiftRight_eq_div_pow,
    Nat.shiftLeft_eq]
  omega

theorem or_bitFree_and_sizeMask (x : BitVec 32) :
    (x ||| bitFree) &&& sizeMask = x &&& sizeMask := by
  apply BitVec.eq_of_getLsbD_eq
  intro i hi
  cases i with
  | zero => simp [sizeMask, bitFree]
  | succ i =>
      have hone : bitFree.getLsbD (i + 1) = false := by simp [bitFree]
      simp [hone]

theorem or_bitFree_and_bitFree (x : BitVec 32) : (x ||| bitFree) &&& bitFree ≠ 0#32 := by
  intro h
  have := congrArg (fun y : BitVec 32 => y.getLsbD 0) h
  simp [bitFree] at this

/-- The sizes of tier `i`. -/
def InTier (i x : Nat) : Prop := 2 ^ (i + 4) ≤ x ∧ x < 2 ^ (i + 5)

theorem tierIdx_toNat {x : BitVec 32} (h16 : 16 ≤ x.toNat) :
    (tierIdx x).toNat = x.toNat.log2 - 4 ∧ 4 ≤ x.toNat.log2 := by
  have hx : x.toNat ≠ 0 := by omega
  have hlo : 4 ≤ x.toNat.log2 := (Nat.le_log2 hx).mpr (by omega)
  have hhi : x.toNat.log2 < 32 := (Nat.log2_lt hx).mpr x.isLt
  refine ⟨?_, hlo⟩
  rw [tierIdx, BitVec.toNat_sub, BitVec.toNat_ofNat, BitVec.toNat_ofNat]
  omega

theorem inTier_tierIdx {x : BitVec 32} (h16 : 16 ≤ x.toNat) : InTier (tierIdx x).toNat x.toNat := by
  obtain ⟨hidx, hlo⟩ := tierIdx_toNat h16
  have hx : x.toNat ≠ 0 := by omega
  rw [InTier, hidx, show x.toNat.log2 - 4 + 4 = x.toNat.log2 by omega,
    show x.toNat.log2 - 4 + 5 = x.toNat.log2 + 1 by omega]
  exact ⟨(Nat.le_log2 hx).mp (Nat.le_refl _), (Nat.log2_lt hx).mp (Nat.lt_succ_self _)⟩

theorem tierIdx_lt {n : Nat} {x : BitVec 32} (h16 : 16 ≤ x.toNat) (hx : x.toNat < 2 ^ (n + 4)) :
    (tierIdx x).toNat < n := by
  obtain ⟨hidx, hlo⟩ := tierIdx_toNat h16
  have := (Nat.log2_lt (by omega)).mpr hx
  omega

namespace ChunkHeap

variable {n : Nat}

/-! ## Writes that leave a chunk alone -/

/-- The heap with a word of its memory replaced. -/
def writeAt (h : ChunkHeap n) (a x : BitVec 32) : ChunkHeap n :=
  { h with mem := writeWord h.mem a x }

theorem setSizeOf_eq (h : ChunkHeap n) (c x : BitVec 32) :
    h.setSizeOf c x = h.writeAt (c + 4#32) x := rfl

theorem setPrevSize_eq (h : ChunkHeap n) (c x : BitVec 32) :
    h.setPrevSize c x = h.writeAt c x := rfl

theorem setNext_eq (h : ChunkHeap n) (c x : BitVec 32) :
    h.setNext c x = h.writeAt (c + 8#32) x := rfl

@[simp] theorem sizeOf_setSizeOf_self (h : ChunkHeap n) (c x : BitVec 32) :
    (h.setSizeOf c x).sizeOf c = x := readWord_writeWord_self ..

@[simp] theorem next_setNext_self (h : ChunkHeap n) (c x : BitVec 32) :
    (h.setNext c x).next c = x := readWord_writeWord_self ..

/-- An address in front of the end of memory. -/
theorem toNat_add_of_le {c k : BitVec 32} {m : Nat} (h : c.toNat + m < 2 ^ 32)
    (hk : k.toNat ≤ m) : (c + k).toNat = c.toNat + k.toNat := by
  rw [BitVec.toNat_add]
  omega

variable (h : ChunkHeap n) {a c : BitVec 32} (x : BitVec 32)

/-- The field `size` is not touched by a write below it or behind it. -/
theorem sizeOf_writeAt (ha : a.toNat + 4 < 2 ^ 32) (hc : c.toNat + 8 < 2 ^ 32)
    (hac : a.toNat ≤ c.toNat ∨ c.toNat + 8 ≤ a.toNat) :
    (h.writeAt a x).sizeOf c = h.sizeOf c := by
  have h4 : (c + 4#32).toNat = c.toNat + 4 := toNat_add_of_le hc (by decide)
  refine readWord_writeWord_of_apart _ _ ⟨?_, ?_, ?_⟩ <;> omega

theorem next_writeAt (ha : a.toNat + 4 < 2 ^ 32) (hc : c.toNat + 12 < 2 ^ 32)
    (hac : a.toNat ≤ c.toNat + 4 ∨ c.toNat + 12 ≤ a.toNat) :
    (h.writeAt a x).next c = h.next c := by
  have h8 : (c + 8#32).toNat = c.toNat + 8 := toNat_add_of_le hc (by decide)
  refine readWord_writeWord_of_apart _ _ ⟨?_, ?_, ?_⟩ <;> omega

theorem room_toNat (c : BitVec 32) : (h.room c).toNat = (h.sizeOf c).toNat / 2 * 2 :=
  and_sizeMask_toNat _

/-! ## The loop over a tier -/

omit x in
/-- The loop stops at the end of the list or at a chunk that is large enough, with the chunk
    before it in `prev`. -/
theorem findChunk_spec {chSize : BitVec 32} : ∀ {l : List (BitVec 32)} {fuel : Nat}
    {prev ch p q : BitVec 32}, Chain h.next 0#32 ch l →
    h.findChunk chSize fuel prev ch = .ok (p, q) → q = 0#32 ∨ ∃ xs ys, l = xs ++ q :: ys ∧
      chSize ≤ h.room q ∧ (xs = [] ∧ p = prev ∨ ∃ xs', xs = xs' ++ [p])
  | _, 0, _, _, _, _, _, hs => by cases hs
  | [], fuel + 1, prev, ch, p, q, hl, hs => by
      rw [findChunk, if_pos (chain_nil.mp hl)] at hs
      exact .inl (Prod.mk.inj (Except.ok.inj hs)).2.symm
  | c :: cs, fuel + 1, prev, ch, p, q, hl, hs => by
      obtain ⟨rfl, hc, hcs⟩ := hl
      rw [findChunk, if_neg hc] at hs
      split at hs
      · rcases findChunk_spec hcs hs with hq | ⟨xs, ys, rfl, hroom, hprev⟩
        · exact .inl hq
        · refine .inr ⟨ch :: xs, ys, rfl, hroom, .inr ?_⟩
          rcases hprev with ⟨rfl, rfl⟩ | ⟨xs', rfl⟩
          · exact ⟨[], rfl⟩
          · exact ⟨ch :: xs', rfl⟩
      · next hroom =>
          obtain ⟨rfl, rfl⟩ := Prod.mk.inj (Except.ok.inj hs)
          exact .inr ⟨[], cs, rfl, BitVec.not_lt.mp hroom, .inl ⟨rfl, rfl⟩⟩

omit x in
/-- On a finite list the loop ends. -/
theorem findChunk_total (chSize : BitVec 32) : ∀ {l : List (BitVec 32)} {fuel : Nat}
    (prev : BitVec 32) {ch : BitVec 32}, Chain h.next 0#32 ch l → l.length < fuel →
    ∃ r, h.findChunk chSize fuel prev ch = .ok r
  | _, 0, _, _, _, hfuel => by omega
  | [], fuel + 1, prev, ch, hl, _ => ⟨_, by rw [findChunk, if_pos (chain_nil.mp hl)]⟩
  | c :: cs, fuel + 1, prev, ch, hl, hfuel => by
      obtain ⟨rfl, hc, hcs⟩ := hl
      rw [findChunk, if_neg hc]
      split
      · exact findChunk_total chSize _ hcs (by simpa using hfuel)
      · exact ⟨_, rfl⟩

end ChunkHeap

/-- The size of the chunk for a request, whose sum with the header can wrap. -/
theorem chunkSize_toNat (size : BitVec 32) :
    (ChunkHeap.chunkSize size).toNat = max 16 ((size.toNat + 8) % 2 ^ 32) := by
  have hmin : minChunkSize.toNat = 16 := rfl
  have hsum : (size + chunkOverhead).toNat = (size.toNat + 8) % 2 ^ 32 := by
    rw [BitVec.toNat_add]
    rfl
  rw [ChunkHeap.chunkSize]
  split
  · next hle =>
      rw [BitVec.le_def] at hle
      omega
  · next hle =>
      rw [BitVec.le_def] at hle
      omega

theorem chunkSize_bounds {n : Nat} {size : BitVec 32} (hn : 0 < n ∧ n + 4 < 32)
    (hsize : size.toNat + 8 < 2 ^ (n + 4)) :
    16 ≤ (ChunkHeap.chunkSize size).toNat ∧ (ChunkHeap.chunkSize size).toNat < 2 ^ (n + 4) ∧
      size.toNat + 8 ≤ (ChunkHeap.chunkSize size).toNat := by
  have hpow : 2 ^ (n + 4) ≤ 2 ^ 31 := Nat.pow_le_pow_right (by decide) (by omega)
  have h4 : 2 ^ 4 < 2 ^ (n + 4) := Nat.pow_lt_pow_right (by decide) (by omega)
  rw [chunkSize_toNat]
  omega

theorem chunkSize_le (size : BitVec 32) :
    (ChunkHeap.chunkSize size).toNat ≤ size.toNat + 16 := by
  rw [chunkSize_toNat]
  omega

/-- What is left of a chunk behind a request. -/
theorem rest_toNat (r size : BitVec 32) (h : size.toNat + 8 ≤ r.toNat) :
    (r - size - chunkOverhead).toNat = r.toNat - size.toNat - 8 := by
  have hr := r.isLt
  simp only [chunkOverhead, BitVec.toNat_sub, BitVec.toNat_ofNat]
  omega

/-- A list of different chunks, none of them null, has fewer than 2^32 chunks. -/
theorem length_lt_of_nodup {l : List (BitVec 32)} (hnd : l.Nodup) (h0 : 0#32 ∉ l) :
    l.length < 2 ^ 32 := by
  have hnd' : ((0#32 :: l).map BitVec.toFin).Nodup :=
    (List.nodup_cons.mpr ⟨h0, hnd⟩).map fun a b hab => BitVec.eq_of_toFin_eq hab
  have := hnd'.length_le_card
  simp only [List.length_map, List.length_cons, Fintype.card_fin] at this
  omega

/-! ## The invariant -/

namespace HeapState

variable {n : Nat}

/-- The chunk `c` is on the list of tier `i`. -/
structure FreeChunk (place : Nat → Nat → Prop) (h : ChunkHeap n) (e : Extents) (i : Fin n)
    (c : BitVec 32) : Prop where
  extent : e c.toNat = some (h.room c).toNat
  min : 16 ≤ (h.room c).toNat
  max : (h.room c).toNat < 2 ^ (n + 4)
  bit : h.sizeOf c &&& bitFree ≠ 0#32
  place : place i (h.room c).toNat

/-- The chunk `c` is allocated for a request of `size` bytes. -/
structure LiveChunk (h : ChunkHeap n) (e : Extents) (c size : BitVec 32) : Prop where
  extent : ∃ m, e c.toNat = some m ∧ size.toNat + 8 ≤ m ∧ (h.room c).toNat ≤ m
  max : (h.room c).toNat < 2 ^ (n + 4)

theorem FreeChunk.congr {place : Nat → Nat → Prop} {h h' : ChunkHeap n} {e : Extents} {i : Fin n}
    {c : BitVec 32} (hf : FreeChunk place h e i c) (hs : h'.sizeOf c = h.sizeOf c) :
    FreeChunk place h' e i c := by
  have hr : h'.room c = h.room c := by rw [ChunkHeap.room, hs, ChunkHeap.room]
  exact ⟨hr ▸ hf.extent, hr ▸ hf.min, hr ▸ hf.max, hs ▸ hf.bit, hr ▸ hf.place⟩

theorem LiveChunk.congr {h h' : ChunkHeap n} {e : Extents} {c size : BitVec 32}
    (hl : LiveChunk h e c size) (hs : h'.sizeOf c = h.sizeOf c) : LiveChunk h' e c size := by
  have hr : h'.room c = h.room c := by rw [ChunkHeap.room, hs, ChunkHeap.room]
  exact ⟨hr ▸ hl.extent, hr ▸ hl.max⟩

/-- The chunk is on a list or allocated. -/
def Owned (s : HeapState n) (lists : Fin n → List (BitVec 32)) (c : BitVec 32) : Prop :=
  (∃ i, c ∈ lists i) ∨ ∃ x ∈ s.live, x.1 - chunkOverhead = c

structure Inv (place : Nat → Nat → Prop) (base : Nat) (s : HeapState n) (e : Extents)
    (lists : Fin n → List (BitVec 32)) : Prop where
  base_pos : 0 < base
  limit : base + 4 ≤ s.heap.limit.toNat
  apart : e.Apart base (s.heap.limit.toNat - 4)
  chain : ∀ i, Chain s.heap.next 0#32 (s.heap.tiers i) (lists i)
  nodup : ∀ i, (lists i).Nodup
  one : ∀ i j c, c ∈ lists i → c ∈ lists j → i = j
  free : ∀ i, ∀ c ∈ lists i, FreeChunk place s.heap e i c
  live : ∀ x ∈ s.live, LiveChunk s.heap e (x.1 - chunkOverhead) x.2
  live_nodup : (s.live.map Prod.fst).Nodup
  live_free : ∀ x ∈ s.live, ∀ i, x.1 - chunkOverhead ∉ lists i

/-- The condition on a chunk that a request splits: the address of the rest gives a tier, one that
    the rest may be in. -/
def SplitsWell (place : Nat → Nat → Prop) (heap : ChunkHeap n) (size : BitVec 32) : Prop :=
  ∀ p ∈ (heap.fittingChunk size).toOption, p.2 ≠ 0#32 → heap.Splits p.2 size →
    (tierIdx (p.2 + size + chunkOverhead)).toNat < n ∧
      place (tierIdx (p.2 + size + chunkOverhead)).toNat
        ((heap.room p.2 - size - chunkOverhead) &&& sizeMask).toNat

instance {place : Nat → Nat → Prop} [∀ i x, Decidable (place i x)] (heap : ChunkHeap n)
    (size : BitVec 32) : Decidable (SplitsWell place heap size) :=
  Option.decidableForallMem (heap.fittingChunk size).toOption

section Inv

variable {place : Nat → Nat → Prop} {base : Nat} {s : HeapState n} {e : Extents}
  {lists : Fin n → List (BitVec 32)} (h : Inv place base s e lists)

include h

/-- A range of the region. -/
theorem Inv.bounds {c m : Nat} (hc : e c = some m) :
    base ≤ c ∧ c + m + 4 ≤ s.heap.limit.toNat ∧ c + m + 4 < 2 ^ 32 := by
  have hw := h.apart.within c m hc
  have := h.limit
  have := s.heap.limit.isLt
  omega

/-- A chunk in use has a header, and a chunk on a list has room for `next`. -/
theorem Inv.owned {c : BitVec 32} (hc : Owned s lists c) : ∃ m, e c.toNat = some m ∧ 8 ≤ m ∧
    ((∃ i, c ∈ lists i) → 16 ≤ m) := by
  rcases hc with ⟨i, hi⟩ | ⟨x, hx, rfl⟩
  · have hf := h.free i c hi
    exact ⟨_, hf.extent, by have := hf.min; omega, fun _ => hf.min⟩
  · obtain ⟨⟨m, hm, hsize, -⟩, -⟩ := h.live x hx
    refine ⟨m, hm, by omega, fun ⟨i, hi⟩ => absurd hi (h.live_free x hx i)⟩

/-- The invariant depends on the headers of the chunks in use only, and chunks may be taken off
    the lists. -/
theorem Inv.relink {heap : ChunkHeap n} {lists' : Fin n → List (BitVec 32)}
    (hlimit : heap.limit = s.heap.limit)
    (hsize : ∀ c, Owned s lists c → heap.sizeOf c = s.heap.sizeOf c)
    (hchain : ∀ i, Chain heap.next 0#32 (heap.tiers i) (lists' i))
    (hsub : ∀ i, (lists' i).Sublist (lists i)) : Inv place base { s with heap } e lists' := by
  refine ⟨h.base_pos, hlimit ▸ h.limit, hlimit ▸ h.apart, hchain,
    fun i => (h.nodup i).sublist (hsub i),
    fun i j c hi hj => h.one i j c ((hsub i).subset hi) ((hsub j).subset hj),
    fun i c hc => ?_, fun x hx => ?_, h.live_nodup,
    fun x hx i hm => h.live_free x hx i ((hsub i).subset hm)⟩
  · have hc' := (hsub i).subset hc
    exact (h.free i c hc').congr (hsize c (.inl ⟨i, hc'⟩))
  · exact (h.live x hx).congr (hsize _ (.inr ⟨x, hx, rfl⟩))

theorem Inv.frame {heap : ChunkHeap n} (hlimit : heap.limit = s.heap.limit)
    (htiers : heap.tiers = s.heap.tiers)
    (hsize : ∀ c, Owned s lists c → heap.sizeOf c = s.heap.sizeOf c)
    (hnext : ∀ i, ∀ c ∈ lists i, heap.next c = s.heap.next c) :
    Inv place base { s with heap } e lists := by
  refine h.relink hlimit hsize (fun i => ?_) (fun i => List.Sublist.refl _)
  rw [htiers]
  exact (h.chain i).congr (hnext i)

/-- A write in the range of a chunk that is not in use, or to the word behind it, which may be
    the `prev_size` of the next chunk. -/
theorem Inv.writeAt {d : BitVec 32} {m : Nat} (hd : e d.toNat = some m)
    (hfree : ¬ Owned s lists d) {a : BitVec 32} (x : BitVec 32) (hda : d.toNat ≤ a.toNat)
    (ham : a.toNat ≤ d.toNat + m) :
    Inv place base { s with heap := s.heap.writeAt a x } e lists := by
  have hdb := h.bounds hd
  -- a chunk in use lies below the write, or starts at or behind it
  have hpos : ∀ c, Owned s lists c → ∃ k, e c.toNat = some k ∧ 8 ≤ k ∧
      ((∃ i, c ∈ lists i) → 16 ≤ k) ∧ c.toNat + k < 2 ^ 32 ∧
      (c.toNat + k ≤ a.toNat ∨ a.toNat ≤ c.toNat) := by
    intro c hc
    obtain ⟨k, hk, h8, h16⟩ := h.owned hc
    have hne : c.toNat ≠ d.toNat := fun he => hfree (BitVec.eq_of_toNat_eq he ▸ hc)
    have hcb := h.bounds hk
    have := h.apart.apart c.toNat d.toNat k m hne hk hd
    exact ⟨k, hk, h8, h16, by omega, by omega⟩
  refine h.frame rfl rfl (fun c hc => ?_) (fun i c hc => ?_)
  · obtain ⟨k, -, h8, -, hk, hor⟩ := hpos c hc
    exact s.heap.sizeOf_writeAt x (by omega) (by omega) (by omega)
  · obtain ⟨k, -, -, h16, hk, hor⟩ := hpos c (.inl ⟨i, hc⟩)
    have := h16 ⟨i, hc⟩
    exact s.heap.next_writeAt x (by omega) (by omega) (by omega)

/-- The ranges of chunks that are not in use do not matter. -/
theorem Inv.extents {e' : Extents} (hap : e'.Apart base (s.heap.limit.toNat - 4))
    (heq : ∀ c, Owned s lists c → e' c.toNat = e c.toNat) : Inv place base s e' lists := by
  refine ⟨h.base_pos, h.limit, hap, h.chain, h.nodup, h.one, fun i c hc => ?_, fun x hx => ?_,
    h.live_nodup, h.live_free⟩
  · have hf := h.free i c hc
    exact ⟨(heq c (.inl ⟨i, hc⟩)).trans hf.extent, hf.min, hf.max, hf.bit, hf.place⟩
  · have hl := h.live x hx
    refine ⟨?_, hl.max⟩
    rw [heq _ (.inr ⟨x, hx, rfl⟩)]
    exact hl.extent

/-! ## Linking and unlinking -/

/-- The write to the field `next` of a chunk on a list changes no other field of a chunk in use. -/
theorem Inv.setNext_fields {i : Fin n} {d : BitVec 32} (hd : d ∈ lists i) (x : BitVec 32) :
    (∀ c, Owned s lists c → (s.heap.setNext d x).sizeOf c = s.heap.sizeOf c) ∧
      ∀ j, ∀ c ∈ lists j, (s.heap.setNext d x).next c =
        Function.update s.heap.next d x c := by
  obtain ⟨m, hm, -, hm16⟩ := h.owned (.inl ⟨i, hd⟩)
  have h16 := hm16 ⟨i, hd⟩
  have hdb := h.bounds hm
  have h8 : (d + 8#32).toNat = d.toNat + 8 :=
    ChunkHeap.toNat_add_of_le (m := m) (by omega) (by simp; omega)
  have hpos : ∀ c, Owned s lists c → c ≠ d → ∃ k, e c.toNat = some k ∧ 8 ≤ k ∧
      ((∃ i, c ∈ lists i) → 16 ≤ k) ∧ c.toNat + k < 2 ^ 32 ∧
      (c.toNat + k ≤ d.toNat ∨ d.toNat + 16 ≤ c.toNat) := by
    intro c hc hne
    obtain ⟨k, hk, hk8, hk16⟩ := h.owned hc
    have hcb := h.bounds hk
    have := h.apart.apart c.toNat d.toNat k m (fun he => hne (BitVec.eq_of_toNat_eq he)) hk hm
    exact ⟨k, hk, hk8, hk16, by omega, by omega⟩
  refine ⟨fun c hc => ?_, fun j c hc => ?_⟩
  · rw [ChunkHeap.setNext_eq]
    by_cases hcd : c = d
    · subst hcd
      exact s.heap.sizeOf_writeAt x (by omega) (by omega) (by omega)
    · obtain ⟨k, -, hk8, -, hk, hor⟩ := hpos c hc hcd
      exact s.heap.sizeOf_writeAt x (by omega) (by omega) (by omega)
  · by_cases hcd : c = d
    · subst hcd
      rw [Function.update_self, ChunkHeap.next_setNext_self]
    · obtain ⟨k, -, -, hk16, hk, hor⟩ := hpos c (.inl ⟨j, hc⟩) hcd
      have := hk16 ⟨j, hc⟩
      rw [Function.update_of_ne hcd, ChunkHeap.setNext_eq]
      exact s.heap.next_writeAt x (by omega) (by omega) (by omega)

/-- The chunk behind `prev`, or the first one, is taken off its list. -/
theorem Inv.unlink {idx prev c : BitVec 32} (hi : idx.toNat < n) {xs ys : List (BitVec 32)}
    (hlist : lists ⟨idx.toNat, hi⟩ = xs ++ c :: ys)
    (hprev : xs = [] ∧ prev = 0#32 ∨ ∃ xs', xs = xs' ++ [prev]) :
    ∃ heap, s.heap.unlinkChunk idx prev c = .ok heap ∧ heap.limit = s.heap.limit ∧
      heap.sizeOf c = s.heap.sizeOf c ∧
      Inv place base { s with heap } e (Function.update lists ⟨idx.toNat, hi⟩ (xs ++ ys)) ∧
      ¬ Owned { s with heap } (Function.update lists ⟨idx.toNat, hi⟩ (xs ++ ys)) c := by
  have hmem : c ∈ lists ⟨idx.toNat, hi⟩ := by simp [hlist]
  have hnd := h.nodup ⟨idx.toNat, hi⟩
  rw [hlist] at hnd
  have hchain := h.chain ⟨idx.toNat, hi⟩
  rw [hlist] at hchain
  have hsub : ∀ j, (Function.update lists ⟨idx.toNat, hi⟩ (xs ++ ys) j).Sublist (lists j) := by
    intro j
    by_cases hj : j = ⟨idx.toNat, hi⟩
    · subst hj
      rw [Function.update_self, hlist]
      exact (List.Sublist.refl xs).append (List.sublist_cons_self c ys)
    · rw [Function.update_of_ne hj]
  have hfree : ∀ heap, ¬ Owned { s with heap }
      (Function.update lists ⟨idx.toNat, hi⟩ (xs ++ ys)) c := by
    rintro heap (⟨j, hj⟩ | ⟨x, hx, rfl⟩)
    · obtain rfl : j = ⟨idx.toNat, hi⟩ := h.one _ _ c ((hsub j).subset hj) hmem
      rw [Function.update_self] at hj
      have := (List.nodup_middle.mp hnd)
      exact (List.nodup_cons.mp this).1 hj
    · exact h.live_free x hx _ hmem
  rcases hprev with ⟨rfl, rfl⟩ | ⟨xs', rfl⟩
  · refine ⟨{ s.heap with tiers := Function.update s.heap.tiers ⟨idx.toNat, hi⟩ (s.heap.next c) },
      ?_, rfl, rfl, h.relink rfl (fun _ _ => rfl) (fun j => ?_) hsub, hfree _⟩
    · simp [ChunkHeap.unlinkChunk, ChunkHeap.setTier, hi]
    · by_cases hj : j = ⟨idx.toNat, hi⟩
      · subst hj
        rw [Function.update_self]
        simp only [Function.update_self]
        exact hchain.2.2
      · rw [Function.update_of_ne hj]
        simp only [Function.update_of_ne hj]
        exact h.chain j
  · have hpm : prev ∈ lists ⟨idx.toNat, hi⟩ := by simp [hlist]
    obtain ⟨hsize, hnext⟩ := h.setNext_fields hpm (s.heap.next c)
    have hp0 : prev ≠ 0#32 := hchain.ne_null prev (by simp)
    refine ⟨s.heap.setNext prev (s.heap.next c), ?_, rfl, hsize c (.inl ⟨_, hmem⟩),
      h.relink rfl hsize (fun j => ?_) hsub, hfree _⟩
    · simp [ChunkHeap.unlinkChunk, hp0]
    · by_cases hj : j = ⟨idx.toNat, hi⟩
      · subst hj
        rw [Function.update_self]
        have hun : Chain (Function.update s.heap.next prev (s.heap.next c)) 0#32
            (s.heap.tiers ⟨idx.toNat, hi⟩) (xs' ++ prev :: ys) :=
          Chain.unlink_update (by simpa using hchain) (by simpa using hnd)
        have hun' : Chain (Function.update s.heap.next prev (s.heap.next c)) 0#32
            (s.heap.tiers ⟨idx.toNat, hi⟩) (xs' ++ [prev] ++ ys) := by simpa using hun
        refine hun'.congr fun d hd => hnext ⟨idx.toNat, hi⟩ d ?_
        have := hsub ⟨idx.toNat, hi⟩
        rw [Function.update_self] at this
        exact this.subset hd
      · rw [Function.update_of_ne hj]
        refine (h.chain j).congr fun d hd => ?_
        rw [hnext j d hd, Function.update_of_ne]
        rintro rfl
        exact hj (h.one _ _ d hd hpm)

/-- A chunk that is not in use and whose `next` is the first chunk of a list becomes the first. -/
theorem Inv.push {i : Fin n} {c : BitVec 32} (hc : ¬ Owned s lists c)
    (hf : FreeChunk place s.heap e i c) (hnext : s.heap.next c = s.heap.tiers i) :
    Inv place base { s with heap.tiers := Function.update s.heap.tiers i c } e
      (Function.update lists i (c :: lists i)) := by
  have hcl : ∀ j, c ∉ lists j := fun j hj => hc (.inl ⟨j, hj⟩)
  have hin : ∀ j d, d ∈ Function.update lists i (c :: lists i) j →
      d = c ∧ j = i ∨ d ∈ lists j := by
    intro j d hd
    by_cases hj : j = i
    · subst hj
      rw [Function.update_self] at hd
      rcases List.mem_cons.mp hd with rfl | hd
      · exact .inl ⟨rfl, rfl⟩
      · exact .inr hd
    · rw [Function.update_of_ne hj] at hd
      exact .inr hd
  refine ⟨h.base_pos, h.limit, h.apart, fun j => ?_, fun j => ?_, fun j k d hj hk => ?_,
    fun j d hd => ?_, fun x hx => (h.live x hx).congr rfl, h.live_nodup, fun x hx j hm => ?_⟩
  · by_cases hj : j = i
    · subst hj
      simp only [Function.update_self]
      refine ⟨rfl, ?_, ?_⟩
      · rintro rfl
        have := h.base_pos
        have hb := h.bounds hf.extent
        rw [BitVec.toNat_ofNat] at hb
        omega
      · have hch := h.chain j
        rw [← hnext] at hch
        exact hch
    · simp only [Function.update_of_ne hj]
      exact h.chain j
  · by_cases hj : j = i
    · subst hj
      rw [Function.update_self]
      exact List.nodup_cons.mpr ⟨hcl _, h.nodup _⟩
    · rw [Function.update_of_ne hj]
      exact h.nodup j
  · rcases hin j d hj with ⟨rfl, rfl⟩ | hj' <;> rcases hin k d hk with ⟨hd, rfl⟩ | hk'
    · rfl
    · exact absurd hk' (hcl k)
    · exact absurd (hd ▸ hj') (hcl j)
    · exact h.one j k d hj' hk'
  · rcases hin j d hd with ⟨rfl, rfl⟩ | hd'
    · exact hf.congr rfl
    · exact (h.free j d hd').congr rfl
  · rcases hin j _ hm with ⟨he, -⟩ | hm'
    · exact hc (.inr ⟨x, hx, he⟩)
    · exact h.live_free x hx j hm'

/-- A chunk that is not in use is put in front of a list. -/
theorem Inv.link {idx c : BitVec 32} (hi : idx.toNat < n) (hc : ¬ Owned s lists c)
    (hf : FreeChunk place s.heap e ⟨idx.toNat, hi⟩ c) :
    ∃ heap, s.heap.linkChunk idx c = .ok heap ∧
      Inv place base { s with heap } e
        (Function.update lists ⟨idx.toNat, hi⟩ (c :: lists ⟨idx.toNat, hi⟩)) ∧
      ∀ d : BitVec 32, d.toNat ≤ c.toNat → heap.sizeOf d = s.heap.sizeOf d := by
  have hcb := h.bounds hf.extent
  have hmin := hf.min
  have h8 : (c + 8#32).toNat = c.toNat + 8 :=
    ChunkHeap.toNat_add_of_le (m := (s.heap.room c).toNat) (by omega) (by simp; omega)
  have hsize : ∀ d : BitVec 32, d.toNat ≤ c.toNat →
      (s.heap.setNext c (s.heap.tiers ⟨idx.toNat, hi⟩)).sizeOf d = s.heap.sizeOf d := by
    intro d hd
    rw [ChunkHeap.setNext_eq]
    exact s.heap.sizeOf_writeAt _ (by omega) (by omega) (by omega)
  have hw := h.writeAt hf.extent hc (a := c + 8#32) (s.heap.tiers ⟨idx.toNat, hi⟩)
    (by omega) (by omega)
  rw [← ChunkHeap.setNext_eq] at hw
  refine ⟨_, ?_, hw.push hc (hf.congr (hsize c (Nat.le_refl _)))
    (ChunkHeap.next_setNext_self ..), hsize⟩
  simp only [ChunkHeap.linkChunk, ChunkHeap.tier, ChunkHeap.setTier, hi, dif_pos]
  rfl

/-! ## Allocating -/

/-- A chunk that is not in use is handed out. -/
theorem Inv.adopt {c size : BitVec 32} (hc : ¬ Owned s lists c)
    (hl : LiveChunk s.heap e c size) :
    Inv place base { s with live := (c + chunkOverhead, size) :: s.live } e lists := by
  have hback : c + chunkOverhead - chunkOverhead = c := BitVec.add_sub_cancel ..
  refine ⟨h.base_pos, h.limit, h.apart, h.chain, h.nodup, h.one, h.free, fun x hx => ?_, ?_,
    fun x hx i hm => ?_⟩
  · rcases List.mem_cons.mp hx with rfl | hx
    · simp only [hback]
      exact hl
    · exact h.live x hx
  · refine List.nodup_cons.mpr ⟨fun hm => ?_, h.live_nodup⟩
    obtain ⟨x, hx, he⟩ := List.mem_map.mp hm
    exact hc (.inr ⟨x, hx, by rw [he, hback]⟩)
  · rcases List.mem_cons.mp hx with rfl | hx
    · simp only [hback] at hm
      exact hc (.inl ⟨i, hm⟩)
    · exact h.live_free x hx i hm

/-- The chunk that a request finds is on the list of its tier and large enough. -/
theorem Inv.fittingChunk {size : BitVec 32} (hn : 0 < n ∧ n + 4 < 32)
    (hsize : size.toNat + 8 < 2 ^ (n + 4)) :
    ∃ (hi : (tierIdx (ChunkHeap.chunkSize size)).toNat < n) (prev ch : BitVec 32),
      s.heap.fittingChunk size = .ok (prev, ch) ∧ (ch = 0#32 ∨
        ∃ xs ys, lists ⟨_, hi⟩ = xs ++ ch :: ys ∧ ChunkHeap.chunkSize size ≤ s.heap.room ch ∧
          (xs = [] ∧ prev = 0#32 ∨ ∃ xs', xs = xs' ++ [prev])) := by
  obtain ⟨h16, hlt, -⟩ := chunkSize_bounds hn hsize
  have hi := tierIdx_lt h16 hlt
  have hchain := h.chain ⟨_, hi⟩
  obtain ⟨⟨prev, ch⟩, hfind⟩ := s.heap.findChunk_total (ChunkHeap.chunkSize size) 0#32 hchain
    (length_lt_of_nodup (h.nodup _) fun hm => hchain.ne_null _ hm rfl)
  refine ⟨hi, prev, ch, ?_, s.heap.findChunk_spec hchain hfind⟩
  simp only [ChunkHeap.fittingChunk, ChunkHeap.tier, hi, dif_pos]
  exact hfind

omit h in
/-- A chunk that is split is larger than the request and the smallest chunk together. -/
theorem room_of_splits {heap : ChunkHeap n} {c size : BitVec 32} (hn : 0 < n ∧ n + 4 < 32)
    (hsize : size.toNat + 8 < 2 ^ (n + 4)) (hsplits : heap.Splits c size) :
    size.toNat + 32 ≤ (heap.room c).toNat := by
  have hpow : 2 ^ (n + 4) ≤ 2 ^ 31 := Nat.pow_le_pow_right (by decide) (by omega)
  obtain ⟨-, hlt, hch⟩ := chunkSize_bounds hn hsize
  have hsum : (ChunkHeap.chunkSize size + minChunkSize + chunkOverhead).toNat =
      (ChunkHeap.chunkSize size).toNat + 24 := by
    simp only [minChunkSize, chunkOverhead, BitVec.toNat_add, BitVec.toNat_ofNat]
    omega
  rw [ChunkHeap.Splits, BitVec.le_def, hsum] at hsplits
  omega

/-- What `split_chunk` writes to the headers lies in the chunk and in the word behind it. -/
theorem Inv.splitHeaders {c size : BitVec 32} (hc : ¬ Owned s lists c)
    (hext : e c.toNat = some (s.heap.room c).toNat)
    (hroom : size.toNat + 32 ≤ (s.heap.room c).toNat) :
    ∃ heap, s.heap.splitChunk c size =
        heap.linkChunk (tierIdx (c + size + chunkOverhead)) (c + size + chunkOverhead) ∧
      Inv place base { s with heap } e lists ∧ heap.limit = s.heap.limit ∧
      heap.sizeOf c = size + chunkOverhead ∧
      heap.sizeOf (c + size + chunkOverhead) =
        (s.heap.room c - size - chunkOverhead) ||| bitFree := by
  have hcb := h.bounds hext
  have hnew : (c + size + chunkOverhead).toNat = c.toNat + size.toNat + 8 := by
    simp only [chunkOverhead, BitVec.toNat_add, BitVec.toNat_ofNat]
    omega
  have hnext : (c + s.heap.room c).toNat = c.toNat + (s.heap.room c).toNat := by
    rw [BitVec.toNat_add]
    omega
  generalize hnewCh : c + size + chunkOverhead = newCh at hnew ⊢
  have hnew4 : (newCh + 4#32).toNat = newCh.toNat + 4 :=
    ChunkHeap.toNat_add_of_le (m := 4) (by omega) (by decide)
  have hc4 : (c + 4#32).toNat = c.toNat + 4 :=
    ChunkHeap.toNat_add_of_le (m := 4) (by omega) (by decide)
  generalize hh₁ : s.heap.setSizeOf newCh
    ((s.heap.room c - size - chunkOverhead) ||| bitFree) = h₁
  generalize hh₂ : h₁.setSizeOf c (size + chunkOverhead) = h₂
  generalize hh₃ : h₂.setPrevSize newCh (h₂.sizeOf c) = h₃
  generalize hh₄ : h₃.setPrevSize (c + s.heap.room c) (h₃.sizeOf newCh) = h₄
  have hi₁ : Inv place base { s with heap := h₁ } e lists := by
    rw [← hh₁, ChunkHeap.setSizeOf_eq]
    exact h.writeAt hext hc _ (by omega) (by omega)
  have hi₂ : Inv place base { s with heap := h₂ } e lists := by
    rw [← hh₂, ChunkHeap.setSizeOf_eq]
    exact hi₁.writeAt hext hc _ (by omega) (by omega)
  have hi₃ : Inv place base { s with heap := h₃ } e lists := by
    rw [← hh₃, ChunkHeap.setPrevSize_eq]
    exact hi₂.writeAt hext hc _ (by omega) (by omega)
  have hi₄ : Inv place base { s with heap := h₄ } e lists := by
    rw [← hh₄, ChunkHeap.setPrevSize_eq]
    exact hi₃.writeAt hext hc _ (by omega) (by omega)
  refine ⟨h₄, ?_, hi₄, ?_, ?_, ?_⟩
  · simp only [ChunkHeap.splitChunk, hnewCh, hh₁, hh₂, hh₃, hh₄]
  · rw [← hh₄, ← hh₃, ← hh₂, ← hh₁]
    rfl
  · rw [← hh₄, ChunkHeap.setPrevSize_eq, h₃.sizeOf_writeAt _ (by omega) (by omega) (by omega),
      ← hh₃, ChunkHeap.setPrevSize_eq, h₂.sizeOf_writeAt _ (by omega) (by omega) (by omega),
      ← hh₂, ChunkHeap.sizeOf_setSizeOf_self]
  · rw [← hh₄, ChunkHeap.setPrevSize_eq, h₃.sizeOf_writeAt _ (by omega) (by omega) (by omega),
      ← hh₃, ChunkHeap.setPrevSize_eq, h₂.sizeOf_writeAt _ (by omega) (by omega) (by omega),
      ← hh₂, ChunkHeap.setSizeOf_eq, h₁.sizeOf_writeAt _ (by omega) (by omega) (by omega),
      ← hh₁, ChunkHeap.sizeOf_setSizeOf_self]

/-- A chunk that is not in use is split: its front part has the size of the request, and the
    rest is put on the list of the tier that its address gives. -/
theorem Inv.split {c size : BitVec 32} (hn : 0 < n ∧ n + 4 < 32)
    (hsize : size.toNat + 8 < 2 ^ (n + 4)) (hc : ¬ Owned s lists c)
    (hext : e c.toNat = some (s.heap.room c).toNat) (hmax : (s.heap.room c).toNat < 2 ^ (n + 4))
    (hsplits : s.heap.Splits c size) (hi : (tierIdx (c + size + chunkOverhead)).toNat < n)
    (hplace : place (tierIdx (c + size + chunkOverhead)).toNat
      ((s.heap.room c - size - chunkOverhead) &&& sizeMask).toNat) :
    ∃ heap e' lists', s.heap.splitChunk c size = .ok heap ∧
      Inv place base { s with heap } e' lists' ∧ ¬ Owned { s with heap } lists' c ∧
      LiveChunk heap e' c size := by
  have hpow : 2 ^ (n + 4) ≤ 2 ^ 31 := Nat.pow_le_pow_right (by decide) (by omega)
  have hM := room_of_splits hn hsize hsplits
  obtain ⟨h₄, hsplit, hi₄, hlimit, hsizeC, hsizeN⟩ := h.splitHeaders hc hext hM
  have hcb := h.bounds hext
  have hnew : (c + size + chunkOverhead).toNat = c.toNat + size.toNat + 8 := by
    simp only [chunkOverhead, BitVec.toNat_add, BitVec.toNat_ofNat]
    omega
  have hrest := rest_toNat (s.heap.room c) size (by omega)
  have hover : (size + chunkOverhead).toNat = size.toNat + 8 :=
    ChunkHeap.toNat_add_of_le (m := 8) (by omega) (by decide)
  have hroomN : h₄.room (c + size + chunkOverhead) =
      (s.heap.room c - size - chunkOverhead) &&& sizeMask := by
    rw [ChunkHeap.room, hsizeN, or_bitFree_and_sizeMask]
  have hroomN' := and_sizeMask_toNat (s.heap.room c - size - chunkOverhead)
  rw [← hroomN] at hplace hroomN'
  generalize c + size + chunkOverhead = newCh at *
  -- the two parts are the only ranges that change
  have hap := hi₄.apart.split hext (b := newCh.toNat) (k := size.toNat + 8)
    (l := (h₄.room newCh).toNat) (by omega) (by omega) (by omega)
  have hnone := h.apart.none_inside hext (b := newCh.toNat) (by omega) (by omega)
  have howned : ∀ d, Owned s lists d → d.toNat ≠ c.toNat ∧ d.toNat ≠ newCh.toNat := by
    intro d hd
    refine ⟨fun he => hc (BitVec.eq_of_toNat_eq he ▸ hd), fun he => ?_⟩
    obtain ⟨m, hm, -⟩ := h.owned hd
    rw [he, hnone] at hm
    cases hm
  have hi₅ := hi₄.extents hap fun d hd => by
    obtain ⟨h1, h2⟩ := howned d hd
    rw [Function.update_of_ne h2, Function.update_of_ne h1]
  have hcn : c.toNat ≠ newCh.toNat := by omega
  have hmin : 16 ≤ (h₄.room newCh).toNat := by omega
  have hmax' : (h₄.room newCh).toNat < 2 ^ (n + 4) := by omega
  obtain ⟨heap, hlink, hi₆, hkeep⟩ := hi₅.link hi (fun hd => (howned newCh hd).2 rfl)
    ⟨Function.update_self .., hmin, hmax', by rw [hsizeN]; exact or_bitFree_and_bitFree _,
      hplace⟩
  refine ⟨heap, _, _, hsplit.trans hlink, hi₆, ?_, ?_⟩
  · rintro (⟨j, hj⟩ | ⟨x, hx, he⟩)
    · by_cases hji : j = ⟨(tierIdx newCh).toNat, hi⟩
      · subst hji
        rw [Function.update_self] at hj
        rcases List.mem_cons.mp hj with rfl | hj
        · exact hcn rfl
        · exact hc (.inl ⟨_, hj⟩)
      · rw [Function.update_of_ne hji] at hj
        exact hc (.inl ⟨j, hj⟩)
    · exact hc (.inr ⟨x, hx, he⟩)
  · have hroomC : (heap.room c).toNat = (size.toNat + 8) / 2 * 2 := by
      rw [ChunkHeap.room_toNat, hkeep c (by omega), hsizeC, hover]
    refine ⟨⟨size.toNat + 8, ?_, Nat.le_refl _, by omega⟩, by omega⟩
    rw [Function.update_of_ne hcn, Function.update_self]

/-- A new chunk at the end of the region. -/
theorem Inv.fresh {chSize : BitVec 32} (h16 : 16 ≤ chSize.toNat)
    (hmax : chSize.toNat < 2 ^ (n + 4)) (hgrow : s.heap.limit.toNat + chSize.toNat < 2 ^ 32) :
    ∃ e', Inv place base
        { s with heap := (s.heap.extend chSize).setSizeOf (s.heap.limit - 4#32) chSize } e' lists ∧
      ¬ Owned s lists (s.heap.limit - 4#32) ∧
      ∀ size : BitVec 32, size.toNat + 8 ≤ chSize.toNat → LiveChunk
        ((s.heap.extend chSize).setSizeOf (s.heap.limit - 4#32) chSize) e'
        (s.heap.limit - 4#32) size := by
  have hlim := h.limit
  have hnew : (s.heap.limit - 4#32).toNat = s.heap.limit.toNat - 4 := by
    rw [BitVec.toNat_sub, BitVec.toNat_ofNat]
    omega
  have hlimit : (s.heap.limit + chSize).toNat = s.heap.limit.toNat + chSize.toNat := by
    rw [BitVec.toNat_add]
    omega
  have hend : (s.heap.limit + chSize).toNat - 4 = s.heap.limit.toNat - 4 + chSize.toNat := by omega
  have hap := h.apart.add (by omega) chSize.toNat
  rw [← hend, ← hnew] at hap
  -- no range starts at the end of the region
  have hnone : ∀ c, Owned s lists c → c.toNat ≠ (s.heap.limit - 4#32).toNat := by
    intro c hc he
    obtain ⟨m, hm, h8, -⟩ := h.owned hc
    have := h.bounds hm
    omega
  have hgrown : Inv place base { s with heap := s.heap.extend chSize }
      (Function.update e (s.heap.limit - 4#32).toNat (some chSize.toNat)) lists := by
    refine ⟨h.base_pos, ?_, hap, h.chain, h.nodup, h.one, fun i c hc => ?_, fun x hx => ?_,
      h.live_nodup, h.live_free⟩
    · simp only [ChunkHeap.extend, hlimit]
      omega
    · have hf := h.free i c hc
      refine ⟨?_, hf.min, hf.max, hf.bit, hf.place⟩
      rw [Function.update_of_ne (hnone c (.inl ⟨i, hc⟩))]
      exact hf.extent
    · have hl := h.live x hx
      refine ⟨?_, hl.max⟩
      rw [Function.update_of_ne (hnone _ (.inr ⟨x, hx, rfl⟩))]
      exact hl.extent
  have hfree : ¬ Owned s lists (s.heap.limit - 4#32) := fun hc => hnone _ hc rfl
  have h4 : (s.heap.limit - 4#32 + 4#32).toNat = (s.heap.limit - 4#32).toNat + 4 :=
    ChunkHeap.toNat_add_of_le (m := 4) (by omega) (by decide)
  refine ⟨Function.update e (s.heap.limit - 4#32).toNat (some chSize.toNat), ?_, hfree,
    fun size hsize => ?_⟩
  · exact hgrown.writeAt (Function.update_self ..) hfree (a := s.heap.limit - 4#32 + 4#32) chSize
      (by omega) (by omega)
  · have hroom : (((s.heap.extend chSize).setSizeOf (s.heap.limit - 4#32) chSize).room
        (s.heap.limit - 4#32)).toNat = chSize.toNat / 2 * 2 := by
      rw [ChunkHeap.room_toNat, ChunkHeap.sizeOf_setSizeOf_self]
    exact ⟨⟨_, Function.update_self .., hsize, by omega⟩, by omega⟩

/-- A request either gets a chunk or fails to extend the region. -/
theorem Inv.allocate {size : BitVec 32} (account : BitVec 32)
    {grow : ChunkHeap n → BitVec 32 → Except Fault (ChunkHeap n)} (hn : 0 < n ∧ n + 4 < 32)
    (hsize : size.toNat + 8 < 2 ^ (n + 4)) (hsplits : SplitsWell place s.heap size)
    (hgrow : ∀ prev heap, s.heap.fittingChunk size = .ok (prev, 0#32) →
      grow s.heap (ChunkHeap.chunkSize size) = .ok heap →
      heap = s.heap.extend (ChunkHeap.chunkSize size) ∧
        s.heap.limit.toNat + (ChunkHeap.chunkSize size).toNat < 2 ^ 32) :
    (∃ ptr heap, s.heap.allocate grow account size = .ok (ptr, heap) ∧
      ∃ e' lists', Inv place base ⟨heap, (ptr, size) :: s.live⟩ e' lists') ∨
    ∃ f, grow s.heap (ChunkHeap.chunkSize size) = .error f ∧
      s.heap.allocate grow account size = .error f := by
  obtain ⟨h16, hlt, hch⟩ := chunkSize_bounds hn hsize
  obtain ⟨hi, prev, ch, hfit, hfound⟩ := h.fittingChunk hn hsize
  by_cases hch0 : ch = 0#32
  · subst hch0
    simp only [ChunkHeap.allocate, hfit, bind, Except.bind, ne_eq, not_true_eq_false, if_false]
    cases hg : grow s.heap (ChunkHeap.chunkSize size) with
    | error f => exact .inr ⟨f, rfl, rfl⟩
    | ok heap =>
        obtain ⟨rfl, hwrap⟩ := hgrow prev heap hfit hg
        obtain ⟨e', hinv, hfree, hlive⟩ := h.fresh h16 hlt hwrap
        refine .inl ⟨_, _, rfl, e', lists, ?_⟩
        exact (hinv.adopt hfree (hlive size hch)).frame rfl rfl (fun _ _ => rfl) fun _ _ _ => rfl
  · refine .inl ?_
    obtain ⟨xs, ys, hlist, hroom, hprev⟩ := hfound.resolve_left hch0
    obtain ⟨heap₁, hunlink, -, hsame, hinv₁, hfree₁⟩ := h.unlink hi hlist hprev
    have hf := h.free ⟨_, hi⟩ ch (by simp [hlist])
    have hroom₁ : heap₁.room ch = s.heap.room ch := by rw [ChunkHeap.room, hsame, ChunkHeap.room]
    rw [BitVec.le_def] at hroom
    simp only [ChunkHeap.allocate, hfit, hunlink, bind, Except.bind, ne_eq, hch0,
      not_false_eq_true, if_true]
    by_cases hsp : heap₁.Splits ch size
    · have hsp₀ : s.heap.Splits ch size := by
        rw [ChunkHeap.Splits, ← hroom₁]
        exact hsp
      obtain ⟨hidx, hplace⟩ := hsplits (prev, ch) (by rw [hfit]; rfl) hch0 hsp₀
      rw [← hroom₁] at hplace
      obtain ⟨heap₂, e', lists', hsplit, hinv₂, hfree₂, hlive⟩ := hinv₁.split hn hsize hfree₁
        (hroom₁ ▸ hf.extent) (hroom₁ ▸ hf.max) hsp hidx hplace
      refine ⟨ch + chunkOverhead, heap₂, ?_, e', lists', hinv₂.adopt hfree₂ hlive⟩
      simp only [hsp, if_true, hsplit]
    · refine ⟨ch + chunkOverhead, heap₁, ?_, e, _, hinv₁.adopt hfree₁ ⟨⟨_, hf.extent, ?_, ?_⟩, ?_⟩⟩
      · simp only [hsp, if_false]
      · omega
      · simp only [hroom₁]
        exact Nat.le_refl _
      · simp only [hroom₁]
        exact hf.max

/-! ## Freeing -/

/-- A pointer is given back, and its chunk is not in use any more. -/
theorem Inv.drop {ptr size : BitVec 32} (hlive : (ptr, size) ∈ s.live) :
    Inv place base { s with live := s.live.filter (·.1 ≠ ptr) } e lists ∧
      ¬ Owned { s with live := s.live.filter (·.1 ≠ ptr) } lists (ptr - chunkOverhead) := by
  have hsub : (s.live.filter (·.1 ≠ ptr)).Sublist s.live := List.filter_sublist
  refine ⟨⟨h.base_pos, h.limit, h.apart, h.chain, h.nodup, h.one, h.free,
    fun x hx => h.live x (hsub.subset hx), h.live_nodup.sublist (hsub.map _),
    fun x hx => h.live_free x (hsub.subset hx)⟩, ?_⟩
  rintro (⟨i, hi⟩ | ⟨x, hx, he⟩)
  · exact h.live_free _ hlive i hi
  · have hne := (List.mem_filter.mp hx).2
    simp only [ne_eq, decide_not, Bool.not_eq_true', decide_eq_false_iff_not] at hne
    refine hne ?_
    have := congrArg (· + chunkOverhead) he
    simpa only [BitVec.sub_add_cancel] using this

/-- `free` without a merge. -/
theorem Inv.release {ptr size : BitVec 32} (hlive : (ptr, size) ∈ s.live)
    (hprev : s.heap.prevSize (ptr - chunkOverhead) &&& bitFree = 0#32)
    (hmin : 16 ≤ (s.heap.room (ptr - chunkOverhead)).toNat)
    (hplace : ∀ x : BitVec 32, 16 ≤ x.toNat → place (tierIdx x).toNat x.toNat) :
    ∃ heap, s.heap.release ptr = .ok heap ∧ ∃ e' lists',
      Inv place base ⟨heap, s.live.filter (·.1 ≠ ptr)⟩ e' lists' := by
  obtain ⟨hdrop, hfree⟩ := h.drop hlive
  obtain ⟨⟨m, hm, hsize, hroom⟩, hmax⟩ := h.live _ hlive
  have hcb := h.bounds hm
  generalize hch : ptr - chunkOverhead = c at *
  have hc4 : (c + 4#32).toNat = c.toNat + 4 :=
    ChunkHeap.toNat_add_of_le (m := 4) (by omega) (by decide)
  generalize hh₁ : s.heap.setSizeOf c (s.heap.sizeOf c ||| bitFree) = h₁
  have hi₁ : Inv place base ⟨h₁, s.live.filter (·.1 ≠ ptr)⟩ e lists := by
    rw [← hh₁, ChunkHeap.setSizeOf_eq]
    exact hdrop.writeAt hm hfree _ (by omega) (by omega)
  have hsz : h₁.sizeOf c = s.heap.sizeOf c ||| bitFree := by
    rw [← hh₁, ChunkHeap.sizeOf_setSizeOf_self]
  have hroom₁ : h₁.room c = s.heap.room c := by
    rw [ChunkHeap.room, hsz, or_bitFree_and_sizeMask, ChunkHeap.room]
  -- the chunk keeps what its field `size` covers
  have hap := hi₁.apart.shrink hm (k := (h₁.room c).toNat) (by rw [hroom₁]; exact hroom)
  have hi₂ := hi₁.extents hap fun d hd => by
    rw [Function.update_of_ne]
    exact fun he => hfree (BitVec.eq_of_toNat_eq he ▸ hd)
  have hidx : (tierIdx (h₁.room c)).toNat < n := tierIdx_lt (hroom₁ ▸ hmin) (hroom₁ ▸ hmax)
  obtain ⟨heap, hlink, hi₃, -⟩ := hi₂.link hidx hfree ⟨Function.update_self .., hroom₁ ▸ hmin,
    hroom₁ ▸ hmax, by rw [hsz]; exact or_bitFree_and_bitFree _, hplace _ (hroom₁ ▸ hmin)⟩
  refine ⟨{ heap with free := heap.free + heap.room c }, ?_, _, _,
    hi₃.frame rfl rfl (fun _ _ => rfl) fun _ _ _ => rfl⟩
  simp only [ChunkHeap.release, ChunkHeap.mergeChunk, hch, hprev, ne_eq, not_true_eq_false,
    if_false, hh₁, hlink, bind, Except.bind]

/-! ## Using the memory -/

/-- What is handed out lies behind the header of its chunk. -/
theorem Inv.range {x : BitVec 32 × BitVec 32} (hx : x ∈ s.live) :
    ∃ m, e (x.1 - chunkOverhead).toNat = some m ∧ x.2.toNat + 8 ≤ m ∧
      x.1.toNat = (x.1 - chunkOverhead).toNat + 8 := by
  obtain ⟨⟨m, hm, hsize, -⟩, -⟩ := h.live x hx
  have hb := h.bounds hm
  refine ⟨m, hm, hsize, ?_⟩
  have hback : x.1 - chunkOverhead + chunkOverhead = x.1 := BitVec.sub_add_cancel ..
  have hsum : (x.1 - chunkOverhead + chunkOverhead).toNat = (x.1 - chunkOverhead).toNat + 8 :=
    ChunkHeap.toNat_add_of_le (m := 8) (by omega) (by decide)
  rwa [hback] at hsum

/-- A program writes to memory that it was given. -/
theorem Inv.write {ptr size a : BitVec 32} (hlive : (ptr, size) ∈ s.live)
    (hlo : ptr.toNat ≤ a.toNat) (hhi : a.toNat < ptr.toNat + size.toNat) (b : BitVec 8) :
    Inv place base { s with heap.mem := Function.update s.heap.mem a b } e lists := by
  obtain ⟨m, hm, hsize, hptr⟩ := h.range hlive
  simp only at hm hsize hptr
  have hcb := h.bounds hm
  generalize hch : ptr - chunkOverhead = c at *
  refine h.frame rfl rfl (fun d hd => ?_) (fun i d hd => ?_)
  · obtain ⟨k, hk, h8, -⟩ := h.owned hd
    have hdb := h.bounds hk
    have h4 : (d + 4#32).toNat = d.toNat + 4 :=
      ChunkHeap.toNat_add_of_le (m := 4) (by omega) (by decide)
    refine readWord_update_of_apart _ b ?_ (by omega)
    by_cases hdc : d = c
    · subst hdc
      omega
    · have := h.apart.apart d.toNat c.toNat k m (fun he => hdc (BitVec.eq_of_toNat_eq he)) hk hm
      omega
  · obtain ⟨k, hk, -, h16⟩ := h.owned (.inl ⟨i, hd⟩)
    have := h16 ⟨i, hd⟩
    have hdb := h.bounds hk
    have h8 : (d + 8#32).toNat = d.toNat + 8 :=
      ChunkHeap.toNat_add_of_le (m := 8) (by omega) (by decide)
    have hdc : d.toNat ≠ c.toNat := by
      intro he
      obtain rfl := BitVec.eq_of_toNat_eq he
      exact h.live_free _ hlive i (hch ▸ hd)
    have := h.apart.apart d.toNat c.toNat k m hdc hk hm
    exact readWord_update_of_apart _ b (by omega) (by omega)

end Inv

/-- The empty heap. -/
theorem inv_empty (place : Nat → Nat → Prop) (mem : ByteMem) {base : BitVec 32}
    (hbase : 0 < base.toNat) (hlimit : base.toNat + 4 < 2 ^ 32) :
    Inv place base.toNat ⟨(ChunkHeap.empty mem base : ChunkHeap n), []⟩ (fun _ => none)
      (fun _ => []) := by
  refine ⟨hbase, ?_, Extents.apart_empty _ _, fun i => rfl, fun i => List.nodup_nil,
    fun i j c hc => (by cases hc), fun i c hc => (by cases hc), fun x hx => (by cases hx),
    List.nodup_nil, fun x hx => (by cases hx)⟩
  have : (base + 4#32).toNat = base.toNat + 4 :=
    ChunkHeap.toNat_add_of_le (m := 4) hlimit (by decide)
  exact Nat.le_of_eq this.symm

end HeapState

end Muse.Memory
