import Muse.Memory.Proofs.ChunkHeap
import Muse.Paging.Proofs.Carve

/-!
# Inserting a scroll

The loop of `insert_scroll` leaves the pieces of the scrolls of the list. There are three ways
through the list: one scroll is the range and is taken off, one scroll contains it and is split,
or every scroll is cut in place. With `carved_iff`, the list that it returns is right exactly when
every old scroll is harmless.
-/

namespace Muse.Paging

open Muse.Library

/-! ## The loop -/

namespace ScrollMem

variable (m : ScrollMem) (p q : BitVec 32) (x : ScrollNode)

@[simp] theorem set_node_self : (m.set p x).node p = x := Function.update_self ..

theorem set_node_of_ne {p q : BitVec 32} (h : q ≠ p) : (m.set p x).node q = m.node q :=
  Function.update_of_ne h ..

theorem set_self : m.set p (m.node p) = m := by
  rw [set, Function.update_eq_self]

theorem set_set (y : ScrollNode) : (m.set p x).set p y = m.set p y := by
  rw [set, set, Function.update_idem, set]

theorem set_next : (m.set p x).next = Function.update m.next p x.next :=
  Function.comp_update ScrollNode.next m.node p x

theorem set_scroll : (m.set p x).scroll = Function.update m.scroll p x.toScroll :=
  Function.comp_update ScrollNode.toScroll m.node p x

theorem setNext_next (y : BitVec 32) : (m.setNext p y).next = Function.update m.next p y :=
  m.set_next p _

theorem setNext_scroll (y : BitVec 32) : (m.setNext p y).scroll = m.scroll := by
  rw [setNext, set_scroll]
  exact Function.update_eq_self p m.scroll

theorem kfree_next (y : BitVec 32) : (m.kfree y p).next = m.next := by
  rw [kfree, set_next]
  exact Function.update_eq_self p m.next

theorem kfree_scroll {p q : BitVec 32} (y : BitVec 32) (h : q ≠ p) :
    (m.kfree y p).scroll q = m.scroll q := by
  rw [kfree, set_scroll, Function.update_of_ne h]

end ScrollMem

section Loop

variable {link start stop : BitVec 32}

/-- The two cuts in place leave what `Scroll.cut` says, and the link. -/
theorem cutScroll_eq (m : ScrollMem) (p : BitVec 32) :
    cutScroll m p start stop (m.node p).vaddr ((m.node p).vaddr + (m.node p).size) =
      m.set p ⟨(m.scroll p).cut start stop, m.next p⟩ := by
  unfold cutScroll Scroll.cut ScrollMem.scroll ScrollMem.next
  dsimp only
  by_cases hfront : (m.node p).vaddr < start ∧ start < (m.node p).vaddr + (m.node p).size
  · by_cases hback : (m.node p).vaddr < stop ∧ stop < (m.node p).vaddr + (m.node p).size
    · rw [if_pos hfront, if_pos hfront, if_pos hback, if_pos hback, ScrollMem.set_node_self,
        ScrollMem.set_set]
    · rw [if_pos hfront, if_pos hfront, if_neg hback, if_neg hback]
  · by_cases hback : (m.node p).vaddr < stop ∧ stop < (m.node p).vaddr + (m.node p).size
    · rw [if_neg hfront, if_neg hfront, if_pos hback, if_pos hback]
    · rw [if_neg hfront, if_neg hfront, if_neg hback, if_neg hback]
      exact (ScrollMem.set_self ..).symm

/-- The scroll at `p` is neither the range nor contains it. -/
def Passed (start stop : BitVec 32) (c : Scroll) : Prop :=
  ¬ c.Same start stop ∧ ¬ c.Within start stop

/-- The scroll is passed and stays as it is. -/
def Untouched (start stop : BitVec 32) (c : Scroll) : Prop :=
  Passed start stop c ∧ c.cut start stop = c

/-- A round over a scroll that stays one scroll. -/
theorem insertScrollLoop_pass {m : ScrollMem} {first prev p : BitVec 32} (hp : p ≠ 0#32)
    (hpass : Passed start stop (m.scroll p)) (fuel : Nat) :
    insertScrollLoop link start stop (fuel + 1) m first prev p =
      insertScrollLoop link start stop fuel (m.set p ⟨(m.scroll p).cut start stop, m.next p⟩) first
        p (m.next p) := by
  have hsame : ¬ (start = (m.node p).vaddr ∧ stop = (m.node p).vaddr + (m.node p).size) := hpass.1
  have hwithin : ¬ ((m.node p).vaddr < start ∧ stop < (m.node p).vaddr + (m.node p).size) :=
    hpass.2
  rw [insertScrollLoop, if_neg hp]
  dsimp only
  rw [if_neg hsame, if_neg hwithin, cutScroll_eq]
  simp [ScrollMem.next]

/-- The memory after the scroll at `p` behind `prev` is taken off the list. -/
def ScrollMem.unlink (m : ScrollMem) (link prev p : BitVec 32) : ScrollMem :=
  if prev ≠ 0#32 then (m.setNext prev (m.next p)).kfree link p else m.kfree link p

theorem ScrollMem.unlink_next (m : ScrollMem) {link prev p : BitVec 32} (h : prev ≠ 0#32) :
    (m.unlink link prev p).next = Function.update m.next prev (m.next p) := by
  rw [unlink, if_pos h, kfree_next, setNext_next]

theorem ScrollMem.unlink_next_first (m : ScrollMem) {link p : BitVec 32} :
    (m.unlink link 0#32 p).next = m.next := by
  rw [unlink, if_neg (not_not_intro rfl), kfree_next]

theorem ScrollMem.unlink_scroll (m : ScrollMem) {link prev p q : BitVec 32} (h : q ≠ p) :
    (m.unlink link prev p).scroll q = m.scroll q := by
  unfold unlink
  split
  · rw [kfree_scroll _ _ h, setNext_scroll]
  · rw [kfree_scroll _ _ h]

/-- A round over a scroll that is the range. -/
theorem insertScrollLoop_same {m : ScrollMem} {first prev p : BitVec 32} (hp : p ≠ 0#32)
    (hprev : prev ≠ p) (hsame : (m.scroll p).Same start stop) (fuel : Nat) :
    insertScrollLoop link start stop (fuel + 1) m first prev p =
      insertScrollLoop link start stop fuel (m.unlink link prev p)
        (if prev ≠ 0#32 then first else m.next first) p (m.next p) := by
  have hsame' : start = (m.node p).vaddr ∧ stop = (m.node p).vaddr + (m.node p).size := hsame
  have hcut : ∀ m' : ScrollMem, cutScroll m' p start stop start stop = m' := fun m' => by
    simp [cutScroll, BitVec.lt_irrefl]
  rw [insertScrollLoop, if_neg hp]
  dsimp only
  rw [if_pos hsame', ← hsame'.2, ← hsame'.1, ScrollMem.unlink]
  by_cases hne : prev ≠ 0#32
  · have hnext : ((m.setNext prev (m.next p)).kfree link p).next p = m.next p := by
      rw [ScrollMem.kfree_next, ScrollMem.setNext_next, Function.update_of_ne hprev.symm]
    rw [if_pos hne, if_pos hne, if_pos hne, hcut, hnext]
  · rw [if_neg hne, if_neg hne, if_neg hne, hcut, ScrollMem.kfree_next]

/-- A round over a scroll that contains the range: it is visited again after the split. -/
theorem insertScrollLoop_within {m : ScrollMem} {first prev p q : BitVec 32}
    {qs : List (BitVec 32)} (hp : p ≠ 0#32) (hsame : ¬ (m.scroll p).Same start stop)
    (hwithin : (m.scroll p).Within start stop) (hfresh : m.fresh = q :: qs) (fuel : Nat) :
    insertScrollLoop link start stop (fuel + 1) m first prev p =
      insertScrollLoop link start stop fuel
        (splitScroll { m with fresh := qs } first p q start stop) first prev p := by
  have hsame' : ¬ (start = (m.node p).vaddr ∧ stop = (m.node p).vaddr + (m.node p).size) := hsame
  have hwithin' : (m.node p).vaddr < start ∧ stop < (m.node p).vaddr + (m.node p).size := hwithin
  have hkmalloc : m.kmalloc = some (q, { m with fresh := qs }) := by
    rw [ScrollMem.kmalloc, hfresh]
  rw [insertScrollLoop, if_neg hp]
  dsimp only
  rw [if_neg hsame', if_pos hwithin', hkmalloc]

/-- The new scroll is linked behind the first one. -/
theorem splitScroll_next {m : ScrollMem} {first p q : BitVec 32} :
    (splitScroll m first p q start stop).next =
      Function.update (Function.update m.next q (m.next first)) first q := by
  unfold splitScroll
  dsimp only
  rw [ScrollMem.set_next]
  refine (Function.update_eq_self p _).trans ?_
  rw [ScrollMem.setNext_next, ScrollMem.set_next]
  rfl

/-- A split leaves the front in place, and the back is the new scroll. -/
theorem splitScroll_scroll {m : ScrollMem} {first p q : BitVec 32} (hpq : p ≠ q) :
    (splitScroll m first p q start stop).scroll =
      Function.update (Function.update m.scroll q ((m.scroll p).back stop (m.node q).page)) p
        { m.scroll p with size := start - (m.scroll p).vaddr } := by
  unfold splitScroll
  dsimp only
  generalize hm' : (m.set q _).setNext first q = m'
  have hscroll : m'.scroll =
      Function.update m.scroll q ((m.scroll p).back stop (m.node q).page) := by
    rw [← hm', ScrollMem.setNext_scroll, ScrollMem.set_scroll]
    rfl
  have hp : (m'.node p).toScroll = m.scroll p := by
    change m'.scroll p = _
    rw [hscroll, Function.update_of_ne hpq]
  rw [ScrollMem.set_scroll, hscroll, hp]
  rfl

/-- The rounds over a part of the list with scrolls that the range does not touch. -/
theorem insertScrollLoop_skip {m : ScrollMem} {first : BitVec 32} (fuel : Nat) :
    ∀ {xs : List (BitVec 32)} {prev p q : BitVec 32}, Segment m.next p xs q →
      (∀ c ∈ xs, c ≠ 0#32 ∧ Untouched start stop (m.scroll c)) →
      insertScrollLoop link start stop (xs.length + fuel) m first prev p =
        insertScrollLoop link start stop fuel m first (xs.getLastD prev) q
  | [], prev, p, q, hseg, _ => by
      obtain rfl : p = q := hseg
      rw [List.length_nil, Nat.zero_add, List.getLastD_nil]
  | c :: xs, prev, p, q, hseg, hall => by
      obtain ⟨rfl, hseg⟩ := hseg
      obtain ⟨hp, hpass, hcut⟩ := hall p List.mem_cons_self
      have hnode : (⟨m.scroll p, m.next p⟩ : ScrollNode) = m.node p := rfl
      rw [List.length_cons, Nat.add_right_comm, insertScrollLoop_pass hp hpass, hcut, hnode,
        ScrollMem.set_self, insertScrollLoop_skip fuel hseg
          fun c hc => hall c (List.mem_cons_of_mem _ hc), List.getLastD_cons]

/-- The loop ends when it has passed every scroll. -/
theorem insertScrollLoop_done (link start stop : BitVec 32) (n : Nat)
    (hn : n < 2 ^ 32 + 2 ^ 32) (m : ScrollMem) (first prev : BitVec 32) :
    ∃ fuel, 2 ^ 33 = n + fuel ∧
      insertScrollLoop link start stop fuel m first prev 0#32 = some (first, m) := by
  refine ⟨2 ^ 33 - 1 - n + 1, by omega, ?_⟩
  rw [insertScrollLoop, if_pos rfl]

/-- The memory after the rounds over scrolls that stay one scroll each. -/
def ScrollMem.cutAll (m : ScrollMem) (start stop : BitVec 32) (xs : List (BitVec 32)) : ScrollMem :=
  { m with node := fun c =>
      if c ∈ xs then ⟨(m.scroll c).cut start stop, m.next c⟩ else m.node c }

theorem ScrollMem.cutAll_next (m : ScrollMem) (xs : List (BitVec 32)) :
    (m.cutAll start stop xs).next = m.next := by
  funext c
  simp only [next, cutAll]
  split <;> rfl

theorem ScrollMem.cutAll_scroll (m : ScrollMem) {xs : List (BitVec 32)} {c : BitVec 32}
    (hc : c ∈ xs) : (m.cutAll start stop xs).scroll c = (m.scroll c).cut start stop := by
  simp only [scroll, cutAll, if_pos hc]

theorem ScrollMem.cutAll_node (m : ScrollMem) {xs : List (BitVec 32)} {c : BitVec 32}
    (hc : c ∉ xs) : (m.cutAll start stop xs).node c = m.node c := by
  simp only [cutAll, if_neg hc]

/-- The rounds over scrolls that stay one scroll each. -/
theorem insertScrollLoop_cut {first : BitVec 32} (fuel : Nat) :
    ∀ {xs : List (BitVec 32)} {m : ScrollMem} {prev p q : BitVec 32}, Segment m.next p xs q →
      xs.Nodup → (∀ c ∈ xs, c ≠ 0#32 ∧ Passed start stop (m.scroll c)) →
      insertScrollLoop link start stop (xs.length + fuel) m first prev p =
        insertScrollLoop link start stop fuel (m.cutAll start stop xs) first (xs.getLastD prev) q
  | [], m, prev, p, q, hseg, _, _ => by
      obtain rfl : p = q := hseg
      have hnone : m.cutAll start stop [] = m := by simp [ScrollMem.cutAll]
      rw [List.length_nil, Nat.zero_add, List.getLastD_nil, hnone]
  | c :: xs, m, prev, p, q, hseg, hnd, hall => by
      obtain ⟨rfl, hseg⟩ := hseg
      obtain ⟨hpx, hnd⟩ := List.nodup_cons.mp hnd
      obtain ⟨hp, hpass⟩ := hall p List.mem_cons_self
      obtain ⟨m₁, hm₁⟩ : ∃ m₁, m₁ = m.set p ⟨(m.scroll p).cut start stop, m.next p⟩ := ⟨_, rfl⟩
      have hsame : ∀ c, c ≠ p → m₁.node c = m.node c := fun c hc => by
        rw [hm₁, ScrollMem.set_node_of_ne m _ hc]
      have hnode : m₁.node p = ⟨(m.scroll p).cut start stop, m.next p⟩ := by
        rw [hm₁, ScrollMem.set_node_self]
      have hxs : ∀ c ∈ xs, c ≠ p := by
        rintro c hc rfl
        exact hpx hc
      have hseg₁ : Segment m₁.next (m.next p) xs q :=
        hseg.congr fun c hc => by rw [ScrollMem.next, hsame c (hxs c hc), ScrollMem.next]
      have hall₁ : ∀ c ∈ xs, c ≠ 0#32 ∧ Passed start stop (m₁.scroll c) := by
        intro c hc
        rw [ScrollMem.scroll, hsame c (hxs c hc)]
        exact hall c (List.mem_cons_of_mem _ hc)
      have hcut : m₁.cutAll start stop xs = m.cutAll start stop (p :: xs) := by
        have hfresh : m₁.fresh = m.fresh := by
          rw [hm₁]
          rfl
        simp only [ScrollMem.cutAll, hfresh, ScrollMem.mk.injEq, and_true]
        funext c
        by_cases hcp : c = p
        · subst hcp
          rw [if_neg hpx, if_pos List.mem_cons_self, hnode]
        · simp only [List.mem_cons, hcp, false_or, ScrollMem.scroll, ScrollMem.next, hsame c hcp]
      rw [List.length_cons, Nat.add_right_comm, insertScrollLoop_pass hp hpass, ← hm₁,
        insertScrollLoop_cut fuel hseg₁ hnd hall₁, hcut, List.getLastD_cons]

end Loop

/-! ## The three ways through the list -/

/-- The list from `first` with the scrolls of `l`, and a scroll `scr` that is not on it. -/
structure Listed (m : ScrollMem) (scr first : BitVec 32) (l : List (BitVec 32)) : Prop where
  chain : Chain m.next 0#32 first l
  proper : ∀ c ∈ l, (m.scroll c).Proper
  apart : (l.map m.scroll).Pairwise Scroll.Apart
  scr_ne : scr ≠ 0#32
  scr_out : scr ∉ l
  scr_proper : (m.scroll scr).Proper
  fresh : ∃ q qs, m.fresh = q :: qs ∧ q ≠ 0#32 ∧ q ∉ l ∧ q ≠ scr

namespace Scroll

variable {scr c : Scroll} {page : BitVec 32}

/-- A scroll that the range does not meet stays as it is. -/
theorem untouched (hs : scr.Proper) (hc : c.Proper) (h : c.Apart scr) :
    Untouched scr.vaddr (scr.vaddr + scr.size) c := by
  have hout : c.vaddr.toNat + c.size.toNat ≤ scr.vaddr.toNat ∨
      scr.vaddr.toNat + scr.size.toNat ≤ c.vaddr.toNat := by
    have hcs := h c.vaddr
    have hsc := h scr.vaddr
    have := hs.1
    have := hc.1
    simp only [Covers] at hcs hsc
    omega
  have hsame : ¬ c.Same scr.vaddr (scr.vaddr + scr.size) := by
    rw [same_iff hs hc]
    have := hc.1
    omega
  have hw : ¬ c.Within scr.vaddr (scr.vaddr + scr.size) := by
    rw [within_iff hs hc]
    have := hs.1
    omega
  have hcut : c.cut scr.vaddr (scr.vaddr + scr.size) = c := by
    have := hs.1
    have := hc.1
    rcases cut_cases hs hc hw with ⟨h₁, h₂, -⟩ | ⟨h₁, h₂, h₃, -⟩ | ⟨-, -, he⟩
    · omega
    · omega
    · exact he
  exact ⟨⟨hsame, hw⟩, hcut⟩

theorem carve_of_untouched {start stop : BitVec 32} (h : Untouched start stop c) :
    c.carve start stop page = [c] := by
  rw [carve, if_neg h.1.1, if_neg h.1.2, h.2]

end Scroll

/-- What is known at the end of the loop: the list, as the pieces of the old scrolls. -/
def Looped (link : BitVec 32) (m : ScrollMem) (scr first : BitVec 32) (l : List (BitVec 32)) :
    Prop :=
  ∃ first' m₁ l' page, insertScrollLoop link (m.scroll scr).vaddr
      ((m.scroll scr).vaddr + (m.scroll scr).size) (2 ^ 33) m first 0#32 first =
        some (first', m₁) ∧
    Chain m₁.next 0#32 first' l' ∧ scr ∉ l' ∧ m₁.scroll scr = m.scroll scr ∧
    (l'.map m₁.scroll).Perm ((l.map m.scroll).flatMap fun c => c.carve (m.scroll scr).vaddr
      ((m.scroll scr).vaddr + (m.scroll scr).size) page)

namespace Listed

variable {link : BitVec 32} {m : ScrollMem} {scr first : BitVec 32} {l : List (BitVec 32)}
  (h : Listed m scr first l)

include h

theorem ne_zero {c : BitVec 32} (hc : c ∈ l) : c ≠ 0#32 := h.chain.ne_null c hc

theorem pairwise : l.Pairwise fun c d => (m.scroll c).Apart (m.scroll d) :=
  List.pairwise_map.mp h.apart

theorem nodup : l.Nodup := by
  refine h.pairwise.imp_of_mem ?_
  rintro c d hc - hcd rfl
  exact hcd _ ⟨(h.proper c hc).covers_start, (h.proper c hc).covers_start⟩

theorem length_lt : l.length < 2 ^ 32 :=
  Memory.length_lt_of_nodup h.nodup fun hm => h.ne_zero hm rfl

/-- No scroll is the range or contains it. -/
theorem looped_cut (hpass : ∀ c ∈ l, Passed (m.scroll scr).vaddr
    ((m.scroll scr).vaddr + (m.scroll scr).size) (m.scroll c)) : Looped link m scr first l := by
  obtain ⟨start, hstart⟩ : ∃ x, x = (m.scroll scr).vaddr := ⟨_, rfl⟩
  obtain ⟨stop, hstop⟩ : ∃ x, x = (m.scroll scr).vaddr + (m.scroll scr).size := ⟨_, rfl⟩
  rw [Looped, ← hstop, ← hstart]
  rw [← hstop, ← hstart] at hpass
  obtain ⟨fuel, hfuel, hdone⟩ := insertScrollLoop_done link start stop l.length
    (by have := h.length_lt; omega) (m.cutAll start stop l) first (l.getLastD 0#32)
  refine ⟨first, m.cutAll start stop l, l, 0#32, ?_, ?_, h.scr_out, ?_, ?_⟩
  · rw [hfuel, insertScrollLoop_cut fuel h.chain.segment h.nodup
      fun c hc => ⟨h.ne_zero hc, hpass c hc⟩]
    exact hdone
  · rw [ScrollMem.cutAll_next]
    exact h.chain
  · rw [ScrollMem.scroll, ScrollMem.cutAll_node m h.scr_out, ScrollMem.scroll]
  · have hcarve : ∀ c ∈ l.map m.scroll, c.carve start stop 0#32 = [c.cut start stop] := by
      intro c hc
      obtain ⟨p, hp, rfl⟩ := List.mem_map.mp hc
      rw [Scroll.carve, if_neg (hpass p hp).1, if_neg (hpass p hp).2]
    have hmap : l.map (m.cutAll start stop l).scroll =
        (l.map m.scroll).map (Scroll.cut start stop) := by
      rw [List.map_map]
      exact List.map_congr_left fun c hc => m.cutAll_scroll hc
    rw [hmap, List.flatMap_congr hcarve, ← List.map_eq_flatMap]

/-- The scrolls that do not meet the new one stay as they are. -/
theorem untouched {c : BitVec 32} (hc : c ∈ l) (hcs : (m.scroll c).Apart (m.scroll scr)) :
    c ≠ 0#32 ∧ Untouched (m.scroll scr).vaddr ((m.scroll scr).vaddr + (m.scroll scr).size)
      (m.scroll c) :=
  ⟨h.ne_zero hc, Scroll.untouched h.scr_proper (h.proper c hc) hcs⟩

/-- The other scrolls do not meet a scroll that covers the new one. -/
theorem others {c : BitVec 32} (hc : c ∈ l)
    (hcov : ∀ v, (m.scroll scr).Covers v → (m.scroll c).Covers v) {d : BitVec 32} (hd : d ∈ l)
    (hdc : d ≠ c) : (m.scroll d).Apart (m.scroll scr) := by
  have hsymm : Std.Symm fun c d => (m.scroll c).Apart (m.scroll d) :=
    ⟨fun _ _ h v hv => h v ⟨hv.2, hv.1⟩⟩
  intro v hv
  exact h.pairwise.forall hd hc hdc v ⟨hv.1, hcov v hv.2⟩

/-- The list in front of a scroll and behind it. -/
theorem around {c : BitVec 32} (hc : c ∈ l) : ∃ xs ys, l = xs ++ c :: ys ∧
    (∀ d, d ∈ xs ∨ d ∈ ys → d ∈ l ∧ d ≠ c) ∧ Segment m.next first xs c ∧
    Chain m.next 0#32 (m.next c) ys := by
  obtain ⟨xs, ys, hl⟩ := List.append_of_mem hc
  obtain ⟨hcx, hcy⟩ : c ∉ xs ∧ c ∉ ys := by
    simpa using (List.nodup_cons.mp (List.nodup_middle.mp (hl ▸ h.nodup))).1
  have hchain : Chain m.next 0#32 first (xs ++ c :: ys) := hl ▸ h.chain
  obtain ⟨p, hseg, rfl, -, hys⟩ := hchain.split
  refine ⟨xs, ys, hl, ?_, hseg, hys⟩
  intro d hd
  rw [hl]
  rcases hd with hd | hd
  · exact ⟨List.mem_append_left _ hd, fun he => hcx (he ▸ hd)⟩
  · exact ⟨by simp [hd], fun he => hcy (he ▸ hd)⟩

omit h in
/-- Only the scroll `c` is carved. -/
theorem flatMap_carve {xs ys : List (BitVec 32)} {c page : BitVec 32} (hl : l = xs ++ c :: ys)
    (hothers : ∀ d, d ∈ xs ∨ d ∈ ys → d ≠ 0#32 ∧ Untouched (m.scroll scr).vaddr
      ((m.scroll scr).vaddr + (m.scroll scr).size) (m.scroll d)) :
    ((l.map m.scroll).flatMap fun c => c.carve (m.scroll scr).vaddr
      ((m.scroll scr).vaddr + (m.scroll scr).size) page) =
      xs.map m.scroll ++ ((m.scroll c).carve (m.scroll scr).vaddr
        ((m.scroll scr).vaddr + (m.scroll scr).size) page ++ ys.map m.scroll) := by
  have hcarve : ∀ zs : List (BitVec 32), (∀ d ∈ zs, d ∈ xs ∨ d ∈ ys) →
      ((zs.map m.scroll).flatMap fun c => c.carve (m.scroll scr).vaddr
        ((m.scroll scr).vaddr + (m.scroll scr).size) page) = zs.map m.scroll := by
    intro zs hzs
    rw [List.flatMap_map, List.map_eq_flatMap]
    exact List.flatMap_congr fun d hd => Scroll.carve_of_untouched (hothers d (hzs d hd)).2
  rw [hl, List.map_append, List.map_cons, List.flatMap_append, List.flatMap_cons,
    hcarve xs fun d => .inl, hcarve ys fun d => .inr]

/-- The list without the scroll at `c`. -/
theorem unlinked (link : BitVec 32) {xs ys : List (BitVec 32)} {c : BitVec 32}
    (hl : l = xs ++ c :: ys) :
    Segment (m.unlink link (xs.getLastD 0#32) c).next (m.next c) ys 0#32 ∧
      Chain (m.unlink link (xs.getLastD 0#32) c).next 0#32
        (if xs.getLastD 0#32 ≠ 0#32 then first else m.next first) (xs ++ ys) := by
  have hnd : (xs ++ c :: ys).Nodup := hl ▸ h.nodup
  have hchain : Chain m.next 0#32 first (xs ++ c :: ys) := hl ▸ h.chain
  rcases List.eq_nil_or_concat xs with rfl | ⟨xs, d, rfl⟩
  · -- the first scroll is taken off
    obtain ⟨rfl, -, hys⟩ := hchain
    rw [List.getLastD_nil, ScrollMem.unlink_next_first, if_neg (not_not_intro rfl)]
    exact ⟨hys.segment, hys⟩
  · have hd : d ≠ 0#32 := h.ne_zero (by rw [hl]; simp)
    rw [List.concat_eq_append] at hnd hchain ⊢
    rw [List.append_assoc, List.singleton_append] at hnd hchain ⊢
    rw [List.getLastD_concat, ScrollMem.unlink_next m hd, if_pos hd]
    have hdy : d ∉ ys := fun hm => by
      have := (List.nodup_append.mp hnd).2.1
      simp [hm] at this
    obtain ⟨q, -, -, -, -, -, hys⟩ := hchain.split
    exact ⟨(hys.update _ hdy).segment, hchain.unlink_update hnd⟩

/-- One scroll is the range. -/
theorem looped_same {c : BitVec 32} (hc : c ∈ l) (hsame : (m.scroll c).Same (m.scroll scr).vaddr
    ((m.scroll scr).vaddr + (m.scroll scr).size)) : Looped link m scr first l := by
  obtain ⟨haddr, hsize⟩ := (Scroll.same_iff h.scr_proper (h.proper c hc)).mp hsame
  have hcov : ∀ v, (m.scroll scr).Covers v → (m.scroll c).Covers v := fun v hv => by
    rw [Scroll.Covers, ← haddr, ← hsize]
    exact hv
  obtain ⟨xs, ys, hl, hmem, hseg, -⟩ := h.around hc
  have hothers := fun d hd =>
    h.untouched (hmem d hd).1 (h.others hc hcov (hmem d hd).1 (hmem d hd).2)
  have hprev : xs.getLastD 0#32 ≠ c := by
    rcases List.eq_nil_or_concat xs with rfl | ⟨xs, d, rfl⟩
    · exact (h.ne_zero hc).symm
    · rw [List.concat_eq_append, List.getLastD_concat]
      exact (hmem d (.inl (by simp))).2
  obtain ⟨hseg₁, hchain₁⟩ := h.unlinked link hl
  obtain ⟨m₁, hm₁⟩ : ∃ m₁, m₁ = m.unlink link (xs.getLastD 0#32) c := ⟨_, rfl⟩
  have hscroll : ∀ d, d ≠ c → m₁.scroll d = m.scroll d := fun d hd => by
    rw [hm₁, ScrollMem.unlink_scroll m hd]
  rw [← hm₁] at hseg₁ hchain₁
  obtain ⟨fuel, hfuel, hdone⟩ := insertScrollLoop_done link (m.scroll scr).vaddr
    ((m.scroll scr).vaddr + (m.scroll scr).size) l.length
    (by have := h.length_lt; omega) m₁ (if xs.getLastD 0#32 ≠ 0#32 then first else m.next first)
    (ys.getLastD c)
  have hrounds : l.length + fuel = xs.length + (ys.length + fuel + 1) := by
    rw [hl, List.length_append, List.length_cons]
    omega
  refine ⟨_, m₁, xs ++ ys, 0#32, ?_, hchain₁, ?_, ?_, ?_⟩
  · rw [hfuel, hrounds, insertScrollLoop_skip _ hseg fun d hd => hothers d (.inl hd),
      insertScrollLoop_same (h.ne_zero hc) hprev hsame, ← hm₁,
      insertScrollLoop_skip _ hseg₁ fun d hd => ?_]
    · exact hdone
    · rw [hscroll d (hmem d (.inr hd)).2]
      exact hothers d (.inr hd)
  · exact fun hs => h.scr_out (hmem scr (List.mem_append.mp hs)).1
  · exact hscroll scr fun he => h.scr_out (he ▸ hc)
  · have hcarve : (m.scroll c).carve (m.scroll scr).vaddr
        ((m.scroll scr).vaddr + (m.scroll scr).size) 0#32 = [] := if_pos hsame
    rw [flatMap_carve hl hothers, hcarve, List.nil_append, ← List.map_append]
    refine List.Perm.of_eq (List.map_congr_left fun d hd => hscroll d ?_)
    exact (hmem d (List.mem_append.mp hd)).2

/-- The list in the memory `m₁` after the scroll at `c` was split: its back stands behind the first
    scroll, at `q`. -/
structure Split (m : ScrollMem) (scr first : BitVec 32) (l : List (BitVec 32)) (c q : BitVec 32)
    (m₁ : ScrollMem) (l' : List (BitVec 32)) : Prop where
  chain : Chain m₁.next 0#32 first l'
  perm : l'.Perm (q :: l)
  kept : ∀ d, d ≠ c → d ≠ q → m₁.scroll d = m.scroll d
  front : m₁.scroll c = { m.scroll c with size := (m.scroll scr).vaddr - (m.scroll c).vaddr }
  back : m₁.scroll q =
    (m.scroll c).back ((m.scroll scr).vaddr + (m.scroll scr).size) (m.node q).page

theorem splitScroll_split {c q : BitVec 32} (hc : c ∈ l) (hq0 : q ≠ 0#32) (hql : q ∉ l)
    (qs : List (BitVec 32)) : ∃ l', Split m scr first l c q
      (splitScroll { m with fresh := qs } first c q (m.scroll scr).vaddr
        ((m.scroll scr).vaddr + (m.scroll scr).size)) l' := by
  have hcq : c ≠ q := fun he => hql (he ▸ hc)
  obtain ⟨tail, rfl⟩ : ∃ tail, l = first :: tail := by
    cases l with
    | nil => exact absurd hc List.not_mem_nil
    | cons d tail => exact ⟨tail, by rw [h.chain.1]⟩
  obtain ⟨-, hf0, ht⟩ := h.chain
  obtain ⟨hft, -⟩ := List.nodup_cons.mp h.nodup
  obtain ⟨hqf, hqt⟩ := List.ne_and_not_mem_of_not_mem_cons hql
  refine ⟨first :: q :: tail, ?_, List.Perm.swap .., ?_, ?_, ?_⟩
  · rw [splitScroll_next]
    refine (ht.cons_update hq0 hqt).cons_update hf0 ?_
    exact List.not_mem_cons_of_ne_of_not_mem hqf.symm hft
  · intro d hd hdq
    rw [splitScroll_scroll hcq, Function.update_of_ne hd, Function.update_of_ne hdq]
    rfl
  · rw [splitScroll_scroll hcq, Function.update_self]
    rfl
  · rw [splitScroll_scroll hcq, Function.update_of_ne hcq.symm, Function.update_self]
    rfl

/-- The range touches no scroll of the list after a split. -/
theorem Split.untouched {c q : BitVec 32} {m₁ : ScrollMem} {l' : List (BitVec 32)}
    (hsp : Split m scr first l c q m₁ l') (hc : c ∈ l) (hql : q ∉ l)
    (hwithin : (m.scroll c).Within (m.scroll scr).vaddr
      ((m.scroll scr).vaddr + (m.scroll scr).size)) : ∀ d ∈ l', d ≠ 0#32 ∧
        Untouched (m.scroll scr).vaddr ((m.scroll scr).vaddr + (m.scroll scr).size)
          (m₁.scroll d) := by
  have hs := h.scr_proper
  have hstop := hs.stop_toNat
  have hend := (h.proper c hc).2
  obtain ⟨hlo, hhi⟩ := (Scroll.within_iff hs (h.proper c hc)).mp hwithin
  have hcov : ∀ v, (m.scroll scr).Covers v → (m.scroll c).Covers v := fun v hv => by
    rw [Scroll.Covers] at hv ⊢
    omega
  have hfront : Untouched (m.scroll scr).vaddr ((m.scroll scr).vaddr + (m.scroll scr).size)
      (m₁.scroll c) := by
    rw [hsp.front]
    refine Scroll.untouched hs ?_ ?_
    · simp only [Scroll.Proper, BitVec.toNat_sub]
      omega
    · rintro v ⟨hv, hsv⟩
      rw [Scroll.front_covers (by omega)] at hv
      rw [Scroll.Covers] at hsv
      omega
  have hback : Untouched (m.scroll scr).vaddr ((m.scroll scr).vaddr + (m.scroll scr).size)
      (m₁.scroll q) := by
    rw [hsp.back]
    refine Scroll.untouched hs ?_ ?_
    · simp only [Scroll.Proper, Scroll.back, BitVec.toNat_sub, hstop,
        (h.proper c hc).stop_toNat]
      omega
    · rintro v ⟨hv, hsv⟩
      rw [Scroll.back_covers (h.proper c hc) (by omega)] at hv
      rw [Scroll.Covers] at hsv
      omega
  intro d hd
  refine ⟨hsp.chain.ne_null d hd, ?_⟩
  rcases List.mem_cons.mp (hsp.perm.mem_iff.mp hd) with rfl | hdl
  · exact hback
  · by_cases hdc : d = c
    · rw [hdc]
      exact hfront
    · rw [hsp.kept d hdc fun he => hql (he ▸ hdl)]
      exact (h.untouched hdl (h.others hc hcov hdl hdc)).2

omit h in
/-- The scrolls after a split: the two pieces of the one at `c`, and the others as they were. -/
theorem Split.pieces {c q : BitVec 32} {m₁ : ScrollMem} {l' xs ys : List (BitVec 32)}
    (hsp : Split m scr first l c q m₁ l') (hl : l = xs ++ c :: ys)
    (hmem : ∀ d, d ∈ xs ∨ d ∈ ys → d ∈ l ∧ d ≠ c) (hql : q ∉ l) :
    (l'.map m₁.scroll).Perm
      (xs.map m.scroll ++ ([m₁.scroll c, m₁.scroll q] ++ ys.map m.scroll)) := by
  have hmap : ∀ zs : List (BitVec 32), (∀ d ∈ zs, d ∈ xs ∨ d ∈ ys) →
      zs.map m₁.scroll = zs.map m.scroll := fun zs hzs =>
    List.map_congr_left fun d hd =>
      hsp.kept d (hmem d (hzs d hd)).2 fun he => hql (he ▸ (hmem d (hzs d hd)).1)
  have hmiddle : (xs.map m₁.scroll ++ [m₁.scroll c] ++ m₁.scroll q :: ys.map m₁.scroll).Perm
      (m₁.scroll q :: (xs.map m₁.scroll ++ [m₁.scroll c] ++ ys.map m₁.scroll)) :=
    List.perm_middle
  rw [← hmap xs fun d => .inl, ← hmap ys fun d => .inr]
  refine (hsp.perm.map m₁.scroll).trans ?_
  rw [hl]
  simpa using hmiddle.symm

/-- One scroll contains the range. -/
theorem looped_within {c : BitVec 32} (hc : c ∈ l)
    (hwithin : (m.scroll c).Within (m.scroll scr).vaddr
      ((m.scroll scr).vaddr + (m.scroll scr).size)) : Looped link m scr first l := by
  obtain ⟨hlo, hhi⟩ := (Scroll.within_iff h.scr_proper (h.proper c hc)).mp hwithin
  have hnotsame : ¬ (m.scroll c).Same (m.scroll scr).vaddr
      ((m.scroll scr).vaddr + (m.scroll scr).size) := by
    rw [Scroll.same_iff h.scr_proper (h.proper c hc)]
    omega
  have hcov : ∀ v, (m.scroll scr).Covers v → (m.scroll c).Covers v := fun v hv => by
    rw [Scroll.Covers] at hv ⊢
    omega
  obtain ⟨xs, ys, hl, hmem, hseg, -⟩ := h.around hc
  have hothers := fun d hd =>
    h.untouched (hmem d hd).1 (h.others hc hcov (hmem d hd).1 (hmem d hd).2)
  obtain ⟨q, qs, hfresh, hq0, hql, hqs⟩ := h.fresh
  obtain ⟨m₁, hm₁⟩ : ∃ m₁, m₁ = splitScroll { m with fresh := qs } first c q (m.scroll scr).vaddr
      ((m.scroll scr).vaddr + (m.scroll scr).size) := ⟨_, rfl⟩
  obtain ⟨l', hsp⟩ := h.splitScroll_split hc hq0 hql qs
  rw [← hm₁] at hsp
  have hrest := hsp.untouched h hc hql hwithin
  -- the loop goes on from `c` through the new list
  obtain ⟨as, bs, hsplit⟩ :=
    List.append_of_mem (hsp.perm.mem_iff.mpr (List.mem_cons_of_mem _ hc))
  have hseg₁ : Segment m₁.next c (c :: bs) 0#32 :=
    (hsplit ▸ hsp.chain : Chain m₁.next 0#32 first (as ++ c :: bs)).from_node.segment
  have hlen₁ : (as ++ c :: bs).length = l.length + 1 := by
    rw [← hsplit, hsp.perm.length_eq, List.length_cons]
  have hlen : l.length = (xs ++ c :: ys).length := by rw [← hl]
  rw [List.length_append, List.length_cons] at hlen hlen₁
  obtain ⟨fuel, hfuel, hdone⟩ := insertScrollLoop_done link (m.scroll scr).vaddr
    ((m.scroll scr).vaddr + (m.scroll scr).size)
    (xs.length + ((c :: bs).length + 1))
    (by have := h.length_lt; rw [List.length_cons]; omega) m₁ first
    ((c :: bs).getLastD (xs.getLastD 0#32))
  have hrounds : xs.length + ((c :: bs).length + 1) + fuel =
      xs.length + ((c :: bs).length + fuel + 1) := by omega
  refine ⟨first, m₁, l', (m.node q).page, ?_, hsp.chain, ?_, ?_, ?_⟩
  · rw [hfuel, hrounds, insertScrollLoop_skip _ hseg fun d hd => hothers d (.inl hd),
      insertScrollLoop_within (h.ne_zero hc) hnotsame hwithin hfresh, ← hm₁,
      insertScrollLoop_skip _ hseg₁ fun d hd => hrest d (hsplit ▸ List.mem_append_right _ hd)]
    exact hdone
  · intro hm
    rcases List.mem_cons.mp (hsp.perm.mem_iff.mp hm) with rfl | hm
    · exact hqs rfl
    · exact h.scr_out hm
  · exact hsp.kept scr (fun he => h.scr_out (he ▸ hc)) hqs.symm
  · have hcarve : (m.scroll c).carve (m.scroll scr).vaddr
        ((m.scroll scr).vaddr + (m.scroll scr).size) (m.node q).page =
          [m₁.scroll c, m₁.scroll q] := by
      rw [Scroll.carve, if_neg hnotsame, if_pos hwithin, hsp.front, hsp.back]
    rw [flatMap_carve hl hothers, hcarve]
    exact hsp.pieces hl hmem hql

theorem looped (link : BitVec 32) : Looped link m scr first l := by
  by_cases hsame : ∃ c ∈ l, (m.scroll c).Same (m.scroll scr).vaddr
      ((m.scroll scr).vaddr + (m.scroll scr).size)
  · obtain ⟨c, hc, hsame⟩ := hsame
    exact h.looped_same hc hsame
  · by_cases hwithin : ∃ c ∈ l, (m.scroll c).Within (m.scroll scr).vaddr
        ((m.scroll scr).vaddr + (m.scroll scr).size)
    · obtain ⟨c, hc, hwithin⟩ := hwithin
      exact h.looped_within hc hwithin
    · exact h.looped_cut fun c hc => ⟨fun hs => hsame ⟨c, hc, hs⟩, fun hw => hwithin ⟨c, hc, hw⟩⟩

/-- What `insert_scroll` returns for a list with a scroll: the new one in front of the pieces. -/
theorem insertScroll_eq (link : BitVec 32) (hl : l ≠ []) : ∃ m' l' page,
    insertScroll link m scr first = some (scr, m') ∧ Chain m'.next 0#32 scr (scr :: l') ∧
    m'.scroll scr = m.scroll scr ∧
    (m.scroll scr :: (l.map m.scroll).flatMap fun c => c.carve (m.scroll scr).vaddr
      ((m.scroll scr).vaddr + (m.scroll scr).size) page).Perm ((scr :: l').map m'.scroll) := by
  have hfirst : first ≠ 0#32 := fun he => hl (h.chain.eq_null_iff.mp he)
  obtain ⟨first', m₁, l', page, hloop, hchain, hout, hscr, hperm⟩ := h.looped link
  refine ⟨m₁.setNext scr first', l', page, ?_, ?_, ?_, ?_⟩
  · rw [insertScroll, if_neg hfirst]
    have hloop' : insertScrollLoop link (m.node scr).vaddr
        ((m.node scr).vaddr + (m.node scr).size) (2 ^ 33) m first 0#32 first =
          some (first', m₁) := hloop
    dsimp only
    rw [hloop']
    rfl
  · rw [ScrollMem.setNext_next]
    exact hchain.cons_update h.scr_ne hout
  · rw [ScrollMem.setNext_scroll, hscr]
  · rw [ScrollMem.setNext_scroll, List.map_cons, hscr]
    exact (hperm.symm).cons _

/-- A list with a scroll: every scroll has to be harmless. -/
theorem inserts_iff (hl : l ≠ []) : Inserts link m scr first (l.map m.scroll) ↔
    ∀ c ∈ l, (m.scroll scr).Harmless (m.scroll c) := by
  obtain ⟨m', l', page, heq, hchain, hscr, hperm⟩ := h.insertScroll_eq link hl
  have hproper : ∀ c ∈ l.map m.scroll, c.Proper := List.forall_mem_map.mpr h.proper
  rw [← List.forall_mem_map (P := fun c => (m.scroll scr).Harmless c),
    ← carved_iff h.scr_proper hproper h.apart page]
  constructor
  · rintro ⟨r, m'', l'', heq', hchain', -, -, hcarved⟩
    obtain ⟨rfl, rfl⟩ := Prod.mk.inj (Option.some.inj (heq.symm.trans heq'))
    rw [hchain'.unique hchain] at hcarved
    exact hcarved.perm hperm.symm
  · intro hcarved
    exact ⟨scr, m', scr :: l', heq, hchain, List.mem_cons_self, hscr, hcarved.perm hperm⟩

/-- The empty list: `scr->next` is not written, so that what it points to is on the list. -/
theorem inserts_nil_iff (hl : l = []) : Inserts link m scr first (l.map m.scroll) ↔
    ∃ rest, Chain m.next 0#32 (m.next scr) rest ∧ ∀ c ∈ rest, (m.scroll c).size = 0#32 := by
  have hfirst : first = 0#32 := h.chain.eq_null_iff.mpr hl
  have heq : insertScroll link m scr first = some (scr, m) := by rw [insertScroll, if_pos hfirst]
  have hempty : ∀ c : Scroll, c.size = 0#32 → ∀ v, ¬ c.Covers v := by
    rintro c hc v ⟨hlo, hhi⟩
    rw [hc, BitVec.toNat_ofNat] at hhi
    omega
  rw [hl]
  constructor
  · rintro ⟨r, m', l', heq', hchain, hmem, -, hcarved⟩
    obtain ⟨rfl, rfl⟩ := Prod.mk.inj (Option.some.inj (heq.symm.trans heq'))
    cases l' with
    | nil => exact absurd hmem List.not_mem_nil
    | cons d rest =>
        obtain ⟨rfl, -, hrest⟩ := hchain
        refine ⟨rest, hrest, fun c hc => ?_⟩
        by_contra hne
        have hc' : m.scroll c ∈ rest.map m.scroll := List.mem_map_of_mem hc
        have hpos : 0 < (m.scroll c).size.toNat :=
          Nat.pos_of_ne_zero fun hz => hne (BitVec.eq_of_toNat_eq hz)
        have hcv : (m.scroll c).Covers (m.scroll c).vaddr := ⟨Nat.le_refl _, by omega⟩
        have hsv := (hcarved.covers _).mp ⟨_, List.mem_cons_of_mem _ hc', hcv⟩
        rw [List.map_nil] at hsv
        refine (List.pairwise_cons.mp hcarved.apart).1 _ hc' _ ⟨?_, hcv⟩
        simpa using hsv
  · rintro ⟨rest, hrest, hsize⟩
    have hnone : ∀ s ∈ rest.map m.scroll, ∀ v, ¬ s.Covers v :=
      List.forall_mem_map.mpr fun c hc => hempty _ (hsize c hc)
    refine ⟨scr, m, scr :: rest, heq, ⟨rfl, h.scr_ne, hrest⟩, List.mem_cons_self, rfl, ?_, ?_,
      List.mem_cons_self, nofun⟩
    · refine List.pairwise_cons.mpr ⟨fun s hs v hv => hnone s hs v hv.2, ?_⟩
      exact List.pairwise_of_forall_mem_list fun s hs _ _ v hv => hnone s hs v hv.1
    · intro v
      simp only [List.map_cons, List.mem_cons, exists_eq_or_imp, List.map_nil, List.not_mem_nil,
        false_and, exists_false, or_false, or_iff_left_iff_imp]
      rintro ⟨s, hs, hsv⟩
      exact absurd hsv (hnone s hs v)

end Listed

/-! ## When the list is right -/

/-- No scroll of the list starts inside the new one, unless it is the same range or it reaches
    behind the end of the new one and has no physical addresses. Where the list is empty, nothing
    but empty scrolls hangs on the new one. -/
def Insertable (m : ScrollMem) (scr : BitVec 32) (l : List (BitVec 32)) : Prop :=
  (l = [] → ∃ rest, Chain m.next 0#32 (m.next scr) rest ∧ ∀ c ∈ rest, (m.scroll c).size = 0#32) ∧
    ∀ c ∈ l, (m.scroll scr).Harmless (m.scroll c)

/-- `insert_scroll` carves the new scroll into the list in exactly these cases. -/
theorem insertScroll_inserts_iff {link scr first : BitVec 32} {m : ScrollMem}
    {l : List (BitVec 32)} (h : Listed m scr first l) :
    Inserts link m scr first (l.map m.scroll) ↔ Insertable m scr l := by
  by_cases hl : l = []
  · rw [h.inserts_nil_iff hl, Insertable, hl]
    simp
  · rw [h.inserts_iff hl, Insertable]
    simp [hl]

/-- A list with one scroll at `0x100`, and the new one at `0x200`. -/
def pairMem (old scr : Scroll) : ScrollMem where
  node := fun p => if p = 0x100#32 then ⟨old, 0#32⟩ else ⟨scr, 0#32⟩
  fresh := [0x300#32]

theorem pairMem_listed {old scr : Scroll} (hold : old.Proper) (hscr : scr.Proper) :
    Listed (pairMem old scr) 0x200#32 0x100#32 [0x100#32] where
  chain := ⟨rfl, by decide, rfl⟩
  proper := by
    intro c hc
    rw [List.mem_singleton.mp hc]
    exact hold
  apart := List.pairwise_singleton ..
  scr_ne := by decide
  scr_out := by decide
  scr_proper := hscr
  fresh := ⟨0x300#32, [], rfl, by decide, by decide, by decide⟩

/-- A page out of the middle of three. -/
theorem middlePage_inserts : Inserts 0#32
    (pairMem ⟨0x5000#32, 0x3000#32, .aligned, 0x1000#32⟩
      ⟨0x6000#32, 0x1000#32, .aligned, 0x9000#32⟩)
    0x200#32 0x100#32 [⟨0x5000#32, 0x3000#32, .aligned, 0x1000#32⟩] := by
  refine (insertScroll_inserts_iff (pairMem_listed (by decide) (by decide))).mpr ⟨nofun, ?_⟩
  rw [List.forall_mem_singleton]
  exact fun hlo => absurd hlo (by decide)

/-- Two pages whose first one the new scroll takes over: the second one gets the physical address of
    the first. -/
theorem frontPage_not_inserts : ¬ ∀ (link scr first : BitVec 32) (m : ScrollMem)
    (l : List (BitVec 32)), Listed m scr first l → Inserts link m scr first (l.map m.scroll) := by
  intro hall
  have hlisted : Listed (pairMem ⟨0x5000#32, 0x2000#32, .aligned, 0x1000#32⟩
      ⟨0x4000#32, 0x2000#32, .aligned, 0x9000#32⟩) 0x200#32 0x100#32 [0x100#32] :=
    pairMem_listed (by decide) (by decide)
  have hharm := (hlisted.inserts_iff (by decide)).mp (hall 0#32 _ _ _ _ hlisted) 0x100#32
    List.mem_cons_self
  revert hharm
  decide

end Muse.Paging
