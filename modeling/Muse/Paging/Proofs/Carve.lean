import Mathlib.Data.List.Pairwise
import Muse.Paging.ScrollList

/-!
# Carving a scroll into a list

Each scroll of the old list becomes the pieces of it that `insert_scroll` leaves (`carve`). They are
right for every position but two: a scroll that lies inside the new one stays as it is, and
a scroll that loses its front keeps the physical address of its old start.
-/

namespace Muse.Paging

open Muse.Library

/-! ## One scroll -/

section Carve

variable (start stop : BitVec 32)

/-- The scroll is exactly the range. -/
def Scroll.Same (c : Scroll) : Prop := start = c.vaddr ∧ stop = c.vaddr + c.size

/-- The range lies strictly inside the scroll. -/
def Scroll.Within (c : Scroll) : Prop := c.vaddr < start ∧ stop < c.vaddr + c.size

instance (c : Scroll) : Decidable (c.Same start stop) := inferInstanceAs (Decidable (_ ∧ _))

instance (c : Scroll) : Decidable (c.Within start stop) := inferInstanceAs (Decidable (_ ∧ _))

/-- A scroll whose back or front is cut off. -/
def Scroll.cut (c : Scroll) : Scroll :=
  let stop' := c.vaddr + c.size
  let c' := if c.vaddr < start ∧ start < stop' then { c with size := start - c.vaddr } else c
  if c.vaddr < stop ∧ stop < stop' then
    { c' with vaddr := stop, size := c'.size - (stop - c.vaddr) }
  else c'

/-- The back of a scroll that the range splits. -/
def Scroll.back (page : BitVec 32) (c : Scroll) : Scroll where
  vaddr := stop
  size := c.vaddr + c.size - stop
  type := c.type
  page := if c.type = .aligned then c.page + stop - c.vaddr else page

/-- The pieces that are left of a scroll. `page` is what the memory of a new scroll holds. -/
def Scroll.carve (page : BitVec 32) (c : Scroll) : List Scroll :=
  if c.Same start stop then []
  else if c.Within start stop then
    [{ c with size := start - c.vaddr }, c.back stop page]
  else [c.cut start stop]

end Carve

/-- Carving `scr` out of `c` goes well: `c` does not start inside `scr`, or is the same range, or
    reaches behind the end of `scr` and has no physical addresses. -/
def Scroll.Harmless (scr c : Scroll) : Prop :=
  scr.vaddr.toNat ≤ c.vaddr.toNat → c.vaddr.toNat < scr.vaddr.toNat + scr.size.toNat →
    c.vaddr = scr.vaddr ∧ c.size = scr.size ∨
    scr.vaddr.toNat + scr.size.toNat < c.vaddr.toNat + c.size.toNat ∧ c.type ≠ .aligned

namespace Scroll

instance (c : Scroll) : Decidable c.Proper := inferInstanceAs (Decidable (_ ∧ _))

instance (scr c : Scroll) : Decidable (scr.Harmless c) := inferInstanceAs (Decidable (_ → _ → _))

variable {scr c d : Scroll} {page v : BitVec 32}

theorem Proper.stop_toNat (h : c.Proper) :
    (c.vaddr + c.size).toNat = c.vaddr.toNat + c.size.toNat := by
  have := h.2
  rw [BitVec.toNat_add]
  omega

theorem Proper.covers_start (h : c.Proper) : c.Covers c.vaddr :=
  ⟨Nat.le_refl _, by have := h.1; omega⟩

/-- The three ways a scroll is carved, in numbers. -/
theorem same_iff (hs : scr.Proper) (hc : c.Proper) :
    c.Same scr.vaddr (scr.vaddr + scr.size) ↔
      scr.vaddr.toNat = c.vaddr.toNat ∧ scr.size.toNat = c.size.toNat := by
  rw [Same, ← BitVec.toNat_inj, ← BitVec.toNat_inj, hs.stop_toNat, hc.stop_toNat]
  omega

theorem within_iff (hs : scr.Proper) (hc : c.Proper) :
    c.Within scr.vaddr (scr.vaddr + scr.size) ↔ c.vaddr.toNat < scr.vaddr.toNat ∧
      scr.vaddr.toNat + scr.size.toNat < c.vaddr.toNat + c.size.toNat := by
  rw [Within, BitVec.lt_def, BitVec.lt_def, hs.stop_toNat, hc.stop_toNat]

/-- What is left by a cut: a front part, a back part, or the whole scroll. -/
theorem cut_cases (hs : scr.Proper) (hc : c.Proper)
    (hw : ¬ c.Within scr.vaddr (scr.vaddr + scr.size)) :
    (c.vaddr.toNat < scr.vaddr.toNat ∧ scr.vaddr.toNat < c.vaddr.toNat + c.size.toNat ∧
      c.cut scr.vaddr (scr.vaddr + scr.size) = { c with size := scr.vaddr - c.vaddr }) ∨
    (c.vaddr.toNat < scr.vaddr.toNat + scr.size.toNat ∧
      scr.vaddr.toNat + scr.size.toNat < c.vaddr.toNat + c.size.toNat ∧
      scr.vaddr.toNat ≤ c.vaddr.toNat ∧
      c.cut scr.vaddr (scr.vaddr + scr.size) =
        { c with
          vaddr := scr.vaddr + scr.size
          size := c.size - (scr.vaddr + scr.size - c.vaddr) }) ∨
    (¬ (c.vaddr.toNat < scr.vaddr.toNat ∧ scr.vaddr.toNat < c.vaddr.toNat + c.size.toNat) ∧
      ¬ (c.vaddr.toNat < scr.vaddr.toNat + scr.size.toNat ∧
        scr.vaddr.toNat + scr.size.toNat < c.vaddr.toNat + c.size.toNat) ∧
      c.cut scr.vaddr (scr.vaddr + scr.size) = c) := by
  rw [within_iff hs hc] at hw
  simp only [cut, BitVec.lt_def, hs.stop_toNat, hc.stop_toNat]
  by_cases hfront : c.vaddr.toNat < scr.vaddr.toNat ∧ scr.vaddr.toNat < c.vaddr.toNat + c.size.toNat
  · have hback : ¬ (c.vaddr.toNat < scr.vaddr.toNat + scr.size.toNat ∧
        scr.vaddr.toNat + scr.size.toNat < c.vaddr.toNat + c.size.toNat) := by omega
    rw [if_pos hfront, if_neg hback]
    exact .inl ⟨hfront.1, hfront.2, rfl⟩
  · rw [if_neg hfront]
    by_cases hback : c.vaddr.toNat < scr.vaddr.toNat + scr.size.toNat ∧
        scr.vaddr.toNat + scr.size.toNat < c.vaddr.toNat + c.size.toNat
    · rw [if_pos hback]
      exact .inr (.inl ⟨hback.1, hback.2, by omega, rfl⟩)
    · rw [if_neg hback]
      exact .inr (.inr ⟨hfront, hback, rfl⟩)

/-- The part of `c` in front of `start`. -/
theorem front_covers {start : BitVec 32} (h : c.vaddr.toNat ≤ start.toNat) :
    Covers { c with size := start - c.vaddr } v ↔
      c.vaddr.toNat ≤ v.toNat ∧ v.toNat < start.toNat := by
  have hlen : (start - c.vaddr).toNat = start.toNat - c.vaddr.toNat := by
    rw [BitVec.toNat_sub]
    omega
  change c.vaddr.toNat ≤ v.toNat ∧ v.toNat < c.vaddr.toNat + (start - c.vaddr).toNat ↔ _
  rw [hlen]
  omega

/-- The part of `c` from `stop` on. -/
theorem rest_covers {stop size : BitVec 32}
    (hsize : stop.toNat + size.toNat = c.vaddr.toNat + c.size.toNat) {page : BitVec 32} :
    Covers { c with vaddr := stop, size := size, page := page } v ↔
      stop.toNat ≤ v.toNat ∧ v.toNat < c.vaddr.toNat + c.size.toNat := by
  rw [Covers, ← hsize]

theorem back_covers {stop : BitVec 32} (hc : c.Proper)
    (h : stop.toNat ≤ c.vaddr.toNat + c.size.toNat) : (c.back stop page).Covers v ↔
      stop.toNat ≤ v.toNat ∧ v.toNat < c.vaddr.toNat + c.size.toNat := by
  refine rest_covers (c := c) ?_
  rw [BitVec.toNat_sub, hc.stop_toNat]
  have := hc.2
  omega

theorem cut_back_covers {stop : BitVec 32} (hc : c.Proper)
    (hhi : stop.toNat ≤ c.vaddr.toNat + c.size.toNat) :
    Covers { c with vaddr := stop, size := c.size - (stop - c.vaddr) } v ↔
      stop.toNat ≤ v.toNat ∧ v.toNat < c.vaddr.toNat + c.size.toNat := by
  refine rest_covers (c := c) ?_
  rw [BitVec.toNat_sub, BitVec.toNat_sub]
  have := hc.2
  omega

/-- The pieces of `c`, by the position of the range `scr`. -/
inductive Carving (scr c : Scroll) (page : BitVec 32) : List Scroll → Prop where
  | same (haddr : c.vaddr = scr.vaddr) (hsize : c.size = scr.size) : Carving scr c page []
  | within (hlo : c.vaddr.toNat < scr.vaddr.toNat)
      (hhi : scr.vaddr.toNat + scr.size.toNat < c.vaddr.toNat + c.size.toNat) :
      Carving scr c page
        [{ c with size := scr.vaddr - c.vaddr }, c.back (scr.vaddr + scr.size) page]
  | front (hlo : c.vaddr.toNat < scr.vaddr.toNat)
      (hin : scr.vaddr.toNat < c.vaddr.toNat + c.size.toNat)
      (hhi : c.vaddr.toNat + c.size.toNat ≤ scr.vaddr.toNat + scr.size.toNat) :
      Carving scr c page [{ c with size := scr.vaddr - c.vaddr }]
  | back (hlo : scr.vaddr.toNat ≤ c.vaddr.toNat)
      (hin : c.vaddr.toNat < scr.vaddr.toNat + scr.size.toNat)
      (hhi : scr.vaddr.toNat + scr.size.toNat < c.vaddr.toNat + c.size.toNat) :
      Carving scr c page [{ c with
        vaddr := scr.vaddr + scr.size
        size := c.size - (scr.vaddr + scr.size - c.vaddr) }]
  | outside (h : c.vaddr.toNat + c.size.toNat ≤ scr.vaddr.toNat ∨
      scr.vaddr.toNat + scr.size.toNat ≤ c.vaddr.toNat) : Carving scr c page [c]
  | inside (hlo : scr.vaddr.toNat ≤ c.vaddr.toNat)
      (hhi : c.vaddr.toNat + c.size.toNat ≤ scr.vaddr.toNat + scr.size.toNat)
      (hne : ¬ (c.vaddr = scr.vaddr ∧ c.size = scr.size)) : Carving scr c page [c]

theorem carving (hs : scr.Proper) (hc : c.Proper) (page : BitVec 32) :
    Carving scr c page (c.carve scr.vaddr (scr.vaddr + scr.size) page) := by
  unfold carve
  by_cases hsame : c.Same scr.vaddr (scr.vaddr + scr.size)
  · rw [if_pos hsame]
    obtain ⟨haddr, hsize⟩ := (same_iff hs hc).mp hsame
    exact .same (BitVec.eq_of_toNat_eq haddr.symm) (BitVec.eq_of_toNat_eq hsize.symm)
  · rw [if_neg hsame]
    by_cases hw : c.Within scr.vaddr (scr.vaddr + scr.size)
    · rw [if_pos hw]
      obtain ⟨hlo, hhi⟩ := (within_iff hs hc).mp hw
      exact .within hlo hhi
    · rw [if_neg hw]
      have hnw := hw
      rw [within_iff hs hc] at hnw
      rcases cut_cases hs hc hw with ⟨hlo, hin, he⟩ | ⟨hin, hhi, hlo, he⟩ | ⟨hnf, hnb, he⟩
      · rw [he]
        exact .front hlo hin (by omega)
      · rw [he]
        exact .back hlo hin hhi
      · rw [he]
        by_cases hout : c.vaddr.toNat + c.size.toNat ≤ scr.vaddr.toNat ∨
            scr.vaddr.toNat + scr.size.toNat ≤ c.vaddr.toNat
        · exact .outside hout
        · refine .inside (by omega) (by omega) ?_
          rintro ⟨haddr, hsize⟩
          exact hsame ((same_iff hs hc).mpr ⟨by rw [haddr], by rw [hsize]⟩)

variable {pieces : List Scroll}

/-- No piece reaches out of the scroll. -/
theorem Carving.sub (h : Carving scr c page pieces) (hs : scr.Proper) (hc : c.Proper)
    (hd : d ∈ pieces) (hv : d.Covers v) : c.Covers v := by
  have hstop := hs.stop_toNat
  cases h with
  | same => cases hd
  | within hlo hhi =>
      rcases List.mem_pair.mp hd with rfl | rfl
      · rw [front_covers (by omega)] at hv
        exact ⟨hv.1, by omega⟩
      · rw [back_covers hc (by omega)] at hv
        exact ⟨by omega, hv.2⟩
  | front hlo hin hhi =>
      rw [List.mem_singleton] at hd
      rw [hd, front_covers (by omega)] at hv
      exact ⟨hv.1, by omega⟩
  | back hlo hin hhi =>
      rw [List.mem_singleton] at hd
      rw [hd, cut_back_covers hc (by omega)] at hv
      exact ⟨by omega, hv.2⟩
  | outside | inside =>
      rw [List.mem_singleton] at hd
      exact hd ▸ hv

/-- The pieces are apart from each other. -/
theorem Carving.apart (h : Carving scr c page pieces) (hs : scr.Proper) (hc : c.Proper) :
    pieces.Pairwise Apart := by
  have hstop := hs.stop_toNat
  cases h with
  | same => exact List.Pairwise.nil
  | within hlo hhi =>
      refine List.pairwise_pair.mpr ?_
      rintro v ⟨hf, hb⟩
      rw [front_covers (by omega)] at hf
      rw [back_covers hc (by omega)] at hb
      omega
  | front | back | outside | inside => exact List.pairwise_singleton ..

/-- The pieces of a scroll that is harmless are what is left of it outside of the range. -/
theorem Carving.covers (h : Carving scr c page pieces) (hs : scr.Proper) (hc : c.Proper)
    (hh : scr.Harmless c) : (∃ d ∈ pieces, d.Covers v) ↔ c.Covers v ∧ ¬ scr.Covers v := by
  have hstop := hs.stop_toNat
  cases h with
  | same haddr hsize => simp [Covers, haddr, hsize]
  | within hlo hhi =>
      simp only [List.mem_cons, List.not_mem_nil, or_false, exists_eq_or_imp, exists_eq_left]
      rw [front_covers (by omega), back_covers hc (by omega), Covers, Covers]
      omega
  | front hlo hin hhi =>
      simp only [List.mem_singleton, exists_eq_left]
      rw [front_covers (by omega), Covers, Covers]
      omega
  | back hlo hin hhi =>
      simp only [List.mem_singleton, exists_eq_left]
      rw [cut_back_covers hc (by omega), Covers, Covers]
      omega
  | outside hout =>
      simp only [List.mem_singleton, exists_eq_left, Covers]
      omega
  | inside hlo hhi hne =>
      have hpos := hc.1
      rcases hh hlo (by omega) with hsame | ⟨hlt, -⟩
      · exact absurd hsame hne
      · omega

/-- The pieces of a scroll that is harmless are of its type and show the same physical
    addresses. -/
theorem Carving.kept (h : Carving scr c page pieces) (hh : scr.Harmless c) (hd : d ∈ pieces) :
    d.type = c.type ∧ (c.type = .aligned → d.physical v = c.physical v) := by
  cases h with
  | same => cases hd
  | within hlo hhi =>
      rcases List.mem_pair.mp hd with rfl | rfl
      · exact ⟨rfl, fun _ => rfl⟩
      · refine ⟨rfl, fun ha => ?_⟩
        rw [physical, Scroll.back, if_pos ha, physical]
        apply BitVec.eq_of_toNat_eq
        simp only [BitVec.toNat_add, BitVec.toNat_sub]
        omega
  | front hlo hin hhi =>
      rw [List.mem_singleton] at hd
      exact ⟨by rw [hd], fun _ => by rw [hd]; rfl⟩
  | back hlo hin hhi =>
      rw [List.mem_singleton] at hd
      refine ⟨by rw [hd], fun ha => ?_⟩
      rcases hh hlo hin with ⟨haddr, hsize⟩ | ⟨-, hna⟩
      · rw [haddr, hsize] at hhi
        omega
      · exact absurd ha hna
  | outside | inside =>
      rw [List.mem_singleton] at hd
      exact ⟨by rw [hd], fun _ => by rw [hd]⟩

instance : Std.Symm Apart := ⟨fun _ _ h v hv => h v ⟨hv.2, hv.1⟩⟩

end Scroll

/-! ## The list -/

section List

variable {scr : Scroll} {old : List Scroll} {page : BitVec 32} (hs : scr.Proper)
  (hold : ∀ c ∈ old, c.Proper) (hapart : old.Pairwise Scroll.Apart)

/-- The order of the list does not matter. -/
theorem Carved.perm {scrolls scrolls' : List Scroll} (h : Carved old scr scrolls)
    (hp : scrolls.Perm scrolls') : Carved old scr scrolls' where
  apart := (hp.pairwise_iff fun {_ _} h => Std.Symm.symm _ _ h).mp h.apart
  covers := fun v => by
    rw [← h.covers v]
    simp only [hp.mem_iff]
  mem := hp.mem_iff.mp h.mem
  kept := fun c hc v hv hout => by
    obtain ⟨t, ht, hrest⟩ := h.kept c hc v hv hout
    exact ⟨t, hp.mem_iff.mp ht, hrest⟩

include hs hold hapart

theorem carved_of_harmless (hh : ∀ c ∈ old, scr.Harmless c) : Carved old scr
    (scr :: old.flatMap fun c => c.carve scr.vaddr (scr.vaddr + scr.size) page) := by
  have hcarving : ∀ c ∈ old, Scroll.Carving scr c page
      (c.carve scr.vaddr (scr.vaddr + scr.size) page) :=
    fun c hc => Scroll.carving hs (hold c hc) page
  refine ⟨List.pairwise_cons.mpr ⟨?_, List.pairwise_flatMap.mpr ⟨?_, ?_⟩⟩, ?_, by simp, ?_⟩
  · rintro d hd v ⟨hsv, hdv⟩
    obtain ⟨c, hc, hd⟩ := List.mem_flatMap.mp hd
    exact ((hcarving c hc).covers hs (hold c hc) (hh c hc)).mp ⟨d, hd, hdv⟩ |>.2 hsv
  · exact fun c hc => (hcarving c hc).apart hs (hold c hc)
  · refine hapart.imp_of_mem ?_
    rintro c c' hc hc' hcc d hd d' hd' v ⟨hdv, hdv'⟩
    exact hcc v ⟨(hcarving c hc).sub hs (hold c hc) hd hdv,
      (hcarving c' hc').sub hs (hold c' hc') hd' hdv'⟩
  · intro v
    simp only [List.mem_cons, exists_eq_or_imp, List.mem_flatMap]
    constructor
    · rintro (hsv | ⟨d, ⟨c, hc, hd⟩, hdv⟩)
      · exact .inl hsv
      · exact .inr ⟨c, hc, (hcarving c hc).sub hs (hold c hc) hd hdv⟩
    · rintro (hsv | ⟨c, hc, hcv⟩)
      · exact .inl hsv
      · by_cases hsv : scr.Covers v
        · exact .inl hsv
        · obtain ⟨d, hd, hdv⟩ :=
            ((hcarving c hc).covers hs (hold c hc) (hh c hc)).mpr ⟨hcv, hsv⟩
          exact .inr ⟨d, ⟨c, hc, hd⟩, hdv⟩
  · intro c hc v hcv hsv
    obtain ⟨d, hd, hdv⟩ := ((hcarving c hc).covers hs (hold c hc) (hh c hc)).mpr ⟨hcv, hsv⟩
    obtain ⟨htype, hphys⟩ := (hcarving c hc).kept (hh c hc) hd (v := v)
    exact ⟨d, List.mem_cons_of_mem _ (List.mem_flatMap.mpr ⟨c, hc, hd⟩), hdv, htype, hphys⟩

theorem harmless_of_carved (h : Carved old scr
    (scr :: old.flatMap fun c => c.carve scr.vaddr (scr.vaddr + scr.size) page)) :
    ∀ c ∈ old, scr.Harmless c := by
  intro c hc hlo hin
  have hpos := (hold c hc).1
  have hstop := hs.stop_toNat
  generalize hpieces : c.carve scr.vaddr (scr.vaddr + scr.size) page = pieces
  have hcar : Scroll.Carving scr c page pieces := hpieces ▸ Scroll.carving hs (hold c hc) page
  have hmem : ∀ d ∈ pieces,
      d ∈ old.flatMap fun c => c.carve scr.vaddr (scr.vaddr + scr.size) page :=
    fun d hd => List.mem_flatMap.mpr ⟨c, hc, hpieces ▸ hd⟩
  cases hcar with
  | same haddr hsize => exact .inl ⟨haddr, hsize⟩
  | within hlt _ => omega
  | front hlt _ _ => omega
  | outside hout => omega
  | inside _ hhi hne =>
      -- the scroll stays on the list, inside the new one
      have hap := (List.pairwise_cons.mp h.apart).1 c (hmem c (by simp))
      exact absurd ⟨⟨hlo, hin⟩, (hold c hc).covers_start⟩ (hap c.vaddr)
  | back _ _ hhi =>
      refine .inr ⟨hhi, fun ha => ?_⟩
      -- the first address behind the new scroll shows the old start
      have hcv : c.Covers (scr.vaddr + scr.size) := by
        rw [Scroll.Covers, hstop]
        omega
      have hsv : ¬ scr.Covers (scr.vaddr + scr.size) := by
        rw [Scroll.Covers, hstop]
        omega
      obtain ⟨t, ht, htv, -, hphys⟩ := h.kept c hc _ hcv hsv
      rcases List.mem_cons.mp ht with rfl | ht
      · exact hsv htv
      · obtain ⟨c', hc', ht⟩ := List.mem_flatMap.mp ht
        have hc'v := (Scroll.carving hs (hold c' hc') page).sub hs (hold c' hc') ht htv
        obtain rfl : c = c' := by
          by_contra hne
          exact hapart.forall hc hc' hne _ ⟨hcv, hc'v⟩
        rw [hpieces, List.mem_singleton] at ht
        have he := hphys ha
        rw [ht] at he
        have hend := hs.2
        have hnum := congrArg BitVec.toNat he
        simp only [Scroll.physical, BitVec.sub_self, BitVec.toNat_add, BitVec.toNat_sub,
          BitVec.toNat_ofNat] at hnum
        omega

/-- The pieces of the old scrolls and the new one are right exactly when every old scroll is
    harmless. -/
theorem carved_iff (page : BitVec 32) : Carved old scr
    (scr :: old.flatMap fun c => c.carve scr.vaddr (scr.vaddr + scr.size) page) ↔
    ∀ c ∈ old, scr.Harmless c :=
  ⟨harmless_of_carved hs hold hapart, carved_of_harmless hs hold hapart⟩

end List

end Muse.Paging
