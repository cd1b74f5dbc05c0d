import Muse.Paging.LowerHalf
import Muse.Paging.Proofs.Within

/-!
# What `free_lower_half` frees

`Emptied` is the invariant of the inner loop and `Swept` that of the outer loop. Both say that a
bit is set if it was set and is not the status bit of an address visited so far. A table that two
entries name is visited twice, and its first half is empty the second time.
-/

namespace Muse.Paging.LowerHalf

open Muse.Library

/-! ## Status bits -/

variable {regions : List Memory.Region}

/-- `kpage_set_status(addr, true)` clears the status bit of the address. -/
theorem bitAt_freePage (s : State) (addr : BitVec 32) (p : Nat) :
    bitAt (s.freePage regions addr).bitmaps p = true ↔
      bitAt s.bitmaps p = true ∧ statusBit regions addr.toNat ≠ some p := by
  rw [State.freePage, Memory.kpageSetStatus, statusBit]
  cases Memory.findRegion regions addr.toNat with
  | none => simp
  | some r =>
      have hbyte : ∀ b k : Nat, (8 * b + k) / 8 = b + k / 8 ∧ (8 * b + k) % 8 = k % 8 := by omega
      obtain ⟨hdiv, hmod⟩ := hbyte r.bitmap ((addr.toNat - r.addr) / Memory.pageSize)
      have h := bitAt_clearBitAt (by decide) s.bitmaps
        (r.bit ((addr.toNat - r.addr) / Memory.pageSize)) p
      rw [clearBitAt, Memory.Region.bit, hdiv, hmod] at h
      simp only [if_true, h, Option.map_some, Bool.and_eq_true, Bool.not_eq_true',
        decide_eq_false_iff_not, Memory.Region.bit, ne_eq, Option.some.injEq]
      rw [and_comm, eq_comm (a := p)]

/-! ## The window -/

/-- Every pair of indices is the one of an address. -/
theorem exists_address (i j : BitVec 10) : ∃ v : BitVec 32, dirIdx v = i ∧ tblIdx v = j := by
  refine ⟨BitVec.ofNat 32 (i.toNat * 4194304 + j.toNat * 4096), ?_, ?_⟩
  · apply BitVec.eq_of_toNat_eq
    rw [dirIdx_toNat, BitVec.toNat_ofNat]
    omega
  · apply BitVec.eq_of_toNat_eq
    rw [tblIdx_toNat, BitVec.toNat_ofNat]
    omega

theorem load_entry {s : State} (h : s.vm.space.SelfMapped) (i : BitVec 10) :
    s.vm.load (elem loopbackDir (i.setWidth 32)) = some (s.entry i) := by
  obtain ⟨v, rfl, -⟩ := exists_address i 0#10
  rw [← Vm.pgDirIdx_eq, Vm.load_dir h]
  rfl

theorem store_entry {s : State} (h : s.vm.space.SelfMapped) (i : BitVec 10) (x : BitVec 32) :
    s.store (elem loopbackDir (i.setWidth 32)) x =
      some { s with vm := s.vm.write s.vm.space.cr3 i x } := by
  obtain ⟨v, rfl, -⟩ := exists_address i 0#10
  rw [State.store, ← Vm.pgDirIdx_eq, Vm.store_dir h, Option.map_some]

theorem load_slot {s : State} (h : s.vm.space.SelfMapped) {i : BitVec 10}
    (hp : present (s.entry i) = true) (j : BitVec 10) :
    s.vm.load (elem (loopbackTbl (i.setWidth 32)) (j.setWidth 32)) = some (s.slot i j) := by
  obtain ⟨v, rfl, rfl⟩ := exists_address i j
  rw [← Vm.pgDirIdx_eq, ← Vm.pgTblIdx_eq, Vm.load_tbl h hp]
  rfl

theorem store_slot {s : State} (h : s.vm.space.SelfMapped) {i : BitVec 10}
    (hp : present (s.entry i) = true) (j : BitVec 10) (x : BitVec 32) :
    s.store (elem (loopbackTbl (i.setWidth 32)) (j.setWidth 32)) x =
      some { s with vm := s.vm.write (frame (s.entry i)) j x } := by
  obtain ⟨v, rfl, rfl⟩ := exists_address i j
  rw [State.store, ← Vm.pgDirIdx_eq, ← Vm.pgTblIdx_eq, Vm.store_tbl h hp, Option.map_some]
  rfl

/-! ## The inner loop -/

/-- From `s` to `s'` the first `n` slots of the table `t` were emptied. -/
structure Emptied (regions : List Memory.Region) (s s' : State) (t : BitVec 20) (n : Nat) :
    Prop where
  cr3 : s'.vm.space.cr3 = s.vm.space.cr3
  mem : ∀ f k, s'.vm.space.mem f k = if f = t ∧ k.toNat < n then 0#32 else s.vm.space.mem f k
  bits : ∀ p, bitAt s'.bitmaps p = true ↔ bitAt s.bitmaps p = true ∧
    ∀ j : BitVec 10, j.toNat < n → present (s.vm.space.mem t j) = true →
      statusBit regions (pageOfEntry (s.vm.space.mem t j)) ≠ some p

theorem entry_congr {s s' : State} (hc : s'.vm.space.cr3 = s.vm.space.cr3) (i : BitVec 10)
    (hm : s'.vm.space.mem s.vm.space.cr3 i = s.vm.space.mem s.vm.space.cr3 i) :
    s'.entry i = s.entry i := by
  rw [State.entry, hc, hm]
  rfl

theorem selfMapped_congr {s s' : State} (h : s.vm.space.SelfMapped)
    (hc : s'.vm.space.cr3 = s.vm.space.cr3)
    (hm : s'.vm.space.mem s.vm.space.cr3 1023#10 = s.vm.space.mem s.vm.space.cr3 1023#10) :
    s'.vm.space.SelfMapped := by
  refine ⟨?_, ?_⟩
  · rw [hc, hm]
    exact h.present
  · rw [hc, hm]
    exact h.frame

section Inner

variable {s : State} (h : s.vm.space.SelfMapped) {i : BitVec 10}
  (hp : present (s.entry i) = true) (ht : frame (s.entry i) ≠ s.vm.space.cr3)

include h hp ht

/-- A round of the inner loop. -/
theorem Emptied.freeSlot {s' : State} {n : Nat}
    (he : Emptied regions s s' (frame (s.entry i)) n) {j : BitVec 10} (hj : j.toNat = n) :
    ∃ s'', s'.freeSlot regions (loopbackTbl (i.setWidth 32)) (j.setWidth 32) = some s'' ∧
      Emptied regions s s'' (frame (s.entry i)) (n + 1) := by
  have hdir : ∀ k, s'.vm.space.mem s.vm.space.cr3 k = s.vm.space.mem s.vm.space.cr3 k := by
    intro k
    rw [he.mem, if_neg fun hf => ht hf.1.symm]
  have hself := selfMapped_congr h he.cr3 (hdir _)
  have hentry : s'.entry i = s.entry i := entry_congr he.cr3 i (hdir i)
  have hslot : s'.slot i j = s.vm.space.mem (frame (s.entry i)) j := by
    rw [State.slot, hentry, he.mem, if_neg (by omega)]
  obtain ⟨e, hedef⟩ : ∃ e, e = s.vm.space.mem (frame (s.entry i)) j := ⟨_, rfl⟩
  obtain ⟨u, hu⟩ : ∃ u, u = if isPresent e then s'.freePage regions (e &&& addrMask) else s' :=
    ⟨_, rfl⟩
  have huvm : u.vm = s'.vm := by
    rw [hu]
    split <;> rfl
  have hp' : present (s'.entry i) = true := by rw [hentry, hp]
  have hload := load_slot hself hp' j
  have hstore := store_slot (s := u) (huvm ▸ hself) (i := i)
    (by rw [State.entry, huvm]; exact hp') j 0#32
  have huentry : u.entry i = s.entry i := by
    rw [State.entry, huvm]
    exact hentry
  rw [huentry] at hstore
  refine ⟨{ u with vm := u.vm.write (frame (s.entry i)) j 0#32 }, ?_, ?_, fun f k => ?_,
    fun p => ?_⟩
  · rw [State.freeSlot, hload, hslot, ← hedef]
    simp only [Option.bind_eq_bind, Option.bind_some]
    rw [← hu, hstore]
  · rw [huvm]
    exact he.cr3
  · have hk : k = j ↔ k.toNat = n := by rw [← BitVec.toNat_inj, hj]
    simp only [huvm, Vm.write_mem, PhysMem.write, he.mem, hk]
    by_cases hf : f = frame (s.entry i)
    · by_cases hkn : k.toNat = n
      · rw [if_pos ⟨hf, hkn⟩, if_pos ⟨hf, by omega⟩]
      · rw [if_neg fun hc => hkn hc.2]
        by_cases hlt : k.toNat < n
        · rw [if_pos ⟨hf, hlt⟩, if_pos ⟨hf, by omega⟩]
        · rw [if_neg fun hc => hlt hc.2, if_neg (by omega)]
    · rw [if_neg fun hc => hf hc.1, if_neg fun hc => hf hc.1, if_neg fun hc => hf hc.1]
  · have hbits : bitAt u.bitmaps p = true ↔ bitAt s'.bitmaps p = true ∧
        (present e = true → statusBit regions (pageOfEntry e) ≠ some p) := by
      rw [hu]
      by_cases hpe : present e = true
      · rw [isPresent_eq, if_pos hpe, bitAt_freePage]
        exact and_congr_right fun _ => ⟨fun hne _ => hne, fun hne => hne hpe⟩
      · rw [isPresent_eq, if_neg hpe]
        exact ⟨fun hb => ⟨hb, fun hpe' => absurd hpe' hpe⟩, fun hb => hb.1⟩
    -- the new slot is the one with number `n`
    show bitAt u.bitmaps p = true ↔ _
    rw [hbits, he.bits, and_assoc]
    refine and_congr_right fun _ => ⟨?_, fun hall => ⟨?_, ?_⟩⟩
    · rintro ⟨hold, hnew⟩ k hk hpk
      by_cases hkj : k = j
      · subst hkj
        rw [← hedef] at hpk ⊢
        exact hnew hpk
      · have hne : k.toNat ≠ n := fun hkn => hkj (BitVec.eq_of_toNat_eq (hkn.trans hj.symm))
        exact hold k (by omega) hpk
    · exact fun k hk hpk => hall k (by omega) hpk
    · intro hpe
      rw [hedef] at hpe ⊢
      exact hall j (by omega) hpe

theorem freeSlots_emptied (regions : List Memory.Region) (n : Nat) (hn : n ≤ 1024) :
    ∃ s', s.freeSlots regions (loopbackTbl (i.setWidth 32)) n = some s' ∧
      Emptied regions s s' (frame (s.entry i)) n := by
  induction n with
  | zero =>
      refine ⟨s, rfl, rfl, fun f k => ?_, fun p => ?_⟩
      · rw [if_neg (by omega)]
      · exact ⟨fun hb => ⟨hb, fun j hj => absurd hj (Nat.not_lt_zero _)⟩, fun hb => hb.1⟩
  | succ n ih =>
      obtain ⟨s₁, hs₁, he⟩ := ih (by omega)
      have hj : (BitVec.ofNat 10 n).toNat = n := by
        rw [BitVec.toNat_ofNat, Nat.mod_eq_of_lt (by omega)]
      obtain ⟨s₂, hs₂, he'⟩ := he.freeSlot h hp ht hj
      refine ⟨s₂, ?_, he'⟩
      rw [State.freeSlots, hs₁, Option.bind_eq_bind, Option.bind_some,
        Vm.ofNat_eq_setWidth (by omega), hs₂]

end Inner

/-! ## The outer loop -/

/-- The addresses visited for the table of entry `i`. -/
def VisitedFor (s : State) (i : BitVec 10) (a : Nat) : Prop :=
  a = (loopbackTbl (i.setWidth 32)).toNat ∨
    ∃ j : BitVec 10, j.toNat < 512 ∧ present (s.slot i j) = true ∧ a = pageOfEntry (s.slot i j)

/-- The addresses visited by the first `n` rounds of the outer loop. -/
def VisitedBy (s : State) (n : Nat) (a : Nat) : Prop :=
  ∃ i : BitVec 10, i.toNat < n ∧ present (s.entry i) = true ∧ VisitedFor s i a

theorem visitedBy_succ {s : State} {n : Nat} {i : BitVec 10} (hi : i.toNat = n) (a : Nat) :
    VisitedBy s (n + 1) a ↔ VisitedBy s n a ∨ present (s.entry i) = true ∧ VisitedFor s i a := by
  constructor
  · rintro ⟨k, hk, hp, ha⟩
    by_cases hki : k = i
    · exact .inr ⟨hki ▸ hp, hki ▸ ha⟩
    · have hne : k.toNat ≠ n := fun hkn => hki (BitVec.eq_of_toNat_eq (hkn.trans hi.symm))
      exact .inl ⟨k, by omega, hp, ha⟩
  · rintro (⟨k, hk, hp, ha⟩ | ⟨hp, ha⟩)
    · exact ⟨k, by omega, hp, ha⟩
    · exact ⟨i, by omega, hp, ha⟩

/-- From `s` to `s'` the first `n` rounds were made. -/
structure Swept (regions : List Memory.Region) (s s' : State) (n : Nat) : Prop where
  cr3 : s'.vm.space.cr3 = s.vm.space.cr3
  entry : ∀ i, s'.entry i =
    if i.toNat < n ∧ present (s.entry i) = true then 0#32 else s.entry i
  mem : ∀ f, f ≠ s.vm.space.cr3 → ∀ k, s'.vm.space.mem f k = s.vm.space.mem f k ∨
    s'.vm.space.mem f k = 0#32 ∧ ∃ i : BitVec 10, i.toNat < n ∧ present (s.entry i) = true ∧
      frame (s.entry i) = f ∧ k.toNat < 512
  bits : ∀ p, bitAt s'.bitmaps p = true ↔ bitAt s.bitmaps p = true ∧
    ∀ a, VisitedBy s n a → statusBit regions a ≠ some p

section Round

variable {s s' s₁ : State} {n : Nat} (hs : Swept regions s s' n) {i : BitVec 10} (hi : i.toNat = n)

include hs hi

/-- A round without a table changes nothing. -/
theorem Swept.skip (hp : present (s.entry i) ≠ true) : Swept regions s s' (n + 1) := by
  refine ⟨hs.cr3, fun k => ?_, fun f hf k => ?_, fun p => ?_⟩
  · rw [hs.entry]
    by_cases hlt : k.toNat < n ∧ present (s.entry k) = true
    · rw [if_pos hlt, if_pos ⟨by omega, hlt.2⟩]
    · rw [if_neg hlt, if_neg fun hc => hlt ⟨?_, hc.2⟩]
      have hne : k.toNat ≠ n := fun hkn => hp (BitVec.eq_of_toNat_eq (hkn.trans hi.symm) ▸ hc.2)
      omega
  · rcases hs.mem f hf k with hsame | ⟨hzero, i', hi', hrest⟩
    · exact .inl hsame
    · exact .inr ⟨hzero, i', by omega, hrest⟩
  · rw [hs.bits]
    refine and_congr_right fun _ => forall_congr' fun a => ?_
    rw [visitedBy_succ hi]
    simp only [hp, Bool.false_eq_true, false_and, or_false]

variable (hp : present (s.entry i) = true)

include hp

/-- The entry of the round is cleared. -/
theorem Swept.entry_succ (k : BitVec 10) : (if k = i then 0#32 else s'.entry k) =
    if k.toNat < n + 1 ∧ present (s.entry k) = true then 0#32 else s.entry k := by
  rw [hs.entry]
  by_cases hk : k = i
  · rw [if_pos hk, if_pos ⟨by rw [hk]; omega, hk ▸ hp⟩]
  · have hne : k.toNat ≠ n := fun hkn => hk (BitVec.eq_of_toNat_eq (hkn.trans hi.symm))
    rw [if_neg hk]
    by_cases hlt : k.toNat < n ∧ present (s.entry k) = true
    · rw [if_pos hlt, if_pos ⟨by omega, hlt.2⟩]
    · rw [if_neg hlt, if_neg fun hc => hlt ⟨by omega, hc.2⟩]

variable (he : Emptied regions s' s₁ (frame (s.entry i)) 512)

include he

theorem Swept.mem_succ {f : BitVec 20} (hf : f ≠ s.vm.space.cr3) (k : BitVec 10) :
    s₁.vm.space.mem f k = s.vm.space.mem f k ∨
      s₁.vm.space.mem f k = 0#32 ∧ ∃ i' : BitVec 10, i'.toNat < n + 1 ∧
        present (s.entry i') = true ∧ frame (s.entry i') = f ∧ k.toNat < 512 := by
  rw [he.mem]
  by_cases hft : f = frame (s.entry i) ∧ k.toNat < 512
  · rw [if_pos hft]
    exact .inr ⟨rfl, i, by omega, hp, hft.1.symm, hft.2⟩
  · rw [if_neg hft]
    rcases hs.mem f hf k with hsame | ⟨hzero, i', hi', hrest⟩
    · exact .inl hsame
    · exact .inr ⟨hzero, i', by omega, hrest⟩

/-- The bits of the pages of the table and of its window address are cleared. -/
theorem Swept.bits_succ (ht : frame (s.entry i) ≠ s.vm.space.cr3) (p : Nat) :
    bitAt (s₁.freePage regions (loopbackTbl (i.setWidth 32))).bitmaps p = true ↔
      bitAt s.bitmaps p = true ∧
        ∀ a, VisitedBy s (n + 1) a → statusBit regions a ≠ some p := by
  rw [bitAt_freePage, he.bits, hs.bits]
  constructor
  · rintro ⟨⟨⟨hb, hold⟩, hslots⟩, hwindow⟩
    refine ⟨hb, fun a ha => ?_⟩
    rcases (visitedBy_succ hi a).mp ha with ha | ⟨-, rfl | ⟨j, hj, hpj, rfl⟩⟩
    · exact hold a ha
    · exact hwindow
    · -- the slot is as it was, or was emptied when the table was visited before
      rcases hs.mem _ ht j with hsame | ⟨-, i', hi', hpi', hf, -⟩
      · have := hslots j hj
        rw [hsame] at this
        exact this hpj
      · refine hold _ ⟨i', hi', hpi', .inr ⟨j, hj, ?_⟩⟩
        rw [State.slot, hf]
        exact ⟨hpj, rfl⟩
  · rintro ⟨hb, hall⟩
    refine ⟨⟨⟨hb, fun a ha => hall a ((visitedBy_succ hi a).mpr (.inl ha))⟩,
      fun j hj hpj => ?_⟩, hall _ ((visitedBy_succ hi _).mpr (.inr ⟨hp, .inl rfl⟩))⟩
    rcases hs.mem _ ht j with hsame | ⟨hzero, -⟩
    · rw [hsame] at hpj ⊢
      exact hall _ ((visitedBy_succ hi _).mpr (.inr ⟨hp, .inr ⟨j, hj, hpj, rfl⟩⟩))
    · rw [hzero] at hpj
      cases hpj

end Round

/-- A round of the outer loop. -/
theorem Swept.freeTable {s s' : State} (h : Active s) {n : Nat} (hn : n < 512)
    (hs : Swept regions s s' n) {i : BitVec 10} (hi : i.toNat = n) :
    ∃ s'', s'.freeTable regions (i.setWidth 32) = some s'' ∧ Swept regions s s'' (n + 1) := by
  have h1023 : s'.entry 1023#10 = s.entry 1023#10 := by
    rw [hs.entry, if_neg fun hc => ?_]
    have : (1023#10).toNat = 1023 := rfl
    omega
  have hself : s'.vm.space.SelfMapped := by
    refine selfMapped_congr h.selfMapped hs.cr3 ?_
    rw [State.entry, hs.cr3] at h1023
    exact h1023
  have hentry : s'.entry i = s.entry i := by
    rw [hs.entry, if_neg (by omega)]
  have hload := load_entry hself i
  rw [hentry] at hload
  by_cases hp : present (s.entry i) = true
  · have ht := h.tables i (by omega) hp
    have hp' : present (s'.entry i) = true := by rw [hentry, hp]
    have ht' : frame (s'.entry i) ≠ s'.vm.space.cr3 := by
      rw [hentry, hs.cr3]
      exact ht
    obtain ⟨s₁, hs₁, he⟩ := freeSlots_emptied hself hp' ht' regions 512 (by omega)
    rw [hentry] at he
    have hcr₁ : s₁.vm.space.cr3 = s.vm.space.cr3 := he.cr3.trans hs.cr3
    have hdir₁ : ∀ k, s₁.vm.space.mem s.vm.space.cr3 k = s'.vm.space.mem s.vm.space.cr3 k := by
      intro k
      rw [he.mem, if_neg fun hf => ht hf.1.symm]
    obtain ⟨u, hu⟩ : ∃ u, u = s₁.freePage regions (loopbackTbl (i.setWidth 32)) := ⟨_, rfl⟩
    have huvm : u.vm = s₁.vm := by rw [hu]; rfl
    have huself : u.vm.space.SelfMapped := by
      rw [huvm]
      refine selfMapped_congr hself he.cr3 ?_
      rw [hs.cr3, hdir₁]
    have hstore := store_entry huself i 0#32
    rw [huvm, hcr₁] at hstore
    refine ⟨{ u with vm := s₁.vm.write s.vm.space.cr3 i 0#32 }, ?_, hcr₁, fun k => ?_,
      fun f hf k => ?_, fun p => ?_⟩
    · rw [State.freeTable, hload]
      simp only [Option.bind_eq_bind, Option.bind_some, isPresent_eq, hp, Bool.not_true,
        Bool.false_eq_true, if_false, hs₁]
      rw [← hu, hstore]
    · rw [← hs.entry_succ hi hp k, State.entry, State.entry, Vm.write_cr3, hcr₁, hs.cr3,
        Vm.write_mem, PhysMem.write, hdir₁]
      simp only [true_and]
    · show (s₁.vm.write s.vm.space.cr3 i 0#32).space.mem f k = _ ∨ _
      rw [Vm.write_mem, PhysMem.write_of_ne _ _ fun hc => absurd hc hf]
      exact hs.mem_succ hi hp he hf k
    · show bitAt u.bitmaps p = true ↔ _
      rw [hu]
      exact hs.bits_succ hi hp he ht p
  · refine ⟨s', ?_, hs.skip hi hp⟩
    rw [State.freeTable, hload]
    simp only [Option.bind_eq_bind, Option.bind_some, isPresent_eq, hp, Bool.not_false, if_true]

theorem freeTables_swept (regions : List Memory.Region) {s : State} (h : Active s) (n : Nat)
    (hn : n ≤ 512) :
    ∃ s', s.freeTables regions n = some s' ∧ Swept regions s s' n := by
  induction n with
  | zero =>
      refine ⟨s, rfl, rfl, fun i => ?_, fun f _ k => .inl rfl, fun p => ?_⟩
      · rw [if_neg fun hc => Nat.not_lt_zero _ hc.1]
      · exact ⟨fun hb => ⟨hb, fun a ⟨i, hi, _⟩ => absurd hi (Nat.not_lt_zero _)⟩, fun hb => hb.1⟩
  | succ n ih =>
      obtain ⟨s₁, hs₁, hsw⟩ := ih (by omega)
      obtain ⟨s₂, hs₂, hsw'⟩ := hsw.freeTable h (by omega) (i := BitVec.ofNat 10 n)
        (by rw [BitVec.toNat_ofNat, Nat.mod_eq_of_lt (by omega)])
      refine ⟨s₂, ?_, hsw'⟩
      rw [State.freeTables, hs₁, Option.bind_eq_bind, Option.bind_some,
        Vm.ofNat_eq_setWidth (by omega), hs₂]

theorem visited_iff (s : State) (a : Nat) : Visited s a ↔ VisitedBy s 512 a := by
  constructor
  · rintro (⟨i, hi, hp⟩ | ⟨i, j, hi, hp, hj, hpj⟩)
    · exact ⟨i, hi, hp, .inl rfl⟩
    · exact ⟨i, hi, hp, .inr ⟨j, hj, hpj, rfl⟩⟩
  · rintro ⟨i, hi, hp, rfl | ⟨j, hj, hpj, rfl⟩⟩
    · exact .window i hi hp
    · exact .mapped i j hi hp hj hpj

/-- `free_lower_half` returns; it drops the present entries of the lower half and clears the status
    bits of the visited addresses. -/
theorem freeLowerHalf_spec (regions : List Memory.Region) {s : State} (h : Active s) :
    ∃ s', s.freeLowerHalf regions = some s' ∧
      (∀ i, s'.entry i =
        if i.toNat < 512 ∧ present (s.entry i) = true then 0#32 else s.entry i) ∧
      ∀ r k, s'.Allocated r k ↔
        s.Allocated r k ∧ ∀ a, Visited s a → statusBit regions a ≠ some (r.bit k) := by
  obtain ⟨s', hs', hsw⟩ := freeTables_swept regions h 512 (Nat.le_refl _)
  refine ⟨s', hs', hsw.entry, fun r k => ?_⟩
  rw [State.Allocated, hsw.bits, State.Allocated]
  simp only [visited_iff]

/-- `free_lower_half` returns, and it reclaims the lower half exactly if this is possible by the
    addresses that it visits. -/
theorem freeLowerHalf_iff (regions : List Memory.Region) (s : State) (h : Active s) :
    ∃ s', s.freeLowerHalf regions = some s' ∧
      (Reclaimed regions s s' ↔ Reclaimable regions s) := by
  obtain ⟨s', hs', hentry, halloc⟩ := freeLowerHalf_spec regions h
  refine ⟨s', hs', fun hr => ⟨fun i hi hp => ?_, fun r hr' k hk ha hl => ?_,
    fun r hr' k hk ha a hv hb => ?_⟩, fun hr => ⟨fun i hi => ?_, fun i hi => ?_,
    fun r hr' k hk => ?_⟩⟩
  · have := hr.lower i hi
    rw [hentry, hp, if_neg fun hc => Bool.false_ne_true hc.2] at this
    exact this
  · by_contra hnone
    refine (hr.status r hr' k hk).mpr (.inr hl) ((halloc r k).mpr ⟨ha, fun a hv hb => ?_⟩)
    exact hnone ⟨a, hv, hb⟩
  · have hfreed : ¬ s'.Allocated r k := fun ha' => ((halloc r k).mp ha').2 a hv hb
    exact ((hr.status r hr' k hk).mp hfreed).resolve_left fun hn => hn ha
  · rw [hentry]
    cases hp : present (s.entry i) with
    | true => rw [if_pos ⟨hi, rfl⟩]
    | false =>
        rw [if_neg fun hc => Bool.false_ne_true hc.2]
        exact hr.absent i hi hp
  · rw [hentry, if_neg (by omega)]
  · rw [halloc]
    constructor
    · intro hn
      by_cases ha : s.Allocated r k
      · refine .inr ?_
        by_contra hl
        exact hn ⟨ha, fun a hv hb => hl (hr.own r hr' k hk ha a hv hb)⟩
      · exact .inl ha
    · rintro (hn | hl) ⟨ha, hall⟩
      · exact hn ha
      · obtain ⟨a, hv, hb⟩ := hr.reached r hr' k hk ha hl
        exact hall a hv hb

/-! ## A directory with one table -/

/-- Entry 0 names the table on page 2, which maps its own page in slot 0 and page 3 in slot `t`.
    Both pages are allocated. -/
def oneTable (t : BitVec 10) : State where
  vm := {
    space := {
      mem := fun f k =>
        if f = 1#20 then (if k = 0#10 then 0x2003#32 else if k = 1023#10 then 0x1003#32 else 0#32)
        else if f = 2#20 then (if k = 0#10 then 0x2003#32 else if k = t then 0x3003#32 else 0#32)
        else 0#32
      cr3 := 1#20 }
    freePages := []
    pageHeap := ⟨fun _ => 0#32, 0, 0#32⟩ }
  bitmaps := fun _ => 0xFF#8

/-- Pages 2 and 3. -/
def oneRegion : List Memory.Region := [⟨0x2000, 2, 0⟩]

theorem oneTable_entry (t i : BitVec 10) : (oneTable t).entry i =
    if i = 0#10 then 0x2003#32 else if i = 1023#10 then 0x1003#32 else 0#32 := by
  simp [State.entry, oneTable]

theorem oneTable_entry_zero (t : BitVec 10) : (oneTable t).entry 0#10 = 0x2003#32 := by
  rw [oneTable_entry, if_pos rfl]

theorem oneTable_present {t i : BitVec 10} (hi : i.toNat < 512)
    (hp : present ((oneTable t).entry i) = true) : i = 0#10 := by
  by_contra hne
  rw [oneTable_entry, if_neg hne] at hp
  split at hp
  · next he =>
      subst he
      exact absurd hi (by decide)
  · cases hp

theorem oneTable_slot (t j : BitVec 10) : (oneTable t).slot 0#10 j =
    if j = 0#10 then 0x2003#32 else if j = t then 0x3003#32 else 0#32 := by
  have hf : frame 0x2003#32 = 2#20 := by decide
  rw [State.slot, oneTable_entry_zero, hf]
  simp [oneTable]

theorem oneTable_slot_present {t j : BitVec 10} (hp : present ((oneTable t).slot 0#10 j) = true) :
    j = 0#10 ∧ pageOfEntry ((oneTable t).slot 0#10 j) = 0x2000 ∨
      j = t ∧ pageOfEntry ((oneTable t).slot 0#10 j) = 0x3000 := by
  rw [oneTable_slot] at hp ⊢
  by_cases hj : j = 0#10
  · exact .inl ⟨hj, by rw [if_pos hj]; rfl⟩
  · rw [if_neg hj] at hp ⊢
    by_cases hjt : j = t
    · exact .inr ⟨hjt, by rw [if_pos hjt]; rfl⟩
    · rw [if_neg hjt] at hp
      cases hp

theorem oneTable_active (t : BitVec 10) : Active (oneTable t) := by
  have h1023 : (oneTable t).entry 1023#10 = 0x1003#32 := by
    rw [oneTable_entry]
    rfl
  rw [State.entry] at h1023
  refine ⟨⟨?_, ?_⟩, fun i hi hp => ?_⟩
  · rw [h1023]
    decide
  · rw [h1023]
    show _ = 1#20
    decide
  · rw [oneTable_present hi hp, oneTable_entry_zero]
    show _ ≠ 1#20
    decide

theorem oneTable_visited {t : BitVec 10} {a : Nat} (h : Visited (oneTable t) a) :
    a = 0xFFC00000 ∨ a = 0x2000 ∨ a = 0x3000 ∧ t.toNat < 512 := by
  rcases h with ⟨i, hi, hp⟩ | ⟨i, j, hi, hp, hj, hpj⟩
  · rw [oneTable_present hi hp]
    exact .inl rfl
  · obtain rfl := oneTable_present hi hp
    rcases oneTable_slot_present hpj with ⟨-, ha⟩ | ⟨rfl, ha⟩
    · exact .inr (.inl ha)
    · exact .inr (.inr ⟨ha, hj⟩)

theorem oneRegion_page {r : Memory.Region} (hr : r ∈ oneRegion) {k : Nat} (hk : k < r.pgCnt) :
    r = ⟨0x2000, 2, 0⟩ ∧ (k = 0 ∨ k = 1) := by
  obtain rfl := List.mem_singleton.mp hr
  exact ⟨rfl, by simp only at hk; omega⟩

/-- Both pages belong to the lower half. -/
theorem oneTable_lowerPage {t : BitVec 10} (ht : t ≠ 0#10) {r : Memory.Region}
    (hr : r ∈ oneRegion) {k : Nat} (hk : k < r.pgCnt) : LowerPage (oneTable t) (r.page k) := by
  have hp : present ((oneTable t).entry 0#10) = true := by
    rw [oneTable_entry_zero]
    decide
  obtain ⟨rfl, rfl | rfl⟩ := oneRegion_page hr hk
  · have := LowerPage.table (s := oneTable t) 0#10 (by decide) hp
    rwa [oneTable_entry_zero] at this
  · have hslot : (oneTable t).slot 0#10 t = 0x3003#32 := by
      rw [oneTable_slot, if_neg ht, if_pos rfl]
    have := LowerPage.mapped (s := oneTable t) 0#10 t (by decide) hp (by rw [hslot]; rfl)
    rwa [hslot] at this

/-- Where the first half of the table maps both pages, both are freed. -/
theorem freeLowerHalf_iff_oneTable : ∃ s', (oneTable 1#10).freeLowerHalf oneRegion = some s' ∧
    Reclaimed oneRegion (oneTable 1#10) s' := by
  obtain ⟨s', hs', hiff⟩ := freeLowerHalf_iff oneRegion (oneTable 1#10) (oneTable_active _)
  refine ⟨s', hs', hiff.mpr ⟨fun i hi hp => ?_, fun r hr k hk _ _ => ?_,
    fun r hr k hk _ _ _ _ => oneTable_lowerPage (by decide) hr hk⟩⟩
  · rw [oneTable_entry] at hp ⊢
    split
    · next h0 => rw [if_pos h0] at hp; cases hp
    · next h0 =>
        rw [if_neg h0] at hp
        split
        · next h1 => rw [if_pos h1] at hp; cases hp
        · rfl
  · obtain ⟨rfl, rfl | rfl⟩ := oneRegion_page hr hk
    · exact ⟨0x2000, .mapped (s := oneTable 1#10) 0#10 0#10 (by decide) rfl (by decide) rfl, rfl⟩
    · exact ⟨0x3000, .mapped (s := oneTable 1#10) 0#10 1#10 (by decide) rfl (by decide) rfl, rfl⟩

/-- A page that the second half of the table maps stays allocated. -/
theorem second_half_not_freed : ¬ ∀ (regions : List Memory.Region) (s s' : State), Active s →
    s.freeLowerHalf regions = some s' → Reclaimed regions s s' := by
  intro hall
  obtain ⟨s', hs', -, halloc⟩ := freeLowerHalf_spec oneRegion (oneTable_active 512#10)
  have hr := hall _ _ _ (oneTable_active 512#10) hs'
  have hmem : (⟨0x2000, 2, 0⟩ : Memory.Region) ∈ oneRegion := List.mem_singleton.mpr rfl
  have hlower := oneTable_lowerPage (t := 512#10) (by decide) hmem (k := 1) (by decide)
  refine (hr.status _ hmem 1 (by decide)).mpr (.inr hlower) ((halloc _ _).mpr ⟨rfl, ?_⟩)
  intro a ha
  rcases oneTable_visited ha with rfl | rfl | ⟨-, hlt⟩
  · decide
  · decide
  · exact absurd hlt (by decide)

end Muse.Paging.LowerHalf
