import Muse.Sync.Reentrant

/-!
# Mutual exclusion of reentrant locks

At most one context holds a reentrant lock, if contexts can be told from each other and from nobody:
the id of the first context is 0, which is also the owner of a free lock. While that context holds
the lock, any other one gets it too. Apart from that, ids are given out only once in 32 bits, and
the nesting depth is counted in 32 bits.
-/

namespace Muse.Sync

open Muse.Library Muse.Scheduler

namespace Reentrant

/-- Mutual exclusion. -/
structure Exclusive (s : Reentrant) : Prop where
  one : ∀ c d, 0 < s.surplus c → 0 < s.surplus d → c = d
  owner : ∀ c, 0 < s.surplus c → s.lock.owner = s.id c
  cnt : ∀ c, 0 < s.surplus c → s.lock.cnt.toNat = s.surplus c

/-- Context `c` does not try to get the lock while another context with the id 0 holds it, and does
    not nest deeper than 32 bits count. -/
def SafeTry (s : Reentrant) (c : Nat) : Prop :=
  (s.id c ≠ 0#32 → ∀ d < s.created, s.id d = 0#32 → s.surplus d = 0) ∧ s.surplus c + 1 < 2 ^ 32

/-- The steps that the lock is made for. -/
def Safe (s : Reentrant) : Op → Prop
  | .createContext => s.created < 2 ^ 32
  | .acquire c => s.SafeTry c
  | .retry c => s.SafeTry c
  | .release _ => True

instance (s : Reentrant) (c : Nat) : Decidable (s.SafeTry c) := inferInstanceAs (Decidable (_ ∧ _))

instance (s : Reentrant) : ∀ op, Decidable (s.Safe op)
  | .createContext => inferInstanceAs (Decidable (_ < _))
  | .acquire _ => inferInstanceAs (Decidable (SafeTry _ _))
  | .retry _ => inferInstanceAs (Decidable (SafeTry _ _))
  | .release _ => inferInstanceAs (Decidable True)

/-- Nobody holds the lock. -/
structure Free (s : Reentrant) : Prop where
  none : ∀ c, s.surplus c = 0
  owner : s.lock.owner = 0#32
  cnt : s.lock.cnt = 0#32

/-- Context `h` holds the lock, and nobody else. -/
structure HeldBy (s : Reentrant) (h : Nat) : Prop where
  created : h < s.created
  pos : 0 < s.surplus h
  lt : s.surplus h < 2 ^ 32
  others : ∀ c, c ≠ h → s.surplus c = 0
  owner : s.lock.owner = s.id h
  cnt : s.lock.cnt = BitVec.ofNat 32 (s.surplus h)

/-- The ids are the numbers of the contexts, and a context that waits does not hold the lock. -/
structure Inv (s : Reentrant) : Prop where
  created_le : s.created ≤ 2 ^ 32
  ctxId : s.ctxId = BitVec.ofNat 32 s.created
  id : ∀ c < s.created, s.id c = BitVec.ofNat 32 c
  waiting : ∀ c, s.waiting c = true → s.surplus c = 0
  lock : s.Free ∨ ∃ h, s.HeldBy h

variable {s s' : Reentrant} {c h : Nat}

theorem Inv.exclusive (hi : s.Inv) : s.Exclusive := by
  rcases hi.lock with hfree | ⟨h, hheld⟩
  · have none : ∀ c, ¬ 0 < s.surplus c := fun c hc => by
      rw [hfree.none c] at hc
      exact Nat.lt_irrefl 0 hc
    exact ⟨fun c _ hc => absurd hc (none c), fun c hc => absurd hc (none c),
      fun c hc => absurd hc (none c)⟩
  · have only : ∀ c, 0 < s.surplus c → c = h := by
      intro c hc
      by_contra hne
      rw [hheld.others c hne] at hc
      exact Nat.lt_irrefl 0 hc
    refine ⟨?_, ?_, ?_⟩
    · intro c d hc hd
      rw [only c hc, only d hd]
    · intro c hc
      rw [only c hc]
      exact hheld.owner
    · intro c hc
      rw [only c hc, hheld.cnt, BitVec.toNat_ofNat]
      exact Nat.mod_eq_of_lt hheld.lt

/-- Different contexts have different ids. -/
theorem Inv.id_inj (hi : s.Inv) {c d : Nat} (hc : c < s.created) (hd : d < s.created)
    (heq : s.id c = s.id d) : c = d := by
  have hle := hi.created_le
  rw [hi.id c hc, hi.id d hd] at heq
  have := congrArg BitVec.toNat heq
  rwa [BitVec.toNat_ofNat, BitVec.toNat_ofNat, Nat.mod_eq_of_lt (by omega),
    Nat.mod_eq_of_lt (by omega)] at this

/-- After an acquire of context `c` that nobody else holds the lock with. -/
theorem Inv.took (hi : s.Inv) (hc : c < s.created) {lock : LockReentrant}
    (hothers : ∀ d, d ≠ c → s.surplus d = 0) (hlt : s.surplus c + 1 < 2 ^ 32)
    (howner : lock.owner = s.id c) (hcnt : lock.cnt = BitVec.ofNat 32 (s.surplus c + 1)) :
    (s.took c lock).Inv where
  created_le := hi.created_le
  ctxId := hi.ctxId
  id := hi.id
  waiting := by
    intro d hd
    have hne : d ≠ c := by
      rintro rfl
      simp [Reentrant.took] at hd
    simpa [Reentrant.took, hne] using hothers d hne
  lock := by
    refine Or.inr ⟨c, hc, ?_, ?_, ?_, howner, ?_⟩
    · simp [Reentrant.took]
    · simpa [Reentrant.took] using hlt
    · intro d hd
      simpa [Reentrant.took, hd] using hothers d hd
    · simpa [Reentrant.took] using hcnt

/-- A round of the loop that gets the lock. -/
theorem Inv.tried (hi : s.Inv) (hc : c < s.created) (hsafe : s.SafeTry c)
    (hnot : s.surplus c = 0) {lock : LockReentrant}
    (htry : reentrantTry s.lock (s.id c) = some lock) : (s.took c lock).Inv := by
  unfold reentrantTry at htry
  split at htry
  next howner =>
    obtain rfl := Option.some.inj htry
    refine hi.took hc ?_ hsafe.2 rfl (by rw [hnot])
    intro d hd
    rcases hi.lock with hfree | ⟨h, hheld⟩
    · exact hfree.none d
    · by_cases hdh : d = h
      · -- the owner is 0, so the holder is the context with the id 0
        subst hdh
        have hzero : s.id d = 0#32 := by rw [← hheld.owner, howner]
        refine hsafe.1 ?_ d hheld.created hzero
        intro hid
        exact hd (hi.id_inj hheld.created hc (by rw [hzero, hid]))
      · exact hheld.others d hdh
  next => cases htry

/-- A context more, with the next id. -/
theorem Inv.createContext (hi : s.Inv) (hsafe : s.created < 2 ^ 32)
    (hstep : s.step .createContext = some s') : s'.Inv := by
  obtain rfl := Option.some.inj hstep
  have hid : ∀ c < s.created, Function.update s.id s.created s.ctxId c = s.id c := by
    intro c hc
    rw [Function.update_of_ne (by omega)]
  refine ⟨hsafe, ?_, ?_, hi.waiting, ?_⟩
  · simp only [hi.ctxId, BitVec.ofNat_add]
  · intro c hc
    rcases Nat.lt_succ_iff_lt_or_eq.mp hc with hlt | rfl
    · exact (hid c hlt).trans (hi.id c hlt)
    · simp only [Function.update_self, hi.ctxId]
  · rcases hi.lock with hfree | ⟨h, hheld⟩
    · exact Or.inl ⟨hfree.none, hfree.owner, hfree.cnt⟩
    · exact Or.inr ⟨h, Nat.lt_succ_of_lt hheld.created, hheld.pos, hheld.lt, hheld.others,
        hheld.owner.trans (hid h hheld.created).symm, hheld.cnt⟩

theorem Inv.acquire (hi : s.Inv) (hallowed : s.Allowed (.acquire c)) (hsafe : s.SafeTry c)
    (hstep : s.step (.acquire c) = some s') : s'.Inv := by
  obtain ⟨hc, hwait⟩ := hallowed
  rw [step] at hstep
  by_cases howner : s.lock.owner = s.id c
  · -- the context holds the lock already, or nobody does and its id is 0
    simp only [lockReentrantAcquire, if_pos howner] at hstep
    obtain rfl := Option.some.inj hstep
    rcases hi.lock with hfree | ⟨h, hheld⟩
    · refine hi.took hc (fun d _ => hfree.none d) hsafe.2 howner ?_
      simp [hfree.cnt, hfree.none c]
    · obtain rfl : h = c := hi.id_inj hheld.created hc (hheld.owner.symm.trans howner)
      refine hi.took hc hheld.others hsafe.2 howner ?_
      simp only [hheld.cnt, BitVec.ofNat_add]
  · have hnot : s.surplus c = 0 := by
      rcases hi.lock with hfree | ⟨h, hheld⟩
      · exact hfree.none c
      · refine hheld.others c ?_
        rintro rfl
        exact howner hheld.owner
    simp only [lockReentrantAcquire, if_neg howner] at hstep
    cases htry : reentrantTry s.lock (s.id c) with
    | some lock =>
        rw [htry] at hstep
        obtain rfl := Option.some.inj hstep
        exact hi.tried hc hsafe hnot htry
    | none =>
        rw [htry] at hstep
        obtain rfl := Option.some.inj hstep
        refine ⟨hi.created_le, hi.ctxId, hi.id, ?_, ?_⟩
        · intro d hd
          by_cases hdc : d = c
          · exact hdc ▸ hnot
          · exact hi.waiting d (by simpa [hdc] using hd)
        · rcases hi.lock with hfree | ⟨h, hheld⟩
          · exact Or.inl ⟨hfree.none, hfree.owner, hfree.cnt⟩
          · exact Or.inr ⟨h, hheld.created, hheld.pos, hheld.lt, hheld.others, hheld.owner,
              hheld.cnt⟩

theorem Inv.retry (hi : s.Inv) (hallowed : s.Allowed (.retry c)) (hsafe : s.SafeTry c)
    (hstep : s.step (.retry c) = some s') : s'.Inv := by
  obtain ⟨hc, hwait⟩ := hallowed
  rw [step] at hstep
  cases htry : reentrantTry s.lock (s.id c) with
  | some lock =>
      rw [htry] at hstep
      obtain rfl := Option.some.inj hstep
      exact hi.tried hc hsafe (hi.waiting c hwait) htry
  | none =>
      rw [htry] at hstep
      obtain rfl := Option.some.inj hstep
      exact hi

/-- The holder counts down, and the last one of its releases frees the lock. -/
theorem Inv.release (hi : s.Inv) (hallowed : s.Allowed (.release c))
    (hstep : s.step (.release c) = some s') : s'.Inv := by
  obtain ⟨hc, hwait, hpos⟩ := hallowed
  obtain rfl := Option.some.inj hstep
  obtain ⟨h, hheld⟩ : ∃ h, s.HeldBy h := by
    refine hi.lock.resolve_left fun hfree => ?_
    rw [hfree.none c] at hpos
    exact Nat.lt_irrefl 0 hpos
  obtain rfl : c = h := by
    by_contra hne
    rw [hheld.others c hne] at hpos
    exact Nat.lt_irrefl 0 hpos
  have hlt := hheld.lt
  have hcnt : s.lock.cnt - 1#32 = BitVec.ofNat 32 (s.surplus c - 1) := by
    apply BitVec.eq_of_toNat_eq
    rw [hheld.cnt, BitVec.toNat_sub, BitVec.toNat_ofNat, BitVec.toNat_ofNat, BitVec.toNat_ofNat]
    omega
  refine ⟨hi.created_le, hi.ctxId, hi.id, ?_, ?_⟩
  · intro d hd
    by_cases hdc : d = c
    · subst hdc
      rw [hwait] at hd
      cases hd
    · simpa [hdc] using hi.waiting d hd
  · by_cases hlast : s.surplus c = 1
    · refine Or.inl ⟨?_, ?_, ?_⟩
      · intro d
        by_cases hdc : d = c
        · simp [hdc, hlast]
        · simpa [hdc] using hheld.others d hdc
      · simp [lockReentrantRelease, hcnt, hlast]
      · simp [lockReentrantRelease, hcnt, hlast]
    · have hne : s.lock.cnt - 1#32 ≠ 0#32 := by
        intro h0
        have := congrArg BitVec.toNat (hcnt.symm.trans h0)
        rw [BitVec.toNat_ofNat, BitVec.toNat_ofNat] at this
        omega
      refine Or.inr ⟨c, hc, ?_, ?_, ?_, ?_, ?_⟩
      · simp only [Function.update_self]
        omega
      · simp only [Function.update_self]
        omega
      · intro d hd
        simpa [hd] using hheld.others d hd
      · simp only [lockReentrantRelease, if_neg hne]
        exact hheld.owner
      · simp only [lockReentrantRelease, if_neg hne, Function.update_self]
        exact hcnt

theorem step_inv (hi : s.Inv) {op : Op} (hok : s.Allowed op ∧ s.Safe op)
    (hstep : s.step op = some s') : s'.Inv := by
  obtain ⟨hallowed, hsafe⟩ := hok
  cases op with
  | createContext => exact hi.createContext hsafe hstep
  | acquire c => exact hi.acquire hallowed hsafe hstep
  | retry c => exact hi.retry hallowed hsafe hstep
  | release c => exact hi.release hallowed hstep

theorem initial_inv : initial.Inv where
  created_le := by decide
  ctxId := rfl
  id := by
    intro c hc
    obtain rfl : c = 0 := Nat.lt_one_iff.mp hc
    rfl
  waiting := fun _ _ => rfl
  lock := Or.inl ⟨fun _ => rfl, rfl, rfl⟩

/-- In every run whose steps are safe, at most one context holds the lock, and the lock names it and
    counts how often. -/
theorem reentrant_exclusive
    (hr : Reaches step (fun s op => s.Allowed op ∧ s.Safe op) initial s) : s.Exclusive :=
  (hr.invariant initial_inv fun _ _ _ hi hok hstep => step_inv hi hok hstep).exclusive

/-- The second context takes the lock twice, the first one waits for it and gets it. -/
theorem reentrant_exclusive_handover :
    ∃ s, Reaches step (fun s op => s.Allowed op ∧ s.Safe op) initial s ∧ s.surplus 0 = 1 ∧
      s.Exclusive := by
  have hrun : (runChecked step (fun s op => s.Allowed op ∧ s.Safe op) initial
      [.createContext, .acquire 1, .acquire 1, .acquire 0, .release 1, .retry 0, .release 1,
        .retry 0]).any (fun s => decide (s.surplus 0 = 1)) = true := by decide +kernel
  obtain ⟨s, hr, hs⟩ := exists_reaches_of_any hrun
  exact ⟨s, hr, of_decide_eq_true hs, reentrant_exclusive hr⟩

/-- The first context takes the lock, and the second one takes it too. -/
theorem reentrant_not_exclusive : ¬ ∀ s, Reaches step Allowed initial s → s.Exclusive := by
  intro hall
  have hrun : (runChecked step Allowed initial [.createContext, .acquire 0, .acquire 1]).any
      (fun s => decide (0 < s.surplus 0 ∧ 0 < s.surplus 1)) = true := by decide +kernel
  obtain ⟨s, hr, hs⟩ := exists_reaches_of_any hrun
  obtain ⟨h0, h1⟩ := of_decide_eq_true hs
  exact absurd ((hall s hr).one 0 1 h0 h1) (by decide)

end Reentrant

end Muse.Sync
