import Muse.Library.Counting
import Muse.Library.Transition
import Muse.Sync.Multi

/-!
# Readers and writers of multi-locks

No context writes while another one reads, if no reader arrives in the gap of a release: the last
reader to release counts down to 0 and marks the lock as free in two accesses. A reader that comes
in between still finds the lock marked for readers; then the lock is marked as free under it.

The invariant relates the two words of the lock to how many contexts stand where (`total`).
-/

namespace Muse.Sync

open Muse.Library
open Muse.Scheduler.Machine (lstatWrite)

namespace Multi

variable {n : Nat}

/-- Nobody reads while another context writes. -/
def Exclusive (s : Multi n) : Prop :=
  ∀ c d, c ≠ d → 0 < (s.ctx c).writes → (s.ctx d).reads = 0

/-- The number of readers fits the word that counts them. -/
def HasRoom (s : Multi n) : Prop := s.waitingReaders.toNat + 1 < 2 ^ 32

/-- Nobody stands between the two accesses of a release. -/
def NoneReleasing (s : Multi n) : Prop := ∀ d, (s.ctx d).point ≠ .releaseReadStore

/-- The steps that the lock is made for: a reader that finds the lock marked for readers does not
    come in the gap of a release, and readers are counted in 32 bits. -/
def Safe (s : Multi n) : Fin n × MultiCall → Prop
  | (_, .acquireRead) => s.HasRoom
  | (_, .wait) => s.HasRoom
  | (c, .goOn) =>
      ((s.ctx c).point = .waitPreempted → s.HasRoom) ∧
        ((s.ctx c).point = .acquireReadTest → s.stat = lstatRead → s.NoneReleasing)
  | _ => True

instance (s : Multi n) : Decidable s.HasRoom := inferInstanceAs (Decidable (_ < _))

instance (s : Multi n) : Decidable s.NoneReleasing :=
  inferInstanceAs (Decidable (∀ d, (s.ctx d).point ≠ .releaseReadStore))

instance (s : Multi n) : ∀ op, Decidable (s.Safe op)
  | (_, .acquireRead) => inferInstanceAs (Decidable (HasRoom _))
  | (_, .wait) => inferInstanceAs (Decidable (HasRoom _))
  | (_, .goOn) => inferInstanceAs (Decidable (_ ∧ _))
  | (_, .releaseRead) => inferInstanceAs (Decidable True)
  | (_, .acquireWrite) => inferInstanceAs (Decidable True)
  | (_, .signal) => inferInstanceAs (Decidable True)
  | (_, .releaseWrite) => inferInstanceAs (Decidable True)

/-! ## The invariant -/

/-- The context has been counted as a reader and is still in `lock_multi_acquire_read`. -/
def arriving (x : MultiCtx) : Nat :=
  if x.point = .acquireReadTest ∨ x.point = .acquireReadExchange then 1 else 0

/-- The context has been counted as a reader and is still in `lock_multi_wait`. -/
def waiting (x : MultiCtx) : Nat := if x.point = .waitSpin then 1 else 0

/-- The context is in the gap of a release. -/
def releasing (x : MultiCtx) : Nat := if x.point = .releaseReadStore then 1 else 0

/-- How many contexts stand where. -/
structure Inv (s : Multi n) : Prop where
  count : s.waitingReaders.toNat =
    total MultiCtx.reads s.ctx + total arriving s.ctx + total waiting s.ctx
  readers : s.stat = lstatRead ∨ (total MultiCtx.reads s.ctx = 0 ∧ total releasing s.ctx = 0)
  gap : total releasing s.ctx = 0 ∨ (total releasing s.ctx = 1 ∧
    total MultiCtx.reads s.ctx = 0 ∧ total waiting s.ctx = 0)
  writers : (s.stat = lstatWrite ∧ total MultiCtx.writes s.ctx = 1) ∨
    (s.stat ≠ lstatWrite ∧ total MultiCtx.writes s.ctx = 0)
  signal : ∀ c, (s.ctx c).point = .signalStore → 0 < (s.ctx c).writes

variable {s s' : Multi n} {c : Fin n}

theorem Inv.exclusive (hi : s.Inv) : s.Exclusive := by
  intro c d _ hwrite
  have hw := le_total MultiCtx.writes s.ctx c
  have hr := le_total MultiCtx.reads s.ctx d
  rcases hi.readers with hread | ⟨hnone, -⟩
  · rcases hi.writers with ⟨hstat, -⟩ | ⟨-, hnone⟩
    · rw [hread] at hstat
      exact absurd hstat (by decide)
    · omega
  · omega

/-- What replacing the state of context `c` does to the numbers of the invariant. -/
theorem totals_update (f : Fin n → MultiCtx) (c : Fin n) (x : MultiCtx) :
    (total MultiCtx.reads (Function.update f c x) + (f c).reads = total MultiCtx.reads f + x.reads ∧
      total arriving (Function.update f c x) + arriving (f c) = total arriving f + arriving x ∧
      total waiting (Function.update f c x) + waiting (f c) = total waiting f + waiting x) ∧
    total releasing (Function.update f c x) + releasing (f c) = total releasing f + releasing x ∧
      total MultiCtx.writes (Function.update f c x) + (f c).writes =
        total MultiCtx.writes f + x.writes :=
  ⟨⟨total_update _ f c x, total_update _ f c x, total_update _ f c x⟩, total_update _ f c x,
    total_update _ f c x⟩

/-- The context that takes a step is one of those counted. -/
theorem Inv.signal_update (hi : s.Inv) {x : MultiCtx}
    (hx : x.point = .signalStore → 0 < x.writes) :
    ∀ d, (Function.update s.ctx c x d).point = .signalStore →
      0 < (Function.update s.ctx c x d).writes := by
  intro d hd
  by_cases hdc : d = c
  · subst hdc
    rw [Function.update_self] at hd ⊢
    exact hx hd
  · rw [Function.update_of_ne hdc] at hd ⊢
    exact hi.signal d hd

/-! ## Steps -/

/-- A context that stands where nobody is counted. -/
def Uncounted (x : MultiCtx) : Prop := arriving x = 0 ∧ waiting x = 0 ∧ releasing x = 0

theorem uncounted_of_point {x : MultiCtx} (h : x.point = .running ∨ x.point = .waitPreempted ∨
    x.point = .acquireWriteExchange ∨ x.point = .signalStore) : Uncounted x := by
  rcases h with h | h | h | h <;> simp [Uncounted, arriving, waiting, releasing, h]

section Steps

variable {x : MultiCtx}

/-- A step inside a function that counts nobody in or out. -/
theorem Inv.moved (hi : s.Inv) (hreads : x.reads = (s.ctx c).reads)
    (hwrites : x.writes = (s.ctx c).writes) (harr : arriving x = arriving (s.ctx c))
    (hwait : waiting x = waiting (s.ctx c)) (hrel : releasing x = releasing (s.ctx c))
    (hsig : x.point = .signalStore → 0 < x.writes) : (s.setCtx c x).Inv := by
  obtain ⟨⟨hr, ha, hv⟩, hp, hw⟩ := totals_update s.ctx c x
  have hr' : total MultiCtx.reads (s.setCtx c x).ctx = total MultiCtx.reads s.ctx :=
    total_update_of_eq hreads
  have hp' : total releasing (s.setCtx c x).ctx = total releasing s.ctx := total_update_of_eq hrel
  have hv' : total waiting (s.setCtx c x).ctx = total waiting s.ctx := total_update_of_eq hwait
  have hw' : total MultiCtx.writes (s.setCtx c x).ctx = total MultiCtx.writes s.ctx :=
    total_update_of_eq hwrites
  refine ⟨?_, ?_, ?_, ?_, hi.signal_update hsig⟩
  · have := hi.count
    simp only [setCtx]
    omega
  · rw [hr', hp']
    exact hi.readers
  · rw [hr', hp', hv']
    exact hi.gap
  · rw [hw']
    exact hi.writers

/-- The lock is marked for readers. -/
theorem Inv.markRead (hi : s.Inv) (hstat : s.stat = 0#32) : Inv { s with stat := lstatRead } := by
  obtain ⟨hr, hp⟩ := hi.readers.resolve_left (by rw [hstat]; decide)
  have hw := hi.writers.resolve_left fun h => by
    rw [hstat] at h
    exact absurd h.1 (by decide)
  have hne : lstatRead ≠ lstatWrite := by decide
  exact ⟨hi.count, Or.inl rfl, Or.inl hp, Or.inr ⟨hne, hw.2⟩, hi.signal⟩

/-- A reader that was counted has come in. -/
theorem Inv.tookRead (hi : s.Inv) (hstat : s.stat = lstatRead)
    (hgap : total releasing s.ctx = 0)
    (hold : arriving (s.ctx c) + waiting (s.ctx c) = 1 ∧ releasing (s.ctx c) = 0)
    (hreads : x.reads = (s.ctx c).reads + 1) (hwrites : x.writes = (s.ctx c).writes)
    (hpoint : x.point = .running) : (s.setCtx c x).Inv := by
  obtain ⟨⟨hr, ha, hv⟩, hp, hw⟩ := totals_update s.ctx c x
  obtain ⟨harr, hwait, hrel⟩ := uncounted_of_point (Or.inl hpoint)
  have hw' : total MultiCtx.writes (s.setCtx c x).ctx = total MultiCtx.writes s.ctx :=
    total_update_of_eq hwrites
  refine ⟨?_, Or.inl hstat, Or.inl ?_, ?_, hi.signal_update ?_⟩
  · have := hi.count
    simp only [setCtx]
    omega
  · simp only [setCtx]
    omega
  · rw [hw']
    exact hi.writers
  · intro h
    rw [hpoint] at h
    cases h

/-- A context is counted as a reader. -/
theorem Inv.counted (hi : s.Inv) (hroom : s.HasRoom) (hold : Uncounted (s.ctx c))
    (hreads : x.reads = (s.ctx c).reads) (hwrites : x.writes = (s.ctx c).writes)
    (hpoint : x.point = .acquireReadTest ∨ (x.point = .waitSpin ∧ s.stat ≠ lstatRead)) :
    Inv { s.setCtx c x with waitingReaders := s.waitingReaders + 1#32 } := by
  obtain ⟨⟨hr, ha, hv⟩, hp, hw⟩ := totals_update s.ctx c x
  obtain ⟨harr, hwait, hrel⟩ := hold
  have hone : arriving x + waiting x = 1 ∧ releasing x = 0 := by
    rcases hpoint with h | ⟨h, -⟩ <;> simp [arriving, waiting, releasing, h]
  have hr' : total MultiCtx.reads (s.setCtx c x).ctx = total MultiCtx.reads s.ctx :=
    total_update_of_eq hreads
  have hp' : total releasing (s.setCtx c x).ctx = total releasing s.ctx :=
    total_update_of_eq (by omega)
  have hw' : total MultiCtx.writes (s.setCtx c x).ctx = total MultiCtx.writes s.ctx :=
    total_update_of_eq hwrites
  refine ⟨?_, ?_, ?_, ?_, hi.signal_update ?_⟩
  · have := hi.count
    unfold HasRoom at hroom
    simp only [setCtx, BitVec.toNat_add, BitVec.toNat_ofNat, Nat.reducePow, Nat.reduceMod]
    omega
  · dsimp only
    rw [hr', hp']
    exact hi.readers
  · dsimp only
    rw [hr', hp']
    rcases hpoint with h | ⟨-, hstat⟩
    · have hv' : total waiting (s.setCtx c x).ctx = total waiting s.ctx := by
        have hzero : waiting x = 0 := by simp [waiting, h]
        exact total_update_of_eq (by omega)
      rw [hv']
      exact hi.gap
    · exact Or.inl (hi.readers.resolve_left hstat).2
  · dsimp only
    rw [hw']
    exact hi.writers
  · intro h
    rcases hpoint with h' | ⟨h', -⟩
    · rw [h'] at h
      cases h
    · rw [h'] at h
      cases h

/-- A context counts itself out, and stands in the gap if it was the last one. -/
theorem Inv.releaseRead (hi : s.Inv) (hpos : 0 < (s.ctx c).reads) (hold : Uncounted (s.ctx c))
    (hreads : x.reads = (s.ctx c).reads - 1) (hwrites : x.writes = (s.ctx c).writes)
    (hpoint : x.point =
      if s.waitingReaders - 1#32 = 0#32 then .releaseReadStore else .running) :
    Inv { s.setCtx c x with waitingReaders := s.waitingReaders - 1#32 } := by
  obtain ⟨⟨hr, ha, hv⟩, hp, hw⟩ := totals_update s.ctx c x
  obtain ⟨harr, hwait, hrel⟩ := hold
  have hle := le_total MultiCtx.reads s.ctx c
  have hcount := hi.count
  have hsub : (s.waitingReaders - 1#32).toNat = s.waitingReaders.toNat - 1 := by
    refine BitVec.toNat_sub_of_le ?_
    rw [BitVec.le_def]
    simp only [BitVec.toNat_ofNat, Nat.reducePow, Nat.reduceMod]
    omega
  have hstat : s.stat = lstatRead := hi.readers.resolve_right fun h => by omega
  have hgap : total releasing s.ctx = 0 := hi.gap.resolve_right fun h => by omega
  have hw' : total MultiCtx.writes (s.setCtx c x).ctx = total MultiCtx.writes s.ctx :=
    total_update_of_eq hwrites
  have hzero : s.waitingReaders - 1#32 = 0#32 ↔ s.waitingReaders.toNat = 1 := by
    rw [← BitVec.toNat_inj, hsub]
    simp only [BitVec.toNat_ofNat, Nat.reducePow, Nat.reduceMod]
    omega
  refine ⟨?_, Or.inl hstat, ?_, ?_, hi.signal_update ?_⟩
  · have hx : arriving x = 0 ∧ waiting x = 0 := by
      split at hpoint <;> simp [arriving, waiting, hpoint]
    simp only [setCtx, hsub]
    omega
  · simp only [setCtx]
    by_cases hlast : s.waitingReaders.toNat = 1
    · rw [if_pos (hzero.mpr hlast)] at hpoint
      have hx : waiting x = 0 ∧ releasing x = 1 := by simp [waiting, releasing, hpoint]
      exact Or.inr (by omega)
    · rw [if_neg fun h => hlast (hzero.mp h)] at hpoint
      have hx := uncounted_of_point (Or.inl hpoint)
      exact Or.inl (by have := hx.2.2; omega)
  · dsimp only
    rw [hw']
    exact hi.writers
  · intro h
    rw [h] at hpoint
    split at hpoint <;> cases hpoint

/-- The lock is marked as free at the end of a release. -/
theorem Inv.freed (hi : s.Inv) (hold : (s.ctx c).point = .releaseReadStore)
    (hreads : x.reads = (s.ctx c).reads) (hwrites : x.writes = (s.ctx c).writes)
    (hpoint : x.point = .running) : Inv { s.setCtx c x with stat := 0#32 } := by
  obtain ⟨⟨hr, ha, hv⟩, hp, hw⟩ := totals_update s.ctx c x
  obtain ⟨harr, hwait, hrel⟩ := uncounted_of_point (Or.inl hpoint)
  have hle := le_total releasing s.ctx c
  have hone : arriving (s.ctx c) = 0 ∧ waiting (s.ctx c) = 0 ∧ releasing (s.ctx c) = 1 := by
    simp [arriving, waiting, releasing, hold]
  have hgap := hi.gap.resolve_left (by omega)
  have hstat : s.stat = lstatRead := hi.readers.resolve_right fun h => by omega
  have hnone := hi.writers.resolve_left fun h => by
    rw [hstat] at h
    exact absurd h.1 (by decide)
  have hne : 0#32 ≠ lstatWrite := by decide
  refine ⟨?_, Or.inr ?_, Or.inl ?_, Or.inr ⟨hne, ?_⟩, hi.signal_update ?_⟩
  · have := hi.count
    simp only [setCtx]
    omega
  · simp only [setCtx]
    omega
  · simp only [setCtx]
    omega
  · simp only [setCtx]
    omega
  · intro h
    rw [hpoint] at h
    cases h

/-- A writer takes the lock, or hands it on: `writes` is what the contexts hold for writing. -/
theorem Inv.wrote (hi : s.Inv) (hold : Uncounted (s.ctx c)) {stat : BitVec 32}
    (hnone : total MultiCtx.reads s.ctx = 0 ∧ total releasing s.ctx = 0)
    (hreads : x.reads = (s.ctx c).reads) (hpoint : x.point = .running)
    (hwriters : (stat = lstatWrite ∧ total MultiCtx.writes s.ctx + x.writes =
        1 + (s.ctx c).writes) ∨
      (stat ≠ lstatWrite ∧ total MultiCtx.writes s.ctx + x.writes = (s.ctx c).writes)) :
    Inv { s.setCtx c x with stat } := by
  obtain ⟨⟨hr, ha, hv⟩, hp, hw⟩ := totals_update s.ctx c x
  obtain ⟨harr, hwait, hrel⟩ := hold
  obtain ⟨harr', hwait', hrel'⟩ := uncounted_of_point (Or.inl hpoint)
  refine ⟨?_, Or.inr ?_, Or.inl ?_, hwriters.imp (fun h => ⟨h.1, ?_⟩) fun h => ⟨h.1, ?_⟩,
    hi.signal_update ?_⟩
  · have := hi.count
    simp only [setCtx]
    omega
  · simp only [setCtx]
    omega
  · simp only [setCtx]
    omega
  · simp only [setCtx]
    omega
  · simp only [setCtx]
    omega
  · intro h
    rw [hpoint] at h
    cases h

theorem Inv.acquireWriteRound (hi : s.Inv) (hold : Uncounted (s.ctx c)) :
    (s.acquireWriteRound c).Inv := by
  unfold Multi.acquireWriteRound
  split
  next hstat =>
    have hnone := hi.readers.resolve_left (by rw [hstat]; decide)
    have hwrites := hi.writers.resolve_left fun h => by
      rw [hstat] at h
      exact absurd h.1 (by decide)
    refine hi.wrote hold hnone rfl rfl (Or.inl ⟨rfl, ?_⟩)
    rw [hwrites.2]
    simp only
    omega
  next =>
    exact hi.moved rfl rfl hold.1.symm hold.2.1.symm hold.2.2.symm fun h => by cases h

theorem Inv.gaveWrite (hi : s.Inv) (hold : Uncounted (s.ctx c)) (hpos : 0 < (s.ctx c).writes)
    {stat : BitVec 32} (hstat : stat ≠ lstatWrite) : (s.gaveWrite c stat).Inv := by
  have hle := le_total MultiCtx.writes s.ctx c
  obtain ⟨hwrite, hone⟩ := hi.writers.resolve_right fun h => by omega
  have hnone := hi.readers.resolve_left (by rw [hwrite]; decide)
  refine hi.wrote hold hnone rfl rfl (Or.inr ⟨hstat, ?_⟩)
  simp only
  omega

theorem Inv.waitRound (hi : s.Inv) (hold : Uncounted (s.ctx c)) (hroom : s.HasRoom) :
    (s.waitRound c).Inv := by
  unfold Multi.waitRound
  split
  next =>
    exact hi.moved rfl rfl hold.1.symm hold.2.1.symm hold.2.2.symm fun h => by cases h
  next hstat => exact hi.counted hroom hold rfl rfl (Or.inr ⟨rfl, hstat⟩)

theorem Inv.goOn (hi : s.Inv) (hsafe : s.Safe (c, .goOn)) (hstep : s.goOn c = some s') :
    s'.Inv := by
  obtain ⟨hroom, hgap⟩ := hsafe
  unfold Multi.goOn at hstep
  cases hpoint : (s.ctx c).point with
  | running =>
      rw [hpoint] at hstep
      cases hstep
  | acquireReadTest =>
      rw [hpoint] at hstep
      dsimp only at hstep
      split at hstep
      next hstat =>
        obtain rfl := Option.some.inj hstep
        have hnone : total releasing s.ctx = 0 := by
          refine total_eq_zero fun d => ?_
          rw [releasing, if_neg (hgap hpoint hstat d)]
        exact hi.tookRead hstat hnone (by simp [arriving, waiting, releasing, hpoint]) rfl rfl rfl
      next =>
        obtain rfl := Option.some.inj hstep
        refine hi.moved rfl rfl ?_ ?_ ?_ fun h => by cases h
        · simp [arriving, hpoint]
        · simp [waiting, hpoint]
        · simp [releasing, hpoint]
  | acquireReadExchange =>
      rw [hpoint] at hstep
      dsimp only at hstep
      split at hstep
      next hstat =>
        obtain rfl := Option.some.inj hstep
        have hnone := (hi.readers.resolve_left (by rw [hstat]; decide)).2
        exact (hi.markRead hstat).tookRead rfl hnone
          (by simp [arriving, waiting, releasing, hpoint]) rfl rfl rfl
      next =>
        obtain rfl := Option.some.inj hstep
        refine hi.moved rfl rfl ?_ ?_ ?_ fun h => by cases h
        · simp [arriving, hpoint]
        · simp [waiting, hpoint]
        · simp [releasing, hpoint]
  | waitPreempted =>
      rw [hpoint] at hstep
      obtain rfl := Option.some.inj hstep
      exact hi.waitRound (uncounted_of_point (by simp [hpoint])) (hroom hpoint)
  | waitSpin =>
      rw [hpoint] at hstep
      dsimp only at hstep
      split at hstep
      next hstat =>
        obtain rfl := Option.some.inj hstep
        -- a context that was counted before a release keeps it from being the last one
        have hle := le_total waiting s.ctx c
        have hone : waiting (s.ctx c) = 1 := by simp [waiting, hpoint]
        have hnone : total releasing s.ctx = 0 := hi.gap.resolve_right fun h => by omega
        exact hi.tookRead hstat hnone (by simp [arriving, waiting, releasing, hpoint]) rfl rfl rfl
      next =>
        obtain rfl := Option.some.inj hstep
        exact hi
  | releaseReadStore =>
      rw [hpoint] at hstep
      obtain rfl := Option.some.inj hstep
      exact hi.freed hpoint rfl rfl rfl
  | acquireWriteExchange =>
      rw [hpoint] at hstep
      obtain rfl := Option.some.inj hstep
      exact hi.acquireWriteRound (uncounted_of_point (by simp [hpoint]))
  | signalStore =>
      rw [hpoint] at hstep
      dsimp only at hstep
      have hold : Uncounted (s.ctx c) := uncounted_of_point (by simp [hpoint])
      split at hstep
      next =>
        obtain rfl := Option.some.inj hstep
        exact hi.gaveWrite hold (hi.signal c hpoint) (by decide)
      next =>
        obtain rfl := Option.some.inj hstep
        exact hi.gaveWrite hold (hi.signal c hpoint) (by decide)

theorem step_inv (hi : s.Inv) {op : Fin n × MultiCall} (hok : s.Allowed op ∧ s.Safe op)
    (hstep : s.step op = some s') : s'.Inv := by
  obtain ⟨c, call⟩ := op
  obtain ⟨hallowed, hsafe⟩ := hok
  cases call with
  | acquireRead =>
      obtain rfl := Option.some.inj hstep
      exact hi.counted hsafe (uncounted_of_point (Or.inl hallowed)) rfl rfl (Or.inl rfl)
  | wait =>
      obtain rfl := Option.some.inj hstep
      exact hi.waitRound (uncounted_of_point (Or.inl hallowed)) hsafe
  | releaseRead =>
      obtain rfl := Option.some.inj hstep
      exact hi.releaseRead hallowed.2 (uncounted_of_point (Or.inl hallowed.1)) rfl rfl rfl
  | acquireWrite =>
      obtain rfl := Option.some.inj hstep
      exact hi.acquireWriteRound (uncounted_of_point (Or.inl hallowed))
  | signal =>
      obtain rfl := Option.some.inj hstep
      obtain ⟨harr, hwait, hrel⟩ := uncounted_of_point (Or.inl hallowed.1)
      exact hi.moved rfl rfl harr.symm hwait.symm hrel.symm fun _ => hallowed.2
  | releaseWrite =>
      obtain rfl := Option.some.inj hstep
      exact hi.gaveWrite (uncounted_of_point (Or.inl hallowed.1)) hallowed.2 (by decide)
  | goOn => exact hi.goOn hsafe hstep

end Steps

/-! ## Runs -/

theorem initial_inv (n : Nat) : (initial n).Inv where
  count := by
    rw [total_eq_zero (f := (initial n).ctx) fun _ => rfl,
      total_eq_zero (f := (initial n).ctx) fun _ => rfl,
      total_eq_zero (f := (initial n).ctx) fun _ => rfl]
    rfl
  readers := Or.inr ⟨total_eq_zero fun _ => rfl, total_eq_zero fun _ => rfl⟩
  gap := Or.inl (total_eq_zero fun _ => rfl)
  writers := Or.inr ⟨show 0#32 ≠ lstatWrite by decide, total_eq_zero fun _ => rfl⟩
  signal := fun _ h => by cases h

/-- In every run of `n` contexts whose steps are safe, nobody reads while another context writes. -/
theorem multi_exclusive {n : Nat} {s : Multi n}
    (hr : Reaches step (fun s op => s.Allowed op ∧ s.Safe op) (initial n) s) : s.Exclusive :=
  (hr.invariant (initial_inv n) fun _ _ _ hi hok hstep => step_inv hi hok hstep).exclusive

/-- Context 1 waits until context 0 has written and signals, and reads. -/
theorem multi_exclusive_signal :
    ∃ s : Multi 2, Reaches step (fun s op => s.Allowed op ∧ s.Safe op) (initial 2) s ∧
      (s.ctx 1).reads = 1 ∧ s.Exclusive := by
  have hrun : (runChecked step (fun s op => s.Allowed op ∧ s.Safe op) (initial 2)
      [(0, .acquireWrite), (1, .wait), (1, .goOn), (0, .signal), (0, .goOn), (1, .goOn)]).any
      (fun s => decide ((s.ctx 1).reads = 1)) = true := by decide +kernel
  obtain ⟨s, hr, hs⟩ := exists_reaches_of_any hrun
  exact ⟨s, hr, of_decide_eq_true hs, multi_exclusive hr⟩

/-- Context 1 comes to read while context 0, the last reader, releases; then context 2 gets to
    write. -/
theorem multi_not_exclusive :
    ¬ ∀ (n : Nat) (s : Multi n), Reaches step Allowed (initial n) s → s.Exclusive := by
  intro hall
  have hrun : (runChecked step Allowed (initial 3)
      [(0, .acquireRead), (0, .goOn), (0, .goOn), (0, .releaseRead), (1, .acquireRead), (1, .goOn),
        (0, .goOn), (2, .acquireWrite)]).any
      (fun s => decide (0 < (s.ctx 2).writes ∧ (s.ctx 1).reads = 1)) = true := by decide +kernel
  obtain ⟨s, hr, hs⟩ := exists_reaches_of_any hrun
  obtain ⟨hwrite, hread⟩ := of_decide_eq_true hs
  rw [hall 3 s hr 2 1 (by decide) hwrite] at hread
  cases hread

end Multi

end Muse.Sync
