import Muse.Library.Counting
import Muse.Library.Transition
import Muse.Scheduler.Runway

/-!
# Tasks start at their own entry points

`runway_lock` is held from the moment an entry point is stored in `userspace_runway` until the new
context releases it in `enter_ring3`, but `jump_ring3` reads `userspace_runway` only after that,
with interrupts on. If no other entry point is stored in that gap, every task starts where it
should.
-/

namespace Muse.Scheduler

open Muse.Library

namespace Runway

variable {n : Nat}

/-- Every context that has jumped used the entry point that was loaded for it. -/
def OwnEntry (s : Runway n) : Prop :=
  ∀ c v, (s.ctx c).jumped = some v → v = (s.ctx c).entry

/-- An entry point is stored only while no context stands between its release of the lock and its
    jump. -/
def Safe (s : Runway n) : Op n → Prop
  | .goOn => (s.ctx s.active).point.isAcquired → ∀ d, (s.ctx d).point ≠ .released
  | _ => True

instance (s : Runway n) : ∀ op, Decidable (s.Safe op)
  | .goOn => inferInstanceAs (Decidable (_ → _))
  | .loadElfUser _ => inferInstanceAs (Decidable True)
  | .createContext _ => inferInstanceAs (Decidable True)
  | .preempt _ => inferInstanceAs (Decidable True)
  | .timer _ => inferInstanceAs (Decidable True)

/-! ## The invariant -/

/-- The context holds `runway_lock`, or will release it when it starts. -/
def holding (x : RunwayCtx) : Nat :=
  match x.point with
  | .acquired _ => 1
  | .loaded _ => 1
  | .atEntry => 1
  | .entered => 1
  | _ => 0

/-- The entry point that the context counts on is in `userspace_runway`. -/
def Awaits (runway : BitVec 32) (x : RunwayCtx) : Prop :=
  match x.point with
  | .loaded entry => runway = entry
  | .atEntry => runway = x.entry
  | .entered => runway = x.entry
  | .released => runway = x.entry
  | _ => True

/-- What holds of every context. -/
structure Pending (runway : BitVec 32) (x : RunwayCtx) : Prop where
  awaits : Awaits runway x
  jumped : ∀ v, x.jumped = some v → v = x.entry

/-- A context that neither holds the lock nor is about to jump counts on nothing. -/
theorem awaits_of_not_holding {x : RunwayCtx} (hhold : holding x = 0)
    (hpoint : x.point ≠ .released) (runway : BitVec 32) : Awaits runway x := by
  obtain ⟨point, interrupted, entry, jumped⟩ := x
  cases point with
  | loaded e => cases hhold
  | atEntry => cases hhold
  | entered => cases hhold
  | released => exact absurd rfl hpoint
  | _ => trivial

/-- The lock is held by at most one context, and `userspace_runway` is that context's. -/
structure Inv (stat runway : BitVec 32) (ctx : Fin n → RunwayCtx) : Prop where
  lock : stat ≠ 0#32 ∨ total holding ctx = 0
  one : total holding ctx ≤ 1
  pending : ∀ c, Pending runway (ctx c)

variable {stat runway : BitVec 32} {ctx : Fin n → RunwayCtx} {c : Fin n} {x : RunwayCtx}

theorem Inv.pending_update (hi : Inv stat runway ctx) (hx : Pending runway x) :
    ∀ d, Pending runway (Function.update ctx c x d) := by
  intro d
  by_cases hd : d = c
  · subst hd
    rw [Function.update_self]
    exact hx
  · rw [Function.update_of_ne hd]
    exact hi.pending d

/-- A step that has nothing to do with the lock. -/
theorem Inv.moved (hi : Inv stat runway ctx) (hhold : holding x = holding (ctx c))
    (hx : Pending runway x) : Inv stat runway (Function.update ctx c x) := by
  have htotal := total_update holding ctx c x
  have hsame : total holding (Function.update ctx c x) = total holding ctx := by omega
  refine ⟨?_, ?_, hi.pending_update hx⟩
  · rw [hsame]
    exact hi.lock
  · rw [hsame]
    exact hi.one

/-- The lock is taken. -/
theorem Inv.acquired (hi : Inv stat runway ctx) (hfree : stat = 0#32) (hold : holding (ctx c) = 0)
    (hnew : holding x = 1) (hx : Pending runway x) :
    Inv Machine.lstatWrite runway (Function.update ctx c x) := by
  have htotal := total_update holding ctx c x
  have hzero := hi.lock.resolve_left fun h => h hfree
  exact ⟨Or.inl (by decide), by omega, hi.pending_update hx⟩

/-- An entry point is stored, by the context that holds the lock. -/
theorem Inv.stored (hi : Inv stat runway ctx) {entry : BitVec 32}
    (hold : (ctx c).point = .acquired entry) (hnone : ∀ d, (ctx d).point ≠ .released) :
    Inv stat entry (Function.update ctx c { ctx c with point := .loaded entry }) := by
  have hone : holding (ctx c) = 1 := by simp [holding, hold]
  have htotal := total_update holding ctx c { ctx c with point := .loaded entry }
  have hnew : holding { ctx c with point := .loaded entry } = 1 := rfl
  have hsame : total holding (Function.update ctx c { ctx c with point := .loaded entry }) =
      total holding ctx := by omega
  refine ⟨?_, ?_, ?_⟩
  · rw [hsame]
    exact hi.lock
  · rw [hsame]
    exact hi.one
  · intro d
    by_cases hd : d = c
    · subst hd
      rw [Function.update_self]
      exact ⟨rfl, (hi.pending d).jumped⟩
    · -- nobody else waits for an entry point
      have hle := add_le_total holding ctx hd
      have hle' := hi.one
      have hzero : holding (ctx d) = 0 := by omega
      rw [Function.update_of_ne hd]
      exact ⟨awaits_of_not_holding hzero (hnone d) entry, (hi.pending d).jumped⟩

/-- The lock is released by the context that was started. -/
theorem Inv.freed (hi : Inv stat runway ctx) (hold : holding (ctx c) = 1) (hnew : holding x = 0)
    (hx : Pending runway x) : Inv 0#32 runway (Function.update ctx c x) := by
  have htotal := total_update holding ctx c x
  have hone := hi.one
  exact ⟨Or.inr (by omega), by omega, hi.pending_update hx⟩

/-! ## Steps -/

variable {s s' : Runway n}

/-- The invariant in a state. -/
def Good (s : Runway n) : Prop := Inv s.stat s.userspaceRunway s.ctx

@[simp] theorem lockScheduler_good : s.lockScheduler.Good ↔ s.Good := Iff.rfl

@[simp] theorem unlockScheduler_good : s.unlockScheduler.Good ↔ s.Good := Iff.rfl

theorem Good.switchTo (h : s.Good) (d : Fin n) : (s.switchTo d).Good := by
  have hd : Pending s.userspaceRunway (s.ctx d) := h.pending d
  unfold Runway.switchTo
  dsimp only
  split
  next =>
    rw [unlockScheduler_good]
    exact h.moved rfl ⟨hd.awaits, hd.jumped⟩
  next =>
    split
    next hpoint =>
      rw [unlockScheduler_good]
      have hentry := hd.awaits
      simp only [Awaits, hpoint] at hentry
      refine h.moved ?_ ⟨hentry, hd.jumped⟩
      simp [holding, hpoint]
    next => exact h

theorem Good.goOn (h : s.Good) (hsafe : s.Safe .goOn) (hstep : s.goOn = some s') : s'.Good := by
  have hc : Pending s.userspaceRunway (s.ctx s.active) := h.pending s.active
  unfold Runway.goOn at hstep
  cases hpoint : (s.ctx s.active).point with
  | acquiring entry =>
      rw [hpoint] at hstep
      dsimp only at hstep
      split at hstep
      next hfree =>
        obtain rfl := Option.some.inj hstep
        exact h.acquired hfree (by simp [holding, hpoint]) rfl ⟨trivial, hc.jumped⟩
      next =>
        obtain rfl := Option.some.inj hstep
        exact h
  | acquired entry =>
      rw [hpoint] at hstep
      obtain rfl := Option.some.inj hstep
      exact h.stored hpoint (hsafe (by rw [hpoint]; rfl))
  | created =>
      rw [hpoint] at hstep
      obtain rfl := Option.some.inj hstep
      rw [unlockScheduler_good]
      exact h.moved (by simp [holding, hpoint]) ⟨trivial, hc.jumped⟩
  | entered =>
      rw [hpoint] at hstep
      obtain rfl := Option.some.inj hstep
      have hentry := hc.awaits
      simp only [Awaits, hpoint] at hentry
      exact h.freed (by simp [holding, hpoint]) rfl ⟨hentry, hc.jumped⟩
  | released =>
      rw [hpoint] at hstep
      obtain rfl := Option.some.inj hstep
      have hentry := hc.awaits
      simp only [Awaits, hpoint] at hentry
      refine h.moved (by simp [holding, hpoint]) ⟨trivial, fun v hv => ?_⟩
      rw [← Option.some.inj hv]
      exact hentry
  | unborn =>
      rw [hpoint] at hstep
      cases hstep
  | running =>
      rw [hpoint] at hstep
      cases hstep
  | loaded entry =>
      rw [hpoint] at hstep
      cases hstep
  | atEntry =>
      rw [hpoint] at hstep
      cases hstep

theorem step_good (h : s.Good) {op : Op n} (hok : s.Allowed op ∧ s.Safe op)
    (hstep : s.step op = some s') : s'.Good := by
  obtain ⟨hallowed, hsafe⟩ := hok
  have hc : Pending s.userspaceRunway (s.ctx s.active) := h.pending s.active
  cases op with
  | loadElfUser entry =>
      obtain rfl := Option.some.inj hstep
      rw [lockScheduler_good, lockScheduler_good]
      refine h.moved ?_ ⟨trivial, hc.jumped⟩
      rw [holding, holding, show (s.ctx s.active).point = .running from hallowed]
  | createContext c =>
      rw [step] at hstep
      cases hpoint : (s.ctx s.active).point with
      | loaded entry =>
          rw [hpoint] at hstep
          obtain rfl := Option.some.inj hstep
          have hentry := hc.awaits
          simp only [Awaits, hpoint] at hentry
          -- the new context takes over what the loading one holds
          have hfirst := total_update holding s.ctx s.active
            { s.ctx s.active with point := .created }
          have hsecond := total_update holding (Function.update s.ctx s.active
            { s.ctx s.active with point := .created }) c ⟨.atEntry, false, entry, none⟩
          rw [Function.update_of_ne hallowed.2] at hsecond
          have hnew : holding { s.ctx s.active with point := .created } = 0 ∧
              holding ⟨.atEntry, false, entry, none⟩ = 1 ∧ holding (s.ctx s.active) = 1 ∧
              holding (s.ctx c) = 0 := by
            simp [holding, hpoint, hallowed.1]
          have hsame : total holding (Function.update (Function.update s.ctx s.active
              { s.ctx s.active with point := .created }) c ⟨.atEntry, false, entry, none⟩) =
                total holding s.ctx := by omega
          refine ⟨?_, ?_, ?_⟩
          · simp only [setPoint, setCtx, hsame]
            exact h.lock
          · simp only [setPoint, setCtx, hsame]
            exact h.one
          · intro d
            simp only [setPoint, setCtx]
            by_cases hd : d = c
            · subst hd
              rw [Function.update_self]
              exact ⟨hentry, fun v hv => by cases hv⟩
            · rw [Function.update_of_ne hd]
              exact h.pending_update (x := { s.ctx s.active with point := .created })
                ⟨trivial, hc.jumped⟩ d
      | unborn => rw [hpoint] at hstep; cases hstep
      | running => rw [hpoint] at hstep; cases hstep
      | acquiring entry => rw [hpoint] at hstep; cases hstep
      | acquired entry => rw [hpoint] at hstep; cases hstep
      | created => rw [hpoint] at hstep; cases hstep
      | atEntry => rw [hpoint] at hstep; cases hstep
      | entered => rw [hpoint] at hstep; cases hstep
      | released => rw [hpoint] at hstep; cases hstep
  | goOn => exact h.goOn hsafe hstep
  | preempt d =>
      obtain rfl := Option.some.inj hstep
      exact h.switchTo d
  | timer d =>
      obtain rfl := Option.some.inj hstep
      refine Good.switchTo ?_ d
      exact h.moved rfl ⟨hc.awaits, hc.jumped⟩

/-! ## Runs -/

theorem initial_good (first : Fin n) : (initial first).Good := by
  have hnone : total holding (initial first).ctx = 0 := by
    refine total_eq_zero fun c => ?_
    by_cases hc : c = first <;> simp [initial, holding, hc]
  refine ⟨Or.inr hnone, by rw [hnone]; exact Nat.zero_le 1, fun c => ?_⟩
  by_cases hc : c = first
  · constructor <;> simp [initial, Awaits, hc]
  · constructor <;> simp [initial, Awaits, hc]

/-- In every run in which no entry point is stored between another task's release and its jump,
    every task jumps to its own entry point. -/
theorem own_entry (first : Fin n) (s : Runway n)
    (hr : Reaches step (fun s op => s.Allowed op ∧ s.Safe op) (initial first) s) : s.OwnEntry := by
  have hgood : s.Good :=
    hr.invariant (initial_good first) fun _ _ _ h hok hstep => step_good h hok hstep
  intro c v hv
  exact (hgood.pending c).jumped v hv

/-- A task is loaded, started by the timer and jumps. -/
theorem own_entry_one_task :
    ∃ s : Runway 2, Reaches step (fun s op => s.Allowed op ∧ s.Safe op) (initial 0) s ∧
      (s.ctx 1).jumped = some 0x1000#32 ∧ s.OwnEntry := by
  have hrun : (runChecked step (fun s op => s.Allowed op ∧ s.Safe op) (initial (0 : Fin 2))
      [.loadElfUser 0x1000#32, .goOn, .goOn, .createContext 1, .goOn, .timer 1, .goOn, .goOn]).any
      (fun s => decide ((s.ctx 1).jumped = some 0x1000#32)) = true := by decide +kernel
  obtain ⟨s, hr, hs⟩ := exists_reaches_of_any hrun
  exact ⟨s, hr, of_decide_eq_true hs, own_entry 0 s hr⟩

/-- The timer interrupts a task between its release and its jump, and another task is loaded. -/
theorem wrong_entry : ¬ ∀ (n : Nat) (first : Fin n) (s : Runway n),
    Reaches step Allowed (initial first) s → s.OwnEntry := by
  intro hall
  have hrun : (runChecked step Allowed (initial (0 : Fin 3))
      [.loadElfUser 0x1000#32, .goOn, .goOn, .createContext 1, .goOn, .timer 1, .goOn, .timer 0,
        .loadElfUser 0x2000#32, .goOn, .goOn, .createContext 2, .goOn, .timer 1, .goOn]).any
      (fun s => decide ((s.ctx 1).jumped = some 0x2000#32 ∧ (s.ctx 1).entry = 0x1000#32)) =
        true := by decide +kernel
  obtain ⟨s, hr, hs⟩ := exists_reaches_of_any hrun
  obtain ⟨hjumped, hentry⟩ := of_decide_eq_true hs
  have := hall 3 0 s hr 1 _ hjumped
  rw [hentry] at this
  exact absurd this (by decide)

end Runway

end Muse.Scheduler
