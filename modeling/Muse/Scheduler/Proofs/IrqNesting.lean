import Muse.Library.Transition
import Muse.Scheduler.Irq

/-!
# Nesting of the interrupt-disable counter

The counter belongs to whoever runs, so a switch is harmless exactly when the context that
leaves and the context that comes back agree on its value. Every function that resumes with
an `unlock_scheduler` expects the value 1. `Balanced` is the invariant: everyone who is
suspended is suspended at depth 1, and the running context's own depth is the counter.

The invariant does not need the ready list to be sound. It is enough that the scheduler's
pointers stay inside the created contexts (`Closed`).
-/

namespace Muse.Scheduler

open Muse.Library

/-! ## The scheduler's pointers -/

/-- Every pointer of the scheduler is null or points to a context in `S`. -/
structure Closed (S : CtxPtr → Prop) (s : Sched) : Prop where
  active : S s.activeCtx
  nextCtx : s.nextCtx ≠ 0#32 → S s.nextCtx
  lastCtx : s.lastCtx ≠ 0#32 → S s.lastCtx
  sleeping : s.firstSleepingCtx ≠ 0#32 → S s.firstSleepingCtx
  next : ∀ c, S c → s.next c ≠ 0#32 → S (s.next c)

namespace Closed

variable {S : CtxPtr → Prop} {s s' : Sched}

theorem mono {S' : CtxPtr → Prop} (h : Closed S s) (hsub : ∀ c, S c → S' c)
    (hnext : ∀ c, S' c → s.next c ≠ 0#32 → S' (s.next c)) : Closed S' s :=
  ⟨hsub _ h.active, fun hn => hsub _ (h.nextCtx hn), fun hn => hsub _ (h.lastCtx hn),
    fun hn => hsub _ (h.sleeping hn), hnext⟩

theorem setNext {p v : CtxPtr} (h : Closed S s) (hv : v ≠ 0#32 → S v)
    (hs : s.setNext p v = some s') : Closed S s' ∧ s'.activeCtx = s.activeCtx ∧
      s'.nextCtx = s.nextCtx ∧ s'.lastCtx = s.lastCtx ∧
      s'.firstSleepingCtx = s.firstSleepingCtx := by
  unfold Sched.setNext at hs
  split at hs
  · cases hs
  · cases hs
    refine ⟨⟨h.active, h.nextCtx, h.lastCtx, h.sleeping, ?_⟩, rfl, rfl, rfl, rfl⟩
    intro c hc hne
    by_cases hcp : c = p
    · subst hcp
      simp only [Function.update_self] at hne ⊢
      exact hv hne
    · simp only [Function.update_of_ne hcp] at hne ⊢
      exact h.next c hc hne

theorem schedule (h : Closed S s) : Closed S s.schedule := by
  unfold Sched.schedule Sched.contextSwitch
  split
  · next hn =>
      exact ⟨h.nextCtx hn, h.next _ (h.nextCtx hn), h.lastCtx, h.sleeping, h.next⟩
  · exact h

theorem preempt (h : Closed S s) (hs : s.preempt = some s') : Closed S s' := by
  unfold Sched.preempt at hs
  split at hs
  · next hn =>
      simp only [Option.bind_eq_bind, Option.bind_eq_some_iff, Option.some.injEq] at hs
      obtain ⟨s₁, hs₁, s₂, hs₂, rfl⟩ := hs
      obtain ⟨h₁, ha₁, hn₁, hl₁, -⟩ := h.setNext (by simp) hs₁
      obtain ⟨h₂, ha₂, hn₂, hl₂, -⟩ := h₁.setNext (fun _ => h₁.active) hs₂
      have hnc : s₂.nextCtx = s.nextCtx := hn₂.trans hn₁
      have hS : S s.nextCtx := h.nextCtx hn
      refine ⟨hS, ?_, ?_, h₂.sleeping, h₂.next⟩
      · intro hne
        exact h₂.next _ (hnc ▸ hS) hne
      · intro hne
        -- `last_ctx` was not null: the store through it returned
        have hl0 : s₂.lastCtx ≠ 0#32 := by
          intro e
          rw [hl₂] at e
          simp [Sched.setNext, e] at hs₂
        exact h₂.next _ (h₂.lastCtx hl0) hne
  · cases hs
    exact h

theorem sleepMillis {millis : BitVec 32} (h : Closed S s)
    (hs : s.sleepMillis millis = some s') : Closed S s' := by
  simp only [Sched.sleepMillis, Option.bind_eq_bind, Option.bind_eq_some_iff,
    Option.some.injEq] at hs
  obtain ⟨s₁, hs₁, rfl⟩ := hs
  obtain ⟨h₁, -⟩ := h.setNext h.sleeping hs₁
  have h₂ : Closed S { s₁ with
      firstSleepingCtx := s₁.activeCtx
      alarm := Function.update s₁.alarm s₁.activeCtx millis } :=
    ⟨h₁.active, h₁.nextCtx, h₁.lastCtx, fun _ => h₁.active, h₁.next⟩
  exact h₂.schedule

theorem createContext {ctxNew : CtxPtr} {priority : BitVec 8} (h : Closed S s)
    (hs : s.createContext ctxNew priority = some s') :
    Closed (fun c => c = ctxNew ∨ S c) s' ∧ s'.activeCtx = s.activeCtx := by
  let s₀ : Sched := { s with
    priority := Function.update s.priority ctxNew priority
    id := Function.update s.id ctxNew s.ctxId
    ctxId := s.ctxId + 1#32
    slicesRemaining := Function.update s.slicesRemaining ctxNew 0#32
    next := Function.update s.next ctxNew 0#32 }
  have h₀ : Closed (fun c => c = ctxNew ∨ S c) s₀ := by
    refine ⟨.inr h.active, fun hn => .inr (h.nextCtx hn), fun hn => .inr (h.lastCtx hn),
      fun hn => .inr (h.sleeping hn), ?_⟩
    intro c hc hne
    by_cases hcn : c = ctxNew
    · simp [s₀, hcn] at hne
    · simp only [s₀, Function.update_of_ne hcn] at hne ⊢
      exact .inr (h.next c (hc.resolve_left hcn) hne)
  have hs₀ : (if s₀.nextCtx = 0#32 then do
        let s ← s₀.setNext s₀.activeCtx ctxNew
        some { s with nextCtx := ctxNew, lastCtx := ctxNew }
      else do
        let s ← s₀.setNext s₀.lastCtx ctxNew
        some { s with lastCtx := ctxNew }) = some s' := hs
  split at hs₀ <;>
    simp only [Option.bind_eq_bind, Option.bind_eq_some_iff, Option.some.injEq] at hs₀ <;>
    obtain ⟨s₁, hs₁, rfl⟩ := hs₀ <;>
    obtain ⟨h₁, ha, -⟩ := h₀.setNext (fun _ => .inl rfl) hs₁
  · exact ⟨⟨h₁.active, fun _ => .inl rfl, fun _ => .inl rfl, h₁.sleeping, h₁.next⟩, ha⟩
  · exact ⟨⟨h₁.active, h₁.nextCtx, fun _ => .inl rfl, h₁.sleeping, h₁.next⟩, ha⟩

theorem wake {prev c : CtxPtr} (h : Closed S s) (hc : S c) (hs : s.wake prev c = some s') :
    Closed S s' ∧ s'.activeCtx = s.activeCtx := by
  simp only [Sched.wake, Option.bind_eq_bind, Option.bind_eq_some_iff] at hs
  obtain ⟨s₁, hs₁, s₂, hs₂, hs₃⟩ := hs
  obtain ⟨h₁, ha₁, -⟩ := h.setNext (fun _ => hc) hs₁
  have h₁' : Closed S { s₁ with lastCtx := c } :=
    ⟨h₁.active, h₁.nextCtx, fun _ => hc, h₁.sleeping, h₁.next⟩
  have h₂ : Closed S s₂ ∧ s₂.activeCtx = s₁.activeCtx := by
    unfold Sched.unlinkSleeping at hs₂
    split at hs₂
    · cases hs₂
      exact ⟨⟨h₁.active, h₁.nextCtx, fun _ => hc, h₁.next c hc, h₁.next⟩, rfl⟩
    · obtain ⟨h₂, ha₂, -⟩ := h₁'.setNext (h₁.next c hc) hs₂
      exact ⟨h₂, ha₂⟩
  obtain ⟨h₃, ha₃, -⟩ := h₂.1.setNext (by simp) hs₃
  exact ⟨h₃, ha₃.trans (h₂.2.trans ha₁)⟩

theorem tickCtx {prev c : CtxPtr} (h : Closed S s) (hc : S c)
    (hs : s.tickCtx prev c = some s') : Closed S s' ∧ s'.activeCtx = s.activeCtx := by
  have h₁ : Closed S { s with
      alarm := Function.update s.alarm c (s.alarm c - 1#32) } :=
    ⟨h.active, h.nextCtx, h.lastCtx, h.sleeping, h.next⟩
  simp only [Sched.tickCtx] at hs
  split at hs
  · exact h₁.wake hc hs
  · cases hs
    exact ⟨h₁, rfl⟩

theorem sleepTickLoop : ∀ (fuel : Nat) {s s' : Sched} {prev c : CtxPtr}, Closed S s →
    (c ≠ 0#32 → S c) → s.sleepTickLoop fuel prev c = some s' →
    Closed S s' ∧ s'.activeCtx = s.activeCtx
  | 0, _, _, _, _, _, _, hs => by cases hs
  | fuel + 1, s, s', prev, c, h, hc, hs => by
      rw [Sched.sleepTickLoop] at hs
      split at hs
      · cases hs
        exact ⟨h, rfl⟩
      · next hc0 =>
          simp only [Option.bind_eq_bind, Option.bind_eq_some_iff] at hs
          obtain ⟨s₂, hs₂, hloop⟩ := hs
          have h₂ := h.tickCtx (hc hc0) hs₂
          obtain ⟨h₃, ha₃⟩ := sleepTickLoop fuel h₂.1 (h₂.1.next c (hc hc0)) hloop
          exact ⟨h₃, ha₃.trans h₂.2⟩

theorem sleepTick (h : Closed S s) (hs : s.sleepTick = some s') :
    Closed S s' ∧ s'.activeCtx = s.activeCtx :=
  sleepTickLoop _ h h.sleeping hs

end Closed

/-! ## The counter -/

namespace Machine

/-- The counter is never decremented from 0, and it is 0 whenever the active context runs
    its own code with no `lock_scheduler` call of its own unmatched. -/
def Nested (m : Machine) : Prop :=
  m.underflow = false ∧
    (m.point m.sched.activeCtx = .running → m.held m.sched.activeCtx = 0 →
      m.irqDisableCounter = 0#32)

/-- The steps after which the counter still fits: whoever is switched away from stands at
    depth 1, and nobody is resumed inside `sleep_millis`. -/
def SwitchesAtOne (m : Machine) : Op → Prop
  | .lockSimpleAcquire lock => m.simpleStat lock = 0#32 ∨ m.held m.sched.activeCtx = 0
  | .lockReentrantAcquire lock =>
      (m.reentrant lock).owner = m.sched.id m.sched.activeCtx ∨
        (m.reentrant lock).owner = 0#32 ∨ m.held m.sched.activeCtx = 0
  | .sleepMillis _ => m.sched.nextCtx ≠ 0#32 ∧ m.held m.sched.activeCtx = 0
  | .syscallExit => m.held m.sched.activeCtx = 1
  | .resume => m.point m.sched.activeCtx ≠ .inSleep
  | _ => True

/-- The counter has room for the `lock_scheduler` of the function that is called. -/
def CounterFits (m : Machine) : Op → Prop
  | .lockScheduler | .lockSimpleAcquire _ | .lockReentrantAcquire _ | .lockReentrantRelease _
  | .createContext _ _ => m.irqDisableCounter ≠ BitVec.allOnes 32
  | _ => True

/-- The context `c` is switched away from, at depth 1 or for good. -/
def Suspended (m : Machine) (c : CtxPtr) : Prop :=
  m.point c = .inExit ∨ (m.point c ≠ .running ∧ m.held c = 0)

/-- Everyone but the active context is suspended at depth 1. The active context is either
    just switched to, with the counter at 1, or the counter is its own depth. -/
structure Balanced (m : Machine) : Prop where
  closed : Closed (· ∈ m.created) m.sched
  others : ∀ c ∈ m.created, c ≠ m.sched.activeCtx → m.Suspended c
  active : (m.point m.sched.activeCtx = .running ∧
      m.irqDisableCounter.toNat = m.held m.sched.activeCtx) ∨
    (m.Suspended m.sched.activeCtx ∧ m.irqDisableCounter = 1#32)
  ok : m.underflow = false

/-- A context in its own code has the counter at its own depth. -/
theorem Balanced.own {m : Machine} (h : m.Balanced) (hrun : m.point m.sched.activeCtx = .running) :
    m.irqDisableCounter.toNat = m.held m.sched.activeCtx := by
  rcases h.active with ⟨-, heq⟩ | ⟨hexit | ⟨hne, -⟩, -⟩
  · exact heq
  · rw [hrun] at hexit
    cases hexit
  · exact absurd hrun hne

theorem Balanced.nested {m : Machine} (h : m.Balanced) : m.Nested :=
  ⟨h.ok, fun hrun hheld => BitVec.eq_of_toNat_eq ((h.own hrun).trans hheld)⟩

/-- A function that locks the scheduler runs at one above the depth of its caller. -/
theorem Balanced.own_lock {m : Machine} (h : m.Balanced)
    (hrun : m.point m.sched.activeCtx = .running)
    (hfits : m.irqDisableCounter ≠ BitVec.allOnes 32) :
    m.lockScheduler.irqDisableCounter.toNat = m.held m.sched.activeCtx + 1 := by
  have hown := h.own hrun
  have hlt := m.irqDisableCounter.isLt
  have hne : m.irqDisableCounter.toNat ≠ 2 ^ 32 - 1 := fun he =>
    hfits (BitVec.eq_of_toNat_eq (he.trans BitVec.toNat_allOnes.symm))
  rw [lockScheduler, BitVec.toNat_add, BitVec.toNat_ofNat]
  omega

/-- After a switch everyone is suspended and the counter is 1. -/
theorem balanced_of_switch {m : Machine} (hclosed : Closed (· ∈ m.created) m.sched)
    (hall : ∀ c ∈ m.created, m.Suspended c) (hone : m.irqDisableCounter = 1#32)
    (hok : m.underflow = false) : m.Balanced :=
  ⟨hclosed, fun c hc _ => hall c hc, .inr ⟨hall _ hclosed.active, hone⟩, hok⟩

/-- A decrement from above 0. -/
theorem counter_sub {x : BitVec 32} {n : Nat} (h : x.toNat = n + 1) :
    (x - 1#32).toNat = n ∧ x ≠ 0#32 := by
  have hlt := x.isLt
  refine ⟨?_, ?_⟩
  · rw [BitVec.toNat_sub, BitVec.toNat_ofNat]
    omega
  · rintro rfl
    simp at h

/-- The active context leaves its kernel function with an `unlock_scheduler` from depth 1
    above its own. -/
theorem balanced_of_return {m : Machine} (hclosed : Closed (· ∈ m.created) m.sched)
    (hothers : ∀ c ∈ m.created, c ≠ m.sched.activeCtx → m.Suspended c)
    (hrun : m.point m.sched.activeCtx = .running)
    (hcnt : m.irqDisableCounter.toNat = m.held m.sched.activeCtx + 1) (hok : m.underflow = false) :
    m.unlockScheduler.Balanced := by
  obtain ⟨hsub, hne⟩ := counter_sub hcnt
  exact ⟨hclosed, hothers, .inl ⟨hrun, hsub⟩, by simp [unlockScheduler, hok, hne]⟩

section
variable {m m' : Machine}

/-- Everyone is suspended once the active context is put at a point that is not `running`. -/
theorem suspended_setPoint {pt : Point}
    (hothers : ∀ c ∈ m.created, c ≠ m.sched.activeCtx → m.Suspended c)
    (hpt : pt = .inExit ∨ (pt ≠ .running ∧ m.held m.sched.activeCtx = 0)) :
    ∀ c ∈ m.created, (m.setPoint pt).Suspended c := by
  intro c hc
  by_cases hca : c = m.sched.activeCtx
  · subst hca
    simpa [Suspended, setPoint] using hpt
  · have := hothers c hc hca
    simpa [Suspended, setPoint, Function.update_of_ne hca] using this

/-- A `preempt` at depth 1 by a context with no lock of its own. -/
theorem preemptAt_balanced {pt : Point} (hclosed : Closed (· ∈ m.created) m.sched)
    (hothers : ∀ c ∈ m.created, c ≠ m.sched.activeCtx → m.Suspended c)
    (hpt : pt ≠ .running) (hheld : m.held m.sched.activeCtx = 0)
    (hone : m.irqDisableCounter.toNat = 1) (hok : m.underflow = false)
    (hs : m.preemptAt pt = some m') : m'.Balanced := by
  simp only [preemptAt, Option.bind_eq_bind, Option.bind_eq_some_iff, Option.some.injEq] at hs
  obtain ⟨sched, hsched, rfl⟩ := hs
  exact balanced_of_switch (hclosed.preempt hsched)
    (suspended_setPoint hothers (.inr ⟨hpt, hheld⟩)) (BitVec.eq_of_toNat_eq hone) hok

/-- The active context goes on running: nobody else is touched. -/
theorem others_setPoint_running
    (hothers : ∀ c ∈ m.created, c ≠ m.sched.activeCtx → m.Suspended c) :
    ∀ c ∈ m.created, c ≠ m.sched.activeCtx → (m.setPoint .running).Suspended c := by
  intro c hc hca
  simpa [Suspended, setPoint, Function.update_of_ne hca] using hothers c hc hca

/-- One round of either acquire loop, entered at one above the context's own depth; it may
    only block at depth 1. -/
theorem simpleTry_balanced {lock : Nat} (hclosed : Closed (· ∈ m.created) m.sched)
    (hothers : ∀ c ∈ m.created, c ≠ m.sched.activeCtx → m.Suspended c)
    (hcnt : m.irqDisableCounter.toNat = m.held m.sched.activeCtx + 1)
    (hblock : m.simpleStat lock = 0#32 ∨ m.held m.sched.activeCtx = 0)
    (hok : m.underflow = false) (hs : m.simpleTry lock = some m') : m'.Balanced := by
  unfold simpleTry at hs
  split at hs
  · cases hs
    refine balanced_of_return hclosed ?_ (by simp [setPoint]) hcnt hok
    exact others_setPoint_running (m := { m with
      simpleStat := Function.update m.simpleStat lock lstatWrite }) hothers
  · next hstat =>
      have hheld := hblock.resolve_left hstat
      split at hs
      · cases hs
      · exact preemptAt_balanced hclosed hothers (by simp) hheld (by omega) hok hs

theorem reentrantTry_balanced {lock : Nat} (hclosed : Closed (· ∈ m.created) m.sched)
    (hothers : ∀ c ∈ m.created, c ≠ m.sched.activeCtx → m.Suspended c)
    (hcnt : m.irqDisableCounter.toNat = m.held m.sched.activeCtx + 1)
    (hblock : (m.reentrant lock).owner = 0#32 ∨ m.held m.sched.activeCtx = 0)
    (hok : m.underflow = false) (hs : m.reentrantTry lock = some m') : m'.Balanced := by
  unfold reentrantTry at hs
  split at hs
  · cases hs
    refine balanced_of_return hclosed ?_ (by simp [setPoint]) hcnt hok
    exact others_setPoint_running (m := { m with
      reentrant := Function.update m.reentrant lock _ }) hothers
  · next howner =>
      have hheld := hblock.resolve_left howner
      split at hs
      · cases hs
      · exact preemptAt_balanced hclosed hothers (by simp) hheld (by omega) hok hs

/-- `handle_timer_inner` interrupts a context at depth 0. -/
theorem handleTimerInner_balanced (h : m.Balanced)
    (hrun : m.point m.sched.activeCtx = .running) (hzero : m.irqDisableCounter = 0#32)
    (hheld : m.held m.sched.activeCtx = 0) (hs : m.handleTimerInner = some m') :
    m'.Balanced := by
  simp only [handleTimerInner, lockScheduler, Option.bind_eq_bind,
    Option.bind_eq_some_iff] at hs
  obtain ⟨sched, hsched, hs⟩ := hs
  obtain ⟨hc, ha⟩ := h.closed.sleepTick hsched
  generalize Function.update sched.slicesRemaining sched.activeCtx _ = slices at hs
  have hclosed : Closed (· ∈ m.created) { sched with slicesRemaining := slices } :=
    ⟨hc.active, hc.nextCtx, hc.lastCtx, hc.sleeping, hc.next⟩
  have hothers : ∀ c ∈ m.created, c ≠ sched.activeCtx → m.Suspended c := by
    rw [ha]
    exact h.others
  let m₁ : Machine := { m with
    sched := { sched with slicesRemaining := slices }
    irqDisableCounter := m.irqDisableCounter + 1#32 }
  have hret : m₁.unlockScheduler.Balanced := by
    refine balanced_of_return hclosed hothers ?_ ?_ h.ok
    · simpa [m₁, ha] using hrun
    · simp [m₁, ha, hzero, hheld]
  split at hs
  · cases hs
    exact hret
  · split at hs
    · cases hs
      exact hret
    · refine preemptAt_balanced (m := m₁) hclosed hothers (by simp) ?_ ?_ h.ok hs
      · simpa [m₁, ha] using hheld
      · simp [m₁, hzero]

/-- The context that was switched to leaves its kernel function. -/
theorem resumed_balanced (hclosed : Closed (· ∈ m.created) m.sched)
    (hothers : ∀ c ∈ m.created, c ≠ m.sched.activeCtx → m.Suspended c)
    (hcnt : m.irqDisableCounter.toNat = m.held m.sched.activeCtx + 1)
    (hok : m.underflow = false) : (m.setPoint .running).unlockScheduler.Balanced :=
  balanced_of_return (m := m.setPoint .running) hclosed (others_setPoint_running hothers)
    (by simp [setPoint]) hcnt hok

theorem resume_balanced (h : m.Balanced) (hok : m.Allowed .resume)
    (hone : m.SwitchesAtOne .resume) (hs : m.resume = some m') : m'.Balanced := by
  obtain ⟨hsusp, hcnt⟩ := h.active.resolve_left fun hr => hok hr.1
  -- it was switched away from at depth 1, unless that was for good
  have hcounter : m.point m.sched.activeCtx ≠ .inExit →
      m.irqDisableCounter.toNat = m.held m.sched.activeCtx + 1 := by
    intro hexit
    rw [hcnt, (hsusp.resolve_left hexit).2]
    rfl
  have hheld : m.point m.sched.activeCtx ≠ .inExit → m.held m.sched.activeCtx = 0 :=
    fun hexit => (hsusp.resolve_left hexit).2
  simp only [resume] at hs
  split at hs
  · cases hs
  · next lock hp =>
      have hexit : m.point m.sched.activeCtx ≠ .inExit := by simp [hp]
      exact simpleTry_balanced h.closed h.others (hcounter hexit) (.inr (hheld hexit)) h.ok hs
  · next lock hp =>
      have hexit : m.point m.sched.activeCtx ≠ .inExit := by simp [hp]
      exact reentrantTry_balanced h.closed h.others (hcounter hexit) (.inr (hheld hexit)) h.ok hs
  · next hp =>
      cases hs
      exact resumed_balanced h.closed h.others (hcounter (by simp [hp])) h.ok
  · next hp => exact absurd hp hone
  · cases hs
  · next hp =>
      cases hs
      have hb := resumed_balanced h.closed h.others (hcounter (by simp [hp])) h.ok
      exact ⟨hb.closed, hb.others, hb.active, hb.ok⟩

theorem createContext_balanced {ctxNew : CtxPtr} {priority : BitVec 8} (h : m.Balanced)
    (hok : m.Allowed (.createContext ctxNew priority))
    (hfits : m.irqDisableCounter ≠ BitVec.allOnes 32)
    (hs : m.createContext ctxNew priority = some m') : m'.Balanced := by
  obtain ⟨hrun, -, hnew⟩ := hok
  have hcnt := h.own_lock hrun hfits
  simp only [createContext, lockScheduler, Option.bind_eq_bind, Option.bind_eq_some_iff,
    Option.some.injEq] at hs
  obtain ⟨sched, hsched, rfl⟩ := hs
  obtain ⟨hc, ha⟩ := h.closed.createContext hsched
  have hane : m.sched.activeCtx ≠ ctxNew := fun e => hnew (e ▸ h.closed.active)
  refine balanced_of_return ?_ ?_ ?_ ?_ h.ok
  · exact hc.mono (fun c hc => by simpa using hc) fun c hm hne => by
      simpa using hc.next c (by simpa using hm) hne
  · intro c hm hca
    by_cases hcn : c = ctxNew
    · subst hcn
      simp [Suspended]
    · have hm' : c ∈ m.created := by simpa [hcn] using hm
      have hsuspended := h.others c hm' (ha ▸ hca)
      simpa [Suspended, Function.update_of_ne hcn] using hsuspended
  · simpa [Function.update_of_ne hane, ha] using hrun
  · rw [lockScheduler] at hcnt
    simpa [Function.update_of_ne hane, ha] using hcnt

theorem held_setHeld (m : Machine) (n : Nat) :
    (m.setHeld n).held (m.setHeld n).sched.activeCtx = n := Function.update_self ..

/-- The depth of the active context concerns no other one. -/
theorem Balanced.setHeld_others {n : Nat} (h : m.Balanced) :
    ∀ c ∈ m.created, c ≠ m.sched.activeCtx → (m.setHeld n).Suspended c := by
  intro c hc hca
  simpa [Suspended, setHeld, Function.update_of_ne hca] using h.others c hc hca

/-- Every step of the guard keeps the balance. -/
theorem step_balanced {op : Op} (h : m.Balanced) (hok : m.Allowed op)
    (hone : m.SwitchesAtOne op) (hfits : m.CounterFits op) (hs : m.step op = some m') :
    m'.Balanced := by
  cases op with
  | lockScheduler =>
      cases hs
      refine ⟨h.closed, h.setHeld_others, .inl ⟨hok, ?_⟩, h.ok⟩
      exact (h.own_lock hok hfits).trans (held_setHeld ..).symm
  | unlockScheduler =>
      cases hs
      obtain ⟨hrun, hpos⟩ := hok
      have hcnt := h.own hrun
      obtain ⟨hsub, hne⟩ := counter_sub (x := m.irqDisableCounter)
        (n := m.held m.sched.activeCtx - 1) (by omega)
      refine ⟨h.closed, h.setHeld_others, .inl ⟨hrun, ?_⟩, ?_⟩
      · exact hsub.trans (held_setHeld ..).symm
      · simp [setHeld, unlockScheduler, h.ok, hne]
  | lockSimpleAcquire lock =>
      exact simpleTry_balanced (m := m.lockScheduler) h.closed h.others
        (h.own_lock hok hfits) hone h.ok hs
  | lockSimpleRelease lock =>
      cases hs
      exact ⟨h.closed, h.others, h.active, h.ok⟩
  | lockReentrantAcquire lock =>
      have hcnt := h.own_lock hok hfits
      simp only [step, lockReentrantAcquire] at hs
      split at hs
      · cases hs
        exact balanced_of_return h.closed h.others hok hcnt h.ok
      · next howner =>
          exact reentrantTry_balanced (m := m.lockScheduler) h.closed h.others hcnt
            (hone.resolve_left howner) h.ok hs
  | lockReentrantRelease lock =>
      cases hs
      exact balanced_of_return h.closed h.others hok (h.own_lock hok hfits) h.ok
  | handleTimerInner =>
      obtain ⟨hrun, hzero⟩ := hok
      have hcnt := h.own hrun
      rw [hzero] at hcnt
      exact handleTimerInner_balanced h hrun hzero hcnt.symm hs
  | sleepMillis millis =>
      obtain ⟨hnext, hheld⟩ := hone
      have hzero : m.irqDisableCounter = 0#32 :=
        BitVec.eq_of_toNat_eq ((h.own hok).trans hheld)
      simp only [step, sleepMillis, lockScheduler, hnext, if_false, Option.bind_eq_bind,
        Option.bind_eq_some_iff, Option.some.injEq] at hs
      obtain ⟨sched, hsched, rfl⟩ := hs
      refine balanced_of_switch (h.closed.sleepMillis hsched) ?_ (by simp [setPoint, hzero]) h.ok
      exact suspended_setPoint (m := m) h.others (.inr ⟨by simp, hheld⟩)
  | syscallExit =>
      have hcnt := h.own hok
      simp only [step, syscallExit] at hs
      split at hs
      · cases hs
      · cases hs
        have hcnt : m.irqDisableCounter = 1#32 := BitVec.eq_of_toNat_eq (hcnt.trans hone)
        refine balanced_of_switch h.closed.schedule ?_ hcnt h.ok
        exact suspended_setPoint (m := m) h.others (.inl rfl)
  | createContext ctxNew priority => exact createContext_balanced h hok hfits hs
  | resume => exact resume_balanced h hok hone hs

end

theorem initial_balanced {s : Sched} {firstCtx : CtxPtr} (hnext : s.nextCtx = 0#32)
    (hlast : s.lastCtx = 0#32) (hsleep : s.firstSleepingCtx = 0#32) :
    (initial s firstCtx).Balanced := by
  refine ⟨⟨by simp [initial, Sched.initFirstCtx], ?_, ?_, ?_, ?_⟩, ?_, .inl ⟨rfl, rfl⟩, rfl⟩
  · intro hne
    exact absurd hnext hne
  · intro hne
    exact absurd hlast hne
  · intro hne
    exact absurd hsleep hne
  · intro c hc hne
    obtain rfl : c = firstCtx := by simpa [initial] using hc
    simp [initial, Sched.initFirstCtx] at hne
  · intro c hc hca
    exact absurd (by simpa [initial, Sched.initFirstCtx] using hc) hca

/-- In a run whose switches all happen at depth 1, in which nobody is resumed inside
    `sleep_millis` and the counter is never full when it is counted up, the counter nests. -/
theorem irq_nested (next : CtxPtr → CtxPtr) (priority : CtxPtr → BitVec 8)
    (alarm slicesRemaining id : CtxPtr → BitVec 32) (firstCtx : CtxPtr) (m : Machine)
    (hr : Reaches step (fun m op => m.Allowed op ∧ m.SwitchesAtOne op ∧ m.CounterFits op)
      (initial (Sched.boot next priority alarm slicesRemaining id) firstCtx) m) : m.Nested := by
  refine (hr.invariant (initial_balanced rfl rfl rfl) ?_).nested
  intro s op s' hs hok hstep
  exact step_balanced hs hok.1 hok.2.1 hok.2.2 hstep

instance (m : Machine) : ∀ op, Decidable (m.SwitchesAtOne op)
  | .lockSimpleAcquire _ => inferInstanceAs (Decidable (_ ∨ _))
  | .lockReentrantAcquire _ => inferInstanceAs (Decidable (_ ∨ _ ∨ _))
  | .sleepMillis _ => inferInstanceAs (Decidable (_ ∧ _))
  | .syscallExit => inferInstanceAs (Decidable (_ = _))
  | .resume => inferInstanceAs (Decidable (_ ≠ _))
  | .lockScheduler => inferInstanceAs (Decidable True)
  | .unlockScheduler => inferInstanceAs (Decidable True)
  | .lockSimpleRelease _ => inferInstanceAs (Decidable True)
  | .lockReentrantRelease _ => inferInstanceAs (Decidable True)
  | .handleTimerInner => inferInstanceAs (Decidable True)
  | .createContext _ _ => inferInstanceAs (Decidable True)

instance (m : Machine) : ∀ op, Decidable (m.CounterFits op)
  | .lockScheduler => inferInstanceAs (Decidable (_ ≠ _))
  | .lockSimpleAcquire _ => inferInstanceAs (Decidable (_ ≠ _))
  | .lockReentrantAcquire _ => inferInstanceAs (Decidable (_ ≠ _))
  | .lockReentrantRelease _ => inferInstanceAs (Decidable (_ ≠ _))
  | .createContext _ _ => inferInstanceAs (Decidable (_ ≠ _))
  | .unlockScheduler => inferInstanceAs (Decidable True)
  | .lockSimpleRelease _ => inferInstanceAs (Decidable True)
  | .handleTimerInner => inferInstanceAs (Decidable True)
  | .sleepMillis _ => inferInstanceAs (Decidable True)
  | .syscallExit => inferInstanceAs (Decidable True)
  | .resume => inferInstanceAs (Decidable True)

/-- A boot state with all fields zero and the first context at address 1. -/
def zeroBoot : Machine :=
  initial (Sched.boot (fun _ => 0#32) (fun _ => 0#8) (fun _ => 0#32) (fun _ => 0#32)
    fun _ => 0#32) 1#32

/-- The second context starts on the timer, blocks on a lock of the first one, which then
    releases it, and the lock changes hands. -/
theorem irq_nested_handover : ∃ m,
    Reaches step (fun m op => m.Allowed op ∧ m.SwitchesAtOne op ∧ m.CounterFits op) zeroBoot m ∧
    m.sched.activeCtx = 2#32 ∧ m.simpleStat 1 = 1#32 ∧ m.Nested := by
  have hrun : (runChecked step (fun m op => m.Allowed op ∧ m.SwitchesAtOne op ∧ m.CounterFits op)
      zeroBoot [.createContext 2#32 1#8, .lockSimpleAcquire 1, .handleTimerInner, .resume,
        .lockSimpleAcquire 1, .resume, .lockSimpleRelease 1, .handleTimerInner,
        .resume]).any (fun m => decide (m.sched.activeCtx = 2#32 ∧
        m.simpleStat 1 = 1#32)) = true := by decide +kernel
  obtain ⟨m, hm, hobs⟩ := exists_reaches_of_any hrun
  obtain ⟨hact, hstat⟩ := of_decide_eq_true hobs
  exact ⟨m, hm, hact, hstat, irq_nested _ _ _ _ _ 1#32 m hm⟩

/-- `syscall_exit` switches at depth 0, and the `unlock_scheduler` of the context that comes
    next decrements the counter from 0. -/
theorem irq_underflow_after_exit : ¬ ∀ m : Machine, Reaches step Allowed zeroBoot m →
    m.Nested := by
  intro hall
  have hrun : (runChecked step Allowed zeroBoot
      [.createContext 2#32 1#8, .syscallExit, .resume]).any (fun m => m.underflow) = true := by
    decide +kernel
  obtain ⟨m, hm, hobs⟩ := exists_reaches_of_any hrun
  have := (hall m hm).1
  rw [hobs] at this
  cases this

end Machine

end Muse.Scheduler
