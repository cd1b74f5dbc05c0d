import Muse.Scheduler.Proofs.Placement
import Muse.Scheduler.Queue

/-!
# The ready list is first in, first out

Each operation of the scheduler is one operation of the queue, so the two stay together in every
run. With the timer as the only operation the queue becomes a ring: a context keeps the processor
for as many ticks as its priority says, and then all others have their turns first.
-/

namespace Muse.Scheduler

open Muse.Library

namespace Queued

/-- The invariant of a run. -/
structure Inv (s : Queued) : Prop where
  lists : Lists s.sched s.queue.waiting []
  active : s.sched.activeCtx = s.queue.active

variable {s : Queued}

theorem Inv.refines (h : s.Inv) : s.Refines where
  active := h.active
  list := h.lists.ready_chain
  last := by
    intro c hc
    rcases h.lists.ready_last with hnil | ⟨front, hfront⟩
    · rw [hnil] at hc
      cases hc
    · rw [hfront] at hc
      simpa using hc.symm

/-- A step that a run may take is one of the scheduler and of the queue. -/
theorem Inv.step {op : QueueOp} (h : s.Inv) (hok : s.Allowed op) :
    ∃ s', s.step op = some s' ∧ s'.Inv := by
  cases op with
  | createContext ctxNew priority =>
      obtain ⟨hne, hnew⟩ := hok
      rw [← h.active] at hnew
      obtain ⟨sched, hs, hact, hlists⟩ := createContext_lists priority h.lists hne
        (by simpa using hnew)
      refine ⟨⟨sched, s.queue.create ctxNew⟩, ?_, hlists, hact.trans h.active⟩
      rw [Queued.step, hs, Option.map_some]
  | preempt =>
      cases hwaiting : s.queue.waiting with
      | nil =>
          have hlists := h.lists
          rw [hwaiting] at hlists
          refine ⟨s, ?_, h⟩
          rw [Queued.step, preempt_empty hlists, Option.map_some, Queue.preempt, hwaiting]
      | cons c rest =>
          have hlists := h.lists
          rw [hwaiting] at hlists
          obtain ⟨sched, hs, hact, -, -, hnext⟩ := preempt_rotates hlists
          rw [h.active] at hnext
          refine ⟨⟨sched, c, rest ++ [s.queue.active]⟩, ?_, hnext, hact⟩
          rw [Queued.step, hs, Option.map_some, Queue.preempt, hwaiting]
  | terminate =>
      obtain ⟨c, rest, hwaiting⟩ := List.exists_cons_of_ne_nil hok
      have hlists := h.lists
      rw [hwaiting] at hlists
      obtain ⟨hact, hnext⟩ := schedule_lists hlists.ready_chain
        (hlists.ready_last.resolve_left (List.cons_ne_nil c rest)) hlists.sleeping_chain
        (List.nodup_cons.mp hlists.nodup).2
      refine ⟨⟨s.sched.schedule, c, rest⟩, ?_, hnext, hact⟩
      rw [Queued.step, Sched.terminate, Queue.terminate, hwaiting]

theorem inv_initial {sched : Sched} {firstCtx : CtxPtr} (hfirst : firstCtx ≠ 0#32)
    (hnext : sched.nextCtx = 0#32) (hsleeping : sched.firstSleepingCtx = 0#32) :
    (initial sched firstCtx).Inv where
  lists := by
    refine ⟨hnext, .inl rfl, hsleeping, hfirst, ?_⟩
    simp [initial]
  active := rfl

end Queued

/-! ## The timer -/

namespace Sched

variable {s : Sched} {priority : CtxPtr → BitVec 8}

theorem sleepTick_awake (h : s.firstSleepingCtx = 0#32) : s.sleepTick = some s := by
  obtain ⟨fuel, hfuel⟩ : ∃ fuel, 2 ^ 64 = fuel + 1 := ⟨2 ^ 64 - 1, by decide⟩
  rw [sleepTick, hfuel, sleepTickLoop, h, if_pos rfl]

theorem Turns.lists {ring waiting : List CtxPtr} (h : s.Turns priority ring)
    (hring : ring = s.activeCtx :: waiting) : Lists s waiting [] := by
  obtain ⟨waiting', hring', -, hchain, hlast⟩ := h.ready
  obtain rfl : waiting' = waiting := by
    rw [hring] at hring'
    exact (List.cons.inj hring').2.symm
  have hnodup := h.nodup
  rw [hring] at hnodup
  refine ⟨hchain, ?_, h.awake, h.active_ne, by simpa using hnodup⟩
  rcases List.eq_nil_or_concat waiting' with hnil | ⟨front, c, hfront⟩
  · exact .inl hnil
  · right
    rw [List.concat_eq_append] at hfront
    refine ⟨front, ?_⟩
    rw [hfront, hlast c (by rw [hfront]; simp)]

/-- The slices of the active context inside its turn, after `k` ticks. -/
def slicesAfter (weight k : Nat) : BitVec 32 := if k = 0 then 0#32 else BitVec.ofNat 32 (weight - k)

theorem slicesLeft_eq {p : BitVec 8} {k : Nat} (hk : k < p.toNat) :
    (if slicesAfter p.toNat k = 0#32 then p.setWidth 32 else slicesAfter p.toNat k) - 1#32 =
      BitVec.ofNat 32 (p.toNat - (k + 1)) := by
  have hp := p.isLt
  apply BitVec.eq_of_toNat_eq
  by_cases hzero : k = 0
  · subst hzero
    simp only [slicesAfter, if_true, BitVec.toNat_sub, BitVec.toNat_setWidth, BitVec.toNat_ofNat]
    omega
  · have hne : slicesAfter p.toNat k ≠ 0#32 := by
      intro heq
      have hnat := congrArg BitVec.toNat heq
      rw [slicesAfter, if_neg hzero, BitVec.toNat_ofNat] at hnat
      simp only [BitVec.toNat_ofNat] at hnat
      omega
    rw [if_neg hne, slicesAfter, if_neg hzero]
    simp only [BitVec.toNat_sub, BitVec.toNat_ofNat]
    omega

/-- `slices` are left to the active context. -/
def setSlices (s : Sched) (slices : BitVec 32) : Sched :=
  { s with slicesRemaining := Function.update s.slicesRemaining s.activeCtx slices }

theorem setSlices_self (h : s.slicesRemaining s.activeCtx = 0#32) : s.setSlices 0#32 = s := by
  rw [setSlices, ← h, Function.update_eq_self]

theorem slicesLeft_setSlices (slices : BitVec 32) : (s.setSlices slices).slicesLeft =
    (if slices = 0#32 then (s.priority s.activeCtx).setWidth 32 else slices) - 1#32 := by
  simp only [slicesLeft, setSlices, Function.update_self]

/-- A tick inside the turn of the active context. -/
theorem handleTimerInner_setSlices {k : Nat} (hawake : s.firstSleepingCtx = 0#32)
    (hk : k < (s.priority s.activeCtx).toNat) :
    (s.setSlices (slicesAfter (s.priority s.activeCtx).toNat k)).handleTimerInner =
      if k + 1 < (s.priority s.activeCtx).toNat then
        some (s.setSlices (slicesAfter (s.priority s.activeCtx).toNat (k + 1)))
      else (s.setSlices 0#32).preempt := by
  have hleft := slicesLeft_eq hk
  have hpriority := (s.priority s.activeCtx).isLt
  have hslices : (s.setSlices (slicesAfter (s.priority s.activeCtx).toNat k)).slicesLeft =
      BitVec.ofNat 32 ((s.priority s.activeCtx).toNat - (k + 1)) := by
    rw [slicesLeft_setSlices, hleft]
  have htick : (s.setSlices (slicesAfter (s.priority s.activeCtx).toNat k)).sleepTick =
      some (s.setSlices (slicesAfter (s.priority s.activeCtx).toNat k)) := sleepTick_awake hawake
  rw [handleTimerInner, htick]
  simp only [Option.bind_eq_bind, Option.bind_some, hslices]
  simp only [setSlices, Function.update_idem]
  by_cases hlast : k + 1 < (s.priority s.activeCtx).toNat
  · have hpos : 0#32 < BitVec.ofNat 32 ((s.priority s.activeCtx).toNat - (k + 1)) := by
      rw [BitVec.lt_def, BitVec.toNat_ofNat, BitVec.toNat_ofNat]
      omega
    rw [if_pos hpos, if_pos hlast, slicesAfter, if_neg (Nat.succ_ne_zero k)]
  · have hzero : (s.priority s.activeCtx).toNat - (k + 1) = 0 := by omega
    rw [hzero, if_neg hlast]
    rfl

/-- The first ticks of a turn use up slices. -/
theorem runFor_setSlices (hawake : s.firstSleepingCtx = 0#32)
    (hfresh : s.slicesRemaining s.activeCtx = 0#32) :
    ∀ k, k < (s.priority s.activeCtx).toNat → runFor handleTimerInner k s =
      some (s.setSlices (slicesAfter (s.priority s.activeCtx).toNat k)) := by
  intro k
  induction k with
  | zero =>
      intro _
      rw [runFor, slicesAfter, if_pos rfl, setSlices_self hfresh]
  | succ k ih =>
      intro hk
      rw [runFor_add (ih (by omega)), runFor, handleTimerInner_setSlices hawake (by omega),
        if_pos hk]
      rfl

/-- After the last tick of its turn a context is behind all others. -/
theorem Turns.preempt {a : CtxPtr} {rest : List CtxPtr} (h : s.Turns priority (a :: rest)) :
    ∃ t, s.preempt = some t ∧ t.Turns priority (rest ++ [a]) := by
  obtain ⟨waiting, hring, hwaiting, -⟩ := h.ready
  obtain ⟨rfl, rfl⟩ := List.cons.inj hring
  obtain ⟨c, others, rfl⟩ := List.exists_cons_of_ne_nil hwaiting
  obtain ⟨t, ht, hactive, hpriority, hslices, hlists⟩ := preempt_rotates (h.lists hring)
  refine ⟨t, ht, ?_⟩
  have hmem : ∀ d, d ∈ c :: others ++ [s.activeCtx] → d ∈ s.activeCtx :: c :: others := by
    intro d hd
    rw [List.mem_append, List.mem_singleton] at hd
    rw [List.mem_cons]
    exact hd.symm
  have hnodup := hlists.nodup
  rw [hactive, List.append_nil] at hnodup
  refine
    { awake := hlists.sleeping_chain
      ready := ⟨others ++ [s.activeCtx], by rw [hactive, List.cons_append], by simp,
        hlists.ready_chain, ?_⟩
      active_ne := hlists.active_ne
      nodup := hnodup
      priorities := hpriority.trans h.priorities
      positive := fun d hd => h.positive d (hmem d hd)
      fresh := ?_ }
  · intro d hd
    obtain ⟨front, hfront⟩ := hlists.ready_last.resolve_left (by simp)
    rw [hfront] at hd
    simpa using hd.symm
  · intro d hd
    rw [hslices]
    exact h.fresh d (hmem d hd)

/-- A context keeps the processor for as many ticks as its priority says. -/
theorem takesTurns (priority : CtxPtr → BitVec 8) :
    TakesTurns handleTimerInner (·.activeCtx) (fun c => (priority c).toNat) (Turns priority) := by
  intro s a rest h k hk
  obtain ⟨waiting, hring, -⟩ := h.ready
  obtain ⟨rfl, rfl⟩ := List.cons.inj hring
  have hfresh := h.fresh s.activeCtx List.mem_cons_self
  have hpositive := h.positive s.activeCtx List.mem_cons_self
  simp only [← h.priorities] at hk hpositive ⊢
  rcases Nat.lt_or_eq_of_le hk with hlt | rfl
  · refine ⟨_, runFor_setSlices h.awake hfresh k hlt, fun _ => rfl, ?_⟩
    intro heq
    omega
  · obtain ⟨t, ht, hturns⟩ := h.preempt
    obtain ⟨k, hlast⟩ := Nat.exists_eq_add_of_le' hpositive
    refine ⟨t, ?_, fun hlt => absurd hlt (lt_irrefl _), fun _ => by rwa [h.priorities]⟩
    rw [hlast, runFor_add (runFor_setSlices h.awake hfresh k (by omega)), runFor,
      handleTimerInner_setSlices h.awake (by omega), if_neg (by omega), setSlices_self hfresh, ht]
    rfl

end Sched

/-- The timer interrupt with the interrupt counter does the same to the scheduler. -/
theorem Machine.handleTimerInner_sched (m : Machine) :
    m.handleTimerInner.map (·.sched) = m.sched.handleTimerInner := by
  have hunlock : ∀ m : Machine, m.unlockScheduler.sched = m.sched := fun _ => rfl
  rw [handleTimerInner, Sched.handleTimerInner, lockScheduler]
  cases hsleep : m.sched.sleepTick with
  | none => rfl
  | some sched =>
      simp only [Option.bind_eq_bind, Option.bind_some]
      by_cases hslices : 0#32 < sched.slicesLeft
      · rw [if_pos hslices, if_pos hslices, Option.map_some, hunlock]
      · rw [if_neg hslices, if_neg hslices]
        by_cases hnext : sched.nextCtx = 0#32
        · rw [if_pos hnext, Option.map_some, hunlock, Sched.preempt, if_neg (by simpa using hnext)]
        · rw [if_neg hnext, preemptAt]
          cases Sched.preempt _ <;> rfl

/-- From the start on the ready list is a first-in-first-out queue, and with the timer alone the
    contexts take turns, each for as many ticks as its priority says. -/
theorem ready_list_fifo (next : CtxPtr → CtxPtr) (priority : CtxPtr → BitVec 8)
    (alarm slicesRemaining id : CtxPtr → BitVec 32) {firstCtx : CtxPtr} (hfirst : firstCtx ≠ 0#32) :
    (∀ s, Reaches Queued.step Queued.Allowed
        (Queued.initial (Sched.boot next priority alarm slicesRemaining id) firstCtx) s →
      s.Refines ∧ ∀ op, s.Allowed op → (s.step op).isSome) ∧
    ∀ (weight : CtxPtr → BitVec 8) (s : Sched) (ring : List CtxPtr), s.Turns weight ring →
      ∀ j n, turnStart (fun c => (weight c).toNat) ring j ≤ n →
        n < turnStart (fun c => (weight c).toNat) ring (j + 1) →
        ∃ t, runFor Sched.handleTimerInner n s = some t ∧ turnOf ring j = some t.activeCtx := by
  constructor
  · intro s hreach
    have hinv : s.Inv := by
      refine hreach.invariant (Queued.inv_initial hfirst rfl rfl) ?_
      intro u op u' hu hok hstep
      obtain ⟨v, hv, hnext⟩ := hu.step hok
      rw [hstep] at hv
      cases hv
      exact hnext
    refine ⟨hinv.refines, ?_⟩
    intro op hok
    obtain ⟨s', hs', -⟩ := hinv.step hok
    rw [hs']
    rfl
  · intro weight s ring hturns j n hfrom hto
    obtain ⟨waiting, hring, -⟩ := hturns.ready
    have hne : ring ≠ [] := by
      rw [hring]
      exact List.cons_ne_nil _ _
    exact (Sched.takesTurns weight).current_eq hturns hne hfrom hto

/-- Two contexts, of priority 1 and 3, that begin their turns. -/
def twoContexts : Sched :=
  { Sched.boot (fun _ => 0#32) (fun c => if c = 1#32 then 1#8 else 3#8) (fun _ => 0#32)
      (fun _ => 0#32) (fun _ => 0#32) with
    activeCtx := 1#32
    nextCtx := 2#32
    lastCtx := 2#32 }

theorem twoContexts_turns :
    twoContexts.Turns (fun c => if c = 1#32 then 1#8 else 3#8) [1#32, 2#32] where
  awake := rfl
  ready := ⟨[2#32], rfl, by simp, ⟨rfl, by decide, rfl⟩, by simp [twoContexts]⟩
  active_ne := by decide
  nodup := by decide
  priorities := rfl
  positive := by simp
  fresh := fun _ _ => rfl

/-- Three contexts join the first one, the second one takes its turn and terminates. -/
theorem exists_queued : ∃ s, Reaches Queued.step Queued.Allowed
    (Queued.initial (Sched.boot (fun _ => 0#32) (fun _ => 0#8) (fun _ => 0#32) (fun _ => 0#32)
      (fun _ => 0#32)) 1#32) s ∧ s.queue = ⟨3#32, [1#32, 4#32]⟩ := by
  have hrun : (runChecked Queued.step Queued.Allowed
      (Queued.initial (Sched.boot (fun _ => 0#32) (fun _ => 0#8) (fun _ => 0#32) (fun _ => 0#32)
        (fun _ => 0#32)) 1#32)
      [.createContext 2#32 1#8, .createContext 3#32 1#8, .preempt, .createContext 4#32 1#8,
        .terminate]).any (fun s => decide (s.queue = ⟨3#32, [1#32, 4#32]⟩)) = true := by
    decide +kernel
  obtain ⟨s, hs, hobs⟩ := exists_reaches_of_any hrun
  exact ⟨s, hs, of_decide_eq_true hobs⟩

/-- The list from `next_ctx` on is the queue of that run, and with two contexts the third tick falls
    into the turn of the second one. -/
theorem ready_list_fifo_two :
    (∃ s : Queued, s.queue = ⟨3#32, [1#32, 4#32]⟩ ∧ s.Refines) ∧
    ∃ t, runFor Sched.handleTimerInner 3 twoContexts = some t ∧ some 2#32 = some t.activeCtx := by
  obtain ⟨s, hs, hobs⟩ := exists_queued
  obtain ⟨hqueue, hturns⟩ := ready_list_fifo (fun _ => 0#32) (fun _ => 0#8) (fun _ => 0#32)
    (fun _ => 0#32) (fun _ => 0#32) (show 1#32 ≠ 0#32 by decide)
  obtain ⟨t, ht, hturn⟩ := hturns _ _ _ twoContexts_turns 1 3 (by decide) (by decide)
  have hsecond : turnOf [1#32, 2#32] 1 = some 2#32 := by decide
  exact ⟨⟨s, hobs, (hqueue s hs).1⟩, t, ht, hsecond.symm.trans hturn⟩

end Muse.Scheduler
