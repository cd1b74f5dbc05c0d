import Muse.Library.Links
import Muse.Library.RoundRobin
import Muse.Library.Transition
import Muse.Scheduler.Irq

/-!
# The ready list as a queue

What the ready list of `src/common/scheduler.c` is for: the contexts that may run wait in a queue,
first in, first out, and the active one is outside of it. `Queue` states this on its own;
`Queued` runs it side by side with the scheduler. The timer (`handle_timer_inner`,
`src/kernel/hpet.c`) preempts a context when its slices are used up.
-/

namespace Muse.Scheduler

open Muse.Library

/-- The active context and those that wait. -/
structure Queue where
  active : CtxPtr
  waiting : List CtxPtr
  deriving DecidableEq

namespace Queue

/-- A new context waits behind all others. -/
def create (q : Queue) (c : CtxPtr) : Queue := { q with waiting := q.waiting ++ [c] }

/-- The active context goes to the end, the first one becomes active. -/
def preempt (q : Queue) : Queue :=
  match q.waiting with
  | [] => q
  | c :: rest => ⟨c, rest ++ [q.active]⟩

/-- The active context is gone, the first one becomes active. -/
def terminate (q : Queue) : Queue :=
  match q.waiting with
  | [] => q
  | c :: rest => ⟨c, rest⟩

end Queue

/-- The operations on the ready list. -/
inductive QueueOp where
  | createContext (ctxNew : CtxPtr) (priority : BitVec 8)
  | preempt
  | terminate
  deriving DecidableEq, Repr

/-- The scheduler next to the queue that it should be. -/
structure Queued where
  sched : Sched
  queue : Queue

namespace Queued

def step (s : Queued) : QueueOp → Option Queued
  | .createContext ctxNew priority =>
      (s.sched.createContext ctxNew priority).map fun sched => ⟨sched, s.queue.create ctxNew⟩
  | .preempt => s.sched.preempt.map fun sched => ⟨sched, s.queue.preempt⟩
  | .terminate => some ⟨s.sched.terminate, s.queue.terminate⟩

/-- `kmalloc` returns a block of its own for every new context, and `terminate` is only called while
    another context waits. -/
def Allowed (s : Queued) : QueueOp → Prop
  | .createContext ctxNew _ => ctxNew ≠ 0#32 ∧ ctxNew ∉ s.queue.active :: s.queue.waiting
  | .preempt => True
  | .terminate => s.queue.waiting ≠ []

instance (s : Queued) : ∀ op, Decidable (s.Allowed op)
  | .createContext _ _ => inferInstanceAs (Decidable (_ ∧ _))
  | .preempt => inferInstanceAs (Decidable True)
  | .terminate => inferInstanceAs (Decidable (_ ≠ _))

/-- The state after `init_first_ctx`. -/
def initial (s : Sched) (firstCtx : CtxPtr) : Queued := ⟨s.initFirstCtx firstCtx, ⟨firstCtx, []⟩⟩

/-- The context that the queue says is active, and the list from `next_ctx` to `last_ctx` is what
    waits. -/
structure Refines (s : Queued) : Prop where
  active : s.sched.activeCtx = s.queue.active
  list : Chain s.sched.next 0#32 s.sched.nextCtx s.queue.waiting
  last : ∀ c ∈ s.queue.waiting.getLast?, c = s.sched.lastCtx

end Queued

namespace Sched

/-- The scheduling half of `handle_timer_inner` (`hpet.c:88-105`). -/
def handleTimerInner (s : Sched) : Option Sched := do
  let s ← s.sleepTick
  let slices := s.slicesLeft
  let s := { s with slicesRemaining := Function.update s.slicesRemaining s.activeCtx slices }
  if 0#32 < slices then some s else s.preempt

/-- Nobody sleeps, the contexts `ring` take turns, the first of them is active, and all of them
    begin a new turn. -/
structure Turns (priority : CtxPtr → BitVec 8) (s : Sched) (ring : List CtxPtr) : Prop where
  awake : s.firstSleepingCtx = 0#32
  ready : ∃ waiting, ring = s.activeCtx :: waiting ∧ waiting ≠ [] ∧
    Chain s.next 0#32 s.nextCtx waiting ∧ (∀ c ∈ waiting.getLast?, c = s.lastCtx)
  active_ne : s.activeCtx ≠ 0#32
  nodup : ring.Nodup
  priorities : s.priority = priority
  positive : ∀ c ∈ ring, 1 ≤ (priority c).toNat
  fresh : ∀ c ∈ ring, s.slicesRemaining c = 0#32

end Sched

end Muse.Scheduler
