import Mathlib.Algebra.Group.Nat.Defs
import Mathlib.Logic.Function.Basic

/-!
# Contexts, the ready list and the sleeping list

The scheduling half of `src/common/context.c`, `src/common/scheduler.c` and
`src/kernel/sleep.c`. A `struct context *` is a 32-bit address and `0` is the null
pointer; the fields of `struct context` that scheduling reads are one map each
(`next`, `priority`, `alarm`, `slices_remaining`, `id`), and the globals `active_ctx`,
`next_ctx`, `last_ctx`, `first_sleeping_ctx` and `ctx_id` are fields of `Sched`.

A store through the null pointer does not return: the operations that can make one
are partial, and so is the loop of `sleep_tick`.
-/

namespace Muse.Scheduler

/-- A `struct context *`. -/
abbrev CtxPtr := BitVec 32

/-- The scheduler's globals and the scheduling fields of every context. -/
structure Sched where
  next : CtxPtr → CtxPtr
  priority : CtxPtr → BitVec 8
  alarm : CtxPtr → BitVec 32
  slicesRemaining : CtxPtr → BitVec 32
  id : CtxPtr → BitVec 32
  activeCtx : CtxPtr
  nextCtx : CtxPtr
  lastCtx : CtxPtr
  firstSleepingCtx : CtxPtr
  ctxId : BitVec 32

namespace Sched

/-- The store `p->next = v`. -/
def setNext (s : Sched) (p v : CtxPtr) : Option Sched :=
  if p = 0#32 then none else some { s with next := Function.update s.next p v }

/-- `context_switch` (`src/common/context_switch.asm`): the stack and `cr3` of `ctx`
    are loaded and `active_ctx` becomes `ctx`. -/
def contextSwitch (s : Sched) (ctx : CtxPtr) : Sched := { s with activeCtx := ctx }

/-- `schedule` (`scheduler.c:30-36`). -/
def schedule (s : Sched) : Sched :=
  if s.nextCtx ≠ 0#32 then
    contextSwitch { s with nextCtx := s.next s.nextCtx } s.nextCtx
  else s

/-- `preempt` (`scheduler.c:38-47`). -/
def preempt (s : Sched) : Option Sched :=
  if s.nextCtx ≠ 0#32 then do
    let ctx := s.nextCtx
    let s ← s.setNext s.activeCtx 0#32
    let s ← s.setNext s.lastCtx s.activeCtx
    let s := { s with lastCtx := s.next s.lastCtx }
    let s := { s with nextCtx := s.next s.nextCtx }
    some (s.contextSwitch ctx)
  else some s

/-- `terminate` (`scheduler.c:49`). -/
def terminate (s : Sched) : Sched := s.schedule

/-- The scheduling half of `create_context` (`context.c:17-58`); `ctxNew` is the block
    that `kmalloc` returned. Its `alarm` is not initialised. -/
def createContext (s : Sched) (ctxNew : CtxPtr) (priority : BitVec 8) : Option Sched :=
  let s := { s with
    priority := Function.update s.priority ctxNew priority
    id := Function.update s.id ctxNew s.ctxId
    ctxId := s.ctxId + 1#32
    slicesRemaining := Function.update s.slicesRemaining ctxNew 0#32
    next := Function.update s.next ctxNew 0#32 }
  if s.nextCtx = 0#32 then do
    let s ← s.setNext s.activeCtx ctxNew
    some { s with nextCtx := ctxNew, lastCtx := ctxNew }
  else do
    let s ← s.setNext s.lastCtx ctxNew
    some { s with lastCtx := ctxNew }

/-- `init_first_ctx` (`context.c:83-90`) on zeroed globals; `firstCtx` is the address
    of `first_ctx`. -/
def initFirstCtx (s : Sched) (firstCtx : CtxPtr) : Sched :=
  { s with
    activeCtx := firstCtx
    id := Function.update s.id firstCtx s.ctxId
    ctxId := s.ctxId + 1#32
    next := Function.update s.next firstCtx 0#32
    priority := Function.update s.priority firstCtx 1#8 }

/-- Takes `sleepingCtx`, which follows `previousCtx`, off the sleeping list
    (`sleep.c:19-23`). -/
def unlinkSleeping (s : Sched) (previousCtx sleepingCtx : CtxPtr) : Option Sched :=
  if previousCtx = 0#32 then some { s with firstSleepingCtx := s.next sleepingCtx }
  else s.setNext previousCtx (s.next sleepingCtx)

/-- The wake-up branch of `sleep_tick` (`sleep.c:17-24`). -/
def wake (s : Sched) (previousCtx sleepingCtx : CtxPtr) : Option Sched := do
  let s ← s.setNext s.lastCtx sleepingCtx
  let s := { s with lastCtx := sleepingCtx }
  let s ← s.unlinkSleeping previousCtx sleepingCtx
  s.setNext sleepingCtx 0#32

/-- What one round of the loop does with its context (`sleep.c:15-26`). -/
def tickCtx (s : Sched) (previousCtx sleepingCtx : CtxPtr) : Option Sched :=
  let s := { s with
    alarm := Function.update s.alarm sleepingCtx (s.alarm sleepingCtx - 1#32) }
  if s.alarm sleepingCtx = 0#32 then s.wake previousCtx sleepingCtx else some s

/-- The loop of `sleep_tick` (`sleep.c:13-28`). -/
def sleepTickLoop : Nat → Sched → CtxPtr → CtxPtr → Option Sched
  | 0, _, _, _ => none
  | fuel + 1, s, previousCtx, sleepingCtx =>
      if sleepingCtx = 0#32 then some s
      else do
        let s ← s.tickCtx previousCtx sleepingCtx
        sleepTickLoop fuel s sleepingCtx (s.next sleepingCtx)

/-- `sleep_tick` (`sleep.c:10-29`). Every round but the last lowers an alarm that is not yet
    zero, and there are at most `2 ^ 32` contexts with 32-bit alarms, so `2 ^ 64` rounds are
    as good as unboundedly many. -/
def sleepTick (s : Sched) : Option Sched := sleepTickLoop (2 ^ 64) s 0#32 s.firstSleepingCtx

/-- `sleep_millis` (`sleep.c:31-37`) up to the switch, without its `lock_scheduler`. -/
def sleepMillis (s : Sched) (millis : BitVec 32) : Option Sched := do
  let s ← s.setNext s.activeCtx s.firstSleepingCtx
  let s := { s with firstSleepingCtx := s.activeCtx }
  let s := { s with alarm := Function.update s.alarm s.firstSleepingCtx millis }
  some s.schedule

/-- The slices left to the active context after a tick (`src/kernel/hpet.c:95-98`). -/
def slicesLeft (s : Sched) : BitVec 32 :=
  (if s.slicesRemaining s.activeCtx = 0#32 then (s.priority s.activeCtx).setWidth 32
    else s.slicesRemaining s.activeCtx) - 1#32

/-- The scheduler before `init_first_ctx`: all globals are zero, the contexts' fields are
    whatever the memory holds. -/
def boot (next : CtxPtr → CtxPtr) (priority : CtxPtr → BitVec 8)
    (alarm slicesRemaining id : CtxPtr → BitVec 32) : Sched :=
  { next, priority, alarm, slicesRemaining, id, activeCtx := 0#32, nextCtx := 0#32, lastCtx := 0#32,
    firstSleepingCtx := 0#32, ctxId := 0#32 }

end Sched

end Muse.Scheduler
