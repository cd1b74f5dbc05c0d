import Muse.Scheduler.Context

/-!
# The interrupt-disable counter across context switches

`lock_scheduler` and `unlock_scheduler` (`src/common/scheduler.c`) count how deep the
kernel is inside regions that run with interrupts off. There is one counter for all
contexts, and a context switch does not save it. A context is suspended only inside one of
the kernel functions that call `preempt` or `schedule`, and what it does with the counter
when it is resumed depends on which one: `Point` records that. A context that was never
switched to returns into `enter_ring3` (`src/kernel/userspace.c`).

Between two switch points the kernel functions below run with interrupts off, so each
operation runs up to its return or up to the switch, and `resume` is the rest of the
function that the context switched to had called.
-/

namespace Muse.Scheduler

/-- Where a context stands. -/
inductive Point where
  /-- in its own code, with no kernel function of this file on its stack -/
  | running
  /-- in the loop of `lock_simple_acquire` -/
  | inSimpleAcquire (lock : Nat)
  /-- in the loop of `lock_reentrant_acquire` -/
  | inReentrantAcquire (lock : Nat)
  /-- behind the `preempt` of `handle_timer_inner` -/
  | inTimer
  /-- behind the `schedule` of `sleep_millis` -/
  | inSleep
  /-- behind the `terminate` of `syscall_exit` -/
  | inExit
  /-- at the start of `enter_ring3` -/
  | atEntry
  deriving DecidableEq, Repr

/-- `struct lock_reentrant`. -/
structure LockReentrant where
  cnt : BitVec 32
  owner : BitVec 32

/-- The scheduler, the counter, the locks, and for every context where it stands and how
    many `lock_scheduler` calls of its own code are still unmatched. `underflow` records that the
    counter was decremented from 0. -/
structure Machine where
  sched : Sched
  created : List CtxPtr
  irqDisableCounter : BitVec 32
  underflow : Bool
  simpleStat : Nat → BitVec 32
  reentrant : Nat → LockReentrant
  point : CtxPtr → Point
  held : CtxPtr → Nat

namespace Machine

/-- The number of `runway_lock` among the simple locks. -/
def runwayLock : Nat := 0

/-- `LSTAT_WRITE` (`include/muse/sync.h`). -/
def lstatWrite : BitVec 32 := 1#32

/-- `lock_scheduler` (`scheduler.c:18-21`). -/
def lockScheduler (m : Machine) : Machine :=
  { m with irqDisableCounter := m.irqDisableCounter + 1#32 }

/-- `unlock_scheduler` (`scheduler.c:23-28`). -/
def unlockScheduler (m : Machine) : Machine :=
  { m with
    irqDisableCounter := m.irqDisableCounter - 1#32
    underflow := m.underflow || m.irqDisableCounter = 0#32 }

/-- The active context stands at `pt`. -/
def setPoint (m : Machine) (pt : Point) : Machine :=
  { m with point := Function.update m.point m.sched.activeCtx pt }

/-- A `preempt` that switches, called at `pt` by the active context. -/
def preemptAt (m : Machine) (pt : Point) : Option Machine := do
  let sched ← m.sched.preempt
  some { m.setPoint pt with sched }

/-- One round of the loop of `lock_simple_acquire` (`sync.c:14-19`). With nothing to switch
    to, the loop spins with interrupts off for ever. -/
def simpleTry (m : Machine) (lock : Nat) : Option Machine :=
  if m.simpleStat lock = 0#32 then
    let m := { m with simpleStat := Function.update m.simpleStat lock lstatWrite }
    some (m.setPoint .running).unlockScheduler
  else if m.sched.nextCtx = 0#32 then none
  else m.preemptAt (.inSimpleAcquire lock)

/-- `lock_simple_acquire` (`sync.c:11-21`). -/
def lockSimpleAcquire (m : Machine) (lock : Nat) : Option Machine :=
  m.lockScheduler.simpleTry lock

/-- `lock_simple_release` (`sync.c:23`). -/
def lockSimpleRelease (m : Machine) (lock : Nat) : Machine :=
  { m with simpleStat := Function.update m.simpleStat lock 0#32 }

/-- One round of the loop of `lock_reentrant_acquire` (`sync.c:41-49`). -/
def reentrantTry (m : Machine) (lock : Nat) : Option Machine :=
  if (m.reentrant lock).owner = 0#32 then
    let l : LockReentrant := ⟨1#32, m.sched.id m.sched.activeCtx⟩
    let m := { m with reentrant := Function.update m.reentrant lock l }
    some (m.setPoint .running).unlockScheduler
  else if m.sched.nextCtx = 0#32 then none
  else m.preemptAt (.inReentrantAcquire lock)

/-- `lock_reentrant_acquire` (`sync.c:34-50`). -/
def lockReentrantAcquire (m : Machine) (lock : Nat) : Option Machine :=
  let m := m.lockScheduler
  let l := m.reentrant lock
  if l.owner = m.sched.id m.sched.activeCtx then
    let l := { l with cnt := l.cnt + 1#32 }
    let m := { m with reentrant := Function.update m.reentrant lock l }
    some m.unlockScheduler
  else m.reentrantTry lock

/-- `lock_reentrant_release` (`sync.c:52-59`). -/
def lockReentrantRelease (m : Machine) (lock : Nat) : Machine :=
  let m := m.lockScheduler
  let l := m.reentrant lock
  let cnt := l.cnt - 1#32
  let l := if cnt = 0#32 then ⟨cnt, 0#32⟩ else { l with cnt }
  let m := { m with reentrant := Function.update m.reentrant lock l }
  m.unlockScheduler

/-- `handle_timer_inner` (`src/kernel/hpet.c:88-111`); the registers of the timer are left
    out. -/
def handleTimerInner (m : Machine) : Option Machine := do
  let m := m.lockScheduler
  let sched ← m.sched.sleepTick
  let slices := sched.slicesLeft
  let sched := { sched with
    slicesRemaining := Function.update sched.slicesRemaining sched.activeCtx slices }
  let m := { m with sched }
  if 0#32 < slices then some m.unlockScheduler
  else if m.sched.nextCtx = 0#32 then some m.unlockScheduler
  else m.preemptAt .inTimer

/-- `sleep_millis` (`src/kernel/sleep.c:31-37`). Its `lock_scheduler` has no
    `unlock_scheduler`. -/
def sleepMillis (m : Machine) (millis : BitVec 32) : Option Machine := do
  let m := m.lockScheduler
  let sched ← m.sched.sleepMillis millis
  if m.sched.nextCtx = 0#32 then some { m with sched }
  else some { m.setPoint .inSleep with sched }

/-- `syscall_exit` (`src/kernel/syscall.c:24-29`). When `terminate` finds nothing to switch
    to, the function runs into `__builtin_unreachable`. -/
def syscallExit (m : Machine) : Option Machine :=
  if m.sched.nextCtx = 0#32 then none
  else some { m.setPoint .inExit with sched := m.sched.terminate }

/-- `create_context` (`context.c:17-58`) with `enter_ring3` as the function to start in. -/
def createContext (m : Machine) (ctxNew : CtxPtr) (priority : BitVec 8) : Option Machine := do
  let m := m.lockScheduler
  let sched ← m.sched.createContext ctxNew priority
  let m := { m with
    sched
    created := ctxNew :: m.created
    point := Function.update m.point ctxNew .atEntry
    held := Function.update m.held ctxNew 0 }
  some m.unlockScheduler

/-- `enter_ring3` (`userspace.c:26-34`). -/
def enterRing3 (m : Machine) : Machine :=
  (m.setPoint .running).unlockScheduler.lockSimpleRelease runwayLock

/-- The active context, which was just switched to, goes on in the function it was suspended
    in. The stack of a context that exited returns into `__builtin_unreachable`. -/
def resume (m : Machine) : Option Machine :=
  match m.point m.sched.activeCtx with
  | .running => none
  | .inSimpleAcquire lock => m.simpleTry lock
  | .inReentrantAcquire lock => m.reentrantTry lock
  | .inTimer => some (m.setPoint .running).unlockScheduler
  | .inSleep => some (m.setPoint .running)
  | .inExit => none
  | .atEntry => some m.enterRing3

/-- What the active context does next. -/
inductive Op where
  | lockScheduler
  | unlockScheduler
  | lockSimpleAcquire (lock : Nat)
  | lockSimpleRelease (lock : Nat)
  | lockReentrantAcquire (lock : Nat)
  | lockReentrantRelease (lock : Nat)
  | handleTimerInner
  | sleepMillis (millis : BitVec 32)
  | syscallExit
  | createContext (ctxNew : CtxPtr) (priority : BitVec 8)
  | resume
  deriving DecidableEq, Repr

/-- A call of its own code to `lock_scheduler` or `unlock_scheduler` changes what the active
    context holds. -/
def setHeld (m : Machine) (n : Nat) : Machine :=
  { m with held := Function.update m.held m.sched.activeCtx n }

def step (m : Machine) : Op → Option Machine
  | .lockScheduler => some (m.lockScheduler.setHeld (m.held m.sched.activeCtx + 1))
  | .unlockScheduler => some (m.unlockScheduler.setHeld (m.held m.sched.activeCtx - 1))
  | .lockSimpleAcquire lock => m.lockSimpleAcquire lock
  | .lockSimpleRelease lock => some (m.lockSimpleRelease lock)
  | .lockReentrantAcquire lock => m.lockReentrantAcquire lock
  | .lockReentrantRelease lock => some (m.lockReentrantRelease lock)
  | .handleTimerInner => m.handleTimerInner
  | .sleepMillis millis => m.sleepMillis millis
  | .syscallExit => m.syscallExit
  | .createContext ctxNew priority => m.createContext ctxNew priority
  | .resume => m.resume

/-- The steps a run may take. A context that runs its own code may call any of the functions
    and unlocks only what it locked, the timer interrupts while the counter is 0, and a
    context that was switched to first goes on where it was suspended. -/
def Allowed (m : Machine) : Op → Prop
  | .resume => m.point m.sched.activeCtx ≠ .running
  | .unlockScheduler => m.point m.sched.activeCtx = .running ∧ 0 < m.held m.sched.activeCtx
  | .handleTimerInner => m.point m.sched.activeCtx = .running ∧ m.irqDisableCounter = 0#32
  | .createContext ctxNew _ =>
      m.point m.sched.activeCtx = .running ∧ ctxNew ≠ 0#32 ∧ ctxNew ∉ m.created
  | _ => m.point m.sched.activeCtx = .running

instance (m : Machine) : ∀ op, Decidable (m.Allowed op)
  | .resume => inferInstanceAs (Decidable (_ ≠ _))
  | .unlockScheduler => inferInstanceAs (Decidable (_ ∧ _))
  | .handleTimerInner => inferInstanceAs (Decidable (_ ∧ _))
  | .createContext _ _ => inferInstanceAs (Decidable (_ ∧ _))
  | .lockScheduler => inferInstanceAs (Decidable (_ = _))
  | .lockSimpleAcquire _ => inferInstanceAs (Decidable (_ = _))
  | .lockSimpleRelease _ => inferInstanceAs (Decidable (_ = _))
  | .lockReentrantAcquire _ => inferInstanceAs (Decidable (_ = _))
  | .lockReentrantRelease _ => inferInstanceAs (Decidable (_ = _))
  | .sleepMillis _ => inferInstanceAs (Decidable (_ = _))
  | .syscallExit => inferInstanceAs (Decidable (_ = _))

/-- The first context runs with the counter at 0 and every lock free. -/
def initial (s : Sched) (firstCtx : CtxPtr) : Machine where
  sched := s.initFirstCtx firstCtx
  created := [firstCtx]
  irqDisableCounter := 0#32
  underflow := false
  simpleStat := fun _ => 0#32
  reentrant := fun _ => ⟨0#32, 0#32⟩
  point := fun _ => .running
  held := fun _ => 0

end Machine

end Muse.Scheduler
