import Mathlib.Data.Fintype.Basic
import Muse.Scheduler.Irq

/-!
# Starting user tasks

`load_elf_user` (`src/kernel/elf_user.c`) leaves the entry point of a task in the global
`userspace_runway` for the context it creates, which picks it up in `jump_ring3`
(`src/kernel/ring3.asm`). `runway_lock` is acquired by the loading context and released by the new
one in `enter_ring3` (`src/kernel/userspace.c`).

The system has `n` contexts, of which those not created yet are `unborn`. A step is what the active
context does up to the next point where it may be switched away from: in the loop of
`lock_simple_acquire`, or anywhere while the interrupt-disable counter is 0. Which context a switch
goes to is left open, and so is whether a timer interrupt switches.
-/

namespace Muse.Scheduler

open Machine (lstatWrite)

/-- Where a context stands in `load_elf_user` or `enter_ring3`. -/
inductive RunwayPoint where
  /-- not created -/
  | unborn
  /-- in other code -/
  | running
  /-- in the loop of `lock_simple_acquire`, with the entry point that is to be loaded -/
  | acquiring (entry : BitVec 32)
  /-- in `load_user_call_info`, behind `lock_simple_acquire` -/
  | acquired (entry : BitVec 32)
  /-- in `load_elf_user`, behind `load_user_call_info` -/
  | loaded (entry : BitVec 32)
  /-- in `load_elf_user`, behind `create_context` -/
  | created
  /-- at the start of `enter_ring3` -/
  | atEntry
  /-- in `enter_ring3`, behind `unlock_scheduler` -/
  | entered
  /-- in `enter_ring3`, behind `lock_simple_release` -/
  | released
  deriving DecidableEq, Repr

/-- The context is in the loop of `lock_simple_acquire`. -/
def RunwayPoint.isAcquiring : RunwayPoint → Bool
  | .acquiring _ => true
  | _ => false

/-- The context is about to store an entry point. -/
def RunwayPoint.isAcquired : RunwayPoint → Bool
  | .acquired _ => true
  | _ => false

/-- A context. `entry` is the entry point that was loaded by the call that created it, and `jumped`
    the one that `jump_ring3` used. A context that was interrupted is behind the `preempt` of
    `handle_timer_inner`. -/
structure RunwayCtx where
  point : RunwayPoint
  interrupted : Bool
  entry : BitVec 32
  jumped : Option (BitVec 32)
  deriving DecidableEq, Repr

/-- The globals and the contexts. -/
structure Runway (n : Nat) where
  irqDisableCounter : BitVec 32
  stat : BitVec 32
  userspaceRunway : BitVec 32
  active : Fin n
  ctx : Fin n → RunwayCtx

namespace Runway

variable {n : Nat}

/-- `lock_scheduler` (`scheduler.c:18-21`). -/
def lockScheduler (s : Runway n) : Runway n :=
  { s with irqDisableCounter := s.irqDisableCounter + 1#32 }

/-- `unlock_scheduler` (`scheduler.c:23-28`). -/
def unlockScheduler (s : Runway n) : Runway n :=
  { s with irqDisableCounter := s.irqDisableCounter - 1#32 }

def setCtx (s : Runway n) (c : Fin n) (x : RunwayCtx) : Runway n :=
  { s with ctx := Function.update s.ctx c x }

/-- The active context stands at `point`. -/
def setPoint (s : Runway n) (point : RunwayPoint) : Runway n :=
  s.setCtx s.active { s.ctx s.active with point }

/-- `context_switch` to `d`, which goes on with the rest of `handle_timer_inner`, with the loop of
    `lock_simple_acquire` or with the start of `enter_ring3`. -/
def switchTo (s : Runway n) (d : Fin n) : Runway n :=
  let s := { s with active := d }
  if (s.ctx d).interrupted then (s.setCtx d { s.ctx d with interrupted := false }).unlockScheduler
  else if (s.ctx d).point = .atEntry then (s.setPoint .entered).unlockScheduler
  else s

/-- What the active context does next. -/
inductive Op (n : Nat) where
  /-- it calls `load_elf_user` for a file with that entry point -/
  | loadElfUser (entry : BitVec 32)
  /-- it creates the context, in `load_elf_user` -/
  | createContext (c : Fin n)
  /-- it goes on in the function it is in -/
  | goOn
  /-- it does not get `runway_lock`, and `preempt` switches to another context -/
  | preempt (d : Fin n)
  /-- it is interrupted, and `handle_timer_inner` switches to another context -/
  | timer (d : Fin n)
  deriving DecidableEq, Repr

/-- The active context goes on (`elf_user.c:13-19`, `userspace.c:19-34`, `ring3.asm:22`). -/
def goOn (s : Runway n) : Option (Runway n) :=
  match (s.ctx s.active).point with
  | .acquiring entry =>
      if s.stat = 0#32 then
        some { (s.setPoint (.acquired entry)).unlockScheduler with stat := lstatWrite }
      else some s
  | .acquired entry => some { s.setPoint (.loaded entry) with userspaceRunway := entry }
  | .created => some (s.setPoint .running).unlockScheduler
  | .entered => some { s.setPoint .released with stat := 0#32 }
  | .released =>
      some (s.setCtx s.active
        { s.ctx s.active with point := .running, jumped := some s.userspaceRunway })
  | _ => none

def step (s : Runway n) : Op n → Option (Runway n)
  | .loadElfUser entry => some (s.setPoint (.acquiring entry)).lockScheduler.lockScheduler
  | .createContext c =>
      match (s.ctx s.active).point with
      | .loaded entry => some ((s.setPoint .created).setCtx c ⟨.atEntry, false, entry, none⟩)
      | _ => none
  | .goOn => s.goOn
  | .preempt d => some (s.switchTo d)
  | .timer d =>
      let s := s.lockScheduler
      some ((s.setCtx s.active { s.ctx s.active with interrupted := true }).switchTo d)

/-- The steps of a run: the timer interrupts only while the counter is 0. -/
def Allowed (s : Runway n) : Op n → Prop
  | .loadElfUser _ => (s.ctx s.active).point = .running
  | .createContext c => (s.ctx c).point = .unborn ∧ c ≠ s.active
  | .goOn => True
  | .preempt d => (s.ctx s.active).point.isAcquiring ∧ s.stat ≠ 0#32 ∧ d ≠ s.active ∧
      (s.ctx d).point ≠ .unborn
  | .timer d => s.irqDisableCounter = 0#32 ∧ d ≠ s.active ∧ (s.ctx d).point ≠ .unborn

instance (s : Runway n) : ∀ op, Decidable (s.Allowed op)
  | .loadElfUser _ => inferInstanceAs (Decidable (_ = _))
  | .createContext _ => inferInstanceAs (Decidable (_ ∧ _))
  | .goOn => inferInstanceAs (Decidable True)
  | .preempt _ => inferInstanceAs (Decidable (_ ∧ _))
  | .timer _ => inferInstanceAs (Decidable (_ ∧ _))

/-- Context `first` runs, and there is no other one. -/
def initial (first : Fin n) : Runway n where
  irqDisableCounter := 0#32
  stat := 0#32
  userspaceRunway := 0#32
  active := first
  ctx := fun c => ⟨if c = first then .running else .unborn, false, 0#32, none⟩

end Runway

end Muse.Scheduler
