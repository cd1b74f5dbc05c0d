import Mathlib.Data.Fintype.Basic
import Muse.Scheduler.Irq

/-!
# Contexts at a multi-lock

The operations of `struct lock_multi` (`src/common/sync.c`), called by `n` contexts. They read and
write the two words of the lock one at a time, and between any two of these accesses another context
may run, so a step is one access. Only inside `lock_scheduler` regions, and up to a `preempt`, a
context is not interrupted: such a region is one step. Any context may take the next step.
-/

namespace Muse.Sync

open Muse.Scheduler.Machine (lstatWrite)

/-- `LSTAT_READ` (`include/muse/sync.h`). -/
def lstatRead : BitVec 32 := 2#32

/-- Where a context stands in the functions of the lock. -/
inductive MultiPoint where
  /-- in its own code -/
  | running
  /-- at the test of `stat` in the loop of `lock_multi_acquire_read` -/
  | acquireReadTest
  /-- at the compare-exchange in the loop of `lock_multi_acquire_read` -/
  | acquireReadExchange
  /-- behind a `preempt` in the first loop of `lock_multi_wait` -/
  | waitPreempted
  /-- in the second loop of `lock_multi_wait` -/
  | waitSpin
  /-- in `lock_multi_release_read`, which found no readers left -/
  | releaseReadStore
  /-- in the loop of `lock_multi_acquire_write` -/
  | acquireWriteExchange
  /-- at the `lock_scheduler` of `lock_multi_signal` -/
  | signalStore
  deriving DecidableEq, Repr

/-- A context: where it stands, how often it has completed `lock_multi_acquire_read` or
    `lock_multi_wait` and not yet begun `lock_multi_release_read`, and how often it has completed
    `lock_multi_acquire_write` and not yet released or signalled. -/
structure MultiCtx where
  point : MultiPoint
  reads : Nat
  writes : Nat
  deriving DecidableEq, Repr

/-- `struct lock_multi` and the contexts that use it. -/
structure Multi (n : Nat) where
  waitingReaders : BitVec 32
  stat : BitVec 32
  ctx : Fin n → MultiCtx

/-- What a context does next: a call, or the next access of the function it is in. -/
inductive MultiCall where
  | acquireRead
  | wait
  | releaseRead
  | acquireWrite
  | signal
  | releaseWrite
  | goOn
  deriving DecidableEq, Repr

namespace Multi

variable {n : Nat}

def setCtx (s : Multi n) (c : Fin n) (x : MultiCtx) : Multi n :=
  { s with ctx := Function.update s.ctx c x }

/-- Context `c` stands at `point`. -/
def setPoint (s : Multi n) (c : Fin n) (point : MultiPoint) : Multi n :=
  s.setCtx c { s.ctx c with point }

/-- Context `c` returns from `lock_multi_acquire_read` or `lock_multi_wait`. -/
def tookRead (s : Multi n) (c : Fin n) : Multi n :=
  s.setCtx c { s.ctx c with point := .running, reads := (s.ctx c).reads + 1 }

/-- A round of the first loop of `lock_multi_wait`, and what follows it (`sync.c:81-86`). -/
def waitRound (s : Multi n) (c : Fin n) : Multi n :=
  if s.stat = lstatRead then s.setPoint c .waitPreempted
  else { s.setPoint c .waitSpin with waitingReaders := s.waitingReaders + 1#32 }

/-- A round of the loop of `lock_multi_acquire_write` (`sync.c:99-103`). -/
def acquireWriteRound (s : Multi n) (c : Fin n) : Multi n :=
  if s.stat = 0#32 then
    { s.setCtx c { s.ctx c with point := .running, writes := (s.ctx c).writes + 1 } with
      stat := lstatWrite }
  else s.setPoint c .acquireWriteExchange

/-- The end of a writer's turn: it leaves `stat` behind. -/
def gaveWrite (s : Multi n) (c : Fin n) (stat : BitVec 32) : Multi n :=
  { s.setCtx c { s.ctx c with point := .running, writes := (s.ctx c).writes - 1 } with stat }

/-- The next access of the function that context `c` is in. -/
def goOn (s : Multi n) (c : Fin n) : Option (Multi n) :=
  match (s.ctx c).point with
  | .running => none
  | .acquireReadTest =>
      if s.stat = lstatRead then some (s.tookRead c)
      else some (s.setPoint c .acquireReadExchange)
  | .acquireReadExchange =>
      if s.stat = 0#32 then some { s.tookRead c with stat := lstatRead }
      else some (s.setPoint c .acquireReadTest)
  | .waitPreempted => some (s.waitRound c)
  | .waitSpin => if s.stat = lstatRead then some (s.tookRead c) else some s
  | .releaseReadStore => some { s.setPoint c .running with stat := 0#32 }
  | .acquireWriteExchange => some (s.acquireWriteRound c)
  | .signalStore =>
      if s.waitingReaders ≠ 0#32 then some (s.gaveWrite c lstatRead)
      else some (s.gaveWrite c 0#32)

def step (s : Multi n) : Fin n × MultiCall → Option (Multi n)
  | (c, .acquireRead) =>
      some { s.setPoint c .acquireReadTest with waitingReaders := s.waitingReaders + 1#32 }
  | (c, .wait) => some (s.waitRound c)
  | (c, .releaseRead) =>
      let waitingReaders := s.waitingReaders - 1#32
      let point := if waitingReaders = 0#32 then .releaseReadStore else .running
      some { s.setCtx c { s.ctx c with point, reads := (s.ctx c).reads - 1 } with waitingReaders }
  | (c, .acquireWrite) => some (s.acquireWriteRound c)
  -- the test of `stat` only prints a message
  | (c, .signal) => some (s.setPoint c .signalStore)
  | (c, .releaseWrite) => some (s.gaveWrite c 0#32)
  | (c, .goOn) => s.goOn c

/-- The steps of a run: a context that is in a function goes on there, and one that is in its own
    code releases only what it holds. -/
def Allowed (s : Multi n) : Fin n × MultiCall → Prop
  | (c, .goOn) => (s.ctx c).point ≠ .running
  | (c, .releaseRead) => (s.ctx c).point = .running ∧ 0 < (s.ctx c).reads
  | (c, .signal) => (s.ctx c).point = .running ∧ 0 < (s.ctx c).writes
  | (c, .releaseWrite) => (s.ctx c).point = .running ∧ 0 < (s.ctx c).writes
  | (c, .acquireRead) => (s.ctx c).point = .running
  | (c, .wait) => (s.ctx c).point = .running
  | (c, .acquireWrite) => (s.ctx c).point = .running

instance (s : Multi n) : ∀ op, Decidable (s.Allowed op)
  | (_, .goOn) => inferInstanceAs (Decidable (_ ≠ _))
  | (_, .releaseRead) => inferInstanceAs (Decidable (_ ∧ _))
  | (_, .signal) => inferInstanceAs (Decidable (_ ∧ _))
  | (_, .releaseWrite) => inferInstanceAs (Decidable (_ ∧ _))
  | (_, .acquireRead) => inferInstanceAs (Decidable (_ = _))
  | (_, .wait) => inferInstanceAs (Decidable (_ = _))
  | (_, .acquireWrite) => inferInstanceAs (Decidable (_ = _))

/-- All contexts run their own code, and the lock is free. -/
def initial (n : Nat) : Multi n where
  waitingReaders := 0#32
  stat := 0#32
  ctx := fun _ => ⟨.running, 0, 0⟩

end Multi

end Muse.Sync
