import Muse.Library.Transition
import Muse.Scheduler.Irq

/-!
# Contexts at a reentrant lock

`lock_reentrant_acquire` and `lock_reentrant_release` of `src/common/sync.c`, called by any number
of contexts. Both functions run with interrupts off, so a call is one step, up to a `preempt` in the
loop of the first: then the context waits, and each later round of its loop is a step. Any context
may take the next step. Contexts are numbered in the order in which `init_first_ctx` and
`create_context` (`src/common/context.c`) give them their ids.
-/

namespace Muse.Sync

open Muse.Scheduler

/-- One round of the loop of `lock_reentrant_acquire` (`sync.c:41-48`). -/
def reentrantTry (lock : LockReentrant) (id : BitVec 32) : Option LockReentrant :=
  if lock.owner = 0#32 then some ⟨1#32, id⟩ else none

/-- `lock_reentrant_acquire` up to its first `preempt` (`sync.c:34-50`). -/
def lockReentrantAcquire (lock : LockReentrant) (id : BitVec 32) : Option LockReentrant :=
  if lock.owner = id then some { lock with cnt := lock.cnt + 1#32 }
  else reentrantTry lock id

/-- `lock_reentrant_release` (`sync.c:52-59`). -/
def lockReentrantRelease (lock : LockReentrant) : LockReentrant :=
  let cnt := lock.cnt - 1#32
  if cnt = 0#32 then ⟨cnt, 0#32⟩ else { lock with cnt }

/-- The lock and the contexts. `surplus c` counts the acquires that context `c` has completed, less
    its releases. -/
structure Reentrant where
  lock : LockReentrant
  ctxId : BitVec 32
  created : Nat
  id : Nat → BitVec 32
  waiting : Nat → Bool
  surplus : Nat → Nat

namespace Reentrant

inductive Op where
  | createContext
  | acquire (c : Nat)
  | retry (c : Nat)
  | release (c : Nat)
  deriving DecidableEq, Repr

/-- Context `c` has completed an acquire. -/
def took (s : Reentrant) (c : Nat) (lock : LockReentrant) : Reentrant :=
  { s with
    lock
    waiting := Function.update s.waiting c false
    surplus := Function.update s.surplus c (s.surplus c + 1) }

def step (s : Reentrant) : Op → Option Reentrant
  | .createContext =>
      some { s with
        id := Function.update s.id s.created s.ctxId
        ctxId := s.ctxId + 1#32
        created := s.created + 1 }
  | .acquire c =>
      match lockReentrantAcquire s.lock (s.id c) with
      | some lock => some (s.took c lock)
      | none => some { s with waiting := Function.update s.waiting c true }
  | .retry c =>
      match reentrantTry s.lock (s.id c) with
      | some lock => some (s.took c lock)
      | none => some s
  | .release c =>
      some { s with
        lock := lockReentrantRelease s.lock
        surplus := Function.update s.surplus c (s.surplus c - 1) }

/-- The steps of a run: a context that waits goes on with its loop, and one that does not wait may
    acquire, and release what it has acquired. -/
def Allowed (s : Reentrant) : Op → Prop
  | .createContext => True
  | .acquire c => c < s.created ∧ s.waiting c = false
  | .retry c => c < s.created ∧ s.waiting c = true
  | .release c => c < s.created ∧ s.waiting c = false ∧ 0 < s.surplus c

instance (s : Reentrant) : ∀ op, Decidable (s.Allowed op)
  | .createContext => inferInstanceAs (Decidable True)
  | .acquire _ => inferInstanceAs (Decidable (_ ∧ _))
  | .retry _ => inferInstanceAs (Decidable (_ ∧ _))
  | .release _ => inferInstanceAs (Decidable (_ ∧ _))

/-- After `init_first_ctx`, with the lock free. -/
def initial : Reentrant where
  lock := ⟨0#32, 0#32⟩
  ctxId := 1#32
  created := 1
  id := fun _ => 0#32
  waiting := fun _ => false
  surplus := fun _ => 0

end Reentrant

end Muse.Sync
