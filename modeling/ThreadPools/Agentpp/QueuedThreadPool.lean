/-
# The code of the Agent++ `QueuedThreadPool`

All methods lock the member `thread`, whose monitor is called the dispatcher's monitor
here. `execute` offers a task to the managers itself when the queue is empty. The dispatcher
takes the front of the queue; when no manager accepts it, `assign` adds it to the end.
-/

import ThreadPools.Agentpp.ThreadPool

namespace ThreadPools.Agentpp.QueuedThreadPool

open ThreadPools.Concurrency

/-- The points of `QueuedThreadPool::assign`. -/
inductive AssignPoint
  /-- at the beginning of the loop over the managers -/
  | search
  | scan (p : ScanPoint)
  /-- at `queue.add(t)` -/
  | add
  deriving DecidableEq

/-- Inside or behind the loop over the managers. -/
def AssignPoint.scanned : ScanPoint ⊕ Bool → AssignPoint ⊕ Unit
  | .inl p => .inl (.scan p)
  | .inr true => .inr ()
  | .inr false => .inl .add

/-- `QueuedThreadPool::assign` -/
def assign (size : Nat) (t : Option Runnable) : Body AssignPoint Unit
  | .search, _ => { next := AssignPoint.scanned (ScanPoint.start size 0) }
  | .scan p, pool => (Agentpp.scan size t p pool).map AssignPoint.scanned
  | .add, _ => { effect := some (.add t), notify := some .dispatcher, next := .inr () }

/-- The points of `QueuedThreadPool::execute`. -/
inductive ExecutePoint
  /-- at `Lock l(thread)` -/
  | enter
  /-- at `queue.empty()` -/
  | test
  | assign (p : AssignPoint)
  /-- at `queue.add(t)` -/
  | add
  /-- at `thread.notify()` -/
  | notify
  deriving DecidableEq

/-- `QueuedThreadPool::execute` -/
def execute (size : Nat) (t : Option Runnable) : Body ExecutePoint Unit
  | .enter, _ => { op := .lock .dispatcher, effect := some (.enter t), next := .inl .test }
  | .test, pool => { next := .inl (if pool.queue.isEmpty then .assign .search else .add) }
  | .assign p, pool =>
      (assign size t p pool).map (.inl ∘ Sum.elim .assign fun _ => .notify)
  | .add, _ => { effect := some (.add t), next := .inl .notify }
  | .notify, _ => { op := .unlock .dispatcher, notify := some .dispatcher, next := .inr () }

/-- The points of `QueuedThreadPool::run`. -/
inductive RunPoint
  /-- at `Lock l(thread)` -/
  | enter
  /-- at `while (go)` -/
  | loop
  /-- at `queue.removeFirst()` -/
  | removeFirst
  | assign (t : Runnable) (p : AssignPoint)
  /-- at `thread.wait(1000)` -/
  | wait
  /-- inside `thread.wait(1000)` -/
  | woken
  | exited
  deriving DecidableEq

/-- Behind `removeFirst()`: a null pointer is not assigned. -/
def RunPoint.removed : Option Runnable → RunPoint
  | some t => .assign t .search
  | none => .wait

/-- `QueuedThreadPool::run` -/
def run (size : Nat) : RunPoint → Pool → Option (Piece RunPoint)
  | .enter, _ => some { op := .lock .dispatcher, next := .loop }
  | .loop, pool =>
      if pool.go then some { next := .removeFirst }
      else some { op := .unlock .dispatcher, next := .exited }
  | .removeFirst, pool =>
      some { effect := some .removeFirst, next := .removed (pool.queue.head?.getD none) }
  | .assign t p, pool =>
      some ((assign size (some t) p pool).map (Sum.elim (.assign t) fun _ => .wait))
  | .wait, _ => some { op := .wait .dispatcher, next := .woken }
  | .woken, _ => some { op := .lock .dispatcher, next := .loop }
  | .exited, _ => none

end ThreadPools.Agentpp.QueuedThreadPool
