/-
# The code of the Agent++ `ThreadPool`

The loops over `taskList` are points which carry the manager under inspection. The loop that
looks for an idle manager occurs in `ThreadPool::execute` and in `QueuedThreadPool::assign`
in the same form and is written once.
-/

import ThreadPools.Agentpp.TaskManager

namespace ThreadPools.Agentpp

open ThreadPools.Concurrency

/-- The points of the loop that offers a task to one manager after another. -/
inductive ScanPoint
  /-- in `is_idle` of the manager `m` -/
  | isIdle (m : ManagerId) (p : Section)
  /-- in `set_task` of the manager `m` -/
  | setTask (m : ManagerId) (p : Section)
  deriving DecidableEq

/-- The loop from the manager `m` on; it ends without success. -/
def ScanPoint.start (size : Nat) (m : ManagerId) : ScanPoint ⊕ Bool :=
  if m < size then .inl (.isIdle m .lock) else .inr false

/-- The loop; its result tells whether a manager has taken the task `t`. -/
def scan (size : Nat) (t : Option Runnable) : Body ScanPoint Bool
  | .isIdle m p, pool =>
      (TaskManager.isIdle m p pool).map
        (Sum.elim (.inl ∘ .isIdle m) fun idle =>
          if idle then .inl (.setTask m .lock) else ScanPoint.start size (m + 1))
  | .setTask m p, pool =>
      (TaskManager.setTask m t p pool).map
        (Sum.elim (.inl ∘ .setTask m) fun taken =>
          if taken then .inr true else ScanPoint.start size (m + 1))

namespace ThreadPool

/-- The points of `ThreadPool::execute`. -/
inductive ExecutePoint
  /-- at the `Lock` -/
  | enter
  /-- at the beginning of the loop over the managers -/
  | search
  | scan (p : ScanPoint)
  /-- at the `return` inside the loop -/
  | placed
  /-- at `wait(1000)` -/
  | failed
  /-- inside `wait(1000)` -/
  | woken
  deriving DecidableEq

/-- Inside or behind the loop over the managers. -/
def ExecutePoint.scanned : ScanPoint ⊕ Bool → ExecutePoint
  | .inl p => .scan p
  | .inr true => .placed
  | .inr false => .failed

/-- `ThreadPool::execute` -/
def execute (size : Nat) (t : Option Runnable) : Body ExecutePoint Unit
  | .enter, _ => { op := .lock .pool, next := .inl .search }
  | .search, _ => { next := .inl (.scanned (ScanPoint.start size 0)) }
  | .scan p, pool => (Agentpp.scan size t p pool).map (.inl ∘ .scanned)
  | .placed, _ => { op := .unlock .pool, next := .inr () }
  | .failed, _ => { op := .wait .pool, next := .inl .woken }
  | .woken, _ => { op := .lock .pool, next := .inl .search }

/-- The points of `ThreadPool::terminate`. -/
inductive TerminatePoint
  | enter
  /-- in `stop()` of the manager `m` -/
  | stop (m : ManagerId) (p : Section)
  /-- at `notify()` of the manager `m` -/
  | notify (m : ManagerId)
  /-- at `notify()` of the pool -/
  | leave
  deriving DecidableEq

/-- The loop over the managers from `m` on. -/
def TerminatePoint.next (size : Nat) (m : ManagerId) : TerminatePoint :=
  if m < size then .stop m .lock else .leave

/-- `ThreadPool::terminate` -/
def terminate (size : Nat) : Body TerminatePoint Unit
  | .enter, _ => { op := .lock .pool, next := .inl (.next size 0) }
  | .stop m p, pool =>
      (TaskManager.stop m p pool).map (.inl ∘ Sum.elim (.stop m) fun _ => .notify m)
  | .notify m, _ => { notify := some (.manager m), next := .inl (.next size (m + 1)) }
  | .leave, _ => { op := .unlock .pool, notify := some .pool, next := .inr () }

end ThreadPool

end ThreadPools.Agentpp
