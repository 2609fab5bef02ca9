/-
# The code of the Agent++ `TaskManager`

The worker runs a task inside its manager's monitor, so that `is_idle` and `set_task` of
other threads wait for the end of the task. A task may call a method of the pool: its
`is_idle` of the manager that runs it then enters the monitor again and leaves it for good.
The worker goes on without the monitor, and its flags and its slot are read in steps of
their own.
-/

import ThreadPools.Agentpp.Pool

namespace ThreadPools.Agentpp

open ThreadPools.Concurrency

namespace TaskManager

/-- `TaskManager::is_idle` -/
def isIdle (m : ManagerId) : Body Section Bool
  | .lock, _ => { op := .lock (.manager m), next := .inl .body }
  | .body, pool =>
      { op := .unlock (.manager m)
        next := .inr ((pool.managers m).task.isNone && (pool.managers m).isAlive) }

/-- `TaskManager::set_task` -/
def setTask (m : ManagerId) (t : Option Runnable) : Body Section Bool
  | .lock, _ => { op := .lock (.manager m), next := .inl .body }
  | .body, pool =>
      if (pool.managers m).task.isNone then
        { op := .unlock (.manager m), effect := some (.place t m)
          notify := some (.manager m), next := .inr true }
      else { op := .unlock (.manager m), next := .inr false }

/-- `TaskManager::stop`; only the worker waits for the condition that it broadcasts. -/
def stop (m : ManagerId) : Body Section Unit
  | .lock, _ => { op := .lock (.manager m), next := .inl .body }
  | .body, _ =>
      { op := .unlock (.manager m), effect := some (.stopManager m)
        notify := some (.manager m), next := .inr () }

/-- The points of `TaskManager::run`; `C` are the points of a method the running task has
called. -/
inductive RunPoint (C : Type)
  /-- at `Lock l(*this)` -/
  | enter
  /-- at `while (go)` -/
  | loop
  /-- at `if (task)` -/
  | test
  /-- inside `task->run()` -/
  | running (nested : Option C)
  /-- at `threadPool->is_one_time_execution()` -/
  | oneTime
  /-- at `threadPool->idle_notification()` -/
  | idle
  /-- at `go` in `while (go && !task)` -/
  | inner
  /-- at `!task` there -/
  | empty
  /-- at `wait()` -/
  | wait
  /-- inside `wait()` -/
  | woken
  /-- at `if (task)` behind the loop -/
  | stopped
  /-- at the destructor of the `Lock` -/
  | leave
  | exited
  deriving DecidableEq

/-- What the environment chooses for a thread: its next internal step, a method
to call, or the end of the task it runs. -/
inductive Input (N : Type)
  | go
  | call (method : N)
  | finish
  deriving DecidableEq

/-- `TaskManager::run` of the manager `m`. The call `idle_notification()` is virtual; the
monitor it notifies is a parameter. -/
def run {N C : Type} (idleNotification : MonitorId) (enter : N → Option C)
    (nested : C → Pool → Piece (C ⊕ Unit)) (m : ManagerId) :
    Input N → RunPoint C → Pool → Option (Piece (RunPoint C))
  | .go, .enter, _ => some { op := .lock (.manager m), next := .loop }
  | .go, .loop, pool => some { next := if (pool.managers m).go then .test else .stopped }
  | .go, .test, pool =>
      if (pool.managers m).task.isSome then
        some { effect := some (.begin m), next := .running none }
      else some { next := .inner }
  | .call method, .running none, _ =>
      (enter method).map fun call => { next := .running (some call) }
  | .go, .running (some c), pool =>
      some ((nested c pool).map (Sum.elim (.running ∘ some) fun _ => .running none))
  | .finish, .running none, _ => some { effect := some (.delete m), next := .oneTime }
  | .go, .oneTime, pool => some { next := if pool.oneTimeExecution then .leave else .idle }
  | .go, .idle, _ => some { notify := some idleNotification, next := .inner }
  | .go, .inner, pool => some { next := if (pool.managers m).go then .empty else .loop }
  | .go, .empty, pool =>
      some { next := if (pool.managers m).task.isNone then .wait else .loop }
  | .go, .wait, _ => some { op := .wait (.manager m), next := .woken }
  | .go, .woken, _ => some { op := .lock (.manager m), next := .inner }
  | .go, .stopped, pool =>
      if (pool.managers m).task.isSome then
        some { effect := some (.delete m), next := .leave }
      else some { next := .leave }
  | .go, .leave, _ => some { op := .unlock (.manager m), next := .exited }
  | _, _, _ => none

end TaskManager

end ThreadPools.Agentpp
