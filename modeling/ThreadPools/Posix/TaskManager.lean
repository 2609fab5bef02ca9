/-
# The code of `TaskManager`

The worker executes a task while it is inside its manager's monitor, so that
`is_idle` and `set_task` of other threads wait for the end of the task. The
call `idle_notification()` behind the task is virtual; the monitor it notifies
is a parameter. What a task does inside the pool that runs it is a parameter
too: `nested` is the code of the methods it may call.
-/

import ThreadPools.Posix.Pool

namespace ThreadPools.Posix

open ThreadPools.Concurrency

namespace ThreadList

/-- `ThreadList::add` in the new thread `t`. -/
def add (t : Tid) : Body Section Unit
  | .lock, _ => { op := .lock .threadList, next := .inl .body }
  | .body, _ =>
      { op := .unlock .threadList, effect := some (.addThread t), next := .inr () }

/-- `ThreadList::remove` in the ending thread `t`. -/
def remove (t : Tid) : Body Section Unit
  | .lock, _ => { op := .lock .threadList, next := .inl .body }
  | .body, _ =>
      { op := .unlock .threadList, effect := some (.removeThread t), next := .inr () }

end ThreadList

namespace TaskManager

/-- `TaskManager::is_idle` -/
def isIdle (m : ManagerId) : Body Section Bool
  | .lock, _ => { op := .lock (.manager m), next := .inl .body }
  | .body, pool =>
      { op := .unlock (.manager m)
        next := .inr ((pool.managers m).task.isNone && (pool.managers m).isAlive) }

/-- `TaskManager::set_task` -/
def setTask (m : ManagerId) (t : Option Runnable) : Body Section Bool
  | .lock, _ => { op := .lock (.manager m), next := .inl .body }
  | .body, pool =>
      if (pool.managers m).task.isNone then
        { op := .unlock (.manager m), effect := some (.place t m)
          notify := some (.manager m), next := .inr true }
      else { op := .unlock (.manager m), next := .inr false }

/-- `TaskManager::stop` -/
def stop (m : ManagerId) : Body Section Unit
  | .lock, _ => { op := .lock (.manager m), next := .inl .body }
  | .body, _ =>
      { op := .unlock (.manager m), effect := some (.stopManager m), next := .inr () }

/-- The points of `TaskManager::~TaskManager`. -/
inductive DestroyPoint
  | lock
  | body
  | join
  deriving DecidableEq

def DestroyPoint.held (m : ManagerId) : DestroyPoint → List MonitorId
  | .lock => []
  | .body => [.manager m]
  | .join => []

/-- `TaskManager::~TaskManager`. `Thread::join` waits for the thread only if it
has been started successfully. -/
def destroy (m : ManagerId) : Body DestroyPoint Unit
  | .lock, _ => { op := .lock (.manager m), next := .inl .body }
  | .body, _ =>
      { op := .unlock (.manager m), effect := some (.stopManager m)
        notify := some (.manager m), next := .inl .join }
  | .join, pool =>
      if (pool.managers m).isAlive then
        { op := .join (.worker m), effect := some (.joinManager m), next := .inr () }
      else { effect := some (.joinManager m), next := .inr () }

/-- The points of `thread_starter` and `TaskManager::run` in a worker; `C` are
the points of a method the running task has called. -/
inductive RunPoint (C : Type)
  | add (p : Section)
  /-- at `Lock l(*this)` -/
  | enter
  /-- at `while (go)` -/
  | loop
  /-- inside `task->run()` -/
  | running (nested : Option C)
  /-- at `while (go && !task)` -/
  | inner
  /-- inside `wait()` -/
  | woken
  | remove (p : Section)
  | exited
  deriving DecidableEq

/-- What the environment chooses for a thread: its next internal step, a method
to call, or the end of the task it runs. -/
inductive Input (N : Type)
  | go
  | call (method : N)
  | finish
  deriving DecidableEq

/-- `thread_starter` and `TaskManager::run` of the manager `m`. -/
def run {N C : Type} (idleNotification : MonitorId) (enter : N → Option (Piece C))
    (nested : C → Pool → Piece (C ⊕ Unit)) (m : ManagerId) :
    Input N → RunPoint C → Pool → Option (Piece (RunPoint C))
  | .go, .add p, pool =>
      some ((ThreadList.add (.worker m) p pool).map (Sum.elim .add fun _ => .enter))
  | .go, .enter, _ => some { op := .lock (.manager m), next := .loop }
  | .go, .loop, pool =>
      if (pool.managers m).go then
        if (pool.managers m).task.isSome then
          some { effect := some (.begin m), next := .running none }
        else some { next := .inner }
      else if (pool.managers m).task.isSome then
        some { op := .unlock (.manager m), effect := some (.discard m)
               next := .remove .lock }
      else some { op := .unlock (.manager m), next := .remove .lock }
  | .call method, .running none, _ =>
      (enter method).map fun piece => piece.map (.running ∘ some)
  | .go, .running (some c), pool =>
      some ((nested c pool).map (Sum.elim (.running ∘ some) fun _ => .running none))
  | .finish, .running none, _ =>
      some { effect := some (.finish m), notify := some idleNotification, next := .inner }
  | .go, .inner, pool =>
      if (pool.managers m).go && (pool.managers m).task.isNone then
        some { op := .wait (.manager m), next := .woken }
      else some { next := .loop }
  | .go, .woken, _ => some { op := .lock (.manager m), next := .inner }
  | .go, .remove p, pool =>
      some ((ThreadList.remove (.worker m) p pool).map (Sum.elim .remove fun _ => .exited))
  | _, _, _ => none

end TaskManager

end ThreadPools.Posix
