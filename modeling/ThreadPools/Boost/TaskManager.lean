/-
# The code of the Boost `TaskManager`

The worker is inside its manager's monitor except while it waits for a task. `is_idle`
and the first test of `set_task` look at the manager without entering the monitor, and
`set_task` never waits for it: when the monitor is busy, it gives up. What a task does
inside the pool that runs it is a parameter of the worker's code.
-/

import ThreadPools.Boost.Pool

namespace ThreadPools.Boost.Pool

/-- The points of `ThreadPool::idle_notification`. -/
inductive NotificationPoint
  | enter (p : Synchronized.LockPoint)
  | notify (p : Synchronized.NotifyPoint)
  | leave (p : Synchronized.UnlockPoint)
  deriving DecidableEq

/-- `ThreadPool::idle_notification` -/
def idleNotification (t : Tid) (choice : Choice) : Code NotificationPoint Unit
  | .enter p, memory =>
      within .pool (Synchronized.lock t p (memory.sync .pool)) (.inl ∘ .enter)
        fun _ => .inl (.notify .set)
  | .notify p, memory =>
      within .pool (Synchronized.notify false choice p (memory.sync .pool)) (.inl ∘ .notify)
        fun _ => .inl (.leave .test)
  | .leave p, memory =>
      within .pool (Synchronized.unlock t p (memory.sync .pool)) (.inl ∘ .leave) fun _ => .inr ()

namespace TaskManager

/-- The points of `TaskManager::is_idle`. -/
inductive IdlePoint
  /-- at `!task` -/
  | task
  /-- at `thread.is_alive()` -/
  | status
  deriving DecidableEq

/-- `TaskManager::is_idle` -/
def isIdle (m : ManagerId) : Code IdlePoint Bool
  | .task, memory =>
      some { next := if (memory.managers m).task.isNone then .inl .status else .inr false }
  | .status, memory =>
      some { next := .inr (decide ((memory.managers m).status = .running)) }

/-- The points of `TaskManager::set_task`. -/
inductive SetTaskPoint
  /-- at `!task` -/
  | test
  /-- in `try_lock()` -/
  | tryLock (p : Synchronized.TryLockPoint)
  /-- at `if (task)` -/
  | again
  /-- in `unlock()`, too late -/
  | giveUp (p : Synchronized.UnlockPoint)
  /-- at `task = t` -/
  | store
  | notify (p : Synchronized.NotifyPoint)
  | leave (p : Synchronized.UnlockPoint)
  deriving DecidableEq

/-- `TaskManager::set_task`; `OWNED` counts as success of `try_lock()`. -/
def setTask (m : ManagerId) (task : Option Runnable) (t : Tid) (choice : Choice) :
    Code SetTaskPoint Bool
  | .test, memory =>
      some { next :=
        if (memory.managers m).task.isNone then .inl (.tryLock .test) else .inr false }
  | .tryLock p, memory =>
      within (.manager m) (Synchronized.trylock t p (memory.sync (.manager m)))
        (.inl ∘ .tryLock) fun result => if result = .busy then .inr false else .inl .again
  | .again, memory =>
      some { next :=
        if (memory.managers m).task.isSome then .inl (.giveUp .test) else .inl .store }
  | .giveUp p, memory =>
      within (.manager m) (Synchronized.unlock t p (memory.sync (.manager m)))
        (.inl ∘ .giveUp) fun _ => .inr false
  | .store, _ => some { effect := .place task m, next := .inl (.notify .set) }
  | .notify p, memory =>
      within (.manager m) (Synchronized.notify false choice p (memory.sync (.manager m)))
        (.inl ∘ .notify) fun _ => .inl (.leave .test)
  | .leave p, memory =>
      within (.manager m) (Synchronized.unlock t p (memory.sync (.manager m)))
        (.inl ∘ .leave) fun _ => .inr true

/-- The points of `TaskManager::~TaskManager`. -/
inductive DestroyPoint
  | enter (p : Synchronized.LockPoint)
  /-- at `go = false` -/
  | stop
  | notify (p : Synchronized.NotifyPoint)
  | leave (p : Synchronized.UnlockPoint)
  /-- at `thread.join()` -/
  | join
  deriving DecidableEq

/-- `TaskManager::~TaskManager`; `ended` tells which threads have ended. -/
def destroy (m : ManagerId) (ended : ManagerId → Bool) (t : Tid) (choice : Choice) :
    Code DestroyPoint Unit
  | .enter p, memory =>
      within (.manager m) (Synchronized.lock t p (memory.sync (.manager m))) (.inl ∘ .enter)
        fun _ => .inl .stop
  | .stop, _ => some { effect := .stop m, next := .inl (.notify .set) }
  | .notify p, memory =>
      within (.manager m) (Synchronized.notify false choice p (memory.sync (.manager m)))
        (.inl ∘ .notify) fun _ => .inl (.leave .test)
  | .leave p, memory =>
      within (.manager m) (Synchronized.unlock t p (memory.sync (.manager m)))
        (.inl ∘ .leave) fun _ => .inl .join
  | .join, memory =>
      if (memory.managers m).status = .idle then some { next := .inr () }
      else if ended m then some { effect := .join m, next := .inr () }
      else none

/-- The points of `has_task`. -/
inductive HasTaskPoint
  /-- at `!go` -/
  | go
  /-- at `task` -/
  | task
  deriving DecidableEq

/-- The points of `thread_starter` and `TaskManager::run` in a worker; `C` are the points
of a method the running task has called. -/
inductive RunPoint (C : Type)
  /-- the first `thread->lock()` -/
  | add (p : Synchronized.LockPoint)
  | added (p : Synchronized.UnlockPoint)
  /-- at the `scoped_lock` -/
  | enter (p : Synchronized.EnterPoint)
  /-- at `while (go)` -/
  | loop
  /-- at the condition of `wait_until_condition` -/
  | hasTask (p : HasTaskPoint)
  | wait (p : Synchronized.WaitPoint)
  /-- at `if (!go) break` -/
  | woken
  /-- at `if (task)` -/
  | take
  /-- inside `task->run()` -/
  | running (nested : Option C)
  /-- at `delete task`, in the loop or behind it -/
  | delete (looping : Bool)
  /-- at `task = 0`, in the loop or behind it -/
  | clear (looping : Bool)
  | idle (p : NotificationPoint)
  /-- at the second `if (task)` -/
  | stopped
  | leave (p : Synchronized.LeavePoint)
  /-- the second `thread->lock()` -/
  | remove (p : Synchronized.LockPoint)
  /-- at `status = FINISHED` -/
  | finish
  | removed (p : Synchronized.UnlockPoint)
  | exited
  deriving DecidableEq

/-- Inside `cond.wait()`, or at the condition again. -/
def RunPoint.waiting {C : Type} (p : Synchronized.WaitPoint) : RunPoint C :=
  if p = .check then .hasTask .go else .wait p

/-- `thread_starter` and `TaskManager::run` of the manager `m`. -/
def run {C : Type} (m : ManagerId) (nested : C → Memory → Option (Piece (C ⊕ Unit)))
    (choice : Choice) : RunPoint C → Memory → Option (Piece (RunPoint C))
  | .add p, memory =>
      within (.thread m) (Synchronized.lock (.worker m) p (memory.sync (.thread m))) .add
        fun _ => .added .test
  | .added p, memory =>
      within (.thread m) (Synchronized.unlock (.worker m) p (memory.sync (.thread m))) .added
        fun _ => .enter .acquire
  | .enter p, memory =>
      within (.manager m) (Synchronized.enter (.worker m) p (memory.sync (.manager m))) .enter
        fun _ => .loop
  | .loop, memory =>
      some { next := if (memory.managers m).go then .hasTask .go else .stopped }
  | .hasTask .go, memory =>
      some { next := if (memory.managers m).go then .hasTask .task else .woken }
  | .hasTask .task, memory =>
      some { next := if (memory.managers m).task.isSome then .woken else .wait .disown }
  | .wait p, memory =>
      within (.manager m)
        (Synchronized.waitUntilCondition (.worker m) false choice p (memory.sync (.manager m)))
        RunPoint.waiting fun _ => .woken
  | .woken, memory =>
      some { next := if (memory.managers m).go then .take else .stopped }
  | .take, memory =>
      if (memory.managers m).task.isSome then some { effect := .begin m, next := .running none }
      else some { next := .loop }
  | .running none, _ => none
  | .running (some c), memory =>
      (nested c memory).map fun piece =>
        piece.map (Sum.elim (.running ∘ some) fun _ => .running none)
  | .delete looping, _ => some { effect := .delete m, next := .clear looping }
  | .clear looping, _ =>
      some { effect := .clear m
             next := if looping then .idle (.enter .test) else .leave .disown }
  | .idle p, memory =>
      (idleNotification (.worker m) choice p memory).map fun piece =>
        piece.map (Sum.elim .idle fun _ => .loop)
  | .stopped, memory =>
      some { next :=
        if (memory.managers m).task.isSome then .delete false else .leave .disown }
  | .leave p, memory =>
      within (.manager m) (Synchronized.leave p (memory.sync (.manager m))) .leave
        fun _ => .remove .test
  | .remove p, memory =>
      within (.thread m) (Synchronized.lock (.worker m) p (memory.sync (.thread m))) .remove
        fun _ => .finish
  | .finish, _ => some { effect := .finish m, next := .removed .test }
  | .removed p, memory =>
      within (.thread m) (Synchronized.unlock (.worker m) p (memory.sync (.thread m))) .removed
        fun _ => .exited
  | .exited, _ => none

end TaskManager

end ThreadPools.Boost.Pool
