/-
# The code of the Boost `ThreadPool`

The loops over `taskList` are points which carry the manager under inspection; the list
does not change between the constructor and the destructor. Every method but the
destructor is one critical section of the pool; the wait of `execute` leaves and enters
it again.
-/

import ThreadPools.Boost.TaskManager

namespace ThreadPools.Boost.Pool

namespace ThreadPool

/-- The points of `ThreadPool::execute`. -/
inductive ExecutePoint
  | enter (p : Synchronized.LockPoint)
  /-- in `is_idle` of the manager `m` -/
  | isIdle (m : ManagerId) (p : TaskManager.IdlePoint)
  /-- in `set_task` of the manager `m` -/
  | setTask (m : ManagerId) (p : TaskManager.SetTaskPoint)
  /-- in `wait_for` -/
  | wait (p : Synchronized.WaitPoint)
  | leave (p : Synchronized.UnlockPoint)
  deriving DecidableEq

/-- The loop over the managers from `m` on. -/
def ExecutePoint.next (size : Nat) (m : ManagerId) : ExecutePoint :=
  if m < size then .isIdle m .task else .wait .reset

/-- `ThreadPool::execute` -/
def execute (size : Nat) (task : Option Runnable) (t : Tid) (choice : Choice) :
    Code ExecutePoint Unit
  | .enter p, memory =>
      within .pool (Synchronized.lock t p (memory.sync .pool)) (.inl ∘ .enter)
        fun _ => .inl (.next size 0)
  | .isIdle m p, memory =>
      (TaskManager.isIdle m p memory).map fun piece =>
        piece.map (.inl ∘ Sum.elim (.isIdle m) fun idle =>
          if idle then .setTask m .test else .next size (m + 1))
  | .setTask m p, memory =>
      (TaskManager.setTask m task t choice p memory).map fun piece =>
        piece.map (.inl ∘ Sum.elim (.setTask m) fun done =>
          if done then .leave .test else .next size (m + 1))
  | .wait p, memory =>
      within .pool (Synchronized.wait t true choice p (memory.sync .pool)) (.inl ∘ .wait)
        fun _ => .inl (.next size 0)
  | .leave p, memory =>
      within .pool (Synchronized.unlock t p (memory.sync .pool)) (.inl ∘ .leave) fun _ => .inr ()

/-- The points of `ThreadPool::is_idle` and `ThreadPool::is_busy`. -/
inductive CheckPoint
  | enter (p : Synchronized.LockPoint)
  | isIdle (m : ManagerId) (p : TaskManager.IdlePoint)
  /-- at the return, inside the monitor -/
  | leave (result : Bool) (p : Synchronized.UnlockPoint)
  deriving DecidableEq

/-- The loop from the manager `m` on. -/
def CheckPoint.next (size : Nat) (m : ManagerId) : CheckPoint :=
  if m < size then .isIdle m .task else .leave true .test

/-- A loop that looks for a manager whose `is_idle` is not as `expected`. -/
def check (size : Nat) (expected : Bool) (t : Tid) : Code CheckPoint Bool
  | .enter p, memory =>
      within .pool (Synchronized.lock t p (memory.sync .pool)) (.inl ∘ .enter)
        fun _ => .inl (.next size 0)
  | .isIdle m p, memory =>
      (TaskManager.isIdle m p memory).map fun piece =>
        piece.map (.inl ∘ Sum.elim (.isIdle m) fun idle =>
          if idle = expected then .next size (m + 1) else .leave false .test)
  | .leave result p, memory =>
      within .pool (Synchronized.unlock t p (memory.sync .pool)) (.inl ∘ .leave result)
        fun _ => .inr result

/-- `ThreadPool::is_idle` -/
def isIdle (size : Nat) (t : Tid) : Code CheckPoint Bool := check size true t

/-- `ThreadPool::is_busy` -/
def isBusy (size : Nat) (t : Tid) : Code CheckPoint Bool := check size false t

/-- The points of `ThreadPool::terminate`. -/
inductive TerminatePoint
  | enter (p : Synchronized.LockPoint)
  /-- at `stop()` of the manager `m` -/
  | stop (m : ManagerId)
  | notify (p : Synchronized.NotifyPoint)
  | leave (p : Synchronized.UnlockPoint)
  deriving DecidableEq

/-- The loop over the managers from `m` on. -/
def TerminatePoint.next (size : Nat) (m : ManagerId) : TerminatePoint :=
  if m < size then .stop m else .notify .set

/-- `ThreadPool::terminate` -/
def terminate (size : Nat) (t : Tid) (choice : Choice) : Code TerminatePoint Unit
  | .enter p, memory =>
      within .pool (Synchronized.lock t p (memory.sync .pool)) (.inl ∘ .enter)
        fun _ => .inl (.next size 0)
  | .stop m, _ => some { effect := .stop m, next := .inl (.next size (m + 1)) }
  | .notify p, memory =>
      within .pool (Synchronized.notify true choice p (memory.sync .pool)) (.inl ∘ .notify)
        fun _ => .inl (.leave .test)
  | .leave p, memory =>
      within .pool (Synchronized.unlock t p (memory.sync .pool)) (.inl ∘ .leave) fun _ => .inr ()

/-- The points of `ThreadPool::~ThreadPool`: which manager is to be destroyed next, or a
point in the destructor of the manager `m`. -/
inductive DestroyPoint
  | next (m : ManagerId)
  | manager (m : ManagerId) (p : TaskManager.DestroyPoint)
  deriving DecidableEq

/-- `ThreadPool::~ThreadPool`, which destroys `taskList` -/
def destroy (size : Nat) (ended : ManagerId → Bool) (t : Tid) (choice : Choice) :
    Code DestroyPoint Unit
  | .next m, _ =>
      if m < size then some { next := .inl (.manager m (.enter .test)) }
      else some { effect := .release, next := .inr () }
  | .manager m p, memory =>
      (TaskManager.destroy m ended t choice p memory).map fun piece =>
        piece.map (.inl ∘ Sum.elim (.manager m) fun _ => .next (m + 1))

end ThreadPool

end ThreadPools.Boost.Pool
