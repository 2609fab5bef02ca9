/-
# The code of `ThreadPool`

The `for` loops over `taskList` are points which carry the manager under
inspection and the ones still to come, as the iterator of the source does. The
loop that looks for an idle manager occurs in `ThreadPool::execute` and in
`QueuedThreadPool::assign` in the same form and is written once.
-/

import ThreadPools.Posix.TaskManager

namespace ThreadPools.Posix

open ThreadPools.Concurrency

/-- The points of the loop that offers a task to one manager after another. -/
inductive ScanPoint
  /-- in `is_idle` of the manager `m`, with `rest` to come -/
  | isIdle (m : ManagerId) (rest : List ManagerId) (p : Section)
  /-- in `set_task` of the manager `m` -/
  | setTask (m : ManagerId) (rest : List ManagerId) (p : Section)
  deriving DecidableEq

namespace ScanPoint

/-- The loop from its current position on; it ends without success. -/
def start : List ManagerId → ScanPoint ⊕ Bool
  | [] => .inr false
  | m :: rest => .inl (.isIdle m rest .lock)

def held : ScanPoint → List MonitorId
  | .isIdle m _ p => p.held (.manager m)
  | .setTask m _ p => p.held (.manager m)

end ScanPoint

/-- The loop; its result tells whether a manager has taken the task `t`. -/
def scan (t : Option Runnable) : Body ScanPoint Bool
  | .isIdle m rest p, pool =>
      (TaskManager.isIdle m p pool).map
        (Sum.elim (.inl ∘ .isIdle m rest) fun idle =>
          if idle then .inl (.setTask m rest .lock) else ScanPoint.start rest)
  | .setTask m rest p, pool =>
      (TaskManager.setTask m t p pool).map
        (Sum.elim (.inl ∘ .setTask m rest) fun taken =>
          if taken then .inr true else ScanPoint.start rest)

namespace ThreadPool

/-- The points of `ThreadPool::execute`. -/
inductive ExecutePoint
  /-- at the `Lock` -/
  | enter
  /-- at `taskList.empty()` -/
  | test
  | scan (p : ScanPoint)
  /-- at the `return` inside the loop -/
  | placed
  /-- at `wait()` -/
  | failed
  /-- inside `wait()` -/
  | woken
  deriving DecidableEq

namespace ExecutePoint

/-- Inside or behind the loop over the managers. -/
def scanned : ScanPoint ⊕ Bool → ExecutePoint
  | .inl p => .scan p
  | .inr true => .placed
  | .inr false => .failed

def held : ExecutePoint → List MonitorId
  | .enter => []
  | .test => [.pool]
  | .scan p => p.held ++ [.pool]
  | .placed => [.pool]
  | .failed => [.pool]
  | .woken => []

end ExecutePoint

/-- `ThreadPool::execute` -/
def execute (t : Option Runnable) : Body ExecutePoint Unit
  | .enter, _ => { op := .lock .pool, next := .inl .test }
  | .test, pool =>
      if pool.taskList.isEmpty then
        { op := .unlock .pool, effect := some (.reject t), next := .inr () }
      else { next := .inl (.scanned (ScanPoint.start pool.taskList)) }
  | .scan p, pool => (scan t p pool).map (.inl ∘ .scanned)
  | .placed, _ => { op := .unlock .pool, next := .inr () }
  | .failed, _ => { op := .wait .pool, next := .inl .woken }
  | .woken, _ => { op := .lock .pool, next := .inl .test }

/-- The points of `ThreadPool::is_idle` and `ThreadPool::is_busy`. -/
inductive CheckPoint
  | enter
  | test
  /-- in `is_idle` of the manager `m` -/
  | probe (m : ManagerId) (rest : List ManagerId) (p : Section)
  /-- at the return, inside the monitor -/
  | leave (result : Bool)
  deriving DecidableEq

def CheckPoint.held : CheckPoint → List MonitorId
  | .enter => []
  | .test => [.pool]
  | .probe m _ p => p.held (.manager m) ++ [.pool]
  | .leave _ => [.pool]

/-- The loop of `is_idle` and `is_busy` from its current position on. -/
def CheckPoint.next (atEnd : Bool) : List ManagerId → CheckPoint
  | [] => .leave atEnd
  | m :: rest => .probe m rest .lock

/-- `is_idle` and `is_busy` are the same loop with different results. -/
def check (onEmpty onBusy atEnd : Bool) : Body CheckPoint Bool
  | .enter, _ => { op := .lock .pool, next := .inl .test }
  | .test, pool =>
      if pool.taskList.isEmpty then { next := .inl (.leave onEmpty) }
      else { next := .inl (.next atEnd pool.taskList) }
  | .probe m rest p, pool =>
      (TaskManager.isIdle m p pool).map
        (Sum.elim (.inl ∘ .probe m rest) fun idle =>
          .inl (if idle then .next atEnd rest else .leave onBusy))
  | .leave result, _ => { op := .unlock .pool, next := .inr result }

/-- `ThreadPool::is_idle` -/
def isIdle : Body CheckPoint Bool := check false false true

/-- `ThreadPool::is_busy` -/
def isBusy : Body CheckPoint Bool := check true true false

/-- The points of `ThreadPool::EmptyTaskList`. -/
inductive EmptyPoint
  /-- in `delete taskList[i]` -/
  | destroy (m : ManagerId) (rest : List ManagerId) (p : TaskManager.DestroyPoint)
  /-- at `taskList.clear()` -/
  | clear
  deriving DecidableEq

namespace EmptyPoint

/-- The loop of `EmptyTaskList` from its current position on. -/
def start : List ManagerId → EmptyPoint
  | [] => .clear
  | m :: rest => .destroy m rest .lock

def held : EmptyPoint → List MonitorId
  | .destroy m _ p => p.held m
  | .clear => []

end EmptyPoint

/-- `ThreadPool::EmptyTaskList` -/
def emptyTaskList : Body EmptyPoint Unit
  | .destroy m rest p, pool =>
      (TaskManager.destroy m p pool).map
        (Sum.elim (.inl ∘ .destroy m rest) fun _ => .inl (.start rest))
  | .clear, _ => { effect := some .clear, next := .inr () }

/-- The points of `ThreadPool::terminate`. -/
inductive TerminatePoint
  | enter
  /-- in `stop()` of the manager `m` -/
  | stop (m : ManagerId) (rest : List ManagerId) (p : Section)
  | empty (p : EmptyPoint)
  /-- at `notify()` -/
  | finish
  deriving DecidableEq

namespace TerminatePoint

def held : TerminatePoint → List MonitorId
  | .enter => []
  | .stop m _ p => p.held (.manager m) ++ [.pool]
  | .empty p => p.held ++ [.pool]
  | .finish => [.pool]

/-- The loop over `stop()` from its current position on; `EmptyTaskList` runs
over all managers again. -/
def start (all : List ManagerId) : List ManagerId → TerminatePoint
  | [] => .empty (.start all)
  | m :: rest => .stop m rest .lock

end TerminatePoint

/-- `ThreadPool::terminate` -/
def terminate : Body TerminatePoint Unit
  | .enter, pool =>
      { op := .lock .pool, next := .inl (.start pool.taskList pool.taskList) }
  | .stop m rest p, pool =>
      (TaskManager.stop m p pool).map
        (Sum.elim (.inl ∘ .stop m rest) fun _ => .inl (.start pool.taskList rest))
  | .empty p, pool =>
      (emptyTaskList p pool).map (Sum.elim (.inl ∘ .empty) fun _ => .inl .finish)
  | .finish, _ => { op := .unlock .pool, notify := some .pool, next := .inr () }

/-- The points of `ThreadPool::~ThreadPool`. -/
inductive DestroyPoint
  | terminate (p : TerminatePoint)
  | empty (p : EmptyPoint)
  /-- behind the body: the memory is released -/
  | release
  deriving DecidableEq

def DestroyPoint.held : DestroyPoint → List MonitorId
  | .terminate p => p.held
  | .empty p => p.held
  | .release => []

/-- `ThreadPool::~ThreadPool` -/
def destroy : Body DestroyPoint Unit
  | .terminate p, pool =>
      (terminate p pool).map
        (Sum.elim (.inl ∘ .terminate) fun _ => .inl (.empty (.start pool.taskList)))
  | .empty p, pool =>
      (emptyTaskList p pool).map (Sum.elim (.inl ∘ .empty) fun _ => .inl .release)
  | .release, _ => { effect := some .release, next := .inr () }

end ThreadPool

end ThreadPools.Posix
