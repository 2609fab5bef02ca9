/-
# The memory of an Agent++ pool

The data members of `TaskManager`, `ThreadPool` and `QueuedThreadPool` of `threads.cpp`, and
the effects which the pieces of code between two synchronization operations have on them. A
pool is used behind its constructor, so that the list of managers does not change. The log is
not part of the program; it records what has happened to the tasks.
-/

import ThreadPools.Concurrency.Tolerant

namespace ThreadPools.Agentpp

open ThreadPools.Concurrency

/-- The address of a `Runnable`; a null pointer is `none : Option Runnable`. -/
abbrev Runnable := Nat

/-- The position of a manager in `taskList`. -/
abbrev ManagerId := Nat

/-- `Thread::ThreadStatus` -/
inductive ThreadStatus
  | idle
  | running
  | finished
  deriving DecidableEq

/-- The threads around one pool: any number of clients, the dispatcher of a
`QueuedThreadPool` and the thread of each manager. -/
inductive Tid
  | client (c : Nat)
  | dispatcher
  | worker (m : ManagerId)
  deriving DecidableEq

/-- The `Synchronized` objects: the member `thread` of a `QueuedThreadPool`, the
`ThreadPool` itself and each `TaskManager`. -/
inductive MonitorId
  | dispatcher
  | pool
  | manager (m : ManagerId)
  deriving DecidableEq

/-- The data members of a `TaskManager`. -/
structure TaskManager where
  task : Option Runnable
  go : Bool
  /-- `thread.status` -/
  status : ThreadStatus

/-- What has happened to the tasks so far. -/
structure Log where
  /-- the tasks of `QueuedThreadPool::execute`, in the order of its critical sections -/
  entered : List Runnable
  /-- the tasks some `set_task` has put into a slot -/
  handed : List (Runnable × ManagerId)
  started : List (Runnable × ManagerId)
  deleted : List (Runnable × ManagerId)

/-- The data members of a pool; `queue` and `go` belong to a `QueuedThreadPool`. -/
structure Pool where
  managers : ManagerId → TaskManager
  oneTimeExecution : Bool
  queue : List (Option Runnable)
  go : Bool
  log : Log

/-- `Thread::is_alive` of a manager's thread. -/
def TaskManager.isAlive (manager : TaskManager) : Bool := manager.status = .running

/-- The effects of the pieces of code. -/
inductive Effect
  /-- `QueuedThreadPool::execute(task)` enters its critical section -/
  | enter (task : Option Runnable)
  /-- `queue.add(t)` -/
  | add (task : Option Runnable)
  /-- `queue.removeFirst()` -/
  | removeFirst
  /-- `task = t` in `set_task` -/
  | place (task : Option Runnable) (m : ManagerId)
  /-- `task->run()` is entered -/
  | begin (m : ManagerId)
  /-- `delete task; task = NULL` -/
  | delete (m : ManagerId)
  /-- `go = false` of a manager -/
  | stopManager (m : ManagerId)
  /-- `go = false` of a `QueuedThreadPool` -/
  | stop
  | setOneTimeExecution (singleExec : Bool)

namespace Pool

/-- Change one manager. -/
def update (pool : Pool) (m : ManagerId) (f : TaskManager → TaskManager) : Pool :=
  { pool with managers := Function.update pool.managers m (f (pool.managers m)) }

/-- What the slot of a manager holds, for the log. -/
def held (pool : Pool) (m : ManagerId) : List (Runnable × ManagerId) :=
  (pool.managers m).task.toList.map (·, m)

/-- The memory after an effect. -/
def apply : Effect → Pool → Pool
  | .enter task, pool =>
      { pool with log := { pool.log with entered := pool.log.entered ++ task.toList } }
  | .add task, pool => { pool with queue := pool.queue ++ [task] }
  | .removeFirst, pool => { pool with queue := pool.queue.tail }
  | .place task m, pool =>
      let filled := pool.update m fun manager => { manager with task := task }
      { filled with
        log := { pool.log with handed := pool.log.handed ++ task.toList.map (·, m) } }
  | .begin m, pool =>
      { pool with log := { pool.log with started := pool.log.started ++ pool.held m } }
  | .delete m, pool =>
      let freed := pool.update m fun manager => { manager with task := none }
      { freed with log := { pool.log with deleted := pool.log.deleted ++ pool.held m } }
  | .stopManager m, pool => pool.update m fun manager => { manager with go := false }
  | .stop, pool => { pool with go := false }
  | .setOneTimeExecution singleExec, pool => { pool with oneTimeExecution := singleExec }

end Pool

/-- A piece of code of the pools which continues at a point of type `X`. -/
abbrev Piece (X : Type) := Instr Tid MonitorId Effect X

/-- A function body with control points of type `Q` and result of type `R`. -/
abbrev Body (Q R : Type) := Q → Pool → Piece (Q ⊕ R)

/-- A function whose body is one critical section. -/
inductive Section
  /-- at the constructor of the `Lock` -/
  | lock
  /-- inside -/
  | body
  deriving DecidableEq

end ThreadPools.Agentpp
