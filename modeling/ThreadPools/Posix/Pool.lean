/-
# The shared memory of a posix pool

The data members of `TaskManager`, `ThreadPool` and `QueuedThreadPool`, the
threads and monitors around one pool object, and the effects which the pieces
of code between two synchronization operations have on the memory. A
`Runnable*` is an address or null; addresses are never reused.

The log is not part of the program. It records which task has been submitted
by whom, pushed, placed into a slot, started, finished and deleted, in the
order of these events. Every `delete` of a task is noted in `deleted`, and once
more under the reason for it.
-/

import ThreadPools.Concurrency.Program

namespace ThreadPools.Posix

open ThreadPools.Concurrency

/-- The address of a `Runnable`; a null pointer is `none : Option Runnable`. -/
abbrev Runnable := Nat

/-- The position at which a `TaskManager` was created. -/
abbrev ManagerId := Nat

/-- `Thread::ThreadStatus`. -/
inductive ThreadStatus
  | idle
  | running
  | finished
  deriving DecidableEq

/-- The threads around one pool: any number of clients, the dispatcher of a
`QueuedThreadPool` and the thread of each manager. -/
inductive Tid
  | client (c : Nat)
  | dispatcher
  | worker (m : ManagerId)
  deriving DecidableEq

/-- The `Synchronized` objects: the member `thread` of a `QueuedThreadPool`, the
`ThreadPool` itself, each `TaskManager`, and the global `ThreadList`. -/
inductive MonitorId
  | dispatcher
  | pool
  | manager (m : ManagerId)
  | threadList
  deriving DecidableEq

/-- The data members of a `TaskManager`. -/
structure TaskManager where
  task : Option Runnable
  go : Bool
  /-- `thread.status` -/
  status : ThreadStatus
  /-- the destructor has run -/
  destroyed : Bool

/-- What has happened to the tasks so far. -/
structure Log where
  /-- calls `execute(task)`, with the calling thread -/
  submitted : List (Runnable × Tid)
  /-- arguments of `queue.push` -/
  pushed : List (Option Runnable)
  /-- successful calls of `set_task` -/
  placed : List (Option Runnable × ManagerId)
  started : List Runnable
  deleted : List Runnable
  /-- tasks whose `run()` has returned or thrown -/
  finished : List Runnable
  /-- tasks which a stopped worker has found in its slot -/
  discarded : List Runnable
  /-- tasks deleted by `execute` -/
  rejected : List Runnable
  /-- what `EmptyQueue` has removed -/
  dropped : List (Option Runnable)
  /-- the destructor of the pool has been called -/
  closing : Bool
  /-- the destructor of the pool has finished -/
  released : Bool

/-- The data members of a pool. `queue`, `go` and `status` (of the member
`thread`) belong to a `QueuedThreadPool`. -/
structure Pool where
  taskList : List ManagerId
  managers : ManagerId → TaskManager
  queue : List (Option Runnable)
  go : Bool
  status : ThreadStatus
  /-- `Thread::threadList` -/
  threads : List Tid
  log : Log

/-- `Thread::is_alive` of a manager's thread. -/
def TaskManager.isAlive (manager : TaskManager) : Bool :=
  manager.status = .running

/-- `Thread::is_alive` of the dispatcher. -/
def Pool.isAlive (pool : Pool) : Bool :=
  pool.status = .running

/-- The effects of the pieces of code. -/
inductive Effect
  /-- `ThreadList::add` -/
  | addThread (t : Tid)
  /-- `ThreadList::remove` -/
  | removeThread (t : Tid)
  /-- a thread calls `execute(task)` -/
  | submit (task : Runnable) (t : Tid)
  /-- `delete t` in `execute` -/
  | reject (task : Option Runnable)
  /-- `queue.push(t)` -/
  | push (task : Option Runnable)
  /-- `queue.pop()` -/
  | pop
  /-- `task = t` in `set_task` -/
  | place (task : Option Runnable) (m : ManagerId)
  /-- `task->run()` is entered -/
  | begin (m : ManagerId)
  /-- `task->run()` has ended; `delete task; task = NULL` -/
  | finish (m : ManagerId)
  /-- `delete task; task = NULL` behind the loop of the worker -/
  | discard (m : ManagerId)
  /-- `go = false` of a manager -/
  | stopManager (m : ManagerId)
  /-- `thread.join()` has returned and the manager's memory is released -/
  | joinManager (m : ManagerId)
  /-- `taskList.clear()` -/
  | clear
  /-- `go = false` of the pool -/
  | stop
  /-- `thread.join()` of the dispatcher has returned -/
  | joinDispatcher
  /-- the loop of `EmptyQueue` -/
  | emptyQueue
  /-- a thread calls the destructor of the pool -/
  | close
  /-- the destructor of the pool has finished -/
  | release

namespace Pool

/-- Change one manager. -/
def update (pool : Pool) (m : ManagerId) (f : TaskManager → TaskManager) : Pool :=
  { pool with managers := Function.update pool.managers m (f (pool.managers m)) }

/-- `delete` of what a manager's slot holds, and `task = NULL`. -/
def deleteTask (pool : Pool) (m : ManagerId) : Pool :=
  let freed := pool.update m fun manager => { manager with task := none }
  { freed with
    log := { pool.log with
      deleted := pool.log.deleted ++ (pool.managers m).task.toList } }

/-- The memory after an effect. -/
def apply : Effect → Pool → Pool
  | .addThread t, pool => { pool with threads := pool.threads ++ [t] }
  | .removeThread t, pool => { pool with threads := pool.threads.filter (· ≠ t) }
  | .submit task t, pool =>
      { pool with log := { pool.log with submitted := pool.log.submitted ++ [(task, t)] } }
  | .reject task, pool =>
      { pool with
        log := { pool.log with
          deleted := pool.log.deleted ++ task.toList
          rejected := pool.log.rejected ++ task.toList } }
  | .push task, pool =>
      { pool with
        queue := pool.queue ++ [task]
        log := { pool.log with pushed := pool.log.pushed ++ [task] } }
  | .pop, pool => { pool with queue := pool.queue.tail }
  | .place task m, pool =>
      let filled := pool.update m fun manager => { manager with task := task }
      { filled with log := { pool.log with placed := pool.log.placed ++ [(task, m)] } }
  | .begin m, pool =>
      { pool with
        log := { pool.log with
          started := pool.log.started ++ (pool.managers m).task.toList } }
  | .finish m, pool =>
      let freed := pool.deleteTask m
      { freed with
        log := { freed.log with
          finished := pool.log.finished ++ (pool.managers m).task.toList } }
  | .discard m, pool =>
      let freed := pool.deleteTask m
      { freed with
        log := { freed.log with
          discarded := pool.log.discarded ++ (pool.managers m).task.toList } }
  | .stopManager m, pool => pool.update m fun manager => { manager with go := false }
  | .joinManager m, pool =>
      pool.update m fun manager => { manager with status := .idle, destroyed := true }
  | .clear, pool => { pool with taskList := [] }
  | .stop, pool => { pool with go := false }
  | .joinDispatcher, pool => { pool with status := .idle }
  | .emptyQueue, pool =>
      { pool with
        queue := []
        log := { pool.log with
          deleted := pool.log.deleted ++ pool.queue.reduceOption
          dropped := pool.log.dropped ++ pool.queue } }
  | .close, pool => { pool with log := { pool.log with closing := true } }
  | .release, pool => { pool with log := { pool.log with released := true } }

@[simp] theorem update_managers_self (pool : Pool) (m : ManagerId)
    (f : TaskManager → TaskManager) :
    (pool.update m f).managers m = f (pool.managers m) := by
  simp [update]

end Pool

/-- A piece of code of the pools which continues at a point of type `X`. -/
abbrev Piece (X : Type) := Instr Tid MonitorId Effect X

/-- A function body with control points of type `Q` and result of type `R`. -/
abbrev Body (Q R : Type) := Q → Pool → Piece (Q ⊕ R)

/-- A function whose body is one critical section. -/
inductive Section
  /-- at the constructor of the `Lock` -/
  | lock
  /-- inside -/
  | body
  deriving DecidableEq

/-- The monitors held inside a critical section of `m`. -/
def Section.held (m : MonitorId) : Section → List MonitorId
  | .lock => []
  | .body => [m]

end ThreadPools.Posix
