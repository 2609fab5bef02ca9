/-
# An Agent++ pool with its threads

One object, a `ThreadPool` or a `QueuedThreadPool`, together with any number of client
threads, its dispatcher and its workers. A client calls a method when it likes, and so does a
task while it runs. A run starts behind the constructor: every thread that could be created is
at the beginning of its `run()`, and its status says so. The status stays the same until the
destructor joins the thread.
-/

import ThreadPools.Agentpp.QueuedThreadPool

namespace ThreadPools.Agentpp

open ThreadPools.Concurrency

/-- The dynamic type of the pool. -/
inductive Kind
  | threadPool
  | queuedThreadPool
  deriving DecidableEq

structure Config where
  kind : Kind
  size : Nat
  /-- `pthread_create` has succeeded for the thread of a manager -/
  created : ManagerId → Bool
  /-- and for the dispatcher -/
  dispatcherCreated : Bool

/-- A pool whose threads could all be created. -/
def Config.complete (kind : Kind) (size : Nat) : Config where
  kind := kind
  size := size
  created _ := true
  dispatcherCreated := true

/-- The methods of a pool. -/
inductive Method
  | execute (task : Option Runnable)
  | setOneTimeExecution (singleExec : Bool)
  | terminate
  /-- `QueuedThreadPool::stop` -/
  | stop
  deriving DecidableEq

/-- The points of a call. -/
inductive Call
  | execute (task : Option Runnable) (p : ThreadPool.ExecutePoint)
  | queuedExecute (task : Option Runnable) (p : QueuedThreadPool.ExecutePoint)
  | setOneTimeExecution (singleExec : Bool)
  | terminate (p : ThreadPool.TerminatePoint)
  | stop
  deriving DecidableEq

namespace Call

/-- The first point of a method; only a `QueuedThreadPool` can be stopped. -/
def entry : Kind → Method → Option Call
  | .threadPool, .execute task => some (.execute task .enter)
  | .queuedThreadPool, .execute task => some (.queuedExecute task .enter)
  | _, .setOneTimeExecution singleExec => some (.setOneTimeExecution singleExec)
  | _, .terminate => some (.terminate .enter)
  | .threadPool, .stop => none
  | .queuedThreadPool, .stop => some .stop

/-- The code of the methods. -/
def code (size : Nat) : Body Call Unit
  | .execute task p, pool => (ThreadPool.execute size task p pool).map (Sum.map (.execute task) id)
  | .queuedExecute task p, pool =>
      (QueuedThreadPool.execute size task p pool).map (Sum.map (.queuedExecute task) id)
  | .setOneTimeExecution singleExec, _ =>
      { effect := some (.setOneTimeExecution singleExec), next := .inr () }
  | .terminate p, pool => (ThreadPool.terminate size p pool).map (Sum.map .terminate id)
  | .stop, _ => { effect := some .stop, next := .inr () }

/-- The point behind a `wait`. -/
def resumed : Call → Call
  | .execute task .woken => .execute task .search
  | call => call

end Call

/-- The control points of all threads. -/
inductive Point
  /-- a client, outside of the pool or in a call -/
  | client (call : Option Call)
  | dispatcher (p : QueuedThreadPool.RunPoint)
  | worker (p : TaskManager.RunPoint Call)
  deriving DecidableEq

namespace Point

/-- The call a thread is in. -/
def call : Point → Option Call
  | .client call => call
  | .worker (.running call) => call
  | _ => none

/-- The point behind a `wait`. -/
def resumed : Point → Point
  | .client (some call) => .client (some call.resumed)
  | .dispatcher .woken => .dispatcher .loop
  | .worker (.running (some call)) => .worker (.running (some call.resumed))
  | .worker .woken => .worker .inner
  | p => p

def exited : Point → Bool
  | .dispatcher .exited => true
  | .worker .exited => true
  | _ => false

end Point

/-- The environment's choices for the threads of a pool. -/
abbrev Input := TaskManager.Input Method

abbrev PoolState := State Tid MonitorId Pool Point

abbrev PoolAction := Action Tid MonitorId Input

namespace PoolAction

/-- The thread performs its next piece of code. -/
def go (t : Tid) : PoolAction := .run t .go 0

/-- The thread, or the task it runs, calls a method. -/
def call (t : Tid) (method : Method) : PoolAction := .run t (.call method) 0

/-- The task of the manager `m` ends, with or without an exception. -/
def finish (m : ManagerId) : PoolAction := .run (.worker m) .finish 0

/-- The thread performs its next `n` pieces of code. -/
def steps (t : Tid) (n : Nat) : List PoolAction := List.replicate n (go t)

end PoolAction

/-- The monitor which the virtual `idle_notification()` notifies. -/
def idleNotification : Kind → MonitorId
  | .threadPool => .pool
  | .queuedThreadPool => .dispatcher

namespace Config

variable (cfg : Config)

/-- The code of a client. -/
def clientCode : Input → Option Call → Pool → Option (Piece (Option Call))
  | .call method, none, _ => (Call.entry cfg.kind method).map fun call => { next := some call }
  | .go, some call, pool =>
      some ((call.code cfg.size pool).map (Sum.elim some fun _ => none))
  | _, _, _ => none

/-- The code of a worker. -/
def workerCode (m : ManagerId) :
    Input → TaskManager.RunPoint Call → Pool → Option (Piece (TaskManager.RunPoint Call)) :=
  TaskManager.run (idleNotification cfg.kind) (Call.entry cfg.kind) (Call.code cfg.size) m

/-- The code of all threads. -/
def code : Tid → Input → Point → Pool → Option (Piece Point)
  | .client _, input, .client call, pool =>
      (cfg.clientCode input call pool).map fun piece => piece.map .client
  | .dispatcher, .go, .dispatcher p, pool =>
      (QueuedThreadPool.run cfg.size p pool).map fun piece => piece.map .dispatcher
  | .worker m, input, .worker p, pool =>
      (cfg.workerCode m input p pool).map fun piece => piece.map .worker
  | _, _, _, _ => none

/-- The pool as a program. -/
def program : TolerantProgram Tid MonitorId Pool Effect Point Input where
  code := cfg.code
  apply := Pool.apply
  resumed := Point.resumed
  exited := Point.exited

/-- The status behind `start()`. -/
def startStatus (created : Bool) : ThreadStatus := if created then .running else .finished

/-- The memory behind the constructor. -/
def initialPool : Pool where
  managers m := { task := none, go := true, status := startStatus (cfg.created m) }
  oneTimeExecution := false
  queue := []
  go := true
  log := { entered := [], handed := [], started := [], deleted := [] }

/-- The first point of each thread. -/
def initialPoint : Tid → Point
  | .client _ => .client none
  | .dispatcher =>
      .dispatcher (if cfg.kind = .queuedThreadPool ∧ cfg.dispatcherCreated then .enter else .exited)
  | .worker m => .worker (if m < cfg.size ∧ cfg.created m then .enter else .exited)

def initial : PoolState where
  data := cfg.initialPool
  monitor _ := .fresh
  pc := cfg.initialPoint

end Config

end ThreadPools.Agentpp
