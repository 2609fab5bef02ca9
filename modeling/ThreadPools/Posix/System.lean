/-
# A pool with its threads

One object, a `ThreadPool` or a `QueuedThreadPool`, together with any number of
client threads, its dispatcher and its workers. Virtual calls are resolved by
the kind of the object. A run starts when the constructor has finished: every
thread that could be created is at its first point, and the threads which
could not be created have ended; the steps a new thread may have taken before
touch nothing the constructor uses.

What clients may do is not restricted by the program. The restrictions under
which the pools are used are guards on the steps of a run: a task is submitted
once, the destructor is called once and after all other calls have returned,
and tasks may be forbidden to call the pool that runs them.
-/

import ThreadPools.Concurrency.Annotation
import ThreadPools.Concurrency.Deadlock
import ThreadPools.Posix.QueuedThreadPool

namespace ThreadPools.Posix

open ThreadPools.Concurrency

/-- The dynamic type of the pool. -/
inductive Kind
  | threadPool
  | queuedThreadPool
  deriving DecidableEq

structure Config where
  kind : Kind
  size : Nat
  /-- `pthread_create` has succeeded for the thread of a manager -/
  created : ManagerId → Bool
  /-- and for the dispatcher -/
  dispatcherCreated : Bool

/-- A pool whose threads could all be created. -/
def Config.complete (kind : Kind) (size : Nat) : Config where
  kind := kind
  size := size
  created _ := true
  dispatcherCreated := true

/-- The public methods of a pool. -/
inductive Method
  | execute (task : Option Runnable)
  | isIdle
  | isBusy
  | queueLength
  | terminate
  | destroy
  deriving DecidableEq

/-- The points of a call of a public method. -/
inductive Call
  | execute (task : Option Runnable) (p : ThreadPool.ExecutePoint)
  | isIdle (p : ThreadPool.CheckPoint)
  | isBusy (p : ThreadPool.CheckPoint)
  | terminate (p : ThreadPool.TerminatePoint)
  | destroy (p : ThreadPool.DestroyPoint)
  | queuedExecute (task : Option Runnable) (p : Section)
  | queuedIsIdle (p : QueuedThreadPool.CheckPoint)
  | queuedIsBusy (p : QueuedThreadPool.CheckPoint)
  | queueLength (p : Section)
  | queuedTerminate (p : QueuedThreadPool.TerminatePoint)
  | queuedDestroy (p : QueuedThreadPool.DestroyPoint)
  deriving DecidableEq

namespace Call

/-- The monitors entered by the call. -/
def held : Call → List MonitorId
  | .execute _ p => p.held
  | .isIdle p => p.held
  | .isBusy p => p.held
  | .terminate p => p.held
  | .destroy p => p.held
  | .queuedExecute _ p => p.held .dispatcher
  | .queuedIsIdle p => p.held
  | .queuedIsBusy p => p.held
  | .queueLength p => p.held .dispatcher
  | .queuedTerminate p => p.held
  | .queuedDestroy p => p.held

/-- The monitor whose condition the call waits on. -/
def waitsAt : Call → Option MonitorId
  | .execute _ .woken => some .pool
  | _ => none

/-- The first point of a method; a `ThreadPool` has no queue. -/
def entry : Kind → Method → Option Call
  | .threadPool, .execute task => some (.execute task .enter)
  | .threadPool, .isIdle => some (.isIdle .enter)
  | .threadPool, .isBusy => some (.isBusy .enter)
  | .threadPool, .queueLength => none
  | .threadPool, .terminate => some (.terminate .enter)
  | .threadPool, .destroy => some (.destroy (.terminate .enter))
  | .queuedThreadPool, .execute task => some (.queuedExecute task .lock)
  | .queuedThreadPool, .isIdle => some (.queuedIsIdle .enter)
  | .queuedThreadPool, .isBusy => some (.queuedIsBusy .enter)
  | .queuedThreadPool, .queueLength => some (.queueLength .lock)
  | .queuedThreadPool, .terminate => some (.queuedTerminate .enter)
  | .queuedThreadPool, .destroy => some (.queuedDestroy (.terminate .enter))

/-- Forget the result of a method. -/
def piece {Q R : Type} (embed : Q → Call) (body : Piece (Q ⊕ R)) : Piece (Call ⊕ Unit) :=
  body.map (Sum.elim (.inl ∘ embed) fun _ => .inr ())

/-- The code of the methods. -/
def code : Body Call Unit
  | .execute task p, pool => piece (.execute task) (ThreadPool.execute task p pool)
  | .isIdle p, pool => piece .isIdle (ThreadPool.isIdle p pool)
  | .isBusy p, pool => piece .isBusy (ThreadPool.isBusy p pool)
  | .terminate p, pool => piece .terminate (ThreadPool.terminate p pool)
  | .destroy p, pool => piece .destroy (ThreadPool.destroy p pool)
  | .queuedExecute task p, pool =>
      piece (.queuedExecute task) (QueuedThreadPool.execute task p pool)
  | .queuedIsIdle p, pool => piece .queuedIsIdle (QueuedThreadPool.isIdle p pool)
  | .queuedIsBusy p, pool => piece .queuedIsBusy (QueuedThreadPool.isBusy p pool)
  | .queueLength p, pool => piece .queueLength (QueuedThreadPool.queueLength p pool)
  | .queuedTerminate p, pool =>
      piece .queuedTerminate (QueuedThreadPool.terminate p pool)
  | .queuedDestroy p, pool => piece .queuedDestroy (QueuedThreadPool.destroy p pool)

/-- What the log notes when `t` enters a method. -/
def entered (t : Tid) : Call → Option Effect
  | .execute (some task) .enter => some (.submit task t)
  | .queuedExecute (some task) .lock => some (.submit task t)
  | .destroy (.terminate .enter) => some .close
  | .queuedDestroy (.terminate .enter) => some .close
  | _ => none

end Call

/-- The control points of all threads. -/
inductive Point
  /-- a client, outside of the pool or in a call -/
  | client (call : Option Call)
  | dispatcher (p : QueuedThreadPool.RunPoint)
  | worker (p : TaskManager.RunPoint Call)
  deriving DecidableEq

namespace Point

def held : Tid → Point → List MonitorId
  | _, .client none => []
  | _, .client (some call) => call.held
  | _, .dispatcher p => p.held
  | .worker m, .worker p =>
      match p with
      | .add p => p.held .threadList
      | .enter => []
      | .loop => [.manager m]
      | .running none => [.manager m]
      | .running (some call) => call.held ++ [.manager m]
      | .inner => [.manager m]
      | .woken => []
      | .remove p => p.held .threadList
      | .exited => []
  | _, .worker _ => []

def waitsAt : Tid → Point → Option MonitorId
  | _, .client none => none
  | _, .client (some call) => call.waitsAt
  | _, .dispatcher (.wokenInner _) => some .dispatcher
  | _, .dispatcher .wokenIdle => some .dispatcher
  | _, .dispatcher _ => none
  | .worker m, .worker .woken => some (.manager m)
  | _, .worker (.running (some call)) => call.waitsAt
  | _, .worker _ => none

/-- An exception that leaves a method called by a task ends in the task. -/
def handler : Point → Point
  | .worker (.running (some _)) => .worker (.running none)
  | p => p

def exited : Point → Bool
  | .dispatcher .exited => true
  | .worker .exited => true
  | _ => false

end Point

/-- The environment's choices for the threads of a pool. -/
abbrev Input := TaskManager.Input Method

abbrev PoolState := State Tid MonitorId Pool Point

abbrev PoolAction := Action Tid MonitorId Input

namespace PoolAction

/-- The thread performs its next piece of code. -/
def go (t : Tid) : PoolAction := .run t .go 0

/-- The thread, or the task it runs, calls a method. -/
def call (t : Tid) (method : Method) : PoolAction := .run t (.call method) 0

/-- The task of the manager `m` ends. -/
def finish (m : ManagerId) : PoolAction := .run (.worker m) .finish 0

/-- The thread performs its next `n` pieces of code. -/
def steps (t : Tid) (n : Nat) : List PoolAction := List.replicate n (go t)

end PoolAction

/-- The monitor which the virtual `idle_notification()` notifies. -/
def idleNotification : Kind → MonitorId
  | .threadPool => .pool
  | .queuedThreadPool => .dispatcher

namespace Config

variable (cfg : Config)

/-- The thread `t` calls a method. -/
def enter (t : Tid) (method : Method) : Option (Piece Call) :=
  (Call.entry cfg.kind method).map fun call =>
    { effect := call.entered t, next := call }

/-- The code of a client. -/
def clientCode (t : Tid) : Input → Option Call → Pool → Option (Piece (Option Call))
  | .call method, none, _ => (cfg.enter t method).map fun piece => piece.map some
  | .go, some call, pool => some ((call.code pool).map (Sum.elim some fun _ => none))
  | _, _, _ => none

/-- The code of a worker. -/
def workerCode (m : ManagerId) :
    Input → TaskManager.RunPoint Call → Pool → Option (Piece (TaskManager.RunPoint Call)) :=
  TaskManager.run (idleNotification cfg.kind) (cfg.enter (.worker m)) Call.code m

/-- The code of all threads. -/
def code : Tid → Input → Point → Pool → Option (Piece Point)
  | .client c, input, .client call, pool =>
      (cfg.clientCode (.client c) input call pool).map fun piece => piece.map .client
  | .dispatcher, .go, .dispatcher p, pool =>
      (QueuedThreadPool.run p pool).map fun piece => piece.map .dispatcher
  | .worker m, input, .worker p, pool =>
      (cfg.workerCode m input p pool).map fun piece => piece.map .worker
  | _, _, _, _ => none

/-- The pool as a program. -/
def program : Program Tid MonitorId Pool Effect Point Input where
  code := cfg.code
  apply := Pool.apply
  held := Point.held
  waitsAt := Point.waitsAt
  handler := Point.handler
  exited := Point.exited

/-- A thread is running if it could be created. -/
def startStatus (created : Bool) : ThreadStatus :=
  if created then .running else .finished

/-- The memory behind the constructor. -/
def initialPool : Pool where
  taskList := List.range cfg.size
  managers m :=
    { task := none, go := true, status := startStatus (cfg.created m), destroyed := false }
  queue := []
  go := true
  status := startStatus cfg.dispatcherCreated
  threads := []
  log :=
    { submitted := [], pushed := [], placed := [], started := [], deleted := []
      finished := [], discarded := [], rejected := [], dropped := []
      closing := false, released := false }

/-- The first point of each thread. -/
def initialPoint : Tid → Point
  | .client _ => .client none
  | .dispatcher =>
      if cfg.kind = .queuedThreadPool ∧ cfg.dispatcherCreated then
        .dispatcher (.add .lock)
      else .dispatcher .exited
  | .worker m =>
      if m < cfg.size ∧ cfg.created m then .worker (.add .lock) else .worker .exited

def initial : PoolState where
  data := cfg.initialPool
  monitor _ := .fresh
  pc := cfg.initialPoint

end Config

end ThreadPools.Posix
