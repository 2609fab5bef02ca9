/-
# The code of `QueuedThreadPool`

The dispatcher keeps the front of the queue in a local variable while it waits
for an idle manager, and removes it from the queue only after a manager has
taken it. All methods lock the member `thread`, whose monitor is called the
dispatcher's monitor here.
-/

import ThreadPools.Posix.ThreadPool

namespace ThreadPools.Posix.QueuedThreadPool

open ThreadPools.Concurrency

/-- `QueuedThreadPool::EmptyQueue` -/
def emptyQueue : Body Section Unit
  | .lock, _ => { op := .lock .dispatcher, next := .inl .body }
  | .body, _ =>
      { op := .unlock .dispatcher, effect := some .emptyQueue, next := .inr () }

/-- `QueuedThreadPool::assign` -/
def assign (t : Runnable) : Body ScanPoint Bool := scan (some t)

/-- `QueuedThreadPool::execute` -/
def execute (t : Option Runnable) : Body Section Unit
  | .lock, _ => { op := .lock .dispatcher, next := .inl .body }
  | .body, pool =>
      if pool.go then
        { op := .unlock .dispatcher, effect := some (.push t)
          notify := some .dispatcher, next := .inr () }
      else { op := .unlock .dispatcher, effect := some (.reject t), next := .inr () }

/-- `QueuedThreadPool::queue_length` -/
def queueLength : Body Section Nat
  | .lock, _ => { op := .lock .dispatcher, next := .inl .body }
  | .body, pool => { op := .unlock .dispatcher, next := .inr pool.queue.length }

/-- The points of `thread_starter` and `QueuedThreadPool::run`. -/
inductive RunPoint
  | add (p : Section)
  /-- at `Lock l(thread)` -/
  | enter
  /-- at `while (go && !queue.empty())` -/
  | outer
  /-- at `while (go && t)` -/
  | inner (t : Option Runnable)
  | assign (t : Runnable) (p : ScanPoint)
  /-- at `queue.pop()` -/
  | assigned (t : Runnable)
  /-- at the `thread.wait()` for an idle manager -/
  | unassigned (t : Runnable)
  /-- inside this `thread.wait()` -/
  | wokenInner (t : Runnable)
  /-- at `while (go && queue.empty())` -/
  | idle
  /-- inside the `thread.wait()` for a task -/
  | wokenIdle
  /-- at `while (go)` of the outermost loop -/
  | again
  | remove (p : Section)
  | exited
  deriving DecidableEq

namespace RunPoint

/-- Inside or behind `assign(t)`. -/
def scanned (t : Runnable) : ScanPoint ⊕ Bool → RunPoint
  | .inl p => .assign t p
  | .inr true => .assigned t
  | .inr false => .unassigned t

def held : RunPoint → List MonitorId
  | .add p => p.held .threadList
  | .enter => []
  | .outer => [.dispatcher]
  | .inner _ => [.dispatcher]
  | .assign _ p => p.held ++ [.dispatcher]
  | .assigned _ => [.dispatcher]
  | .unassigned _ => [.dispatcher]
  | .wokenInner _ => []
  | .idle => [.dispatcher]
  | .wokenIdle => []
  | .again => [.dispatcher]
  | .remove p => p.held .threadList
  | .exited => []

end RunPoint

/-- `thread_starter` and `QueuedThreadPool::run` -/
def run : RunPoint → Pool → Option (Piece RunPoint)
  | .add p, pool =>
      some ((ThreadList.add .dispatcher p pool).map (Sum.elim .add fun _ => .enter))
  | .enter, _ => some { op := .lock .dispatcher, next := .outer }
  | .outer, pool =>
      match pool.go, pool.queue with
      | true, front :: _ => some { next := .inner front }
      | _, _ => some { next := .idle }
  | .inner t, pool =>
      match pool.go, t with
      | true, some task => some { next := .scanned task (ScanPoint.start pool.taskList) }
      | _, _ => some { next := .outer }
  | .assign t p, pool => some ((assign t p pool).map (.scanned t))
  | .assigned _, _ => some { effect := some .pop, next := .outer }
  | .unassigned t, _ => some { op := .wait .dispatcher, next := .wokenInner t }
  | .wokenInner t, _ => some { op := .lock .dispatcher, next := .inner (some t) }
  | .idle, pool =>
      if pool.go && pool.queue.isEmpty then
        some { op := .wait .dispatcher, next := .wokenIdle }
      else some { next := .again }
  | .wokenIdle, _ => some { op := .lock .dispatcher, next := .idle }
  | .again, pool =>
      if pool.go then some { next := .outer }
      else some { op := .unlock .dispatcher, next := .remove .lock }
  | .remove p, pool =>
      some ((ThreadList.remove .dispatcher p pool).map (Sum.elim .remove fun _ => .exited))
  | .exited, _ => none

/-- The points of `QueuedThreadPool::is_idle` and `QueuedThreadPool::is_busy`. -/
inductive CheckPoint
  | enter
  /-- at `thread.is_alive()` and `queue.empty()` -/
  | test
  /-- in `ThreadPool::is_idle()` -/
  | base (p : ThreadPool.CheckPoint)
  /-- at the return, inside the monitor -/
  | leave (result : Bool)
  deriving DecidableEq

def CheckPoint.held : CheckPoint → List MonitorId
  | .enter => []
  | .test => [.dispatcher]
  | .base p => p.held ++ [.dispatcher]
  | .leave _ => [.dispatcher]

/-- Both observers evaluate `alive && queue.empty() && ThreadPool::is_idle()`
lazily; `result` turns the value into theirs. -/
def check (result : Bool → Bool) : Body CheckPoint Bool
  | .enter, _ => { op := .lock .dispatcher, next := .inl .test }
  | .test, pool =>
      if pool.isAlive && pool.queue.isEmpty then { next := .inl (.base .enter) }
      else { next := .inl (.leave (result false)) }
  | .base p, pool =>
      (ThreadPool.isIdle p pool).map
        (Sum.elim (.inl ∘ .base) fun idle => .inl (.leave (result idle)))
  | .leave value, _ => { op := .unlock .dispatcher, next := .inr value }

/-- `QueuedThreadPool::is_idle` -/
def isIdle : Body CheckPoint Bool := check id

/-- `QueuedThreadPool::is_busy` -/
def isBusy : Body CheckPoint Bool := check not

/-- The points of `QueuedThreadPool::terminate`. -/
inductive TerminatePoint
  | enter
  /-- at `go = false` -/
  | stop
  /-- in `ThreadPool::terminate()` -/
  | base (p : ThreadPool.TerminatePoint)
  /-- at the end, inside the monitor -/
  | leave
  deriving DecidableEq

def TerminatePoint.held : TerminatePoint → List MonitorId
  | .enter => []
  | .stop => [.dispatcher]
  | .base p => p.held ++ [.dispatcher]
  | .leave => [.dispatcher]

/-- `QueuedThreadPool::terminate` -/
def terminate : Body TerminatePoint Unit
  | .enter, _ => { op := .lock .dispatcher, next := .inl .stop }
  | .stop, _ =>
      { effect := some .stop, notify := some .dispatcher, next := .inl (.base .enter) }
  | .base p, pool =>
      (ThreadPool.terminate p pool).map (Sum.elim (.inl ∘ .base) fun _ => .inl .leave)
  | .leave, _ => { op := .unlock .dispatcher, next := .inr () }

/-- The points of `QueuedThreadPool::~QueuedThreadPool`. -/
inductive DestroyPoint
  | terminate (p : TerminatePoint)
  /-- at `thread.join()` -/
  | join
  | emptyQueue (p : Section)
  /-- in the last `ThreadPool::terminate()` of the body -/
  | baseTerminate (p : ThreadPool.TerminatePoint)
  /-- in the destructor of the base class -/
  | base (p : ThreadPool.DestroyPoint)
  deriving DecidableEq

def DestroyPoint.held : DestroyPoint → List MonitorId
  | .terminate p => p.held
  | .join => []
  | .emptyQueue p => p.held .dispatcher
  | .baseTerminate p => p.held
  | .base p => p.held

/-- `QueuedThreadPool::~QueuedThreadPool` -/
def destroy : Body DestroyPoint Unit
  | .terminate p, pool =>
      (terminate p pool).map (Sum.elim (.inl ∘ .terminate) fun _ => .inl .join)
  | .join, pool =>
      if pool.isAlive then
        { op := .join .dispatcher, effect := some .joinDispatcher
          next := .inl (.emptyQueue .lock) }
      else { effect := some .joinDispatcher, next := .inl (.emptyQueue .lock) }
  | .emptyQueue p, pool =>
      (emptyQueue p pool).map
        (Sum.elim (.inl ∘ .emptyQueue) fun _ => .inl (.baseTerminate .enter))
  | .baseTerminate p, pool =>
      (ThreadPool.terminate p pool).map
        (Sum.elim (.inl ∘ .baseTerminate) fun _ => .inl (.base (.terminate .enter)))
  | .base p, pool =>
      (ThreadPool.destroy p pool).map (Sum.elim (.inl ∘ .base) fun _ => .inr ())

end ThreadPools.Posix.QueuedThreadPool
