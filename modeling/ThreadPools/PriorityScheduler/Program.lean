/-
# The priority scheduler

`priority_scheduler` executes functions in the order of their priorities, in all threads
that are inside `run()`. The flag `stopped_` has no initializer: the constructor of an
executor clears it, without the mutex, and `stop()` sets it. A function is executed
outside of the mutex and may call every method of the scheduler, `run()` included.
-/

import ThreadPools.Concurrency.Program

namespace ThreadPools.PriorityScheduler

open ThreadPools.Concurrency

/-- An item of the queue: its priority, and the function it holds. -/
structure Item where
  priority : Int
  function : Nat
  deriving DecidableEq

/-- The data members of `priority_scheduler`, and what has happened so far. -/
structure Scheduler (T : Type*) where
  /-- `mutex_` and `condition_` -/
  monitor : Monitor T
  queue : List Item
  stopped : Bool
  /-- the items `run()` has taken from the queue -/
  taken : List Item
  /-- some `stop()` has set `stopped_` -/
  stopping : Bool
  /-- some `stop()` has returned -/
  stopReturned : Bool

/-- The points of `executor_type::post`. -/
inductive PostPoint
  | lock
  | push
  | notify
  | unlock
  deriving DecidableEq

/-- The points of `stop`. -/
inductive StopPoint
  | lock
  | set
  | notify
  | unlock
  deriving DecidableEq

/-- The points of `run`. -/
inductive RunPoint
  | lock
  /-- at the first operand of `hasWork` -/
  | testStopped
  /-- at the second operand -/
  | testQueue
  /-- at the call of the wait -/
  | block
  /-- inside the wait -/
  | blocked
  /-- at `if (stopped_)` -/
  | decide
  /-- at `queue_.top()` and `queue_.pop()` -/
  | take
  /-- at `lock.unlock()` -/
  | unlock
  /-- at `lock.lock()` -/
  | relock
  /-- at the return, inside the mutex -/
  | leave
  deriving DecidableEq

inductive Point
  /-- outside of all methods, maybe inside a function some `run()` executes -/
  | client
  | post (item : Item) (p : PostPoint)
  | stop (p : StopPoint)
  | run (p : RunPoint)
  /-- behind `queue_.top()` of an empty queue -/
  | undefined
  deriving DecidableEq

/-- The point of a thread, and the number of functions it executes inside of each other. -/
structure Thread where
  point : Point
  depth : Nat
  deriving DecidableEq

/-- The methods a thread may call. -/
inductive Method
  | getExecutor
  /-- `post`, `dispatch` or `defer` of an executor with the priority of the item -/
  | post (item : Item)
  | stop
  | run
  deriving DecidableEq

namespace Scheduler

variable {T : Type*}

/-- The constructor of `executor_type`. -/
def getExecutor (s : Scheduler T) : Scheduler T := { s with stopped := false }

/-- `queue_.top()`: of several items with the highest priority any one may be on top. -/
def top (s : Scheduler T) (choice : Nat) : Option Item :=
  s.queue[choice]?.filter fun item => ∀ other ∈ s.queue, other.priority ≤ item.priority

/-- `queue_.pop()` -/
def take (s : Scheduler T) (choice : Nat) (item : Item) : Scheduler T :=
  { s with queue := s.queue.eraseIdx choice, taken := s.taken ++ [item] }

/-- `stopped_ = true` -/
def set (s : Scheduler T) : Scheduler T := { s with stopped := true, stopping := true }

def acquire (s : Scheduler T) (t : T) : Scheduler T := { s with monitor := s.monitor.acquire t }

variable [DecidableEq T]

def release (s : Scheduler T) (t : T) : Scheduler T := { s with monitor := s.monitor.release t }

end Scheduler

variable {T : Type*} [DecidableEq T] (t : T)

/-- `executor_type::post`; `dispatch` and `defer` call it. -/
def post (item : Item) (choice : Nat) :
    PostPoint → Scheduler T → Option (Scheduler T × Point)
  | .lock, s =>
      if s.monitor.owner = none then some (s.acquire t, .post item .push) else none
  | .push, s => some ({ s with queue := s.queue ++ [item] }, .post item .notify)
  | .notify, s =>
      some ({ s with monitor := s.monitor.signal choice }, .post item .unlock)
  | .unlock, s => some (s.release t, .client)

/-- `stop` -/
def stop : StopPoint → Scheduler T → Option (Scheduler T × Point)
  | .lock, s => if s.monitor.owner = none then some (s.acquire t, .stop .set) else none
  | .set, s => some (s.set, .stop .notify)
  | .notify, s => some ({ s with monitor := { s.monitor with waiters := [] } }, .stop .unlock)
  | .unlock, s => some ({ s.release t with stopReturned := true }, .client)

/-- `run`, except for the execution of a function. -/
def run (choice : Nat) : RunPoint → Scheduler T → Option (Scheduler T × Point)
  | .lock, s =>
      if s.monitor.owner = none then some (s.acquire t, .run .testStopped) else none
  | .testStopped, s => some (s, .run (if s.stopped then .decide else .testQueue))
  | .testQueue, s => some (s, .run (if s.queue.isEmpty then .block else .decide))
  | .block, s => some ({ s with monitor := s.monitor.sleep t }, .run .blocked)
  | .blocked, s =>
      if s.monitor.owner = none ∧ t ∉ s.monitor.waiters then
        some (s.acquire t, .run .testStopped)
      else none
  | .decide, s => some (s, .run (if s.stopped then .leave else .take))
  | .take, s =>
      if s.queue.isEmpty then some (s, .undefined)
      else (s.top choice).map fun item => (s.take choice item, .run .unlock)
  | .unlock, s => some (s.release t, .client)
  | .relock, s =>
      if s.monitor.owner = none then some (s.acquire t, .run .testStopped) else none
  | .leave, s => some (s.release t, .client)

/-- The code of all methods. -/
def code (choice : Nat) : Point → Scheduler T → Option (Scheduler T × Point)
  | .post item p, s => post t item choice p s
  | .stop p, s => stop t p s
  | .run p, s => run t choice p s
  | .client, _ | .undefined, _ => none

/-- A thread calls a method. -/
def enter : Method → Scheduler T → Scheduler T × Point
  | .getExecutor, s => (s.getExecutor, .client)
  | .post item, s => (s, .post item .lock)
  | .stop, s => (s, .stop .lock)
  | .run, s => (s, .run .lock)

/-- The functions a thread executes behind a point: `run()` calls one behind its unlock. -/
def Thread.next (thread : Thread) (point : Point) : Thread where
  point := point
  depth := if thread.point = .run .unlock then thread.depth + 1 else thread.depth

structure State (T : Type*) where
  scheduler : Scheduler T
  thread : T → Thread

inductive Action (T : Type*)
  | call (t : T) (method : Method)
  /-- the thread performs the next step of its method -/
  | go (t : T) (choice : Nat)
  /-- the function a thread executes ends, by an exception maybe -/
  | finish (t : T) (throws : Bool)
  /-- a wake-up without a notification -/
  | wakeUp (t : T)

/-- One atomic step. -/
def step (state : State T) : Action T → Option (State T)
  | .call t method =>
      if (state.thread t).point = .client then
        let (scheduler, point) := enter method state.scheduler
        some { scheduler := scheduler
               thread := Function.update state.thread t ((state.thread t).next point) }
      else none
  | .go t choice =>
      (code t choice (state.thread t).point state.scheduler).map fun result =>
        { scheduler := result.1
          thread := Function.update state.thread t ((state.thread t).next result.2) }
  | .finish t throws =>
      match state.thread t with
      | ⟨.client, depth + 1⟩ =>
          let point := if throws then .client else .run .relock
          some { state with thread := Function.update state.thread t ⟨point, depth⟩ }
      | _ => none
  | .wakeUp t =>
      some { state with
        scheduler := { state.scheduler with
          monitor := state.scheduler.monitor.wakeSpuriously t } }

/-- A scheduler that has been constructed; `stopped` is what its memory held before. -/
def initial (stopped : Bool) : State T where
  scheduler :=
    { monitor := .fresh, queue := [], stopped := stopped, taken := []
      stopping := false, stopReturned := false }
  thread _ := ⟨.client, 0⟩

/-! ## What a step can be -/

/-- The steps of a thread inside a method. -/
inductive Moves (t : T) (s : Scheduler T) : Point → Scheduler T → Point → Prop
  /-- the mutex is entered -/
  | acquire (source target : Point) (hfree : s.monitor.owner = none)
      (h : (∃ item, source = .post item .lock ∧ target = .post item .push) ∨
        source = .stop .lock ∧ target = .stop .set ∨
        (source = .run .lock ∨ source = .run .blocked ∨ source = .run .relock) ∧
          target = .run .testStopped) :
      Moves t s source (s.acquire t) target
  | push (item : Item) :
      Moves t s (.post item .push) { s with queue := s.queue ++ [item] } (.post item .notify)
  | notifyOne (item : Item) (choice : Nat) :
      Moves t s (.post item .notify) { s with monitor := s.monitor.signal choice }
        (.post item .unlock)
  /-- the mutex is left -/
  | release (source : Point)
      (h : (∃ item, source = .post item .unlock) ∨ source = .run .unlock ∨ source = .run .leave) :
      Moves t s source (s.release t) .client
  | set : Moves t s (.stop .set) s.set (.stop .notify)
  | notifyAll :
      Moves t s (.stop .notify) { s with monitor := { s.monitor with waiters := [] } }
        (.stop .unlock)
  | stopped : Moves t s (.stop .unlock) { s.release t with stopReturned := true } .client
  /-- `run()` has found out that it is stopped, or that there is something to do -/
  | hasWork (source : RunPoint)
      (h : source = .testStopped ∧ s.stopped = true ∨ source = .testQueue) :
      Moves t s (.run source) s (.run .decide)
  | noStop (hstopped : s.stopped = false) : Moves t s (.run .testStopped) s (.run .testQueue)
  | noWork : Moves t s (.run .testQueue) s (.run .block)
  | block : Moves t s (.run .block) { s with monitor := s.monitor.sleep t } (.run .blocked)
  | leave (hstopped : s.stopped = true) : Moves t s (.run .decide) s (.run .leave)
  | goOn (hstopped : s.stopped = false) : Moves t s (.run .decide) s (.run .take)
  | take (choice : Nat) (item : Item) (htop : s.top choice = some item) :
      Moves t s (.run .take) (s.take choice item) (.run .unlock)
  | undefined : Moves t s (.run .take) s .undefined

variable {t : T} {s next : Scheduler T} {point target : Point} {choice : Nat}

theorem run_moves {p : RunPoint} (h : run t choice p s = some (next, target)) :
    Moves t s (.run p) next target := by
  cases p with
  | lock =>
      obtain ⟨hfree, ⟨⟩⟩ := Option.ite_none_right_eq_some.mp h
      exact .acquire _ _ hfree (.inr (.inr ⟨.inl rfl, rfl⟩))
  | testStopped =>
      cases h
      split
      · next hstopped => exact .hasWork _ (.inl ⟨rfl, hstopped⟩)
      · next hstopped => exact .noStop (Bool.eq_false_iff.mpr hstopped)
  | testQueue =>
      cases h
      split
      · exact .noWork
      · exact .hasWork _ (.inr rfl)
  | block =>
      cases h
      exact .block
  | blocked =>
      obtain ⟨hfree, ⟨⟩⟩ := Option.ite_none_right_eq_some.mp h
      exact .acquire _ _ hfree.1 (.inr (.inr ⟨.inr (.inl rfl), rfl⟩))
  | decide =>
      cases h
      split
      · next hstopped => exact .leave hstopped
      · next hstopped => exact .goOn (Bool.eq_false_iff.mpr hstopped)
  | take =>
      simp only [run] at h
      split at h
      · cases h
        exact .undefined
      · obtain ⟨item, htop, ⟨⟩⟩ := Option.map_eq_some_iff.mp h
        exact .take choice item htop
  | unlock =>
      cases h
      exact .release _ (.inr (.inl rfl))
  | relock =>
      obtain ⟨hfree, ⟨⟩⟩ := Option.ite_none_right_eq_some.mp h
      exact .acquire _ _ hfree (.inr (.inr ⟨.inr (.inr rfl), rfl⟩))
  | leave =>
      cases h
      exact .release _ (.inr (.inr rfl))

theorem code_moves (h : code t choice point s = some (next, target)) :
    Moves t s point next target := by
  cases point with
  | client => cases h
  | post item p =>
      cases p with
      | lock =>
          obtain ⟨hfree, ⟨⟩⟩ := Option.ite_none_right_eq_some.mp h
          exact .acquire _ _ hfree (.inl ⟨item, rfl, rfl⟩)
      | push =>
          cases h
          exact .push item
      | notify =>
          cases h
          exact .notifyOne item choice
      | unlock =>
          cases h
          exact .release _ (.inl ⟨item, rfl⟩)
  | stop p =>
      cases p with
      | lock =>
          obtain ⟨hfree, ⟨⟩⟩ := Option.ite_none_right_eq_some.mp h
          exact .acquire _ _ hfree (.inr (.inl ⟨rfl, rfl⟩))
      | set =>
          cases h
          exact .set
      | notify =>
          cases h
          exact .notifyAll
      | unlock =>
          cases h
          exact .stopped
  | run p => exact run_moves h
  | undefined => cases h

/-- The steps of the system. -/
inductive Steps (state : State T) : Action T → State T → Prop
  | call (t : T) (method : Method) (hclient : (state.thread t).point = .client) :
      Steps state (.call t method)
        { scheduler := (enter method state.scheduler).1
          thread := Function.update state.thread t
            ((state.thread t).next (enter method state.scheduler).2) }
  | go (t : T) (choice : Nat) (next : Scheduler T) (target : Point)
      (hmoves : Moves t state.scheduler (state.thread t).point next target) :
      Steps state (.go t choice)
        { scheduler := next
          thread := Function.update state.thread t ((state.thread t).next target) }
  | finish (t : T) (throws : Bool) (depth : Nat)
      (hclient : (state.thread t).point = .client) :
      Steps state (.finish t throws)
        { state with
          thread := Function.update state.thread t
            ⟨if throws then .client else .run .relock, depth⟩ }
  | wakeUp (t : T) :
      Steps state (.wakeUp t)
        { state with
          scheduler := { state.scheduler with
            monitor := state.scheduler.monitor.wakeSpuriously t } }

theorem step_cases {state after : State T} {action : Action T}
    (h : step state action = some after) : Steps state action after := by
  cases action with
  | call t method =>
      obtain ⟨hclient, ⟨⟩⟩ := Option.ite_none_right_eq_some.mp h
      exact .call t method hclient
  | go t choice =>
      obtain ⟨⟨next, target⟩, hcode, ⟨⟩⟩ := Option.map_eq_some_iff.mp h
      exact .go t choice next target (code_moves hcode)
  | finish t throws =>
      simp only [step] at h
      split at h
      · next depth hthread =>
          cases h
          exact .finish t throws depth (by rw [hthread])
      · cases h
  | wakeUp t =>
      cases h
      exact .wakeUp t

end ThreadPools.PriorityScheduler
