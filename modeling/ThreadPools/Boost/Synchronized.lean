/-
# The monitor of the Boost implementation

`Synchronized` keeps the thread inside the monitor in `tid_`, next to the mutex and the
condition variable, and the flag `signal` as the predicate of its waits. Every method is
a sequence of single steps: a read or a write of `tid_` or `signal`, or an operation of
the mutex or the condition variable. A thread blocked in a wait is on the waiting list
until it is notified, wakes up spuriously or its time has run out; it then enters the
mutex again, and a timed wait may report a timeout there.
-/

import Mathlib.Logic.Function.Basic

namespace ThreadPools.Boost

/-- The data members of `Synchronized`. -/
structure Synchronized (T : Type*) where
  /-- the owner of `mutex` -/
  owner : Option T
  /-- the threads blocked on `cond` for which no wake-up is pending -/
  waiters : List T
  signal : Bool
  /-- `tid_` -/
  tid : Option T

/-- What the scheduler decides in one step of a thread. -/
structure Choice where
  /-- which thread `notify_one` wakes -/
  waiter : Nat
  /-- the status of a timed wait -/
  timeout : Bool
  /-- the value of the predicate of `wait_until_condition` -/
  condition : Bool
  deriving DecidableEq

inductive TryLockResult
  | locked
  | busy
  | owned
  deriving DecidableEq

/-- A method with points `P` and result `R`: where a step leads, or nothing when the thread
is blocked. -/
abbrev Body (T P R : Type*) := P → Synchronized T → Option (Synchronized T × (P ⊕ R))

namespace Synchronized

variable {T : Type*}

/-- `Synchronized::Synchronized` -/
def new : Synchronized T := ⟨none, [], false, none⟩

inductive LockPoint
  /-- at `is_locked_by_this_thread()` -/
  | test
  /-- at `mutex.lock()` -/
  | acquire
  /-- at the assignment of `tid_` -/
  | own
  deriving DecidableEq

inductive LockForPoint
  /-- at `mutex.try_lock()`, with the rest of the time in milliseconds -/
  | attempt (d : Int)
  /-- at `sleep_for` -/
  | sleep (d : Int)
  | own
  deriving DecidableEq

inductive TryLockPoint
  | test
  /-- at the constructor of `scoped_lock` -/
  | attempt
  | own
  deriving DecidableEq

inductive UnlockPoint
  | test
  /-- at the assignment of `tid_` -/
  | disown
  /-- at `mutex.unlock()` -/
  | release
  deriving DecidableEq

inductive WaitPoint
  /-- at `signal = false` -/
  | reset
  /-- at the condition of the loop -/
  | check
  /-- at the first assignment of `tid_` -/
  | disown
  /-- at the call of the wait -/
  | block
  /-- inside the wait -/
  | asleep
  /-- at the second assignment of `tid_` -/
  | own (timeout : Bool)
  deriving DecidableEq

inductive NotifyPoint
  /-- at `signal = true` -/
  | set
  /-- at `notify_one` or `notify_all` -/
  | wake
  deriving DecidableEq

/-- The first steps of `TaskManager::run`. -/
inductive EnterPoint
  | acquire
  | own
  deriving DecidableEq

/-- The last steps of `TaskManager::run`. -/
inductive LeavePoint
  | disown
  | release
  deriving DecidableEq

variable [DecidableEq T] (t : T)

/-- `Synchronized::lock()` -/
def lock : Body T LockPoint Bool
  | .test, s => some (s, if s.tid = some t then .inr false else .inl .acquire)
  | .acquire, s => if s.owner = none then some ({ s with owner := some t }, .inl .own) else none
  | .own, s => some ({ s with tid := some t }, .inr true)

/-- `Synchronized::lock(unsigned long timeout)` -/
def lockFor : Body T LockForPoint Bool
  | .attempt d, s =>
      if s.owner = none then some ({ s with owner := some t }, .inl .own)
      else some (s, .inl (.sleep d))
  | .sleep d, s => some (s, if d - 10 ≤ 0 then .inr false else .inl (.attempt (d - 10)))
  | .own, s => some ({ s with tid := some t }, .inr true)

/-- `Synchronized::trylock` -/
def trylock : Body T TryLockPoint TryLockResult
  | .test, s => some (s, if s.tid = some t then .inr .owned else .inl .attempt)
  | .attempt, s =>
      if s.owner = none then some ({ s with owner := some t }, .inl .own)
      else some (s, .inr .busy)
  | .own, s => some ({ s with tid := some t }, .inr .locked)

/-- `Synchronized::unlock` -/
def unlock : Body T UnlockPoint Bool
  | .test, s => some (s, if s.tid = some t then .inl .disown else .inr false)
  | .disown, s => some ({ s with tid := none }, .inl .release)
  | .release, s => some ({ s with owner := none }, .inr true)

/-- The loops around `cond`; `holds` is the value of the condition that ends the loop. -/
def waitLoop (timed holds : Bool) (choice : Choice) : Body T WaitPoint Bool
  | .reset, s => some ({ s with signal := false }, .inl .check)
  | .check, s => some (s, if holds then .inr true else .inl .disown)
  | .disown, s => some ({ s with tid := none }, .inl .block)
  | .block, s => some ({ s with owner := none, waiters := s.waiters ++ [t] }, .inl .asleep)
  | .asleep, s =>
      if s.owner = none ∧ t ∉ s.waiters then
        some ({ s with owner := some t }, .inl (.own (timed && choice.timeout)))
      else none
  | .own timeout, s =>
      some ({ s with tid := some t }, if timeout then .inr false else .inl .check)

/-- `Synchronized::wait` and `wait_for`, which begin at `signal = false` -/
def wait (timed : Bool) (choice : Choice) : Body T WaitPoint Bool
  | p, s => waitLoop t timed s.signal choice p s

/-- `Synchronized::wait_until_condition`, which begins at the loop -/
def waitUntilCondition (holds : Bool) (choice : Choice) : Body T WaitPoint Bool :=
  waitLoop t false holds choice

/-- `Synchronized::notify` and `notify_all` -/
def notify (all : Bool) (choice : Choice) : Body T NotifyPoint Unit
  | .set, s => some ({ s with signal := true }, .inl .wake)
  | .wake, s =>
      let woken := s.waiters.eraseIdx (choice.waiter % s.waiters.length)
      some ({ s with waiters := if all then [] else woken }, .inr ())

/-- `scoped_lock l(mutex); tid_ = boost::this_thread::get_id();` -/
def enter : Body T EnterPoint Unit
  | .acquire, s => if s.owner = none then some ({ s with owner := some t }, .inl .own) else none
  | .own, s => some ({ s with tid := some t }, .inr ())

/-- `tid_ = boost::thread::id();` and the end of the `scoped_lock` -/
def leave : Body T LeavePoint Unit
  | .disown, s => some ({ s with tid := none }, .inl .release)
  | .release, s => some ({ s with owner := none }, .inr ())

end Synchronized

/-! ## Threads that use one monitor -/

/-- A method, and the entry and the exit of a worker. -/
inductive Method
  | lock
  | lockFor (timeout : Nat)
  | trylock
  | unlock
  | wait
  | waitFor
  | waitUntilCondition
  | notify
  | notifyAll
  | enter
  | leave
  deriving DecidableEq

/-- A point inside a method. -/
inductive Point
  | lock (p : Synchronized.LockPoint)
  | lockFor (p : Synchronized.LockForPoint)
  | trylock (p : Synchronized.TryLockPoint)
  | unlock (p : Synchronized.UnlockPoint)
  | wait (timed : Bool) (p : Synchronized.WaitPoint)
  | waitUntilCondition (p : Synchronized.WaitPoint)
  | notify (all : Bool) (p : Synchronized.NotifyPoint)
  | enter (p : Synchronized.EnterPoint)
  | leave (p : Synchronized.LeavePoint)
  deriving DecidableEq

inductive Result
  | bool (b : Bool)
  | trylock (r : TryLockResult)
  | done
  deriving DecidableEq

/-- The first point of a method. -/
def Method.entry : Method → Point
  | .lock => .lock .test
  | .lockFor timeout => .lockFor (.attempt timeout)
  | .trylock => .trylock .test
  | .unlock => .unlock .test
  | .wait => .wait false .reset
  | .waitFor => .wait true .reset
  | .waitUntilCondition => .waitUntilCondition .check
  | .notify => .notify false .set
  | .notifyAll => .notify true .set
  | .enter => .enter .acquire
  | .leave => .leave .disown

/-- A step of a method in the code of all methods. -/
def Body.embed {T P R Q S : Type*} (point : P → Q) (result : R → S)
    (stepped : Option (Synchronized T × (P ⊕ R))) : Option (Synchronized T × (Q ⊕ S)) :=
  stepped.map fun next => (next.1, next.2.map point result)

/-- The code of all methods. -/
def code {T : Type*} [DecidableEq T] (t : T) (choice : Choice) : Body T Point Result
  | .lock p, s => Body.embed .lock .bool (Synchronized.lock t p s)
  | .lockFor p, s => Body.embed .lockFor .bool (Synchronized.lockFor t p s)
  | .trylock p, s => Body.embed .trylock .trylock (Synchronized.trylock t p s)
  | .unlock p, s => Body.embed .unlock .bool (Synchronized.unlock t p s)
  | .wait timed p, s => Body.embed (.wait timed) .bool (Synchronized.wait t timed choice p s)
  | .waitUntilCondition p, s =>
      Body.embed .waitUntilCondition (fun _ => .done)
        (Synchronized.waitUntilCondition t choice.condition choice p s)
  | .notify all p, s =>
      Body.embed (.notify all) (fun _ => .done) (Synchronized.notify all choice p s)
  | .enter p, s => Body.embed .enter (fun _ => .done) (Synchronized.enter t p s)
  | .leave p, s => Body.embed .leave (fun _ => .done) (Synchronized.leave p s)

/-- A call in progress, with what the caller notes about it. -/
structure Call where
  point : Point
  /-- the caller owned the mutex when it made the call -/
  owned : Bool
  /-- the call has changed the mutex or `tid_` -/
  wrote : Bool
  deriving DecidableEq

/-- A call that has returned. -/
structure Return (T : Type*) where
  thread : T
  /-- the point the call returned from -/
  point : Point
  owned : Bool
  wrote : Bool
  result : Result
  /-- the owner of the mutex after the return -/
  owner : Option T

/-- A monitor and its threads; a thread outside of a call is at `none`. -/
structure State (T : Type*) where
  sync : Synchronized T
  pc : T → Option Call
  returns : List (Return T)

inductive Action (T : Type*)
  | call (t : T) (method : Method)
  | run (t : T) (choice : Choice)
  /-- a thread blocked in a wait wakes up without a notification, or its time has run out -/
  | wakeUp (t : T)

variable {T : Type*} [DecidableEq T]

/-- The call has changed the mutex or `tid_`, now or before. -/
def Call.touched (call : Call) (before after : Synchronized T) : Bool :=
  call.wrote || decide (after.owner ≠ before.owner ∨ after.tid ≠ before.tid)

/-- The call behind a step. -/
def Call.goOn (call : Call) (before after : Synchronized T) (point : Point) : Call :=
  { call with point := point, wrote := call.touched before after }

/-- The record of a call that returns. -/
def Call.return (call : Call) (t : T) (before after : Synchronized T) (result : Result) :
    Return T where
  thread := t
  point := call.point
  owned := call.owned
  wrote := call.touched before after
  result := result
  owner := after.owner

/-- The state after a step of `t` inside a call. -/
def State.advance (state : State T) (t : T) (call : Call) (sync : Synchronized T) :
    Point ⊕ Result → State T
  | .inl point =>
      { state with
        sync := sync
        pc := Function.update state.pc t (some (call.goOn state.sync sync point)) }
  | .inr result =>
      { sync := sync
        pc := Function.update state.pc t none
        returns := state.returns ++ [call.return t state.sync sync result] }

/-- One atomic step. -/
def step (state : State T) : Action T → Option (State T)
  | .call t method =>
      if state.pc t = none then
        some { state with
          pc := Function.update state.pc t (some
            { point := method.entry
              owned := decide (state.sync.owner = some t)
              wrote := false }) }
      else none
  | .run t choice =>
      (state.pc t).bind fun call =>
        (code t choice call.point state.sync).map fun next =>
          state.advance t call next.1 next.2
  | .wakeUp t =>
      if t ∈ state.sync.waiters then
        some { state with
          sync := { state.sync with waiters := state.sync.waiters.erase t } }
      else none

/-- The steps, with what each of them needs. -/
inductive State.Moves (state : State T) : Action T → State T → Prop
  | call (t method) (hidle : state.pc t = none) :
      Moves state (.call t method)
        { state with
          pc := Function.update state.pc t (some
            { point := method.entry
              owned := decide (state.sync.owner = some t)
              wrote := false }) }
  | run (t choice) {call sync target} (hcall : state.pc t = some call)
      (hcode : code t choice call.point state.sync = some (sync, target)) :
      Moves state (.run t choice) (state.advance t call sync target)
  | wakeUp (t) (hasleep : t ∈ state.sync.waiters) :
      Moves state (.wakeUp t)
        { state with
          sync := { state.sync with waiters := state.sync.waiters.erase t } }

theorem step_moves {state next : State T} {action : Action T}
    (hstep : step state action = some next) : state.Moves action next := by
  cases action with
  | call t method =>
      simp only [step] at hstep
      split at hstep <;> cases hstep
      exact .call t method ‹_›
  | run t choice =>
      obtain ⟨call, hcall, hrun⟩ := Option.bind_eq_some_iff.mp hstep
      obtain ⟨⟨sync, target⟩, hcode, rfl⟩ := Option.map_eq_some_iff.mp hrun
      exact .run t choice hcall hcode
  | wakeUp t =>
      simp only [step] at hstep
      split at hstep <;> cases hstep
      exact .wakeUp t ‹_›

def initial : State T where
  sync := .new
  pc _ := none
  returns := []

/-- The contract of the methods: waits, notifications and the exit of a worker are for the
thread inside the monitor, as the methods assert, and a worker enters only once. -/
def Contract (state : State T) : Action T → Prop
  | .call t .wait | .call t .waitFor | .call t .waitUntilCondition | .call t .notify
  | .call t .notifyAll | .call t .leave => state.sync.tid = some t
  | .call t .enter => state.sync.tid ≠ some t
  | _ => True

instance (state : State T) (action : Action T) : Decidable (Contract state action) := by
  unfold Contract
  split <;> infer_instance

/-- The thread performs the next `n` steps of its call. -/
def Action.steps (t : T) (n : Nat) : List (Action T) :=
  List.replicate n (.run t { waiter := 0, timeout := false, condition := false })

end ThreadPools.Boost
