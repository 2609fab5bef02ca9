/-
# The life cycle of a Boost thread

The owner of a `Thread` starts it, joins it and destroys it, one call after the other. The
new thread runs `thread_starter`, which writes `status` at its end; the owner writes it
behind the creation, without a lock that both would use. There are two builds: with
`POSIX_THREADS` the thread is created by `pthread_create`, which may fail with an error,
and without by the constructor of `boost::thread`, which may throw.
-/

import ThreadPools.Boost.Pool

namespace ThreadPools.Boost.Thread

open ThreadPools.Boost.Pool (ThreadStatus)

/-- The points of `thread_starter`. -/
inductive StarterPoint
  /-- at the first `thread->lock()` -/
  | lock
  | unlock
  /-- inside `run()` of the runnable -/
  | run
  /-- at the second `thread->lock()` -/
  | lockAgain
  /-- at `thread->status = Thread::FINISHED` -/
  | finish
  | unlockAgain
  | ended
  deriving DecidableEq

/-- A thread of the operating system that has been created. -/
structure Created where
  point : StarterPoint
  /-- it has been joined -/
  joined : Bool
  deriving DecidableEq

/-- Who may be inside the monitor of the `Thread` object. -/
inductive Party
  | starter (n : Nat)
  | other (u : Nat)
  deriving DecidableEq

/-- The points of the owner. -/
inductive OwnerPoint
  | ready
  /-- in `start()`, at the creation of the thread -/
  | create
  /-- at `status = RUNNING` -/
  | created
  /-- at `status = FINISHED` -/
  | failed
  /-- at the test of `join()`, which the destructor may have called -/
  | test (destroying : Bool)
  /-- at `pthread_join` or `tid.join()` -/
  | join (destroying : Bool)
  /-- at `status = IDLE` -/
  | joined (destroying : Bool)
  | destroyed
  deriving DecidableEq

inductive Method
  | start
  | join
  | destroy
  deriving DecidableEq

/-- A `Thread` object, the threads it has created, and its owner. -/
structure State where
  status : ThreadStatus
  /-- `tid`: the position of the thread in `threads`, if it is one of these -/
  tid : Option Nat
  /-- the owner of `mutex` -/
  monitor : Option Party
  threads : List Created
  owner : OwnerPoint

namespace State

/-- `is_alive` -/
def isAlive (state : State) : Bool := state.status = .running

def setThread (state : State) (n : Nat) (thread : Created) : State :=
  { state with threads := state.threads.set n thread }

end State

/-- Where `join()` leads when it returns. -/
def OwnerPoint.behind (destroying : Bool) : OwnerPoint :=
  if destroying then .destroyed else .ready

/-- The owner calls a method; `start` includes its test of `status`. -/
def call (state : State) : Method → Option State
  | .start => some (if state.status = .idle then { state with owner := .create } else state)
  | .join => some { state with owner := .test false }
  | .destroy =>
      some { state with owner := if state.status ≠ .idle then .test true else .destroyed }

/-- The next step of the owner. `succeeds` is the outcome of a creation, and `garbage` the
value that a failed `pthread_create` leaves in `tid`. -/
def owner (posix succeeds : Bool) (garbage : Option Nat) (state : State) : Option State :=
  match state.owner with
  | .create =>
      if succeeds then
        some { state with
          tid := some state.threads.length
          threads := state.threads ++ [⟨.lock, false⟩]
          owner := .created }
      else if posix then some { state with tid := garbage, owner := .failed }
      else some { state with owner := .ready }
  | .created => some { state with status := .running, owner := .ready }
  | .failed => some { state with status := .finished, owner := .ready }
  | .test destroying =>
      some { state with
        owner := if state.status ≠ .idle then .join destroying else .behind destroying }
  | .join destroying =>
      match state.tid.bind fun n => state.threads[n]?.map (n, ·) with
      | some (n, ⟨point, false⟩) =>
          -- blocked until the thread has ended
          if point = .ended then
            some { state.setThread n ⟨.ended, true⟩ with owner := .joined destroying }
          else none
      | _ => some { state with owner := .joined destroying }
  | .joined destroying => some { state with status := .idle, owner := .behind destroying }
  | .ready | .destroyed => none

/-- The next step of `thread_starter` in the thread `n`. -/
def starter (n : Nat) (state : State) : Option State := do
  let thread ← state.threads[n]?
  let next (point : StarterPoint) : State := state.setThread n { thread with point := point }
  match thread.point with
  | .lock =>
      if state.monitor = none then some { next .unlock with monitor := some (.starter n) }
      else none
  | .unlock => some { next .run with monitor := none }
  | .run => some (next .lockAgain)
  | .lockAgain =>
      -- `lock()` returns at once if `run()` has left the monitor locked
      if state.monitor = none ∨ state.monitor = some (.starter n) then
        some { next .finish with monitor := some (.starter n) }
      else none
  | .finish => some { next .unlockAgain with status := .finished }
  | .unlockAgain => some { next .ended with monitor := none }
  | .ended => none

inductive Action
  | call (method : Method)
  | owner (succeeds : Bool) (garbage : Option Nat)
  | starter (n : Nat)
  /-- somebody else, or the runnable, enters the monitor of the object -/
  | lock (party : Party)
  | unlock (party : Party)

/-- Who may enter the monitor outside of `thread_starter`. -/
def State.mayLock (state : State) : Party → Bool
  | .starter n => state.threads[n]?.map Created.point = some .run
  | .other _ => true

/-- One atomic step. -/
def step (posix : Bool) (state : State) : Action → Option State
  | .call method => if state.owner = .ready then call state method else none
  | .owner succeeds garbage => owner posix succeeds garbage state
  | .starter n => starter n state
  | .lock party =>
      if state.mayLock party ∧ state.monitor = none then
        some { state with monitor := some party }
      else none
  | .unlock party =>
      if state.mayLock party ∧ state.monitor = some party then
        some { state with monitor := none }
      else none

def initial : State where
  status := .idle
  tid := none
  monitor := none
  threads := []
  owner := .ready

/-! ## What a step can be -/

/-- The steps, as far as `status` and the threads are concerned. -/
inductive Moves (posix : Bool) (state : State) : Action → State → Prop
  /-- the monitor is entered or left, and maybe a thread goes on -/
  | monitor (action : Action) (monitor : Option Party) :
      Moves posix state action { state with monitor := monitor }
  | start (hready : state.owner = .ready) (hidle : state.status = .idle) :
      Moves posix state (.call .start) { state with owner := .create }
  | test (destroying : Bool) (method : Method) (hready : state.owner = .ready) :
      Moves posix state (.call method) { state with owner := .test destroying }
  /-- the destructor of an idle object, or a test of `join()` that finds it idle -/
  | skip (action : Action) (destroying : Bool) (hidle : state.status = .idle)
      (howner : state.owner = .ready ∨ state.owner = .test destroying) :
      Moves posix state action { state with owner := .behind destroying }
  | create (garbage : Option Nat) (hcreate : state.owner = .create) :
      Moves posix state (.owner true garbage)
        { state with
          tid := some state.threads.length
          threads := state.threads ++ [⟨.lock, false⟩]
          owner := .created }
  | fail (garbage : Option Nat) (hcreate : state.owner = .create) (hposix : posix = true) :
      Moves posix state (.owner false garbage) { state with tid := garbage, owner := .failed }
  | throws (garbage : Option Nat) (hcreate : state.owner = .create) (hposix : posix = false) :
      Moves posix state (.owner false garbage) { state with owner := .ready }
  | running (action : Action) (hcreated : state.owner = .created) :
      Moves posix state action { state with status := .running, owner := .ready }
  | failed (action : Action) (hfailed : state.owner = .failed) :
      Moves posix state action { state with status := .finished, owner := .ready }
  | enterJoin (action : Action) (destroying : Bool) (htest : state.owner = .test destroying)
      (hstatus : state.status ≠ .idle) :
      Moves posix state action { state with owner := .join destroying }
  | join (action : Action) (destroying : Bool) (n : Nat) (hjoin : state.owner = .join destroying)
      (htid : state.tid = some n) (hthread : state.threads[n]? = some ⟨.ended, false⟩) :
      Moves posix state action
        { state.setThread n ⟨.ended, true⟩ with owner := .joined destroying }
  /-- there is nothing to join -/
  | noJoin (action : Action) (destroying : Bool) (hjoin : state.owner = .join destroying)
      (hnone : ∀ n thread, state.tid = some n → state.threads[n]? = some thread →
        thread.joined = true) :
      Moves posix state action { state with owner := .joined destroying }
  | idle (action : Action) (destroying : Bool) (hjoined : state.owner = .joined destroying) :
      Moves posix state action { state with status := .idle, owner := .behind destroying }
  | starter (n : Nat) (thread : Created) (point : StarterPoint) (monitor : Option Party)
      (hthread : state.threads[n]? = some thread) (hrunning : thread.point ≠ .ended)
      (hfinish : thread.point ≠ .finish)
      (hpoint : point = .unlockAgain ∨ point = .ended → thread.point = .unlockAgain) :
      Moves posix state (.starter n)
        { state.setThread n { thread with point := point } with monitor := monitor }
  | finish (n : Nat) (thread : Created) (hthread : state.threads[n]? = some thread)
      (hfinish : thread.point = .finish) :
      Moves posix state (.starter n)
        { state.setThread n { thread with point := .unlockAgain } with status := .finished }

variable {posix : Bool} {state after : State} {action : Action}

theorem call_moves {method : Method} (hready : state.owner = .ready)
    (h : call state method = some after) : Moves posix state (.call method) after := by
  cases method with
  | start =>
      simp only [call, Option.some.injEq] at h
      split at h
      · next hidle =>
          subst h
          exact .start hready hidle
      · subst h
        exact .monitor _ state.monitor
  | join =>
      cases h
      exact .test false _ hready
  | destroy =>
      cases h
      split
      · exact .test true _ hready
      · next hidle => exact .skip _ true (not_not.mp hidle) (.inl hready)

theorem owner_moves {succeeds : Bool} {garbage : Option Nat}
    (h : owner posix succeeds garbage state = some after) :
    Moves posix state (.owner succeeds garbage) after := by
  simp only [owner] at h
  split at h
  · next hcreate =>
      cases succeeds with
      | true =>
          cases h
          exact .create garbage hcreate
      | false =>
          cases posix with
          | true =>
              cases h
              exact .fail garbage hcreate rfl
          | false =>
              cases h
              exact .throws garbage hcreate rfl
  · next hcreated =>
      cases h
      exact .running _ hcreated
  · next hfailed =>
      cases h
      exact .failed _ hfailed
  · next destroying htest =>
      cases h
      split
      · next hstatus => exact .enterJoin _ destroying htest hstatus
      · next hidle => exact .skip _ destroying (not_not.mp hidle) (.inr htest)
  · next destroying hjoin =>
      split at h
      · next n point hfound =>
          obtain ⟨_, htid, hfound⟩ := Option.bind_eq_some_iff.mp hfound
          obtain ⟨thread, hthread, heq⟩ := Option.map_eq_some_iff.mp hfound
          cases heq
          split at h
          · next hended =>
              subst hended
              cases h
              exact .join _ destroying n hjoin htid hthread
          · cases h
      · next hnot =>
          cases h
          refine .noJoin _ destroying hjoin fun n thread htid hthread => ?_
          obtain ⟨point, joined⟩ := thread
          cases joined with
          | true => rfl
          | false => exact absurd (by simp [htid, hthread]) (hnot n point)
  · next destroying hjoined =>
      cases h
      exact .idle _ destroying hjoined
  · cases h
  · cases h

theorem starter_moves {n : Nat} (h : starter n state = some after) :
    Moves posix state (.starter n) after := by
  obtain ⟨⟨point, joined⟩, hthread, h⟩ := Option.bind_eq_some_iff.mp h
  cases point with
  | lock =>
      obtain ⟨-, ⟨⟩⟩ := Option.ite_none_right_eq_some.mp h
      exact .starter n _ .unlock _ hthread nofun nofun nofun
  | unlock =>
      cases h
      exact .starter n _ .run _ hthread nofun nofun nofun
  | run =>
      cases h
      exact .starter n _ .lockAgain _ hthread nofun nofun nofun
  | lockAgain =>
      obtain ⟨-, ⟨⟩⟩ := Option.ite_none_right_eq_some.mp h
      exact .starter n _ .finish _ hthread nofun nofun nofun
  | finish =>
      cases h
      exact .finish n _ hthread rfl
  | unlockAgain =>
      cases h
      exact .starter n _ .ended _ hthread nofun nofun fun _ => rfl
  | ended => cases h

theorem step_moves (h : step posix state action = some after) :
    Moves posix state action after := by
  cases action with
  | call method =>
      obtain ⟨hready, h⟩ := Option.ite_none_right_eq_some.mp h
      exact call_moves hready h
  | owner succeeds garbage => exact owner_moves h
  | starter n => exact starter_moves h
  | lock party =>
      obtain ⟨-, ⟨⟩⟩ := Option.ite_none_right_eq_some.mp h
      exact .monitor _ _
  | unlock party =>
      obtain ⟨-, ⟨⟩⟩ := Option.ite_none_right_eq_some.mp h
      exact .monitor _ _

end ThreadPools.Boost.Thread
