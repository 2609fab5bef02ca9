/-
# Ping-pong through a condition variable

One producer and any number of consumers share a mutex and one condition variable. The
producer waits until all consumers have seen the last round and begins the next one; a consumer
waits for the next round and counts itself in. Both notify everybody after they have left the
mutex.
-/

import Mathlib.Algebra.GroupWithZero.Nat
import Mathlib.Data.Fintype.Card
import ThreadPools.Concurrency.Program

namespace ThreadPools.PingPong

open ThreadPools.Concurrency

/-- The points of `producer_thread` and of `consumer_thread`. -/
inductive Point
  /-- the producer is about to read the number of consumers, without the mutex -/
  | start
  /-- at the head of the loop -/
  | loop
  | lock
  /-- inside the mutex, at the condition of the inner loop -/
  | test
  /-- inside `wait` -/
  | wait
  /-- outside of the mutex, before `notify_all` -/
  | notify
  | done
  deriving DecidableEq

inductive Party (C : Type*)
  | producer
  | consumer (c : C)
  deriving DecidableEq

/-- `SharedData`, the local variables of the threads, and where they are. -/
structure State (C : Type*) where
  iterations : Nat
  counter : Nat
  semaphore : Nat
  /-- `mtx` and `cnd` -/
  monitor : Monitor (Party C)
  /-- `consumers` in `producer_thread` -/
  consumers : Nat
  /-- `i` in `producer_thread` -/
  i : Nat
  /-- `counter` in `consumer_thread` -/
  seen : C → Nat
  point : Party C → Point

inductive Action (C : Type*)
  /-- the thread goes on -/
  | go (p : Party C)
  /-- a wake-up without any notification -/
  | spurious (p : Party C)

def Action.isGo {C : Type*} : Action C → Bool
  | .go _ => true
  | .spurious _ => false

@[simp] theorem Action.isGo_go {C : Type*} (p : Party C) : (Action.go p).isGo = true := rfl
@[simp] theorem Action.isGo_spurious {C : Type*} (p : Party C) :
    (Action.spurious p).isGo = false := rfl

variable {C : Type*} [DecidableEq C]

namespace State

def moveTo (state : State C) (p : Party C) (target : Point) : State C :=
  { state with point := Function.update state.point p target }

/-- The thread enters the mutex, behind `lock` or inside `wait`. -/
def acquire (state : State C) (p : Party C) : Option (State C) :=
  if state.monitor.owner = none ∧ p ∉ state.monitor.waiters then
    some { state.moveTo p .test with monitor := state.monitor.acquire p }
  else none

def asleep (state : State C) (p : Party C) : Bool := p ∈ state.monitor.waiters

/-- `cnd.wait(lock)` -/
def sleep (state : State C) (p : Party C) : State C :=
  { state.moveTo p .wait with monitor := state.monitor.sleep p }

/-- The lock of the inner scope is destroyed. -/
def leave (state : State C) (p : Party C) : State C :=
  { state.moveTo p .notify with monitor := state.monitor.release p }

/-- `cnd.notify_all()` -/
def notifyAll (state : State C) (p : Party C) : State C :=
  { state.moveTo p .loop with monitor := { state.monitor with waiters := [] } }

@[simp] theorem leave_point (state : State C) (p : Party C) :
    (state.leave p).point p = .notify := by
  simp [leave, moveTo]

end State

/-- `producer_thread` -/
def producerThread (state : State C) : Option (State C) :=
  match state.point .producer with
  | .start => some { state.moveTo .producer .loop with consumers := state.semaphore }
  | .loop =>
      if state.i = 0 then some (state.moveTo .producer .done)
      else some { state.moveTo .producer .lock with i := state.i - 1 }
  | .lock | .wait => state.acquire .producer
  | .test =>
      if state.consumers ≠ state.semaphore then some (state.sleep .producer)
      else some { state.leave .producer with semaphore := 0, counter := state.counter + 1 }
  | .notify => some (state.notifyAll .producer)
  | .done => none

/-- `consumer_thread` -/
def consumerThread (state : State C) (c : C) : Option (State C) :=
  match state.point (.consumer c) with
  | .start => none
  | .loop =>
      if state.seen c = state.iterations then some (state.moveTo (.consumer c) .done)
      else some (state.moveTo (.consumer c) .lock)
  | .lock | .wait => state.acquire (.consumer c)
  | .test =>
      if state.seen c = state.counter then some (state.sleep (.consumer c))
      else
        some { state.leave (.consumer c) with
          seen := Function.update state.seen c state.counter
          semaphore := state.semaphore + 1 }
  | .notify => some (state.notifyAll (.consumer c))
  | .done => none

/-- One atomic step. -/
def step (state : State C) : Action C → Option (State C)
  | .go .producer => producerThread state
  | .go (.consumer c) => consumerThread state c
  | .spurious p =>
      if p ∈ state.monitor.waiters then
        some { state with monitor := state.monitor.wakeSpuriously p }
      else none

/-- `benchmark_ping_pong` has started the threads. -/
def benchmarkPingPong (C : Type*) [Fintype C] (iterations : Nat) : State C where
  iterations := iterations
  counter := 0
  semaphore := Fintype.card C
  monitor := .fresh
  consumers := 0
  i := iterations
  seen _ := 0
  point
    | .producer => .start
    | .consumer _ => .loop

/-! ## What a step can be -/

/-- The condition on which a thread waits. -/
def State.Blocked (state : State C) : Party C → Prop
  | .producer => state.consumers ≠ state.semaphore
  | .consumer c => state.seen c = state.counter

/-- The condition on which a thread leaves its loop. -/
def State.Ended (state : State C) : Party C → Prop
  | .producer => state.i = 0
  | .consumer c => state.seen c = state.iterations

/-- The steps, by what they mean to the other threads. -/
inductive Steps (state : State C) : Action C → State C → Prop
  /-- the producer has read the number of consumers -/
  | starts (hpoint : state.point .producer = .start) :
      Steps state (.go .producer) { state.moveTo .producer .loop with consumers := state.semaphore }
  | ends (p : Party C) (hpoint : state.point p = .loop)
      (hended : state.Ended p) :
      Steps state (.go p) (state.moveTo p .done)
  /-- the producer begins a round -/
  | begins (hpoint : state.point .producer = .loop) (hround : state.i ≠ 0) :
      Steps state (.go .producer) { state.moveTo .producer .lock with i := state.i - 1 }
  /-- a consumer begins to wait for a round -/
  | follows (c : C) (hpoint : state.point (.consumer c) = .loop)
      (hround : state.seen c ≠ state.iterations) :
      Steps state (.go (.consumer c)) (state.moveTo (.consumer c) .lock)
  | enters (p : Party C) (hpoint : state.point p = .lock ∨ state.point p = .wait)
      (hfree : state.monitor.owner = none) (hawake : p ∉ state.monitor.waiters) :
      Steps state (.go p) { state.moveTo p .test with monitor := state.monitor.acquire p }
  | sleeps (p : Party C) (hpoint : state.point p = .test) (hblocked : state.Blocked p) :
      Steps state (.go p) (state.sleep p)
  /-- the producer signals the consumers -/
  | produces (hpoint : state.point .producer = .test) (hall : state.consumers = state.semaphore) :
      Steps state (.go .producer)
        { state.leave .producer with semaphore := 0, counter := state.counter + 1 }
  /-- a consumer signals the producer -/
  | consumes (c : C) (hpoint : state.point (.consumer c) = .test)
      (hround : state.seen c ≠ state.counter) :
      Steps state (.go (.consumer c))
        { state.leave (.consumer c) with
          seen := Function.update state.seen c state.counter
          semaphore := state.semaphore + 1 }
  | notifies (p : Party C) (hpoint : state.point p = .notify) :
      Steps state (.go p) (state.notifyAll p)
  | wakes (p : Party C) (hasleep : p ∈ state.monitor.waiters) :
      Steps state (.spurious p) { state with monitor := state.monitor.wakeSpuriously p }

theorem State.acquire_eq_some {state after : State C} {p : Party C}
    (hpoint : state.point p = .lock ∨ state.point p = .wait)
    (h : state.acquire p = some after) : Steps state (.go p) after := by
  obtain ⟨⟨hfree, hawake⟩, ⟨⟩⟩ := Option.ite_none_right_eq_some.mp h
  exact .enters p hpoint hfree hawake

theorem step_cases {state after : State C} {action : Action C}
    (h : step state action = some after) : Steps state action after := by
  cases action with
  | go p =>
      cases p with
      | producer =>
          simp only [step, producerThread] at h
          split at h
          · next hpoint =>
              cases h
              exact .starts hpoint
          · next hpoint =>
              split at h <;> cases h
              · next hended => exact .ends .producer hpoint hended
              · next hround => exact .begins hpoint hround
          · next hpoint => exact State.acquire_eq_some (.inl hpoint) h
          · next hpoint => exact State.acquire_eq_some (.inr hpoint) h
          · next hpoint =>
              split at h <;> cases h
              · next hblocked => exact .sleeps .producer hpoint hblocked
              · next hall => exact .produces hpoint (not_not.mp hall)
          · next hpoint =>
              cases h
              exact .notifies .producer hpoint
          · cases h
      | consumer c =>
          simp only [step, consumerThread] at h
          split at h
          · cases h
          · next hpoint =>
              split at h <;> cases h
              · next hended => exact .ends (.consumer c) hpoint hended
              · next hround => exact .follows c hpoint hround
          · next hpoint => exact State.acquire_eq_some (.inl hpoint) h
          · next hpoint => exact State.acquire_eq_some (.inr hpoint) h
          · next hpoint =>
              split at h <;> cases h
              · next hblocked => exact .sleeps (.consumer c) hpoint hblocked
              · next hround => exact .consumes c hpoint hround
          · next hpoint =>
              cases h
              exact .notifies (.consumer c) hpoint
          · cases h
  | spurious p =>
      obtain ⟨hasleep, ⟨⟩⟩ := Option.ite_none_right_eq_some.mp h
      exact .wakes p hasleep

end ThreadPools.PingPong
