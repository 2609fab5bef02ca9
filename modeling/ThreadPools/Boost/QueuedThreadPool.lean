/-
# The Boost `QueuedThreadPool`

The pool leaves its work to a `boost::basic_thread_pool`, which is a parameter here, with
what its documentation says as hypotheses. A task may call the pool that runs it, and
`try_executing_one` runs a task inside a call, so a thread has a stack of calls and tasks.
-/

import Mathlib.Logic.Function.Basic
import ThreadPools.Concurrency.Runs

namespace ThreadPools.Boost.QueuedThreadPool

/-- The address of a `Runnable`. -/
abbrev Runnable := Nat

/-- What the pool uses of `boost::basic_thread_pool`; `E` are the states of the executor. -/
structure Executor (E : Type) where
  /-- `basic_thread_pool(size)` -/
  create : Nat → E
  /-- the tasks of the closures that wait in the executor -/
  queued : E → List Runnable
  closed : E → Bool
  close : E → E
  /-- a submission; `none` is an exception -/
  submit : Runnable → E → Option E
  /-- how `try_executing_one()` or a worker of the executor removes a closure -/
  take : E → Option (Runnable × E)

/-- The documented behaviour: a closure is taken if there is one, and it is removed. -/
structure Executor.Documented {E : Type} (executor : Executor E) : Prop where
  take_eq_none : ∀ {e}, executor.take e = none ↔ executor.queued e = []
  take_eq_some : ∀ {e task rest}, executor.take e = some (task, rest) →
    (executor.queued e).Perm (task :: executor.queued rest)

/-- What a call does in one step: the executor behind it, the task which the calling
thread runs next, and where the call goes on, or its result. -/
structure Piece (E Q R : Type) where
  ea : Option E
  runs : Option Runnable := none
  next : Q ⊕ R

/-- A method with control points of type `Q` and result of type `R`. -/
abbrev Code (E Q R : Type) := Q → Option E → Piece E Q R

def Piece.map {E Q R Q' R' : Type} (point : Q → Q') (result : R → R') (piece : Piece E Q R) :
    Piece E Q' R' :=
  { ea := piece.ea, runs := piece.runs, next := piece.next.map point result }

/-- The points of `is_idle` and `is_busy`. -/
inductive CheckPoint
  /-- at `!_size` -/
  | size
  /-- at `ea->closed()` -/
  | closed
  /-- at `ea->try_executing_one()` -/
  | tryExecutingOne
  /-- behind the task which that has run -/
  | executed
  deriving DecidableEq

variable {E : Type}

/-- The common form of `is_idle` and `is_busy`: `result` is their value for an executor that
is closed or has had something to execute. -/
def check (executor : Executor E) (size : Nat) (result : Bool) : Code E CheckPoint Bool
  | .size, ea => { ea := ea, next := if size = 0 then .inr true else .inl .closed }
  | .closed, none => { ea := none, next := .inr false }
  | .closed, some e =>
      { ea := some e, next := if executor.closed e then .inr result else .inl .tryExecutingOne }
  | .tryExecutingOne, none => { ea := none, next := .inr false }
  | .tryExecutingOne, some e =>
      match executor.take e with
      | none => { ea := some e, next := .inr !result }
      | some (task, rest) => { ea := some rest, runs := some task, next := .inl .executed }
  | .executed, ea => { ea := ea, next := .inr result }

/-- `is_idle` -/
def isIdle (executor : Executor E) (size : Nat) : Code E CheckPoint Bool :=
  check executor size false

/-- `is_busy` -/
def isBusy (executor : Executor E) (size : Nat) : Code E CheckPoint Bool :=
  check executor size true

/-- `queue_length` -/
def queueLength (executor : Executor E) (size : Nat) : Code E CheckPoint Nat :=
  fun p ea => (isBusy executor size p ea).map id fun busy => if busy then 1 else 0

/-- The points of `execute`. -/
inductive ExecutePoint
  /-- at `ea && !ea->closed()` -/
  | closed
  /-- at `boost::async` -/
  | submit
  deriving DecidableEq

/-- `execute`; the result tells whether the executor has got the task, which is deleted
otherwise. -/
def execute (executor : Executor E) (task : Runnable) : Code E ExecutePoint Bool
  | .closed, none => { ea := none, next := .inr false }
  | .closed, some e =>
      { ea := some e, next := if executor.closed e then .inr false else .inl .submit }
  | .submit, none => { ea := none, next := .inr false }
  | .submit, some e =>
      match executor.submit task e with
      | none => { ea := some e, next := .inr false }
      | some e => { ea := some e, next := .inr true }

/-- `stop`, behind `go = false` -/
def stop (executor : Executor E) : Code E Unit Unit :=
  fun _ ea => { ea := ea.map executor.close, next := .inr () }

/-- The points of a call. -/
inductive Call
  | execute (task : Runnable) (p : ExecutePoint)
  | isIdle (p : CheckPoint)
  | isBusy (p : CheckPoint)
  | queueLength (p : CheckPoint)
  /-- `terminate`, which calls `stop` -/
  | terminate
  deriving DecidableEq

/-- What a call returns. -/
inductive Answer
  | executed (accepted : Bool)
  | bool (value : Bool)
  | length (value : Nat)
  | void
  deriving DecidableEq

inductive Method
  | execute (task : Runnable)
  | isIdle
  | isBusy
  | queueLength
  | terminate
  deriving DecidableEq

def Method.entry : Method → Call
  | .execute task => .execute task .closed
  | .isIdle => .isIdle .size
  | .isBusy => .isBusy .size
  | .queueLength => .queueLength .size
  | .terminate => .terminate

/-- The code of all methods of a pool with `size` threads. -/
def Call.code (executor : Executor E) (size : Nat) : Code E Call Answer
  | .execute task p, ea =>
      (QueuedThreadPool.execute executor task p ea).map (.execute task) .executed
  | .isIdle p, ea => (QueuedThreadPool.isIdle executor size p ea).map .isIdle .bool
  | .isBusy p, ea => (QueuedThreadPool.isBusy executor size p ea).map .isBusy .bool
  | .queueLength p, ea =>
      (QueuedThreadPool.queueLength executor size p ea).map .queueLength .length
  | .terminate, ea =>
      (QueuedThreadPool.stop executor () ea).map (fun _ => .terminate) fun _ => .void

/-- The clients of the pool, and the workers of its executor. -/
inductive Tid
  | client (c : Nat)
  | worker (w : Nat)
  deriving DecidableEq

/-- What a thread is inside of. -/
inductive Frame
  | call (call : Call)
  /-- the `run()` of a task -/
  | task (task : Runnable)
  deriving DecidableEq

structure State (E : Type) where
  ea : Option E
  /-- the innermost frame comes first -/
  stack : Tid → List Frame
  started : List Runnable
  deleted : List Runnable

/-- The tasks which wait in the executor. -/
def State.queued (executor : Executor E) (state : State E) : List Runnable :=
  (state.ea.map executor.queued).getD []

/-- A worker is executing a task. -/
def State.Executing (state : State E) : Prop := ∃ w, state.stack (.worker w) ≠ []

inductive Action
  /-- a thread that is outside of the pool, or runs a task, calls a method -/
  | call (t : Tid) (method : Method)
  /-- the next step of a thread in a call -/
  | run (t : Tid)
  /-- a worker takes a closure from the executor -/
  | take (w : Nat)
  /-- the task on top of a stack ends -/
  | finish (t : Tid)

/-- A thread may call a method: a client outside of the pool, or a running task. -/
def mayCall : Tid → List Frame → Bool
  | .client _, [] => true
  | _, .task _ :: _ => true
  | _, _ => false

/-- The task that is lost when a call returns. -/
def Call.lost : Call → Answer → List Runnable
  | .execute task _, .executed false => [task]
  | _, _ => []

/-- The state behind a step of a call. -/
def State.advance (state : State E) (t : Tid) (call : Call) (outer : List Frame)
    (piece : Piece E Call Answer) : State E where
  ea := piece.ea
  stack := Function.update state.stack t
    ((piece.runs.map Frame.task).toList ++
      piece.next.elim (fun call => [.call call]) (fun _ => []) ++ outer)
  started := state.started ++ piece.runs.toList
  deleted := state.deleted ++ piece.next.elim (fun _ => []) call.lost

/-- One atomic step. -/
def step (executor : Executor E) (size : Nat) (state : State E) : Action → Option (State E)
  | .call t method =>
      if mayCall t (state.stack t) then
        some { state with
          stack := Function.update state.stack t (.call method.entry :: state.stack t) }
      else none
  | .run t =>
      match state.stack t with
      | .call call :: outer =>
          some (state.advance t call outer (call.code executor size state.ea))
      | _ => none
  | .take w =>
      if w < size ∧ state.stack (.worker w) = [] then
        (state.ea.bind executor.take).map fun taken =>
          { state with
            ea := some taken.2
            stack := Function.update state.stack (.worker w) [.task taken.1]
            started := state.started ++ [taken.1] }
      else none
  | .finish t =>
      match state.stack t with
      | .task task :: outer =>
          some { state with
            stack := Function.update state.stack t outer
            deleted := state.deleted ++ [task] }
      | _ => none

/-- A pool of `size` threads behind its constructor; an empty pool has no executor. -/
def initial (executor : Executor E) (size : Nat) : State E where
  ea := if size = 0 then none else some (executor.create size)
  stack := fun _ => []
  started := []
  deleted := []

end ThreadPools.Boost.QueuedThreadPool
