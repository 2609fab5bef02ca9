/-
# A Boost pool with its threads

One `ThreadPool`, any number of client threads, and one worker for each manager. A client
calls a method when it likes, and so does a task while it runs. A run starts behind the
constructor, which has created the threads and set their status.
-/

import ThreadPools.Concurrency.Runs
import ThreadPools.Boost.ThreadPool

namespace ThreadPools.Boost.Pool

open ThreadPools.Concurrency

/-- The methods of a pool, and its destructor. -/
inductive Method
  | execute (task : Option Runnable)
  | isIdle
  | isBusy
  | terminate
  | idleNotification
  | destroy
  deriving DecidableEq

/-- The points of a call. -/
inductive Call
  | execute (task : Option Runnable) (p : ThreadPool.ExecutePoint)
  | isIdle (p : ThreadPool.CheckPoint)
  | isBusy (p : ThreadPool.CheckPoint)
  | terminate (p : ThreadPool.TerminatePoint)
  | idleNotification (p : NotificationPoint)
  | destroy (p : ThreadPool.DestroyPoint)
  deriving DecidableEq

/-- The first step of a call. -/
def Method.entry : Method → Piece Call
  | .execute task => { effect := .submit task, next := .execute task (.enter .test) }
  | .isIdle => { next := .isIdle (.enter .test) }
  | .isBusy => { next := .isBusy (.enter .test) }
  | .terminate => { next := .terminate (.enter .test) }
  | .idleNotification => { next := .idleNotification (.enter .test) }
  | .destroy => { effect := .close, next := .destroy (.next 0) }

/-- The code of a function in the code of all methods. -/
def Call.embed {Q R : Type} (point : Q → Call) (piece : Option (Piece (Q ⊕ R))) :
    Option (Piece (Call ⊕ Unit)) :=
  piece.map fun piece => piece.map (Sum.map point fun _ => ())

/-- The code of the methods; a pool has `size` managers. -/
def Call.code (size : Nat) (ended : ManagerId → Bool) (t : Tid) (choice : Choice) :
    Code Call Unit
  | .execute task p, memory =>
      embed (.execute task) (ThreadPool.execute size task t choice p memory)
  | .isIdle p, memory => embed .isIdle (ThreadPool.isIdle size t p memory)
  | .isBusy p, memory => embed .isBusy (ThreadPool.isBusy size t p memory)
  | .terminate p, memory => embed .terminate (ThreadPool.terminate size t choice p memory)
  | .idleNotification p, memory =>
      embed .idleNotification (Pool.idleNotification t choice p memory)
  | .destroy p, memory => embed .destroy (ThreadPool.destroy size ended t choice p memory)

/-- The control points of all threads. -/
inductive Point
  /-- a client, outside of the pool or in a call -/
  | client (call : Option Call)
  | worker (p : TaskManager.RunPoint Call)
  deriving DecidableEq

/-- The call the thread is in. -/
def Point.call : Point → Option Call
  | .client call => call
  | .worker (.running call) => call
  | .worker _ => none

/-- The code of all threads. -/
def code (size : Nat) (ended : ManagerId → Bool) (choice : Choice) :
    Tid → Point → Memory → Option (Piece Point)
  | t, .client (some call), memory =>
      (call.code size ended t choice memory).map fun piece =>
        piece.map (Sum.elim (.client ∘ some) fun _ => .client none)
  | .worker m, .worker p, memory =>
      (TaskManager.run m (Call.code size ended (.worker m) choice) choice p memory).map
        fun piece => piece.map .worker
  | _, _, _ => none

/-- A thread that is outside of the pool, or runs a task, calls a method. -/
def enter (method : Method) : Point → Option (Piece Point)
  | .client none => some (method.entry.map (.client ∘ some))
  | .worker (.running none) => some (method.entry.map (.worker ∘ .running ∘ some))
  | _ => none

/-- A task ends, with or without an exception. -/
def finish : Point → Option (Piece Point)
  | .worker (.running none) => some { next := .worker (.delete true) }
  | _ => none

structure State where
  memory : Memory
  pc : Tid → Point
  /-- the threads inside a call, for the contract of the destructor -/
  calling : List Tid

/-- What the scheduler and the users of the pool decide. -/
inductive Action
  /-- the next step of a thread -/
  | run (t : Tid) (choice : Choice)
  | call (t : Tid) (method : Method)
  /-- the task of a worker ends -/
  | finish (m : ManagerId)
  /-- a thread blocked in a wait wakes up without a notification, or its time has run out -/
  | wakeUp (x : MonitorId) (t : Tid)

/-- The threads inside a call behind a step of `t`. -/
def callingAfter (calling : List Tid) (t : Tid) (p next : Point) : List Tid :=
  match p.call, next.call with
  | none, some _ => t :: calling
  | some _, none => calling.erase t
  | _, _ => calling

/-- The state behind a step of `t`. -/
def State.advance (state : State) (t : Tid) (piece : Piece Point) : State where
  memory := state.memory.apply piece.effect
  pc := Function.update state.pc t piece.next
  calling := callingAfter state.calling t (state.pc t) piece.next

/-- The workers that have ended. -/
def State.ended (state : State) (m : ManagerId) : Bool :=
  decide (state.pc (.worker m) = .worker .exited)

def Action.thread : Action → Tid
  | .run t _ | .call t _ | .wakeUp _ t => t
  | .finish m => .worker m

/-- The piece of code behind an action. -/
def State.piece (size : Nat) (state : State) : Action → Option (Piece Point)
  | .run t choice => code size state.ended choice t (state.pc t) state.memory
  | .call t method => enter method (state.pc t)
  | .finish m => Pool.finish (state.pc (.worker m))
  | .wakeUp x t =>
      let sync := state.memory.sync x
      if t ∈ sync.waiters then
        some { effect := .sync x { sync with waiters := sync.waiters.erase t }
               next := state.pc t }
      else none

/-- One atomic step. -/
def step (size : Nat) (state : State) (action : Action) : Option State :=
  (state.piece size action).map (state.advance action.thread)

/-- A pool of `size` managers behind its constructor. -/
def initial (size : Nat) : State where
  memory :=
    { sync := fun _ => .new
      managers := fun _ => { task := none, go := true, status := .running }
      log :=
        { submitted := [], accepted := [], started := [], deleted := []
          closing := false, released := false } }
  pc
    | .client _ => .client none
    | .worker m => .worker (if m < size then .add .test else .exited)
  calling := []

/-- How a pool is used: every task is submitted once, and the destructor is called once,
by a client, when no call is in progress and none will follow. -/
def Contract (state : State) : Action → Prop
  | .call t method =>
      state.memory.log.closing = false ∧
        (∀ task, method = .execute (some task) → task ∉ state.memory.log.submitted) ∧
        (method = .destroy → state.calling = [] ∧ ∀ m, t ≠ .worker m)
  | _ => True

theorem Tid.client_ne_worker (c : Nat) (m : ManagerId) : Tid.client c ≠ .worker m := nofun

instance (state : State) (action : Action) : Decidable (Contract state action) :=
  match action with
  | .call t method =>
      let fresh : Decidable (∀ task, method = .execute (some task) →
          task ∉ state.memory.log.submitted) :=
        match method with
        | .execute (some task) =>
            decidable_of_iff (task ∉ state.memory.log.submitted)
              ⟨fun h other heq => by cases heq; exact h, fun h => h task rfl⟩
        | .execute none | .isIdle | .isBusy | .terminate | .idleNotification | .destroy =>
            .isTrue nofun
      let owner : Decidable (∀ m, t ≠ .worker m) :=
        match t with
        | .client c => .isTrue (Tid.client_ne_worker c)
        | .worker m => .isFalse fun h => h m rfl
      inferInstanceAs (Decidable (_ ∧ _ ∧ (_ → _ ∧ _)))
  | .run _ _ => .isTrue trivial
  | .finish _ => .isTrue trivial
  | .wakeUp _ _ => .isTrue trivial

/-- The scheduler's choice where nothing is to be chosen. -/
def Action.go (t : Tid) : Action := .run t { waiter := 0, timeout := false, condition := false }

/-- The thread performs its next `n` steps. -/
def Action.steps (t : Tid) (n : Nat) : List Action := List.replicate n (.go t)

end ThreadPools.Boost.Pool
