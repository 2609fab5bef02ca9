/-
# The memory of a Boost pool

A `ThreadPool`, its managers and their threads are monitors with data members of their
own. `task`, `go` and `status` are read and written without a lock in several places,
so every read and every write of one of them is a step. The log is not part of the
program; it records what has happened to the tasks.
-/

import ThreadPools.Boost.Synchronized

namespace ThreadPools.Boost.Pool

/-- The address of a `Runnable`; a null pointer is `none : Option Runnable`. -/
abbrev Runnable := Nat

/-- The position of a manager in `taskList`. -/
abbrev ManagerId := Nat

inductive Tid
  | client (c : Nat)
  /-- the thread of a manager -/
  | worker (m : ManagerId)
  deriving DecidableEq

/-- The `Synchronized` objects: the pool, its managers and the threads of these. -/
inductive MonitorId
  | pool
  | manager (m : ManagerId)
  | thread (m : ManagerId)
  deriving DecidableEq

/-- `Thread::ThreadStatus` -/
inductive ThreadStatus
  | idle
  | running
  | finished
  deriving DecidableEq

/-- The data members of a `TaskManager`. -/
structure TaskManager where
  task : Option Runnable
  go : Bool
  /-- `thread.status` -/
  status : ThreadStatus

structure Log where
  /-- the tasks of all calls of `execute` -/
  submitted : List Runnable
  /-- the tasks some `set_task` has put into a slot -/
  accepted : List Runnable
  started : List Runnable
  deleted : List Runnable
  /-- the destructor of the pool has been called -/
  closing : Bool
  /-- and has ended -/
  released : Bool

structure Memory where
  sync : MonitorId → Synchronized Tid
  managers : ManagerId → TaskManager
  log : Log

/-- What one step does to the memory. -/
inductive Effect
  | read
  /-- a step inside a method of a monitor -/
  | sync (x : MonitorId) (s : Synchronized Tid)
  /-- a thread calls `execute(task)` -/
  | submit (task : Option Runnable)
  /-- a thread calls the destructor of the pool -/
  | close
  /-- `task = t` in `set_task` -/
  | place (task : Option Runnable) (m : ManagerId)
  /-- `task->run()` is entered -/
  | begin (m : ManagerId)
  /-- `delete task` -/
  | delete (m : ManagerId)
  /-- `task = 0` -/
  | clear (m : ManagerId)
  /-- `go = false` -/
  | stop (m : ManagerId)
  /-- `thread->status = Thread::FINISHED` -/
  | finish (m : ManagerId)
  /-- `status = IDLE` behind the join -/
  | join (m : ManagerId)
  /-- the destructor of the pool ends -/
  | release

namespace Memory

/-- Change one manager. -/
def update (memory : Memory) (m : ManagerId) (f : TaskManager → TaskManager) : Memory :=
  { memory with managers := Function.update memory.managers m (f (memory.managers m)) }

def apply : Effect → Memory → Memory
  | .read, memory => memory
  | .sync x s, memory => { memory with sync := Function.update memory.sync x s }
  | .submit task, memory =>
      { memory with
        log := { memory.log with submitted := memory.log.submitted ++ task.toList } }
  | .close, memory => { memory with log := { memory.log with closing := true } }
  | .place task m, memory =>
      { memory.update m fun manager => { manager with task := task } with
        log := { memory.log with accepted := memory.log.accepted ++ task.toList } }
  | .begin m, memory =>
      { memory with
        log := { memory.log with
          started := memory.log.started ++ (memory.managers m).task.toList } }
  | .delete m, memory =>
      { memory with
        log := { memory.log with
          deleted := memory.log.deleted ++ (memory.managers m).task.toList } }
  | .clear m, memory => memory.update m fun manager => { manager with task := none }
  | .stop m, memory => memory.update m fun manager => { manager with go := false }
  | .finish m, memory => memory.update m fun manager => { manager with status := .finished }
  | .join m, memory => memory.update m fun manager => { manager with status := .idle }
  | .release, memory => { memory with log := { memory.log with released := true } }

@[simp] theorem update_managers_self (memory : Memory) (m : ManagerId)
    (f : TaskManager → TaskManager) :
    (memory.update m f).managers m = f (memory.managers m) := by
  simp [update]

theorem update_managers_of_ne (memory : Memory) {m other : ManagerId} (h : other ≠ m)
    (f : TaskManager → TaskManager) :
    (memory.update m f).managers other = memory.managers other := by
  simp [update, h]

end Memory

/-- One step of a thread: its effect, and where the thread is behind it. -/
structure Piece (X : Type) where
  effect : Effect := .read
  next : X

/-- Continue somewhere else: a function body is used in the code of its caller. -/
def Piece.map {X Y : Type} (f : X → Y) (piece : Piece X) : Piece Y :=
  { effect := piece.effect, next := f piece.next }

@[simp] theorem Piece.map_effect {X Y : Type} (f : X → Y) (piece : Piece X) :
    (piece.map f).effect = piece.effect := rfl
@[simp] theorem Piece.map_next {X Y : Type} (f : X → Y) (piece : Piece X) :
    (piece.map f).next = f piece.next := rfl

/-- A function body with control points of type `Q` and result of type `R`; there is no
step while the thread is blocked. -/
abbrev Code (Q R : Type) := Q → Memory → Option (Piece (Q ⊕ R))

/-- A step inside a method of the monitor `x`; the caller goes on at `behind`. -/
def within {P R X : Type} (x : MonitorId) (stepped : Option (Synchronized Tid × (P ⊕ R)))
    (inside : P → X) (behind : R → X) : Option (Piece X) :=
  stepped.map fun next => { effect := .sync x next.1, next := next.2.elim inside behind }

theorem within_eq_some {P R X : Type} {x : MonitorId}
    {stepped : Option (Synchronized Tid × (P ⊕ R))} {inside : P → X} {behind : R → X}
    {piece : Piece X} (h : within x stepped inside behind = some piece) :
    ∃ s next, stepped = some (s, next) ∧
      piece = { effect := .sync x s, next := next.elim inside behind } := by
  obtain ⟨⟨s, next⟩, hstepped, heq⟩ := Option.map_eq_some_iff.mp h
  exact ⟨s, next, hstepped, heq.symm⟩

end ThreadPools.Boost.Pool
