/-
# Parallel quick sort

`sorter::do_sort` passes the lower part of its list to the pool, sorts the higher part itself
and executes closures of the pool until the lower part is sorted. So a thread has a stack of
executions, and a closure may be executed on top of any wait. Of `basic_thread_pool` and the
futures the documented rules are used: each closure is executed once, by a worker or in
`schedule_one_or_yield`, and its future is ready once it has returned. Which closure an executor
takes, and how `std::partition` arranges the elements within the two parts, is left open.
-/

import Mathlib.Order.Defs.PartialOrder
import ThreadPools.Concurrency.Refinement

namespace ThreadPools.QuickSort

open ThreadPools.Concurrency

/-- A closure of the pool, a call of `do_sort`; the closures are numbered. -/
structure Task (α : Type*) where
  number : Nat
  chunkData : List α
  deriving DecidableEq

/-- The points of `do_sort` outside of its recursive call. -/
inductive Point (α : Type*)
  | enter (chunkData : List α)
  /-- at the loop that waits for `new_lower` -/
  | join (result : List α) (newLower : Task α)

/-- A `do_sort` in its recursive call. -/
structure Caller (α : Type*) where
  partitionVal : α
  newLower : Task α

/-- An execution of a closure, or of the call of `do_sort` in `parallel_quick_sort`. -/
structure Execution (α : Type*) where
  task : Option (Task α)
  point : Point α
  /-- the activations around the innermost one, from the inside to the outside -/
  callers : List (Caller α)
  /-- how many executions had begun before -/
  stamp : Nat

/-- The execution of a closure, as it begins. -/
def Task.execution (task : Task α) (begun : Nat) : Execution α :=
  { task := some task, point := .enter task.chunkData, callers := [], stamp := begun }

/-- The pool, its futures and the stacks of the threads. -/
structure State (T α : Type*) where
  queue : List (Task α)
  /-- the values of the futures that are ready -/
  ready : Task α → Option (List α)
  /-- the number of closures so far -/
  submitted : Nat
  stack : T → List (Execution α)
  /-- the result of `parallel_quick_sort` -/
  result : Option (List α)
  /-- the number of executions so far -/
  begun : Nat

inductive Action (T α : Type*)
  /-- the thread goes on in `do_sort`; `std::partition` starts from the elements in this order -/
  | go (t : T) (arranged : List α)
  /-- the thread executes a closure, as an idle worker or in `schedule_one_or_yield`; a call that
  finds no closure yields, and is no step -/
  | scheduleOne (t : T) (choice : Nat)

variable {T α : Type*} [DecidableEq T] [DecidableEq α]

namespace State

/-- `do_sort` returns a value to its caller, to its future, or to `parallel_quick_sort`. -/
def returned (state : State T α) (t : T) (e : Execution α) (below : List (Execution α))
    (value : List α) : State T α :=
  match e.callers with
  | caller :: callers =>
      let resumed :=
        { e with point := .join (caller.partitionVal :: value) caller.newLower, callers := callers }
      { state with stack := Function.update state.stack t (resumed :: below) }
  | [] =>
      let ended := { state with stack := Function.update state.stack t below }
      match e.task with
      | some task => { ended with ready := Function.update state.ready task (some value) }
      | none => { ended with result := some value }

/-- `do_sort` passes the lower part to the pool and begins to sort the higher part. -/
def split (state : State T α) (t : T) (e : Execution α) (below : List (Execution α))
    (partitionVal : α) (lower higher : List α) : State T α :=
  let newLower : Task α := { number := state.submitted, chunkData := lower }
  let called :=
    { e with point := .enter higher, callers := ⟨partitionVal, newLower⟩ :: e.callers }
  { state with
    queue := state.queue ++ [newLower]
    submitted := state.submitted + 1
    stack := Function.update state.stack t (called :: below) }

/-- A closure of the queue is executed on top of the stack. -/
def begin (state : State T α) (t : T) (choice : Nat) (task : Task α) : State T α :=
  { state with
    queue := state.queue.eraseIdx choice
    begun := state.begun + 1
    stack := Function.update state.stack t (task.execution state.begun :: state.stack t) }

/-- The thread looks for a closure: a worker that has nothing to do, or a thread that waits for
the lower part of its list. That part may be ready by now, when it was not at the test of the
loop. -/
def Helps (main : T) (state : State T α) (t : T) : Prop :=
  match state.stack t with
  | [] => t ≠ main
  | e :: _ =>
      match e.point with
      | .enter _ => False
      | .join _ _ => True

instance (main : T) (state : State T α) (t : T) : Decidable (state.Helps main t) := by
  unfold Helps
  split
  · infer_instance
  · split <;> infer_instance

end State

variable [Preorder α] [DecidableLT α]

/-- `do_sort` -/
def doSort (state : State T α) (t : T) (arranged : List α) : Option (State T α) :=
  match state.stack t with
  | [] => none
  | e :: below =>
      match e.point with
      | .enter [] => some (state.returned t e below [])
      | .enter (partitionVal :: rest) =>
          if arranged.Perm rest then
            some (state.split t e below partitionVal
              (arranged.filter fun val => val < partitionVal)
              (arranged.filter fun val => ¬ val < partitionVal))
          else none
      | .join result newLower =>
          (state.ready newLower).map fun lower => state.returned t e below (lower ++ result)

/-- One atomic step. -/
def step (main : T) (state : State T α) : Action T α → Option (State T α)
  | .go t arranged => doSort state t arranged
  | .scheduleOne t choice =>
      if state.Helps main t then (state.queue[choice]?).map (state.begin t choice) else none

/-- `parallel_quick_sort`; a list without elements is returned as it is. -/
def parallelQuickSort (main : T) (input : List α) : State T α :=
  let outside : State T α :=
    { queue := [], ready := fun _ => none, submitted := 0, stack := fun _ => []
      result := none, begun := 0 }
  if input.isEmpty then { outside with result := some input }
  else
    { outside with
      stack := Function.update outside.stack main
        [{ task := none, point := .enter input, callers := [], stamp := 0 }]
      begun := 1 }

/-! ## What a step can be -/

/-- The value with which `do_sort` is about to return. -/
def State.Returns (state : State T α) (e : Execution α) (value : List α) : Prop :=
  e.point = .enter [] ∧ value = [] ∨
    ∃ result newLower lower, e.point = .join result newLower ∧
      state.ready newLower = some lower ∧ value = lower ++ result

inductive Steps (main : T) (state : State T α) : State T α → Prop
  | splits (t : T) (e : Execution α) (below : List (Execution α)) (partitionVal : α)
      (rest arranged : List α) (hstack : state.stack t = e :: below)
      (hpoint : e.point = .enter (partitionVal :: rest)) (hperm : arranged.Perm rest) :
      Steps main state
        (state.split t e below partitionVal (arranged.filter fun val => val < partitionVal)
          (arranged.filter fun val => ¬ val < partitionVal))
  | returns (t : T) (e : Execution α) (below : List (Execution α)) (value : List α)
      (hstack : state.stack t = e :: below) (hvalue : state.Returns e value) :
      Steps main state (state.returned t e below value)
  | begins (t : T) (choice : Nat) (task : Task α) (hhelps : state.Helps main t)
      (hqueue : state.queue[choice]? = some task) :
      Steps main state (state.begin t choice task)

theorem step_cases {main : T} {state after : State T α} {action : Action T α}
    (h : step main state action = some after) : Steps main state after := by
  cases action with
  | go t arranged =>
      simp only [step, doSort] at h
      split at h
      · cases h
      · next e below hstack =>
          split at h
          · next hpoint =>
              cases h
              exact .returns t e below [] hstack (.inl ⟨hpoint, rfl⟩)
          · next partitionVal rest hpoint =>
              obtain ⟨hperm, ⟨⟩⟩ := Option.ite_none_right_eq_some.mp h
              exact .splits t e below partitionVal rest arranged hstack hpoint hperm
          · next result newLower hpoint =>
              obtain ⟨lower, hready, ⟨⟩⟩ := Option.map_eq_some_iff.mp h
              exact .returns t e below _ hstack
                (.inr ⟨result, newLower, lower, hpoint, hready, rfl⟩)
  | scheduleOne t choice =>
      obtain ⟨hhelps, htaken⟩ := Option.ite_none_right_eq_some.mp h
      obtain ⟨task, hqueue, ⟨⟩⟩ := Option.map_eq_some_iff.mp htaken
      exact .begins t choice task hhelps hqueue

end ThreadPools.QuickSort
