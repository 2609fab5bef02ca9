/-
# Objects with a mutex each

The classes `A` of the examples lock the mutexes of all their operands with `boost::lock`, which
takes them in any order and gives them back rather than wait for one while it holds another.
`average` holds its second operand for upgrade only: it writes the mean to the first operand,
lets others share that one, and waits for the exclusive lock of the second one. The vectors have
all one length, as in `src/shared_monitor.cpp`, and the mean of two of them is a parameter.
-/

import ThreadPools.Concurrency.Runs
import ThreadPools.Machines.UpgradeMutex

namespace ThreadPools.SharedMutex

open ThreadPools.Concurrency ThreadPools.Machines

/-- The methods with the objects they are called for. -/
inductive Method (O : Type*)
  /-- the constructor `A(const A& a)`; the new object is not shared yet -/
  | copy (a : O)
  | assign (this a : O)
  | swap (this a : O)
  | average (this a : O)
  /-- `compute(x, y)` of `src/shared_monitor.cpp` -/
  | compute (this x y : O)
  deriving DecidableEq

inductive Stage
  /-- `average` before its assertions: it reads the sizes of both operands under no lock -/
  | asserts
  /-- inside `boost::lock` -/
  | locks
  | body
  /-- `average` before the exclusive lock becomes a shared one -/
  | shares
  /-- `average` before the upgrade lock becomes exclusive -/
  | upgrades
  /-- `average` before the second operand is written -/
  | writes
  /-- the locks are being destroyed -/
  | leaves
  deriving DecidableEq

/-- The objects with their mutexes, and the threads with the methods they execute. -/
structure Objects (O T D : Type*) where
  hold : O → T → Mode
  data : O → D
  point : T → Option (Method O × Stage)
  /-- what the operands of the method were when its body began; no code reads it -/
  operands : T → O → D
  /-- when the body began; no code reads it -/
  since : T → Nat
  begun : Nat

inductive Move (O T : Type*)
  | call (t : T) (method : Method O)
  | take (t : T) (o : O)
  | giveBack (t : T) (o : O)
  | go (t : T)

namespace Method

variable {O : Type*} [DecidableEq O] {D : Type*}

/-- Where a method begins, if it does anything: an assignment to itself returns at once. -/
def entry : Method O → Option (Method O × Stage)
  | assign this a => if this = a then none else some (assign this a, .locks)
  | average this a => some (average this a, .asserts)
  | method => some (method, .locks)

/-- The mutexes which a method holds at a stage, and how. -/
def locks : Method O → Stage → List (O × Mode)
  | copy a, _ => [(a, .shared)]
  | assign this a, _ => [(this, .exclusive), (a, .shared)]
  | swap this a, _ => [(this, .exclusive), (a, .exclusive)]
  | average _ _, .asserts => []
  | average this a, .locks | average this a, .body | average this a, .shares =>
      [(this, .exclusive), (a, .upgrade)]
  | average this a, .upgrades => [(this, .shared), (a, .upgrade)]
  | average this a, .writes | average this a, .leaves => [(this, .shared), (a, .exclusive)]
  | compute this x y, _ => [(this, .exclusive), (x, .shared), (y, .shared)]

/-- How the locks of a list hold the mutex of an object. -/
def lockMode : List (O × Mode) → O → Mode
  | [], _ => .free
  | lock :: locks, o => if o = lock.1 then lock.2 else lockMode locks o

def mode (method : Method O) (stage : Stage) : O → Mode := lockMode (method.locks stage)

/-- The data after the body. -/
def act (mean : D → D → D) (data : O → D) : Method O → O → D
  | copy _ => data
  | assign this a => Function.update data this (data a)
  | swap this a => Function.update (Function.update data this (data a)) a (data this)
  | average this a => Function.update data this (mean (data this) (data a))
  | compute this x y => Function.update data this (mean (data x) (data y))

/-- Where a method goes on behind its body. -/
def behind : Method O → Stage
  | average _ _ => .shares
  | _ => .leaves

/-- The object that a method writes first is no other operand. `average` asserts this, `swap`
and `compute` leave it to their callers. -/
def Distinct : Method O → Prop
  | copy _ => True
  | assign this a | swap this a | average this a => this ≠ a
  | compute this x y => this ≠ x ∧ this ≠ y

instance : (method : Method O) → Decidable method.Distinct
  | copy _ => inferInstanceAs (Decidable True)
  | assign this a | swap this a | average this a => inferInstanceAs (Decidable (this ≠ a))
  | compute this x y => inferInstanceAs (Decidable (this ≠ x ∧ this ≠ y))

/-- One thread can hold all locks of the method at the same time, also two of them for one
mutex. -/
def Lockable (method : Method O) : Prop :=
  (method.locks .locks).Pairwise fun lock other =>
    lock.1 = other.1 → lock.2.compatible other.2 = true

instance (method : Method O) : Decidable method.Lockable :=
  inferInstanceAs (Decidable (List.Pairwise _ _))

omit [DecidableEq O] in
/-- A method that locks an object against itself never gets all its locks. -/
theorem lockable_iff_distinct (method : Method O) : method.Lockable ↔ method.Distinct := by
  cases method <;> simp [Lockable, Distinct, locks, Mode.compatible]

end Method

namespace Objects

variable {O T D : Type*} [DecidableEq O] [DecidableEq T] [Fintype T]

def moveTo (state : Objects O T D) (t : T) (target : Option (Method O × Stage)) :
    Objects O T D :=
  { state with point := Function.update state.point t target }

/-- The thread holds the mutex of an object in another mode. -/
def setMode (state : Objects O T D) (t : T) (o : O) (mode : Mode) : Objects O T D :=
  { state with hold := Function.update state.hold o (Function.update (state.hold o) t mode) }

/-- The thread goes on with its method. -/
def go (mean : D → D → D) (state : Objects O T D) (t : T) : Option (Objects O T D) :=
  match state.point t with
  | none => none
  | some (.average this a, .asserts) =>
      -- the assertion about the sizes holds; where the other one fails, the program ends
      if this ≠ a then some (state.moveTo t (some (.average this a, .locks))) else none
  | some (method, .locks) =>
      if method.Lockable ∧
          ∀ lock ∈ method.locks .locks, state.hold lock.1 t = method.mode .locks lock.1 then
        some { state.moveTo t (some (method, .body)) with
          since := Function.update state.since t state.begun
          begun := state.begun + 1 }
      else none
  | some (method, .body) =>
      some { state.moveTo t (some (method, method.behind)) with
        data := method.act mean state.data
        operands := Function.update state.operands t state.data }
  | some (.average this a, .shares) =>
      some ((state.moveTo t (some (.average this a, .upgrades))).setMode t this .shared)
  | some (.average this a, .upgrades) =>
      if Grants (state.hold a) t .exclusive then
        some ((state.moveTo t (some (.average this a, .writes))).setMode t a .exclusive)
      else none
  | some (.average this a, .writes) =>
      some { state.moveTo t (some (.average this a, .leaves)) with
        data := Function.update state.data a (state.data this) }
  | some (method, .leaves) =>
      if ∀ lock ∈ method.locks .leaves, state.hold lock.1 t = .free then
        some (state.moveTo t none)
      else none
  | some (_, _) => none

/-- One atomic step. -/
def step (mean : D → D → D) (state : Objects O T D) : Move O T → Option (Objects O T D)
  | .call t method =>
      if state.point t = none then some (state.moveTo t method.entry) else none
  | .take t o =>
      match state.point t with
      | some (method, .locks) =>
          if state.hold o t = .free ∧ Grants (state.hold o) t (method.mode .locks o) then
            some (state.setMode t o (method.mode .locks o))
          else none
      | _ => none
  | .giveBack t o =>
      match state.point t with
      | some (_, .locks) | some (_, .leaves) => some (state.setMode t o .free)
      | _ => none
  | .go t => go mean state t

/-- Nobody executes a method. -/
def initial (T : Type*) (data : O → D) : Objects O T D where
  hold _ _ := .free
  data := data
  point _ := none
  operands _ := data
  since _ := 0
  begun := 0

/-! ## What a step can be -/

inductive Steps (mean : D → D → D) (state : Objects O T D) : Move O T → Objects O T D → Prop
  | calls (t : T) (method : Method O) (hpoint : state.point t = none) :
      Steps mean state (.call t method) (state.moveTo t method.entry)
  | asserts (t : T) (this a : O) (hpoint : state.point t = some (.average this a, .asserts))
      (hne : this ≠ a) :
      Steps mean state (.go t) (state.moveTo t (some (.average this a, .locks)))
  | takes (t : T) (o : O) (method : Method O) (hpoint : state.point t = some (method, .locks))
      (hgrants : Grants (state.hold o) t (method.mode .locks o)) :
      Steps mean state (.take t o) (state.setMode t o (method.mode .locks o))
  | givesBack (t : T) (o : O) (method : Method O) (stage : Stage)
      (hpoint : state.point t = some (method, stage))
      (hstage : stage = .locks ∨ stage = .leaves) :
      Steps mean state (.giveBack t o) (state.setMode t o .free)
  | begins (t : T) (method : Method O) (hpoint : state.point t = some (method, .locks))
      (hdistinct : method.Distinct)
      (hheld : ∀ lock ∈ method.locks .locks, state.hold lock.1 t = method.mode .locks lock.1) :
      Steps mean state (.go t)
        { state.moveTo t (some (method, .body)) with
          since := Function.update state.since t state.begun
          begun := state.begun + 1 }
  | acts (t : T) (method : Method O) (hpoint : state.point t = some (method, .body)) :
      Steps mean state (.go t)
        { state.moveTo t (some (method, method.behind)) with
          data := method.act mean state.data
          operands := Function.update state.operands t state.data }
  | shares (t : T) (this a : O) (hpoint : state.point t = some (.average this a, .shares)) :
      Steps mean state (.go t)
        ((state.moveTo t (some (.average this a, .upgrades))).setMode t this .shared)
  | upgrades (t : T) (this a : O) (hpoint : state.point t = some (.average this a, .upgrades))
      (hgrants : Grants (state.hold a) t .exclusive) :
      Steps mean state (.go t)
        ((state.moveTo t (some (.average this a, .writes))).setMode t a .exclusive)
  | writes (t : T) (this a : O) (hpoint : state.point t = some (.average this a, .writes)) :
      Steps mean state (.go t)
        { state.moveTo t (some (.average this a, .leaves)) with
          data := Function.update state.data a (state.data this) }
  | ends (t : T) (method : Method O) (hpoint : state.point t = some (method, .leaves))
      (hfree : ∀ lock ∈ method.locks .leaves, state.hold lock.1 t = .free) :
      Steps mean state (.go t) (state.moveTo t none)

variable {mean : D → D → D} {state after : Objects O T D} {move : Move O T}

theorem step_cases (h : step mean state move = some after) : Steps mean state move after := by
  cases move with
  | call t method =>
      obtain ⟨hpoint, ⟨⟩⟩ := Option.ite_none_right_eq_some.mp h
      exact .calls t method hpoint
  | take t o =>
      simp only [step] at h
      split at h
      · next method hpoint =>
          obtain ⟨⟨-, hgrants⟩, ⟨⟩⟩ := Option.ite_none_right_eq_some.mp h
          exact .takes t o method hpoint hgrants
      · cases h
  | giveBack t o =>
      simp only [step] at h
      split at h
      · next method hpoint =>
          cases h
          exact .givesBack t o method .locks hpoint (.inl rfl)
      · next method hpoint =>
          cases h
          exact .givesBack t o method .leaves hpoint (.inr rfl)
      · cases h
  | go t =>
      simp only [step, go] at h
      split at h
      · cases h
      · next this a hpoint =>
          obtain ⟨hne, ⟨⟩⟩ := Option.ite_none_right_eq_some.mp h
          exact .asserts t this a hpoint hne
      · next method hpoint =>
          obtain ⟨⟨hlockable, hheld⟩, ⟨⟩⟩ := Option.ite_none_right_eq_some.mp h
          exact .begins t method hpoint (method.lockable_iff_distinct.mp hlockable) hheld
      · next method hpoint =>
          cases h
          exact .acts t method hpoint
      · next this a hpoint =>
          cases h
          exact .shares t this a hpoint
      · next this a hpoint =>
          obtain ⟨hgrants, ⟨⟩⟩ := Option.ite_none_right_eq_some.mp h
          exact .upgrades t this a hpoint hgrants
      · next this a hpoint =>
          cases h
          exact .writes t this a hpoint
      · next method hpoint =>
          obtain ⟨hfree, ⟨⟩⟩ := Option.ite_none_right_eq_some.mp h
          exact .ends t method hpoint hfree
      · cases h

omit [Fintype T] in
/-- A thread begins a method or goes on with the one it executes. -/
theorem Steps.moved (hstep : Steps mean state move after) :
    ∃ t target, after.point = Function.update state.point t target ∧
      ((state.point t = none ∧ ∃ method, move = .call t method) ∨
        ∃ method stage, state.point t = some (method, stage) ∧
          ((∃ stage', target = some (method, stage')) ∨ stage = .leaves ∧ target = none)) := by
  cases hstep with
  | calls t method hpoint => exact ⟨t, _, rfl, .inl ⟨hpoint, method, rfl⟩⟩
  | takes t o method hpoint hgrants =>
      exact ⟨t, _, (Function.update_eq_self t state.point).symm,
        .inr ⟨method, _, hpoint, .inl ⟨_, hpoint⟩⟩⟩
  | givesBack t o method stage hpoint hstage =>
      exact ⟨t, _, (Function.update_eq_self t state.point).symm,
        .inr ⟨method, _, hpoint, .inl ⟨_, hpoint⟩⟩⟩
  | ends t method hpoint hfree => exact ⟨t, _, rfl, .inr ⟨method, _, hpoint, .inr ⟨rfl, rfl⟩⟩⟩
  | asserts t this a hpoint | shares t this a hpoint | upgrades t this a hpoint
  | writes t this a hpoint | begins t method hpoint | acts t method hpoint =>
      exact ⟨t, _, rfl, .inr ⟨_, _, hpoint, .inl ⟨_, rfl⟩⟩⟩

end Objects

end ThreadPools.SharedMutex
