/-
# Threads that synchronize through monitors

A monitor is an error-checking mutex with one condition variable. A program
gives, for every thread and control point, the next piece of code: its effect
on the shared data, the notification it issues, the synchronization operation
that ends it, and the control point behind that operation. Waiting is two
control points: `wait` releases the monitor and puts the thread on the waiting
list, and the point behind it has to enter the monitor again, which it can do
only once the thread has left the list.

Locking a monitor which the caller owns raises an exception; the monitors
entered since the handler was installed are released on the way (the locks are
objects of the scopes being left).
-/

import Mathlib.Logic.Function.Basic
import ThreadPools.Concurrency.Runs

namespace ThreadPools.Concurrency

/-- An error-checking mutex together with its condition variable. -/
structure Monitor (T : Type*) where
  /-- The thread inside the monitor. -/
  owner : Option T
  /-- The threads blocked on the condition for which no wake-up is pending. -/
  waiters : List T

namespace Monitor

variable {T : Type*}

/-- A monitor nobody uses. -/
def fresh : Monitor T := ⟨none, []⟩

def acquire (monitor : Monitor T) (thread : T) : Monitor T :=
  { monitor with owner := some thread }

/-- Wake one waiting thread, if there is one; `choice` is the scheduler's. -/
def signal (monitor : Monitor T) (choice : Nat) : Monitor T :=
  { monitor with
    waiters := monitor.waiters.eraseIdx (choice % monitor.waiters.length) }

@[simp] theorem acquire_owner (monitor : Monitor T) (thread : T) :
    (monitor.acquire thread).owner = some thread := rfl
@[simp] theorem acquire_waiters (monitor : Monitor T) (thread : T) :
    (monitor.acquire thread).waiters = monitor.waiters := rfl
@[simp] theorem signal_owner (monitor : Monitor T) (choice : Nat) :
    (monitor.signal choice).owner = monitor.owner := rfl

theorem signal_waiters_sublist (monitor : Monitor T) (choice : Nat) :
    (monitor.signal choice).waiters.Sublist monitor.waiters :=
  List.eraseIdx_sublist _ _

/-- A notification reaches a thread that is alone on the condition. -/
theorem signal_waiters_of_length_le_one (monitor : Monitor T) (choice : Nat)
    (hlength : monitor.waiters.length ≤ 1) : (monitor.signal choice).waiters = [] := by
  obtain ⟨owner, waiters⟩ := monitor
  match waiters, hlength with
  | [], _ => rfl
  | [_], _ => simp [signal, Nat.mod_one]

/-- A notification on a condition with waiters takes one of them off the list. -/
theorem length_signal_waiters (monitor : Monitor T) (choice : Nat)
    (hwaiting : monitor.waiters ≠ []) :
    (monitor.signal choice).waiters.length + 1 = monitor.waiters.length := by
  have hpos : 0 < monitor.waiters.length := List.length_pos_iff.mpr hwaiting
  have hindex : choice % monitor.waiters.length < monitor.waiters.length :=
    Nat.mod_lt _ hpos
  simp only [signal, List.length_eraseIdx_of_lt hindex]
  omega

variable [DecidableEq T]

/-- Unlocking a monitor of somebody else is an error without effect. -/
def release (monitor : Monitor T) (thread : T) : Monitor T :=
  { monitor with owner := if monitor.owner = some thread then none else monitor.owner }

def sleep (monitor : Monitor T) (thread : T) : Monitor T :=
  { monitor.release thread with waiters := monitor.waiters ++ [thread] }

/-- A wake-up without any notification. -/
def wakeSpuriously (monitor : Monitor T) (thread : T) : Monitor T :=
  { monitor with waiters := monitor.waiters.erase thread }

@[simp] theorem release_owner (monitor : Monitor T) (thread : T) :
    (monitor.release thread).owner =
      if monitor.owner = some thread then none else monitor.owner := rfl
@[simp] theorem release_waiters (monitor : Monitor T) (thread : T) :
    (monitor.release thread).waiters = monitor.waiters := rfl
@[simp] theorem sleep_owner (monitor : Monitor T) (thread : T) :
    (monitor.sleep thread).owner =
      if monitor.owner = some thread then none else monitor.owner := rfl
@[simp] theorem sleep_waiters (monitor : Monitor T) (thread : T) :
    (monitor.sleep thread).waiters = monitor.waiters ++ [thread] := rfl
@[simp] theorem wakeSpuriously_owner (monitor : Monitor T) (thread : T) :
    (monitor.wakeSpuriously thread).owner = monitor.owner := rfl
@[simp] theorem wakeSpuriously_waiters (monitor : Monitor T) (thread : T) :
    (monitor.wakeSpuriously thread).waiters = monitor.waiters.erase thread := rfl

end Monitor

/-- The operation that ends a piece of code. -/
inductive Op (T M : Type*)
  /-- no synchronization: the piece ends where other threads may be observed -/
  | skip
  | lock (m : M)
  | unlock (m : M)
  | wait (m : M)
  | join (t : T)

/-- One piece of code: what it changes, whom it notifies, how it ends and where
the thread continues. -/
structure Instr (T M E X : Type*) where
  op : Op T M := .skip
  effect : Option E := none
  notify : Option M := none
  next : X

namespace Instr

variable {T M E X Y : Type*}

/-- Continue somewhere else: a function body is used in the code of its caller. -/
def map (f : X → Y) (instr : Instr T M E X) : Instr T M E Y :=
  { op := instr.op, effect := instr.effect, notify := instr.notify, next := f instr.next }

@[simp] theorem map_op (f : X → Y) (instr : Instr T M E X) :
    (instr.map f).op = instr.op := rfl
@[simp] theorem map_effect (f : X → Y) (instr : Instr T M E X) :
    (instr.map f).effect = instr.effect := rfl
@[simp] theorem map_notify (f : X → Y) (instr : Instr T M E X) :
    (instr.map f).notify = instr.notify := rfl
@[simp] theorem map_next (f : X → Y) (instr : Instr T M E X) :
    (instr.map f).next = f instr.next := rfl

/-- A piece of a function body leads to a point where `inside` holds, or ends
the body with a result for which `behind` holds. -/
def Establishes {Q R : Type*} (instr : Instr T M E (Q ⊕ R)) (inside : Q → Prop)
    (behind : R → Prop) : Prop :=
  instr.next.elim inside behind

/-- A caller establishes its own assertions through those of the callee. -/
theorem Establishes.call {Q R S U : Type*} {instr : Instr T M E (Q ⊕ R)}
    {inside : Q → Prop} {behind : R → Prop} (h : instr.Establishes inside behind)
    {embed : Q → S} {resume : R → S ⊕ U} {insideCaller : S → Prop} {behindCaller : U → Prop}
    (hinside : ∀ q, inside q → insideCaller (embed q))
    (hreturn : ∀ r, behind r → (resume r).elim insideCaller behindCaller) :
    (instr.map (Sum.elim (.inl ∘ embed) resume)).Establishes insideCaller behindCaller := by
  unfold Establishes at h ⊢
  rw [map_next]
  cases hnext : instr.next with
  | inl q =>
      rw [hnext] at h
      exact hinside q h
  | inr r =>
      rw [hnext] at h
      exact hreturn r h

end Instr

/-- A program: `T` threads, `M` monitors, `D` shared data with effects `E`,
`P` control points, `I` choices left to the environment. -/
structure Program (T M D E P I : Type*) where
  code : T → I → P → D → Option (Instr T M E P)
  apply : E → D → D
  /-- The monitors entered at a control point, innermost first. -/
  held : T → P → List M
  /-- The monitor to be entered again at a control point inside `wait`. -/
  waitsAt : T → P → Option M
  /-- Where an exception raised at a control point is caught. -/
  handler : P → P
  /-- The thread has ended. -/
  exited : P → Bool

structure State (T M D P : Type*) where
  data : D
  monitor : M → Monitor T
  pc : T → P

inductive Action (T M I : Type*)
  /-- `thread` performs its next piece of code; a notification issued in it
  wakes the waiter that `choice` selects. -/
  | run (thread : T) (input : I) (choice : Nat)
  | spurious (m : M) (thread : T)

variable {T M D E P I : Type*}

/-- The thread that performs a piece of code. -/
def Action.mover : Action T M I → Option T
  | .run thread _ _ => some thread
  | .spurious _ _ => none

namespace Program

variable (π : Program T M D E P I)

/-- The shared data after a piece of code. -/
def dataAfter (instr : Instr T M E P) (data : D) : D :=
  match instr.effect with
  | none => data
  | some effect => π.apply effect data

@[simp] theorem dataAfter_none {instr : Instr T M E P} (h : instr.effect = none)
    (data : D) : π.dataAfter instr data = data := by
  simp [dataAfter, h]

theorem dataAfter_some {instr : Instr T M E P} {effect : E}
    (h : instr.effect = some effect) (data : D) :
    π.dataAfter instr data = π.apply effect data := by
  simp [dataAfter, h]

end Program

variable [DecidableEq T] [DecidableEq M]

/-- The monitors after an optional notification. -/
def notified (monitor : M → Monitor T) (target : Option M) (choice : Nat) :
    M → Monitor T :=
  match target with
  | none => monitor
  | some m => Function.update monitor m ((monitor m).signal choice)

/-- The monitors after an operation of `thread`. -/
def Op.perform (thread : T) (monitor : M → Monitor T) : Op T M → M → Monitor T
  | .skip => monitor
  | .join _ => monitor
  | .lock m => Function.update monitor m ((monitor m).acquire thread)
  | .unlock m => Function.update monitor m ((monitor m).release thread)
  | .wait m => Function.update monitor m ((monitor m).sleep thread)

namespace Program

variable (π : Program T M D E P I)

/-- The operation can be completed. -/
def Enabled (state : State T M D P) (thread : T) : Op T M → Prop
  | .skip | .unlock _ | .wait _ => True
  | .lock m => (state.monitor m).owner = none ∧ thread ∉ (state.monitor m).waiters
  | .join other => π.exited (state.pc other) = true

/-- The operation enters a monitor which the thread owns already. -/
def Raises (state : State T M D P) (thread : T) : Op T M → Prop
  | .lock m => (state.monitor m).owner = some thread
  | _ => False

instance (state : State T M D P) (thread : T) (op : Op T M) :
    Decidable (π.Enabled state thread op) := by
  cases op <;> simp only [Enabled] <;> infer_instance

instance (state : State T M D P) (thread : T) (op : Op T M) :
    Decidable (Raises state thread op) := by
  cases op <;> simp only [Raises] <;> infer_instance

/-- The state after `thread` has performed `instr`. -/
def advance (state : State T M D P) (thread : T) (instr : Instr T M E P)
    (choice : Nat) : State T M D P where
  data := π.dataAfter instr state.data
  monitor := instr.op.perform thread (notified state.monitor instr.notify choice)
  pc := Function.update state.pc thread instr.next

/-- The state after an exception in `thread` has been caught. -/
def raise (state : State T M D P) (thread : T) : State T M D P where
  data := state.data
  monitor m :=
    if m ∈ π.held thread (state.pc thread) ∧
        m ∉ π.held thread (π.handler (state.pc thread)) then
      (state.monitor m).release thread
    else state.monitor m
  pc := Function.update state.pc thread (π.handler (state.pc thread))

/-- One atomic step; `none` when the action is not possible. -/
def step (state : State T M D P) : Action T M I → Option (State T M D P)
  | .run thread input choice =>
      (π.code thread input (state.pc thread) state.data).bind fun instr =>
        if π.Enabled state thread instr.op then
          some (π.advance state thread instr choice)
        else if Raises state thread instr.op then some (π.raise state thread)
        else none
  | .spurious m thread =>
      if thread ∈ (state.monitor m).waiters then
        some { state with
          monitor := Function.update state.monitor m
            ((state.monitor m).wakeSpuriously thread) }
      else none

variable {π}

/-- What a step can be: a piece of code, an exception, or a spurious wake-up. -/
theorem step_cases {state next : State T M D P} {action : Action T M I}
    (hstep : π.step state action = some next) :
    (∃ thread input choice instr, action = .run thread input choice ∧
      π.code thread input (state.pc thread) state.data = some instr ∧
      π.Enabled state thread instr.op ∧ next = π.advance state thread instr choice) ∨
    (∃ thread input choice instr, action = .run thread input choice ∧
      π.code thread input (state.pc thread) state.data = some instr ∧
      Raises state thread instr.op ∧ next = π.raise state thread) ∨
    (∃ m thread, action = .spurious m thread ∧ thread ∈ (state.monitor m).waiters ∧
      next = { state with
        monitor := Function.update state.monitor m
          ((state.monitor m).wakeSpuriously thread) }) := by
  cases action with
  | run thread input choice =>
      obtain ⟨instr, hcode, htaken⟩ := Option.bind_eq_some_iff.mp hstep
      split at htaken
      · next henabled =>
          exact .inl ⟨thread, input, choice, instr, rfl, hcode, henabled,
            (Option.some.inj htaken).symm⟩
      · split at htaken
        · next hraises =>
            exact .inr (.inl ⟨thread, input, choice, instr, rfl, hcode, hraises,
              (Option.some.inj htaken).symm⟩)
        · cases htaken
  | spurious m thread =>
      simp only [step] at hstep
      split at hstep
      · next hmem => exact .inr (.inr ⟨m, thread, rfl, hmem, (Option.some.inj hstep).symm⟩)
      · cases hstep

/-- A step moves only the thread that performs it. -/
theorem step_pc {state next : State T M D P} {action : Action T M I}
    (hstep : π.step state action = some next) {thread : T}
    (hthread : action.mover ≠ some thread) : next.pc thread = state.pc thread := by
  rcases step_cases hstep with
    ⟨mover, input, choice, instr, rfl, -, -, rfl⟩ |
    ⟨mover, input, choice, instr, rfl, -, -, rfl⟩ | ⟨m, sleeper, -, -, rfl⟩
  · have hne : thread ≠ mover := fun heq => hthread (congrArg some heq.symm)
    simp [advance, hne]
  · have hne : thread ≠ mover := fun heq => hthread (congrArg some heq.symm)
    simp [raise, hne]
  · rfl

/-- A thread that takes no part in an execution stays where it is. -/
theorem execute_pc {check : State T M D P → Action T M I → Bool}
    {actions : List (Action T M I)} {source target : State T M D P}
    (hexecute : execute π.step check actions source = some target) {active : List T}
    (hactive : actions.all (fun action => action.mover.all (· ∈ active)) = true) {thread : T}
    (hthread : thread ∉ active) : target.pc thread = source.pc thread := by
  induction actions generalizing source with
  | nil =>
      cases hexecute
      rfl
  | cons action actions ih =>
      simp only [execute] at hexecute
      split at hexecute
      · obtain ⟨middle, hmiddle, hrest⟩ := Option.bind_eq_some_iff.mp hexecute
        rw [List.all_cons, Bool.and_eq_true] at hactive
        refine (ih hrest hactive.2).trans (step_pc hmiddle fun hmover => hthread ?_)
        simpa [hmover] using hactive.1
      · cases hexecute

end Program

end ThreadPools.Concurrency
