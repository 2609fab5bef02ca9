/-
# The threads that test the shared mutexes

Each thread repeats a round until its time is over: it takes the mutex in some way, asserts
what the variable `state` is, and gives the mutex back. The rounds of namespace `S` use a
`shared_mutex`, those of namespace `U` an `upgrade_mutex`; they come in three kinds, which wait
for the mutex, try to take it, or try for some time. To try for some time means here to try.
-/

import Mathlib.Data.Fin.VecNotation
import ThreadPools.Machines.LockedCode

namespace ThreadPools.SharedMutex

open ThreadPools.Concurrency ThreadPools.Machines

/-- The values of `state`. -/
inductive Value
  | reading
  | writing
  deriving DecidableEq

/-- How a thread takes the mutex. -/
inductive Kind
  | waits
  | tries
  | triesFor
  deriving DecidableEq

/-- `lock()`, `try_lock()` or `try_lock_for()`, in some mode: a call that fails leads to
`failed`. -/
def Kind.locks (kind : Kind) (mode : Mode) (failed taken : Code Value) : Code Value :=
  match kind with
  | .waits => .takes mode taken
  | .tries | .triesFor => .tries mode taken failed

/-- `reader`, `try_reader`, `try_for_reader` -/
def reader (kind : Kind) : Code Value :=
  kind.locks .shared .ends <|
    .asserts .reading <|
    .takes .free .ends

/-- `writer`, `try_writer`, `try_for_writer` -/
def writer (kind : Kind) : Code Value :=
  kind.locks .exclusive .ends <|
    .assigns .writing <|
    .asserts .writing <|
    .assigns .reading <|
    .takes .free .ends

/-- `upgradable`, `try_upgradable`, `try_for_upgradable` -/
def upgradable (kind : Kind) : Code Value :=
  kind.locks .upgrade .ends <|
    .asserts .reading <|
    .takes .free .ends

/-- The end of a clockwise round, behind `state = writing`. -/
def clockwiseWritten : Code Value :=
  .asserts .writing <|
  .assigns .reading <|
  .takes .upgrade <|
  .asserts .reading <|
  .takes .shared <|
  .asserts .reading <|
  .takes .free .ends

/-- `clockwise`, `try_clockwise`, `try_for_clockwise` -/
def clockwise (kind : Kind) : Code Value :=
  kind.locks .shared .ends <|
    .asserts .reading <|
    .tries .exclusive (.assigns .writing clockwiseWritten) <|
    .tries .upgrade
      (.asserts .reading <| .takes .exclusive <| .assigns .writing clockwiseWritten)
      (.takes .free .ends)

/-- `counter_clockwise`, `try_counter_clockwise`, `try_for_counter_clockwise` -/
def counterClockwise (kind : Kind) : Code Value :=
  kind.locks .upgrade .ends <|
    .asserts .reading <|
    kind.locks .exclusive (.takes .free .ends) <|
      .asserts .reading <|
      .assigns .writing <|
      .asserts .writing <|
      .assigns .reading <|
      .takes .shared <|
      .asserts .reading <|
      .takes .free .ends

/-- The functions that a thread may execute. -/
inductive Client
  | reader (kind : Kind)
  | writer (kind : Kind)
  | upgradable (kind : Kind)
  | clockwise (kind : Kind)
  | counterClockwise (kind : Kind)

def Client.code : Client → Code Value
  | .reader kind => SharedMutex.reader kind
  | .writer kind => SharedMutex.writer kind
  | .upgradable kind => SharedMutex.upgradable kind
  | .clockwise kind => SharedMutex.clockwise kind
  | .counterClockwise kind => SharedMutex.counterClockwise kind

/-- Every client keeps to the discipline of the mutex. -/
theorem Client.fits (client : Client) : client.code.fits .reading .free .reading = true := by
  cases client <;> rename_i kind <;> cases kind <;> rfl

variable {T : Type*} [DecidableEq T] [Fintype T]

abbrev ClientState (T : Type*) := System T Value

/-- One atomic step of the threads of a test. -/
def step (client : T → Client) : ClientState T → System.Action T → Option (ClientState T) :=
  System.step fun t => (client t).code

def initial (T : Type*) : ClientState T := System.initial T .reading

variable {client : T → Client} {state : ClientState T}
  {guard : ClientState T → System.Action T → Prop}

/-- No assertion about `state` fails, whatever threads use the mutex, and nobody uses `state`
while a thread assigns it. -/
theorem clients_assert (hrun : Reaches (step client) guard (initial T) state) (t : T) :
    (∀ value rest, state.code t = some (.asserts value rest) → state.value = value) ∧
      ∀ value rest, state.code t = some (.assigns value rest) →
        ∀ other, other ≠ t → state.hold other = .free := by
  have hfitting := System.fitting_of_reaches (fun t => (client t).fits) hrun
  exact ⟨fun _ _ => hfitting.asserted, fun _ _ hcode _ => hfitting.alone hcode⟩

/-- A thread has gone clockwise from a shared lock to the exclusive one. -/
theorem clients_assert_clockwise : ∃ state : ClientState (Fin 2),
    Reaches (step ![.clockwise .waits, .reader .waits]) (fun _ _ => True) (initial (Fin 2)) state ∧
      state.value = .writing := by
  obtain ⟨state, hrun, hcode⟩ : ∃ state : ClientState (Fin 2),
      Reaches (step ![.clockwise .waits, .reader .waits]) (fun _ _ => True) (initial (Fin 2))
        state ∧ state.code 0 = some clockwiseWritten :=
    Reaches.of_observed (fun _ _ => true) (.go 1 :: List.replicate 5 (.go 0))
      (fun _ _ _ => trivial) (by decide +kernel)
  exact ⟨state, hrun, (clients_assert hrun 0).1 _ _ hcode⟩

/-- From every state of every run all threads can come to their end, so no threads block each
other, not even some of them, and none has to give up a lock it could get; and then the variable
is `reading`, as the next test needs it. -/
theorem clients_end (hrun : Reaches (step client) guard (initial T) state) :
    ∃ after, Reaches (step client) System.Genuine state after ∧
      (∀ t, after.code t = none) ∧ after.value = .reading :=
  System.can_end (System.fitting_of_reaches (fun t => (client t).fits) hrun)
    fun t => (client t).fits

/-- A thread waits with the upgrade lock for a reader, which can go on. -/
theorem clients_end_upgrade : ∃ state : ClientState (Fin 2),
    (state.hold 0 = .upgrade ∧ state.hold 1 = .shared) ∧
      ∃ after, Reaches (step ![.counterClockwise .waits, .reader .tries]) System.Genuine state
        after ∧ (∀ t, after.code t = none) ∧ after.value = .reading := by
  obtain ⟨state, hrun, hobserved⟩ : ∃ state : ClientState (Fin 2),
      Reaches (step ![.counterClockwise .waits, .reader .tries]) (fun _ _ => True)
        (initial (Fin 2)) state ∧ (state.hold 0, state.hold 1) = (.upgrade, .shared) :=
    Reaches.of_observed (fun _ _ => true)
      (List.replicate 2 (.go 1) ++ List.replicate 3 (.go 0))
      (fun _ _ _ => trivial) (by decide +kernel)
  exact ⟨state, Prod.mk.inj hobserved, clients_end hrun⟩

end ThreadPools.SharedMutex
