/-
# Wake-ups

A thread asleep on a condition goes on only when somebody notifies it, so a
program has to make sure that the sleepers are attended to: what they sleep for
is still on its way, or one of them has been woken already, or some thread is on
duty and will see to them. A program attends to a condition when nobody falls
asleep unless the sleepers are served, when a thread that wakes up takes over
the duty or leaves it to another one, and when only pieces of code that notify
the condition end the service.
-/

import Mathlib.Data.List.Perm.Subperm
import ThreadPools.Concurrency.Locking

namespace ThreadPools.Concurrency

variable {T M D E P I : Type*}

namespace Monitor

/-- A notification on a condition with waiters wakes one of them. -/
theorem exists_woken (monitor : Monitor T) (hnodup : monitor.waiters.Nodup)
    (hwaiting : monitor.waiters ≠ []) (choice : Nat) :
    ∃ thread ∈ monitor.waiters, thread ∉ (monitor.signal choice).waiters := by
  by_contra hnone
  simp only [not_exists, not_and, not_not] at hnone
  have hle := (List.subperm_of_subset hnodup hnone).length_le
  have hlength := monitor.length_signal_waiters choice hwaiting
  omega

end Monitor

namespace Program

variable (π : Program T M D E P I)

/-- `thread` has been woken in `wait` and has not entered the monitor again. -/
def Awakened (state : State T M D P) (m : M) (thread : T) : Prop :=
  π.waitsAt thread (state.pc thread) = some m ∧ thread ∉ (state.monitor m).waiters

/-- Nobody is asleep on `m`, or the sleepers are served, or somebody is awake who
will see to them. -/
def Attended (m : M) (served : D → Prop) (duty : T → P → Prop) (state : State T M D P) :
    Prop :=
  (state.monitor m).waiters = [] ∨ served state.data ∨ (∃ thread, π.Awakened state m thread) ∨
    ∃ thread, duty thread (state.pc thread)

variable [DecidableEq T] [DecidableEq M]

/-- The obligations of a program that attends to the condition `m`, for the
pieces of code of a guarded run. -/
structure Attends (m : M) (served : D → Prop) (duty : T → P → Prop)
    (guard : State T M D P → Action T M I → Prop) (initial : State T M D P) : Prop where
  /-- Nobody falls asleep unless the sleepers are served. -/
  sleep : ∀ {state thread input choice instr}, Reaches π.step guard initial state →
    guard state (.run thread input choice) →
    π.code thread input (state.pc thread) state.data = some instr → instr.op = .wait m →
      served (π.dataAfter instr state.data)
  /-- A thread that wakes up takes over the duty or is not needed. -/
  wake : ∀ {state thread input choice instr}, Reaches π.step guard initial state →
    guard state (.run thread input choice) →
    π.code thread input (state.pc thread) state.data = some instr →
    π.Awakened state m thread →
      duty thread instr.next ∨ (state.monitor m).waiters = [] ∨ served state.data ∨
        ∃ other, other ≠ thread ∧ π.Awakened state m other
  /-- The duty ends with the service. -/
  stay : ∀ {state thread input choice instr}, Reaches π.step guard initial state →
    guard state (.run thread input choice) →
    π.code thread input (state.pc thread) state.data = some instr →
    duty thread (state.pc thread) →
      duty thread instr.next ∨ served (π.dataAfter instr state.data)
  /-- The service ends with a notification. -/
  serve : ∀ {state thread input choice instr}, Reaches π.step guard initial state →
    guard state (.run thread input choice) →
    π.code thread input (state.pc thread) state.data = some instr → instr.notify ≠ some m →
    served state.data → served (π.dataAfter instr state.data)
  raise : ∀ {state thread}, Reaches π.step guard initial state →
    duty thread (state.pc thread) → duty thread (π.handler (state.pc thread))

variable {π} {m : M} {served : D → Prop} {duty : T → P → Prop}
  {guard : State T M D P → Action T M I → Prop} {initial state : State T M D P}

/-- Threads that are woken, or that do not move, stay so. -/
theorem Awakened.advance {thread other : T} (h : π.Awakened state m other)
    (hother : other ≠ thread) {instr : Instr T M E P} (choice : Nat) :
    π.Awakened (π.advance state thread instr choice) m other := by
  refine ⟨by simpa [Program.advance, hother] using h.1, fun hasleep => ?_⟩
  rcases perform_waiters thread (notified state.monitor instr.notify choice) instr.op m
    with hsame | ⟨-, hmore⟩
  · simp only [Program.advance, hsame] at hasleep
    exact h.2 ((notified_waiters_sublist _ _ _ m).mem hasleep)
  · simp only [Program.advance, hmore, List.mem_append, List.mem_singleton] at hasleep
    rcases hasleep with hasleep | rfl
    · exact h.2 ((notified_waiters_sublist _ _ _ m).mem hasleep)
    · exact hother rfl

/-- A notification wakes somebody who is asleep, and it is not the notifier. -/
theorem exists_awakened (hlocked : π.Locked state) {thread : T}
    (hawake : thread ∉ (state.monitor m).waiters) {instr : Instr T M E P}
    (hwaiting : (state.monitor m).waiters ≠ []) (hnotify : instr.notify = some m)
    (hop : instr.op ≠ .wait m) (choice : Nat) :
    ∃ other, π.Awakened (π.advance state thread instr choice) m other := by
  obtain ⟨other, hmem, hwoken⟩ :=
    (state.monitor m).exists_woken (hlocked.waiters_nodup m) hwaiting choice
  have hother : other ≠ thread := fun heq => hawake (heq ▸ hmem)
  refine ⟨other, by simpa [Program.advance, hother] using hlocked.waits m other hmem, ?_⟩
  rcases perform_waiters thread (notified state.monitor instr.notify choice) instr.op m
    with hsame | ⟨hwait, -⟩
  · simp only [Program.advance, hsame]
    simpa [hnotify, notified] using hwoken
  · exact absurd hwait hop

theorem Attends.advance (hattends : π.Attends m served duty guard initial)
    (hwell : π.WellLocked) (hrun : Reaches π.step guard initial state)
    (hlocked : π.Locked state) (h : π.Attended m served duty state) {thread : T} {input : I}
    {choice : Nat} {instr : Instr T M E P} (hguard : guard state (.run thread input choice))
    (hcode : π.code thread input (state.pc thread) state.data = some instr)
    (henabled : π.Enabled state thread instr.op) :
    π.Attended m served duty (π.advance state thread instr choice) := by
  have hawake := hlocked.awake hwell hcode (.inl henabled) m
  have hpc : ∀ other, other ≠ thread →
      (π.advance state thread instr choice).pc other = state.pc other :=
    fun other hother => by simp [Program.advance, hother]
  have hself : (π.advance state thread instr choice).pc thread = instr.next := by
    simp [Program.advance]
  by_cases hop : instr.op = .wait m
  · exact .inr (.inl (hattends.sleep hrun hguard hcode hop))
  have hwaiters : ((π.advance state thread instr choice).monitor m).waiters =
      (notified state.monitor instr.notify choice m).waiters :=
    (perform_waiters thread _ instr.op m).resolve_right fun hwait => hop hwait.1
  by_cases hwaiting : (state.monitor m).waiters = []
  · refine .inl ?_
    rw [hwaiters]
    exact List.sublist_nil.mp (hwaiting ▸ notified_waiters_sublist _ _ _ m)
  by_cases hnotify : instr.notify = some m
  · exact .inr (.inr (.inl (exists_awakened hlocked hawake hwaiting hnotify hop choice)))
  have hserve := hattends.serve hrun hguard hcode hnotify
  rcases h with hnil | hserved | ⟨other, hother⟩ | ⟨other, hother⟩
  · exact absurd hnil hwaiting
  · exact .inr (.inl (hserve hserved))
  · by_cases heq : other = thread
    · subst heq
      rcases hattends.wake hrun hguard hcode hother with
        hduty | hnil | hserved | ⟨third, hne, hthird⟩
      · exact .inr (.inr (.inr ⟨other, hself ▸ hduty⟩))
      · exact absurd hnil hwaiting
      · exact .inr (.inl (hserve hserved))
      · exact .inr (.inr (.inl ⟨third, hthird.advance hne choice⟩))
    · exact .inr (.inr (.inl ⟨other, hother.advance heq choice⟩))
  · by_cases heq : other = thread
    · subst heq
      rcases hattends.stay hrun hguard hcode hother with hduty | hserved
      · exact .inr (.inr (.inr ⟨other, hself ▸ hduty⟩))
      · exact .inr (.inl hserved)
    · exact .inr (.inr (.inr ⟨other, (hpc other heq).symm ▸ hother⟩))

theorem Attends.raised (hattends : π.Attends m served duty guard initial)
    (hwell : π.WellLocked) (hrun : Reaches π.step guard initial state)
    (hlocked : π.Locked state) (h : π.Attended m served duty state) {thread : T} {input : I}
    {instr : Instr T M E P}
    (hcode : π.code thread input (state.pc thread) state.data = some instr)
    (hraises : Raises state thread instr.op) :
    π.Attended m served duty (π.raise state thread) := by
  have hwaiters : ((π.raise state thread).monitor m).waiters = (state.monitor m).waiters := by
    simp only [Program.raise]
    split <;> rfl
  rcases h with hnil | hserved | ⟨other, hwaits, hwoken⟩ | ⟨other, hother⟩
  · exact .inl (hwaiters.trans hnil)
  · exact .inr (.inl hserved)
  · have hne : other ≠ thread := by
      -- inside `wait` a thread only enters a monitor it does not hold
      rintro rfl
      obtain ⟨hop, hnotHeld⟩ := hwell.relocks hcode hwaits
      rw [hop] at hraises
      exact hnotHeld ((hlocked.owner m other).mp hraises)
    refine .inr (.inr (.inl ⟨other, ?_, hwaiters ▸ hwoken⟩))
    simpa [Program.raise, hne] using hwaits
  · refine .inr (.inr (.inr ⟨other, ?_⟩))
    by_cases heq : other = thread
    · subst heq
      simpa [Program.raise] using hattends.raise hrun hother
    · simpa [Program.raise, heq] using hother

/-- The rule for condition variables: a program that attends to a condition never
leaves its sleepers alone. -/
theorem Attends.attended (hattends : π.Attends m served duty guard initial)
    (hwell : π.WellLocked) (hlocked : π.Locked initial)
    (hinit : π.Attended m served duty initial) (hrun : Reaches π.step guard initial state) :
    π.Attended m served duty state := by
  refine hrun.invariant_of
    (fun state => Reaches π.step guard initial state ∧ π.Locked state)
    (fun state hprior => ⟨hprior, hlocked.reaches hwell hprior⟩) hinit ?_
  rintro state action next ⟨hprior, hlocked⟩ h hallowed hstep
  rcases Program.step_cases hstep with
    ⟨thread, input, choice, instr, rfl, hcode, henabled, rfl⟩ |
    ⟨thread, input, choice, instr, rfl, hcode, hraises, rfl⟩ | ⟨other, thread, -, hmem, rfl⟩
  · exact hattends.advance hwell hprior hlocked h hallowed hcode henabled
  · exact hattends.raised hwell hprior hlocked h hcode hraises
  · by_cases hother : other = m
    · subst hother
      refine .inr (.inr (.inl ⟨thread, hlocked.waits other thread hmem, ?_⟩))
      simpa using (hlocked.waiters_nodup other).not_mem_erase
    · have hsame : Function.update state.monitor other
          ((state.monitor other).wakeSpuriously thread) m = state.monitor m :=
        Function.update_of_ne (Ne.symm hother) _ _
      rcases h with hnil | hserved | ⟨woken, hwaits, hwoken⟩ | hduty
      · exact .inl ((congrArg Monitor.waiters hsame).trans hnil)
      · exact .inr (.inl hserved)
      · exact .inr (.inr (.inl ⟨woken, hwaits, (congrArg Monitor.waiters hsame) ▸ hwoken⟩))
      · exact .inr (.inr (.inr hduty))

end Program

end ThreadPools.Concurrency
