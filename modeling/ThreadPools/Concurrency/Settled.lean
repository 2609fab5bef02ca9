/-
# Settled states

A state is settled when no thread can make a step of its own, whatever the environment
chooses for it; new requests are no steps of a thread's own. When the monitors are entered in
an order, nobody is inside a monitor then: the thread in the last one would go on. So whoever
has something left to do is asleep on a condition, and no wake-up is pending for it.
-/

import ThreadPools.Concurrency.Locking

namespace ThreadPools.Concurrency

variable {T M D E P I : Type*}

namespace Program

variable (π : Program T M D E P I)

/-- `thread` has a next piece of code, and it does not wait for the end of a thread. -/
def Continues (own : I → Prop) (state : State T M D P) (thread : T)
    (instr : Instr T M E P) : Prop :=
  ∃ input, own input ∧ π.code thread input (state.pc thread) state.data = some instr ∧
    ∀ other, instr.op ≠ .join other

variable [DecidableEq T] [DecidableEq M]

/-- No thread can make a step of its own. -/
def Settled (own : I → Prop) (state : State T M D P) : Prop :=
  ∀ thread input choice, own input → π.step state (.run thread input choice) = none

variable {π} {own : I → Prop} {state : State T M D P} {thread : T} {instr : Instr T M E P}

/-- What has been begun goes on unless the thread is about to enter a monitor. -/
theorem Settled.lock (hsettled : π.Settled own state)
    (hcontinues : π.Continues own state thread instr) :
    ∃ m, instr.op = .lock m ∧ (state.monitor m).owner ≠ some thread ∧
      ((state.monitor m).owner = none → thread ∈ (state.monitor m).waiters) := by
  obtain ⟨input, hown, hcode, hjoin⟩ := hcontinues
  have hstuck := hsettled thread input 0 hown
  simp only [step, hcode, Option.bind_some] at hstuck
  split at hstuck
  · cases hstuck
  · next hdisabled =>
      split at hstuck
      · cases hstuck
      · next hquiet =>
          cases hop : instr.op with
          | skip | unlock | wait =>
              rw [hop] at hdisabled
              exact absurd trivial hdisabled
          | join other => exact absurd hop (hjoin other)
          | lock m =>
              rw [hop] at hdisabled hquiet
              refine ⟨m, rfl, hquiet, fun hfree => ?_⟩
              by_contra hawake
              exact hdisabled ⟨hfree, hawake⟩

/-- In a settled state nobody is inside a monitor, when whoever is inside one is not asleep,
goes on and enters only later ones. -/
theorem Settled.free (hsettled : π.Settled own state) (hlocked : π.Locked state)
    {level : M → Nat} {bound : Nat} (hbound : ∀ m, level m ≤ bound)
    (hinside : ∀ thread m, m ∈ π.held thread (state.pc thread) →
      π.waitsAt thread (state.pc thread) = none ∧
        ∃ instr, π.Continues own state thread instr ∧
          ∀ next, instr.op = .lock next → level m < level next) (m : M) :
    (state.monitor m).owner = none := by
  -- from the last monitor backwards
  induction hleft : bound - level m using Nat.strong_induction_on generalizing m with
  | h left ih =>
      by_contra howned
      obtain ⟨thread, howner⟩ := Option.ne_none_iff_exists'.mp howned
      have hheld := (hlocked.owner m thread).mp howner
      obtain ⟨hawake, instr, hcontinues, hlater⟩ := hinside thread m hheld
      obtain ⟨next, hop, -, hblocked⟩ := hsettled.lock hcontinues
      have hlevel := hlater next hop
      have hle := hbound next
      have hfree := ih (bound - level next) (by omega) next rfl
      have hasleep := hlocked.waits next thread (hblocked hfree)
      rw [hawake] at hasleep
      cases hasleep

/-- Then whoever goes on is asleep on a condition. -/
theorem Settled.asleep (hsettled : π.Settled own state)
    (hfree : ∀ m, (state.monitor m).owner = none)
    (hcontinues : π.Continues own state thread instr) :
    ∃ m, thread ∈ (state.monitor m).waiters := by
  obtain ⟨m, -, -, hblocked⟩ := hsettled.lock hcontinues
  exact ⟨m, hblocked (hfree m)⟩

end Program

end ThreadPools.Concurrency
