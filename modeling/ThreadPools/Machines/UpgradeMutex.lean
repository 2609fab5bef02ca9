/-
# Mutexes that are shared, upgraded or held alone

A thread holds such a mutex in one of four modes. Any number of threads may share it, beside
them one may hold the right to upgrade, and one may hold it alone. These are the rules that are
documented of the shared and upgrade mutexes of boost. That a thread which waits for the mutex
keeps out others that come to share it is left out.
-/

import Mathlib.Data.Fintype.Basic

namespace ThreadPools.Machines

universe u

/-- How a thread holds a mutex. -/
inductive Mode
  | free
  | shared
  | upgrade
  | exclusive
  deriving DecidableEq

namespace Mode

def strength : Mode → Nat
  | free => 0
  | shared => 1
  | upgrade => 2
  | exclusive => 3

/-- Two threads may hold the mutex in these modes at the same time. -/
def compatible : Mode → Mode → Bool
  | free, _ | _, free | shared, shared | shared, upgrade | upgrade, shared => true
  | _, _ => false

theorem compatible_comm (m n : Mode) : m.compatible n = n.compatible m := by
  cases m <;> cases n <;> rfl

@[simp] theorem free_compatible (m : Mode) : free.compatible m = true := by
  cases m <;> rfl

theorem compatible_of_le {m n other : Mode} (hle : m.strength ≤ n.strength)
    (h : n.compatible other = true) : m.compatible other = true := by
  revert hle h
  cases m <;> cases n <;> cases other <;> decide

theorem eq_free_of_exclusive {m : Mode} (h : exclusive.compatible m = true) : m = free := by
  cases m <;> first | rfl | cases h

theorem le_shared_of_upgrade {m : Mode} (h : upgrade.compatible m = true) :
    m = free ∨ m = shared := by
  cases m <;> first | exact .inl rfl | exact .inr rfl | cases h

end Mode

variable {T : Type u} {hold : T → Mode}

/-- No two threads hold the mutex against each other. -/
def Coherent (hold : T → Mode) : Prop :=
  ∀ t other, t ≠ other → (hold t).compatible (hold other) = true

/-- The mutex can be given to the thread in this mode. -/
def Grants (hold : T → Mode) (t : T) (mode : Mode) : Prop :=
  ∀ other, other ≠ t → mode.compatible (hold other) = true

instance [DecidableEq T] [Fintype T] (hold : T → Mode) (t : T) (mode : Mode) :
    Decidable (Grants hold t mode) :=
  inferInstanceAs (Decidable (∀ other, other ≠ t → mode.compatible (hold other) = true))

theorem coherent_free : Coherent fun _ : T => Mode.free :=
  fun _ _ _ => rfl

theorem Coherent.exclusive (h : Coherent hold) {t other : T} (ht : hold t = .exclusive)
    (hother : other ≠ t) : hold other = .free := by
  have hcompatible := h t other hother.symm
  rw [ht] at hcompatible
  exact Mode.eq_free_of_exclusive hcompatible

theorem Coherent.upgrade (h : Coherent hold) {t other : T} (ht : hold t = .upgrade)
    (hother : other ≠ t) : hold other = .free ∨ hold other = .shared := by
  have hcompatible := h t other hother.symm
  rw [ht] at hcompatible
  exact Mode.le_shared_of_upgrade hcompatible

/-- A mutex can always be held less strongly than it is. -/
theorem Coherent.grants (h : Coherent hold) {t : T} {mode : Mode}
    (hle : mode.strength ≤ (hold t).strength) : Grants hold t mode :=
  fun other hother => Mode.compatible_of_le hle (h t other hother.symm)

theorem Coherent.update [DecidableEq T] (h : Coherent hold) {t : T} {mode : Mode}
    (hgrants : Grants hold t mode) : Coherent (Function.update hold t mode) := by
  intro first second hne
  by_cases hfirst : first = t
  · subst hfirst
    rw [Function.update_self, Function.update_of_ne hne.symm]
    exact hgrants second hne.symm
  · rw [Function.update_of_ne hfirst]
    by_cases hsecond : second = t
    · subst hsecond
      rw [Function.update_self, Mode.compatible_comm]
      exact hgrants first hne
    · rw [Function.update_of_ne hsecond]
      exact h first second hne

end ThreadPools.Machines
