/-
# Cycles of blocked threads

A thread is blocked by another one when it wants to enter a monitor the other
one is inside of, or joins it before it has ended. Threads asleep on a
condition are not blocked in this sense. When every edge from a thread to its
blocker carries a label, and the labels grow along every path, there are no
cycles; a global lock order with the joins placed in it gives such labels.
-/

import Mathlib.Logic.Relation
import ThreadPools.Concurrency.Program

namespace ThreadPools.Concurrency

/-- A relation whose edges carry labels that grow along every path has no cycle. -/
theorem not_transGen_self_of_labels {α : Type*} (edge : Nat → α → α → Prop)
    (hgrows : ∀ {label later first second third}, edge label first second →
      edge later second third → label < later) (element : α) :
    ¬ Relation.TransGen (fun first second => ∃ label, edge label first second)
      element element := by
  -- the label of the first edge is at most the one of the last
  have hpath : ∀ {first last},
      Relation.TransGen (fun first second => ∃ label, edge label first second) first last →
      ∃ second before label later, edge label first second ∧ edge later before last ∧
        label ≤ later := by
    intro first last hpath
    induction hpath with
    | single hedge =>
        obtain ⟨label, hedge⟩ := hedge
        exact ⟨_, _, label, label, hedge, hedge, Nat.le_refl _⟩
    | tail _ hnext ih =>
        obtain ⟨second, before, label, later, hfirst, hlast, hle⟩ := ih
        obtain ⟨beyond, hnext⟩ := hnext
        exact ⟨second, _, label, beyond, hfirst, hnext,
          Nat.le_of_lt (Nat.lt_of_le_of_lt hle (hgrows hlast hnext))⟩
  intro hcycle
  obtain ⟨second, before, label, later, hfirst, hlast, hle⟩ := hpath hcycle
  exact Nat.lt_irrefl _ (Nat.lt_of_le_of_lt hle (hgrows hlast hfirst))

namespace Program

variable {T M D E P I : Type*} (π : Program T M D E P I)

/-- `thread` is about to enter the monitor `m`. -/
def Requests (state : State T M D P) (thread : T) (m : M) : Prop :=
  ∃ input instr, π.code thread input (state.pc thread) state.data = some instr ∧
    instr.op = .lock m ∧ thread ∉ (state.monitor m).waiters

/-- `thread` is about to join `other`. -/
def Joins (state : State T M D P) (thread other : T) : Prop :=
  ∃ input instr, π.code thread input (state.pc thread) state.data = some instr ∧
    instr.op = .join other

/-- `thread` cannot go on before `blocker` has moved. -/
def BlockedBy (state : State T M D P) (thread blocker : T) : Prop :=
  (∃ m, π.Requests state thread m ∧ (state.monitor m).owner = some blocker ∧
    blocker ≠ thread) ∨
  (π.Joins state thread blocker ∧ π.exited (state.pc blocker) = false)

/-- A cycle of threads each of which is blocked by the next one. -/
def Deadlocked (state : State T M D P) : Prop :=
  ∃ thread, Relation.TransGen (π.BlockedBy state) thread thread

/-- The next operation of `thread` raises the exception for recursive locking. -/
def AboutToRaise (state : State T M D P) (thread : T) : Prop :=
  ∃ m, π.Requests state thread m ∧ (state.monitor m).owner = some thread

end Program

end ThreadPools.Concurrency
