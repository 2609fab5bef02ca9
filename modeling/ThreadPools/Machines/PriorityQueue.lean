/-
# The priority queue as a machine

Elements are added in any order, and an element is removed only when no element of the queue
has a higher rank. Among elements of the same rank the choice is free.
-/

import Mathlib.Data.List.Sort
import Mathlib.Data.Multiset.AddSub
import ThreadPools.Concurrency.Refinement

namespace ThreadPools.Machines

open ThreadPools.Concurrency

universe u v

namespace PriorityQueue

inductive Event (X : Type u)
  | add (x : X)
  | remove (x : X)

variable {X : Type u} {P : Type v} [DecidableEq X] [LinearOrder P]

/-- `x` may be removed from a queue that holds `waiting`. -/
def Top (rank : X → P) (waiting : Multiset X) (x : X) : Prop :=
  x ∈ waiting ∧ ∀ y ∈ waiting, rank y ≤ rank x

instance (rank : X → P) (waiting : Multiset X) (x : X) : Decidable (Top rank waiting x) :=
  inferInstanceAs (Decidable (_ ∧ _))

/-- The machine; its state are the elements that wait. -/
def step (rank : X → P) (waiting : Multiset X) : Event X → Option (Multiset X)
  | .add x => some (x ::ₘ waiting)
  | .remove x => if Top rank waiting x then some (waiting.erase x) else none

/-- The elements that a history adds. -/
def added : List (Event X) → List X
  | [] => []
  | .add x :: events => x :: added events
  | .remove _ :: events => added events

/-- The elements that a history removes, in this order. -/
def removed : List (Event X) → List X
  | [] => []
  | .add _ :: events => removed events
  | .remove x :: events => x :: removed events

omit [DecidableEq X] in
@[simp] theorem removed_append (events later : List (Event X)) :
    removed (events ++ later) = removed events ++ removed later := by
  induction events with
  | nil => rfl
  | cons event events ih => cases event <;> simp [removed, ih]

variable {rank : X → P} {source target : Multiset X} {events : List (Event X)}

theorem step_remove {x : X} {next : Multiset X}
    (h : step rank source (.remove x) = some next) :
    Top rank source x ∧ next = source.erase x := by
  obtain ⟨htop, ⟨⟩⟩ := Option.ite_none_right_eq_some.mp h
  exact ⟨htop, rfl⟩

/-- Nothing is lost and nothing is made: what was there or has been added is removed, once,
or waits. -/
theorem balance (h : Traces (step rank) source events target) :
    source + (added events : Multiset X) = (removed events : Multiset X) + target := by
  induction events generalizing source with
  | nil =>
      cases h
      simp [added, removed]
  | cons event events ih =>
      obtain ⟨middle, htaken, hrest⟩ := Traces.cons_iff.mp h
      have hsum := ih hrest
      cases event with
      | add x =>
          cases htaken
          simpa [added, removed, Multiset.cons_add, Multiset.add_cons, ← Multiset.cons_coe]
            using hsum
      | remove x =>
          obtain ⟨htop, rfl⟩ := step_remove htaken
          have hsource := Multiset.cons_erase htop.1
          simp only [added, removed, ← Multiset.cons_coe, Multiset.cons_add, ← hsum]
          rw [← Multiset.cons_add, hsource]

/-- Nobody is overtaken by an element of a lower rank: whatever has been added and not yet
removed does not outrank the element that is removed next. -/
theorem removed_top {x : X} {later : List (Event X)}
    (h : Traces (step rank) 0 (events ++ .remove x :: later) target) {y : X}
    (hwaits : (removed events).count y < (added events).count y) : rank y ≤ rank x := by
  obtain ⟨middle, hfront, hback⟩ := Traces.append_iff.mp h
  obtain ⟨next, htaken, -⟩ := Traces.cons_iff.mp hback
  have hsum := congrArg (Multiset.count y) (balance hfront)
  simp only [Multiset.zero_add, Multiset.count_add, Multiset.coe_count] at hsum
  exact (step_remove htaken).1.2 y (Multiset.count_pos.mp (by omega))

/-- While nothing is added, the ranks of the removed elements do not grow. -/
theorem removed_sorted (h : Traces (step rank) source events target)
    (hadded : added events = []) :
    (removed events).Pairwise (fun x y => rank y ≤ rank x) ∧
      ∀ x ∈ removed events, x ∈ source := by
  induction events generalizing source with
  | nil => exact ⟨.nil, by simp [removed]⟩
  | cons event events ih =>
      obtain ⟨middle, htaken, hrest⟩ := Traces.cons_iff.mp h
      cases event with
      | add x => cases hadded
      | remove x =>
          obtain ⟨htop, rfl⟩ := step_remove htaken
          obtain ⟨hsorted, hmem⟩ := ih hrest hadded
          have hsource : ∀ y ∈ removed events, y ∈ source := fun y hy =>
            Multiset.mem_of_mem_erase (hmem y hy)
          refine ⟨List.pairwise_cons.mpr ⟨fun y hy => htop.2 y (hsource y hy), hsorted⟩, ?_⟩
          intro y hy
          rcases List.mem_cons.mp hy with rfl | hy
          · exact htop.1
          · exact hsource y hy

end PriorityQueue

end ThreadPools.Machines
