/-
# The list is sorted

An execution is a chain of activations, each of which makes of the sorted higher part the
sorted whole: the lower part in front, the partition value and the higher part. The elements
need an order in which any two can be compared; equivalent elements may be different.
-/

import Mathlib.Data.List.Perm.Basic
import Mathlib.Data.Nat.Basic
import Mathlib.Order.Defs.Unbundled
import ThreadPools.QuickSort.Program

namespace ThreadPools.QuickSort

open ThreadPools.Concurrency

variable {T α : Type*} [Preorder α]

/-- `value` has the elements of `chunk` in their order. -/
def Sorts (chunk value : List α) : Prop := value.Perm chunk ∧ value.Pairwise (· ≤ ·)

/-- When the innermost activation sorts `chunk`, the outermost one sorts `target`. -/
def Completes : List (Caller α) → List α → List α → Prop
  | [], chunk, target => chunk.Perm target
  | caller :: callers, chunk, target =>
      (∀ x ∈ caller.newLower.chunkData, x ≤ caller.partitionVal) ∧
        (∀ y ∈ chunk, caller.partitionVal ≤ y) ∧
        ∃ whole, Completes callers whole target ∧
          whole.Perm (caller.newLower.chunkData ++ caller.partitionVal :: chunk)

/-- An execution is on the way to sort `target`. -/
def Execution.Sound (e : Execution α) (target : List α) : Prop :=
  match e.point with
  | .enter chunkData => Completes e.callers chunkData target
  | .join result newLower =>
      result.Pairwise (· ≤ ·) ∧ (∀ x ∈ newLower.chunkData, ∀ y ∈ result, x ≤ y) ∧
        ∃ whole, Completes e.callers whole target ∧ whole.Perm (newLower.chunkData ++ result)

/-- What an execution has to sort. -/
def Execution.target (input : List α) (e : Execution α) : List α :=
  e.task.elim input Task.chunkData

/-- Every value is sorted, or going to be. -/
structure Sound (input : List α) (state : State T α) : Prop where
  executions : ∀ t, ∀ e ∈ state.stack t, e.Sound (e.target input)
  ready : ∀ task value, state.ready task = some value → Sorts task.chunkData value
  result : ∀ value, state.result = some value → Sorts input value

variable {input : List α} {state after : State T α} {t : T} {e : Execution α}
  {below : List (Execution α)}

/-- The value which an activation returns is its sorted list. -/
theorem Sound.returns (h : Sound input state) (he : e ∈ state.stack t) {value : List α}
    (hvalue : state.Returns e value) :
    ∃ whole, Completes e.callers whole (e.target input) ∧ Sorts whole value := by
  have hsound := h.executions t e he
  unfold Execution.Sound at hsound
  rcases hvalue with ⟨hpoint, rfl⟩ | ⟨result, newLower, lower, hpoint, hready, rfl⟩
  · rw [hpoint] at hsound
    exact ⟨[], hsound, .refl _, .nil⟩
  · rw [hpoint] at hsound
    obtain ⟨hresult, hle, whole, hcompletes, hperm⟩ := hsound
    obtain ⟨hlower, hsorted⟩ := h.ready newLower lower hready
    refine ⟨whole, hcompletes, (hlower.append_right result).trans hperm.symm, ?_⟩
    exact List.pairwise_append.mpr
      ⟨hsorted, hresult, fun x hx y hy => hle x (hlower.mem_iff.mp hx) y hy⟩

/-- The caller goes on with the sorted higher part. -/
theorem Completes.resume {caller : Caller α} {callers : List (Caller α)}
    {chunk target value : List α} (h : Completes (caller :: callers) chunk target)
    (hvalue : Sorts chunk value) :
    (caller.partitionVal :: value).Pairwise (· ≤ ·) ∧
      (∀ x ∈ caller.newLower.chunkData, ∀ y ∈ caller.partitionVal :: value, x ≤ y) ∧
      ∃ whole, Completes callers whole target ∧
        whole.Perm (caller.newLower.chunkData ++ caller.partitionVal :: value) := by
  obtain ⟨hlower, hhigher, whole, hcompletes, hperm⟩ := h
  have hle : ∀ y ∈ value, caller.partitionVal ≤ y := fun y hy =>
    hhigher y (hvalue.1.mem_iff.mp hy)
  refine ⟨List.pairwise_cons.mpr ⟨hle, hvalue.2⟩, fun x hx y hy => ?_, whole, hcompletes,
    hperm.trans ((hvalue.1.symm.cons _).append_left _)⟩
  rcases List.mem_cons.mp hy with rfl | hy
  · exact hlower x hx
  · exact le_trans (hlower x hx) (hle y hy)

variable [DecidableEq T] [DecidableEq α]

theorem Sound.step_returns (h : Sound input state) (hstack : state.stack t = e :: below)
    {value : List α} (hvalue : state.Returns e value) :
    Sound input (state.returned t e below value) := by
  obtain ⟨whole, hcompletes, hsorts⟩ := h.returns (hstack ▸ List.mem_cons_self) hvalue
  have hbelow : ∀ other, ∀ e ∈ Function.update state.stack t below other,
      e.Sound (e.target input) := by
    intro other e he
    refine h.executions other e ?_
    by_cases hother : other = t
    · subst hother
      rw [Function.update_self] at he
      exact hstack ▸ List.mem_cons_of_mem _ he
    · rwa [Function.update_of_ne hother] at he
  unfold State.returned
  split
  · next caller callers hcallers =>
      refine ⟨fun other e' he' => ?_, h.ready, h.result⟩
      by_cases hother : other = t
      · subst hother
        simp only [Function.update_self, List.mem_cons] at he'
        rcases he' with rfl | he'
        · rw [hcallers] at hcompletes
          exact hcompletes.resume hsorts
        · exact h.executions other e' (hstack ▸ List.mem_cons_of_mem _ he')
      · simp only [Function.update_of_ne hother] at he'
        exact h.executions other e' he'
  · next hcallers =>
      rw [hcallers] at hcompletes
      have hsorts : Sorts (e.target input) value := ⟨hsorts.1.trans hcompletes, hsorts.2⟩
      split
      · next task htask =>
          refine ⟨hbelow, fun other value' hready => ?_, h.result⟩
          by_cases hother : other = task
          · subst hother
            simp only [Function.update_self, Option.some.injEq] at hready
            subst hready
            rwa [Execution.target, htask] at hsorts
          · simp only [Function.update_of_ne hother] at hready
            exact h.ready other value' hready
      · next htask =>
          refine ⟨hbelow, h.ready, fun value' hresult => ?_⟩
          cases hresult
          rwa [Execution.target, htask] at hsorts

omit [DecidableEq α] in
theorem Sound.step_begins (h : Sound input state) (choice : Nat) (task : Task α) :
    Sound input (state.begin t choice task) := by
  refine ⟨fun other e he => ?_, h.ready, h.result⟩
  by_cases hother : other = t
  · subst hother
    simp only [State.begin, Function.update_self, List.mem_cons] at he
    rcases he with rfl | he
    · exact .refl _
    · exact h.executions other e he
  · simp only [State.begin, Function.update_of_ne hother] at he
    exact h.executions other e he

variable [DecidableLT α]

omit [DecidableEq α] in
theorem Sound.step_splits [Std.Total (α := α) (· ≤ ·)] (h : Sound input state)
    (hstack : state.stack t = e :: below) {partitionVal : α} {rest arranged : List α}
    (hpoint : e.point = .enter (partitionVal :: rest)) (hperm : arranged.Perm rest) :
    Sound input (state.split t e below partitionVal
      (arranged.filter fun val => val < partitionVal)
      (arranged.filter fun val => ¬ val < partitionVal)) := by
  have hsound := h.executions t e (hstack ▸ List.mem_cons_self)
  unfold Execution.Sound at hsound
  rw [hpoint] at hsound
  refine ⟨fun other e' he' => ?_, h.ready, h.result⟩
  by_cases hother : other = t
  · subst hother
    simp only [State.split, Function.update_self, List.mem_cons] at he'
    rcases he' with rfl | he'
    · refine ⟨fun x hx => ?_, fun y hy => ?_, _, hsound, ?_⟩
      · exact le_of_lt (of_decide_eq_true (List.mem_filter.mp hx).2)
      · have hnot : ¬ y < partitionVal := of_decide_eq_true (List.mem_filter.mp hy).2
        rcases total_of (· ≤ ·) partitionVal y with hle | hge
        · exact hle
        · exact not_not.mp fun hle => hnot (lt_of_le_not_ge hge hle)
      · have hparts : (arranged.filter (fun val => val < partitionVal) ++
            arranged.filter fun val => ¬ val < partitionVal).Perm arranged := by
          have hnot : (fun val => decide (¬ val < partitionVal)) =
              fun val => !decide (val < partitionVal) := by
            funext val
            exact decide_not
          rw [hnot]
          exact List.filter_append_perm _ arranged
        exact ((hparts.trans hperm).symm.cons partitionVal).trans List.perm_middle.symm
    · exact h.executions other e' (hstack ▸ List.mem_cons_of_mem _ he')
  · simp only [State.split, Function.update_of_ne hother] at he'
    exact h.executions other e' he'

omit [DecidableEq α] [DecidableLT α] in
theorem sound_initial (main : T) (input : List α) :
    Sound input (parallelQuickSort main input) := by
  unfold parallelQuickSort
  split
  · next hempty =>
      refine ⟨nofun, nofun, fun value hvalue => ?_⟩
      cases hvalue
      rw [List.isEmpty_iff.mp hempty]
      exact ⟨.refl _, .nil⟩
  · refine ⟨fun t e he => ?_, nofun, nofun⟩
    by_cases ht : t = main
    · subst ht
      simp only [Function.update_self, List.mem_singleton] at he
      subst he
      exact .refl _
    · simp only [Function.update_of_ne ht] at he
      cases he

theorem sound_of_reaches [Std.Total (α := α) (· ≤ ·)] {main : T}
    {guard : State T α → Action T α → Prop}
    (hrun : Reaches (step main) guard (parallelQuickSort main input) state) :
    Sound input state := by
  refine hrun.invariant (sound_initial main input) fun _ _ _ h _ hstep => ?_
  cases step_cases hstep with
  | splits t e below partitionVal rest arranged hstack hpoint hperm =>
      exact h.step_splits hstack hpoint hperm
  | returns t e below value hstack hvalue => exact h.step_returns hstack hvalue
  | begins t choice task => exact h.step_begins choice task

/-- What `parallel_quick_sort` returns is the sorted input, whichever threads execute the
closures and however the elements are arranged within the parts. -/
theorem returns_sorted [Std.Total (α := α) (· ≤ ·)] {main : T}
    {guard : State T α → Action T α → Prop}
    (hrun : Reaches (step main) guard (parallelQuickSort main input) state) {value : List α}
    (hresult : state.result = some value) : value.Perm input ∧ value.Pairwise (· ≤ ·) :=
  (sound_of_reaches hrun).result value hresult

/-- Two threads sort; each of them executes a closure while it waits for another one. -/
theorem returns_sorted_three : ∃ state : State (Fin 2) Nat,
    Reaches (step 0) (fun _ _ => True) (parallelQuickSort 0 [2, 0, 1]) state ∧
      state.result = some [0, 1, 2] ∧
      [0, 1, 2].Perm [2, 0, 1] ∧ [0, 1, 2].Pairwise (· ≤ ·) := by
  obtain ⟨state, hrun, hresult⟩ : ∃ state : State (Fin 2) Nat,
      Reaches (step 0) (fun _ _ => True) (parallelQuickSort 0 [2, 0, 1]) state ∧
        state.result = some [0, 1, 2] :=
    Reaches.of_observed (fun _ _ => true)
      [.go 0 [1, 0], .scheduleOne 1 0, .go 0 [], .go 1 [0], .go 1 [], .scheduleOne 0 0, .go 0 [],
        .go 0 [], .scheduleOne 1 0, .go 1 [], .go 0 [], .go 1 [], .go 0 []]
      (fun _ _ _ => trivial) (by decide +kernel)
  exact ⟨state, hrun, hresult, returns_sorted hrun hresult⟩

end ThreadPools.QuickSort
