/-
# What a step means for the closures

Seen from the closures a step is one of three: an execution goes on, an execution ends and its
future is ready, or an execution begins. `Change` says what this means for the executions and
for the closures they wait for.
-/

import Mathlib.Data.List.Perm.Basic
import ThreadPools.QuickSort.Program

namespace ThreadPools.QuickSort

open ThreadPools.Concurrency

variable {T α : Type*}

/-- The closures for whose futures the activations of an execution wait, or will wait. -/
def Execution.awaits (e : Execution α) : List (Task α) :=
  (match e.point with
    | .enter _ => []
    | .join _ newLower => [newLower]) ++ e.callers.map Caller.newLower

def State.Executing (state : State T α) (e : Execution α) : Prop := ∃ t, e ∈ state.stack t

/-- The same execution at another point. -/
def Execution.Same (e other : Execution α) : Prop :=
  e.task = other.task ∧ e.stamp = other.stamp

/-- What a step means for the executions and for the closures they wait for. -/
structure Change (state after : State T α) : Prop where
  ready : ∀ w, (state.ready w).isSome → (after.ready w).isSome
  begun : state.begun ≤ after.begun
  /-- an execution goes on, or its closure becomes ready -/
  forth : ∀ e, state.Executing e →
    (∃ e', after.Executing e' ∧ e.Same e' ∧
      ∀ w ∈ e.awaits, w ∈ e'.awaits ∨ (state.ready w).isSome) ∨
    (∀ w ∈ e.awaits, (state.ready w).isSome) ∧ ∀ w, e.task = some w → (after.ready w).isSome
  /-- an execution went on, or has just begun -/
  back : ∀ e', after.Executing e' →
    (∃ e, state.Executing e ∧ e.Same e' ∧ ∀ w ∈ e'.awaits, w ∈ e.awaits ∨ w ∈ after.queue) ∨
    e'.awaits = [] ∧ e'.stamp = state.begun ∧ ∃ w ∈ state.queue, e'.task = some w
  taken : ∀ w ∈ state.queue, w ∈ after.queue ∨
    ∃ e', after.Executing e' ∧ e'.task = some w ∧ e'.stamp = state.begun
  passed : ∀ w ∈ after.queue, w ∈ state.queue ∨ ∃ e', after.Executing e' ∧ w ∈ e'.awaits

section

variable {state after : State T α} {t : T} {e : Execution α} {below : List (Execution α)}

theorem Execution.Same.refl (e : Execution α) : e.Same e := ⟨rfl, rfl⟩

theorem State.executing_top (hstack : state.stack t = e :: below) : state.Executing e :=
  ⟨t, hstack ▸ List.mem_cons_self⟩

theorem Execution.awaits_enter {chunkData : List α} (h : e.point = .enter chunkData) :
    e.awaits = e.callers.map Caller.newLower := by
  simp [Execution.awaits, h]

theorem Execution.awaits_join {result : List α} {newLower : Task α}
    (h : e.point = .join result newLower) :
    e.awaits = newLower :: e.callers.map Caller.newLower := by
  simp [Execution.awaits, h]

/-- When an activation returns, only the activations around it still wait. -/
theorem State.Returns.awaits {value : List α} (h : state.Returns e value) {w : Task α}
    (hw : w ∈ e.awaits) :
    w ∈ e.callers.map Caller.newLower ∨ (state.ready w).isSome := by
  rcases h with ⟨hpoint, -⟩ | ⟨result, newLower, lower, hpoint, hready, -⟩
  · exact .inl (e.awaits_enter hpoint ▸ hw)
  · rw [e.awaits_join hpoint, List.mem_cons] at hw
    rcases hw with rfl | hw
    · exact .inr (Option.isSome_of_eq_some hready)
    · exact .inl hw

variable [DecidableEq T]

theorem mem_update {stack : T → List (Execution α)} {new : List (Execution α)} {other : T}
    {e : Execution α} : e ∈ Function.update stack t new other ↔
      other = t ∧ e ∈ new ∨ other ≠ t ∧ e ∈ stack other := by
  by_cases hother : other = t
  · subst hother
    simp
  · simp [hother]

/-- The execution on top of a stack is replaced by `new`. -/
theorem State.executing_replace (hstack : state.stack t = e :: below)
    (new : List (Execution α)) (hafter : after.stack = Function.update state.stack t (new ++ below))
    (e' : Execution α) :
    (after.Executing e' → e' ∈ new ∨ state.Executing e') ∧
      (state.Executing e' → e' = e ∨ after.Executing e') := by
  constructor
  · rintro ⟨other, he'⟩
    rw [hafter] at he'
    rcases mem_update.mp he' with ⟨rfl, hmem⟩ | ⟨-, hmem⟩
    · exact (List.mem_append.mp hmem).imp_right fun h => ⟨_, hstack ▸ List.mem_cons_of_mem _ h⟩
    · exact .inr ⟨other, hmem⟩
  · rintro ⟨other, he'⟩
    by_cases hother : other = t
    · subst hother
      rw [hstack] at he'
      refine (List.mem_cons.mp he').imp_right fun h => ⟨other, hafter ▸ ?_⟩
      exact mem_update.mpr (.inl ⟨rfl, List.mem_append_right _ h⟩)
    · exact .inr ⟨other, hafter ▸ mem_update.mpr (.inr ⟨hother, he'⟩)⟩

/-- An execution goes on. -/
theorem Change.replaces (hstack : state.stack t = e :: below) {new : Execution α}
    (hafter : after.stack = Function.update state.stack t (new :: below))
    (hready : after.ready = state.ready) (hbegun : after.begun = state.begun) (hsame : e.Same new)
    (hforth : ∀ w ∈ e.awaits, w ∈ new.awaits ∨ (state.ready w).isSome)
    (hback : ∀ w ∈ new.awaits, w ∈ e.awaits ∨ w ∈ after.queue)
    (htaken : ∀ w ∈ state.queue, w ∈ after.queue)
    (hpassed : ∀ w ∈ after.queue, w ∈ state.queue ∨ w ∈ new.awaits) : Change state after := by
  have hreplace := State.executing_replace hstack [new] hafter
  have htop : after.Executing new := ⟨t, hafter ▸ mem_update.mpr (.inl ⟨rfl, by simp⟩)⟩
  refine ⟨fun _ h => hready ▸ h, Nat.le_of_eq hbegun.symm, fun e' he' => .inl ?_,
    fun e' he' => .inl ?_, fun w hw => .inl (htaken w hw), fun w hw => ?_⟩
  · rcases (hreplace e').2 he' with rfl | he'
    · exact ⟨new, htop, hsame, hforth⟩
    · exact ⟨e', he', .refl _, fun w hw => .inl hw⟩
  · rcases (hreplace e').1 he' with he' | he'
    · obtain rfl := List.mem_singleton.mp he'
      exact ⟨e, State.executing_top hstack, hsame, hback⟩
    · exact ⟨e', he', .refl _, fun w hw => .inl hw⟩
  · exact (hpassed w hw).imp_right fun h => ⟨new, htop, h⟩

/-- An execution ends, and its future is ready. -/
theorem Change.ends (hstack : state.stack t = e :: below)
    (hafter : after.stack = Function.update state.stack t below)
    (hqueue : after.queue = state.queue) (hbegun : after.begun = state.begun)
    (hmono : ∀ w, (state.ready w).isSome → (after.ready w).isSome)
    (hready : ∀ w ∈ e.awaits, (state.ready w).isSome)
    (htask : ∀ w, e.task = some w → (after.ready w).isSome) : Change state after := by
  have hreplace := State.executing_replace hstack [] hafter
  refine ⟨hmono, Nat.le_of_eq hbegun.symm, fun e' he' => ?_, fun e' he' => .inl ?_,
    fun w hw => .inl (hqueue ▸ hw), fun w hw => .inl (hqueue ▸ hw)⟩
  · rcases (hreplace e').2 he' with rfl | he'
    · exact .inr ⟨hready, htask⟩
    · exact .inl ⟨e', he', .refl _, fun w hw => .inl hw⟩
  · exact ⟨e', ((hreplace e').1 he').resolve_left (List.not_mem_nil), .refl _,
      fun w hw => .inl hw⟩

theorem Change.splits (hstack : state.stack t = e :: below) {chunkData : List α}
    (hpoint : e.point = .enter chunkData) (partitionVal : α) (lower higher : List α) :
    Change state (state.split t e below partitionVal lower higher) := by
  have hold : e.awaits = e.callers.map Caller.newLower := e.awaits_enter hpoint
  refine .replaces hstack rfl rfl rfl (.refl _) (fun w hw => .inl ?_) (fun w hw => ?_)
    (fun w hw => List.mem_append_left _ hw) (fun w hw => ?_)
  · exact List.mem_cons_of_mem _ (hold ▸ hw)
  · rcases List.mem_cons.mp hw with rfl | hw
    · exact .inr (List.mem_append_right _ List.mem_cons_self)
    · exact .inl (hold ▸ hw)
  · refine (List.mem_append.mp hw).imp_right fun h => ?_
    obtain rfl := List.mem_singleton.mp h
    exact List.mem_cons_self

theorem Change.begins {choice : Nat} {task : Task α} (hqueue : state.queue[choice]? = some task) :
    Change state (state.begin t choice task) := by
  set execution := task.execution state.begun with hexecution
  set after := state.begin t choice task with hafter
  have htop : after.Executing execution := ⟨t, mem_update.mpr (.inl ⟨rfl, List.mem_cons_self⟩)⟩
  obtain ⟨hchoice, rfl⟩ := List.getElem?_eq_some_iff.mp hqueue
  have hperm : (state.queue[choice] :: after.queue).Perm state.queue :=
    List.getElem_cons_eraseIdx_perm hchoice
  refine ⟨fun _ h => h, Nat.le_succ _, fun e' he' => .inl ?_, fun e' he' => ?_, fun w hw => ?_,
    fun w hw => .inl (hperm.subset (List.mem_cons_of_mem _ hw))⟩
  · obtain ⟨other, he'⟩ := he'
    refine ⟨e', ⟨other, mem_update.mpr ?_⟩, .refl _, fun w hw => .inl hw⟩
    by_cases hother : other = t
    · subst hother
      exact .inl ⟨rfl, List.mem_cons_of_mem _ he'⟩
    · exact .inr ⟨hother, he'⟩
  · obtain ⟨other, he'⟩ := he'
    have hfrom : e' = execution ∨ state.Executing e' := by
      rcases mem_update.mp he' with ⟨rfl, hmem⟩ | ⟨-, hmem⟩
      · exact (List.mem_cons.mp hmem).imp_right fun h => ⟨_, h⟩
      · exact .inr ⟨other, hmem⟩
    rcases hfrom with rfl | he'
    · exact .inr ⟨rfl, rfl, _, hperm.subset List.mem_cons_self, rfl⟩
    · exact .inl ⟨e', he', .refl _, fun w hw => .inl hw⟩
  · rcases List.mem_cons.mp (hperm.mem_iff.mpr hw) with rfl | hw
    · exact .inr ⟨execution, htop, rfl, rfl⟩
    · exact .inl hw

variable [DecidableEq α]

theorem Change.returns (hstack : state.stack t = e :: below) {value : List α}
    (hvalue : state.Returns e value) : Change state (state.returned t e below value) := by
  unfold State.returned
  split
  · next caller callers hcallers =>
      have hawaits : e.callers.map Caller.newLower =
          caller.newLower :: callers.map Caller.newLower := by
        rw [hcallers]
        rfl
      refine .replaces hstack rfl rfl rfl (.refl _) (fun w hw => ?_) (fun w hw => .inl ?_)
        (fun w hw => hw) (fun w hw => .inl hw)
      · refine (hvalue.awaits hw).imp_left fun h => ?_
        rw [hawaits] at h
        exact h
      · exact List.mem_append_right _ (hawaits ▸ hw)
  · next hcallers =>
      have hready : ∀ w ∈ e.awaits, (state.ready w).isSome := by
        intro w hw
        refine (hvalue.awaits hw).resolve_left ?_
        simp [hcallers]
      split
      · next task htask =>
          refine .ends hstack rfl rfl rfl (fun w hw => ?_) hready fun w hw => ?_
          · show (Function.update state.ready task (some value) w).isSome
            by_cases h : w = task
            · simp [h]
            · rwa [Function.update_of_ne h]
          · obtain rfl := Option.some.inj (htask.symm.trans hw)
            simp
      · next htask =>
          refine .ends hstack rfl rfl rfl (fun _ h => h) hready fun w hw => ?_
          simp [htask] at hw

variable [Preorder α] [DecidableLT α]

theorem change_of_step {main : T} {action : Action T α}
    (h : step main state action = some after) : Change state after := by
  cases step_cases h with
  | splits t e below partitionVal rest arranged hstack hpoint =>
      exact .splits hstack hpoint partitionVal _ _
  | returns t e below value hstack hvalue => exact .returns hstack hvalue
  | begins t choice task _ hqueue => exact .begins hqueue

end

end ThreadPools.QuickSort
