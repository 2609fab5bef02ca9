/-
# Where the closures are

A closure is queued, executed or ready, and only one of these. It is submitted and executed
once, and the executions on a stack lie in the order in which they began.
-/

import Mathlib.Data.List.Nodup
import ThreadPools.QuickSort.Closures

namespace ThreadPools.QuickSort

variable {T α : Type*}

/-- The executions of a thread, without their points. -/
def State.labels (state : State T α) (t : T) : List (Option (Task α) × Nat) :=
  (state.stack t).map fun e => (e.task, e.stamp)

/-- A closure is queued, executed or ready, and only one of these; the executions of a thread
began in the order in which they lie on its stack. -/
structure Ledger (main : T) (state : State T α) : Prop where
  descending : ∀ t, (state.labels t).Pairwise fun label lower => lower.2 < label.2
  begun : ∀ t, ∀ label ∈ state.labels t, label.2 < state.begun
  once : ∀ t other task first second, (task, first) ∈ state.labels t →
    (task, second) ∈ state.labels other → t = other ∧ first = second
  executed : ∀ t w stamp, (some w, stamp) ∈ state.labels t →
    w ∉ state.queue ∧ state.ready w = none ∧ w.number < state.submitted
  queued : state.queue.Nodup
  waiting : ∀ w ∈ state.queue, state.ready w = none ∧ w.number < state.submitted
  answered : ∀ w, state.ready w ≠ none → w.number < state.submitted
  sorting : ∀ t stamp, (none, stamp) ∈ state.labels t → state.result = none
  caller : state.result = none → ∃ stamp, (none, stamp) ∈ state.labels main

section

variable {main : T} {state after : State T α} {t : T} {e : Execution α}
  {below : List (Execution α)}

theorem State.mem_labels (he : e ∈ state.stack t) : (e.task, e.stamp) ∈ state.labels t :=
  List.mem_map_of_mem he

theorem State.labels_stack (hstack : state.stack t = e :: below) :
    state.labels t = (e.task, e.stamp) :: below.map fun e => (e.task, e.stamp) := by
  rw [State.labels, hstack, List.map_cons]

variable [DecidableEq T]

theorem State.labels_update (new : List (Execution α))
    (hafter : after.stack = Function.update state.stack t new) :
    after.labels = Function.update state.labels t (new.map fun e => (e.task, e.stamp)) := by
  funext other
  unfold State.labels
  rw [hafter]
  by_cases hother : other = t
  · subst hother
    simp
  · simp [hother]

/-- An execution that goes on keeps its label. -/
theorem State.labels_same (hstack : state.stack t = e :: below) {new : Execution α}
    (hafter : after.stack = Function.update state.stack t (new :: below)) (hsame : e.Same new) :
    after.labels = state.labels := by
  rw [State.labels_update _ hafter, List.map_cons, ← hsame.1, ← hsame.2,
    ← State.labels_stack hstack, Function.update_eq_self]

theorem Ledger.splits (h : Ledger main state) (hstack : state.stack t = e :: below)
    (partitionVal : α) (lower higher : List α) :
    Ledger main (state.split t e below partitionVal lower higher) := by
  set after := state.split t e below partitionVal lower higher with hafter
  have hlabels : after.labels = state.labels := State.labels_same hstack rfl (.refl _)
  have hqueue : ∀ w ∈ after.queue, w ∈ state.queue ∨ w.number = state.submitted := by
    intro w hw
    refine (List.mem_append.mp hw).imp_right fun h => ?_
    obtain rfl := List.mem_singleton.mp h
    rfl
  have hnew : ∀ w : Task α, w.number = state.submitted → state.ready w = none := by
    intro w hw
    by_contra hready
    exact Nat.ne_of_lt (h.answered w hready) hw
  refine ⟨hlabels ▸ h.descending, hlabels ▸ h.begun, hlabels ▸ h.once, fun t w stamp hw => ?_, ?_,
    fun w hw => ?_, fun w hw => Nat.lt_succ_of_lt (h.answered w hw), hlabels ▸ h.sorting,
    hlabels ▸ h.caller⟩
  · rw [hlabels] at hw
    obtain ⟨hqueued, hready, hnumber⟩ := h.executed t w stamp hw
    refine ⟨fun hmem => ?_, hready, Nat.lt_succ_of_lt hnumber⟩
    exact (hqueue w hmem).elim hqueued (Nat.ne_of_lt hnumber)
  · refine List.nodup_append'.mpr ⟨h.queued, List.nodup_singleton _, fun w hw hmem => ?_⟩
    obtain rfl := List.mem_singleton.mp hmem
    exact Nat.ne_of_lt (h.waiting _ hw).2 rfl
  · rcases hqueue w hw with hw | hw
    · exact ⟨(h.waiting w hw).1, Nat.lt_succ_of_lt (h.waiting w hw).2⟩
    · exact ⟨hnew w hw, hw ▸ Nat.lt_succ_self _⟩

theorem Ledger.begins (h : Ledger main state) {choice : Nat} {task : Task α}
    (hqueue : state.queue[choice]? = some task) :
    Ledger main (state.begin t choice task) := by
  set after := state.begin t choice task with hafter
  obtain ⟨hchoice, rfl⟩ := List.getElem?_eq_some_iff.mp hqueue
  set task := state.queue[choice] with htask
  have hperm : (task :: after.queue).Perm state.queue := List.getElem_cons_eraseIdx_perm hchoice
  have hnodup : (task :: after.queue).Nodup := hperm.nodup_iff.mpr h.queued
  have hqueued : task ∈ state.queue := hperm.subset List.mem_cons_self
  have hsub : ∀ w ∈ after.queue, w ∈ state.queue :=
    fun w hw => hperm.subset (List.mem_cons_of_mem _ hw)
  have hlabels : after.labels =
      Function.update state.labels t ((some task, state.begun) :: state.labels t) :=
    State.labels_update (task.execution state.begun :: state.stack t) rfl
  have hmem : ∀ other label, label ∈ after.labels other →
      other = t ∧ label = (some task, state.begun) ∨ label ∈ state.labels other := by
    intro other label hlabel
    rw [hlabels] at hlabel
    by_cases hother : other = t
    · subst hother
      rw [Function.update_self] at hlabel
      exact (List.mem_cons.mp hlabel).imp_left fun h => ⟨rfl, h⟩
    · rw [Function.update_of_ne hother] at hlabel
      exact .inr hlabel
  refine ⟨fun other => ?_, fun other label hlabel => ?_,
    fun one other w first second hfirst hsecond => ?_, fun other w stamp hw => ?_,
    (List.nodup_cons.mp hnodup).2, fun w hw => h.waiting w (hsub w hw), h.answered,
    fun other stamp hlabel => ?_, fun hresult => ?_⟩
  · rw [hlabels]
    by_cases hother : other = t
    · subst hother
      rw [Function.update_self]
      exact List.pairwise_cons.mpr ⟨h.begun other, h.descending other⟩
    · rw [Function.update_of_ne hother]
      exact h.descending other
  · rcases hmem other label hlabel with ⟨-, rfl⟩ | hlabel
    · exact Nat.lt_succ_self _
    · exact Nat.lt_succ_of_lt (h.begun other label hlabel)
  · rcases hmem one _ hfirst with ⟨rfl, hnew⟩ | hprior <;>
      rcases hmem other _ hsecond with ⟨rfl, hnew'⟩ | hprior'
    · cases hnew
      cases hnew'
      exact ⟨rfl, rfl⟩
    · cases hnew
      exact absurd hqueued (h.executed _ _ _ hprior').1
    · cases hnew'
      exact absurd hqueued (h.executed _ _ _ hprior).1
    · exact h.once _ _ _ _ _ hprior hprior'
  · rcases hmem other _ hw with ⟨rfl, hnew⟩ | hw
    · cases hnew
      exact ⟨(List.nodup_cons.mp hnodup).1, h.waiting _ hqueued⟩
    · obtain ⟨hnot, hready⟩ := h.executed other w stamp hw
      exact ⟨fun hin => hnot (hsub w hin), hready⟩
  · rcases hmem other _ hlabel with ⟨-, hnew⟩ | hlabel
    · cases hnew
    · exact h.sorting other stamp hlabel
  · obtain ⟨stamp, hlabel⟩ := h.caller hresult
    refine ⟨stamp, ?_⟩
    rw [hlabels]
    by_cases hmain : main = t
    · subst hmain
      rw [Function.update_self]
      exact List.mem_cons_of_mem _ hlabel
    · rwa [Function.update_of_ne hmain]

/-- An execution that ends takes its label with it. -/
theorem Ledger.labels_ends (h : Ledger main state) (hstack : state.stack t = e :: below)
    (hafter : after.stack = Function.update state.stack t below) {other : T}
    {label : Option (Task α) × Nat} (hlabel : label ∈ after.labels other) :
    label ∈ state.labels other ∧ label.1 ≠ e.task := by
  have htop : (e.task, e.stamp) ∈ state.labels t :=
    State.mem_labels (hstack ▸ List.mem_cons_self)
  rw [State.labels_update _ hafter] at hlabel
  by_cases hother : other = t
  · subst hother
    rw [Function.update_self] at hlabel
    have hold : label ∈ state.labels other := by
      rw [State.labels_stack hstack]
      exact List.mem_cons_of_mem _ hlabel
    refine ⟨hold, fun htask => ?_⟩
    have hlower : label.2 < e.stamp := by
      have hdescending := h.descending other
      rw [State.labels_stack hstack] at hdescending
      exact (List.pairwise_cons.mp hdescending).1 label hlabel
    have hsame : (e.task, label.2) ∈ state.labels other := htask ▸ hold
    exact Nat.ne_of_lt hlower (h.once _ _ _ _ _ hsame htop).2
  · rw [Function.update_of_ne hother] at hlabel
    refine ⟨hlabel, fun htask => hother ?_⟩
    have hsame : (e.task, label.2) ∈ state.labels other := htask ▸ hlabel
    exact (h.once _ _ _ _ _ hsame htop).1

theorem Ledger.ends (h : Ledger main state) (hstack : state.stack t = e :: below)
    (hafter : after.stack = Function.update state.stack t below)
    (hqueue : after.queue = state.queue) (hbegun : after.begun = state.begun)
    (hsubmitted : after.submitted = state.submitted)
    (hready : ∀ w, after.ready w ≠ none → state.ready w ≠ none ∨ e.task = some w)
    (hresult : after.result = none ↔ state.result = none ∧ e.task ≠ none) :
    Ledger main after := by
  have htop : (e.task, e.stamp) ∈ state.labels t :=
    State.mem_labels (hstack ▸ List.mem_cons_self)
  refine ⟨fun other => ?_, fun other label hlabel => ?_,
    fun one other w first second hfirst hsecond => ?_, fun other w stamp hw => ?_,
    hqueue ▸ h.queued, fun w hw => ?_, fun w hw => ?_, fun other stamp hlabel => ?_,
    fun hnone => ?_⟩
  · rw [State.labels_update _ hafter]
    by_cases hother : other = t
    · subst hother
      have hdescending := h.descending other
      rw [State.labels_stack hstack] at hdescending
      rw [Function.update_self]
      exact (List.pairwise_cons.mp hdescending).2
    · rw [Function.update_of_ne hother]
      exact h.descending other
  · exact hbegun ▸ h.begun other label (h.labels_ends hstack hafter hlabel).1
  · exact h.once _ _ _ _ _ (h.labels_ends hstack hafter hfirst).1
      (h.labels_ends hstack hafter hsecond).1
  · obtain ⟨hold, hne⟩ := h.labels_ends hstack hafter hw
    obtain ⟨hqueued, hnone, hnumber⟩ := h.executed other w stamp hold
    refine ⟨hqueue ▸ hqueued, ?_, hsubmitted ▸ hnumber⟩
    by_contra hanswered
    exact (hready w hanswered).elim (fun h => h hnone) fun h => hne h.symm
  · obtain ⟨hnone, hnumber⟩ := h.waiting w (hqueue ▸ hw)
    refine ⟨?_, hsubmitted ▸ hnumber⟩
    by_contra hanswered
    refine (hready w hanswered).elim (fun h => h hnone) fun htask => ?_
    exact (h.executed t w e.stamp (htask ▸ htop)).1 (hqueue ▸ hw)
  · rw [hsubmitted]
    refine (hready w hw).elim (h.answered w) fun htask => ?_
    exact (h.executed t w e.stamp (htask ▸ htop)).2.2
  · obtain ⟨hold, hne⟩ := h.labels_ends hstack hafter hlabel
    exact hresult.mpr ⟨h.sorting other stamp hold, fun htask => hne htask.symm⟩
  · obtain ⟨hnone, htask⟩ := hresult.mp hnone
    obtain ⟨stamp, hlabel⟩ := h.caller hnone
    refine ⟨stamp, ?_⟩
    rw [State.labels_update _ hafter]
    by_cases hmain : main = t
    · subst hmain
      rw [State.labels_stack hstack] at hlabel
      rw [Function.update_self]
      exact (List.mem_cons.mp hlabel).resolve_left fun h => htask (congrArg Prod.fst h).symm
    · rwa [Function.update_of_ne hmain]

variable [DecidableEq α]

theorem Ledger.returns (h : Ledger main state) (hstack : state.stack t = e :: below)
    (value : List α) : Ledger main (state.returned t e below value) := by
  unfold State.returned
  split
  · next caller callers hcallers =>
      set resumed : Execution α :=
        { e with point := .join (caller.partitionVal :: value) caller.newLower, callers := callers }
          with hresumed
      set after : State T α :=
        { state with stack := Function.update state.stack t (resumed :: below) } with hafter
      have hlabels : after.labels = state.labels := State.labels_same hstack rfl (.refl _)
      exact ⟨hlabels ▸ h.descending, hlabels ▸ h.begun, hlabels ▸ h.once, hlabels ▸ h.executed,
        h.queued, h.waiting, h.answered, hlabels ▸ h.sorting, hlabels ▸ h.caller⟩
  · split
    · next task htask =>
        refine h.ends hstack rfl rfl rfl rfl (fun w hw => ?_) ?_
        · by_cases hsame : w = task
          · exact .inr (hsame ▸ htask)
          · refine .inl ?_
            have hw : Function.update state.ready task (some value) w ≠ none := hw
            rwa [Function.update_of_ne hsame] at hw
        · simp [htask]
    · next htask =>
        refine h.ends hstack rfl rfl rfl rfl (fun w hw => .inl hw) ?_
        simp [htask]

end

end ThreadPools.QuickSort
