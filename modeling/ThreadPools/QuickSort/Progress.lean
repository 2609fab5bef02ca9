/-
# The sort ends

An execution may wait for a closure that lies below it on another stack, or even for one which
an execution on top of it has to reach first. What rules out a circle is the order in which
the executions began: a closure begins after the execution that waits for it. The work that is
left is known exactly, so the sort ends after a number of steps that the schedule does not
change, and nothing is left behind.
-/

import Mathlib.Algebra.BigOperators.Group.Finset.Basic
import Mathlib.Algebra.BigOperators.Group.List.Basic
import Mathlib.Algebra.GroupWithZero.Nat
import Mathlib.Data.Fintype.Basic
import ThreadPools.QuickSort.Ledger

namespace ThreadPools.QuickSort

open ThreadPools.Concurrency

variable {T α : Type*}

/-! ## Who waits for whom -/

/-- An execution waits only for closures that begin later, and every closure is waited for. -/
structure Waits (state : State T α) : Prop where
  covered : ∀ e, state.Executing e → ∀ w ∈ e.awaits,
    w ∈ state.queue ∨ (state.ready w).isSome ∨
      ∃ e', state.Executing e' ∧ e'.task = some w ∧ e.stamp < e'.stamp
  wanted : ∀ w ∈ state.queue, ∃ e, state.Executing e ∧ w ∈ e.awaits
  needed : ∀ e, state.Executing e → ∀ w, e.task = some w →
    ∃ e', state.Executing e' ∧ w ∈ e'.awaits ∧ e'.stamp < e.stamp

section

variable {main : T} {state after : State T α}

theorem Ledger.executing (h : Ledger main state) {e : Execution α} (he : state.Executing e)
    {w : Task α} (htask : e.task = some w) : w ∉ state.queue ∧ (state.ready w).isSome = false := by
  obtain ⟨t, he⟩ := he
  obtain ⟨hqueued, hready, -⟩ := h.executed t w e.stamp (htask ▸ State.mem_labels he)
  exact ⟨hqueued, by simp [hready]⟩

theorem Ledger.stamp_lt (h : Ledger main state) {e : Execution α} (he : state.Executing e) :
    e.stamp < state.begun := by
  obtain ⟨t, he⟩ := he
  exact h.begun t _ (State.mem_labels he)

/-- Who waits for a closure that is not ready still waits for it after the step. -/
theorem Change.still_awaits (hchange : Change state after) {e : Execution α}
    (he : state.Executing e) {w : Task α} (hw : w ∈ e.awaits)
    (hready : (state.ready w).isSome = false) :
    ∃ e', after.Executing e' ∧ w ∈ e'.awaits ∧ e'.stamp = e.stamp := by
  rcases hchange.forth e he with ⟨e', he', hsame, hawaits⟩ | ⟨hawaits, -⟩
  · refine ⟨e', he', (hawaits w hw).resolve_right ?_, hsame.2.symm⟩
    simp [hready]
  · exact absurd (hawaits w hw) (by simp [hready])

theorem Waits.step (h : Waits state) (hledger : Ledger main state)
    (hchange : Change state after) : Waits after := by
  refine ⟨fun e' he' w hw => ?_, fun w hw => ?_, fun e' he' w htask => ?_⟩
  · rcases hchange.back e' he' with ⟨e, he, hsame, hawaits⟩ | ⟨hnil, -⟩
    · rcases hawaits w hw with hw | hqueued
      · rcases h.covered e he w hw with hqueued | hready | ⟨other, hother, htask, hlt⟩
        · refine (hchange.taken w hqueued).imp_right fun ⟨new, hnew, htask, hstamp⟩ => .inr ?_
          exact ⟨new, hnew, htask, hstamp ▸ hsame.2 ▸ hledger.stamp_lt he⟩
        · exact .inr (.inl (hchange.ready w hready))
        · rcases hchange.forth other hother with ⟨other', hother', hsame', -⟩ | ⟨-, hended⟩
          · refine .inr (.inr ⟨other', hother', hsame'.1 ▸ htask, ?_⟩)
            exact hsame.2 ▸ hsame'.2 ▸ hlt
          · exact .inr (.inl (hended w htask))
      · exact .inl hqueued
    · rw [hnil] at hw
      cases hw
  · rcases hchange.passed w hw with hw | hnew
    · obtain ⟨e, he, hawaits⟩ := h.wanted w hw
      have hready : (state.ready w).isSome = false := by simp [(hledger.waiting w hw).1]
      obtain ⟨e', he', hawaits', -⟩ := hchange.still_awaits he hawaits hready
      exact ⟨e', he', hawaits'⟩
    · exact hnew
  · rcases hchange.back e' he' with ⟨e, he, hsame, -⟩ | ⟨-, hstamp, v, hv, htask'⟩
    · have hold : e.task = some w := hsame.1.trans htask
      obtain ⟨other, hother, hawaits, hlt⟩ := h.needed e he w hold
      obtain ⟨other', hother', hawaits', hstamp⟩ :=
        hchange.still_awaits hother hawaits (hledger.executing he hold).2
      exact ⟨other', hother', hawaits', hstamp ▸ hsame.2 ▸ hlt⟩
    · obtain rfl := Option.some.inj (htask'.symm.trans htask)
      obtain ⟨other, hother, hawaits⟩ := h.wanted v hv
      have hready : (state.ready v).isSome = false := by simp [(hledger.waiting v hv).1]
      obtain ⟨other', hother', hawaits', hsame⟩ := hchange.still_awaits hother hawaits hready
      exact ⟨other', hother', hawaits', hsame ▸ hstamp ▸ hledger.stamp_lt hother⟩

end

section

variable [DecidableEq T] [DecidableEq α] [Preorder α] [DecidableLT α]
  {main : T} {input : List α} {state : State T α} {guard : State T α → Action T α → Prop}

omit [DecidableEq α] [Preorder α] [DecidableLT α] in
/-- At first there is only the call of `do_sort` in `parallel_quick_sort`. -/
theorem stack_initial {t : T} {e : Execution α}
    (he : e ∈ (parallelQuickSort main input).stack t) :
    t = main ∧ e = { task := none, point := .enter input, callers := [], stamp := 0 } := by
  unfold parallelQuickSort at he
  split at he
  · cases he
  · rcases mem_update.mp he with ⟨ht, he⟩ | ⟨-, he⟩
    · exact ⟨ht, List.mem_singleton.mp he⟩
    · cases he

omit [DecidableEq α] [Preorder α] [DecidableLT α] in
theorem queue_initial (main : T) (input : List α) :
    (parallelQuickSort main input).queue = [] ∧
      ∀ w, (parallelQuickSort main input).ready w = none := by
  unfold parallelQuickSort
  split <;> exact ⟨rfl, fun _ => rfl⟩

omit [DecidableEq α] [Preorder α] [DecidableLT α] in
theorem ledger_initial (main : T) (input : List α) :
    Ledger main (parallelQuickSort main input) := by
  have hmem : ∀ t label, label ∈ (parallelQuickSort main input).labels t →
      t = main ∧ label = (none, 0) := by
    intro t label hlabel
    obtain ⟨e, he, rfl⟩ := List.mem_map.mp hlabel
    obtain ⟨rfl, rfl⟩ := stack_initial he
    exact ⟨rfl, rfl⟩
  obtain ⟨hqueue, hready⟩ := queue_initial main input
  refine ⟨fun t => ?_, fun t label hlabel => ?_,
    fun t other task first second hfirst hsecond => ?_, fun t w stamp hlabel => ?_,
    hqueue ▸ .nil, fun w hw => ?_, fun w hw => absurd (hready w) hw, fun t stamp hlabel => ?_,
    fun hresult => ?_⟩
  · unfold State.labels parallelQuickSort
    split
    · exact .nil
    · by_cases ht : t = main
      · subst ht
        simp
      · simp [Function.update_of_ne ht]
  · obtain ⟨-, rfl⟩ := hmem t label hlabel
    obtain ⟨e, he, -⟩ := List.mem_map.mp hlabel
    unfold parallelQuickSort at he ⊢
    split at he
    · cases he
    · next hempty => simp [hempty]
  · obtain ⟨rfl, heq⟩ := hmem t _ hfirst
    obtain ⟨rfl, heq'⟩ := hmem other _ hsecond
    exact ⟨rfl, (congrArg Prod.snd heq).trans (congrArg Prod.snd heq').symm⟩
  · cases (hmem t _ hlabel).2
  · rw [hqueue] at hw
    cases hw
  · obtain ⟨e, he, -⟩ := List.mem_map.mp hlabel
    unfold parallelQuickSort at he ⊢
    split at he
    · cases he
    · next hempty => simp [hempty]
  · unfold State.labels parallelQuickSort at *
    split at hresult
    · cases hresult
    · next hempty => exact ⟨0, by simp [hempty]⟩

omit [DecidableEq α] [Preorder α] [DecidableLT α] in
theorem waits_initial (main : T) (input : List α) : Waits (parallelQuickSort main input) := by
  have hexecuting : ∀ e, (parallelQuickSort main input).Executing e →
      e.task = none ∧ e.awaits = [] := by
    rintro e ⟨t, he⟩
    obtain ⟨rfl, rfl⟩ := stack_initial he
    exact ⟨rfl, rfl⟩
  refine ⟨fun e he w hw => ?_, fun w hw => ?_, fun e he w hw => ?_⟩
  · rw [(hexecuting e he).2] at hw
    cases hw
  · rw [(queue_initial main input).1] at hw
    cases hw
  · rw [(hexecuting e he).1] at hw
    cases hw

theorem ledger_of_reaches (hrun : Reaches (step main) guard (parallelQuickSort main input) state) :
    Ledger main state := by
  refine hrun.invariant (ledger_initial main input) fun state _ after h _ hstep => ?_
  cases step_cases hstep with
  | splits t e below partitionVal rest arranged hstack => exact h.splits hstack partitionVal _ _
  | returns t e below value hstack => exact h.returns hstack value
  | begins t choice task _ hqueue => exact h.begins hqueue

theorem waits_of_reaches (hrun : Reaches (step main) guard (parallelQuickSort main input) state) :
    Waits state := by
  refine hrun.invariant_of (Ledger main) (fun _ => ledger_of_reaches) (waits_initial main input)
    fun state _ after hledger h _ hstep => ?_
  exact h.step hledger (change_of_step hstep)

/-- While there is no result, the threads can go on. -/
theorem exists_step (hledger : Ledger main state) (hwaits : Waits state)
    (hresult : state.result = none) : ∃ action after, step main state action = some after := by
  by_contra hstuck
  have hwait : ∀ t e below, state.stack t = e :: below →
      ∃ result w, e.point = .join result w ∧ state.ready w = none := by
    intro t e below hstack
    cases hpoint : e.point with
    | enter chunkData =>
        refine absurd ⟨.go t chunkData.tail, ?_⟩ hstuck
        cases chunkData <;> simp [step, doSort, hstack, hpoint]
    | join result w =>
        refine ⟨result, w, rfl, ?_⟩
        by_contra hready
        obtain ⟨lower, hlower⟩ := Option.ne_none_iff_exists'.mp hready
        refine hstuck ⟨.go t [], ?_⟩
        simp [step, doSort, hstack, hpoint, hlower]
  have hqueue : state.queue = [] := by
    obtain ⟨stamp, hlabel⟩ := hledger.caller hresult
    obtain ⟨e, he, -⟩ := List.mem_map.mp hlabel
    obtain ⟨top, below, hstack⟩ := List.exists_cons_of_ne_nil (List.ne_nil_of_mem he)
    obtain ⟨result, w, hpoint, -⟩ := hwait main top below hstack
    by_contra hqueue
    obtain ⟨task, tasks, hqueue⟩ := List.exists_cons_of_ne_nil hqueue
    have hhelps : state.Helps main main := by
      simp [State.Helps, hstack, hpoint]
    exact hstuck ⟨.scheduleOne main 0, by simp [step, hhelps, hqueue]⟩
  -- whoever waits, waits for a younger execution, and that one waits on top of its stack
  have hyounger : ∀ e, state.Executing e → ∃ e', state.Executing e' ∧ e.stamp < e'.stamp := by
    rintro e ⟨t, he⟩
    obtain ⟨top, below, hstack⟩ := List.exists_cons_of_ne_nil (List.ne_nil_of_mem he)
    obtain ⟨result, w, hpoint, hready⟩ := hwait t top below hstack
    have hawaits : w ∈ top.awaits := by
      rw [top.awaits_join hpoint]
      exact List.mem_cons_self
    have hle : e.stamp ≤ top.stamp := by
      rw [hstack] at he
      rcases List.mem_cons.mp he with rfl | he
      · exact le_rfl
      · have hdescending := hledger.descending t
        rw [State.labels_stack hstack] at hdescending
        exact ((List.pairwise_cons.mp hdescending).1 _ (List.mem_map_of_mem he)).le
    have htop : state.Executing top := State.executing_top hstack
    rcases hwaits.covered top htop w hawaits with hqueued | hsome | ⟨e', he', -, hlt⟩
    · rw [hqueue] at hqueued
      cases hqueued
    · rw [hready] at hsome
      cases hsome
    · exact ⟨e', he', hle.trans_lt hlt⟩
  have hunbounded : ∀ n, ∃ e, state.Executing e ∧ n ≤ e.stamp := by
    intro n
    induction n with
    | zero =>
        obtain ⟨stamp, hlabel⟩ := hledger.caller hresult
        obtain ⟨e, he, -⟩ := List.mem_map.mp hlabel
        exact ⟨e, ⟨main, he⟩, Nat.zero_le _⟩
    | succ n ih =>
        obtain ⟨e, he, hle⟩ := ih
        obtain ⟨e', he', hlt⟩ := hyounger e he
        exact ⟨e', he', Nat.succ_le_of_lt (hle.trans_lt hlt)⟩
  obtain ⟨e, he, hle⟩ := hunbounded state.begun
  exact (hledger.stamp_lt he).not_ge hle

omit [DecidableEq T] [DecidableEq α] [Preorder α] [DecidableLT α] in
/-- When the result is there, nothing is left. -/
theorem Waits.rests (hledger : Ledger main state) (hwaits : Waits state)
    (hresult : state.result ≠ none) : state.queue = [] ∧ ∀ t, state.stack t = [] := by
  -- a closure is waited for by an older execution
  have hnone : ∀ n, ∀ e, state.Executing e → e.stamp ≠ n := by
    intro n
    induction n using Nat.strong_induction_on with
    | _ n ih =>
        rintro e he rfl
        cases htask : e.task with
        | none =>
            obtain ⟨t, he⟩ := he
            exact hresult (hledger.sorting t e.stamp (htask ▸ State.mem_labels he))
        | some w =>
            obtain ⟨e', he', -, hlt⟩ := hwaits.needed e he w htask
            exact ih e'.stamp hlt e' he' rfl
  refine ⟨List.eq_nil_iff_forall_not_mem.mpr fun w hw => ?_, fun t => ?_⟩
  · obtain ⟨e, he, -⟩ := hwaits.wanted w hw
    exact hnone _ e he rfl
  · exact List.eq_nil_iff_forall_not_mem.mpr fun e he => hnone _ e ⟨t, he⟩ rfl

end

/-! ## The work that is left -/

/-- The steps that an execution still has to take. -/
def Execution.work (e : Execution α) : Nat :=
  (match e.point with
    | .enter chunkData => 4 * chunkData.length + 1
    | .join _ _ => 1) + e.callers.length

variable [Fintype T]

/-- The steps that all executions, and those of the queued closures, still have to take. -/
def State.work (state : State T α) : Nat :=
  (state.queue.map fun w => 4 * w.chunkData.length + 2).sum +
    ∑ t, ((state.stack t).map Execution.work).sum

section

variable {main : T} {state after : State T α} {t : T} {e : Execution α}
  {below : List (Execution α)}

theorem State.work_rests (hqueue : state.queue = []) (hstack : ∀ t, state.stack t = []) :
    state.work = 0 := by
  simp [State.work, hqueue, hstack]

variable [DecidableEq T]

theorem sum_stacks (stack : T → List (Execution α)) (t : T) (new : List (Execution α)) :
    ∑ other, ((Function.update stack t new other).map Execution.work).sum +
        ((stack t).map Execution.work).sum =
      ∑ other, ((stack other).map Execution.work).sum + (new.map Execution.work).sum := by
  rw [← Finset.add_sum_erase _ _ (Finset.mem_univ t), ← Finset.add_sum_erase _
    (fun other => ((stack other).map Execution.work).sum) (Finset.mem_univ t)]
  have hrest : ∑ other ∈ Finset.univ.erase t,
        ((Function.update stack t new other).map Execution.work).sum =
      ∑ other ∈ Finset.univ.erase t, ((stack other).map Execution.work).sum := by
    refine Finset.sum_congr rfl fun other hother => ?_
    rw [Function.update_of_ne (Finset.ne_of_mem_erase hother)]
  rw [hrest, Function.update_self]
  omega

/-- Only one stack and the queue change. -/
theorem State.work_stack (after : State T α) (new : List (Execution α))
    (hafter : after.stack = Function.update state.stack t new) :
    after.work + ((state.stack t).map Execution.work).sum +
        (state.queue.map fun w => 4 * w.chunkData.length + 2).sum =
      state.work + (new.map Execution.work).sum +
        (after.queue.map fun w => 4 * w.chunkData.length + 2).sum := by
  have hsum := sum_stacks state.stack t new
  unfold State.work
  rw [hafter]
  omega

theorem State.work_split (hstack : state.stack t = e :: below) {partitionVal : α}
    {rest lower higher : List α} (hpoint : e.point = .enter (partitionVal :: rest))
    (hlength : lower.length + higher.length = rest.length) :
    (state.split t e below partitionVal lower higher).work + 1 = state.work := by
  set after := state.split t e below partitionVal lower higher with hafter
  set newLower : Task α := { number := state.submitted, chunkData := lower } with hnew
  set called : Execution α :=
    { e with point := .enter higher, callers := ⟨partitionVal, newLower⟩ :: e.callers }
      with hcalled
  have hsum := State.work_stack after (called :: below) rfl
  have hqueue : after.queue = state.queue ++ [newLower] := rfl
  have hold : e.work = 4 * (rest.length + 1) + 1 + e.callers.length := by
    simp [Execution.work, hpoint]
  have hcall : called.work = 4 * higher.length + 1 + (e.callers.length + 1) := rfl
  have hchunk : newLower.chunkData.length = lower.length := rfl
  simp only [hstack, hqueue, List.map_append, List.sum_append, List.map_cons, List.map_nil,
    List.sum_cons, List.sum_nil, hold, hcall, hchunk] at hsum
  omega

theorem State.work_begin {choice : Nat} {task : Task α}
    (hqueue : state.queue[choice]? = some task) :
    (state.begin t choice task).work + 1 = state.work := by
  obtain ⟨hchoice, rfl⟩ := List.getElem?_eq_some_iff.mp hqueue
  set task := state.queue[choice] with htask
  have hperm : (task :: state.queue.eraseIdx choice).Perm state.queue :=
    List.getElem_cons_eraseIdx_perm hchoice
  have hsum := State.work_stack (state.begin t choice task)
    (task.execution state.begun :: state.stack t) rfl
  have hqueue : (state.begin t choice task).queue = state.queue.eraseIdx choice := rfl
  have hbegun : (task.execution state.begun).work = 4 * task.chunkData.length + 1 := rfl
  have hqueued := (hperm.map fun w => 4 * w.chunkData.length + 2).sum_eq
  rw [List.map_cons, List.sum_cons] at hsum hqueued
  rw [hqueue] at hsum
  omega

variable [DecidableEq α]

theorem State.work_returned (hstack : state.stack t = e :: below) {value : List α}
    (hvalue : state.Returns e value) :
    (state.returned t e below value).work + 1 = state.work := by
  have hwork : e.work = 1 + e.callers.length := by
    rcases hvalue with ⟨hpoint, -⟩ | ⟨result, newLower, lower, hpoint, -⟩ <;>
      simp [Execution.work, hpoint]
  unfold State.returned
  split
  · next caller callers hcallers =>
      set resumed : Execution α :=
        { e with point := .join (caller.partitionVal :: value) caller.newLower, callers := callers }
          with hresumed
      set after : State T α :=
        { state with stack := Function.update state.stack t (resumed :: below) } with hafter
      have hsum := State.work_stack after (resumed :: below) rfl
      have hqueue : after.queue = state.queue := rfl
      have hresume : resumed.work = 1 + callers.length := rfl
      rw [hcallers, List.length_cons] at hwork
      rw [hstack, hqueue, List.map_cons, List.map_cons, List.sum_cons, List.sum_cons] at hsum
      omega
  · next hcallers =>
      set ended : State T α := { state with stack := Function.update state.stack t below }
        with hended
      have hsum := State.work_stack ended below rfl
      have hqueue : ended.queue = state.queue := rfl
      rw [hcallers, List.length_nil] at hwork
      rw [hstack, hqueue, List.map_cons, List.sum_cons] at hsum
      have hleft : ended.work + 1 = state.work := by omega
      split <;> exact hleft

variable [Preorder α] [DecidableLT α]

theorem State.work_step {action : Action T α} (h : step main state action = some after) :
    after.work + 1 = state.work := by
  cases step_cases h with
  | splits t e below partitionVal rest arranged hstack hpoint hperm =>
      refine State.work_split hstack hpoint ?_
      have hnot : (fun val => decide (¬ val < partitionVal)) =
          fun val => !decide (val < partitionVal) := by
        funext val
        exact decide_not
      rw [← hperm.length_eq, hnot]
      exact (List.length_eq_length_filter_add _).symm
  | returns t e below value hstack hvalue => exact State.work_returned hstack hvalue
  | begins t choice task _ hqueue => exact State.work_begin hqueue

omit [DecidableEq α] [Preorder α] [DecidableLT α] in
theorem work_initial {input : List α} (hinput : input ≠ []) :
    (parallelQuickSort main input).work = 4 * input.length + 1 := by
  set outside : State T α :=
    { queue := [], ready := fun _ => none, submitted := 0, stack := fun _ => []
      result := none, begun := 0 } with houtside
  set root : Execution α := { task := none, point := .enter input, callers := [], stamp := 0 }
    with hroot
  have hstack : (parallelQuickSort main input).stack =
      Function.update outside.stack main [root] := by
    simp [parallelQuickSort, hinput, houtside, hroot]
  have hsum := State.work_stack (parallelQuickSort main input) [root] hstack
  have hrest : outside.work = 0 := State.work_rests rfl fun _ => rfl
  have hqueue : (parallelQuickSort main input).queue = [] :=
    (queue_initial main input).1
  have hwork : root.work = 4 * input.length + 1 := rfl
  rw [hrest, hqueue] at hsum
  simpa [houtside, hwork] using hsum

/-- Under every schedule the sort of a list of `n` elements takes `4 * n + 1` steps. Until then
some thread can go on, and then the result is there and nothing is left in the pool. -/
theorem ends_in_steps {input : List α} {guard : State T α → Action T α → Prop}
    {history : List (Action T α)} (hinput : input ≠ [])
    (hrun : Emits (step main) guard (fun _ action => [action]) (parallelQuickSort main input)
      history state) :
    history.length ≤ 4 * input.length + 1 ∧
      (history.length < 4 * input.length + 1 →
        state.result = none ∧ ∃ action after, step main state action = some after) ∧
      (history.length = 4 * input.length + 1 →
        state.result ≠ none ∧ state.queue = [] ∧ ∀ t, state.stack t = []) := by
  have hledger := ledger_of_reaches hrun.reaches
  have hwaits := waits_of_reaches hrun.reaches
  have hwork : history.length + state.work = 4 * input.length + 1 := by
    clear hledger hwaits
    induction hrun with
    | refl => simp [work_initial hinput]
    | tail action _ _ hstep ih =>
        have hone := State.work_step hstep
        rw [List.length_append, List.length_singleton]
        omega
  have hresult : state.result ≠ none → state.work = 0 := fun hresult =>
    (hwaits.rests hledger hresult).elim State.work_rests
  refine ⟨by omega, fun hlt => ?_, fun heq => ?_⟩
  · have hnone : state.result = none := by
      by_contra hsome
      have := hresult hsome
      omega
    exact ⟨hnone, exists_step hledger hwaits hnone⟩
  · have hsome : state.result ≠ none := by
      intro hnone
      obtain ⟨action, after, hstep⟩ := exists_step hledger hwaits hnone
      have := State.work_step hstep
      omega
    exact ⟨hsome, hwaits.rests hledger hsome⟩

end

/-- The caller executes a closure itself, and a worker the closure which that one submits. -/
theorem ends_in_steps_two : ∃ (history : List (Action (Fin 2) Nat)) (state : State (Fin 2) Nat),
    Emits (step 0) (fun _ _ => True) (fun _ action => [action]) (parallelQuickSort 0 [1, 0])
      history state ∧ history.length = 9 ∧ state.result = some [0, 1] ∧ state.queue = [] := by
  obtain ⟨state, hrun, hresult⟩ : ∃ state : State (Fin 2) Nat,
      Reaches (step 0) (fun _ _ => True) (parallelQuickSort 0 [1, 0]) state ∧
        state.result = some [0, 1] :=
    Reaches.of_observed (fun _ _ => true)
      [.go 0 [0], .go 0 [], .scheduleOne 0 0, .go 0 [], .scheduleOne 1 0, .go 1 [], .go 0 [],
        .go 0 [], .go 0 []]
      (fun _ _ _ => trivial) (by decide +kernel)
  obtain ⟨history, hemits⟩ := hrun.emits fun _ action => [action]
  obtain ⟨hle, hbefore, hafter⟩ := ends_in_steps (by decide) hemits
  have hlength : history.length = 4 * [1, 0].length + 1 := by
    refine le_antisymm hle (Nat.le_of_not_lt fun hlt => ?_)
    rw [(hbefore hlt).1] at hresult
    cases hresult
  exact ⟨history, state, hemits, hlength, hresult, (hafter hlength).2.1⟩

end ThreadPools.QuickSort
