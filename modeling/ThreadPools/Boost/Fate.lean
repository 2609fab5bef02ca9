/-
# The fate of tasks in a Boost pool

A task that some `set_task` has accepted is run at most once, deleted exactly once, and
never left behind, as long as no task is stored for a worker that has already left. The
window for such a store is real: a worker that has left its loop counts as alive until it
has recorded its end, and `set_task` does not look at `go`.
-/

import ThreadPools.Boost.Custody
import ThreadPools.Boost.Release

namespace ThreadPools.Boost.Pool

open ThreadPools.Concurrency

variable {size : Nat} {state next : State} {action : Action} {t : Tid} {m : ManagerId}
  {effect : Effect} {p q : Point} {x : Runnable}

/-! ## The calls that have stored their task -/

/-- The task of a call that has stored it has been accepted. -/
def Entrusted (state : State) : Prop :=
  ∀ t x p, (state.pc t).call = some (.execute (some x) p) → p.Placed →
    x ∈ state.memory.log.accepted

theorem Memory.mem_accepted_apply (effect : Effect) {memory : Memory}
    (h : x ∈ memory.log.accepted) : x ∈ (memory.apply effect).log.accepted := by
  cases effect with
  | place => exact List.mem_append_left _ h
  | _ => exact h

/-- `execute` goes on with the same task. -/
theorem Call.code_execute {ended : ManagerId → Bool} {choice : Choice} {memory : Memory}
    {call : Call} {task : Option Runnable} {after : ThreadPool.ExecutePoint}
    {piece : Piece (Call ⊕ Unit)} (hpiece : call.code size ended t choice memory = some piece)
    (hnext : piece.next = .inl (.execute task after)) :
    ∃ before, call = .execute task before := by
  cases call <;> obtain ⟨body, -, rfl⟩ := Option.map_eq_some_iff.mp hpiece <;>
    rw [Piece.map_next] at hnext <;>
    cases hbody : body.next <;> rw [hbody] at hnext <;> cases hnext
  exact ⟨_, rfl⟩

/-- How a call gets to have stored its task. -/
theorem Handles.entrusted {ended : ManagerId → Bool} {calls : Method → Prop} {memory : Memory}
    (h : Handles size ended calls memory t p effect q) {after : ThreadPool.ExecutePoint}
    (hcall : q.call = some (.execute (some x) after)) (hplaced : after.Placed)
    (hbefore : ∀ before, p.call = some (.execute (some x) before) → before.Placed →
      x ∈ memory.log.accepted) : x ∈ (memory.apply effect).log.accepted := by
  cases h with
  | stay => exact Memory.mem_accepted_apply _ (hbefore after hcall hplaced)
  | enter method =>
      rw [Tid.call_calling] at hcall
      cases method <;> cases hcall
      exact hplaced.elim
  | @call _ call piece hcode _ _ hcarried =>
      cases hnext : piece.next with
      | inl reached =>
          rw [hnext] at hcall hcarried
          simp only [Sum.elim_inl, Function.comp_apply, Tid.call_calling,
            Option.some.injEq] at hcall
          subst hcall
          obtain ⟨before, rfl⟩ := Call.code_execute hcode hnext
          -- a call that has nothing to carry has stored its task
          have hearlier : before.Placed := by
            by_contra hearlier
            simp [Call.carried, hplaced, hearlier] at hcarried
          exact Memory.mem_accepted_apply _ (hbefore before (Tid.call_calling ..) hearlier)
      | inr =>
          rw [hnext] at hcall
          simp at hcall
  | place task m =>
      rw [Tid.call_calling] at hcall
      cases hcall
      exact List.mem_append_right _ (List.mem_singleton_self x)
  | work _ hworks =>
      rw [hworks.call_next] at hcall
      cases hcall
  | finish => cases hcall

theorem Entrusted.step (h : Entrusted state) (hguarded : Guarded state)
    (hstep : Pool.step size state action = some next) : Entrusted next := by
  obtain ⟨piece, hpiece, rfl⟩ := step_eq_some hstep
  have hhandles := handles_of_piece (hguarded.fits action.thread) hpiece
  intro u x p hcall hplaced
  by_cases hu : u = action.thread
  · subst hu
    rw [State.advance_pc_self] at hcall
    exact hhandles.entrusted hcall hplaced (h action.thread x)
  · rw [State.advance_pc_of_ne _ hu] at hcall
    exact Memory.mem_accepted_apply _ (h u x p hcall hplaced)

theorem entrusted_initial (size : Nat) : Entrusted (initial size) := by
  intro t x p hcall
  cases t with
  | client c => cases hcall
  | worker m =>
      simp only [initial] at hcall
      split at hcall <;> cases hcall

theorem entrusted_of_reaches {guard : State → Action → Prop}
    (hguard : ∀ state action, guard state action → OwnerDestroys state action)
    (hrun : Reaches (Pool.step size) guard (initial size) state) : Entrusted state := by
  induction hrun with
  | refl => exact entrusted_initial size
  | tail action hprior _ hstep ih => exact ih.step (guarded_of_reaches hguard hprior) hstep

/-! ## The slots -/

/-- A worker that has left leaves nothing behind. -/
theorem Custody.slot_of_left (h : Custody state) (hleft : state.Left m) :
    state.memory.slot m = none := by
  unfold State.Left at hleft
  split at hleft
  · next p hp =>
      have hknown := h.knows m p hp
      cases p with
      | remove | finish | removed | exited => exact hknown
      | _ => exact hleft.elim
  · exact hleft.elim

/-- An occupied slot is not overwritten; it is cleared when its task has been deleted. -/
theorem Custody.slot_step (h : Custody state) (hguarded : Guarded state)
    (hstep : Pool.step size state action = some next) (hslot : state.memory.slot m = some x) :
    next.memory.slot m = some x ∨
      next.memory.slot m = none ∧ x ∈ state.memory.log.deleted := by
  obtain ⟨piece, hpiece, rfl⟩ := step_eq_some hstep
  have hhandles := handles_of_piece (hguarded.fits action.thread) hpiece
  rcases hhandles.task_cases m with hsame | ⟨task, -, hp, -, -⟩ | ⟨looping, -, ht, hp, hcleared⟩
  · exact .inl (hsame.trans hslot)
  · -- the slot has been seen empty inside the monitor
    have hvacant := hguarded.vacant action.thread task m (by rw [hp, Tid.call_calling])
    exact absurd (hvacant.symm.trans hslot) nofun
  · obtain ⟨y, hy, hdeleted⟩ := h.knows m (.clear looping) (by rw [← ht, hp])
    rw [hslot, Option.some.injEq] at hy
    exact .inr ⟨hcleared, hy ▸ hdeleted⟩

theorem State.Ended.left (h : state.Ended m) : state.Left m := by
  unfold State.Left
  rw [show state.pc (.worker m) = .worker .exited from h]
  trivial

/-! ## The fate of a task -/

/-- What has become of the tasks which `set_task` has accepted. -/
structure Fate (size : Nat) (state : State) : Prop where
  /-- a `set_task` that returns true has entered its task into `accepted` -/
  returned : Entrusted state
  accepted : state.memory.log.accepted.Nodup
  started : state.memory.log.started.Nodup
  deleted : state.memory.log.deleted.Nodup
  accepted_of_started : ∀ x ∈ state.memory.log.started, x ∈ state.memory.log.accepted
  /-- it waits for a worker that is still there, or has been deleted -/
  kept : ∀ x ∈ state.memory.log.accepted, x ∈ state.memory.log.deleted ∨
    ∃ m, m < size ∧ state.memory.slot m = some x ∧ ¬ state.Left m
  left : ∀ m, state.Left m → state.memory.slot m = none
  /-- behind the destructor -/
  released : state.memory.log.released = true → ∀ x ∈ state.memory.log.accepted,
    state.memory.log.deleted.count x = 1

/-- The fate of the tasks in every run in which no task is stored for a worker that has left;
and no step overwrites an occupied slot. -/
theorem fate_of_tasks
    (hrun : Reaches (Pool.step size)
      (fun state action => Contract state action ∧ StoresInTime state action) (initial size)
      state) :
    Fate size state ∧ ∀ action next, Pool.step size state action = some next → ∀ m x,
      state.memory.slot m = some x → next.memory.slot m = some x ∨
        next.memory.slot m = none ∧ x ∈ state.memory.log.deleted := by
  have hguarded := guarded_of_reaches (fun _ _ h => ownerDestroys_of_contract h.1) hrun
  have hcustody := custody_of_reaches (fun _ _ h => h.1) (fun _ _ h => h.2) hrun
  have hjoined := joined_of_reaches (fun _ _ h => ownerDestroys_of_contract h.1) hrun
  have hbooks := hcustody.books
  have hbeyond : ∀ {m}, size ≤ m → state.Ended m := fun hm => ended_beyond hrun hm
  have hkept : ∀ x ∈ state.memory.log.accepted, x ∈ state.memory.log.deleted ∨
      ∃ m, m < size ∧ state.memory.slot m = some x ∧ ¬ state.Left m := by
    intro x hx
    refine ((hbooks.place x).mp hx).imp_right fun ⟨m, hm⟩ => ?_
    have hstays : ¬ state.Left m := fun hleft => by
      rw [hcustody.slot_of_left hleft] at hm
      cases hm
    exact ⟨m, Nat.lt_of_not_le fun hsize => hstays (hbeyond hsize).left, hm, hstays⟩
  refine ⟨⟨?_, hbooks.accepted, hbooks.started, hbooks.deleted, hbooks.accepted_of_started, hkept,
    fun m => hcustody.slot_of_left, fun hreleased x hx => ?_⟩,
    fun action next hstep m x hslot => hcustody.slot_step hguarded hstep hslot⟩
  · exact entrusted_of_reaches (fun _ _ h => ownerDestroys_of_contract h.1) hrun
  · refine List.count_eq_one_of_mem hbooks.deleted ((hkept x hx).resolve_right ?_)
    rintro ⟨m, hm, -, hstays⟩
    exact hstays (hjoined.released hreleased m hm).left

/-- A task is running when the pool is terminated; the destructor follows. -/
theorem fate_of_tasks_terminated : ∃ state : State,
    state.memory.log.released = true ∧ state.memory.log.accepted = [5] ∧
      state.memory.log.deleted.count 5 = 1 := by
  obtain ⟨state, hrun, hobserved⟩ : ∃ state : State,
      Reaches (Pool.step 1) (fun state action => Contract state action ∧ StoresInTime state action)
        (initial 1) state ∧
        (state.memory.log.released, state.memory.log.accepted) = (true, [5]) :=
    Reaches.of_observed
      (fun state action => decide (Contract state action ∧ StoresInTime state action))
      (Action.steps (.worker 0) 13 ++
        .call (.client 0) (.execute (some 5)) :: Action.steps (.client 0) 19 ++
        Action.steps (.worker 0) 6 ++ .call (.client 0) .terminate :: Action.steps (.client 0) 9 ++
        .finish 0 :: Action.steps (.worker 0) 21 ++
        .call (.client 0) .destroy :: Action.steps (.client 0) 12)
      (fun _ _ => of_decide_eq_true) (by decide +kernel)
  simp only [Prod.mk.injEq] at hobserved
  obtain ⟨hreleased, haccepted⟩ := hobserved
  refine ⟨state, hreleased, haccepted, (fate_of_tasks hrun).1.released hreleased 5 ?_⟩
  rw [haccepted]
  exact List.mem_singleton_self 5

/-- A client submits while the worker, behind its loop, has not yet recorded its end: the
task is accepted, and behind the destructor it has neither been run nor deleted. -/
theorem task_left_behind : ∃ state : State,
    Reaches (Pool.step 1) Contract (initial 1) state ∧ state.memory.log.released = true ∧
      state.Left 0 ∧ state.memory.slot 0 = some 7 ∧ 7 ∈ state.memory.log.accepted ∧
      7 ∉ state.memory.log.started ∧ 7 ∉ state.memory.log.deleted := by
  obtain ⟨state, hrun, hobserved⟩ : ∃ state : State,
      Reaches (Pool.step 1) Contract (initial 1) state ∧
        (decide (state.memory.log.released = true ∧ state.Left 0), state.memory.slot 0,
          state.memory.log.accepted, state.memory.log.started ++ state.memory.log.deleted) =
        (true, some 7, [5, 7], [5, 5]) :=
    Reaches.of_observed (fun state action => decide (Contract state action))
      (Action.steps (.worker 0) 13 ++
        .call (.client 0) (.execute (some 5)) :: Action.steps (.client 0) 19 ++
        Action.steps (.worker 0) 6 ++ .call (.client 0) .terminate :: Action.steps (.client 0) 9 ++
        .finish 0 :: Action.steps (.worker 0) 14 ++
        .call (.client 0) (.execute (some 7)) :: Action.steps (.client 0) 19 ++
        Action.steps (.worker 0) 7 ++
        .call (.client 0) .destroy :: Action.steps (.client 0) 12)
      (fun _ _ => of_decide_eq_true) (by decide +kernel)
  simp only [Prod.mk.injEq, decide_eq_true_eq] at hobserved
  obtain ⟨⟨hreleased, hleft⟩, hslot, haccepted, hhandled⟩ := hobserved
  have hunhandled : 7 ∉ state.memory.log.started ++ state.memory.log.deleted := by
    rw [hhandled]
    decide
  rw [List.mem_append, not_or] at hunhandled
  exact ⟨state, hrun, hreleased, hleft, hslot, by simp [haccepted], hunhandled⟩

end ThreadPools.Boost.Pool
