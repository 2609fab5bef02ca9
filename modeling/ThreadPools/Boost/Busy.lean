/-
# What `is_busy` of a Boost pool returns

The loop stops at the first manager whose `is_idle` is not the expected one; `is_idle` of a
manager takes no lock. While the call is inside the pool nobody fills a slot, so a manager
that had no task when the call got the lock has none when it is asked.
-/

import ThreadPools.Boost.Guarded

namespace ThreadPools.Boost.Pool

open ThreadPools.Concurrency
open Standings (outside)

variable {size c : Nat} {state next : State} {action : Action} {m : ManagerId} {t : Tid}

/-- The steps while the client `c` is in `is_busy` and the threads of the managers run. -/
def InBusy (size c : Nat) (state : State) (action : Action) : Prop :=
  OwnerDestroys state action ∧ (∃ p, state.pc (.client c) = .client (some (.isBusy p))) ∧
    ∀ m < size, (state.memory.managers m).status = .running

/-- A call of `is_busy` that finds tasks in the slots `occupied` when it gets the lock of the
pool can return `result`. -/
def ReturnsBusy (size : Nat) (occupied : ManagerId → Bool) (result : Bool) : Prop :=
  ∃ c source target, Reaches (step size) OwnerDestroys (initial size) source ∧
    source.pc (.client c) = .client (some (.isBusy (.next size 0))) ∧
    (∀ m < size, (source.memory.managers m).task.isSome = occupied m) ∧
    Reaches (step size) (InBusy size c) source target ∧
    target.pc (.client c) = .client (some (.isBusy (.leave result .test)))

/-- A thread that stores a task is inside the pool. -/
theorem Guarded.pool_owner_of_store (h : Guarded state) {task : Option Runnable}
    (hstores : state.pc t = t.calling (some (.execute task (.setTask m .store)))) :
    (state.memory.sync .pool).owner = some t := by
  have hne : ∀ i, MonitorId.pool ≠ .manager i := by rintro i ⟨⟩
  have hcall : (Call.execute task (.setTask m .store)).standings .pool = .marked := by
    change ((outside.set .pool .marked).set (.manager m) .marked) .pool = .marked
    rw [Standings.set_of_ne _ (hne m), Standings.set_self]
  refine h.owner_of_marked ?_
  rw [hstores]
  cases t with
  | client d => exact hcall
  | worker i =>
      change ((Call.execute task (.setTask m .store)).standings.set (.manager i) .marked) .pool = _
      rw [Standings.set_of_ne _ (hne i), hcall]

/-- While a thread is inside the pool nobody else puts a task into a slot. -/
theorem Guarded.task_step (h : Guarded state)
    (howner : (state.memory.sync .pool).owner = some t)
    (hcall : ∀ task, (state.pc t).call ≠ some (.execute task (.setTask m .store)))
    (hstep : Pool.step size state action = some next)
    (hempty : (state.memory.managers m).task = none) :
    (next.memory.managers m).task = none := by
  obtain ⟨piece, hpiece, rfl⟩ := step_eq_some hstep
  rw [State.advance_memory]
  rcases (handles_of_piece (h.fits action.thread) hpiece).task_cases m with
    hsame | ⟨task, -, hbefore, -, -⟩ | ⟨looping, -, -, -, hnone⟩
  · exact hsame.trans hempty
  · have ht : t = action.thread :=
      Option.some.inj (howner.symm.trans (h.pool_owner_of_store hbefore))
    refine absurd ?_ (hcall task)
    rw [ht, hbefore, Tid.call_calling]
  · exact hnone

/-- Where a call of `is_busy` is that has found the first manager without a task. -/
def ThreadPool.CheckPoint.FindsIdle (memory : Memory) : ThreadPool.CheckPoint → Prop
  | .enter _ => False
  | .isIdle m _ => m = 0 ∧ (memory.managers 0).task = none
  | .leave result _ => result = false

/-- A step of the call. -/
theorem ThreadPool.finds_check {memory : Memory} {p next : CheckPoint}
    {piece : Piece (CheckPoint ⊕ Bool)} (hrunning : (memory.managers 0).status = .running)
    (hfinds : p.FindsIdle memory) (hpiece : check size false t p memory = some piece)
    (hnext : piece.next = .inl next) : next.FindsIdle (memory.apply piece.effect) := by
  cases p with
  | enter => exact hfinds.elim
  | isIdle m p =>
      obtain ⟨rfl, hempty⟩ := hfinds
      obtain ⟨body, hbody, rfl⟩ := Option.map_eq_some_iff.mp hpiece
      cases p with
      | task =>
          cases hbody
          simp only [Piece.map_next, hempty] at hnext
          cases hnext
          exact ⟨rfl, hempty⟩
      | status =>
          cases hbody
          simp only [Piece.map_next, hrunning] at hnext
          cases hnext
          rfl
  | leave result p =>
      obtain ⟨s, inner, -, rfl⟩ := within_eq_some hpiece
      cases inner with
      | inl =>
          cases hnext
          exact hfinds
      | inr => cases hnext

/-- A step of the pool while the call goes on. -/
theorem Guarded.finds_step (h : Guarded state) {p : ThreadPool.CheckPoint}
    (hp : state.pc (.client c) = .client (some (.isBusy p)))
    (hrunning : (state.memory.managers 0).status = .running)
    (hfinds : p.FindsIdle state.memory) (hstep : Pool.step size state action = some next) :
    next.pc (.client c) = .client none ∨
      ∃ q, next.pc (.client c) = .client (some (.isBusy q)) ∧ q.FindsIdle next.memory := by
  have hkept : ∀ q : ThreadPool.CheckPoint, q.FindsIdle state.memory →
      (∀ m p, q = .isIdle m p → (next.memory.managers 0).task = none) →
      q.FindsIdle next.memory := by
    intro q hq hempty
    cases q with
    | enter => exact hq
    | isIdle m p => exact ⟨hq.1, hempty m p rfl⟩
    | leave => exact hq
  obtain ⟨piece, hpiece, hnext⟩ := step_eq_some hstep
  by_cases hthread : action.thread = .client c
  · rw [hnext, hthread, State.advance_pc_self, State.advance_memory]
    cases action with
    | run t choice =>
        cases hthread
        simp only [State.piece, hp, code, Call.code, Call.embed, Option.map_map] at hpiece
        obtain ⟨body, hbody, rfl⟩ := Option.map_eq_some_iff.mp hpiece
        cases hinner : body.next with
        | inl q =>
            refine .inr ⟨q, by simp [hinner], ?_⟩
            exact ThreadPool.finds_check hrunning hfinds hbody hinner
        | inr result => exact .inl (by simp [hinner])
    | call t method =>
        cases hthread
        simp only [State.piece, hp, enter] at hpiece
        cases hpiece
    | finish => cases hthread
    | wakeUp x t =>
        cases hthread
        simp only [State.piece] at hpiece
        split at hpiece
        · cases hpiece
          exact .inr ⟨p, hp, hfinds⟩
        · cases hpiece
  · refine .inr ⟨p, ?_, hkept p hfinds ?_⟩
    · rw [hnext, State.advance_pc_of_ne _ (Ne.symm hthread), hp]
    · rintro m q rfl
      have hinside : (state.memory.sync .pool).owner = some (.client c) := by
        refine h.owner_of_marked ?_
        rw [hp]
        change (outside.set .pool .marked) .pool = .marked
        exact Standings.set_self ..
      refine h.task_step hinside (fun task => ?_) hstep hfinds.2
      rw [hp]
      rintro ⟨⟩

/-- In a pool without a task `is_busy` returns false. -/
theorem not_busy_of_vacant (hsize : 0 < size) {occupied : ManagerId → Bool} {result : Bool}
    (hvacant : ∀ m < size, occupied m = false) (h : ReturnsBusy size occupied result) :
    result = false := by
  obtain ⟨c, source, target, hreached, hsource, hslots, hrun, hresult⟩ := h
  have hempty : (source.memory.managers 0).task = none := by
    rw [← Option.isNone_iff_eq_none, ← Option.not_isSome, hslots 0 hsize, hvacant 0 hsize]
    rfl
  have hfirst : ThreadPool.CheckPoint.next size 0 = .isIdle 0 .task := if_pos hsize
  have hfinds : target.pc (.client c) = .client none ∨
      ∃ q, target.pc (.client c) = .client (some (.isBusy q)) ∧ q.FindsIdle target.memory := by
    clear hresult
    induction hrun with
    | refl =>
        rw [hfirst] at hsource
        exact .inr ⟨_, hsource, rfl, hempty⟩
    | tail action hprior hallowed hstep ih =>
        obtain ⟨-, ⟨p, hp⟩, hrunning⟩ := hallowed
        have hguarded : Guarded _ := guarded_of_reaches (fun _ _ h => h)
          (hreached.trans (hprior.mono fun _ _ h => h.1))
        rcases ih with houtside | ⟨q, hq, hfinds⟩
        · rw [hp] at houtside
          cases houtside
        · exact hguarded.finds_step hq (hrunning 0 hsize) hfinds hstep
  rcases hfinds with houtside | ⟨q, hq, hfinds⟩
  · rw [hresult] at houtside
    cases houtside
  · rw [hresult] at hq
    cases hq
    exact hfinds

end ThreadPools.Boost.Pool
