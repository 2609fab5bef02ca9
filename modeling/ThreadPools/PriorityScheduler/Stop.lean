/-
# Stop is final

`stop()` sets `stopped_` inside the mutex and wakes all threads that wait for work. From
then on every `run()` finds the flag set at its next test and returns, unless somebody
constructs an executor: its constructor clears the flag again.
-/

import ThreadPools.PriorityScheduler.Program

namespace ThreadPools.PriorityScheduler

open ThreadPools.Concurrency

variable {T : Type*} [DecidableEq T]

/-- No executor is constructed once some `stop()` has set `stopped_`. -/
def ConstructsBeforeStop (state : State T) (action : Action T) : Prop :=
  match action with
  | .call _ .getExecutor => state.scheduler.stopping = false
  | _ => True

instance (state : State T) (action : Action T) :
    Decidable (ConstructsBeforeStop state action) := by
  unfold ConstructsBeforeStop
  split <;> infer_instance

/-- No function is taken from the queue, every `run()` returns at its next test, and none
sleeps. -/
structure State.Stopped (state : State T) : Prop where
  taken : ∀ action after, step state action = some after →
    after.scheduler.taken = state.scheduler.taken
  tests : ∀ t choice after, (state.thread t).point = .run .testStopped →
    step state (.go t choice) = some after → (after.thread t).point = .run .decide
  returns : ∀ t choice after, (state.thread t).point = .run .decide →
    step state (.go t choice) = some after → (after.thread t).point = .run .leave
  ends : ∀ t choice after, (state.thread t).point = .run .leave →
    step state (.go t choice) = some after → (after.thread t).point = .client
  awake : state.scheduler.monitor.waiters = []

/-! ## The mutex -/

/-- The points inside the mutex. -/
def Point.inside : Point → Bool
  | .post _ .lock | .stop .lock | .client | .undefined => false
  | .run .lock | .run .blocked | .run .relock => false
  | _ => true

/-- The points a `run()` reaches only while it is not stopped. -/
def Point.works : Point → Bool
  | .run .testQueue | .run .block | .run .take => true
  | _ => false

/-- What is known about a scheduler at all times. -/
structure Settled (state : State T) : Prop where
  inside : ∀ t, (state.thread t).point.inside = true →
    state.scheduler.monitor.owner = some t
  stopped : state.scheduler.stopping = true → state.scheduler.stopped = true
  works : state.scheduler.stopping = true → ∀ t, (state.thread t).point.works = false
  notify : ∀ t, (state.thread t).point = .stop .notify → state.scheduler.stopping = true
  unlock : ∀ t, (state.thread t).point = .stop .unlock →
    state.scheduler.stopping = true ∧ state.scheduler.monitor.waiters = []
  returned : state.scheduler.stopReturned = true →
    state.scheduler.stopping = true ∧ state.scheduler.monitor.waiters = []

variable {state after : State T} {action : Action T} {t : T} {s next : Scheduler T}
  {point target : Point}

omit [DecidableEq T] in
theorem settled_initial (stopped : Bool) : Settled (initial stopped : State T) where
  inside := nofun
  stopped := nofun
  works := nofun
  notify := nofun
  unlock := nofun
  returned := nofun

theorem Point.inside_of_works (h : point.works = true) : point.inside = true := by
  cases point with
  | run p => cases p <;> first | rfl | cases h
  | _ => cases h

/-! ## What a step does to the mutex and the flags -/

/-- Whoever is inside the mutex behind a step owns it. -/
theorem Moves.owner_self (h : Moves t s point next target)
    (hinside : point.inside = true → s.monitor.owner = some t) (htarget : target.inside = true) :
    next.monitor.owner = some t := by
  cases h with
  | acquire => rfl
  | hasWork source h =>
      refine hinside ?_
      rcases h with ⟨rfl, -⟩ | rfl <;> rfl
  | block => cases htarget
  | release => cases htarget
  | stopped => cases htarget
  | undefined => cases htarget
  | _ => exact hinside rfl

/-- A step does not take the mutex away from another thread. -/
theorem Moves.owner_other (h : Moves t s point next target)
    (hinside : point.inside = true → s.monitor.owner = some t) {other : T} (hother : other ≠ t)
    (howner : s.monitor.owner = some other) : next.monitor.owner = some other := by
  have houtside : point.inside = false := by
    refine Bool.eq_false_iff.mpr fun hpoint => hother ?_
    exact Option.some.inj (howner.symm.trans (hinside hpoint))
  cases h with
  | acquire _ _ hfree => cases hfree.symm.trans howner
  | hasWork => exact howner
  | release _ h => rcases h with ⟨item, rfl⟩ | rfl | rfl <;> cases houtside
  | _ => cases houtside

/-- Only `stop()` changes the flag inside of a method. -/
theorem Moves.flags (h : Moves t s point next target) :
    next.stopping = s.stopping ∧ next.stopped = s.stopped ∨
      point = .stop .set ∧ next.stopping = true ∧ next.stopped = true := by
  cases h with
  | set => exact .inr ⟨rfl, rfl, rfl⟩
  | _ => exact .inl ⟨rfl, rfl⟩

/-- Nobody falls asleep except behind a test of the flag. -/
theorem Moves.waiters (h : Moves t s point next target) (hpoint : point.works = false)
    (hnil : s.monitor.waiters = []) : next.monitor.waiters = [] := by
  cases h with
  | notifyOne item choice =>
      exact List.sublist_nil.mp (hnil ▸ s.monitor.signal_waiters_sublist choice)
  | notifyAll => rfl
  | block => cases hpoint
  | _ => exact hnil

theorem Moves.works (h : Moves t s point next target) (htarget : target.works = true) :
    s.stopped = false ∨ point.works = true := by
  cases h with
  | acquire _ _ _ h =>
      rcases h with ⟨item, -, rfl⟩ | ⟨-, rfl⟩ | ⟨-, rfl⟩ <;> cases htarget
  | noStop hstopped => exact .inl hstopped
  | goOn hstopped => exact .inl hstopped
  | noWork => exact .inr rfl
  | _ => cases htarget

/-- The last two steps of `stop()`. -/
theorem Moves.stop_notify (h : Moves t s point next target) (htarget : target = .stop .notify) :
    next.stopping = true := by
  cases h with
  | acquire _ _ _ h =>
      rcases h with ⟨item, -, rfl⟩ | ⟨-, rfl⟩ | ⟨-, rfl⟩ <;> cases htarget
  | set => rfl
  | _ => cases htarget

theorem Moves.stop_unlock (h : Moves t s point next target) (htarget : target = .stop .unlock) :
    point = .stop .notify ∧ next.monitor.waiters = [] := by
  cases h with
  | acquire _ _ _ h =>
      rcases h with ⟨item, -, rfl⟩ | ⟨-, rfl⟩ | ⟨-, rfl⟩ <;> cases htarget
  | notifyAll => exact ⟨rfl, rfl⟩
  | _ => cases htarget

theorem Moves.stopReturned (h : Moves t s point next target)
    (hreturned : next.stopReturned = true) : s.stopReturned = true ∨ point = .stop .unlock := by
  cases h with
  | stopped => exact .inr rfl
  | _ => exact .inl hreturned

/-! ## The invariant -/

/-- The points of the other threads stay, and `t` is at `target`. -/
theorem update_point (P : T → Point → Prop) {thread : T → Thread} {target : Thread}
    (hself : P t target.point) (hother : ∀ other, other ≠ t → P other (thread other).point) :
    ∀ other, P other (Function.update thread t target other).point := by
  intro other
  by_cases heq : other = t
  · subst heq
    rwa [Function.update_self]
  · rw [Function.update_of_ne heq]
    exact hother other heq

/-- A thread goes on outside of the methods, or enters one. -/
theorem Settled.outside (h : Settled state) (thread : Thread)
    (hthread : thread.point = .client ∨ (∃ item, thread.point = .post item .lock) ∨
      thread.point = .stop .lock ∨ thread.point = .run .lock ∨ thread.point = .run .relock)
    {scheduler : Scheduler T}
    (hsame : scheduler.monitor = state.scheduler.monitor ∧
      scheduler.stopping = state.scheduler.stopping ∧
      scheduler.stopReturned = state.scheduler.stopReturned)
    (hstopped : scheduler.stopping = true → scheduler.stopped = true) :
    Settled { scheduler := scheduler, thread := Function.update state.thread t thread } := by
  obtain ⟨hmonitor, hstopping, hreturned⟩ := hsame
  have hpoint : thread.point.inside = false ∧ thread.point.works = false := by
    rcases hthread with h | ⟨item, h⟩ | h | h | h <;> rw [h] <;> exact ⟨rfl, rfl⟩
  have hne : ∀ p, p.inside = true → thread.point ≠ p := fun p hp heq => by
    rw [← heq, hpoint.1] at hp
    cases hp
  refine ⟨?_, hstopped, fun hstop => ?_, ?_, ?_, ?_⟩
  · refine update_point
      (fun other p => p.inside = true → scheduler.monitor.owner = some other)
      (fun hinside => absurd rfl (hne _ hinside)) fun other _ hinside => ?_
    rw [hmonitor]
    exact h.inside other hinside
  · rw [hstopping] at hstop
    exact update_point (fun _ p => p.works = false) hpoint.2 fun other _ => h.works hstop other
  · refine update_point (fun _ p => p = .stop .notify → scheduler.stopping = true)
      (fun heq => absurd heq (hne _ rfl)) fun other _ heq => ?_
    rw [hstopping]
    exact h.notify other heq
  · refine update_point
      (fun _ p => p = .stop .unlock → scheduler.stopping = true ∧ scheduler.monitor.waiters = [])
      (fun heq => absurd heq (hne _ rfl)) fun other _ heq => ?_
    rw [hstopping, hmonitor]
    exact h.unlock other heq
  · intro hafter
    rw [hstopping, hmonitor]
    exact h.returned (hreturned ▸ hafter)

/-- A step inside of a method. -/
theorem Settled.go (h : Settled state)
    (hmoves : Moves t state.scheduler (state.thread t).point next target) {depth : Nat} :
    Settled { scheduler := next, thread := Function.update state.thread t ⟨target, depth⟩ } := by
  have hinside := h.inside t
  have hother : ∀ other, other ≠ t → (state.thread other).point.inside = true →
      next.monitor.owner = some other := fun other hne hpoint =>
    hmoves.owner_other hinside hne (h.inside other hpoint)
  have hkept : state.scheduler.stopping = true → next.stopping = true := fun hstopping => by
    rcases hmoves.flags with ⟨heq, -⟩ | ⟨-, heq, -⟩
    · rw [heq, hstopping]
    · exact heq
  have hasleep : state.scheduler.stopping = true → state.scheduler.monitor.waiters = [] →
      next.monitor.waiters = [] := fun hstopping => hmoves.waiters (h.works hstopping t)
  refine ⟨update_point (fun other p => p.inside = true → next.monitor.owner = some other)
      (hmoves.owner_self hinside) hother, fun hstopping => ?_,
    fun hstopping => ?_, update_point (fun _ p => p = .stop .notify → next.stopping = true)
      hmoves.stop_notify fun other _ heq => hkept (h.notify other heq),
    update_point
      (fun _ p => p = .stop .unlock → next.stopping = true ∧ next.monitor.waiters = [])
      (fun htarget => ?_) fun other _ heq => ?_, fun hreturned => ?_⟩
  · rcases hmoves.flags with ⟨heq, hstopped⟩ | ⟨-, -, hstopped⟩
    · rw [hstopped]
      exact h.stopped (heq ▸ hstopping)
    · exact hstopped
  · -- at the assignment nobody else is inside the mutex
    rcases hmoves.flags with ⟨heq, -⟩ | ⟨hset, -, -⟩
    · rw [heq] at hstopping
      refine update_point (fun _ p => p.works = false) ?_ fun other _ =>
        h.works hstopping other
      refine Bool.eq_false_iff.mpr fun hworks => ?_
      rcases hmoves.works hworks with hstopped | hworks
      · cases hstopped.symm.trans (h.stopped hstopping)
      · cases hworks.symm.trans (h.works hstopping t)
    · rw [hset] at hmoves hinside
      refine update_point (fun _ p => p.works = false) ?_ fun other hne => ?_
      · cases hmoves with
        | set => rfl
        | acquire _ _ _ h => rcases h with ⟨item, h, -⟩ | ⟨h, -⟩ | ⟨h | h | h, -⟩ <;> cases h
        | release _ h => rcases h with ⟨item, h⟩ | h | h <;> cases h
      · refine Bool.eq_false_iff.mpr fun hworks => hne ?_
        exact Option.some.inj ((h.inside other (Point.inside_of_works hworks)).symm.trans
          (hinside rfl))
  · obtain ⟨hpoint, hnil⟩ := hmoves.stop_unlock htarget
    exact ⟨hkept (h.notify t hpoint), hnil⟩
  · obtain ⟨hstopping, hnil⟩ := h.unlock other heq
    exact ⟨hkept hstopping, hasleep hstopping hnil⟩
  · have hbefore : state.scheduler.stopping = true ∧ state.scheduler.monitor.waiters = [] := by
      rcases hmoves.stopReturned hreturned with hreturned | hpoint
      · exact h.returned hreturned
      · exact h.unlock t hpoint
    exact ⟨hkept hbefore.1, hasleep hbefore.1 hbefore.2⟩

theorem Settled.step (h : Settled state) (hguard : ConstructsBeforeStop state action)
    (hstep : Steps state action after) : Settled after := by
  cases hstep with
  | call t method hclient =>
      cases method with
      | getExecutor =>
          refine h.outside _ (.inl rfl) ⟨rfl, rfl, rfl⟩ fun hstopping => ?_
          exact absurd (hguard.symm.trans hstopping) nofun
      | post item => exact h.outside _ (.inr (.inl ⟨item, rfl⟩)) ⟨rfl, rfl, rfl⟩ h.stopped
      | stop => exact h.outside _ (.inr (.inr (.inl rfl))) ⟨rfl, rfl, rfl⟩ h.stopped
      | run => exact h.outside _ (.inr (.inr (.inr (.inl rfl)))) ⟨rfl, rfl, rfl⟩ h.stopped
  | go t choice next target hmoves => exact h.go hmoves
  | finish t throws depth hclient =>
      refine h.outside _ ?_ ⟨rfl, rfl, rfl⟩ h.stopped
      cases throws with
      | true => exact .inl rfl
      | false => exact .inr (.inr (.inr (.inr rfl)))
  | wakeUp t =>
      have hnil : state.scheduler.monitor.waiters = [] →
          (state.scheduler.monitor.wakeSpuriously t).waiters = [] := fun hnil => by
        rw [Monitor.wakeSpuriously_waiters, hnil]
        rfl
      exact ⟨h.inside, h.stopped, h.works, h.notify,
        fun other heq => (h.unlock other heq).imp id hnil,
        fun hreturned => (h.returned hreturned).imp id hnil⟩

variable {guard : State T → Action T → Prop} {stopped : Bool}

theorem settled_of_reaches
    (hguard : ∀ state action, guard state action → ConstructsBeforeStop state action)
    (hrun : Reaches step guard (initial stopped) state) : Settled state :=
  hrun.invariant (settled_initial stopped) fun _ _ _ h hallowed hstep =>
    h.step (hguard _ _ hallowed) (step_cases hstep)

/-! ## Stop is final -/

/-- A step takes an item only at the point in front of `queue_.top()`. -/
theorem taken_of_step (hstep : Steps state action after)
    (hworks : ∀ t, (state.thread t).point.works = false) :
    after.scheduler.taken = state.scheduler.taken := by
  cases hstep with
  | call t method => cases method <;> rfl
  | go t choice next target hmoves =>
      have hpoint := hworks t
      generalize (state.thread t).point = source at hmoves hpoint
      cases hmoves with
      | take => cases hpoint
      | _ => rfl
  | finish => rfl
  | wakeUp => rfl

/-- A step inside a method leads to the point that the code names. -/
theorem point_of_go {choice : Nat} (hcode : code t choice (state.thread t).point
    state.scheduler = some (next, target)) (hstep : step state (.go t choice) = some after) :
    (after.thread t).point = target := by
  simp only [PriorityScheduler.step, hcode, Option.map_some, Option.some.injEq] at hstep
  subst hstep
  simp [Thread.next]

/-- In every run in which no executor is constructed once a `stop()` has set the flag, stop
is final as soon as some `stop()` has returned. -/
theorem stop_final
    (hguard : ∀ state action, guard state action → ConstructsBeforeStop state action)
    (hrun : Reaches step guard (initial stopped) state)
    (hreturned : state.scheduler.stopReturned = true) : state.Stopped := by
  have h := settled_of_reaches hguard hrun
  obtain ⟨hstopping, hnil⟩ := h.returned hreturned
  have hstopped := h.stopped hstopping
  refine ⟨fun action after hstep => taken_of_step (step_cases hstep) (h.works hstopping),
    fun t choice after hpoint hstep => ?_, fun t choice after hpoint hstep => ?_,
    fun t choice after hpoint hstep => ?_, hnil⟩
  · have hcode : code t choice (state.thread t).point state.scheduler =
        some (state.scheduler, .run .decide) := by
      simp [hpoint, code, run, hstopped]
    exact point_of_go hcode hstep
  · have hcode : code t choice (state.thread t).point state.scheduler =
        some (state.scheduler, .run .leave) := by
      simp [hpoint, code, run, hstopped]
    exact point_of_go hcode hstep
  · have hcode : code t choice (state.thread t).point state.scheduler =
        some (state.scheduler.release t, .client) := by
      simp [hpoint, code, run]
    exact point_of_go hcode hstep

/-- A thread waits in `run()` for work when another one stops the scheduler. -/
theorem stop_final_waiting : ∃ state : State Nat,
    (state.thread 1).point = .run .blocked ∧ state.Stopped := by
  obtain ⟨state, hrun, hobserved⟩ : ∃ state : State Nat,
      Reaches step ConstructsBeforeStop (initial false) state ∧
        ((state.thread 1).point, state.scheduler.stopReturned) = (.run .blocked, true) :=
    Reaches.of_observed (fun state action => decide (ConstructsBeforeStop state action))
      (.call 0 .getExecutor :: .call 1 .run :: List.replicate 4 (.go 1 0) ++
        .call 0 .stop :: List.replicate 4 (.go 0 0))
      (fun _ _ => of_decide_eq_true) (by decide +kernel)
  obtain ⟨hpoint, hreturned⟩ := Prod.mk.inj hobserved
  exact ⟨state, hpoint, stop_final (fun _ _ h => h) hrun hreturned⟩

/-- A call of `get_executor()` behind `stop()`: `run()` takes the next function. -/
theorem stop_undone : ∃ state : State Nat,
    Reaches step (fun _ _ => True) (initial false) state ∧
      state.scheduler.stopReturned = true ∧ ¬ state.Stopped := by
  obtain ⟨state, hrun, hobserved⟩ : ∃ state : State Nat,
      Reaches step (fun _ _ => True) (initial false) state ∧
        (state.scheduler.stopReturned, state.scheduler.taken,
          (step state (.go 1 0)).map fun after => after.scheduler.taken) =
        (true, [], some [⟨0, 7⟩]) :=
    Reaches.of_observed (fun _ _ => true)
      (.call 0 .getExecutor :: .call 0 .stop :: List.replicate 4 (.go 0 0) ++
        .call 0 .getExecutor :: .call 0 (.post ⟨0, 7⟩) :: List.replicate 4 (.go 0 0) ++
        .call 1 .run :: List.replicate 4 (.go 1 0))
      (fun _ _ _ => trivial) (by decide +kernel)
  simp only [Prod.mk.injEq, Option.map_eq_some_iff] at hobserved
  obtain ⟨hreturned, hbefore, after, hstep, hafter⟩ := hobserved
  refine ⟨state, hrun, hreturned, fun h => ?_⟩
  have hsame := h.taken _ _ hstep
  rw [hafter, hbefore] at hsame
  cases hsame

end ThreadPools.PriorityScheduler
