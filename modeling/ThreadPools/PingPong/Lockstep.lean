/-
# The parties keep in step

The semaphore counts the consumers that have seen the current round, so the producer begins a
round only when all of them have seen the last one, and no consumer misses a round. The
producer reads the number of consumers without the mutex; it does so before the first round,
when nobody has changed the semaphore.
-/

import Mathlib.Data.Finset.Card
import ThreadPools.PingPong.Program

namespace ThreadPools.PingPong

open ThreadPools.Concurrency

variable {C : Type*}

/-- The point lies between the test of a loop and the end of its critical section. -/
def Point.waits : Point → Bool
  | .lock | .test | .wait => true
  | _ => false

/-- The mutex belongs to the thread in the critical section, and only waiting threads sleep. -/
structure Guarded (point : Party C → Point) (monitor : Monitor (Party C)) : Prop where
  inside : ∀ p, point p = .test ↔ monitor.owner = some p
  asleep : ∀ p ∈ monitor.waiters, point p = .wait

/-- What the counters are when a thread is at a point. -/
def State.Counts [Fintype C] (state : State C) : Party C → Point → Prop
  | .producer, x =>
      state.counter + (state.i + x.waits.toNat) = state.iterations ∧
        (x = .start → state.counter = 0) ∧ (x ≠ .start → state.consumers = Fintype.card C) ∧
        (x = .done → state.i = 0)
  | .consumer c, x =>
      x ≠ .start ∧ (x.waits = true → state.seen c ≠ state.iterations) ∧
        (x = .done → state.seen c = state.iterations)

/-- The counters of the threads agree with each other. -/
structure Counted [Fintype C] (state : State C) : Prop where
  present : state.semaphore = (Finset.univ.filter fun c => state.seen c = state.counter).card
  near : ∀ c, state.seen c ≤ state.counter ∧ state.counter ≤ state.seen c + 1
  counts : ∀ p, state.Counts p (state.point p)

/-- A thread sleeps for a reason, or is about to be woken. -/
def Attended (state : State C) : Prop :=
  ∀ p ∈ state.monitor.waiters, state.Blocked p ∨ ∃ q, state.point q = .notify

section

variable [DecidableEq C] {state after : State C} {action : Action C}

theorem Guarded.moves {point : Party C → Point} {monitor next : Monitor (Party C)}
    (h : Guarded point monitor) {p : Party C} {target : Point}
    (hself : target = .test ↔ next.owner = some p)
    (hothers : ∀ q, q ≠ p → (next.owner = some q ↔ monitor.owner = some q))
    (hwaiters : ∀ q ∈ next.waiters, q = p ∧ target = .wait ∨ q ≠ p ∧ q ∈ monitor.waiters) :
    Guarded (Function.update point p target) next := by
  refine ⟨(Function.forall_update_iff point fun q x => x = .test ↔ next.owner = some q).mpr
    ⟨hself, fun q hq => (h.inside q).trans (hothers q hq).symm⟩, fun q hq => ?_⟩
  rcases hwaiters q hq with ⟨rfl, rfl⟩ | ⟨hne, hq⟩
  · exact Function.update_self q .wait point
  · exact (Function.update_of_ne hne target point).trans (h.asleep q hq)

/-- A thread that does not wait goes on outside of the mutex. -/
theorem Guarded.outside {point : Party C → Point} {monitor : Monitor (Party C)}
    (h : Guarded point monitor) {p : Party C} {source target : Point} (hpoint : point p = source)
    (hsource : source ≠ .test ∧ source ≠ .wait) (htarget : target ≠ .test) :
    Guarded (Function.update point p target) monitor := by
  subst hpoint
  refine h.moves ⟨fun heq => absurd heq htarget, fun heq => ?_⟩ (fun _ _ => .rfl) fun q hq => ?_
  · exact absurd ((h.inside p).mpr heq) hsource.1
  · exact .inr ⟨fun heq => hsource.2 (heq ▸ h.asleep q hq), hq⟩

/-- A thread leaves the mutex. -/
theorem Guarded.leaves {point : Party C → Point} {monitor : Monitor (Party C)}
    (h : Guarded point monitor) {p : Party C} (hpoint : point p = .test) {target : Point}
    (htarget : target ≠ .test) {next : Monitor (Party C)} (howner : next.owner = none)
    (hwaiters : ∀ q ∈ next.waiters, q = p ∧ target = .wait ∨ q ∈ monitor.waiters) :
    Guarded (Function.update point p target) next := by
  refine h.moves ⟨fun heq => absurd heq htarget, fun heq => ?_⟩ (fun q hq => ?_) fun q hq => ?_
  · cases howner.symm.trans heq
  · refine ⟨fun heq => (by cases howner.symm.trans heq), fun heq => ?_⟩
    exact absurd (Option.some.inj (heq.symm.trans ((h.inside p).mp hpoint))) hq
  · refine (hwaiters q hq).imp_right fun hmem => ⟨fun heq => ?_, hmem⟩
    cases hpoint.symm.trans (heq ▸ h.asleep q hmem)

theorem Guarded.step (h : Guarded state.point state.monitor)
    (hstep : Steps state action after) : Guarded after.point after.monitor := by
  cases hstep with
  | starts hpoint => exact h.outside hpoint (by simp) (by simp)
  | ends p hpoint => exact h.outside hpoint (by simp) (by simp)
  | begins hpoint => exact h.outside hpoint (by simp) (by simp)
  | follows c hpoint => exact h.outside hpoint (by simp) (by simp)
  | enters p hpoint hfree hawake =>
      refine h.moves (by simp) (fun q hq => ?_) fun q hq => .inr ⟨?_, hq⟩
      · simp [hfree, hq.symm]
      · rintro rfl
        exact hawake hq
  | sleeps p hpoint =>
      have howner := (h.inside p).mp hpoint
      refine h.leaves hpoint (by simp) (by simp [State.sleep, howner]) fun q hq => ?_
      exact (List.mem_append.mp hq).symm.imp_left fun hp => ⟨List.mem_singleton.mp hp, rfl⟩
  | produces hpoint =>
      have howner := (h.inside .producer).mp hpoint
      exact h.leaves hpoint (by simp) (by simp [State.leave, howner]) fun q hq => .inr hq
  | consumes c hpoint =>
      have howner := (h.inside (.consumer c)).mp hpoint
      exact h.leaves hpoint (by simp) (by simp [State.leave, howner]) fun q hq => .inr hq
  | notifies p hpoint =>
      have houtside : Guarded (Function.update state.point p .loop) state.monitor :=
        h.outside hpoint (by simp) (by simp)
      exact ⟨houtside.inside, fun q hq => (by cases hq)⟩
  | wakes p => exact ⟨h.inside, fun q hq => h.asleep q (List.mem_of_mem_erase hq)⟩

variable [Fintype C]

omit [DecidableEq C] in
/-- The semaphore says how many consumers there are before the first round. -/
theorem Counted.semaphore_start (h : Counted state) (hstart : state.counter = 0) :
    state.semaphore = Fintype.card C := by
  rw [h.present, Finset.filter_true_of_mem fun c _ => ?_, Finset.card_univ]
  have hle := (h.near c).1
  omega

omit [DecidableEq C] in
/-- The producer counts all consumers only when all of them have seen the round. -/
theorem Counted.all_present (h : Counted state) (hall : state.semaphore = Fintype.card C) (c : C) :
    state.seen c = state.counter := by
  have hcard := h.present.symm.trans hall
  rw [← Finset.card_univ, Finset.card_filter_eq_iff] at hcard
  exact hcard c (Finset.mem_univ c)

/-- A thread moves, and what it changes is its own. -/
theorem Counted.moves (h : Counted state) {p : Party C} {target : Point}
    (hafter : after.point = Function.update state.point p target)
    (hsame : after.seen = state.seen ∧ after.counter = state.counter ∧
      after.semaphore = state.semaphore)
    (hself : after.Counts p target)
    (hothers : ∀ q, q ≠ p → ∀ x, state.Counts q x → after.Counts q x) : Counted after := by
  obtain ⟨hseen, hcounter, hsemaphore⟩ := hsame
  refine ⟨?_, ?_, ?_⟩
  · rw [hseen, hcounter, hsemaphore]
    exact h.present
  · rw [hseen, hcounter]
    exact h.near
  · rw [hafter]
    exact (Function.forall_update_iff state.point after.Counts).mpr
      ⟨hself, fun q hq => hothers q hq _ (h.counts q)⟩

omit [DecidableEq C] in
/-- What the producer alone changes does not concern the consumers. -/
theorem State.Counts.consumer (hseen : after.seen = state.seen)
    (hiterations : after.iterations = state.iterations) (q : Party C) (hq : q ≠ .producer)
    (x : Point) (h : state.Counts q x) : after.Counts q x := by
  cases q with
  | producer => exact absurd rfl hq
  | consumer c =>
      unfold State.Counts at h ⊢
      rwa [hseen, hiterations]

omit [DecidableEq C] in
/-- A thread goes on within its critical section, or from its end to the head of the loop. -/
theorem State.Counts.goesOn {p : Party C} {x y : Point} (h : state.Counts p x)
    (hwaits : y.waits = x.waits) (hx : x ≠ .start) (hy : y ≠ .start ∧ y ≠ .done) :
    state.Counts p y := by
  cases p with
  | producer =>
      obtain ⟨hrounds, -, hread, -⟩ := h
      exact ⟨hwaits ▸ hrounds, fun heq => absurd heq hy.1, fun _ => hread hx,
        fun heq => absurd heq hy.2⟩
  | consumer c => exact ⟨hy.1, fun hin => h.2.1 (hwaits ▸ hin), fun heq => absurd heq hy.2⟩

theorem Counted.step (h : Counted state) (hstep : Steps state action after) : Counted after := by
  cases hstep with
  | starts hpoint =>
      obtain ⟨hrounds, hzero, -⟩ := h.counts .producer
      rw [hpoint] at hrounds
      exact h.moves rfl ⟨rfl, rfl, rfl⟩
        ⟨hrounds, by simp, fun _ => h.semaphore_start (hzero hpoint), by simp⟩
        (State.Counts.consumer rfl rfl)
  | ends p hpoint hended =>
      have hcounts := h.counts p
      rw [hpoint] at hcounts
      refine h.moves rfl ⟨rfl, rfl, rfl⟩ ?_ fun _ _ _ hq => hq
      cases p with
      | producer => exact ⟨hcounts.1, by simp, fun _ => hcounts.2.2.1 (by simp), fun _ => hended⟩
      | consumer c => exact ⟨by simp, by simp [Point.waits], fun _ => hended⟩
  | begins hpoint hround =>
      obtain ⟨hrounds, -, hread, -⟩ := h.counts .producer
      rw [hpoint] at hrounds hread
      refine h.moves rfl ⟨rfl, rfl, rfl⟩ ⟨?_, by simp, fun _ => hread (by simp), by simp⟩
        (State.Counts.consumer rfl rfl)
      have hrounds : state.counter + state.i = state.iterations := hrounds
      show state.counter + (state.i - 1 + 1) = state.iterations
      omega
  | follows c hpoint hround =>
      exact h.moves rfl ⟨rfl, rfl, rfl⟩ ⟨by simp, fun _ => hround, by simp⟩ fun _ _ _ hq => hq
  | enters p hpoint hfree hawake =>
      refine h.moves rfl ⟨rfl, rfl, rfl⟩ ?_ fun _ _ _ hq => hq
      have hcounts := h.counts p
      rcases hpoint with hpoint | hpoint <;> rw [hpoint] at hcounts <;>
        exact hcounts.goesOn rfl (by simp) (by simp)
  | sleeps p hpoint =>
      have hcounts := h.counts p
      rw [hpoint] at hcounts
      exact h.moves rfl ⟨rfl, rfl, rfl⟩ (hcounts.goesOn rfl (by simp) (by simp))
        fun _ _ _ hq => hq
  | produces hpoint hall =>
      obtain ⟨hrounds, -, hread, -⟩ := h.counts .producer
      rw [hpoint] at hrounds hread
      have hseen := h.all_present (hall.symm.trans (hread (by simp)))
      refine ⟨?_, fun c => ?_, (Function.forall_update_iff state.point _).mpr
        ⟨⟨?_, by simp, fun _ => hread (by simp), by simp⟩, fun q hq => ?_⟩⟩
      · refine (Finset.card_eq_zero.mpr (Finset.filter_eq_empty_iff.mpr fun c _ heq => ?_)).symm
        have heq : state.seen c = state.counter + 1 := heq
        exact Nat.succ_ne_self _ (heq.symm.trans (hseen c))
      · show state.seen c ≤ state.counter + 1 ∧ state.counter + 1 ≤ state.seen c + 1
        have heq := hseen c
        omega
      · have hrounds : state.counter + (state.i + 1) = state.iterations := hrounds
        show state.counter + 1 + state.i = state.iterations
        omega
      · cases q with
        | producer => exact absurd rfl hq
        | consumer c => exact h.counts (.consumer c)
  | consumes c hpoint hround =>
      obtain ⟨hle, hge⟩ := h.near c
      refine ⟨?_, (Function.forall_update_iff state.seen fun _ n => n ≤ state.counter ∧
        state.counter ≤ n + 1).mpr ⟨⟨le_rfl, Nat.le_succ _⟩, fun d _ => h.near d⟩,
        (Function.forall_update_iff state.point _).mpr
          ⟨⟨by simp, by simp [Point.waits], by simp⟩, fun q hq => ?_⟩⟩
      · have hnew : (Finset.univ.filter fun d =>
            Function.update state.seen c state.counter d = state.counter) =
            insert c (Finset.univ.filter fun d => state.seen d = state.counter) := by
          ext d
          by_cases hd : d = c <;> simp [hd]
        have hnotin : c ∉ Finset.univ.filter fun d => state.seen d = state.counter := by
          simpa using hround
        show state.semaphore + 1 = (Finset.univ.filter fun d =>
          Function.update state.seen c state.counter d = state.counter).card
        rw [hnew, Finset.card_insert_of_notMem hnotin, h.present]
      · cases q with
        | producer => exact h.counts .producer
        | consumer d =>
            have hd : d ≠ c := fun heq => hq (congrArg Party.consumer heq)
            obtain ⟨hstart, hround, hended⟩ := h.counts (.consumer d)
            have hseen := Function.update_of_ne hd state.counter state.seen
            exact ⟨hstart, fun hin heq => hround hin (hseen.symm.trans heq),
              fun heq => hseen.trans (hended heq)⟩
  | notifies p hpoint =>
      have hcounts := h.counts p
      rw [hpoint] at hcounts
      exact h.moves rfl ⟨rfl, rfl, rfl⟩ (hcounts.goesOn rfl (by simp) (by simp))
        fun _ _ _ hq => hq
  | wakes p => exact ⟨h.present, h.near, h.counts⟩

omit [Fintype C] in
/-- A thread that is not about to notify moves, and the others sleep for the same reasons. -/
theorem Attended.moves (h : Attended state) {p : Party C} {target : Point}
    (hafter : after.point = Function.update state.point p target)
    (hpoint : state.point p ≠ .notify)
    (hwaiters : ∀ q ∈ after.monitor.waiters, q ∈ state.monitor.waiters ∨ after.Blocked q)
    (hblocked : ∀ q ∈ state.monitor.waiters, state.Blocked q → after.Blocked q) :
    Attended after := by
  intro q hq
  rcases hwaiters q hq with hasleep | hnew
  · refine (h q hasleep).imp (hblocked q hasleep) fun ⟨n, hn⟩ => ⟨n, ?_⟩
    have hnp : n ≠ p := fun heq => hpoint (heq ▸ hn)
    rw [hafter, Function.update_of_ne hnp, hn]
  · exact .inl hnew

omit [Fintype C] in
/-- A notification behind the mutex is in time. -/
theorem Attended.step (h : Attended state) (hguarded : Guarded state.point state.monitor)
    (hstep : Steps state action after) : Attended after := by
  cases hstep with
  | starts hpoint =>
      refine h.moves rfl (by simp [hpoint]) (fun _ => .inl) fun q hq hblocked => ?_
      cases q with
      | producer => cases hpoint.symm.trans (hguarded.asleep _ hq)
      | consumer c => exact hblocked
  | ends p hpoint => exact h.moves rfl (by simp [hpoint]) (fun _ => .inl) fun _ _ hq => hq
  | begins hpoint => exact h.moves rfl (by simp [hpoint]) (fun _ => .inl) fun _ _ hq => hq
  | follows c hpoint => exact h.moves rfl (by simp [hpoint]) (fun _ => .inl) fun _ _ hq => hq
  | enters p hpoint =>
      refine h.moves rfl ?_ (fun _ => .inl) fun _ _ hq => hq
      rcases hpoint with hpoint | hpoint <;> simp [hpoint]
  | sleeps p hpoint hblocked =>
      refine h.moves rfl (by simp [hpoint]) (fun q hq => ?_) fun _ _ hq => hq
      refine (List.mem_append.mp hq).imp_right fun hp => ?_
      rw [List.mem_singleton.mp hp]
      exact hblocked
  | produces hpoint => exact fun _ _ => .inr ⟨.producer, state.leave_point .producer⟩
  | consumes c hpoint => exact fun _ _ => .inr ⟨.consumer c, state.leave_point (.consumer c)⟩
  | notifies p hpoint => exact fun q hq => (by cases hq)
  | wakes p =>
      intro q hq
      exact h q (List.mem_of_mem_erase hq)

/-! ## Runs -/

/-- What holds in every run. -/
structure Keeps (iterations : Nat) (state : State C) : Prop where
  iterations : state.iterations = iterations
  guarded : Guarded state.point state.monitor
  counted : Counted state
  attended : Attended state

omit [Fintype C] in
theorem Steps.iterations (hstep : Steps state action after) :
    after.iterations = state.iterations := by
  cases hstep <;> rfl

omit [DecidableEq C] in
theorem keeps_initial (iterations : Nat) :
    Keeps iterations (benchmarkPingPong C iterations) := by
  refine ⟨rfl, ⟨fun p => ⟨fun hp => ?_, nofun⟩, nofun⟩,
    ⟨?_, fun c => ⟨le_rfl, Nat.zero_le _⟩, fun p => ?_⟩, nofun⟩
  · cases p <;> cases hp
  · refine Finset.card_univ.symm.trans (congrArg Finset.card ?_)
    exact (Finset.filter_true_of_mem fun _ _ => rfl).symm
  · cases p with
    | producer =>
        exact ⟨Nat.zero_add iterations, fun _ => rfl, fun hp => absurd rfl hp, by
          simp [benchmarkPingPong]⟩
    | consumer c =>
        exact ⟨by simp [benchmarkPingPong], by simp [benchmarkPingPong, Point.waits],
          by simp [benchmarkPingPong]⟩

theorem keeps_of_reaches {iterations : Nat} {guard : State C → Action C → Prop}
    (hrun : Reaches step guard (benchmarkPingPong C iterations) state) :
    Keeps iterations state := by
  refine hrun.invariant (keeps_initial iterations) fun _ _ _ h _ hstep => ?_
  have hsteps := step_cases hstep
  exact ⟨hsteps.iterations.trans h.iterations, h.guarded.step hsteps, h.counted.step hsteps,
    h.attended.step h.guarded hsteps⟩

/-- In every run the semaphore counts the consumers that have seen the current round. The
counter of a consumer is at most one round behind, so that no consumer misses a round, and the
number of consumers that the producer has read without the mutex is the right one. -/
theorem in_step {iterations : Nat} {guard : State C → Action C → Prop}
    (hrun : Reaches step guard (benchmarkPingPong C iterations) state) :
    state.counter ≤ iterations ∧
      state.semaphore = (Finset.univ.filter fun c => state.seen c = state.counter).card ∧
      (∀ c, state.seen c ≤ state.counter ∧ state.counter ≤ state.seen c + 1) ∧
      (state.point .producer ≠ .start → state.consumers = Fintype.card C) := by
  have h := keeps_of_reaches hrun
  obtain ⟨hrounds, -, hread, -⟩ := h.counted.counts .producer
  rw [h.iterations] at hrounds
  exact ⟨by omega, h.counted.present, h.counted.near, hread⟩

end

/-- One consumer has seen the round, and the other one sleeps while the producer is about to
notify it. -/
theorem in_step_second : ∃ state : State (Fin 2),
    Reaches step (fun _ _ => True) (benchmarkPingPong (Fin 2) 1) state ∧
      (state.counter, state.semaphore, state.seen 0, state.seen 1) = (1, 1, 0, 1) ∧
      .consumer 0 ∈ state.monitor.waiters ∧ state.consumers = 2 := by
  obtain ⟨state, hrun, hobserved⟩ : ∃ state : State (Fin 2),
      Reaches step (fun _ _ => True) (benchmarkPingPong (Fin 2) 1) state ∧
        ((state.counter, state.semaphore, state.seen 0, state.seen 1), state.monitor.waiters,
          state.point .producer) = ((1, 1, 0, 1), [.consumer 0], .notify) :=
    Reaches.of_observed (fun _ _ => true)
      (List.replicate 3 (.go (.consumer 0)) ++ List.replicate 4 (.go .producer) ++
        List.replicate 3 (.go (.consumer 1)))
      (fun _ _ _ => trivial) (by decide +kernel)
  obtain ⟨hcounters, hrest⟩ := Prod.mk.inj hobserved
  obtain ⟨hwaiters, hpoint⟩ := Prod.mk.inj hrest
  exact ⟨state, hrun, hcounters, by simp [hwaiters], (in_step hrun).2.2.2 (by simp [hpoint])⟩

end ThreadPools.PingPong
