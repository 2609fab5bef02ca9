/-
# The benchmark ends

`notify_all` is called outside of the mutex, after the round has been signalled, so that a
thread may test its condition, and go to sleep again, between the signal and the notification.
No wake-up is lost by this: whoever sleeps has tested a condition that still holds, or is about
to be woken. Spurious wake-ups alone can prolong a run.
-/

import Mathlib.Algebra.BigOperators.Group.Finset.Basic
import Mathlib.Algebra.Group.Action.Defs
import Mathlib.Algebra.Order.BigOperators.Group.Finset
import Mathlib.Data.Fintype.Option
import Mathlib.Tactic.FinCases
import ThreadPools.Concurrency.Potential
import ThreadPools.PingPong.Lockstep

namespace ThreadPools.PingPong

open ThreadPools.Concurrency

variable {C : Type*} [Fintype C]

section

variable [DecidableEq C] {iterations : Nat} {state after : State C}

/-- A thread at any of these points can go on. -/
theorem exists_go (h : Counted state) {p : Party C}
    (hpoint : state.point p = .start ∨ state.point p = .loop ∨ state.point p = .test ∨
      state.point p = .notify) : ∃ after, step state (.go p) = some after := by
  cases p with
  | producer =>
      rcases hpoint with hpoint | hpoint | hpoint | hpoint <;>
        simp only [step, producerThread, hpoint] <;> first | exact ⟨_, rfl⟩ | skip
      · split <;> exact ⟨_, rfl⟩
      · split <;> exact ⟨_, rfl⟩
  | consumer c =>
      have hstart := (h.counts (.consumer c)).1
      rcases hpoint with hpoint | hpoint | hpoint | hpoint <;>
        simp only [step, consumerThread, hpoint] <;> first | exact ⟨_, rfl⟩ | skip
      · exact absurd hpoint hstart
      · split <;> exact ⟨_, rfl⟩
      · split <;> exact ⟨_, rfl⟩

omit [Fintype C] in
theorem exists_enter {p : Party C} (hpoint : state.point p = .lock ∨ state.point p = .wait)
    (hfree : state.monitor.owner = none) (hawake : p ∉ state.monitor.waiters) :
    ∃ after, step state (.go p) = some after := by
  cases p <;> rcases hpoint with hpoint | hpoint <;>
    simp [step, producerThread, consumerThread, hpoint, State.acquire, hfree, hawake]

/-- As long as a thread is there, some thread can go on. -/
theorem Keeps.exists_step (h : Keeps iterations state) {p : Party C}
    (hactive : state.point p ≠ .done) : ∃ q after, step state (.go q) = some after := by
  by_contra hstuck
  have hpoints : ∀ q, state.point q ≠ .start ∧ state.point q ≠ .loop ∧ state.point q ≠ .test ∧
      state.point q ≠ .notify := by
    intro q
    by_contra hpoint
    refine hstuck ⟨q, exists_go h.counted ?_⟩
    simpa only [not_and_or, not_not] using hpoint
  have hfree : state.monitor.owner = none := by
    by_contra howner
    obtain ⟨q, hq⟩ := Option.ne_none_iff_exists'.mp howner
    exact (hpoints q).2.2.1 ((h.guarded.inside q).mpr hq)
  -- everybody is at the end, or asleep for a reason
  have hrest : ∀ q, state.point q = .done ∨ state.point q = .wait ∧ state.Blocked q := by
    intro q
    by_cases hasleep : q ∈ state.monitor.waiters
    · refine .inr ⟨h.guarded.asleep q hasleep, (h.attended q hasleep).resolve_right ?_⟩
      exact fun ⟨n, hn⟩ => (hpoints n).2.2.2 hn
    · left
      have hnot : ¬ (state.point q = .lock ∨ state.point q = .wait) := fun hpoint =>
        hstuck ⟨q, exists_enter hpoint hfree hasleep⟩
      obtain ⟨hstart, hloop, htest, hnotify⟩ := hpoints q
      cases hpoint : state.point q <;> simp_all
  have hseen : ∀ c, state.seen c = state.counter := by
    intro c
    obtain ⟨hrounds, -⟩ := h.counted.counts .producer
    obtain ⟨-, -, hended⟩ := h.counted.counts (.consumer c)
    have hle := (h.counted.near c).1
    rcases hrest (.consumer c) with hdone | ⟨-, hblocked⟩
    · have := hended hdone
      omega
    · exact hblocked
  rcases hrest .producer with hdone | ⟨hwait, hblocked⟩
  · obtain ⟨hrounds, -, -, hi⟩ := h.counted.counts .producer
    rw [hdone] at hrounds hi
    have hcounter : state.counter + (state.i + 0) = state.iterations := hrounds
    rw [hi rfl] at hcounter
    cases p with
    | producer => exact hactive hdone
    | consumer c =>
        obtain ⟨hwait, -⟩ := (hrest (.consumer c)).resolve_left hactive
        obtain ⟨-, hround, -⟩ := h.counted.counts (.consumer c)
        exact hround (by rw [hwait]; rfl) ((hseen c).trans hcounter)
  · obtain ⟨-, -, hread, -⟩ := h.counted.counts .producer
    refine hblocked ((hread (by simp [hwait])).trans ?_)
    rw [h.counted.present, Finset.filter_true_of_mem fun c _ => hseen c, Finset.card_univ]

omit [DecidableEq C] in
/-- At the end all rounds have been produced and seen. -/
theorem Keeps.ended (h : Keeps iterations state) (hdone : ∀ p, state.point p = .done) :
    state.counter = iterations ∧ state.semaphore = Fintype.card C ∧
      ∀ c, state.seen c = iterations := by
  obtain ⟨hrounds, -, -, hi⟩ := h.counted.counts .producer
  rw [hdone] at hrounds hi
  have hcounter : state.counter + (state.i + 0) = state.iterations := hrounds
  rw [hi rfl] at hcounter
  have hseen : ∀ c, state.seen c = iterations := fun c =>
    ((h.counted.counts (.consumer c)).2.2 (hdone _)).trans h.iterations
  have hcounter : state.counter = iterations := hcounter.trans h.iterations
  refine ⟨hcounter, ?_, hseen⟩
  rw [h.counted.present, Finset.filter_true_of_mem fun c _ => (hseen c).trans hcounter.symm,
    Finset.card_univ]

end

/-! ## How long it takes -/

instance : Fintype (Party C) :=
  Fintype.ofEquiv (Option C)
    { toFun := fun o => o.elim .producer .consumer
      invFun := fun p => match p with
        | .producer => none
        | .consumer c => some c
      left_inv := fun o => by cases o <;> rfl
      right_inv := fun p => by cases p <;> rfl }

theorem card_party : Fintype.card (Party C) = Fintype.card C + 1 :=
  (Fintype.ofEquiv_card _).trans Fintype.card_option

/-- The notifications which a thread has still to give. -/
def State.notifications (state : State C) : Party C → Nat
  | .producer => state.i + (state.point .producer).waits.toNat +
      (decide (state.point .producer = .notify)).toNat
  | .consumer c => state.iterations - state.seen c +
      (decide (state.point (.consumer c) = .notify)).toNat

/-- How far a thread is from its next sleep or notification. -/
def Point.distance (asleep : Bool) : Point → Nat
  | .start => 4
  | .loop => 3
  | .lock => 2
  | .test => 1
  | .wait => if asleep then 0 else 2
  | .notify | .done => 0

variable [DecidableEq C]

def State.weigh (state : State C) (p : Party C) : Nat :=
  (2 * Fintype.card C + 4) * state.notifications p +
    (state.point p).distance (state.asleep p)

/-- The steps that are left, but for what spurious wake-ups add to them. -/
def State.rank (state : State C) : Nat := ∑ p, state.weigh p

theorem sum_add_le {f g : Party C → Nat} (p : Party C) (d k l : Nat) (hp : g p + k ≤ f p + l)
    (hothers : ∀ q, q ≠ p → g q ≤ f q + d) :
    ∑ q, g q + k ≤ ∑ q, f q + d * Fintype.card C + l := by
  rw [← Finset.add_sum_erase _ g (Finset.mem_univ p),
    ← Finset.add_sum_erase _ f (Finset.mem_univ p)]
  have hle : ∑ q ∈ Finset.univ.erase p, g q ≤ ∑ q ∈ Finset.univ.erase p, (f q + d) :=
    Finset.sum_le_sum fun q hq => hothers q (Finset.ne_of_mem_erase hq)
  rw [Finset.sum_add_distrib, Finset.sum_const, Finset.card_erase_of_mem (Finset.mem_univ p),
    Finset.card_univ, card_party, Nat.add_sub_cancel, smul_eq_mul] at hle
  rw [Nat.mul_comm d]
  omega

section

variable {iterations : Nat} {state after : State C} {action : Action C}

/-- A step costs nothing to the threads that it does not concern. -/
theorem State.weigh_le {q : Party C}
    (hnotifications : after.notifications q = state.notifications q)
    (hpoint : after.point q = state.point q)
    (hasleep : q ∈ state.monitor.waiters → q ∈ after.monitor.waiters) :
    after.weigh q ≤ state.weigh q := by
  unfold State.weigh State.asleep
  rw [hnotifications, hpoint]
  refine Nat.add_le_add_left ?_ _
  cases state.point q <;> simp only [Point.distance] <;> first | exact le_rfl | skip
  by_cases h : q ∈ state.monitor.waiters
  · simp [h, hasleep h]
  · simp [h]
    split <;> omega

/-- A notification may wake everybody. -/
theorem State.weigh_le_add {q : Party C}
    (hnotifications : after.notifications q = state.notifications q)
    (hpoint : after.point q = state.point q) : after.weigh q ≤ state.weigh q + 2 := by
  unfold State.weigh State.asleep
  rw [hnotifications, hpoint]
  rw [Nat.add_assoc]
  refine Nat.add_le_add_left ?_ _
  cases state.point q <;> simp only [Point.distance] <;> first | omega | skip
  split <;> omega

omit [Fintype C] in
/-- A step of one thread leaves the notifications of the others alone. -/
theorem notifications_other {p q : Party C} {x : Point} (hq : q ≠ p)
    (hafter : after.point = Function.update state.point p x)
    (hiterations : after.iterations = state.iterations)
    (hi : p ≠ .producer → after.i = state.i)
    (hseen : ∀ c, p ≠ .consumer c → after.seen c = state.seen c) :
    after.notifications q = state.notifications q ∧ after.point q = state.point q := by
  have hpoint : after.point q = state.point q := by rw [hafter, Function.update_of_ne hq]
  refine ⟨?_, hpoint⟩
  cases q with
  | producer => rw [State.notifications, State.notifications, hpoint, hi hq.symm]
  | consumer c =>
      rw [State.notifications, State.notifications, hpoint, hiterations, hseen c hq.symm]

/-- A thread comes nearer to its next sleep or notification. -/
theorem rank_lt {p : Party C} {x y : Point} (hpoint : state.point p = x)
    (hafter : after.point = Function.update state.point p y)
    (hiterations : after.iterations = state.iterations)
    (hi : p ≠ .producer → after.i = state.i)
    (hseen : ∀ c, p ≠ .consumer c → after.seen c = state.seen c)
    (hwaiters : ∀ q, q ≠ p → q ∈ state.monitor.waiters → q ∈ after.monitor.waiters)
    (hnotifications : after.notifications p = state.notifications p)
    (hdistance : y.distance (decide (p ∈ after.monitor.waiters)) <
      x.distance (decide (p ∈ state.monitor.waiters))) : after.rank + 1 ≤ state.rank := by
  have hself : after.weigh p + 1 ≤ state.weigh p := by
    have hy : after.point p = y := by rw [hafter, Function.update_self]
    unfold State.weigh State.asleep
    rw [hnotifications, hy, hpoint]
    omega
  have hsum := sum_add_le p 0 1 0 hself fun q hq => by
    obtain ⟨hsame, hstays⟩ := notifications_other hq hafter hiterations hi hseen
    exact State.weigh_le hsame hstays (hwaiters q hq)
  rwa [Nat.zero_mul] at hsum

theorem rank_go (hcounted : Counted state) {p : Party C} (hstep : Steps state (.go p) after) :
    after.rank + 1 ≤ state.rank := by
  cases hstep with
  | starts hpoint =>
      refine rank_lt hpoint rfl rfl (fun hp => absurd rfl hp) (fun _ _ => rfl) (fun _ _ => id) ?_
        (by simp [Point.distance])
      simp [State.notifications, State.moveTo, hpoint, Point.waits]
  | ends p hpoint =>
      refine rank_lt hpoint rfl rfl (fun _ => rfl) (fun _ _ => rfl) (fun _ _ => id) ?_
        (by simp [Point.distance])
      cases p <;> simp [State.notifications, State.moveTo, hpoint, Point.waits]
  | begins hpoint hround =>
      refine rank_lt hpoint rfl rfl (fun hp => absurd rfl hp) (fun _ _ => rfl) (fun _ _ => id) ?_
        (by simp [Point.distance])
      simp only [State.notifications, State.moveTo, hpoint, Function.update_self, Point.waits]
      simp
      omega
  | follows c hpoint =>
      refine rank_lt hpoint rfl rfl (fun _ => rfl) (fun _ _ => rfl) (fun _ _ => id) ?_
        (by simp [Point.distance])
      simp [State.notifications, State.moveTo, hpoint]
  | enters p hpoint hfree hawake =>
      rcases hpoint with hpoint | hpoint <;>
        refine rank_lt hpoint rfl rfl (fun _ => rfl) (fun _ _ => rfl) (fun _ _ => id) ?_
          (by simp [Point.distance, hawake]) <;>
        cases p <;> simp [State.notifications, State.moveTo, hpoint, Point.waits]
  | sleeps p hpoint =>
      refine rank_lt hpoint rfl rfl (fun _ => rfl) (fun _ _ => rfl)
        (fun _ _ => List.mem_append_left _) ?_ (by simp [Point.distance, State.sleep])
      cases p <;> simp [State.notifications, State.sleep, State.moveTo, hpoint, Point.waits]
  | produces hpoint =>
      refine rank_lt hpoint rfl rfl (fun _ => rfl) (fun _ _ => rfl) (fun _ _ => id) ?_
        (by simp [Point.distance])
      simp [State.notifications, State.leave, State.moveTo, hpoint, Point.waits]
  | consumes c hpoint hround =>
      refine rank_lt hpoint rfl rfl (fun _ => rfl) (fun d hd => ?_) (fun _ _ => id) ?_
        (by simp [Point.distance])
      · exact Function.update_of_ne (fun heq => hd (congrArg Party.consumer heq.symm)) _ _
      · obtain ⟨hrounds, -⟩ := hcounted.counts .producer
        obtain ⟨hle, hge⟩ := hcounted.near c
        simp [State.notifications, State.leave, State.moveTo, hpoint]
        omega
  | notifies p hpoint =>
      have hless : (state.notifyAll p).notifications p + 1 = state.notifications p := by
        cases p <;> simp [State.notifications, State.notifyAll, State.moveTo, hpoint, Point.waits]
      have hself : (state.notifyAll p).weigh p + (2 * Fintype.card C + 1) ≤ state.weigh p := by
        have hloop : (state.notifyAll p).point p = .loop := by
          simp [State.notifyAll, State.moveTo]
        unfold State.weigh State.asleep
        rw [← hless, hloop, hpoint, Nat.mul_succ]
        simp only [Point.distance]
        omega
      have hsum := sum_add_le p 2 _ 0 hself fun q hq => by
        have hsame : (state.notifyAll p).notifications q = state.notifications q ∧
            (state.notifyAll p).point q = state.point q :=
          notifications_other hq rfl rfl (fun _ => rfl) fun _ _ => rfl
        exact State.weigh_le_add hsame.1 hsame.2
      unfold State.rank
      omega

/-- What an action brings in. -/
def Action.charge : Action C → Nat
  | .go _ => 0
  | .spurious _ => 2

omit [DecidableEq C] [Fintype C] in
theorem sum_charge (history : List (Action C)) :
    (history.map Action.charge).sum = 2 * history.countP (!·.isGo) := by
  induction history with
  | nil => rfl
  | cons action history ih =>
      rw [List.map_cons, List.sum_cons, List.countP_cons, ih]
      cases action with
      | go p => simp [Action.charge]
      | spurious p =>
          rw [Action.isGo_spurious, Bool.not_false, if_pos rfl, Action.charge]
          omega

/-- A spurious wake-up gives a thread two steps more. -/
theorem rank_spurious {p : Party C} (hstep : Steps state (.spurious p) after) :
    after.rank ≤ state.rank + 2 := by
  cases hstep with
  | wakes p hasleep =>
      have hself : State.weigh { state with monitor := state.monitor.wakeSpuriously p } p + 0 ≤
          state.weigh p + 2 := State.weigh_le_add rfl rfl
      have hsum := sum_add_le p 0 0 2 hself fun q hq => State.weigh_le rfl rfl fun hmem =>
        (List.mem_erase_of_ne hq).mpr hmem
      rwa [Nat.zero_mul] at hsum

theorem rank_initial (iterations : Nat) : (benchmarkPingPong C iterations).rank =
    (Fintype.card C + 1) * ((2 * Fintype.card C + 4) * iterations) + 3 * Fintype.card C + 4 := by
  have hproducer : (benchmarkPingPong C iterations).weigh .producer =
      (2 * Fintype.card C + 4) * iterations + 4 := rfl
  have hconsumers : ∀ p ∈ Finset.univ.erase Party.producer,
      (benchmarkPingPong C iterations).weigh p = (2 * Fintype.card C + 4) * iterations + 3 := by
    intro p hp
    cases p with
    | producer => exact absurd rfl (Finset.ne_of_mem_erase hp)
    | consumer c => rfl
  rw [State.rank, ← Finset.add_sum_erase _ _ (Finset.mem_univ .producer), hproducer,
    Finset.sum_congr rfl hconsumers, Finset.sum_const,
    Finset.card_erase_of_mem (Finset.mem_univ _), Finset.card_univ, card_party,
    Nat.add_sub_cancel, smul_eq_mul]
  generalize (2 * Fintype.card C + 4) * iterations = each
  rw [Nat.mul_add, Nat.add_mul, Nat.one_mul]
  omega

/-- Apart from spurious wake-ups the benchmark takes boundedly many steps. Until all threads
have ended one of them can go on, and at the end all rounds have been produced and seen. -/
theorem benchmark_ends {guard : State C → Action C → Prop} {history : List (Action C)}
    (hrun : Emits step guard (fun _ action => [action]) (benchmarkPingPong C iterations)
      history state) :
    history.countP Action.isGo ≤
        (Fintype.card C + 1) * ((2 * Fintype.card C + 4) * iterations) + 3 * Fintype.card C + 4 +
          2 * history.countP (!·.isGo) ∧
      ((∃ p, state.point p ≠ .done) → ∃ p after, step state (.go p) = some after) ∧
      ((∀ p, state.point p = .done) → state.counter = iterations ∧
        state.semaphore = Fintype.card C ∧ ∀ c, state.seen c = iterations) := by
  have hkeeps := keeps_of_reaches hrun.reaches
  refine ⟨?_, fun ⟨p, hp⟩ => hkeeps.exists_step hp, hkeeps.ended⟩
  have hrank : history.countP Action.isGo + state.rank ≤
      (benchmarkPingPong C iterations).rank + (history.map Action.charge).sum :=
    hrun.countP_add_le fun before action next _ hprior _ hstep => by
      cases action with
      | go p =>
          have hlt := rank_go (keeps_of_reaches hprior).counted (step_cases hstep)
          rw [Action.isGo_go, Bool.toNat_true, Nat.add_comm]
          exact hlt
      | spurious p =>
          rw [Action.isGo_spurious, Bool.toNat_false, Nat.zero_add]
          exact rank_spurious (step_cases hstep)
  rw [rank_initial, sum_charge] at hrank
  omega

end

/-- A consumer sleeps before the round, and another one sees the round before the notification;
both come to the end. -/
theorem benchmark_ends_two : ∃ (history : List (Action (Fin 2))) (state : State (Fin 2)),
    Emits step (fun _ _ => True) (fun _ action => [action]) (benchmarkPingPong (Fin 2) 1)
      history state ∧ state.counter = 1 ∧ state.semaphore = 2 ∧ ∀ c, state.seen c = 1 := by
  obtain ⟨state, hrun, hobserved⟩ : ∃ state : State (Fin 2),
      Reaches step (fun _ _ => True) (benchmarkPingPong (Fin 2) 1) state ∧
        [state.point .producer, state.point (.consumer 0), state.point (.consumer 1)] =
          [.done, .done, .done] :=
    Reaches.of_observed (fun _ _ => true)
      (List.replicate 3 (.go (.consumer 0)) ++ List.replicate 4 (.go .producer) ++
        List.replicate 3 (.go (.consumer 1)) ++ [.go .producer] ++
        List.replicate 3 (.go (.consumer 0)) ++
        [.go (.consumer 1), .go .producer, .go (.consumer 0), .go (.consumer 1)])
      (fun _ _ _ => trivial) (by decide +kernel)
  obtain ⟨history, hemits⟩ := hrun.emits fun _ action => [action]
  simp only [List.cons.injEq, and_true] at hobserved
  obtain ⟨hproducer, hfirst, hsecond⟩ := hobserved
  refine ⟨history, state, hemits, (benchmark_ends hemits).2.2 fun p => ?_⟩
  cases p with
  | producer => exact hproducer
  | consumer c =>
      fin_cases c
      · exact hfirst
      · exact hsecond

end ThreadPools.PingPong
