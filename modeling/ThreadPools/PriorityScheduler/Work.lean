/-
# No item waits beside an idle thread

`post` notifies one of the threads that wait in `run()`, and a thread that has executed a
function looks at the queue before it waits again. So the threads that are about to look at
the queue are at least as many as its items whenever some thread is asleep. A `stop()` and
the constructor of an executor do not disturb this: a thread returns only when the flag is
set, and whoever sets the flag wakes everybody.
-/

import Mathlib.Data.Set.Card
import ThreadPools.Concurrency.WakeUps
import ThreadPools.PriorityScheduler.Stop

namespace ThreadPools.PriorityScheduler

open ThreadPools.Concurrency

variable {T : Type*}

/-- The points from which a thread comes to the queue without waiting, or wakes a thread that
does. -/
def Point.looks : Point → Bool
  | .run .lock | .run .testStopped | .run .testQueue | .run .blocked | .run .decide
  | .run .take | .run .relock | .post _ .notify => true
  | _ => false

/-- The thread is awake and about to look at the queue, or about to wake one that is. -/
def State.Looks (state : State T) (t : T) : Prop :=
  (state.thread t).point.looks = true ∧ t ∉ state.scheduler.monitor.waiters

/-- Nobody is asleep, or enough threads look at the queue. -/
def State.Attended (state : State T) : Prop :=
  state.scheduler.monitor.waiters = [] ∨
    (state.scheduler.queue.length : ℕ∞) ≤ {t | state.Looks t}.encard

/-- What is known about the threads that wait. -/
structure Watched (state : State T) : Prop where
  inside : ∀ t, (state.thread t).point.inside = true → state.scheduler.monitor.owner = some t
  asleep : ∀ t ∈ state.scheduler.monitor.waiters, (state.thread t).point = .run .blocked
  nodup : state.scheduler.monitor.waiters.Nodup
  /-- a thread that is going to wait has found the queue empty -/
  empty : ∀ t, (state.thread t).point = .run .block → state.scheduler.queue = []
  /-- and the flag not set -/
  unstopped : ∀ t, (state.thread t).point = .run .testQueue ∨
    (state.thread t).point = .run .block → state.scheduler.stopped = false
  stopped : state.scheduler.stopped = true →
    state.scheduler.monitor.waiters = [] ∨ ∃ t, (state.thread t).point = .stop .notify
  attended : state.Attended

theorem watched_initial (stopped : Bool) : Watched (initial stopped : State T) where
  inside := nofun
  asleep := nofun
  nodup := .nil
  empty := nofun
  unstopped := by rintro t (h | h) <;> cases h
  stopped _ := .inl rfl
  attended := .inl rfl

variable [DecidableEq T] {state after : State T} {action : Action T} {t : T}
  {s next : Scheduler T} {point target : Point} {choice : Nat}

/-! ## What a step does to the sleepers -/

theorem Moves.of_empty (h : Moves t s point next target)
    (htarget : target = .run .block ∨ target = .undefined) :
    point = .run .testQueue ∨ point = .run .take := by
  cases h with
  | acquire _ _ _ hpoints =>
      rcases hpoints with ⟨item, -, rfl⟩ | ⟨-, rfl⟩ | ⟨-, rfl⟩ <;>
        rcases htarget with htarget | htarget <;> cases htarget
  | noWork => exact .inl rfl
  | undefined => exact .inr rfl
  | _ => rcases htarget with htarget | htarget <;> cases htarget

/-- `run()` waits only for an empty queue, and only then is there no top. -/
theorem code_empty (h : code t choice point s = some (next, target))
    (htarget : target = .run .block ∨ target = .undefined) : s.queue = [] := by
  rcases (code_moves h).of_empty htarget with rfl | rfl
  · cases h
    by_cases hempty : s.queue.isEmpty
    · exact List.isEmpty_iff.mp hempty
    · rw [if_neg hempty] at htarget
      rcases htarget with htarget | htarget <;> cases htarget
  · simp only [code, run] at h
    split at h
    · next hempty => exact List.isEmpty_iff.mp hempty
    · obtain ⟨item, -, ⟨⟩⟩ := Option.map_eq_some_iff.mp h
      rcases htarget with htarget | htarget <;> cases htarget

/-- A thread inside the wait goes on only when it has been woken. -/
theorem code_awake (h : code t choice (.run .blocked) s = some (next, target)) :
    t ∉ s.monitor.waiters :=
  (Option.ite_none_right_eq_some.mp h).1.2

/-- Nobody falls asleep except at the wait. -/
theorem Moves.waiters_cases (h : Moves t s point next target) :
    next.monitor.waiters.Sublist s.monitor.waiters ∨
      point = .run .block ∧ target = .run .blocked ∧
        next.monitor.waiters = s.monitor.waiters ++ [t] := by
  cases h with
  | notifyOne item choice => exact .inl (s.monitor.signal_waiters_sublist choice)
  | notifyAll => exact .inl (List.nil_sublist _)
  | block => exact .inr ⟨rfl, rfl, rfl⟩
  | _ => exact .inl (List.Sublist.refl _)

/-- The queue changes inside the mutex only. -/
theorem Moves.queue (h : Moves t s point next target) :
    next.queue = s.queue ∨ point.inside = true := by
  cases h with
  | push | take => exact .inr rfl
  | _ => exact .inl rfl

/-- The second operand of the test is looked at when the first one is false. -/
theorem Moves.unstopped (h : Moves t s point next target)
    (hpoint : point = .run .testQueue → s.stopped = false)
    (htarget : target = .run .testQueue ∨ target = .run .block) : next.stopped = false := by
  cases h with
  | acquire _ _ _ hpoints =>
      rcases hpoints with ⟨item, -, rfl⟩ | ⟨-, rfl⟩ | ⟨-, rfl⟩ <;>
        rcases htarget with htarget | htarget <;> cases htarget
  | noStop hstopped => exact hstopped
  | noWork => exact hpoint rfl
  | _ => rcases htarget with htarget | htarget <;> cases htarget

/-- Whoever sets the flag wakes the sleepers next. -/
theorem Moves.stopped_cases (h : Moves t s point next target) (hstopped : next.stopped = true)
    (hblock : point = .run .block → s.stopped = false) :
    target = .stop .notify ∨ next.monitor.waiters = [] ∨
      s.stopped = true ∧ point ≠ .stop .notify ∧
        (s.monitor.waiters = [] → next.monitor.waiters = []) := by
  cases h with
  | set => exact .inl rfl
  | notifyAll => exact .inr (.inl rfl)
  | block => exact absurd (hstopped.symm.trans (hblock rfl)) nofun
  | notifyOne item choice =>
      refine .inr (.inr ⟨hstopped, nofun, fun hnil => ?_⟩)
      exact List.sublist_nil.mp (hnil ▸ s.monitor.signal_waiters_sublist choice)
  | acquire _ _ _ hpoints =>
      refine .inr (.inr ⟨hstopped, ?_, id⟩)
      rcases hpoints with ⟨item, rfl, -⟩ | ⟨rfl, -⟩ | ⟨rfl | rfl | rfl, -⟩ <;> rintro ⟨⟩
  | release _ hpoints =>
      refine .inr (.inr ⟨hstopped, ?_, id⟩)
      rcases hpoints with ⟨item, rfl⟩ | rfl | rfl <;> rintro ⟨⟩
  | hasWork _ hpoints =>
      refine .inr (.inr ⟨hstopped, ?_, id⟩)
      rcases hpoints with ⟨rfl, -⟩ | rfl <;> rintro ⟨⟩
  | _ => exact .inr (.inr ⟨hstopped, nofun, id⟩)

/-! ## Who looks at the queue -/

/-- What a step does to the queue and to those who look at it. -/
inductive Looked (t : T) (s next : Scheduler T) (point target : Point) : Prop
  /-- the thread goes on looking -/
  | keeps (hqueue : next.queue = s.queue) (hlooks : point.looks = true → target.looks = true)
  /-- a new item, and a thread that is about to notify -/
  | more (item : Item) (hqueue : next.queue = s.queue ++ [item]) (hpoint : point.looks = false)
      (hlooks : target.looks = true)
  /-- an item less -/
  | fewer (hqueue : next.queue.length + 1 = s.queue.length)
  /-- there is nothing to look for -/
  | nothing (hqueue : next.queue = [])
  /-- a sleeper is woken -/
  | wakes (hqueue : next.queue = s.queue) (hpoint : ∃ item, point = .post item .notify)
      (hwakes : ∃ choice, next.monitor = s.monitor.signal choice)
  /-- `run()` returns -/
  | leaves (hstopped : s.stopped = true) (hmonitor : next.monitor = s.monitor)
      (hpoint : point = .run .decide)

omit [DecidableEq T] in
theorem Scheduler.length_take {item : Item} (htop : s.top choice = some item) :
    (s.take choice item).queue.length + 1 = s.queue.length := by
  have hget := (Option.filter_eq_some_iff.mp htop).1
  obtain ⟨hlt, -⟩ := List.getElem?_eq_some_iff.mp hget
  have hlength : (s.queue.eraseIdx choice).length = s.queue.length - 1 :=
    List.length_eraseIdx_of_lt hlt
  simp only [Scheduler.take, hlength]
  omega

theorem code_looked (h : code t choice point s = some (next, target))
    (hempty : point = .run .block → s.queue = []) : Looked t s next point target := by
  have hnothing (htarget : target = .run .block ∨ target = .undefined)
      (hqueue : next.queue = s.queue) : Looked t s next point target :=
    .nothing (hqueue.trans (code_empty h htarget))
  have hmoves := code_moves h
  cases hmoves with
  | acquire _ _ _ hpoints =>
      refine .keeps rfl ?_
      rcases hpoints with ⟨item, rfl, rfl⟩ | ⟨rfl, rfl⟩ | ⟨rfl | rfl | rfl, rfl⟩ <;> exact id
  | push item => exact .more item rfl rfl rfl
  | notifyOne item choice => exact .wakes rfl ⟨item, rfl⟩ ⟨choice, rfl⟩
  | release _ hpoints =>
      refine .keeps rfl ?_
      rcases hpoints with ⟨item, rfl⟩ | rfl | rfl <;> rintro ⟨⟩
  | hasWork _ hpoints => exact .keeps rfl fun _ => rfl
  | noStop => exact .keeps rfl fun _ => rfl
  | goOn => exact .keeps rfl fun _ => rfl
  | noWork => exact hnothing (.inl rfl) rfl
  | undefined => exact hnothing (.inr rfl) rfl
  | block => exact .nothing (hempty rfl)
  | leave hstopped => exact .leaves hstopped rfl rfl
  | take choice item htop => exact .fewer (Scheduler.length_take htop)
  | set | notifyAll | stopped => exact .keeps rfl (by rintro ⟨⟩)

/-! ## The invariant -/

variable {depth : Nat}

/-- A thread that looks at the queue is not disturbed by the steps of another one. -/
theorem State.Looks.of_other {other : T} (h : state.Looks other) (hother : other ≠ t)
    (hwaiters : ∀ x ∈ next.monitor.waiters, x ∈ state.scheduler.monitor.waiters ∨ x = t) :
    State.Looks ⟨next, Function.update state.thread t ⟨target, depth⟩⟩ other := by
  refine ⟨by simpa [hother] using h.1, fun hasleep => ?_⟩
  rcases hwaiters other hasleep with hbefore | heq
  · exact h.2 hbefore
  · exact hother heq

theorem Watched.attended_go (h : Watched state)
    (hcode : code t choice (state.thread t).point state.scheduler = some (next, target)) :
    State.Attended ⟨next, Function.update state.thread t ⟨target, depth⟩⟩ := by
  have hmoves := code_moves hcode
  have hasleep := h.asleep t
  have hempty := h.empty t
  have hlooked := code_looked hcode hempty
  by_cases hblock : (state.thread t).point = .run .block
  · rw [hblock] at hcode
    cases hcode
    refine .inr ?_
    simp [hempty hblock]
  have hsublist := hmoves.waiters_cases.resolve_right fun hwaits => hblock hwaits.1
  by_cases hnil : state.scheduler.monitor.waiters = []
  · exact .inl (List.sublist_nil.mp (hnil ▸ hsublist))
  have hcount := h.attended.resolve_left hnil
  have hothers : {x | state.Looks x} ⊆ insert t
      {x | State.Looks ⟨next, Function.update state.thread t ⟨target, depth⟩⟩ x} := by
    intro x hx
    by_cases heq : x = t
    · exact .inl heq
    · exact .inr (hx.of_other heq fun y hy => .inl (hsublist.mem hy))
  have hself (hlooks : target.looks = true) (hawake : t ∉ next.monitor.waiters) :
      State.Looks ⟨next, Function.update state.thread t ⟨target, depth⟩⟩ t :=
    ⟨by simpa using hlooks, hawake⟩
  refine .inr ?_
  cases hlooked with
  | keeps hqueue hlooks =>
      refine hqueue ▸ hcount.trans (Set.encard_le_encard fun x hx => ?_)
      rcases hothers hx with rfl | hx'
      · exact hself (hlooks hx.1) fun hmem => hx.2 (hsublist.mem hmem)
      · exact hx'
  | more item hqueue hpoint hlooks =>
      have hout : t ∉ {x | state.Looks x} := fun hmem => by
        rw [hmem.1] at hpoint
        cases hpoint
      have hawake : t ∉ next.monitor.waiters := fun hmem => by
        rw [hasleep (hsublist.mem hmem)] at hpoint
        cases hpoint
      have hsub : insert t {x | state.Looks x} ⊆
          {x | State.Looks ⟨next, Function.update state.thread t ⟨target, depth⟩⟩ x} :=
        Set.insert_subset (hself hlooks hawake) fun x hx =>
          (hothers hx).resolve_left fun heq => hout (heq ▸ hx)
      calc (next.queue.length : ℕ∞)
          = state.scheduler.queue.length + 1 := by simp [hqueue]
        _ ≤ {x | state.Looks x}.encard + 1 := by gcongr
        _ = (insert t {x | state.Looks x}).encard := (Set.encard_insert_of_notMem hout).symm
        _ ≤ _ := Set.encard_le_encard hsub
  | fewer hqueue =>
      have hle : ((next.queue.length + 1 : Nat) : ℕ∞) ≤
          {x | State.Looks ⟨next, Function.update state.thread t ⟨target, depth⟩⟩ x}.encard + 1 :=
        hqueue ▸ (hcount.trans (Set.encard_le_encard hothers)).trans (Set.encard_insert_le _ _)
      rw [Nat.cast_add, Nat.cast_one] at hle
      exact (ENat.add_le_add_iff_right ENat.one_ne_top).mp hle
  | nothing hqueue => simp [hqueue]
  | wakes hqueue hpoint hwakes =>
      obtain ⟨item, hpoint⟩ := hpoint
      obtain ⟨choice, hwakes⟩ := hwakes
      obtain ⟨woken, hmem, hwoken⟩ := state.scheduler.monitor.exists_woken h.nodup hnil choice
      have hwaits := h.asleep woken hmem
      have hne : woken ≠ t := by
        rintro rfl
        cases hpoint.symm.trans hwaits
      have hout : woken ∉ {x | state.Looks x} := fun hlooks => hlooks.2 hmem
      have hin : State.Looks ⟨next, Function.update state.thread t ⟨target, depth⟩⟩ woken :=
        ⟨by simp [hne, hwaits, Point.looks], hwakes ▸ hwoken⟩
      have hle : (state.scheduler.queue.length : ℕ∞) + 1 ≤
          {x | State.Looks ⟨next, Function.update state.thread t ⟨target, depth⟩⟩ x}.encard + 1 :=
        calc (state.scheduler.queue.length : ℕ∞) + 1
            ≤ {x | state.Looks x}.encard + 1 := by gcongr
          _ = (insert woken {x | state.Looks x}).encard :=
              (Set.encard_insert_of_notMem hout).symm
          _ ≤ _ := Set.encard_le_encard (Set.insert_subset (.inr hin) hothers)
          _ ≤ _ := Set.encard_insert_le _ _
      exact hqueue ▸ (ENat.add_le_add_iff_right ENat.one_ne_top).mp hle
  | leaves hstopped hmonitor hpoint =>
      rcases h.stopped hstopped with hnone | ⟨other, hother⟩
      · exact absurd hnone hnil
      · have howner := h.inside other (by rw [hother]; rfl)
        have hsame : other = t :=
          Option.some.inj (howner.symm.trans (h.inside t (by rw [hpoint]; rfl)))
        subst hsame
        cases hpoint.symm.trans hother

theorem Watched.go (h : Watched state)
    (hcode : code t choice (state.thread t).point state.scheduler = some (next, target)) :
    Watched ⟨next, Function.update state.thread t ⟨target, depth⟩⟩ := by
  have hmoves := code_moves hcode
  have hinside := h.inside t
  -- whoever is inside the mutex is the only one there
  have halone {other : T} (hother : (state.thread other).point.inside = true)
      (ht : (state.thread t).point.inside = true) : other = t :=
    Option.some.inj ((h.inside other hother).symm.trans (hinside ht))
  have hwaiters := hmoves.waiters_cases
  refine ⟨?_, fun other hmem => ?_, ?_, ?_, ?_, fun hstopped => ?_, h.attended_go hcode⟩
  · exact update_point (fun other p => p.inside = true → next.monitor.owner = some other)
      (hmoves.owner_self hinside) fun other hne hpoint =>
        hmoves.owner_other hinside hne (h.inside other hpoint)
  · by_cases heq : other = t
    · subst heq
      rcases hwaiters with hsublist | ⟨-, htarget, -⟩
      · have hpoint := h.asleep other (hsublist.mem hmem)
        rw [hpoint] at hcode
        exact absurd (hsublist.mem hmem) (code_awake hcode)
      · simpa using htarget
    · have hbefore : other ∈ state.scheduler.monitor.waiters := by
        rcases hwaiters with hsublist | ⟨-, -, happend⟩
        · exact hsublist.mem hmem
        · rw [happend] at hmem
          exact (List.mem_append.mp hmem).resolve_right fun hlast =>
            heq (List.mem_singleton.mp hlast)
      simpa [heq] using h.asleep other hbefore
  · rcases hwaiters with hsublist | ⟨hpoint, -, happend⟩
    · exact h.nodup.sublist hsublist
    · show next.monitor.waiters.Nodup
      rw [happend]
      refine List.nodup_append.mpr ⟨h.nodup, List.nodup_singleton t, ?_⟩
      rintro x hx y hy rfl
      cases List.mem_singleton.mp hy
      cases hpoint.symm.trans (h.asleep _ hx)
  · refine update_point (fun _ p => p = .run .block → next.queue = []) (fun htarget => ?_)
      fun other hne hpoint => ?_
    · have htarget : target = .run .block := htarget
      have hpoint : (state.thread t).point = .run .testQueue := by
        rcases hmoves.of_empty (.inl htarget) with hpoint | hpoint
        · exact hpoint
        · rw [hpoint] at hcode
          simp only [code, run] at hcode
          split at hcode
          · cases hcode
            cases htarget
          · obtain ⟨item, -, ⟨⟩⟩ := Option.map_eq_some_iff.mp hcode
            cases htarget
      have hqueue := code_empty hcode (.inl htarget)
      rw [hpoint] at hcode
      cases hcode
      exact hqueue
    · rcases hmoves.queue with hqueue | hpoint'
      · exact hqueue.trans (h.empty other hpoint)
      · exact absurd (halone (by rw [hpoint]; rfl) hpoint') hne
  · refine update_point
      (fun _ p => p = .run .testQueue ∨ p = .run .block → next.stopped = false)
      (hmoves.unstopped fun hpoint => h.unstopped t (.inl hpoint)) fun other hne hpoint => ?_
    rcases hmoves.flags with ⟨-, hflag⟩ | ⟨hset, -, -⟩
    · exact hflag.trans (h.unstopped other hpoint)
    · refine absurd (halone ?_ (by rw [hset]; rfl)) hne
      rcases hpoint with hpoint | hpoint <;> rw [hpoint] <;> rfl
  · rcases hmoves.stopped_cases hstopped fun hpoint => h.unstopped t (.inr hpoint) with
      htarget | hnil | ⟨hbefore, hpoint, hkeeps⟩
    · exact .inr ⟨t, by simpa using htarget⟩
    · exact .inl hnil
    · rcases h.stopped hbefore with hnil | ⟨other, hother⟩
      · exact .inl (hkeeps hnil)
      · have hne : other ≠ t := by
          rintro rfl
          exact hpoint hother
        exact .inr ⟨other, by simpa [hne] using hother⟩

/-- A thread goes on outside of the methods, or enters one, or an executor is constructed. -/
theorem Watched.outside (h : Watched state) (thread : Thread)
    (hinside : thread.point.inside = false)
    (hlooks : (state.thread t).point.looks = false)
    (hnotify : (state.thread t).point ≠ .stop .notify) {s : Bool}
    (hstopped : s = true → state.scheduler.stopped = true) :
    Watched
      { scheduler := { state.scheduler with stopped := s }
        thread := Function.update state.thread t thread } := by
  have hne (p : Point) (hp : p.inside = true) : thread.point ≠ p := fun heq => by
    rw [heq, hp] at hinside
    cases hinside
  have hawake : t ∉ state.scheduler.monitor.waiters := fun hmem => by
    rw [h.asleep t hmem] at hlooks
    cases hlooks
  refine ⟨?_, fun other hmem => ?_, h.nodup, ?_, ?_, fun hset => ?_, ?_⟩
  · exact update_point
      (fun other p => p.inside = true → state.scheduler.monitor.owner = some other)
      (fun hin => absurd (hin.symm.trans hinside) nofun) fun other _ => h.inside other
  · have heq : other ≠ t := fun heq => hawake (heq ▸ hmem)
    simpa [heq] using h.asleep other hmem
  · exact update_point (fun _ p => p = .run .block → state.scheduler.queue = [])
      (fun heq => absurd heq (hne _ rfl)) fun other _ => h.empty other
  · refine update_point (fun _ p => p = .run .testQueue ∨ p = .run .block → s = false)
      (fun heq => ?_) fun other _ hpoint => ?_
    · rcases heq with heq | heq <;> exact absurd heq (hne _ rfl)
    · refine Bool.eq_false_iff.mpr fun hset => ?_
      exact absurd ((hstopped hset).symm.trans (h.unstopped other hpoint)) nofun
  · rcases h.stopped (hstopped hset) with hnil | ⟨other, hother⟩
    · exact .inl hnil
    · have heq : other ≠ t := by
        rintro rfl
        exact hnotify hother
      exact .inr ⟨other, by simpa [heq] using hother⟩
  · refine h.attended.imp id fun hcount => hcount.trans (Set.encard_le_encard fun x hx => ?_)
    have heq : x ≠ t := by
      rintro rfl
      exact absurd (hx.1.symm.trans hlooks) nofun
    exact ⟨by simpa [heq] using hx.1, hx.2⟩

theorem Watched.step (h : Watched state) (hstep : step state action = some after) :
    Watched after := by
  cases action with
  | call t method =>
      obtain ⟨hclient, ⟨⟩⟩ := Option.ite_none_right_eq_some.mp hstep
      have hcalled (thread : Thread) (hinside : thread.point.inside = false) {s : Bool} :=
        h.outside (t := t) (s := s) thread hinside (by rw [hclient]; rfl) (by rw [hclient]; nofun)
      cases method with
      | getExecutor => exact hcalled _ rfl nofun
      | post item => exact hcalled _ rfl id
      | stop => exact hcalled _ rfl id
      | run => exact hcalled _ rfl id
  | go t choice =>
      obtain ⟨⟨next, target⟩, hcode, ⟨⟩⟩ := Option.map_eq_some_iff.mp hstep
      exact h.go hcode
  | finish t throws =>
      simp only [PriorityScheduler.step] at hstep
      split at hstep
      · next depth hthread =>
          cases hstep
          have hclient : (state.thread t).point = .client := by rw [hthread]
          exact h.outside _ (by cases throws <;> rfl) (by rw [hclient]; rfl)
            (by rw [hclient]; nofun) id
      · cases hstep
  | wakeUp t =>
      cases hstep
      have hsublist : (state.scheduler.monitor.wakeSpuriously t).waiters.Sublist
          state.scheduler.monitor.waiters := List.erase_sublist
      have hnil (hnone : state.scheduler.monitor.waiters = []) :
          (state.scheduler.monitor.wakeSpuriously t).waiters = [] :=
        List.sublist_nil.mp (hnone ▸ hsublist)
      refine ⟨h.inside, fun other hmem => h.asleep other (hsublist.mem hmem),
        h.nodup.sublist hsublist, h.empty, h.unstopped, fun hset => ?_, ?_⟩
      · exact (h.stopped hset).imp_left hnil
      · refine h.attended.imp hnil fun hcount =>
          hcount.trans (Set.encard_le_encard fun x hx => ?_)
        exact ⟨hx.1, fun hmem => hx.2 (hsublist.mem hmem)⟩

variable {guard : State T → Action T → Prop} {stopped : Bool}

theorem watched_of_reaches (hrun : Reaches step guard (initial stopped) state) :
    Watched state :=
  hrun.invariant (watched_initial stopped) fun _ _ _ h _ hstep => h.step hstep

/-! ## Work conservation -/

/-- In every run, while some thread sleeps inside `run()` every item of the queue has a thread
of its own that is about to look at the queue, or about to wake a thread for it. -/
theorem queue_attended (hrun : Reaches step guard (initial stopped) state)
    (hasleep : state.scheduler.monitor.waiters ≠ []) :
    (state.scheduler.queue.length : ℕ∞) ≤ {t | state.Looks t}.encard :=
  (watched_of_reaches hrun).attended.resolve_left hasleep

/-- Two threads wait for work when a function has been posted and nobody is notified yet. -/
theorem queue_attended_posted : ∃ state : State Nat,
    state.scheduler.monitor.waiters = [0, 1] ∧ 1 ≤ {t | state.Looks t}.encard := by
  obtain ⟨state, hrun, hobserved⟩ : ∃ state : State Nat,
      Reaches step (fun _ _ => True) (initial false) state ∧
        (state.scheduler.monitor.waiters, state.scheduler.queue) = ([0, 1], [⟨0, 7⟩]) :=
    Reaches.of_observed (fun _ _ => true)
      (.call 0 .run :: List.replicate 4 (.go 0 0) ++ .call 1 .run :: List.replicate 4 (.go 1 0) ++
        [.call 2 (.post ⟨0, 7⟩), .go 2 0, .go 2 0])
      (fun _ _ _ => trivial) (by decide +kernel)
  obtain ⟨hwaiters, hqueue⟩ := Prod.mk.inj hobserved
  have hle := queue_attended hrun (by rw [hwaiters]; nofun)
  rw [hqueue] at hle
  exact ⟨state, hwaiters, hle⟩

/-! ## The top of the queue -/

/-- No executor is constructed while a `run()` that has found the flag set is about to look at
it again. -/
def ConstructsAside (state : State T) (action : Action T) : Prop :=
  match action with
  | .call _ .getExecutor =>
      ∀ t, (state.thread t).point = .run .decide → state.scheduler.queue ≠ []
  | _ => True

instance [Fintype T] (state : State T) (action : Action T) :
    Decidable (ConstructsAside state action) :=
  match action with
  | .call _ .getExecutor => inferInstanceAs (Decidable (∀ t,
      (state.thread t).point = .run .decide → state.scheduler.queue ≠ []))
  | .call _ (.post _) | .call _ .stop | .call _ .run => inferInstanceAs (Decidable True)
  | .go _ _ | .finish _ _ | .wakeUp _ => inferInstanceAs (Decidable True)

/-- What `run()` has found out still holds. -/
structure Filled (state : State T) : Prop where
  decide : ∀ t, (state.thread t).point = .run .decide →
    state.scheduler.stopped = true ∨ state.scheduler.queue ≠ []
  take : ∀ t, (state.thread t).point = .run .take → state.scheduler.queue ≠ []
  defined : ∀ t, (state.thread t).point ≠ .undefined

omit [DecidableEq T] in
theorem filled_initial (stopped : Bool) : Filled (initial stopped : State T) where
  decide := nofun
  take := nofun
  defined := nofun

theorem Filled.go (h : Filled state)
    (hinside : ∀ t, (state.thread t).point.inside = true →
      state.scheduler.monitor.owner = some t)
    (hcode : code t choice (state.thread t).point state.scheduler = some (next, target)) :
    Filled ⟨next, Function.update state.thread t ⟨target, depth⟩⟩ := by
  have hmoves := code_moves hcode
  -- whoever is at one of these points keeps the others out of the mutex
  have halone {other : T} (hother : (state.thread other).point.inside = true) (hne : other ≠ t) :
      next.stopped = state.scheduler.stopped ∧ next.queue = state.scheduler.queue := by
    have houtside : (state.thread t).point.inside = false := Bool.eq_false_iff.mpr fun ht =>
      hne (Option.some.inj ((hinside other hother).symm.trans (hinside t ht)))
    refine ⟨?_, hmoves.queue.resolve_right fun ht => absurd (ht.symm.trans houtside) nofun⟩
    rcases hmoves.flags with ⟨-, hflag⟩ | ⟨hset, -, -⟩
    · exact hflag
    · rw [hset] at houtside
      cases houtside
  refine ⟨update_point
      (fun _ p => p = .run .decide → next.stopped = true ∨ next.queue ≠ []) ?_ ?_,
    update_point (fun _ p => p = .run .take → next.queue ≠ []) ?_ ?_,
    update_point (fun _ p => p ≠ .undefined) ?_ fun other _ => h.defined other⟩
  · rintro htarget
    have htarget : target = .run .decide := htarget
    generalize (state.thread t).point = point at hcode hmoves
    cases hmoves with
    | hasWork source hsource =>
        rcases hsource with ⟨rfl, hstopped⟩ | rfl
        · exact .inl hstopped
        · refine .inr fun hnil => ?_
          simp [code, run, hnil] at hcode
    | acquire _ _ _ hpoints =>
        rcases hpoints with ⟨item, -, rfl⟩ | ⟨-, rfl⟩ | ⟨-, rfl⟩ <;> cases htarget
    | _ => cases htarget
  · intro other hne hpoint
    have hsame := halone (by rw [hpoint]; rfl) hne
    exact hsame.1 ▸ hsame.2 ▸ h.decide other hpoint
  · rintro htarget
    have htarget : target = .run .take := htarget
    have hdecide := h.decide t
    generalize (state.thread t).point = point at hcode hmoves hdecide
    cases hmoves with
    | goOn hstopped =>
        exact (hdecide rfl).resolve_left fun hset => absurd (hset.symm.trans hstopped) nofun
    | acquire _ _ _ hpoints =>
        rcases hpoints with ⟨item, -, rfl⟩ | ⟨-, rfl⟩ | ⟨-, rfl⟩ <;> cases htarget
    | _ => cases htarget
  · intro other hne hpoint
    have hsame := halone (by rw [hpoint]; rfl) hne
    exact hsame.2 ▸ h.take other hpoint
  · rintro rfl
    have hempty := code_empty hcode (.inr rfl)
    rcases hmoves.of_empty (.inr rfl) with hpoint | hpoint
    · rw [hpoint] at hcode
      simp [code, run, hempty] at hcode
    · exact h.take t hpoint hempty

theorem Filled.outside (h : Filled state) (point : Point)
    (hpoint : point ≠ .run .decide ∧ point ≠ .run .take ∧ point ≠ .undefined)
    {stopped : Bool} (hdecide : ∀ t, (state.thread t).point = .run .decide →
      stopped = true ∨ state.scheduler.queue ≠ []) :
    Filled
      { scheduler := { state.scheduler with stopped := stopped }
        thread := Function.update state.thread t ⟨point, depth⟩ } := by
  obtain ⟨hnotDecide, hnotTake, hdefined⟩ := hpoint
  exact ⟨update_point (fun _ p => p = .run .decide → stopped = true ∨ _)
      (fun heq => absurd heq hnotDecide) fun other _ => hdecide other,
    update_point (fun _ p => p = .run .take → _) (fun heq => absurd heq hnotTake)
      fun other _ => h.take other,
    update_point (fun _ p => p ≠ .undefined) hdefined fun other _ => h.defined other⟩

theorem Filled.step (h : Filled state)
    (hinside : ∀ t, (state.thread t).point.inside = true →
      state.scheduler.monitor.owner = some t)
    (hguard : ConstructsAside state action) (hstep : step state action = some after) :
    Filled after := by
  cases action with
  | call t method =>
      obtain ⟨-, ⟨⟩⟩ := Option.ite_none_right_eq_some.mp hstep
      cases method with
      | getExecutor =>
          exact h.outside .client (by simp) fun other hpoint =>
            .inr (hguard other hpoint)
      | post item => exact h.outside (.post item .lock) (by simp) h.decide
      | stop => exact h.outside (.stop .lock) (by simp) h.decide
      | run => exact h.outside (.run .lock) (by simp) h.decide
  | go t choice =>
      obtain ⟨⟨next, target⟩, hcode, ⟨⟩⟩ := Option.map_eq_some_iff.mp hstep
      exact h.go hinside hcode
  | finish t throws =>
      simp only [PriorityScheduler.step] at hstep
      split at hstep <;> cases hstep
      exact h.outside _ (by cases throws <;> simp) h.decide
  | wakeUp t =>
      cases hstep
      exact ⟨h.decide, h.take, h.defined⟩

/-- In every run that constructs no executor in this window, no thread calls `queue_.top()` or
`queue_.pop()` of an empty queue. -/
theorem top_defined
    (hguard : ∀ state action, guard state action → ConstructsAside state action)
    (hrun : Reaches step guard (initial stopped) state) (t : T) :
    (state.thread t).point ≠ .undefined ∧
      ((state.thread t).point = .run .take → state.scheduler.queue ≠ []) := by
  have hfilled : Filled state :=
    hrun.invariant_of Watched (fun _ hprior => watched_of_reaches hprior)
      (filled_initial stopped) fun state action after hknown h hallowed hstep =>
        h.step hknown.inside (hguard state action hallowed) hstep
  exact ⟨hfilled.defined t, hfilled.take t⟩

/-- An executor is constructed behind a `stop()`, but in time. -/
theorem top_defined_restarted : ∃ state : State (Fin 2),
    state.scheduler.stopReturned = true ∧ state.scheduler.stopped = false ∧
      (state.thread 1).point = .run .take ∧ state.scheduler.queue ≠ [] := by
  obtain ⟨state, hrun, hobserved⟩ : ∃ state : State (Fin 2),
      Reaches step ConstructsAside (initial false) state ∧
        (state.scheduler.stopReturned, state.scheduler.stopped, (state.thread 1).point) =
          (true, false, .run .take) :=
    Reaches.of_observed (fun state action => decide (ConstructsAside state action))
      (.call 0 .stop :: List.replicate 4 (.go 0 0) ++ .call 0 .getExecutor ::
        .call 0 (.post ⟨0, 7⟩) :: List.replicate 4 (.go 0 0) ++
        .call 1 .run :: List.replicate 4 (.go 1 0))
      (fun _ _ => of_decide_eq_true) (by decide +kernel)
  simp only [Prod.mk.injEq] at hobserved
  obtain ⟨hreturned, hstopped, hpoint⟩ := hobserved
  exact ⟨state, hreturned, hstopped, hpoint, (top_defined (fun _ _ h => h) hrun 1).2 hpoint⟩

/-- In the window the constructor makes `run()` take the top of an empty queue. -/
theorem top_undefined : ∃ state : State Nat,
    Reaches step (fun _ _ => True) (initial false) state ∧
      (state.thread 1).point = .undefined :=
  Reaches.of_observed (fun _ _ => true)
    (.call 0 .stop :: List.replicate 4 (.go 0 0) ++ .call 1 .run :: List.replicate 2 (.go 1 0) ++
      .call 0 .getExecutor :: List.replicate 2 (.go 1 0))
    (fun _ _ _ => trivial) (by decide +kernel)

end ThreadPools.PriorityScheduler
