/-
# What becomes of a notification

All threads waiting on a monitor share one flag, which a notification sets and every new
wait clears. A thread that has been woken looks at the flag only when it has got the
mutex again; a thread that starts a wait before clears the notification under its feet.
-/

import Mathlib.Data.List.Nodup
import ThreadPools.Boost.Ownership

namespace ThreadPools.Boost

open ThreadPools.Concurrency

/-- The monitor is used by its public methods only. -/
def PlainWaits {T : Type*} (_ : State T) : Action T → Prop
  | .call _ .waitUntilCondition => False
  | _ => True

/-- The thread is blocked in a wait, or on its way back from there. -/
def Point.Asleep : Point → Prop
  | .wait _ .asleep => True
  | _ => False

/-- The thread is inside a wait, and its time has not run out. -/
def Point.InWait : Point → Prop
  | .wait _ p => p ≠ .reset ∧ p ≠ .own true
  | _ => False

/-- The thread has left the loop of a wait on its way to bed. -/
def Point.Retires : Point → Prop
  | .wait _ .disown | .wait _ .block => True
  | _ => False

instance : DecidablePred Point.Asleep := fun p => by unfold Point.Asleep; split <;> infer_instance

instance : DecidablePred Point.InWait := fun p => by unfold Point.InWait; split <;> infer_instance

/-- The thread is inside a call, at a point with a property. -/
def State.At {T : Type*} (state : State T) (P : Point → Prop) (t : T) : Prop :=
  ∃ call ∈ state.pc t, P call.point

/-- The threads have not left their waits, and none of them has timed out. -/
def Stay {T : Type*} (threads : T → Prop) (state : State T) : Prop :=
  ∀ t, threads t → state.At Point.InWait t

/-- The call is at the start of a wait. -/
def Point.StartsWait : Point → Prop
  | .wait _ .reset => True
  | _ => False

instance : DecidablePred Point.StartsWait := fun p => by
  unfold Point.StartsWait
  split <;> infer_instance

/-- No thread starts a wait in this step. -/
def NoFreshWait {T : Type*} (state : State T) : Action T → Prop
  | .run t _ => ¬ state.At Point.StartsWait t
  | _ => True

/-- What a step does to the flag and to the waiting threads. -/
inductive Writes {T : Type*} (t : T) (s s' : Synchronized T) : Point → Point ⊕ Result → Prop
  | keep (p : Point) (target : Point ⊕ Result) (hsignal : s'.signal = s.signal)
      (hwaiters : s'.waiters = s.waiters) : Writes t s s' p target
  | reset (timed : Bool) (hwaiters : s'.waiters = s.waiters) :
      Writes t s s' (.wait timed .reset) (.inl (.wait timed .check))
  | block (timed : Bool) (hsignal : s'.signal = s.signal)
      (hwaiters : s'.waiters = s.waiters ++ [t]) :
      Writes t s s' (.wait timed .block) (.inl (.wait timed .asleep))
  | untilCondition (p : Synchronized.WaitPoint) (target : Point ⊕ Result) :
      Writes t s s' (.waitUntilCondition p) target
  | set (all : Bool) (hsignal : s'.signal = true) (hwaiters : s'.waiters = s.waiters) :
      Writes t s s' (.notify all .set) (.inl (.notify all .wake))
  | wake (all : Bool) (choice : Choice) (hsignal : s'.signal = s.signal)
      (hwaiters : s'.waiters =
        if all then [] else s.waiters.eraseIdx (choice.waiter % s.waiters.length)) :
      Writes t s s' (.notify all .wake) (.inr .done)

variable {T : Type*} [DecidableEq T] {t : T} {choice : Choice} {s s' : Synchronized T}
  {p : Point} {target : Point ⊕ Result}

theorem waitLoop_writes {timed holds : Bool} {p : Synchronized.WaitPoint}
    {next : Synchronized.WaitPoint ⊕ Bool} (hreset : p ≠ .reset) (hblock : p ≠ .block)
    (hstep : Synchronized.waitLoop t timed holds choice p s = some (s', next)) :
    s'.signal = s.signal ∧ s'.waiters = s.waiters := by
  cases p with
  | reset => exact absurd rfl hreset
  | block => exact absurd rfl hblock
  | asleep =>
      simp only [Synchronized.waitLoop] at hstep
      split at hstep <;> cases hstep
      exact ⟨rfl, rfl⟩
  | check | disown | own =>
      cases hstep
      exact ⟨rfl, rfl⟩

theorem code_writes (hstep : code t choice p s = some (s', target)) : Writes t s s' p target := by
  -- the other methods touch neither the flag nor the waiting threads
  have hkeep : s'.signal = s.signal ∧ s'.waiters = s.waiters → Writes t s s' p target :=
    fun h => .keep _ _ h.1 h.2
  cases p <;> obtain ⟨inner, hinner, rfl⟩ := Body.embed_eq_some hstep
  case wait timed p =>
    by_cases hreset : p = .reset
    · subst hreset
      cases hinner
      exact .reset timed rfl
    by_cases hblock : p = .block
    · subst hblock
      cases hinner
      exact .block timed rfl rfl
    exact hkeep (waitLoop_writes hreset hblock hinner)
  case waitUntilCondition p => exact .untilCondition p _
  case notify all p =>
    cases p <;> cases hinner
    · exact .set all rfl rfl
    · exact .wake all choice rfl rfl
  case lock p =>
    refine hkeep ?_
    cases p with
    | acquire =>
        simp only [Synchronized.lock] at hinner
        split at hinner <;> cases hinner
        exact ⟨rfl, rfl⟩
    | test | own =>
        cases hinner
        exact ⟨rfl, rfl⟩
  case lockFor p =>
    refine hkeep ?_
    cases p with
    | attempt d =>
        simp only [Synchronized.lockFor] at hinner
        split at hinner <;> cases hinner <;> exact ⟨rfl, rfl⟩
    | sleep | own =>
        cases hinner
        exact ⟨rfl, rfl⟩
  case trylock p =>
    refine hkeep ?_
    cases p with
    | attempt =>
        simp only [Synchronized.trylock] at hinner
        split at hinner <;> cases hinner <;> exact ⟨rfl, rfl⟩
    | test | own =>
        cases hinner
        exact ⟨rfl, rfl⟩
  case unlock p =>
    refine hkeep ?_
    cases p <;> cases hinner <;> exact ⟨rfl, rfl⟩
  case enter p =>
    refine hkeep ?_
    cases p with
    | acquire =>
        simp only [Synchronized.enter] at hinner
        split at hinner <;> cases hinner
        exact ⟨rfl, rfl⟩
    | own =>
        cases hinner
        exact ⟨rfl, rfl⟩
  case leave p =>
    refine hkeep ?_
    cases p <;> cases hinner <;> exact ⟨rfl, rfl⟩

/-- How a step gets to the points that matter for a notification. -/
theorem code_gets_to (hstep : code t choice p s = some (s', target)) :
    (∀ q, target = .inl (.waitUntilCondition q) → ∃ q, p = .waitUntilCondition q) ∧
      (∀ all, target = .inl (.notify all .wake) → s'.signal = true) ∧
      (∀ q : Point, target = .inl q → q.Retires → p.Retires ∨ s.signal = false) ∧
      (∀ timed, target = .inl (.wait timed .asleep) → p = .wait timed .block) := by
  cases p <;> obtain ⟨inner, hinner, rfl⟩ := Body.embed_eq_some hstep
  case wait timed p =>
    refine ⟨?_, ?_, ?_, ?_⟩
    · cases inner <;> simp
    · cases inner <;> simp
    · intro q hq hretires
      cases p with
      | check =>
          simp only [Synchronized.wait, Synchronized.waitLoop, Option.some.injEq,
            Prod.mk.injEq] at hinner
          obtain ⟨-, rfl⟩ := hinner
          split at hq
          · cases hq
          · next hsignal => exact .inr (by simpa using hsignal)
      | disown | block => exact .inl trivial
      | reset =>
          cases hinner
          cases hq
          exact hretires.elim
      | asleep =>
          simp only [Synchronized.wait, Synchronized.waitLoop] at hinner
          split at hinner <;> cases hinner
          cases hq
          exact hretires.elim
      | own timeout =>
          cases hinner
          cases timeout <;> cases hq
          exact hretires.elim
    · intro q hq
      cases p with
      | block =>
          cases hinner
          cases hq
          rfl
      | check =>
          simp only [Synchronized.wait, Synchronized.waitLoop, Option.some.injEq,
            Prod.mk.injEq] at hinner
          obtain ⟨-, rfl⟩ := hinner
          split at hq <;> cases hq
      | asleep =>
          simp only [Synchronized.wait, Synchronized.waitLoop] at hinner
          split at hinner <;> cases hinner
          cases hq
      | reset | disown =>
          cases hinner
          cases hq
      | own timeout =>
          cases hinner
          cases timeout <;> cases hq
  case waitUntilCondition p =>
    refine ⟨fun _ _ => ⟨p, rfl⟩, ?_, ?_, ?_⟩ <;> cases inner <;> simp [Point.Retires]
  case notify all p =>
    refine ⟨?_, ?_, ?_, ?_⟩
    · cases inner <;> simp
    · intro every hevery
      cases p with
      | set =>
          cases hinner
          cases hevery
          rfl
      | wake =>
          cases hinner
          cases hevery
    · cases inner <;> simp [Point.Retires]
    · cases inner <;> simp
  all_goals
    refine ⟨?_, ?_, ?_, ?_⟩ <;> cases inner <;> simp [Point.Retires]

/-- A thread on the waiting list is blocked. -/
theorem not_waiting (hasleep : p.Asleep) (hstep : code t choice p s = some (s', target)) :
    t ∉ s.waiters := by
  cases p with
  | wait timed p =>
      cases p with
      | asleep =>
          obtain ⟨inner, hinner, -⟩ := Body.embed_eq_some hstep
          simp only [Synchronized.wait, Synchronized.waitLoop] at hinner
          split at hinner
          · next hawake => exact hawake.2
          · cases hinner
      | _ => exact hasleep.elim
  | _ => exact hasleep.elim

section Writes

variable (hwrites : Writes t s s' p target) (hplain : ∀ q, p ≠ .waitUntilCondition q)

include hwrites hplain

omit [DecidableEq T] in
theorem Writes.mem_waiters {u : T} (hu : u ∈ s'.waiters) :
    u ∈ s.waiters ∨ u = t ∧ ∃ timed, target = .inl (.wait timed .asleep) := by
  cases hwrites with
  | keep _ _ _ hwaiters => exact .inl (hwaiters ▸ hu)
  | reset _ hwaiters => exact .inl (hwaiters ▸ hu)
  | block timed _ hwaiters =>
      rw [hwaiters, List.mem_append, List.mem_singleton] at hu
      exact hu.imp id fun heq => ⟨heq, timed, rfl⟩
  | untilCondition q => exact absurd rfl (hplain q)
  | set _ _ hwaiters => exact .inl (hwaiters ▸ hu)
  | wake all _ _ hwaiters =>
      rw [hwaiters] at hu
      cases all with
      | true => simp at hu
      | false => exact .inl (List.mem_of_mem_eraseIdx hu)

omit [DecidableEq T] in
theorem Writes.nodup (hmoving : t ∉ s.waiters) (h : s.waiters.Nodup) : s'.waiters.Nodup := by
  cases hwrites with
  | keep _ _ _ hwaiters => rwa [hwaiters]
  | reset _ hwaiters => rwa [hwaiters]
  | block _ _ hwaiters =>
      rw [hwaiters]
      exact List.nodup_append.mpr ⟨h, by simp, by
        rintro u hu v hv rfl
        exact hmoving (List.mem_singleton.mp hv ▸ hu)⟩
  | untilCondition q => exact absurd rfl (hplain q)
  | set _ _ hwaiters => rwa [hwaiters]
  | wake all _ _ hwaiters =>
      rw [hwaiters]
      split
      · exact List.nodup_nil
      · exact h.sublist (List.eraseIdx_sublist ..)

omit [DecidableEq T] in
theorem Writes.signal :
    p.StartsWait ∨ s'.signal = true ∨ s'.signal = s.signal := by
  cases hwrites with
  | keep _ _ hsignal _ => exact .inr (.inr hsignal)
  | reset timed _ => exact .inl trivial
  | block _ hsignal _ => exact .inr (.inr hsignal)
  | untilCondition q => exact absurd rfl (hplain q)
  | set _ hsignal _ => exact .inr (.inl hsignal)
  | wake _ _ hsignal _ => exact .inr (.inr hsignal)

end Writes

/-! ## Waiting threads and their notifiers -/

/-- The waiting threads are inside their waits, and whoever is about to wake one of them
has set the flag. -/
structure Orderly (state : State T) : Prop where
  plain : ∀ t call p, state.pc t = some call → call.point ≠ .waitUntilCondition p
  asleep : ∀ t ∈ state.sync.waiters, state.At Point.Asleep t
  nodup : state.sync.waiters.Nodup
  signal : ∀ t call all, state.pc t = some call → call.point = .notify all .wake →
    state.sync.signal = true

variable {state next : State T} {action : Action T} {call : Call}

/-! A step of a thread changes its own call only. -/

@[simp] theorem advance_sync : (state.advance t call s' target).sync = s' := by
  cases target <;> rfl

theorem advance_other {u : T} (hne : u ≠ t) :
    (state.advance t call s' target).pc u = state.pc u := by
  cases target <;> exact Function.update_of_ne hne ..

theorem advance_self {other : Call}
    (hother : (state.advance t call s' target).pc t = some other) :
    target = .inl other.point := by
  cases target with
  | inl point =>
      simp only [State.advance, Function.update_self, Option.some.injEq] at hother
      rw [← hother]
      rfl
  | inr result => simp [State.advance] at hother

/-- A step of a thread inside a call. -/
theorem run_of_step (hcall : state.pc t = some call)
    (hstep : step state (.run t choice) = some next) :
    ∃ sync target, code t choice call.point state.sync = some (sync, target) ∧
      next = state.advance t call sync target := by
  cases step_moves hstep with
  | run t choice hother hcode =>
      cases Option.some.inj (hcall.symm.trans hother)
      exact ⟨_, _, hcode, rfl⟩

/-- A thread changes its point only by its own steps. -/
theorem pc_of_step (hcall : state.pc t = some call) (hmover : ∀ choice, action ≠ .run t choice)
    (hstep : step state action = some next) : next.pc t = some call := by
  cases step_moves hstep with
  | call u method hidle =>
      have hne : t ≠ u := by
        rintro rfl
        rw [hcall] at hidle
        cases hidle
      exact (Function.update_of_ne hne ..).trans hcall
  | run u choice =>
      have hne : t ≠ u := by
        rintro rfl
        exact hmover choice rfl
      exact (advance_other hne).trans hcall
  | wakeUp u => exact hcall

theorem Point.StartsWait.standing (h : p.StartsWait) : p.standing = .marked := by
  unfold Point.StartsWait at h
  split at h
  · rfl
  · exact h.elim

omit [DecidableEq T] in
/-- While a notifier is inside, no other thread is at the start of a wait. -/
theorem Tracked.notifier_alone (h : Tracked state) {u : T} {other : Call} {all : Bool}
    (hcall : state.pc t = some call) (hwait : call.point.StartsWait)
    (hother : state.pc u = some other) (hnotify : other.point = .notify all .wake) : u = t := by
  have hmarked := h.standing t
  have hotherMarked := h.standing u
  rw [hcall, standingOf, Option.elim, hwait.standing] at hmarked
  rw [hother, standingOf, Option.elim, hnotify] at hotherMarked
  exact Option.some.inj (hotherMarked.1.symm.trans hmarked.1)

theorem Orderly.run (h : Orderly state) (htracked : Tracked state)
    (hcall : state.pc t = some call)
    (hstep : code t choice call.point state.sync = some (s', target)) :
    Orderly (state.advance t call s' target) := by
  have hwrites := code_writes hstep
  obtain ⟨hplain, hnotify, -, -⟩ := code_gets_to hstep
  -- a thread that makes a step is not on the waiting list
  have hmoving : t ∉ state.sync.waiters := fun hwaiter => by
    obtain ⟨other, hother, hasleep⟩ := h.asleep t hwaiter
    cases hcall.symm.trans hother
    exact not_waiting hasleep hstep hwaiter
  have hsleeps : ∀ u ∈ state.sync.waiters,
      (state.advance t call s' target).At Point.Asleep u := fun u hu => by
    have hne : u ≠ t := fun heq => hmoving (heq ▸ hu)
    obtain ⟨other, hother, hasleep⟩ := h.asleep u hu
    exact ⟨other, (advance_other hne).trans hother, hasleep⟩
  have hmethod : ∀ q, call.point ≠ .waitUntilCondition q := fun q => h.plain t call q hcall
  refine ⟨fun u other q hother hpoint => ?_, fun u hu => ?_, ?_,
    fun u other all hother hpoint => ?_⟩
  · by_cases hu : u = t
    · subst hu
      obtain ⟨q, hq⟩ := hplain q (hpoint ▸ advance_self hother)
      exact hmethod q hq
    · exact h.plain u other q ((advance_other hu).symm.trans hother) hpoint
  · rw [advance_sync] at hu
    obtain hu | ⟨rfl, timed, rfl⟩ := hwrites.mem_waiters hmethod hu
    · exact hsleeps u hu
    · exact ⟨_, Function.update_self .., trivial⟩
  · rw [advance_sync]
    exact hwrites.nodup hmethod hmoving h.nodup
  · rw [advance_sync]
    by_cases hu : u = t
    · subst hu
      exact hnotify all (hpoint ▸ advance_self hother)
    · have hbefore := (advance_other hu).symm.trans hother
      have hset := h.signal u other all hbefore hpoint
      obtain hreset | hsignal | hsignal := hwrites.signal hmethod
      · exact absurd (htracked.notifier_alone hcall hreset hbefore hpoint) hu
      · exact hsignal
      · exact hsignal.trans hset

theorem Orderly.step (h : Orderly state) (htracked : Tracked state)
    (hplain : PlainWaits state action) (hstep : step state action = some next) :
    Orderly next := by
  cases step_moves hstep with
  | call t method hidle =>
      have hcalls : ∀ u, u ≠ t → Function.update state.pc t (some
          { point := method.entry, owned := decide (state.sync.owner = some t),
            wrote := false }) u = state.pc u := fun u hu => Function.update_of_ne hu ..
      refine ⟨fun u other q hother => ?_, fun u hu => ?_, h.nodup, fun u other all hother => ?_⟩
      · by_cases hu : u = t
        · subst hu
          simp only [Function.update_self, Option.some.injEq] at hother
          subst hother
          cases method <;> simp_all [PlainWaits, Method.entry]
        · exact h.plain u other q ((hcalls u hu).symm.trans hother)
      · obtain ⟨other, hother, hasleep⟩ := h.asleep u hu
        have hne : u ≠ t := fun heq => by simp [heq, hidle] at hother
        exact ⟨other, (hcalls u hne).trans hother, hasleep⟩
      · by_cases hu : u = t
        · subst hu
          simp only [Function.update_self, Option.some.injEq] at hother
          subst hother
          cases method <;> simp [Method.entry]
        · exact h.signal u other all ((hcalls u hu).symm.trans hother)
  | run t choice hcall hcode => exact h.run htracked hcall hcode
  | wakeUp t =>
      exact ⟨h.plain, fun u hu => h.asleep u (List.mem_of_mem_erase hu), h.nodup.erase t, h.signal⟩

omit [DecidableEq T] in
theorem orderly_initial : Orderly (initial : State T) where
  plain _ _ _ hcall := absurd hcall.symm (Option.some_ne_none _)
  asleep _ hasleep := absurd hasleep List.not_mem_nil
  nodup := List.nodup_nil
  signal _ _ _ hcall := absurd hcall.symm (Option.some_ne_none _)

/-- The guard of all runs here. -/
def Legal (state : State T) (action : Action T) : Prop :=
  Contract state action ∧ PlainWaits state action

instance : Decidable (PlainWaits state action) :=
  match action with
  | .call _ method =>
      match method with
      | .waitUntilCondition => .isFalse id
      | .lock | .lockFor _ | .trylock | .unlock | .wait | .waitFor | .notify | .notifyAll
      | .enter | .leave => .isTrue trivial
  | .run _ _ | .wakeUp _ => .isTrue trivial

instance : Decidable (Legal state action) :=
  inferInstanceAs (Decidable (Contract state action ∧ PlainWaits state action))

instance {P : Point → Prop} [DecidablePred P] : Decidable (state.At P t) :=
  inferInstanceAs (Decidable (∃ call ∈ state.pc t, P call.point))

instance {n : Nat} {threads : Fin n → Prop} [DecidablePred threads] {state : State (Fin n)} :
    Decidable (Stay threads state) :=
  inferInstanceAs (Decidable (∀ t, threads t → state.At Point.InWait t))

instance : Decidable (NoFreshWait state action) :=
  match action with
  | .run t _ => inferInstanceAs (Decidable (¬ state.At Point.StartsWait t))
  | .call _ _ | .wakeUp _ => .isTrue trivial

theorem orderly_of_reaches {guard : State T → Action T → Prop}
    (hguard : ∀ state action, guard state action → Legal state action)
    (hrun : Reaches step guard initial state) : Orderly state := by
  induction hrun with
  | refl => exact orderly_initial
  | tail action hprior hallowed hstep ih =>
      exact ih.step (tracked_of_reaches (fun _ _ h => (hguard _ _ h).1) hprior)
        (hguard _ _ hallowed).2 hstep

/-! ## A notification on its way -/

/-- The flag is set, and one of the threads has been woken and has not gone to bed again. -/
def Underway (threads : T → Prop) (state : State T) : Prop :=
  state.sync.signal = true ∧
    ∃ t, threads t ∧ t ∉ state.sync.waiters ∧ ¬ state.At Point.Retires t

omit [DecidableEq T] in
/-- A blocked thread is not on its way to bed. -/
theorem State.At.not_retires (h : state.At Point.Asleep t) : ¬ state.At Point.Retires t := by
  rintro ⟨other, hother, hretires⟩
  obtain ⟨call, hcall, hasleep⟩ := h
  cases Option.some.inj (hcall.symm.trans hother)
  revert hretires hasleep
  unfold Point.Asleep Point.Retires
  split <;> simp_all

/-- A thread woken by `notify_one` is not on the waiting list any more. -/
theorem notified_not_mem {waiters : List T} (hnodup : waiters.Nodup) {i : Nat}
    (hi : i < waiters.length) : waiters[i] ∉ waiters.eraseIdx i := by
  rw [← hnodup.erase_getElem i hi]
  exact hnodup.not_mem_erase

/-- `notify` sends a notification on its way. -/
theorem underway_of_notify (h : Orderly state) {all : Bool} (hcall : state.pc t = some call)
    (hpoint : call.point = .notify all .wake) {u : T} (hu : state.At Point.Asleep u)
    (hstep : step state (.run t choice) = some next) :
    Underway (state.At Point.Asleep) next := by
  simp only [step, hcall, hpoint, code, Synchronized.notify, Body.embed, Option.bind_some,
    Option.map_some, Option.some.injEq] at hstep
  subst hstep
  -- whoever is blocked and off the list stays where it is
  have hstays : ∀ v, state.At Point.Asleep v →
      ¬ (state.advance t call state.sync (.inr .done)).At Point.Retires v := by
    intro v hv
    have hne : v ≠ t := by
      rintro rfl
      obtain ⟨other, hother, hasleep⟩ := hv
      cases Option.some.inj (hcall.symm.trans hother)
      rw [hpoint] at hasleep
      exact hasleep
    rintro ⟨other, hother, hretires⟩
    exact hv.not_retires ⟨other, (advance_other hne).symm.trans hother, hretires⟩
  refine ⟨h.signal t call all hcall hpoint, ?_⟩
  by_cases hlisted : u ∈ state.sync.waiters
  · cases all with
    | true => exact ⟨u, hu, List.not_mem_nil, hstays u hu⟩
    | false =>
        have hlength := List.length_pos_of_mem hlisted
        have hi := Nat.mod_lt choice.waiter hlength
        have hv := h.asleep _ (List.getElem_mem hi)
        exact ⟨_, hv, notified_not_mem h.nodup hi, hstays _ hv⟩
  · refine ⟨u, hu, fun hstill => ?_, hstays u hu⟩
    cases all with
    | true => cases hstill
    | false => exact hlisted (List.mem_of_mem_eraseIdx hstill)

theorem Underway.step {threads : T → Prop} (h : Underway threads state) (horderly : Orderly state)
    (hfresh : NoFreshWait state action) (hstep : Boost.step state action = some next) :
    Underway threads next := by
  obtain ⟨hsignal, u, hthread, hawake, hup⟩ := h
  cases step_moves hstep with
  | call t method =>
      refine ⟨hsignal, u, hthread, hawake, ?_⟩
      rintro ⟨other, hother, hretires⟩
      by_cases hu : u = t
      · subst hu
        simp only [Function.update_self, Option.mem_def, Option.some.injEq] at hother
        subst hother
        cases method <;> exact hretires
      · exact hup ⟨other, (Function.update_of_ne hu ..).symm.trans hother, hretires⟩
  | @run t choice call sync target hcall hcode =>
      have hmethod : ∀ q, call.point ≠ .waitUntilCondition q := fun q =>
        horderly.plain t call q hcall
      obtain ⟨-, -, hretire, hblock⟩ := code_gets_to hcode
      refine ⟨?_, u, hthread, ?_, ?_⟩
      · rw [advance_sync]
        obtain hreset | hset | hkeep := (code_writes hcode).signal hmethod
        · exact absurd ⟨call, hcall, hreset⟩ hfresh
        · exact hset
        · exact hkeep.trans hsignal
      · rw [advance_sync]
        intro hwaits
        obtain hbefore | ⟨rfl, timed, htarget⟩ := (code_writes hcode).mem_waiters hmethod hwaits
        · exact hawake hbefore
        · exact hup ⟨call, hcall, by rw [hblock timed htarget]; trivial⟩
      · rintro ⟨other, hother, hretires⟩
        by_cases hu : u = t
        · subst hu
          obtain hbefore | hclear := hretire _ (advance_self hother) hretires
          · exact hup ⟨call, hcall, hbefore⟩
          · exact absurd (hsignal.symm.trans hclear) nofun
        · exact hup ⟨other, (advance_other hu).symm.trans hother, hretires⟩
  | wakeUp t =>
      exact ⟨hsignal, u, hthread, fun hmem => hawake (List.mem_of_mem_erase hmem), hup⟩

/-- One thread waits, and another one comes and notifies it. -/
def meeting : List (Action (Fin 2)) :=
  .call 0 .lock :: Action.steps 0 3 ++ .call 0 .wait :: Action.steps 0 4 ++
    .call 1 .lock :: Action.steps 1 3 ++ .call 1 .notify :: Action.steps 1 1

/-- A notification is not swallowed: take any run up to a notification that finds threads
blocked in a wait. As long as all of them stay in their waits and no thread starts
another wait, they are never all back on the waiting list. -/
theorem notification_not_swallowed {before after final : State T} {all : Bool}
    (hrun : Reaches step Legal initial before) (hcall : before.pc t = some call)
    (hpoint : call.point = .notify all .wake) (hblocked : ∃ u, before.At Point.Asleep u)
    (hstep : step before (.run t choice) = some after)
    (hlater : Reaches step (fun state action => Legal state action ∧
      Stay (before.At Point.Asleep) state ∧ NoFreshWait state action) after final) :
    ¬ ∀ u, before.At Point.Asleep u → u ∈ final.sync.waiters := by
  obtain ⟨u, hu⟩ := hblocked
  have hnotified : Underway (before.At Point.Asleep) after :=
    underway_of_notify (orderly_of_reaches (fun _ _ h => h) hrun) hcall hpoint hu hstep
  have hwhole : Reaches step Legal initial after :=
    hrun.tail (.run t choice) ⟨trivial, trivial⟩ hstep
  have hunderway : Underway (before.At Point.Asleep) final :=
    hlater.invariant_of Orderly
      (fun _ hprior => orderly_of_reaches (fun _ _ h => h)
        (hwhole.trans (hprior.mono fun _ _ h => h.1)))
      hnotified
      (fun _ _ _ horderly h hguard hstep => h.step horderly hguard.2.2 hstep)
  obtain ⟨-, v, hv, hawake, -⟩ := hunderway
  exact fun hback => hawake (hback v hv)

/-- The woken thread gets the mutex, and no wait has begun in between. -/
theorem notification_not_swallowed_meeting : ∃ before after final : State (Fin 2),
    step before (.run 1 ⟨0, false, false⟩) = some after ∧
      final.pc 0 = some ⟨.wait false .check, true, true⟩ ∧
      ¬ ∀ u, before.At Point.Asleep u → u ∈ final.sync.waiters := by
  obtain ⟨before, hrun, hobserved⟩ : ∃ before : State (Fin 2), Reaches step Legal initial before ∧
      (before.pc 1, decide (before.At Point.Asleep 0),
        (step before (.run 1 ⟨0, false, false⟩)).bind fun after =>
          (execute step (fun state action => decide (Legal state action ∧
              Stay (before.At Point.Asleep) state ∧ NoFreshWait state action))
            (.call 1 .unlock :: Action.steps 1 3 ++ Action.steps 0 2) after).map fun final =>
          final.pc 0) =
      (some ⟨.notify false .wake, true, false⟩, true,
        some (some ⟨.wait false .check, true, true⟩)) :=
    Reaches.of_observed (fun state action => decide (Legal state action)) meeting
      (fun _ _ => of_decide_eq_true) (by decide +kernel)
  simp only [Prod.mk.injEq, decide_eq_true_eq] at hobserved
  obtain ⟨hcall, hasleep, hthen⟩ := hobserved
  obtain ⟨after, hstep, hthen⟩ := Option.bind_eq_some_iff.mp hthen
  obtain ⟨final, hlater, hfinal⟩ := Option.map_eq_some_iff.mp hthen
  exact ⟨before, after, final, hstep, hfinal,
    notification_not_swallowed hrun hcall rfl ⟨0, hasleep⟩ hstep
      (.of_execute (fun _ _ => of_decide_eq_true) hlater)⟩

/-- The notifier itself begins to wait before the woken thread has got the mutex: it clears
the flag, and the woken thread goes to bed again. -/
theorem notification_swallowed : ∃ before after final : State (Fin 2),
    ∃ call, Reaches step Legal initial before ∧
      before.pc 1 = some call ∧ call.point = .notify false .wake ∧
      (∃ u, before.At Point.Asleep u) ∧
      step before (.run 1 ⟨0, false, false⟩) = some after ∧
      Reaches step (fun state action => Legal state action ∧ Stay (before.At Point.Asleep) state)
        after final ∧
      (∀ u, before.At Point.Asleep u → final.At Point.Asleep u ∧ u ∈ final.sync.waiters) ∧
      final.sync.signal = false := by
  obtain ⟨before, hrun, hobserved⟩ : ∃ before : State (Fin 2), Reaches step Legal initial before ∧
      (before.pc 1, decide (before.At Point.Asleep 0),
        (step before (.run 1 ⟨0, false, false⟩)).bind fun after =>
          (execute step (fun state action => decide (Legal state action ∧
              Stay (before.At Point.Asleep) state))
            (.call 1 .wait :: Action.steps 1 4 ++ Action.steps 0 5) after).map fun final =>
          decide (∀ u, before.At Point.Asleep u →
            final.At Point.Asleep u ∧ u ∈ final.sync.waiters) && !final.sync.signal) =
      (some ⟨.notify false .wake, true, false⟩, true, some true) :=
    Reaches.of_observed (fun state action => decide (Legal state action)) meeting
      (fun _ _ => of_decide_eq_true) (by decide +kernel)
  simp only [Prod.mk.injEq, decide_eq_true_eq] at hobserved
  obtain ⟨hcall, hasleep, hthen⟩ := hobserved
  obtain ⟨after, hstep, hthen⟩ := Option.bind_eq_some_iff.mp hthen
  obtain ⟨final, hlater, hfinal⟩ := Option.map_eq_some_iff.mp hthen
  simp only [Bool.and_eq_true, decide_eq_true_eq, Bool.not_eq_true'] at hfinal
  exact ⟨before, after, final, _, hrun, hcall, rfl, ⟨0, hasleep⟩, hstep,
    .of_execute (fun _ _ => of_decide_eq_true) hlater, hfinal.1, hfinal.2⟩

end ThreadPools.Boost
