/-
# The result of a timed wait

`wait_for` returns true because it has found the flag set, and false because its condition
variable has reported a timeout; the flag is not looked at then. While a thread is inside
the mutex nobody else writes the flag, so that the flag at the return is the flag at the
moment when the thread has got the mutex again.
-/

import ThreadPools.Boost.Notification

namespace ThreadPools.Boost

open ThreadPools.Concurrency

variable {T : Type*} [DecidableEq T] {t : T} {choice : Choice} {s s' : Synchronized T}
  {state next : State T} {action : Action T} {call : Call}

/-- The thread has got the mutex again and reports a timeout. -/
def Point.Expired (p : Point) : Prop :=
  p = .wait true (.own true)

/-- The time of the thread runs out: it gets the mutex again with a timeout. -/
def TimesOut (t : T) (state : State T) : Action T → Prop
  | .run u choice => u = t ∧ choice.timeout = true ∧ state.At (· = .wait true .asleep) t
  | _ => False

/-- Whenever the time of the thread runs out, the flag is not set. -/
def InTime (t : T) (state : State T) (action : Action T) : Prop :=
  TimesOut t state action → state.sync.signal = false

/-- The thread is inside its call. -/
def Inside (t : T) (state : State T) : Prop :=
  state.pc t ≠ none

/-- Nobody calls `notify` or `notify_all`. -/
def Silent (_ : State T) : Action T → Prop
  | .call _ .notify | .call _ .notifyAll => False
  | _ => True

/-! ## Who writes the flag -/

/-- A step either leaves the flag alone, or its thread is at one of the two assignments. -/
theorem signal_cases (horderly : Orderly state) (hstep : step state action = some next) :
    next.sync.signal = state.sync.signal ∨
      ∃ u choice call, action = .run u choice ∧ state.pc u = some call ∧
        ((∃ timed, call.point = .wait timed .reset ∧ next.sync.signal = false) ∨
          ∃ all, call.point = .notify all .set) := by
  cases step_moves hstep with
  | call | wakeUp => exact .inl rfl
  | @run u choice call sync target hcall hcode =>
      have hwrites := code_writes hcode
      rw [advance_sync]
      generalize hpoint : call.point = p at hwrites hcode
      cases hwrites with
      | keep _ _ hsignal => exact .inl hsignal
      | reset timed =>
          cases hcode
          exact .inr ⟨u, choice, call, rfl, hcall, .inl ⟨timed, hpoint, rfl⟩⟩
      | block _ hsignal => exact .inl hsignal
      | untilCondition q => exact absurd hpoint (horderly.plain u call q hcall)
      | set all => exact .inr ⟨u, choice, call, rfl, hcall, .inr ⟨all, hpoint⟩⟩
      | wake _ _ hsignal => exact .inl hsignal

omit [DecidableEq T] in
/-- A thread at a point inside the mutex owns it. -/
theorem Tracked.owner_of_marked (h : Tracked state) (hcall : state.pc t = some call)
    (hmarked : call.point.standing = .marked) : state.sync.owner = some t := by
  have hstanding := h.standing t
  rw [hcall, standingOf, Option.elim, hmarked] at hstanding
  exact hstanding.1

omit [DecidableEq T] in
theorem Tracked.owner_of_inside (h : Tracked state) (hcall : state.pc t = some call)
    (hinside : call.point.standing = .inside) : state.sync.owner = some t := by
  have hstanding := h.standing t
  rw [hcall, standingOf, Option.elim, hinside] at hstanding
  exact hstanding

/-- While a thread owns the mutex, the others leave the flag alone. -/
theorem signal_of_owner (htracked : Tracked state) (horderly : Orderly state)
    (howner : state.sync.owner = some t) (hmover : ∀ choice, action ≠ .run t choice)
    (hstep : step state action = some next) : next.sync.signal = state.sync.signal := by
  rcases signal_cases horderly hstep with hsame | ⟨u, choice, call, rfl, hcall, hwrites⟩
  · exact hsame
  · have hmarked : call.point.standing = .marked := by
      rcases hwrites with ⟨timed, hpoint, -⟩ | ⟨all, hpoint⟩ <;> rw [hpoint] <;> rfl
    have hown := htracked.owner_of_marked hcall hmarked
    cases howner.symm.trans hown
    exact absurd rfl (hmover choice)

/-! ## The way back from a timed wait -/

/-- How a timed wait returns. -/
theorem waitFor_returns {p : Synchronized.WaitPoint} {result : Result}
    (hreturn : code t choice (.wait true p) s = some (s', .inr result)) :
    s'.signal = s.signal ∧
      ((p = .check ∧ result = .bool true ∧ s.signal = true) ∨
        (p = .own true ∧ result = .bool false)) := by
  obtain ⟨inner, hinner, htarget⟩ := Body.embed_eq_some hreturn
  cases p with
  | check =>
      simp only [Synchronized.wait, Synchronized.waitLoop, Option.some.injEq,
        Prod.mk.injEq] at hinner
      obtain ⟨rfl, rfl⟩ := hinner
      split at htarget
      · next hsignal =>
          cases htarget
          exact ⟨rfl, .inl ⟨rfl, rfl, hsignal⟩⟩
      · cases htarget
  | own timeout =>
      cases hinner
      cases timeout <;> cases htarget
      exact ⟨rfl, .inr ⟨rfl, rfl⟩⟩
  | asleep =>
      simp only [Synchronized.wait, Synchronized.waitLoop] at hinner
      split at hinner <;> cases hinner
      cases htarget
  | reset | disown | block =>
      cases hinner
      cases htarget

/-- A thread reports a timeout only if its time has run out. -/
theorem gets_expired {p : Point}
    (hstep : code t choice p s = some (s', .inl (.wait true (.own true)))) :
    p = .wait true .asleep ∧ choice.timeout = true ∧ s'.signal = s.signal := by
  cases p <;> obtain ⟨inner, hinner, htarget⟩ := Body.embed_eq_some hstep
  case wait timed p =>
    rcases inner with q | result
    · simp only [Sum.map_inl, Sum.inl.injEq, Point.wait.injEq] at htarget
      obtain ⟨rfl, rfl⟩ := htarget
      cases p with
      | asleep =>
          simp only [Synchronized.wait, Synchronized.waitLoop] at hinner
          split at hinner
          · simp only [Option.some.injEq, Prod.mk.injEq, Sum.inl.injEq,
              Synchronized.WaitPoint.own.injEq, Bool.true_and] at hinner
            obtain ⟨rfl, htimeout⟩ := hinner
            exact ⟨rfl, htimeout, rfl⟩
          · cases hinner
      | check =>
          simp only [Synchronized.wait, Synchronized.waitLoop, Option.some.injEq,
            Prod.mk.injEq] at hinner
          obtain ⟨-, htarget⟩ := hinner
          split at htarget <;> cases htarget
      | own timeout =>
          cases timeout <;> cases hinner
      | reset | disown | block => cases hinner
    · cases htarget
  all_goals rcases inner with q | result <;> cases htarget

/-- The time of a thread runs out. -/
theorem expires_of_step (hasleep : state.At (· = .wait true .asleep) t)
    (htimeout : choice.timeout = true) (hstep : step state (.run t choice) = some next) :
    next.At Point.Expired t ∧ next.sync.signal = state.sync.signal := by
  obtain ⟨call, hcall, hpoint⟩ := hasleep
  obtain ⟨sync, target, hcode, rfl⟩ := run_of_step hcall hstep
  rw [hpoint] at hcode
  obtain ⟨inner, hinner, rfl⟩ := Body.embed_eq_some hcode
  simp only [Synchronized.wait, Synchronized.waitLoop] at hinner
  split at hinner
  · cases hinner
    refine ⟨⟨_, Function.update_self .., ?_⟩, rfl⟩
    simp [Point.Expired, Call.goOn, htimeout]
  · cases hinner

/-! ## One timed wait -/

variable {begin final : State T}

/-- The usage of a monitor, while `t` is inside its call. -/
def During (t : T) (state : State T) (action : Action T) : Prop :=
  Legal state action ∧ Inside t state

/-- As long as a thread is inside its timed wait, either its time has not run out while the flag
was set, or it is about to report the timeout with the flag still set. -/
theorem inTime_or_late (hbegin : Reaches step Legal initial begin)
    (hwait : Reaches step (During t) begin final) :
    Reaches step (fun state action => During t state action ∧ InTime t state action) begin final ∨
      (final.At Point.Expired t ∧ final.sync.signal = true) ∨ ¬ Inside t final := by
  induction hwait with
  | refl => exact .inl .refl
  | @tail middle target action hprior hduring hstep ih =>
      have hreach : Reaches step Legal initial middle :=
        hbegin.trans (hprior.mono fun _ _ h => h.1)
      have htracked : Tracked middle := tracked_of_reaches (fun _ _ h => h.1) hreach
      have horderly : Orderly middle := orderly_of_reaches (fun _ _ h => h) hreach
      rcases ih with hearlier | ⟨⟨call, hexpired, hpoint⟩, hsignal⟩ | houtside
      · by_cases htime : InTime t middle action
        · exact .inl (hearlier.tail action ⟨hduring, htime⟩ hstep)
        · obtain ⟨htimesOut, hsignal⟩ := Classical.not_imp.mp htime
          cases action with
          | call | wakeUp => exact htimesOut.elim
          | run u choice =>
              obtain ⟨rfl, htimeout, hasleep⟩ := htimesOut
              obtain ⟨hexpired, hsame⟩ := expires_of_step hasleep htimeout hstep
              exact .inr (.inl ⟨hexpired, hsame.trans (Bool.not_eq_false _ ▸ hsignal)⟩)
      · by_cases hmover : ∃ choice, action = .run t choice
        · obtain ⟨choice, rfl⟩ := hmover
          obtain ⟨sync, target, hcode, rfl⟩ := run_of_step hexpired hstep
          rw [hpoint] at hcode
          cases hcode
          exact .inr (.inr fun hinside => hinside (Function.update_self ..))
        · have hothers : ∀ choice, action ≠ .run t choice := fun choice heq => hmover ⟨choice, heq⟩
          have howner := htracked.owner_of_inside hexpired (hpoint ▸ rfl)
          exact .inr (.inl ⟨⟨call, pc_of_step hexpired hothers hstep, hpoint⟩,
            (signal_of_owner htracked horderly howner hothers hstep).trans hsignal⟩)
      · exact absurd hduring.2 houtside

/-- A thread whose time has not run out while the flag was set reports the timeout with the flag
not set. -/
theorem not_signal_of_inTime (hbegin : Reaches step Legal initial begin)
    (hreset : begin.At (· = .wait true .reset) t)
    (hwait : Reaches step (fun state action => During t state action ∧ InTime t state action)
      begin final) :
    final.At Point.Expired t → final.sync.signal = false := by
  induction hwait with
  | refl =>
      rintro ⟨other, hother, hexpired⟩
      obtain ⟨call, hcall, hstart⟩ := hreset
      cases Option.some.inj (hcall.symm.trans hother)
      cases hstart.symm.trans hexpired
  | @tail middle target action hprior hguard hstep ih =>
      have hreach : Reaches step Legal initial middle :=
        hbegin.trans (hprior.mono fun _ _ h => h.1.1)
      rintro ⟨call, hcall, hexpired⟩
      obtain ⟨before, hbefore⟩ := Option.ne_none_iff_exists'.mp hguard.1.2
      by_cases hmover : ∃ choice, action = .run t choice
      · obtain ⟨choice, rfl⟩ := hmover
        obtain ⟨sync, next, hcode, rfl⟩ := run_of_step hbefore hstep
        have htarget := advance_self hcall
        rw [hexpired] at htarget
        subst htarget
        obtain ⟨hasleep, htimeout, hsame⟩ := gets_expired hcode
        rw [advance_sync, hsame]
        exact hguard.2 ⟨rfl, htimeout, before, hbefore, hasleep⟩
      · have hothers : ∀ choice, action ≠ .run t choice := fun choice heq => hmover ⟨choice, heq⟩
        cases Option.some.inj ((pc_of_step hbefore hothers hstep).symm.trans hcall)
        have howner := (tracked_of_reaches (fun _ _ h => h.1) hreach).owner_of_inside hbefore
          (hexpired ▸ rfl)
        rw [signal_of_owner (tracked_of_reaches (fun _ _ h => h.1) hreach)
          (orderly_of_reaches (fun _ _ h => h) hreach) howner hothers hstep]
        exact ih ⟨_, hbefore, hexpired⟩

/-- Inside `notify` a thread stays inside. -/
theorem notify_of_target {p : Point} {all : Bool} {q : Synchronized.NotifyPoint}
    (hstep : code t choice p s = some (s', .inl (.notify all q))) :
    ∃ q, p = .notify all q := by
  cases p <;> obtain ⟨inner, -, htarget⟩ := Body.embed_eq_some hstep <;>
    rcases inner with next | result <;> cases htarget
  exact ⟨_, rfl⟩

/-- Nobody is inside `notify`, and the flag is not set behind the start of the wait. -/
structure Quiet (t : T) (state : State T) : Prop where
  silent : ∀ u call all p, state.pc u = some call → call.point ≠ .notify all p
  signal : state.At (· = .wait true .reset) t ∨ state.sync.signal = false

omit [DecidableEq T] in
theorem quiet_of_reset (htracked : Tracked state) (hreset : state.At (· = .wait true .reset) t) :
    Quiet t state where
  silent u call all p hother hpoint := by
    obtain ⟨own, hcall, hstart⟩ := hreset
    have howner := htracked.owner_of_marked hcall (by rw [hstart]; rfl)
    have hnotifier := htracked.owner_of_marked hother (by rw [hpoint]; rfl)
    cases howner.symm.trans hnotifier
    cases Option.some.inj (hcall.symm.trans hother)
    cases hstart.symm.trans hpoint
  signal := .inl hreset

theorem Quiet.step (h : Quiet t state) (horderly : Orderly state) (hsilent : Silent state action)
    (hstep : step state action = some next) : Quiet t next where
  silent u call all p hcall hpoint := by
    cases step_moves hstep with
    | call v method =>
        by_cases hu : u = v
        · subst hu
          simp only [Function.update_self, Option.some.injEq] at hcall
          subst hcall
          cases method with
          | notify | notifyAll => exact hsilent
          | _ => cases hpoint
        · exact h.silent u call all p ((Function.update_of_ne hu ..).symm.trans hcall) hpoint
    | @run v choice before sync target hbefore hcode =>
        by_cases hu : u = v
        · subst hu
          have htarget := advance_self hcall
          rw [hpoint] at htarget
          subst htarget
          obtain ⟨q, hq⟩ := notify_of_target hcode
          exact h.silent u before all q hbefore hq
        · exact h.silent u call all p ((advance_other hu).symm.trans hcall) hpoint
    | wakeUp v => exact h.silent u call all p hcall hpoint
  signal := by
    by_cases hmover : ∃ choice, action = .run t choice ∧ state.At (· = .wait true .reset) t
    · obtain ⟨choice, rfl, call, hcall, hpoint⟩ := hmover
      obtain ⟨sync, target, hcode, rfl⟩ := run_of_step hcall hstep
      rw [hpoint] at hcode
      cases hcode
      exact .inr rfl
    · rcases h.signal with ⟨call, hcall, hpoint⟩ | hsignal
      · have hothers : ∀ choice, action ≠ .run t choice := fun choice heq =>
          hmover ⟨choice, heq, call, hcall, hpoint⟩
        exact .inl ⟨call, pc_of_step hcall hothers hstep, hpoint⟩
      · rcases signal_cases horderly hstep with hsame | ⟨u, choice, call, -, hcall, hwrites⟩
        · exact .inr (hsame.trans hsignal)
        · rcases hwrites with ⟨timed, -, hfalse⟩ | ⟨all, hpoint⟩
          · exact .inr hfalse
          · exact absurd hpoint (h.silent u call all .set hcall)

/-- The result of a timed wait: it returns false with the flag not set if and only if its time
has not run out while the flag was set, and it returns true only if somebody has called `notify`
or `notify_all` since it began. -/
theorem waitFor_result_iff (hbegin : Reaches step Legal initial begin)
    (hreset : begin.At (· = .wait true .reset) t) (hwait : Reaches step (During t) begin final)
    (hcall : final.pc t = some call) {p : Synchronized.WaitPoint}
    (hpoint : call.point = .wait true p) {result : Bool}
    (hreturn : code t choice call.point final.sync = some (s', .inr (.bool result))) :
    (result = false → (s'.signal = false ↔
        Reaches step (fun state action => During t state action ∧ InTime t state action)
          begin final)) ∧
      (result = true →
        ¬ Reaches step (fun state action => Legal state action ∧ Silent state action)
          begin final) := by
  rw [hpoint] at hreturn
  obtain ⟨hsame, hcases⟩ := waitFor_returns hreturn
  have hinside : Inside t final := by simp [Inside, hcall]
  constructor
  · rintro rfl
    have hexpired : p = .own true := by
      rcases hcases with ⟨-, hresult, -⟩ | ⟨hp, -⟩
      · cases hresult
      · exact hp
    rw [hsame]
    constructor
    · intro hsignal
      rcases inTime_or_late hbegin hwait with htime | ⟨-, hlate⟩ | houtside
      · exact htime
      · cases hsignal.symm.trans hlate
      · exact absurd hinside houtside
    · intro htime
      have hpoint := hpoint.trans (congrArg _ hexpired)
      exact not_signal_of_inTime hbegin hreset htime ⟨call, hcall, hpoint⟩
  · rintro rfl hsilent
    have hsignal : p = .check ∧ final.sync.signal = true := by
      rcases hcases with ⟨hp, -, hsignal⟩ | ⟨-, hresult⟩
      · exact ⟨hp, hsignal⟩
      · cases hresult
    have hquiet : Quiet t final := by
      refine hsilent.invariant_of (fun state => Orderly state) ?_ ?_ ?_
      · intro state hprior
        exact orderly_of_reaches (fun _ _ h => h) (hbegin.trans (hprior.mono fun _ _ h => h.1))
      · exact quiet_of_reset (tracked_of_reaches (fun _ _ h => h.1) hbegin) hreset
      · intro state action next horderly hquiet hguard hstep
        exact hquiet.step horderly hguard.2 hstep
    rcases hquiet.signal with ⟨other, hother, hstart⟩ | hfalse
    · cases Option.some.inj (hcall.symm.trans hother)
      cases hsignal.1
      cases hpoint.symm.trans hstart
    · cases hsignal.2.symm.trans hfalse

instance : Decidable (During t state action) :=
  inferInstanceAs (Decidable (Legal state action ∧ state.pc t ≠ none))

instance : Decidable (InTime t state action) :=
  match action with
  | .run u choice =>
      inferInstanceAs (Decidable (u = t ∧ choice.timeout = true ∧
        state.At (· = .wait true .asleep) t → state.sync.signal = false))
  | .call _ _ | .wakeUp _ => .isTrue False.elim

/-- A thread begins a timed wait. -/
def bedtime (t : T) : List (Action T) :=
  .call t .lock :: Action.steps t 3 ++ [.call t .waitFor]

/-- It gets the mutex again with a timeout. -/
def expiry (t : T) : Action T :=
  .run t { waiter := 0, timeout := true, condition := false }

/-- Nobody notifies the thread. -/
theorem waitFor_result_timeout : ∃ (begin final : State (Fin 2)) (call : Call),
    begin.At (· = .wait true .reset) 0 ∧ final.pc 0 = some call ∧
      call.point = .wait true (.own true) ∧ final.sync.signal = false := by
  obtain ⟨begin, hbegin, hobserved⟩ : ∃ begin : State (Fin 2), Reaches step Legal initial begin ∧
      (decide (begin.At (· = .wait true .reset) 0),
        (execute step (fun state action => decide (During 0 state action ∧ InTime 0 state action))
          (Action.steps 0 4 ++ [.wakeUp 0, expiry 0]) begin).map fun final => final.pc 0) =
      (true, some (some ⟨.wait true (.own true), true, true⟩)) :=
    Reaches.of_observed (fun state action => decide (Legal state action)) (bedtime 0)
      (fun _ _ => of_decide_eq_true) (by decide +kernel)
  simp only [Prod.mk.injEq, decide_eq_true_eq] at hobserved
  obtain ⟨hreset, hthen⟩ := hobserved
  obtain ⟨final, hfinal, hcall⟩ := Option.map_eq_some_iff.mp hthen
  have hwait := Reaches.of_execute (fun _ _ => of_decide_eq_true) hfinal
  refine ⟨begin, final, _, hreset, hcall, rfl, ?_⟩
  have hreturn : code (T := Fin 2) 0 ⟨0, false, false⟩ (.wait true (.own true)) final.sync =
      some ({ final.sync with tid := some 0 }, .inr (.bool false)) := rfl
  exact ((waitFor_result_iff hbegin hreset (hwait.mono fun _ _ h => h.1) hcall rfl hreturn).1
    rfl).mpr hwait

/-- The flag is set behind the end of the time, before the thread has got the mutex again: it
reports the timeout with the flag set. -/
theorem waitFor_ignores_signal : ∃ (begin final : State (Fin 2)) (call : Call),
    Reaches step Legal initial begin ∧ begin.At (· = .wait true .reset) 0 ∧
      Reaches step (During 0) begin final ∧ final.pc 0 = some call ∧
      code 0 ⟨0, false, false⟩ call.point final.sync =
        some ({ final.sync with tid := some 0 }, .inr (.bool false)) ∧
      final.sync.signal = true := by
  obtain ⟨begin, hbegin, hobserved⟩ : ∃ begin : State (Fin 2), Reaches step Legal initial begin ∧
      (decide (begin.At (· = .wait true .reset) 0),
        (execute step (fun state action => decide (During 0 state action))
          (Action.steps 0 4 ++ .wakeUp 0 :: .call 1 .lock :: Action.steps 1 3 ++
            .call 1 .notify :: Action.steps 1 2 ++ .call 1 .unlock :: Action.steps 1 3 ++
              [expiry 0]) begin).map fun final => (final.pc 0, final.sync.signal)) =
      (true, some (some ⟨.wait true (.own true), true, true⟩, true)) :=
    Reaches.of_observed (fun state action => decide (Legal state action)) (bedtime 0)
      (fun _ _ => of_decide_eq_true) (by decide +kernel)
  simp only [Prod.mk.injEq, decide_eq_true_eq] at hobserved
  obtain ⟨hreset, hthen⟩ := hobserved
  obtain ⟨final, hfinal, hlast⟩ := Option.map_eq_some_iff.mp hthen
  simp only [Prod.mk.injEq] at hlast
  exact ⟨begin, final, _, hbegin, hreset, .of_execute (fun _ _ => of_decide_eq_true) hfinal,
    hlast.1, rfl, hlast.2⟩

end ThreadPools.Boost
