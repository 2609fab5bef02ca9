/-
# The observers of the Boost `QueuedThreadPool`

`is_idle`, `is_busy` and `queue_length` look for queued tasks with `try_executing_one`,
which runs a task when there is one and does not see what the workers are doing. The
observers leave the pool alone, and tell the truth, exactly where they find nothing there;
and of an empty pool both `is_idle` and `is_busy` hold.
-/

import ThreadPools.Boost.QueuedThreadPool

namespace ThreadPools.Boost.QueuedThreadPool

open ThreadPools.Concurrency

variable {E : Type} {executor : Executor E} {size : Nat} {state next : State E} {t : Tid}

/-- The point of an observer. -/
def Call.checkPoint : Call → Option CheckPoint
  | .isIdle p | .isBusy p | .queueLength p => some p
  | .execute _ _ | .terminate => none

/-- What a call returns when it is not interrupted. The task it may run does not change
the result. -/
inductive Returns (executor : Executor E) (size : Nat) : Call → Option E → Answer → Prop
  | now {call : Call} {ea : Option E} {answer : Answer}
      (hnext : (call.code executor size ea).next = .inr answer) :
      Returns executor size call ea answer
  | later {call next : Call} {ea : Option E} {answer : Answer}
      (hnext : (call.code executor size ea).next = .inl next)
      (hrest : Returns executor size next (call.code executor size ea).ea answer) :
      Returns executor size call ea answer

/-- The observers only observe. -/
structure Observing (executor : Executor E) (size : Nat) (state : State E) : Prop where
  /-- no step of an observer removes or runs a task -/
  untouched : ∀ t call outer next, state.stack t = .call call :: outer →
    call.checkPoint ≠ none → step executor size state (.run t) = some next →
    next.queued executor = state.queued executor ∧ next.started = state.started
  /-- where `is_idle` returns true, nothing is queued or being executed -/
  idle : ∀ t p outer, state.stack t = .call (.isIdle p) :: outer →
    ((Call.isIdle p).code executor size state.ea).next = .inr (.bool true) →
    state.queued executor = [] ∧ ¬ state.Executing
  exclusive : ¬ (Returns executor size Method.isIdle.entry state.ea (.bool true) ∧
    Returns executor size Method.isBusy.entry state.ea (.bool true))

/-- The pool has threads, and a thread turns to `try_executing_one` only when no task is
queued, and in `is_idle` only when no task is being executed either. -/
structure Undisturbed (executor : Executor E) (size : Nat) (state : State E) : Prop where
  threads : 0 < size
  queue : ∀ t call outer, state.stack t = .call call :: outer →
    call.checkPoint = some .tryExecutingOne → state.queued executor = []
  workers : ∀ t outer, state.stack t = .call (.isIdle .tryExecutingOne) :: outer →
    ¬ state.Executing

/-! ## One step of an observer -/

theorem step_run {call : Call} {outer : List Frame} (hstack : state.stack t = .call call :: outer) :
    step executor size state (.run t) =
      some (state.advance t call outer (call.code executor size state.ea)) := by
  simp only [step, hstack]

/-- An observer is the common check, up to its result. -/
theorem Call.code_check (executor : Executor E) (size : Nat) {call : Call} {p : CheckPoint}
    (hcall : call.checkPoint = some p) (ea : Option E) :
    ∃ result, (call.code executor size ea).ea = (check executor size result p ea).ea ∧
      (call.code executor size ea).runs = (check executor size result p ea).runs := by
  cases call <;> cases hcall
  · exact ⟨false, rfl, rfl⟩
  · exact ⟨true, rfl, rfl⟩
  · exact ⟨true, rfl, rfl⟩

/-- A check that finds nothing to execute leaves the executor alone. -/
theorem check_untouched (size : Nat) (result : Bool) (hdocumented : executor.Documented)
    {p : CheckPoint} {ea : Option E}
    (hqueue : p = .tryExecutingOne → (ea.map executor.queued).getD [] = []) :
    (check executor size result p ea).ea = ea ∧ (check executor size result p ea).runs = none := by
  cases p with
  | size | executed => exact ⟨rfl, rfl⟩
  | closed => cases ea <;> exact ⟨rfl, rfl⟩
  | tryExecutingOne =>
      cases ea with
      | none => exact ⟨rfl, rfl⟩
      | some e =>
          have htake : executor.take e = none := hdocumented.take_eq_none.mpr (hqueue rfl)
          simp only [check, htake]
          trivial

/-- A check that finds something runs it. -/
theorem check_runs (hdocumented : executor.Documented) {result : Bool} {ea : Option E}
    (hqueue : (ea.map executor.queued).getD [] ≠ []) :
    (check executor size result .tryExecutingOne ea).runs ≠ none := by
  cases ea with
  | none => exact absurd rfl hqueue
  | some e =>
      obtain ⟨⟨task, rest⟩, htake⟩ : ∃ taken, executor.take e = some taken :=
        Option.ne_none_iff_exists'.mp fun hnone => hqueue (hdocumented.take_eq_none.mp hnone)
      simp [check, htake]

/-- No call destroys the executor. -/
theorem Call.code_ea {call : Call} {e : E} : (call.code executor size (some e)).ea ≠ none := by
  cases hcall : call.checkPoint with
  | some p =>
      obtain ⟨result, hea, -⟩ := Call.code_check executor size hcall (some e)
      rw [hea]
      cases p with
      | size | closed | executed => exact nofun
      | tryExecutingOne =>
          simp only [check]
          split <;> exact nofun
  | none =>
      cases call with
      | execute task p =>
          cases p with
          | closed => exact nofun
          | submit =>
              simp only [code, QueuedThreadPool.execute, Piece.map]
              split <;> exact nofun
      | terminate => exact nofun
      | isIdle | isBusy | queueLength => cases hcall

/-- Where `is_idle` returns true. -/
theorem isIdle_returns {p : CheckPoint} {ea : Option E}
    (hreturns : ((Call.isIdle p).code executor size ea).next = .inr (.bool true)) :
    p = .size ∧ size = 0 ∨ p = .tryExecutingOne := by
  cases p with
  | size =>
      by_cases hsize : size = 0
      · exact .inl ⟨rfl, hsize⟩
      · simp [Call.code, isIdle, check, Piece.map, hsize] at hreturns
  | closed =>
      cases ea with
      | none => simp [Call.code, isIdle, check, Piece.map] at hreturns
      | some e =>
          simp only [Call.code, isIdle, check, Piece.map] at hreturns
          split at hreturns <;> cases hreturns
  | tryExecutingOne => exact .inr rfl
  | executed => simp [Call.code, isIdle, check, Piece.map] at hreturns

/-! ## Uninterrupted calls -/

/-- An uninterrupted call has one result. -/
theorem Returns.unique {call : Call} {ea : Option E} {first second : Answer}
    (hfirst : Returns executor size call ea first)
    (hsecond : Returns executor size call ea second) :
    first = second := by
  induction hfirst with
  | now hnext =>
      cases hsecond with
      | now hother => exact Sum.inr.inj (hnext.symm.trans hother)
      | later hother => cases hnext.symm.trans hother
  | later hnext _ ih =>
      cases hsecond with
      | now hother => cases hnext.symm.trans hother
      | later hother hrest =>
          cases hnext.symm.trans hother
          exact ih hrest

/-- The executor is closed, or a closure waits in it. -/
def Executor.busy (executor : Executor E) (e : E) : Bool :=
  executor.closed e || (executor.take e).isSome

/-- What `is_idle` and `is_busy` of a pool with threads return. -/
theorem returns_check {call : CheckPoint → Call} {result : Bool}
    (hcode : ∀ p ea, (call p).code executor size ea =
      (check executor size result p ea).map call .bool) (hsize : size ≠ 0) (ea : Option E) :
    Returns executor size (call .size) ea (.bool (ea.any fun e => executor.busy e == result)) := by
  have hsame : ((call .size).code executor size ea).ea = ea := by
    rw [hcode]
    rfl
  have hopen : ((call .size).code executor size ea).next = .inl (call .closed) := by
    simp [hcode, check, Piece.map, hsize]
  refine .later hopen ?_
  rw [hsame]
  cases ea with
  | none => exact .now (by simp [hcode, check, Piece.map])
  | some e =>
      cases hclosed : executor.closed e with
      | true => exact .now (by simp [hcode, check, Piece.map, hclosed, Executor.busy])
      | false =>
          have htry : ((call .closed).code executor size (some e)).next =
              .inl (call .tryExecutingOne) := by
            simp [hcode, check, Piece.map, hclosed]
          refine .later htry ?_
          rw [show ((call .closed).code executor size (some e)).ea = some e by rw [hcode]; rfl]
          cases htake : executor.take e with
          | none =>
              exact .now (by simp [hcode, check, Piece.map, hclosed, htake, Executor.busy])
          | some taken =>
              have hexecuted : ((call .tryExecutingOne).code executor size (some e)).next =
                  .inl (call .executed) := by
                simp [hcode, check, Piece.map, htake]
              exact .later hexecuted
                (.now (by simp [hcode, check, Piece.map, hclosed, htake, Executor.busy]))

/-- A pool with threads is not both idle and busy. -/
theorem not_idle_and_busy (hsize : size ≠ 0) (ea : Option E) :
    ¬ (Returns executor size Method.isIdle.entry ea (.bool true) ∧
      Returns executor size Method.isBusy.entry ea (.bool true)) := by
  rintro ⟨hidle, hbusy⟩
  have hnotBusy := hidle.unique (returns_check (fun _ _ => rfl) hsize ea)
  have hisBusy := hbusy.unique (returns_check (fun _ _ => rfl) hsize ea)
  cases ea with
  | none => cases hnotBusy
  | some e => cases hbusy : executor.busy e <;> simp_all

/-- An empty pool is both. -/
theorem idle_and_busy_of_empty (executor : Executor E) (ea : Option E) :
    Returns executor 0 Method.isIdle.entry ea (.bool true) ∧
      Returns executor 0 Method.isBusy.entry ea (.bool true) :=
  ⟨.now rfl, .now rfl⟩

/-! ## Every state, and every run -/

theorem Undisturbed.observing (h : Undisturbed executor size state)
    (hdocumented : executor.Documented) : Observing executor size state where
  untouched t call outer next hstack hcall hstep := by
    obtain ⟨p, hp⟩ := Option.ne_none_iff_exists'.mp hcall
    obtain ⟨result, hea, hruns⟩ := Call.code_check executor size hp state.ea
    obtain ⟨hsame, hnone⟩ := check_untouched size result hdocumented
      fun htry => h.queue t call outer hstack (hp.trans (congrArg some htry))
    rw [step_run hstack, Option.some.injEq] at hstep
    subst hstep
    simp [State.queued, State.advance, hea, hruns, hsame, hnone]
  idle t p outer hstack hreturns := by
    rcases isIdle_returns hreturns with ⟨-, hzero⟩ | rfl
    · exact absurd h.threads (hzero ▸ Nat.lt_irrefl 0)
    · exact ⟨h.queue t _ outer hstack rfl, h.workers t outer hstack⟩
  exclusive := not_idle_and_busy (Nat.ne_of_gt h.threads) state.ea

/-- A pool with threads has an executor. -/
theorem ea_of_reaches {guard : State E → Action → Prop} (hsize : size ≠ 0)
    (hrun : Reaches (step executor size) guard (initial executor size) state) :
    state.ea ≠ none := by
  induction hrun with
  | refl => simp [initial, hsize]
  | tail action _ _ hstep ih =>
      cases action with
      | call t method =>
          simp only [step] at hstep
          split at hstep <;> cases hstep
          exact ih
      | run t =>
          simp only [step] at hstep
          split at hstep <;> cases hstep
          obtain ⟨e, he⟩ := Option.ne_none_iff_exists'.mp ih
          rw [he]
          exact Call.code_ea
      | take w =>
          simp only [step] at hstep
          split at hstep
          · obtain ⟨taken, -, rfl⟩ := Option.map_eq_some_iff.mp hstep
            exact nofun
          · cases hstep
      | finish t =>
          simp only [step] at hstep
          split at hstep <;> cases hstep
          exact ih

theorem Observing.undisturbed (h : Observing executor size state)
    (hdocumented : executor.Documented) (hea : size ≠ 0 → state.ea ≠ none) :
    Undisturbed executor size state := by
  have hsize : size ≠ 0 := fun hzero => by
    subst hzero
    exact h.exclusive (idle_and_busy_of_empty executor state.ea)
  have hqueue : ∀ t call outer, state.stack t = .call call :: outer →
      call.checkPoint = some .tryExecutingOne → state.queued executor = [] := by
    intro t call outer hstack hcall
    by_contra hqueued
    obtain ⟨result, -, hruns⟩ := Call.code_check executor size hcall state.ea
    have hstarted := (h.untouched t call outer _ hstack (by rw [hcall]; nofun) (step_run hstack)).2
    simp only [State.advance, List.append_right_eq_self, Option.toList_eq_nil_iff,
      hruns] at hstarted
    exact check_runs hdocumented hqueued hstarted
  refine ⟨Nat.pos_of_ne_zero hsize, hqueue, fun t outer hstack => (h.idle t _ outer hstack ?_).2⟩
  -- with nothing in the executor `is_idle` returns true
  obtain ⟨e, he⟩ := Option.ne_none_iff_exists'.mp (hea hsize)
  have hqueued := hqueue t _ outer hstack rfl
  rw [State.queued, he] at hqueued
  have htake : executor.take e = none := hdocumented.take_eq_none.mpr hqueued
  simp [Call.code, isIdle, check, Piece.map, he, htake]

/-! ## An executor with one queue -/

/-- A state of an executor that runs its closures in the order of their submission. -/
structure Fifo where
  queue : List Runnable
  isClosed : Bool
  deriving DecidableEq

def fifo : Executor Fifo where
  create _ := { queue := [], isClosed := false }
  queued e := e.queue
  closed e := e.isClosed
  close e := { e with isClosed := true }
  submit task e := if e.isClosed then none else some { e with queue := e.queue ++ [task] }
  take e :=
    match e.queue with
    | [] => none
    | task :: rest => some (task, { e with queue := rest })

theorem fifo_documented : fifo.Documented where
  take_eq_none := by
    rintro ⟨_ | ⟨task, rest⟩, isClosed⟩ <;> simp [fifo]
  take_eq_some := by
    rintro ⟨_ | ⟨task, rest⟩, isClosed⟩ other after htake
    · cases htake
    · cases htake
      exact .refl _

/-! ## The observers -/

/-- In every state of every run the observers only observe, if and only if the pool has
threads and every thread that is about to try the executor finds nothing there. -/
theorem observers_observe {guard : State E → Action → Prop} (hdocumented : executor.Documented)
    (hrun : Reaches (step executor size) guard (initial executor size) state) :
    Observing executor size state ↔ Undisturbed executor size state :=
  ⟨fun h => h.undisturbed hdocumented fun hsize => ea_of_reaches hsize hrun,
    fun h => h.observing hdocumented⟩

/-- A client asks an open pool without tasks whether it is idle. -/
theorem observers_observe_idle : ∃ state : State Fifo,
    state.stack (.client 0) = [.call (.isIdle .tryExecutingOne)] ∧ Observing fifo 1 state := by
  have hrun : Reaches (step fifo 1) (fun _ _ => True) (initial fifo 1) _ :=
    ((Reaches.refl.tail (.call (.client 0) .isIdle) trivial rfl).tail (.run (.client 0)) trivial
      rfl).tail (.run (.client 0)) trivial rfl
  refine ⟨_, rfl, (observers_observe fifo_documented hrun).mpr
    ⟨Nat.zero_lt_one, fun _ _ _ _ _ => rfl, fun t outer _ => ?_⟩⟩
  rintro ⟨w, hw⟩
  exact hw rfl

/-- A client that asks whether the pool is idle runs the task another call has queued; a pool
with a task at work is idle; and an empty pool is both idle and busy. -/
theorem observers_interfere :
    (∃ state next : State Fifo,
      Reaches (step fifo 1) (fun _ _ => True) (initial fifo 1) state ∧
        state.stack (.client 0) = [.call (.isIdle .tryExecutingOne)] ∧
        step fifo 1 state (.run (.client 0)) = some next ∧
        state.queued fifo = [5] ∧ next.queued fifo = [] ∧ next.started = state.started ++ [5] ∧
        next.stack (.client 0) = [.task 5, .call (.isIdle .executed)]) ∧
      (∃ state : State Fifo,
        Reaches (step fifo 1) (fun _ _ => True) (initial fifo 1) state ∧
          state.stack (.worker 0) = [.task 5] ∧
          state.stack (.client 0) = [.call (.isIdle .tryExecutingOne)] ∧
          ((Call.isIdle .tryExecutingOne).code fifo 1 state.ea).next = .inr (.bool true)) ∧
      Returns fifo 0 Method.isIdle.entry (initial fifo 0).ea (.bool true) ∧
      Returns fifo 0 Method.isBusy.entry (initial fifo 0).ea (.bool true) := by
  refine ⟨?_, ?_, idle_and_busy_of_empty fifo _⟩
  · obtain ⟨state, hrun, hobserved⟩ : ∃ state : State Fifo,
        Reaches (step fifo 1) (fun _ _ => True) (initial fifo 1) state ∧
          (state.stack (.client 0), state.ea) =
          ([.call (.isIdle .tryExecutingOne)], some { queue := [5], isClosed := false }) :=
      Reaches.of_observed (fun _ _ => true)
        [.call (.client 0) (.execute 5), .run (.client 0), .run (.client 0),
          .call (.client 0) .isIdle, .run (.client 0), .run (.client 0)]
        (fun _ _ _ => trivial) (by decide)
    simp only [Prod.mk.injEq] at hobserved
    obtain ⟨hstack, hea⟩ := hobserved
    refine ⟨state, _, hrun, hstack, step_run hstack, ?_⟩
    simp only [State.queued, State.advance, hea]
    exact ⟨rfl, rfl, rfl, Function.update_self ..⟩
  · obtain ⟨state, hrun, hobserved⟩ : ∃ state : State Fifo,
        Reaches (step fifo 1) (fun _ _ => True) (initial fifo 1) state ∧
          (state.stack (.worker 0), state.stack (.client 0),
            ((Call.isIdle .tryExecutingOne).code fifo 1 state.ea).next) =
          ([.task 5], [.call (.isIdle .tryExecutingOne)], .inr (.bool true)) :=
      Reaches.of_observed (fun _ _ => true)
        [.call (.client 0) (.execute 5), .run (.client 0), .run (.client 0), .take 0,
          .call (.client 0) .isIdle, .run (.client 0), .run (.client 0)]
        (fun _ _ _ => trivial) (by decide)
    simp only [Prod.mk.injEq] at hobserved
    exact ⟨state, hrun, hobserved⟩

end ThreadPools.Boost.QueuedThreadPool
