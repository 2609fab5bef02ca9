/-
# Behind `terminate`

A queued pool whose `terminate` has returned is closed for ever: its managers are gone, its
threads have ended, and what later calls find is what the first one has left.
-/

import ThreadPools.Posix.Fate

namespace ThreadPools.Posix

open ThreadPools.Concurrency

/-! ## A closed pool -/

theorem ThreadPool.TerminatePoint.Control.unchanged {p : TerminatePoint} {pool : Pool}
    (h : p.Control pool.life) (hnil : pool.taskList = []) :
    (terminate p pool).after pool = pool := by
  -- there is no manager to be stopped or deleted
  have hnone : ∀ {m : ManagerId} {rest : List ManagerId}, ¬ m :: rest <:+ pool.life.taskList := by
    intro m rest hsuffix
    rw [show pool.life.taskList = [] from hnil] at hsuffix
    cases List.suffix_nil.mp hsuffix
  cases p with
  | enter | finish => rfl
  | stop m rest p => exact absurd h.1 hnone
  | empty p =>
      cases p with
      | destroy m rest p => exact absurd h.1 hnone
      | clear =>
          obtain ⟨taskList, managers, queue, go, status, threads, log⟩ := pool
          cases hnil
          rfl

/-- Another `terminate` changes nothing. -/
theorem QueuedThreadPool.TerminatePoint.Control.unchanged {p : TerminatePoint} {pool : Pool}
    (h : p.Control pool.life) (hclosed : pool.life.Closed) :
    (terminate p pool).after pool = pool := by
  cases p with
  | enter | leave => rfl
  | stop =>
      obtain ⟨taskList, managers, queue, go, status, threads, log⟩ := pool
      cases hclosed.1
      rfl
  | base p => exact ThreadPool.TerminatePoint.Control.unchanged h.2 hclosed.2

/-- What holds of a queued pool from the moment `terminate` returns. -/
structure QueuedThreadPool.Terminated (cfg : Config) (returned state : PoolState) : Prop where
  taskList : state.data.taskList = []
  joined : ∀ m < cfg.size, (state.data.managers m).destroyed = true ∧
    (state.data.managers m).status ≠ .running ∧ state.pc (.worker m) = .worker .exited
  /-- no task is being run -/
  idle : ∀ m call, state.pc (.worker m) ≠ .worker (.running call)
  /-- and none has been started since -/
  started : state.data.log.started = returned.data.log.started
  /-- the queue holds the tasks that have not been dispatched, until the destructor empties it -/
  queue : state.data.log.pushed =
    state.data.log.placed.map Prod.fst ++ state.data.log.dropped ++ state.data.queue
  dropped : state.data.log.closing = false → state.data.log.dropped = []
  /-- `execute` deletes its task and leaves the queue alone -/
  execute : ∀ c task p input choice next,
    state.pc (.client c) = .client (some (.queuedExecute task p)) →
    cfg.program.step state (.run (.client c) input choice) = some next →
    next.data.queue = state.data.queue ∧
      (p = .lock ∧ next.data = state.data ∧
          next.pc (.client c) = .client (some (.queuedExecute task .body)) ∨
        p = .body ∧ next.pc (.client c) = .client none ∧
          next.data.log.deleted = state.data.log.deleted ++ task.toList)
  /-- `terminate` changes nothing -/
  terminate : ∀ c p input choice next,
    state.pc (.client c) = .client (some (.queuedTerminate p)) →
    cfg.program.step state (.run (.client c) input choice) = some next →
    next.data = state.data

namespace Config

variable {cfg : Config} {guard : PoolState → PoolAction → Prop} {state next : PoolState} {c : Nat}
  {call : Call} {input : Input} {choice : Nat}

/-- A closed pool stays closed. -/
theorem closed_of_reaches {returned : PoolState} (hclosed : returned.data.life.Closed)
    (hlater : Reaches cfg.program.step guard returned state) : state.data.life.Closed := by
  induction hlater with
  | refl => exact hclosed
  | tail action _ _ hstep ih =>
      rcases data_step hstep with hsame | ⟨effect, heffect⟩
      · rw [hsame]
        exact ih
      · rw [heffect, Pool.life_apply]
        exact ih.apply effect

/-- A task is started by a worker in its loop. -/
theorem Moves.not_begin {pool : Pool} {t : Tid} {p : Point} {piece : Piece Point}
    (hmoves : cfg.Moves pool t input p piece) (hkind : cfg.kind = .queuedThreadPool)
    (hfits : p.Fits cfg.kind mayExecute t)
    (hexited : ∀ m, t = .worker m → p = .worker .exited) (m : ManagerId) :
    piece.effect ≠ some (.begin m) := by
  intro heffect
  by_cases ht : t = .dispatcher
  · subst ht
    obtain ⟨q, rfl⟩ := Point.Fits.dispatcher hfits
    generalize hp : Point.dispatcher q = start at hmoves
    cases hmoves with
    | enter t => exact absurd hp.symm (Tid.calling_ne_dispatcher _ _ _)
    | call t => exact absurd hp.symm (Tid.calling_ne_dispatcher _ _ _)
    | dispatcher hmoves =>
        rcases hmoves.effect_cases heffect with hsilent | hpop | ⟨x, m, rest, hplace, -, -⟩
        · exact hsilent.2 m rfl
        · cases hpop
        · cases hplace
  · rcases hmoves.queue_cases ht hkind hfits heffect with
      hquiet | ⟨task, hpush⟩ | ⟨hempty, -⟩ | ⟨i, rfl, hown, hp⟩
    · exact hquiet.started m rfl
    · cases hpush
    · cases hempty
    · cases hexited i rfl
      rcases hp with hloop | hrunning
      · cases hloop
      · cases hrunning

/-- The workers of a closed pool have ended. -/
theorem exited_of_closed (hkind : cfg.kind = .queuedThreadPool) (hguard : cfg.Disciplined guard)
    (hrun : Reaches cfg.program.step guard cfg.initial state) (hclosed : state.data.life.Closed)
    (m : ManagerId) : state.pc (.worker m) = .worker .exited := by
  by_cases hm : m < cfg.size
  · exact (exited_of_removed (lifecycle_of_reaches hguard.tasksCall hrun) hclosed.2
      (shape_of_reaches hguard.tasksCall hrun) hm).1
  · exact ((dispatching_of_reaches hrun).assertion (.worker m) hkind).ended m rfl
      (Nat.le_of_not_lt hm)

/-- No task is started in a closed pool. -/
theorem started_of_closed (hkind : cfg.kind = .queuedThreadPool) (hguard : cfg.Disciplined guard)
    (hrun : Reaches cfg.program.step guard cfg.initial state) (hclosed : state.data.life.Closed)
    {action : PoolAction} (hstep : cfg.program.step state action = some next) :
    next.data.log.started = state.data.log.started := by
  rcases Program.step_cases hstep with
    ⟨t, input, choice, piece, -, hcode, -, rfl⟩ | ⟨t, input, choice, piece, -, -, -, rfl⟩ |
    ⟨m, t, -, -, rfl⟩
  · show (cfg.program.dataAfter piece state.data).log.started = _
    rw [dataAfter_eq]
    cases heffect : piece.effect with
    | none => rw [Piece.after_of_none heffect]
    | some effect =>
        rw [Piece.after_of_some heffect]
        refine Pool.started_apply (fun m hbegin => ?_) state.data
        refine (code_moves hcode).not_begin hkind
          ((shape_of_reaches hguard.tasksCall hrun).assertion t) ?_ m
          (heffect.trans (by rw [hbegin]))
        rintro i rfl
        exact exited_of_closed hkind hguard hrun hclosed i
  · rfl
  · rfl

/-- The state of a queued pool in which `terminate` has been finished. -/
theorem terminated_of_closed (hkind : cfg.kind = .queuedThreadPool)
    (hguard : ∀ state action, guard state action →
      Annotation.Respects (TasksCall noCallback) state action)
    (hrun : Reaches cfg.program.step guard cfg.initial state) (hclosed : state.data.life.Closed)
    {returned : PoolState} (hstarted : state.data.log.started = returned.data.log.started) :
    QueuedThreadPool.Terminated cfg returned state := by
  have hdisciplined : cfg.Disciplined guard := disciplined_of_noCallback hguard
  have hlife := lifecycle_of_reaches hdisciplined.tasksCall hrun
  have hshape := shape_of_reaches hdisciplined.tasksCall hrun
  have hdispatching := dispatching_of_reaches hrun
  have hwell : state.data.life.WellFormed cfg.size := hlife.invariant
  have hexited := exited_of_closed hkind hdisciplined hrun hclosed
  refine ⟨hclosed.2, fun m hm => ?_, fun m call hrunning => ?_, hstarted, ?_,
    (hdispatching.invariant hkind).2, fun c task p input choice next hp hstep => ?_,
    fun c p input choice next hp hstep => ?_⟩
  · have hdestroyed := (exited_of_removed hlife hclosed.2 hshape hm).2
    exact ⟨hdestroyed, (hwell.stopped m hdestroyed).2, hexited m⟩
  · cases (hexited m).symm.trans hrunning
  · -- the dispatcher is not about to remove a task
    obtain ⟨q, hq⟩ := dispatcher_point (shape_of_reaches_any hrun)
    have hcontrol := hlife.assertion .dispatcher
    rw [hq] at hcontrol
    have hassigned : ∀ t, q ≠ .assigned t := fun t ht => by
      subst ht
      cases hclosed.1.symm.trans hcontrol.2.2
    have horder := ((hdispatching.assertion .dispatcher hkind).dispatches q hq).order
    rwa [QueuedThreadPool.RunPoint.waiting_eq hassigned] at horder
  · have hgo : state.data.go = false := hclosed.1
    rcases step_of_client hp hstep with ⟨hdata, hpc⟩ | ⟨-, -, hraises⟩
    · cases p with
      | lock =>
          have hsame : next.data = state.data := hdata
          exact ⟨by rw [hsame], .inl ⟨rfl, hsame, hpc⟩⟩
      | body =>
          have hcode : QueuedThreadPool.execute task .body state.data =
              { op := .unlock .dispatcher, effect := some (.reject task), next := .inr () } := by
            simp [QueuedThreadPool.execute, hgo]
          simp only [Call.code, Call.piece, Piece.after_map, hcode] at hdata hpc
          rw [hdata]
          exact ⟨rfl, .inr ⟨rfl, hpc, rfl⟩⟩
    · -- the thread is not inside the monitor it enters
      cases p with
      | lock =>
          have hheld := ((locked_of_reaches hrun).owner .dispatcher (.client c)).mp hraises
          rw [hp] at hheld
          cases hheld
      | body =>
          have hcode : QueuedThreadPool.execute task .body state.data =
              { op := .unlock .dispatcher, effect := some (.reject task), next := .inr () } := by
            simp [QueuedThreadPool.execute, hgo]
          simp only [Call.code, Call.piece, Instr.map_op, hcode] at hraises
          exact hraises.elim
  · rcases step_of_client hp hstep with ⟨hdata, -⟩ | ⟨hdata, -⟩
    · have hcontrol := hlife.assertion (.client c)
      rw [hp] at hcontrol
      exact hdata.trans ((hcontrol _ rfl).unchanged hclosed)
    · exact hdata

/-- `terminate` is final: in every state behind its return the pool is as it has left it. -/
theorem terminate_final (hkind : cfg.kind = .queuedThreadPool)
    (hguard : ∀ state action, guard state action →
      Annotation.Respects (TasksCall noCallback) state action)
    {before returned : PoolState} (hbefore : Reaches cfg.program.step guard cfg.initial before)
    (hp : before.pc (.client c) = .client (some (.queuedTerminate .leave)))
    (hallowed : guard before (.run (.client c) input choice))
    (hreturns : cfg.program.step before (.run (.client c) input choice) = some returned)
    (hlater : Reaches cfg.program.step guard returned state) :
    QueuedThreadPool.Terminated cfg returned state := by
  have hdisciplined : cfg.Disciplined guard := disciplined_of_noCallback hguard
  have hreturned : Reaches cfg.program.step guard cfg.initial returned :=
    hbefore.tail _ hallowed hreturns
  have hclosed : returned.data.life.Closed := by
    have hcontrol := (lifecycle_of_reaches hdisciplined.tasksCall hbefore).assertion (.client c)
    rw [hp] at hcontrol
    have hsame : returned.data = before.data := by
      rcases step_of_client hp hreturns with ⟨hdata, -⟩ | ⟨hdata, -⟩ <;> exact hdata
    rw [hsame]
    exact hcontrol _ rfl
  have hstarted : state.data.log.started = returned.data.log.started := by
    induction hlater with
    | refl => rfl
    | tail action hprior _ hstep ih =>
        exact (started_of_closed hkind hdisciplined (hreturned.trans hprior)
          (closed_of_reaches hclosed hprior) hstep).trans ih
  exact terminated_of_closed hkind hguard (hreturned.trans hlater)
    (closed_of_reaches hclosed hlater) hstarted

/-- A task is still queued when the pool is terminated; another one comes too late. -/
theorem terminate_final_queued : ∃ returned state : PoolState,
    QueuedThreadPool.Terminated (Config.complete .queuedThreadPool 1) returned state ∧
      state.data.queue = [some 5] ∧ state.data.log.deleted = [6] := by
  let cfg := Config.complete .queuedThreadPool 1
  let check (state : PoolState) (action : PoolAction) : Bool := decide (Contract state action)
  have hexecute : ((execute cfg.program.step check
        (PoolAction.call (.client 0) (.execute (some 5)) :: PoolAction.steps (.client 0) 2 ++
          PoolAction.call (.client 1) .terminate :: PoolAction.steps (.client 1) 7 ++
          PoolAction.steps (.worker 0) 6 ++ PoolAction.steps (.client 1) 3) cfg.initial).bind
        fun before => (cfg.program.step before (PoolAction.go (.client 1))).bind fun returned =>
          (execute cfg.program.step check
            (PoolAction.call (.client 0) (.execute (some 6)) :: PoolAction.steps (.client 0) 2)
            returned).map fun state =>
              (before.pc (.client 1), state.data.queue, state.data.log.deleted)) =
      some (.client (some (.queuedTerminate .leave)), [some 5], [6]) := by decide +kernel
  obtain ⟨before, hbefore, hrest⟩ := Option.bind_eq_some_iff.mp hexecute
  obtain ⟨returned, hreturns, hrest⟩ := Option.bind_eq_some_iff.mp hrest
  obtain ⟨state, hlater, hobserved⟩ := Option.map_eq_some_iff.mp hrest
  simp only [Prod.mk.injEq] at hobserved
  have hsound : ∀ state action, check state action = true → Contract state action :=
    fun _ _ => of_decide_eq_true
  refine ⟨returned, state, terminate_final rfl (fun _ _ h => h.1) (.of_execute hsound hbefore)
    hobserved.1 ?_ hreturns (.of_execute hsound hlater), hobserved.2⟩
  exact ⟨nofun, nofun⟩

end Config

end ThreadPools.Posix
