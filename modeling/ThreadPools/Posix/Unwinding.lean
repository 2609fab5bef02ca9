/-
# An exception inside `terminate`

A task that terminates the pool that runs it comes to its own manager in the
loop over `stop()` and locks it recursively. The exception leaves the loop in
the middle: the task list stays as it was, the managers behind the own one have
not been touched, and the managers in front of it have been told to stop, but
not been woken. They stay on the list, take tasks, and never run one.
-/

import ThreadPools.Posix.Shutdown

namespace ThreadPools.Posix

open ThreadPools.Concurrency

/-! ## Outside of the pool's monitor -/

namespace ThreadPool

theorem terminate_next_finish {p : TerminatePoint} {pool : Pool}
    (hnext : (terminate p pool).next = .inl .finish) : p = .empty .clear := by
  have hstart : ∀ all rest, TerminatePoint.start all rest ≠ .finish := by
    intro all rest
    cases rest <;> nofun
  cases p with
  | enter => exact absurd (Sum.inl.inj hnext) (hstart _ _)
  | stop i rest p =>
      cases p with
      | lock => cases hnext
      | body => exact absurd (Sum.inl.inj hnext) (hstart _ _)
  | empty p =>
      cases p with
      | destroy i rest p =>
          cases p with
          | lock | body => cases hnext
          | join =>
              simp only [terminate, emptyTaskList, TaskManager.destroy] at hnext
              split at hnext <;> cases hnext
      | clear => rfl
  | finish => cases hnext

theorem terminate_next_return {p : TerminatePoint} {pool : Pool}
    (hnext : (terminate p pool).next = .inr ()) : p = .finish := by
  cases p with
  | stop i rest p => cases p <;> cases hnext
  | empty p =>
      cases p with
      | destroy i rest p =>
          cases p with
          | lock | body => cases hnext
          | join =>
              simp only [terminate, emptyTaskList, TaskManager.destroy] at hnext
              split at hnext <;> cases hnext
      | clear => cases hnext
  | enter => cases hnext
  | finish => rfl

end ThreadPool

namespace Call

/-- What a call has left behind when it leaves the loops of `terminate`. -/
def Vacated (call : Call) (pool : Pool) : Prop :=
  match call with
  | .terminate .finish => pool.taskList = []
  | .destroy (.terminate .finish) => pool.taskList = []
  | .destroy (.empty p) => p = .clear ∧ pool.taskList = []
  | _ => True

theorem Vacated.apply {call : Call} {pool : Pool} (h : call.Vacated pool) (effect : Effect) :
    call.Vacated (pool.apply effect) := by
  unfold Vacated at h ⊢
  split
  · exact Pool.taskList_apply h effect
  · exact Pool.taskList_apply h effect
  · exact ⟨h.1, Pool.taskList_apply h.2 effect⟩
  · trivial

theorem code_vacated {call next : Call} {pool : Pool} (h : call.Vacated pool)
    (hnext : (call.code pool).next = .inl next) :
    next.Vacated (Piece.after (call.code pool) pool) := by
  cases call with
  | terminate p =>
      obtain ⟨q, hq, rfl⟩ := next_of_piece hnext
      cases q with
      | finish =>
          obtain rfl := ThreadPool.terminate_next_finish hq
          rfl
      | _ => trivial
  | destroy p =>
      obtain ⟨q, hq, rfl⟩ := next_of_piece hnext
      cases p with
      | terminate p =>
          simp only [ThreadPool.destroy, Instr.map_next] at hq
          cases hinner : (ThreadPool.terminate p pool).next with
          | inl r =>
              rw [hinner] at hq
              cases hq
              cases r with
              | finish =>
                  obtain rfl := ThreadPool.terminate_next_finish hinner
                  rfl
              | _ => trivial
          | inr =>
              rw [hinner] at hq
              cases hq
              obtain rfl := ThreadPool.terminate_next_return hinner
              have hnil : pool.taskList = [] := h
              exact ⟨by rw [hnil]; rfl, hnil⟩
      | empty p =>
          obtain ⟨rfl, -⟩ := h
          cases hq
          trivial
      | release => cases hq
  | _ =>
      obtain ⟨q, -, rfl⟩ := next_of_piece hnext
      trivial

/-- A call changes the life of a `ThreadPool` inside the pool's monitor only. -/
theorem life_after_of_outside {call : Call} {pool : Pool} (hkind : call.kind = .threadPool)
    (h : call.Vacated pool) (hheld : .pool ∉ call.held) :
    pool.life.after (call.code pool) = pool.life := by
  have hterminate : ∀ p : ThreadPool.TerminatePoint, .pool ∉ p.held →
      pool.life.after (ThreadPool.terminate p pool) = pool.life := by
    intro p hheld
    cases p with
    | enter | finish => rfl
    | stop | empty => exact absurd (List.mem_append_right _ (List.mem_singleton_self _)) hheld
  cases call with
  | execute task p =>
      unfold Life.after
      split
      · rfl
      · next heffect => exact life_apply_of_execute ⟨task, rfl⟩ heffect _
  | isIdle p | isBusy p =>
      exact Life.after_of_none (ThreadPool.check_effect _ _ _ p pool) _
  | terminate p => exact hterminate p hheld
  | destroy p =>
      cases p with
      | terminate p => exact hterminate p hheld
      | empty p =>
          obtain ⟨rfl, hnil⟩ := h
          exact Life.apply_clear_of_nil hnil
      | release => rfl
  | _ => cases hkind

end Call

namespace Config

variable {cfg : Config} {guard : PoolState → PoolAction → Prop} {state : PoolState}

/-- No call goes on as if it had emptied the list before it has done so. -/
theorem vacated_of_reaches (hrun : Reaches cfg.program.step guard cfg.initial state) {t : Tid}
    {call : Call} (hcall : state.pc t = t.calling (some call)) : call.Vacated state.data := by
  have hentry : ∀ {kind method call} (pool : Pool), Call.entry kind method = some call →
      call.Vacated pool := by
    intro kind method call pool h
    cases kind <;> cases method <;> cases h <;> trivial
  have hholds := calls_of_reaches hentry Call.code_vacated
    (fun effect h => Call.Vacated.apply h effect) hrun
  exact hholds.assertion t call hcall

/-- A thread outside of the pool's monitor leaves the life of the pool alone. -/
theorem Moves.life_after_of_outside (hkind : cfg.kind = .threadPool) {pool : Pool} {t : Tid}
    {input : Input} {p : Point} {piece : Piece Point} (hmoves : cfg.Moves pool t input p piece)
    (hfits : p.Fits cfg.kind (fun _ => True) t)
    (hvacated : ∀ call, p = t.calling (some call) → call.Vacated pool)
    (hheld : .pool ∉ p.held t) : pool.life.after piece = pool.life := by
  cases hmoves with
  | enter t method call ht hentry =>
      unfold Life.after
      split
      · rfl
      · next heffect => exact Call.life_apply_entered heffect _
  | call t call ht =>
      have hcall := ((fits_calling ht).mp hfits call rfl).1
      rw [Tid.held_calling ht] at hheld
      have hinner : .pool ∉ call.held := fun h => hheld (List.mem_append_left _ h)
      exact Call.life_after_of_outside (hcall.trans hkind) (hvacated call rfl) hinner
  | dispatcher hmoves => exact hmoves.life_after
  | worker m input hmoves => exact hmoves.life_after

/-- While a thread is inside the pool's monitor, the steps of the others do not change the
life of the pool. -/
theorem life_of_other (hkind : cfg.kind = .threadPool)
    (hrun : Reaches cfg.program.step guard cfg.initial state) {t : Tid}
    (hheld : .pool ∈ (state.pc t).held t) {action : PoolAction} {next : PoolState}
    (hstep : cfg.program.step state action = some next) (hmover : action.mover ≠ some t) :
    next.data.life = state.data.life := by
  rcases Program.step_cases hstep with
    ⟨other, input, choice, piece, rfl, hcode, -, rfl⟩ |
    ⟨other, input, choice, piece, rfl, -, -, rfl⟩ | ⟨m, other, rfl, -, rfl⟩
  · have hother : t ≠ other := fun heq => hmover (congrArg some heq.symm)
    have hmoves := code_moves hcode
    have houtside : .pool ∉ (state.pc other).held other := fun h =>
      hother ((locked_of_reaches hrun).exclusive hheld h)
    show (cfg.program.dataAfter piece state.data).life = state.data.life
    rw [cfg.dataAfter_eq, Piece.life_after]
    exact hmoves.life_after_of_outside hkind ((shape_of_reaches_any hrun).assertion other)
      (fun call hcall => vacated_of_reaches hrun hcall) houtside
  · rfl
  · rfl

end Config

/-! ## Managers that have been stopped -/

theorem Life.go_apply_of_stopped {life : Life} {m : ManagerId}
    (h : (life.manager m).go = false) (effect : Effect) :
    ((life.apply effect).manager m).go = false := by
  cases effect with
  | stopManager i | joinManager i =>
      by_cases him : m = i
      · subst him
        simp [apply, update, h]
      · simpa [apply, update, him] using h
  | _ => exact h

/-- The manager has been told to stop, and its worker runs no task. -/
def PoolState.Retired (state : PoolState) (m : ManagerId) : Prop :=
  (state.data.life.manager m).go = false ∧
    ∀ call, state.pc (.worker m) ≠ .worker (.running call)

namespace Config

variable {cfg : Config} {guard : PoolState → PoolAction → Prop} {state : PoolState}

/-- A stopped manager starts no task. -/
theorem Moves.not_running {pool : Pool} {m : ManagerId} {input : Input} {p : Point}
    {piece : Piece Point} (hmoves : cfg.Moves pool (.worker m) input p piece)
    (hgo : (pool.life.manager m).go = false) (hp : ∀ call, p ≠ .worker (.running call))
    (call : Option Call) : piece.next ≠ .worker (.running call) := by
  generalize ht : Tid.worker m = t at hmoves
  cases hmoves with
  | enter t method entry =>
      subst ht
      exact absurd rfl (hp none)
  | call t prior =>
      subst ht
      exact absurd rfl (hp (some prior))
  | dispatcher => cases ht
  | worker i input hmoves =>
      cases ht
      cases hmoves with
      | begin hup => exact absurd (hup.symm.trans hgo) nofun
      | add p | remove p => cases p <;> nofun
      | finish => exact absurd rfl (hp none)
      | _ => nofun

/-- Retirement is for ever. -/
theorem retired_step {m : ManagerId} (h : state.Retired m) {action : PoolAction}
    {next : PoolState} (hstep : cfg.program.step state action = some next) :
    next.Retired m := by
  refine ⟨?_, fun call hcall => ?_⟩
  · rcases data_step hstep with hsame | ⟨effect, hafter⟩
    · rw [hsame]
      exact h.1
    · rw [hafter, Pool.life_apply]
      exact Life.go_apply_of_stopped h.1 effect
  · by_cases hmover : action.mover = some (.worker m)
    · rcases Program.step_cases hstep with
        ⟨t, input, choice, piece, rfl, hcode, -, rfl⟩ |
        ⟨t, input, choice, piece, rfl, -, -, rfl⟩ | ⟨_, _, rfl, -, -⟩
      · cases hmover
        have hnext : piece.next = .worker (.running call) := by
          simpa [Program.advance] using hcall
        exact (code_moves hcode).not_running h.1 h.2 call hnext
      · cases hmover
        have hcaught : cfg.program.handler (state.pc (.worker m)) = .worker (.running call) := by
          simpa [Program.raise] using hcall
        rcases (state.pc (.worker m)).handler_cases with hsame | ⟨nested, hnested, -⟩
        · exact h.2 call (hsame.symm.trans hcaught)
        · exact h.2 (some nested) hnested
      · cases hmover
    · exact h.2 call ((Program.step_pc hstep hmover).symm.trans hcall)

theorem retired_of_reaches {m : ManagerId} (h : state.Retired m) {later : PoolState}
    (hlater : Reaches cfg.program.step guard state later) : later.Retired m :=
  hlater.invariant h fun _ _ _ hprior _ hstep => retired_step hprior hstep

end Config

/-! ## A call of `terminate` -/

/-- The thread is inside `ThreadPool::terminate`. -/
def PoolState.Terminating (t : Tid) (state : PoolState) : Prop :=
  ∃ p, state.pc t = t.calling (some (.terminate p))

/-- A call of `terminate`: the thread enters the monitor of the pool and leaves the method
again; the other threads may move in between. -/
structure Config.Terminates (cfg : Config) (t : Tid) (before inside left : PoolState) : Prop where
  reached : Reaches cfg.program.step (fun _ _ => True) cfg.initial before
  enters : before.pc t = t.calling (some (.terminate .enter))
  within : ∃ (action : PoolAction) (entered : PoolState), action.mover = some t ∧
    cfg.program.step before action = some entered ∧
    Reaches cfg.program.step (fun state _ => PoolState.Terminating t state) entered inside
  leaves : ∃ action : PoolAction, PoolState.Terminating t inside ∧
    cfg.program.step inside action = some left ∧ ¬ PoolState.Terminating t left

/-- Of the managers in `life`, those in `done` have been stopped since `before`. -/
structure Life.Stopped (before : Life) (done : List ManagerId) (life : Life) : Prop where
  taskList : life.taskList = before.taskList
  go : ∀ i, (life.manager i).go = if i ∈ done then false else (before.manager i).go

/-- The thread has stopped the managers in `done`; its own is none of them. -/
structure PoolState.Passed (t : Tid) (before : Life) (done : List ManagerId)
    (state : PoolState) : Prop where
  stopped : before.Stopped done state.data.life
  retired : ∀ i ∈ done, t ≠ .worker i ∧ state.Retired i

/-- How far the thread has come in the two loops of `terminate`. -/
def ThreadPool.TerminatePoint.Progress (t : Tid) (before : Life) :
    TerminatePoint → PoolState → Prop
  | .enter, _ => False
  | .stop i rest p, state =>
      ∃ done, before.taskList = done ++ i :: rest ∧ state.Passed t before done ∧
        (p = .body → t ≠ .worker i)
  | .empty (.destroy i rest _), state =>
      i :: rest <:+ before.taskList ∧ state.Passed t before before.taskList
  | .empty .clear, state => state.Passed t before before.taskList
  | .finish, state =>
      state.data.life.taskList = [] ∧ ∀ i ∈ before.taskList, t ≠ .worker i ∧ state.Retired i

namespace Life.Stopped

variable {before life : Life} {done : List ManagerId}

theorem refl (life : Life) : life.Stopped [] life :=
  ⟨rfl, fun i => by simp⟩

theorem go_of_mem (h : before.Stopped done life) {i : ManagerId} (hi : i ∈ done) :
    (life.manager i).go = false := by
  rw [h.go i, if_pos hi]

theorem stop (h : before.Stopped done life) (i : ManagerId) :
    before.Stopped (done ++ [i]) (life.apply (.stopManager i)) where
  taskList := h.taskList
  go j := by
    by_cases hji : j = i
    · subst hji
      simp [apply, update]
    · simpa [apply, update, hji] using h.go j

/-- The destructor of a manager stops it once more. -/
theorem stop_again (h : before.Stopped done life) {i : ManagerId} (hi : i ∈ done) :
    before.Stopped done (life.apply (.stopManager i)) where
  taskList := h.taskList
  go j := by
    by_cases hji : j = i
    · subst hji
      simp [apply, update, hi]
    · simpa [apply, update, hji] using h.go j

theorem join (h : before.Stopped done life) (i : ManagerId) :
    before.Stopped done (life.apply (.joinManager i)) where
  taskList := h.taskList
  go j := by
    by_cases hji : j = i
    · subst hji
      simpa [apply, update] using h.go j
    · simpa [apply, update, hji] using h.go j

/-- Stopping the managers in `done` has changed nothing if they had been stopped before. -/
theorem go_eq_iff (h : before.Stopped done life) :
    (∀ i, (life.manager i).go = (before.manager i).go) ↔
      ∀ i ∈ done, (before.manager i).go = false := by
  constructor
  · intro hsame i hi
    exact (hsame i).symm.trans (h.go_of_mem hi)
  · intro hprior i
    rw [h.go i]
    split
    · next hi => exact (hprior i hi).symm
    · rfl

end Life.Stopped

namespace Config

variable {cfg : Config} {t : Tid} {before : Life} {done : List ManagerId}
  {state next : PoolState}

theorem passed_step (h : state.Passed t before done) {action : PoolAction}
    (hstep : cfg.program.step state action = some next)
    (hstopped : before.Stopped done next.data.life) : next.Passed t before done where
  stopped := hstopped
  retired i hi := ⟨(h.retired i hi).1, retired_step (h.retired i hi).2 hstep⟩

theorem progress_of_emptying {rest : List ManagerId} (hrest : rest <:+ before.taskList)
    (h : state.Passed t before before.taskList) :
    (ThreadPool.TerminatePoint.empty (.start rest)).Progress t before state := by
  cases rest with
  | nil => exact h
  | cons => exact ⟨hrest, h⟩

theorem progress_of_stopping {all rest : List ManagerId} (hall : all = before.taskList)
    (hsplit : before.taskList = done ++ rest) (h : state.Passed t before done) :
    (ThreadPool.TerminatePoint.start all rest).Progress t before state := by
  subst hall
  cases rest with
  | nil =>
      rw [List.append_nil] at hsplit
      subst hsplit
      exact progress_of_emptying (List.suffix_refl _) h
  | cons => exact ⟨done, hsplit, h, nofun⟩

/-- The thread makes progress: it enters no monitor of its own, and a manager is stopped
while its worker runs no task. -/
theorem progress_advance {p q : ThreadPool.TerminatePoint} {action : PoolAction}
    (h : p.Progress t before state) (hstep : cfg.program.step state action = some next)
    (hlife : next.data.life = state.data.life.after (ThreadPool.terminate p state.data))
    (hlock : ∀ i, (ThreadPool.terminate p state.data).op = .lock (.manager i) → t ≠ .worker i)
    (hidle : ∀ i rest, p = .stop i rest .body →
      ∀ call, next.pc (.worker i) ≠ .worker (.running call))
    (hnext : (ThreadPool.terminate p state.data).next = .inl q) : q.Progress t before next := by
  cases p with
  | enter => exact h.elim
  | stop i rest p =>
      obtain ⟨done, hsplit, hpassed, hother⟩ := h
      cases p with
      | lock =>
          cases hnext
          refine ⟨done, hsplit, passed_step hpassed hstep ?_, fun _ => hlock i rfl⟩
          rw [hlife]
          exact hpassed.stopped
      | body =>
          obtain rfl := Sum.inl.inj hnext
          have hstopped : before.Stopped (done ++ [i]) next.data.life := by
            rw [hlife]
            exact hpassed.stopped.stop i
          have hmore : before.taskList = (done ++ [i]) ++ rest := by simp [hsplit]
          refine progress_of_stopping hpassed.stopped.taskList hmore ⟨hstopped, fun j hj => ?_⟩
          rcases List.mem_append.mp hj with hdone | hnew
          · exact ⟨(hpassed.retired j hdone).1, retired_step (hpassed.retired j hdone).2 hstep⟩
          · obtain rfl := List.mem_singleton.mp hnew
            exact ⟨hother rfl, hstopped.go_of_mem hj, hidle j rest rfl⟩
  | empty p =>
      cases p with
      | destroy i rest p =>
          obtain ⟨hsuffix, hpassed⟩ := h
          have hi : i ∈ before.taskList := hsuffix.subset List.mem_cons_self
          cases p with
          | lock =>
              cases hnext
              refine ⟨hsuffix, passed_step hpassed hstep ?_⟩
              rw [hlife]
              exact hpassed.stopped
          | body =>
              cases hnext
              refine ⟨hsuffix, passed_step hpassed hstep ?_⟩
              rw [hlife]
              exact hpassed.stopped.stop_again hi
          | join =>
              have hafter : state.data.life.after
                  (ThreadPool.terminate (.empty (.destroy i rest .join)) state.data) =
                    state.data.life.apply (.joinManager i) := by
                simp only [ThreadPool.terminate, ThreadPool.emptyTaskList, TaskManager.destroy]
                split <;> rfl
              have hrest : (ThreadPool.terminate (.empty (.destroy i rest .join)) state.data).next =
                  .inl (.empty (.start rest)) := by
                simp only [ThreadPool.terminate, ThreadPool.emptyTaskList, TaskManager.destroy]
                split <;> rfl
              obtain rfl := Sum.inl.inj (hrest.symm.trans hnext)
              refine progress_of_emptying ((List.suffix_cons i rest).trans hsuffix)
                (passed_step hpassed hstep ?_)
              rw [hlife, hafter]
              exact hpassed.stopped.join i
      | clear =>
          have hpassed : state.Passed t before before.taskList := h
          cases hnext
          refine ⟨?_, fun i hi => ⟨(hpassed.retired i hi).1, ?_⟩⟩
          · rw [hlife]
            rfl
          · exact retired_step (hpassed.retired i hi).2 hstep
  | finish => cases hnext

theorem progress_of_same {p : ThreadPool.TerminatePoint} {action : PoolAction}
    (h : p.Progress t before state) (hstep : cfg.program.step state action = some next)
    (hlife : next.data.life = state.data.life) : p.Progress t before next := by
  have hpassed : ∀ {done}, state.Passed t before done → next.Passed t before done :=
    fun hpassed => passed_step hpassed hstep (hlife ▸ hpassed.stopped)
  cases p with
  | enter => exact h
  | stop i rest p =>
      obtain ⟨done, hsplit, hprior, hother⟩ := h
      exact ⟨done, hsplit, hpassed hprior, hother⟩
  | empty p =>
      cases p with
      | destroy i rest p => exact ⟨h.1, hpassed h.2⟩
      | clear => exact hpassed h
  | finish =>
      refine ⟨?_, fun i hi => ⟨(h.2 i hi).1, retired_step (h.2 i hi).2 hstep⟩⟩
      rw [hlife]
      exact h.1

theorem pool_held_of_progress {p : ThreadPool.TerminatePoint} (h : p.Progress t before state) :
    .pool ∈ p.held := by
  cases p with
  | enter => exact h.elim
  | finish => exact List.mem_singleton_self _
  | stop | empty => exact List.mem_append_right _ (List.mem_singleton_self _)

/-- What a step of the thread inside `terminate` does. -/
theorem terminate_step {guard : PoolState → PoolAction → Prop}
    (hrun : Reaches cfg.program.step guard cfg.initial state)
    {p : ThreadPool.TerminatePoint} (hp : state.pc t = t.calling (some (.terminate p)))
    {action : PoolAction} (hmover : action.mover = some t)
    (hstep : cfg.program.step state action = some next) :
    (next.data.life = state.data.life.after (ThreadPool.terminate p state.data) ∧
      next.pc t = (ThreadPool.terminate p state.data).next.elim
        (fun q => t.calling (some (.terminate q))) (fun _ => t.calling none) ∧
      cfg.program.Enabled state t (ThreadPool.terminate p state.data).op) ∨
    (next.data = state.data ∧ next.pc t = (state.pc t).handler ∧
      Program.Raises state t (ThreadPool.terminate p state.data).op ∧
      cfg.program.AboutToRaise state t) := by
  have ht := ne_dispatcher_of_calling hrun hp
  have hcode : ∀ {input piece}, cfg.code t input (state.pc t) state.data = some piece →
      piece = ((Call.terminate p).code state.data).map
        (Sum.elim (t.calling ∘ some) fun _ => t.calling none) := by
    intro input piece hpiece
    rw [hp] at hpiece
    exact (code_moves hpiece).of_call ht
  rcases Program.step_cases hstep with
    ⟨other, input, choice, piece, rfl, hpiece, henabled, rfl⟩ |
    ⟨other, input, choice, piece, rfl, hpiece, hraises, rfl⟩ | ⟨m, other, rfl, -, rfl⟩
  · cases hmover
    obtain rfl := hcode hpiece
    refine .inl ⟨?_, ?_, henabled⟩
    · show (cfg.program.dataAfter _ state.data).life = _
      rw [cfg.dataAfter_eq, Piece.life_after]
      rfl
    · simp only [Program.advance, Function.update_self, Instr.map_next, Call.code, Call.piece]
      cases (ThreadPool.terminate p state.data).next <;> rfl
  · cases hmover
    have hop : piece.op = (ThreadPool.terminate p state.data).op := by
      rw [hcode hpiece]
      rfl
    refine .inr ⟨rfl, ?_, hop ▸ hraises, ?_⟩
    · simp [Program.raise]
      rfl
    · cases hlock : piece.op with
      | lock m =>
          have hawake := (locked_of_reaches hrun).awake cfg.wellLocked hpiece (.inr hraises)
          rw [hlock] at hraises
          exact ⟨m, ⟨input, piece, hpiece, hlock, hawake m⟩, hraises⟩
      | _ =>
          rw [hlock] at hraises
          exact hraises.elim
  · cases hmover

/-- The thread stays outside of a monitor that is its own. -/
theorem ne_worker_of_enabled {guard : PoolState → PoolAction → Prop}
    (hrun : Reaches cfg.program.step guard cfg.initial state) {call : Call}
    (hcall : state.pc t = t.calling (some call)) {i : ManagerId}
    (henabled : cfg.program.Enabled state t (.lock (.manager i))) : t ≠ .worker i := by
  rintro rfl
  refine (locked_of_reaches hrun).not_held henabled.1 (.worker i) ?_
  show MonitorId.manager i ∈ (state.pc (.worker i)).held (.worker i)
  rw [hcall]
  exact List.mem_append_right _ (List.mem_singleton_self _)

/-- While a thread stops a manager, the manager's worker runs no task. -/
theorem idle_of_stopping {guard : PoolState → PoolAction → Prop}
    (hrun : Reaches cfg.program.step guard cfg.initial state) {i : ManagerId}
    {rest : List ManagerId} (hp : state.pc t = t.calling (some (.terminate (.stop i rest .body))))
    (hother : t ≠ .worker i) (call : Option Call) :
    state.pc (.worker i) ≠ .worker (.running call) := by
  intro hcall
  refine hother ((locked_of_reaches hrun).exclusive (m := .manager i) ?_ ?_)
  · show MonitorId.manager i ∈ (state.pc t).held t
    rw [hp, Tid.held_calling (ne_dispatcher_of_calling hrun hp)]
    exact List.mem_append_left _ List.mem_cons_self
  · show MonitorId.manager i ∈ (state.pc (.worker i)).held (.worker i)
    rw [hcall]
    cases call with
    | none => exact List.mem_singleton_self _
    | some call => exact List.mem_append_right _ (List.mem_singleton_self _)

theorem progress_step (hkind : cfg.kind = .threadPool) {guard : PoolState → PoolAction → Prop}
    (hrun : Reaches cfg.program.step guard cfg.initial state)
    {p q : ThreadPool.TerminatePoint} (hp : state.pc t = t.calling (some (.terminate p)))
    (h : p.Progress t before state) {action : PoolAction}
    (hstep : cfg.program.step state action = some next)
    (hq : next.pc t = t.calling (some (.terminate q))) : q.Progress t before next := by
  by_cases hmover : action.mover = some t
  · rcases terminate_step hrun hp hmover hstep with
      ⟨hlife, hpoint, henabled⟩ | ⟨hdata, hpoint, -⟩
    · cases hnext : (ThreadPool.terminate p state.data).next with
      | inl r =>
          rw [hq, hnext] at hpoint
          cases t.calling_injective hpoint
          refine progress_advance h hstep hlife (fun i hop => ?_) ?_ hnext
          · exact ne_worker_of_enabled hrun hp (hop ▸ henabled)
          · rintro i rest rfl call hcall
            obtain ⟨-, -, -, hother⟩ := h
            have hsame : next.pc (.worker i) = state.pc (.worker i) :=
              Program.step_pc hstep fun heq => hother rfl (Option.some.inj (hmover.symm.trans heq))
            exact idle_of_stopping hrun hp (hother rfl) call (hsame.symm.trans hcall)
      | inr =>
          rw [hq, hnext] at hpoint
          exact absurd (t.calling_injective hpoint) nofun
    · have hprior := Point.eq_of_handler (hpoint.symm.trans hq)
      cases t.calling_injective (hp.symm.trans hprior)
      exact progress_of_same h hstep (congrArg Pool.life hdata)
  · -- another thread, which is outside of the pool's monitor
    have hheld : .pool ∈ (state.pc t).held t := by
      rw [hp, Tid.held_calling (ne_dispatcher_of_calling hrun hp)]
      exact List.mem_append_left _ (pool_held_of_progress h)
    have hsame := Program.step_pc hstep hmover
    cases t.calling_injective (hp.symm.trans (hsame.symm.trans hq))
    exact progress_of_same h hstep (life_of_other hkind hrun hheld hstep hmover)

/-- No method of a pool calls `terminate` from inside of the pool's monitor. -/
theorem not_raises_of_entering {guard : PoolState → PoolAction → Prop}
    (hrun : Reaches cfg.program.step guard cfg.initial state)
    (henters : state.pc t = t.calling (some (.terminate .enter))) :
    ¬ Program.Raises state t (.lock .pool) := by
  intro hraises
  have hheld : MonitorId.pool ∈ (state.pc t).held t :=
    ((locked_of_reaches hrun).owner .pool t).mp hraises
  rw [henters, Tid.held_calling (ne_dispatcher_of_calling hrun henters)] at hheld
  cases t with
  | client | dispatcher => cases hheld
  | worker m => cases List.mem_singleton.mp hheld

/-- The progress of a call of `terminate` up to the step that leaves it. -/
theorem Terminates.progress {before inside left : PoolState}
    (h : cfg.Terminates t before inside left) {p : ThreadPool.TerminatePoint}
    (hp : inside.pc t = t.calling (some (.terminate p))) :
    p.Progress t before.data.life inside := by
  obtain ⟨hreached, henters, ⟨action, entered, hmover, hstep, hwithin⟩, -⟩ := h
  have hkind : cfg.kind = .threadPool := (kind_of_calling hreached henters).symm
  have hentered : Reaches cfg.program.step (fun _ _ => True) cfg.initial entered :=
    hreached.tail action trivial hstep
  induction hwithin generalizing p with
  | refl =>
      rcases terminate_step hreached henters hmover hstep with
        ⟨hlife, hpoint, -⟩ | ⟨-, -, hraises, -⟩
      · have hstart : entered.pc t = t.calling
            (some (.terminate (.start before.data.taskList before.data.taskList))) := hpoint
        cases t.calling_injective (hp.symm.trans hstart)
        have hsplit : before.data.life.taskList = [] ++ before.data.taskList := rfl
        refine progress_of_stopping rfl hsplit ⟨?_, nofun⟩
        rw [hlife]
        exact .refl _
      · exact absurd hraises (not_raises_of_entering hreached henters)
  | tail action hprior hmiddle hnext ih =>
      obtain ⟨q, hq⟩ := hmiddle
      have hrun := hentered.trans (hprior.mono fun _ _ _ => trivial)
      exact progress_step hkind hrun hq (ih hq) hnext hp

/-- The exception is thrown at the thread's own manager: the thread has stopped the managers
in front of it and no other. -/
theorem terminate_raises {guard : PoolState → PoolAction → Prop}
    (hrun : Reaches cfg.program.step guard cfg.initial state) {p : ThreadPool.TerminatePoint}
    (hp : state.pc t = t.calling (some (.terminate p))) (h : p.Progress t before state)
    (hraises : Program.Raises state t (ThreadPool.terminate p state.data).op) :
    ∃ m done rest, t = .worker m ∧ before.taskList = done ++ m :: rest ∧ m ∉ done ∧
      state.Passed t before done := by
  have hown : ∀ {i}, (state.monitor (.manager i)).owner = some t →
      p.held = [.pool] → t = .worker i := by
    intro i howner hheld
    have hmem : MonitorId.manager i ∈ (state.pc t).held t :=
      ((locked_of_reaches hrun).owner _ t).mp howner
    rw [hp, Tid.held_calling (ne_dispatcher_of_calling hrun hp)] at hmem
    change MonitorId.manager i ∈ p.held ++ t.outer at hmem
    rw [hheld] at hmem
    cases t with
    | client | dispatcher => cases List.mem_singleton.mp hmem
    | worker m =>
        simp only [Tid.outer, List.cons_append, List.nil_append, List.mem_cons, reduceCtorEq,
          MonitorId.manager.injEq, List.not_mem_nil, or_false, false_or] at hmem
        rw [hmem]
  cases p with
  | enter => exact h.elim
  | stop i rest p =>
      cases p with
      | lock =>
          obtain ⟨done, hsplit, hpassed, -⟩ := h
          have ht : t = .worker i := hown hraises rfl
          exact ⟨i, done, rest, ht, hsplit, fun hi => (hpassed.retired i hi).1 ht, hpassed⟩
      | body => exact hraises.elim
  | empty p =>
      cases p with
      | destroy i rest p =>
          cases p with
          | lock =>
              have hi : i ∈ before.taskList := h.1.subset List.mem_cons_self
              exact absurd (hown hraises rfl) (h.2.retired i hi).1
          | body => exact hraises.elim
          | join =>
              simp only [ThreadPool.terminate, ThreadPool.emptyTaskList,
                TaskManager.destroy] at hraises
              split at hraises <;> exact hraises.elim
      | clear => exact hraises.elim
  | finish => exact hraises.elim

/-- A call of `terminate` ends by the exception at the thread's own manager, or behind both
loops. -/
theorem Terminates.outcome {before inside left : PoolState}
    (h : cfg.Terminates t before inside left) :
    (cfg.program.AboutToRaise inside t ∧ ∃ m done rest, t = .worker m ∧
      before.data.taskList = done ++ m :: rest ∧ m ∉ done ∧
      left.Passed t before.data.life done) ∨
    (¬ cfg.program.AboutToRaise inside t ∧ left.data.taskList = [] ∧
      ∀ i ∈ before.data.taskList, t ≠ .worker i ∧ left.Retired i) := by
  obtain ⟨action, ⟨p, hp⟩, hstep, hleft⟩ := h.leaves
  have hprogress := h.progress hp
  have hrun : Reaches cfg.program.step (fun _ _ => True) cfg.initial inside := by
    obtain ⟨first, entered, -, hfirst, hwithin⟩ := h.within
    exact (h.reached.tail first trivial hfirst).trans (hwithin.mono fun _ _ _ => trivial)
  have hmover : action.mover = some t := by
    by_contra hother
    exact hleft ⟨p, (Program.step_pc hstep hother).trans hp⟩
  rcases terminate_step hrun hp hmover hstep with
    ⟨hlife, hpoint, -⟩ | ⟨hdata, -, hraises, habout⟩
  · cases hnext : (ThreadPool.terminate p inside.data).next with
    | inl q =>
        rw [hnext] at hpoint
        exact absurd ⟨q, hpoint⟩ hleft
    | inr =>
        obtain rfl := ThreadPool.terminate_next_return hnext
        refine .inr ⟨?_, ?_, fun i hi => ⟨(hprogress.2 i hi).1, ?_⟩⟩
        · rintro ⟨m, ⟨input, piece, hcode, hop, -⟩, -⟩
          have hcode : cfg.code t input (inside.pc t) inside.data = some piece := hcode
          rw [hp] at hcode
          cases (code_moves hcode).of_call (ne_dispatcher_of_calling hrun hp)
          cases hop
        · exact (congrArg Life.taskList hlife).trans hprogress.1
        · exact retired_step (hprogress.2 i hi).2 hstep
  · obtain ⟨m, done, rest, ht, hsplit, hm, hpassed⟩ := terminate_raises hrun hp hprogress hraises
    have hstopped : before.data.life.Stopped done left.data.life := hdata ▸ hpassed.stopped
    exact .inl ⟨habout, m, done, rest, ht, hsplit, hm, passed_step hpassed hstep hstopped⟩

end Config

/-! ## Tasks executed afterwards -/

/-- The thread is inside `terminate` or the destructor. -/
def Point.Closing : Point → Prop
  | .client (some call) => call.method = .terminate ∨ call.method = .destroy
  | .worker (.running (some call)) => call.method = .terminate ∨ call.method = .destroy
  | _ => False

theorem Point.closing_calling {t : Tid} {call : Call} :
    (t.calling (some call)).Closing ↔ call.method = .terminate ∨ call.method = .destroy := by
  cases t <;> rfl

instance (p : Point) : Decidable p.Closing :=
  match p with
  | .client (some _) => inferInstanceAs (Decidable (_ ∨ _))
  | .worker (.running (some _)) => inferInstanceAs (Decidable (_ ∨ _))
  | .client none | .worker (.running none) | .dispatcher _ | .worker (.add _) | .worker .enter
  | .worker .loop | .worker .inner | .worker .woken | .worker (.remove _) | .worker .exited =>
      .isFalse nofun

/-- The step is none of a thread inside `terminate` or the destructor. -/
def Undisturbed (state : PoolState) (action : PoolAction) : Prop :=
  ∀ t ∈ action.mover, ¬ (state.pc t).Closing

instance (state : PoolState) (action : PoolAction) : Decidable (Undisturbed state action) :=
  inferInstanceAs (Decidable (∀ t ∈ action.mover, _))

namespace Config

variable {cfg : Config}

theorem Moves.life_of_undisturbed (hkind : cfg.kind = .threadPool) {pool : Pool} {t : Tid}
    {input : Input} {p : Point} {piece : Piece Point} (hmoves : cfg.Moves pool t input p piece)
    (hfits : p.Fits cfg.kind (fun _ => True) t)
    (hopen : ¬ p.Closing) :
    pool.life.after piece = pool.life := by
  cases hmoves with
  | enter t method call ht hentry =>
      unfold Life.after
      split
      · rfl
      · next heffect => exact Call.life_apply_entered heffect _
  | call t call ht =>
      have hcall := (((fits_calling ht).mp hfits call rfl).1).trans hkind
      rw [Point.closing_calling, not_or] at hopen
      rw [Life.after_map]
      cases call with
      | execute task p =>
          unfold Life.after
          split
          · rfl
          · next heffect => exact Call.life_apply_of_execute ⟨task, rfl⟩ heffect _
      | isIdle p | isBusy p => exact Life.after_of_none (ThreadPool.check_effect _ _ _ p pool) _
      | terminate => exact absurd rfl hopen.1
      | destroy => exact absurd rfl hopen.2
      | _ => cases hcall
  | dispatcher hmoves => exact hmoves.life_after
  | worker m input hmoves => exact hmoves.life_after

/-- While managers are on the list and none of them has been stopped, no task is deleted
before its `run()` has ended. -/
theorem Moves.log_of_undisturbed (hkind : cfg.kind = .threadPool) {pool : Pool} {t : Tid}
    {input : Input} {p : Point} {piece : Piece Point} (hmoves : cfg.Moves pool t input p piece)
    (hfits : p.Fits cfg.kind (fun _ => True) t)
    (hopen : ¬ p.Closing)
    (hlist : pool.taskList ≠ []) (hgo : ∀ i, (pool.managers i).go = true) :
    (Piece.after piece pool).log.discarded = pool.log.discarded ∧
      (Piece.after piece pool).log.rejected = pool.log.rejected := by
  cases hmoves with
  | enter t method call ht hentry =>
      simp only [Piece.after, Call.entered]
      split
      · exact ⟨rfl, rfl⟩
      · next heffect => split at heffect <;> cases heffect <;> exact ⟨rfl, rfl⟩
  | call t call ht =>
      have hcall := (((fits_calling ht).mp hfits call rfl).1).trans hkind
      rw [Point.closing_calling, not_or] at hopen
      rw [Piece.after_map]
      have hsilent : (call.code pool).effect = none →
          (Piece.after (call.code pool) pool).log.discarded = pool.log.discarded ∧
            (Piece.after (call.code pool) pool).log.rejected = pool.log.rejected := by
        intro hnone
        rw [Piece.after_of_none hnone]
        exact ⟨rfl, rfl⟩
      cases call with
      | execute task p =>
          cases p with
          | test => simp [Call.code, Call.piece, ThreadPool.execute, hlist, Piece.after]
          | scan p =>
              have hmoves := scan_moves task p pool
              show (Piece.after (scan task p pool) pool).log.discarded = _ ∧
                (Piece.after (scan task p pool) pool).log.rejected = _
              generalize scan task p pool = piece at hmoves
              cases hmoves <;> exact ⟨rfl, rfl⟩
          | _ => exact ⟨rfl, rfl⟩
      | isIdle p | isBusy p => exact hsilent (ThreadPool.check_effect _ _ _ p pool)
      | terminate => exact absurd rfl hopen.1
      | destroy => exact absurd rfl hopen.2
      | _ => cases hcall
  | dispatcher hmoves =>
      have hqueued : cfg.kind = .queuedThreadPool := hfits hmoves.not_exited
      cases hkind.symm.trans hqueued
  | worker m input hmoves =>
      cases hmoves with
      | discard hstopped => cases (hgo m).symm.trans hstopped
      | add p | remove p => cases p <;> exact ⟨rfl, rfl⟩
      | _ => exact ⟨rfl, rfl⟩

/-- As long as nobody terminates the pool, a pool with all of its managers runs its tasks. -/
theorem kept_of_undisturbed (hkind : cfg.kind = .threadPool)
    {guard : PoolState → PoolAction → Prop} {state later : PoolState}
    (hrun : Reaches cfg.program.step guard cfg.initial state)
    (hlist : state.data.taskList ≠ []) (hgo : ∀ i, (state.data.managers i).go = true)
    (hlater : Reaches cfg.program.step Undisturbed state later) :
    later.data.life = state.data.life ∧
      later.data.log.discarded = state.data.log.discarded ∧
      later.data.log.rejected = state.data.log.rejected := by
  have hrun : Reaches cfg.program.step (fun _ _ => True) cfg.initial state :=
    hrun.mono fun _ _ _ => trivial
  induction hlater with
  | refl => exact ⟨rfl, rfl, rfl⟩
  | @tail middle target action hprior hallowed hstep ih =>
      obtain ⟨hlife, hdiscarded, hrejected⟩ := ih
      have hmiddle := hrun.trans (hprior.mono fun _ _ _ => trivial)
      rcases Program.step_cases hstep with
        ⟨t, input, choice, piece, rfl, hcode, -, rfl⟩ | ⟨t, input, choice, piece, rfl, -, -, rfl⟩ |
        ⟨m, t, -, -, rfl⟩
      · have hmoves := code_moves hcode
        have hfits := (shape_of_reaches_any hmiddle).assertion t
        have hopen : ¬ (middle.pc t).Closing := hallowed t rfl
        have hmanagers : middle.data.taskList ≠ [] := by
          rw [← Pool.life_taskList, hlife]
          exact hlist
        have hup : ∀ i, (middle.data.managers i).go = true := by
          intro i
          rw [← Pool.life_manager_go, hlife]
          exact hgo i
        have hdata : (cfg.program.advance middle t piece choice).data =
            Piece.after piece middle.data :=
          cfg.dataAfter_eq piece middle.data
        have hlog := hmoves.log_of_undisturbed hkind hfits hopen hmanagers hup
        rw [hdata, Piece.life_after, hmoves.life_of_undisturbed hkind hfits hopen]
        exact ⟨hlife, hlog.1.trans hdiscarded, hlog.2.trans hrejected⟩
      · exact ⟨hlife, hdiscarded, hrejected⟩
      · exact ⟨hlife, hdiscarded, hrejected⟩

end Config

/-! ## All or nothing -/

/-- A call of `terminate` that is cut short leaves the pool as it was, so that its tasks are
run as before; any other call stops and removes all managers. -/
structure Config.AllOrNothing (cfg : Config) (t : Tid) (before inside left : PoolState) :
    Prop where
  restored : cfg.program.AboutToRaise inside t →
    (∀ i, (left.data.managers i).go = (before.data.managers i).go) ∧
      left.data.taskList = before.data.taskList
  /-- unless the pool is terminated again, no task is deleted before its `run()` has ended -/
  kept : cfg.program.AboutToRaise inside t → (∀ i, (before.data.managers i).go = true) →
    ∀ later, Reaches cfg.program.step Undisturbed left later →
      later.data.log.discarded = left.data.log.discarded ∧
        later.data.log.rejected = left.data.log.rejected
  completed : ¬ cfg.program.AboutToRaise inside t →
    left.data.taskList = [] ∧
      ∀ i ∈ before.data.taskList, (left.data.managers i).go = false

namespace Config

variable {cfg : Config} {t : Tid} {before inside left : PoolState}

theorem takeWhile_ne_eq {m : ManagerId} {done rest : List ManagerId} (hm : m ∉ done) :
    (done ++ m :: rest).takeWhile (· ≠ m) = done := by
  rw [List.takeWhile_append_of_pos, List.takeWhile_cons_of_neg] <;> simp
  exact fun i hi heq => hm (heq ▸ hi)

theorem Terminates.left_reached (h : cfg.Terminates t before inside left) :
    Reaches cfg.program.step (fun _ _ => True) cfg.initial left := by
  obtain ⟨first, entered, -, hfirst, hwithin⟩ := h.within
  obtain ⟨last, -, hlast, -⟩ := h.leaves
  have hinside := (h.reached.tail first trivial hfirst).trans (hwithin.mono fun _ _ _ => trivial)
  exact hinside.tail last trivial hlast

/-- The managers in front of the caller's run no task any more. -/
theorem Terminates.retired (h : cfg.Terminates t before inside left)
    (hraises : cfg.program.AboutToRaise inside t) {m : ManagerId} (ht : t = .worker m)
    {i : ManagerId} (hi : i ∈ before.data.taskList.takeWhile (· ≠ m)) {later : PoolState}
    (hlater : Reaches cfg.program.step (fun _ _ => True) left later) : later.Retired i := by
  rcases h.outcome with ⟨-, k, done, rest, hk, hsplit, hdone, hpassed⟩ | ⟨hnot, -⟩
  · cases ht.symm.trans hk
    rw [hsplit, takeWhile_ne_eq hdone] at hi
    exact retired_of_reaches (hpassed.retired i hi).2 hlater
  · exact absurd hraises hnot

/-- A call of `terminate` is all or nothing exactly if no manager in front of the caller's
was still running: the first manager's tasks may call it, and a second call finds what the
first one has left. -/
theorem terminate_allOrNothing_iff (hcall : cfg.Terminates t before inside left) :
    cfg.AllOrNothing t before inside left ↔
      ∀ m, t = .worker m → m ∈ before.data.taskList →
        ∀ i ∈ before.data.taskList.takeWhile (· ≠ m), (before.data.managers i).go = false := by
  rcases hcall.outcome with
    ⟨hraises, m, done, rest, ht, hsplit, hm, hpassed⟩ | ⟨hnot, hempty, hretired⟩
  · have hfront : before.data.taskList.takeWhile (· ≠ m) = done := by
      rw [hsplit, takeWhile_ne_eq hm]
    have hlist : left.data.taskList = before.data.taskList := hpassed.stopped.taskList
    have hsame := hpassed.stopped.go_eq_iff
    constructor
    · rintro hall k hk - i hi
      cases ht.symm.trans hk
      exact hsame.mp (hall.restored hraises).1 i (hfront ▸ hi)
    · intro hprior
      have hmem : m ∈ before.data.taskList := by simp [hsplit]
      have hgo : ∀ i, (left.data.managers i).go = (before.data.managers i).go :=
        hsame.mpr fun i hi => hprior m ht hmem i (hfront.symm ▸ hi)
      refine ⟨fun _ => ⟨hgo, hlist⟩, fun _ hup later hlater => ?_, fun hnot => absurd hraises hnot⟩
      have hkind : cfg.kind = .threadPool := (kind_of_calling hcall.reached hcall.enters).symm
      have hmanagers : left.data.taskList ≠ [] := by
        rw [hlist]
        exact List.ne_nil_of_mem hmem
      exact (kept_of_undisturbed hkind hcall.left_reached hmanagers
        (fun i => (hgo i).trans (hup i)) hlater).2
  · constructor
    · rintro - m rfl hmem
      exact absurd rfl (hretired m hmem).1
    · intro _
      exact ⟨fun hraises => absurd hraises hnot, fun hraises => absurd hraises hnot,
        fun _ => ⟨hempty, fun i hi => (hretired i hi).2.1⟩⟩

/-! ### Calls on a pool of two managers -/

/-- The check of a worker that goes on inside `terminate`. -/
def terminating (m : ManagerId) (state : PoolState) (_ : PoolAction) : Bool :=
  match state.pc (.worker m) with
  | .worker (.running (some (.terminate _))) => true
  | _ => false

theorem terminating_sound {m : ManagerId} {state : PoolState} {action : PoolAction}
    (h : terminating m state action = true) : PoolState.Terminating (.worker m) state := by
  unfold terminating at h
  split at h
  · next p hp => exact ⟨p, hp⟩
  · cases h

/-- A call of a task on the worker `m`, followed by evaluation. -/
theorem terminates_of_execute {m : ManagerId} {first inner : List PoolAction}
    {entered : PoolState} {p : ThreadPool.TerminatePoint}
    (hbefore : execute cfg.program.step (fun _ _ => true) first cfg.initial = some before)
    (henters : before.pc (.worker m) = .worker (.running (some (.terminate .enter))))
    (hentered : cfg.program.step before (PoolAction.go (.worker m)) = some entered)
    (hinner : execute cfg.program.step (terminating m) inner entered = some inside)
    (hinside : inside.pc (.worker m) = .worker (.running (some (.terminate p))))
    (hleft : cfg.program.step inside (PoolAction.go (.worker m)) = some left)
    (hreturned : left.pc (.worker m) = .worker (.running none)) :
    cfg.Terminates (.worker m) before inside left where
  reached := .of_execute (fun _ _ _ => trivial) hbefore
  enters := henters
  within :=
    ⟨_, entered, rfl, hentered, .of_execute (fun _ _ => terminating_sound) hinner⟩
  leaves := ⟨_, ⟨p, hinside⟩, hleft, fun ⟨_, hcall⟩ => by
    cases hreturned.symm.trans hcall⟩

/-- The task of the first manager finds nobody in front of its own manager. -/
theorem terminate_allOrNothing_first : ∃ before inside left : PoolState,
    inside.pc (.worker 0) = .worker (.running (some (.terminate (.stop 0 [1] .lock)))) ∧
      left.pc (.worker 0) = .worker (.running none) ∧
      (Config.complete .threadPool 2).AllOrNothing (.worker 0) before inside left := by
  let cfg := Config.complete .threadPool 2
  have hexecute : ((execute cfg.program.step (fun _ _ => true)
        (PoolAction.call (.client 0) (.execute (some 1)) :: PoolAction.steps (.client 0) 7 ++
          PoolAction.steps (.worker 0) 4 ++ [PoolAction.call (.worker 0) .terminate])
        cfg.initial).bind fun before =>
          (cfg.program.step before (PoolAction.go (.worker 0))).bind fun inside =>
            (cfg.program.step inside (PoolAction.go (.worker 0))).map fun left =>
              (before.pc (.worker 0), before.data.taskList, inside.pc (.worker 0),
                left.pc (.worker 0))) =
      some (.worker (.running (some (.terminate .enter))), [0, 1],
        .worker (.running (some (.terminate (.stop 0 [1] .lock)))),
        .worker (.running none)) := by decide +kernel
  obtain ⟨before, hbefore, hrest⟩ := Option.bind_eq_some_iff.mp hexecute
  obtain ⟨inside, hentered, hrest⟩ := Option.bind_eq_some_iff.mp hrest
  obtain ⟨left, hleft, hobserved⟩ := Option.map_eq_some_iff.mp hrest
  simp only [Prod.mk.injEq] at hobserved
  obtain ⟨henters, hlist, hinside, hreturned⟩ := hobserved
  have hnothing : execute cfg.program.step (terminating 0) [] inside = some inside := rfl
  have hcall : cfg.Terminates (.worker 0) before inside left :=
    terminates_of_execute hbefore henters hentered hnothing hinside hleft hreturned
  refine ⟨before, inside, left, hinside, hreturned, (terminate_allOrNothing_iff hcall).mpr ?_⟩
  rintro m hm -
  cases hm
  rw [hlist]
  nofun

/-- The task of the second manager stops the first one and is cut short. A task that is
executed afterwards is handed to the first manager and deleted by it. -/
theorem terminate_allOrNothing_fails : ∃ before inside left later : PoolState,
    (Config.complete .threadPool 2).Terminates (.worker 1) before inside left ∧
      (Config.complete .threadPool 2).program.AboutToRaise inside (.worker 1) ∧
      ¬ (Config.complete .threadPool 2).AllOrNothing (.worker 1) before inside left ∧
      Reaches (Config.complete .threadPool 2).program.step Undisturbed left later ∧
      later.data.taskList = [0, 1] ∧ (3, .client 0) ∈ later.data.log.submitted ∧
      3 ∉ later.data.log.started ∧ later.data.log.discarded = [3] := by
  let cfg := Config.complete .threadPool 2
  have hexecute : ((execute cfg.program.step (fun _ _ => true)
        (PoolAction.call (.client 0) (.execute (some 1)) :: PoolAction.steps (.client 0) 7 ++
          PoolAction.call (.client 0) (.execute (some 2)) :: PoolAction.steps (.client 0) 9 ++
          PoolAction.steps (.worker 0) 4 ++ PoolAction.finish 0 ::
          PoolAction.steps (.worker 0) 1 ++ PoolAction.steps (.worker 1) 4 ++
          [PoolAction.call (.worker 1) .terminate]) cfg.initial).bind fun before =>
        (cfg.program.step before (PoolAction.go (.worker 1))).bind fun entered =>
        (execute cfg.program.step (terminating 1) (PoolAction.steps (.worker 1) 2)
          entered).bind fun inside =>
        (cfg.program.step inside (PoolAction.go (.worker 1))).bind fun left =>
        (execute cfg.program.step (fun state action => decide (Undisturbed state action))
          (PoolAction.finish 1 :: PoolAction.call (.client 0) (.execute (some 3)) ::
            PoolAction.steps (.client 0) 7 ++ PoolAction.steps (.worker 0) 3) left).map
        fun later =>
          (decide (before.pc (.worker 1) = .worker (.running (some (.terminate .enter))) ∧
              inside.pc (.worker 1) =
                .worker (.running (some (.terminate (.stop 1 [] .lock)))) ∧
              left.pc (.worker 1) = .worker (.running none)),
            decide ((inside.monitor (.manager 1)).owner = some (.worker 1) ∧
              (inside.monitor (.manager 1)).waiters = [] ∧
              (before.data.managers 0).go = true ∧ (left.data.managers 0).go = false),
            decide (later.data.taskList = [0, 1] ∧ (3, .client 0) ∈ later.data.log.submitted ∧
              3 ∉ later.data.log.started ∧ later.data.log.discarded = [3]))) =
      some (true, true, true) := by decide +kernel
  obtain ⟨before, hbefore, hrest⟩ := Option.bind_eq_some_iff.mp hexecute
  obtain ⟨entered, hentered, hrest⟩ := Option.bind_eq_some_iff.mp hrest
  obtain ⟨inside, hinner, hrest⟩ := Option.bind_eq_some_iff.mp hrest
  obtain ⟨left, hleft, hrest⟩ := Option.bind_eq_some_iff.mp hrest
  obtain ⟨later, hlater, hobserved⟩ := Option.map_eq_some_iff.mp hrest
  simp only [Prod.mk.injEq, decide_eq_true_eq] at hobserved
  obtain ⟨⟨henters, hinside, hreturned⟩, ⟨howner, hwaiters, hup, hdown⟩, hlost⟩ := hobserved
  let entering : Piece Point :=
    { op := .lock (.manager 1)
      next := .worker (.running (some (.terminate (.stop 1 [] .body)))) }
  have hraises : cfg.program.AboutToRaise inside (.worker 1) := by
    refine ⟨.manager 1, ⟨.go, entering, ?_, rfl, ?_⟩, howner⟩
    · rw [hinside]
      rfl
    · simp [hwaiters]
  refine ⟨before, inside, left, later, ?_, hraises, fun hall => ?_, ?_, hlost⟩
  · exact terminates_of_execute hbefore henters hentered hinner hinside hleft hreturned
  · have hsame := (hall.restored hraises).1 0
    rw [hup, hdown] at hsame
    cases hsame
  · exact .of_execute (fun _ _ => of_decide_eq_true) hlater

end Config

end ThreadPools.Posix
