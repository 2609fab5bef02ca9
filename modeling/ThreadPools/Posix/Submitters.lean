/-
# Submitters that wait for a manager

`ThreadPool::execute` waits without a time limit when no manager is idle. The
callers asleep are woken one at a time: by a worker at the end of a task, and by
`terminate` once. A caller that has been woken looks at all managers again, so
its wake-up is worth the end of another task to the callers that are still
asleep; `terminate`, which nothing follows, wakes only one of them.
-/

import ThreadPools.Posix.WakeUps

namespace ThreadPools.Posix

open ThreadPools.Concurrency

/-- The thread is inside the untimed `wait()` of `ThreadPool::execute`. -/
def InWait (state : PoolState) (t : Tid) : Prop :=
  ∃ task, state.pc t = t.calling (some (.execute task .woken))

/-- A caller is asleep on the condition of the pool and no wake-up is pending for
any caller, but every manager is idle. -/
structure ThreadPool.Stranded (cfg : Config) (state : PoolState) : Prop where
  asleep : ∃ t, InWait state t ∧ t ∈ (state.monitor .pool).waiters
  unwoken : ∀ t, InWait state t → t ∈ (state.monitor .pool).waiters
  idle : ∀ m < cfg.size, ManagerIdle state m

/-- A woken caller enters the monitor again only while it leaves nobody asleep, or
some slot is occupied, or another caller has been woken too. -/
def WakesServed (size : Nat) (state : PoolState) : PoolAction → Prop
  | .run t _ _ => InWait state t → t ∉ (state.monitor .pool).waiters →
      (state.monitor .pool).waiters = [] ∨ state.data.Occupied size ∨
        ∃ other, other ≠ t ∧ InWait state other ∧ other ∉ (state.monitor .pool).waiters
  | .spurious _ _ => True

namespace Config

variable {cfg : Config} {guard : PoolState → PoolAction → Prop} {state : PoolState}

/-- The sleepers on the condition of the pool are callers of `execute`. -/
theorem awakened_pool (hrun : Reaches cfg.program.step guard cfg.initial state) (t : Tid) :
    cfg.program.Awakened state .pool t ↔
      InWait state t ∧ t ∉ (state.monitor .pool).waiters := by
  have hfits : (state.pc t).Fits cfg.kind (fun _ => True) t :=
    (shape_of_reaches_any hrun).assertion t
  refine ⟨fun h => ⟨?_, h.2⟩, fun h => ⟨?_, h.2⟩⟩
  · rcases Point.waitsAt_cases hfits h.1 with ⟨hm, -⟩ | ⟨-, hcall⟩ | ⟨i, hm, -⟩
    · cases hm
    · exact hcall
    · cases hm
  · obtain ⟨task, hcall⟩ := h.1
    show (state.pc t).waitsAt t = some .pool
    have ht := ne_dispatcher_of_calling hrun hcall
    rw [hcall, Tid.waitsAt_calling ht]
    rfl

theorem inWait_of_waiter (hrun : Reaches cfg.program.step guard cfg.initial state) {t : Tid}
    (hasleep : t ∈ (state.monitor .pool).waiters) : InWait state t := by
  have hfits : (state.pc t).Fits cfg.kind (fun _ => True) t :=
    (shape_of_reaches_any hrun).assertion t
  rcases Point.waitsAt_cases hfits ((locked_of_reaches hrun).waits .pool t hasleep) with
    ⟨hm, -⟩ | ⟨-, hcall⟩ | ⟨i, hm, -⟩
  · cases hm
  · exact hcall
  · cases hm

/-- A caller falls asleep beside an occupied slot. -/
theorem occupied_of_wait {t : Tid} {input : Input} {p : Point} {pool : Pool}
    {piece : Piece Point} (hmoves : cfg.Moves pool t input p piece)
    (hsleep : SleepsOccupied cfg.size t input p pool) (hop : piece.op = .wait .pool) :
    (piece.after pool).Occupied cfg.size := by
  obtain ⟨heffect, hsleeps⟩ := hmoves.wait_cases hop
  rw [Piece.after_of_none heffect]
  rcases hsleeps with ⟨hm, -⟩ | ⟨-, task, rfl⟩ | ⟨i, hm⟩
  · cases hm
  · exact hsleep (by cases t <;> rfl)
  · cases hm

/-- While some slot is occupied the callers asleep are served. -/
theorem attends_submitters (hkind : cfg.kind = .threadPool)
    (hgo : ∀ state, Reaches cfg.program.step guard cfg.initial state →
      ∀ m, (state.data.managers m).go = true)
    (hsleep : ∀ state action, guard state action →
      Annotation.Respects (SleepsOccupied cfg.size) state action)
    (hwake : ∀ state action, guard state action → WakesServed cfg.size state action) :
    cfg.program.Attends .pool (fun pool => pool.Occupied cfg.size) (fun _ _ => False) guard
      cfg.initial where
  sleep {_ _ _ _ piece} _ hallowed hcode hop := by
    rw [dataAfter_eq]
    exact occupied_of_wait (code_moves hcode) (hsleep _ _ hallowed) hop
  wake {state t _ _ _} hrun hallowed _ hawakened := by
    obtain ⟨hwait, hawake⟩ := (awakened_pool hrun t).mp hawakened
    rcases hwake _ _ hallowed hwait hawake with hnil | hoccupied | ⟨other, hne, hother⟩
    · exact .inr (.inl hnil)
    · exact .inr (.inr (.inl hoccupied))
    · exact .inr (.inr (.inr ⟨other, hne, (awakened_pool hrun other).mpr hother⟩))
  stay _ _ _ h := h.elim
  serve {_ _ _ _ piece} hrun _ hcode hnotify hoccupied := by
    rw [dataAfter_eq]
    refine (code_moves hcode).occupied_after (hgo _ hrun) ?_ hoccupied
    rwa [hkind]
  raise _ h := h

/-- No submitter is stranded: while callers of `execute` fall asleep, and callers that
have been woken enter the monitor again, only under these conditions, none is left
asleep with no wake-up pending among idle managers. -/
theorem submitters_not_stranded (hkind : cfg.kind = .threadPool)
    (hshutdown : ∀ state action, guard state action →
      Annotation.Respects NoShutdown state action)
    (hsleep : ∀ state action, guard state action →
      Annotation.Respects (SleepsOccupied cfg.size) state action)
    (hwake : ∀ state action, guard state action → WakesServed cfg.size state action)
    (hrun : Reaches cfg.program.step guard cfg.initial state) :
    ¬ ThreadPool.Stranded cfg state := by
  intro hstranded
  have hgo : ∀ state, Reaches cfg.program.step guard cfg.initial state →
      ∀ m, (state.data.managers m).go = true :=
    fun _ hprior => manager_go (undisturbed_of_reaches hshutdown hprior)
  rcases (attends_submitters hkind hgo hsleep hwake).attended cfg.wellLocked
    cfg.locked_initial (.inl rfl) hrun with hnil | hoccupied | ⟨t, hawakened⟩ | ⟨_, hduty⟩
  · obtain ⟨t, -, hasleep⟩ := hstranded.asleep
    exact absurd (hnil ▸ hasleep) List.not_mem_nil
  · exact not_idle_of_occupied hoccupied hstranded.idle
  · obtain ⟨hwait, hawake⟩ := (awakened_pool hrun t).mp hawakened
    exact hawake (hstranded.unwoken t hwait)
  · exact hduty

theorem waitsAt_of_inWait {t : Tid} (h : InWait state t) :
    (state.pc t).waitsAt t = some .pool := by
  obtain ⟨task, hcall⟩ := h
  rw [hcall]
  cases t <;> rfl

/-- A submitter has been woken and has found the only slot filled again, by a task which its
manager has still to run. -/
theorem submitters_not_stranded_waiting : ∃ state : PoolState,
    ((state.monitor .pool).waiters = [.client 1] ∧ (state.data.managers 0).task = some 3) ∧
      ¬ ThreadPool.Stranded (Config.complete .threadPool 1) state := by
  let cfg := Config.complete .threadPool 1
  let guard (state : PoolState) (action : PoolAction) : Prop :=
    Annotation.Respects NoShutdown state action ∧
      Annotation.Respects (SleepsOccupied 1) state action ∧ WakesServed 1 state action
  -- in this run whoever has been woken moves beside an occupied slot
  let served (state : PoolState) (action : PoolAction) : Bool :=
    match action with
    | .run t _ _ => (state.pc t).waitsAt t ≠ some .pool ∨ (state.data.managers 0).task ≠ none
    | .spurious _ _ => true
  have hserved : ∀ state action, served state action = true → WakesServed 1 state action := by
    intro state action hserved
    cases action with
    | run t input choice =>
        intro hwait _
        rcases of_decide_eq_true hserved with hawake | htask
        · exact absurd (waitsAt_of_inWait hwait) hawake
        · exact .inr (.inl ⟨0, Nat.one_pos, htask⟩)
    | spurious => trivial
  obtain ⟨state, hrun, hobserved⟩ : ∃ state : PoolState,
      Reaches cfg.program.step guard cfg.initial state ∧
        ((state.monitor .pool).waiters, (state.data.managers 0).task) = ([.client 1], some 3) :=
    Reaches.of_observed
      (fun state action => (decide <| Annotation.Respects NoShutdown state action ∧
        Annotation.Respects (SleepsOccupied 1) state action) && served state action)
      (PoolAction.call (.client 0) (.execute (some 1)) :: PoolAction.steps (.client 0) 7 ++
        PoolAction.call (.client 1) (.execute (some 2)) :: PoolAction.steps (.client 1) 5 ++
        PoolAction.steps (.worker 0) 4 ++ [PoolAction.finish 0, PoolAction.go (.worker 0)] ++
        PoolAction.call (.client 0) (.execute (some 3)) :: PoolAction.steps (.client 0) 7 ++
        PoolAction.steps (.client 1) 5)
      (fun state action h => by
        obtain ⟨hrespects, hwoken⟩ := Bool.and_eq_true_iff.mp h
        exact ⟨(of_decide_eq_true hrespects).1, (of_decide_eq_true hrespects).2,
          hserved state action hwoken⟩)
      (by decide +kernel)
  exact ⟨state, Prod.mk.inj hobserved, submitters_not_stranded rfl (fun _ _ h => h.1)
    (fun _ _ h => h.2.1) (fun _ _ h => h.2.2) hrun⟩

/-- The notification of the only worker comes between the inspection of its manager
and the `wait()` of the second submitter, which is never woken again. -/
theorem submitter_stranded :
    ∃ state : PoolState,
      Reaches (Config.complete .threadPool 1).program.step
        (fun state action => Contract state action ∧
          Annotation.Respects NoShutdown state action)
        (Config.complete .threadPool 1).initial state ∧
      ThreadPool.Stranded (Config.complete .threadPool 1) state := by
  let cfg := Config.complete .threadPool 1
  let check (state : PoolState) (action : PoolAction) : Bool :=
    decide (Contract state action ∧ Annotation.Respects NoShutdown state action)
  let actions : List PoolAction :=
    PoolAction.call (.client 0) (.execute (some 1)) :: PoolAction.steps (.client 0) 7 ++
      PoolAction.call (.client 1) (.execute (some 2)) :: PoolAction.steps (.client 1) 4 ++
      PoolAction.steps (.worker 0) 4 ++
      [PoolAction.finish 0, PoolAction.go (.worker 0), PoolAction.go (.client 1)]
  obtain ⟨state, hexecute, hobserved⟩ : ∃ state : PoolState,
      execute cfg.program.step check actions cfg.initial = some state ∧
        ([state.pc (.client 0), state.pc (.client 1), state.pc (.worker 0)],
          (state.monitor .pool).waiters, (state.data.managers 0).task,
          (state.monitor (.manager 0)).waiters) =
        ([.client none, .client (some (.execute (some 2) .woken)), .worker .woken],
          [.client 1], none, [.worker 0]) :=
    Option.map_eq_some_iff.mp (by decide +kernel)
  simp only [Prod.mk.injEq, List.cons.injEq] at hobserved
  obtain ⟨⟨hfirst, hsecond, hrunner, -⟩, hwaiters, hslot, hworker⟩ := hobserved
  refine ⟨state, .of_execute (fun _ _ => of_decide_eq_true) hexecute,
    ⟨.client 1, ⟨some 2, hsecond⟩, by simp [hwaiters]⟩, fun t ht => ?_, fun m hm => ?_⟩
  · by_cases hactive : t ∈ [Tid.client 0, .client 1, .worker 0]
    · obtain ⟨task, hcall⟩ := ht
      simp only [List.mem_cons, List.not_mem_nil, or_false] at hactive
      rcases hactive with rfl | rfl | rfl
      · cases hfirst.symm.trans hcall
      · simp [hwaiters]
      · cases hrunner.symm.trans hcall
    · obtain ⟨task, hcall⟩ := ht
      rw [Program.execute_pc hexecute (by decide) hactive] at hcall
      exact absurd hcall (cfg.initialPoint_ne_calling t _)
  · obtain rfl : m = 0 := Nat.lt_one_iff.mp hm
    exact ⟨hslot, by simp [hworker]⟩

end Config

/-! ## Submitters and `terminate` -/

/-- The call is looking for a manager, or has found none. -/
def Call.Offers : Call → Prop
  | .execute _ (.scan _) => True
  | .execute _ .failed => True
  | _ => False

/-- A caller of `execute` looks for a manager only if there are any. -/
theorem Call.offers_of_next {call next : Call} {pool : Pool}
    (hnext : (call.code pool).next = .inl next) (hoffers : next.Offers) :
    call.Offers ∨ pool.taskList ≠ [] := by
  cases call with
  | execute task p =>
      cases p with
      | scan | failed => exact .inl trivial
      | test =>
          refine .inr fun hnil => ?_
          simp [code, piece, ThreadPool.execute, hnil, Instr.map] at hnext
      | enter | woken => cases hnext; exact hoffers.elim
      | placed => cases hnext
  | _ => obtain ⟨q, -, rfl⟩ := next_of_piece hnext; exact hoffers.elim

theorem Call.not_offers_of_entry {kind : Kind} {method : Method} {call : Call}
    (h : entry kind method = some call) : ¬ call.Offers := by
  cases kind <;> cases method <;> cases h <;> exact id

theorem Call.held_of_offers {call : Call} (h : call.Offers) : .pool ∈ call.held := by
  unfold Offers at h
  split at h
  · simp [held, ThreadPool.ExecutePoint.held]
  · exact List.mem_cons_self
  · exact h.elim

/-- What `terminate` knows when it issues its notification. -/
def Call.Cleared (pool : Pool) : Call → Prop
  | .terminate .finish => pool.taskList = []
  | _ => True

theorem Call.cleared_of_next {call next : Call} {pool : Pool}
    (hnext : (call.code pool).next = .inl next) :
    next.Cleared (Piece.after (call.code pool) pool) := by
  cases call with
  | terminate p =>
      cases p with
      | enter =>
          cases hnext
          cases pool.taskList <;> trivial
      | stop m rest p =>
          cases p with
          | lock => cases hnext; trivial
          | body =>
              cases hnext
              cases rest with
              | nil => cases pool.taskList <;> trivial
              | cons => trivial
      | empty p =>
          cases p with
          | destroy m rest p =>
              cases p with
              | join =>
                  simp only [code, piece, ThreadPool.terminate, ThreadPool.emptyTaskList,
                    TaskManager.destroy] at hnext
                  split at hnext <;> cases hnext <;> cases rest <;> trivial
              | _ => cases hnext; trivial
          | clear => cases hnext; rfl
      | finish => cases hnext
  | _ => obtain ⟨q, -, rfl⟩ := next_of_piece hnext; trivial

theorem Call.Cleared.apply {call : Call} {pool : Pool} (h : call.Cleared pool)
    (effect : Effect) : call.Cleared (pool.apply effect) := by
  unfold Cleared at h ⊢
  split
  · exact Pool.taskList_apply h effect
  · trivial

/-- There is no manager any more, and no caller of `execute` looks for one. -/
structure Refuses (state : PoolState) : Prop where
  empty : state.data.taskList = []
  outside : ∀ t call, state.pc t = t.calling (some call) → ¬ call.Offers

namespace Config

variable (cfg : Config)

/-- `terminate` has removed the managers before it notifies the callers. -/
def clearing : Annotation Tid MonitorId Pool Point where
  assertion t p pool := ∀ call, p = t.calling (some call) → call.Cleared pool
  resource _ _ := True
  invariant _ := True

variable {cfg} {guard : PoolState → PoolAction → Prop} {state next : PoolState}

theorem clearing_of_reaches (hrun : Reaches cfg.program.step guard cfg.initial state) :
    clearing.Holds state := by
  have hentry : ∀ {kind method call} (pool : Pool), Call.entry kind method = some call →
      call.Cleared pool := by
    intro kind method call pool h
    cases kind <;> cases method <;> cases h <;> trivial
  have hholds : (calls fun call pool => call.Cleared pool).Holds state :=
    calls_of_reaches hentry (fun _ hnext => Call.cleared_of_next hnext)
      (fun effect h => h.apply effect) hrun
  exact hholds

theorem Moves.not_offers {pool : Pool} {t : Tid} {input : Input} {p : Point}
    {piece : Piece Point} (hmoves : cfg.Moves pool t input p piece) (hempty : pool.taskList = [])
    (h : ∀ call, p = t.calling (some call) → ¬ call.Offers) (call : Call)
    (hnext : piece.next = t.calling (some call)) : ¬ call.Offers := by
  rcases hmoves.next_calling hnext with ⟨method, -, -, hentry⟩ | ⟨prior, hp, hcode, -⟩
  · exact Call.not_offers_of_entry hentry
  · intro hoffers
    rcases Call.offers_of_next hcode hoffers with hprior | hlist
    · exact h prior hp hprior
    · exact hlist hempty

/-- Callers are refused for ever, and nobody falls asleep on the condition of the
pool. -/
theorem refuses_step (h : Refuses state) {action : PoolAction}
    (hstep : cfg.program.step state action = some next) :
    Refuses next ∧
      (next.monitor .pool).waiters.Sublist (state.monitor .pool).waiters := by
  have hempty : next.data.taskList = [] := by
    rcases data_step hstep with hsame | ⟨effect, heffect⟩
    · rw [hsame]
      exact h.empty
    · rw [heffect]
      exact Pool.taskList_apply h.empty effect
  rcases Program.step_cases hstep with
    ⟨t, input, choice, piece, -, hcode, -, rfl⟩ | ⟨t, input, choice, piece, -, -, -, rfl⟩ |
    ⟨m, t, -, -, rfl⟩
  · have hmoves := code_moves hcode
    refine ⟨⟨hempty, fun other call hcall => ?_⟩, ?_⟩
    · by_cases hother : other = t
      · subst hother
        simp only [Program.advance, Function.update_self] at hcall
        exact hmoves.not_offers h.empty (h.outside other) call hcall
      · simp only [Program.advance, Function.update_of_ne hother] at hcall
        exact h.outside other call hcall
    · rcases Program.perform_waiters t (notified state.monitor piece.notify choice) piece.op .pool
        with hsame | ⟨hop, -⟩
      · simp only [Program.advance, hsame]
        exact Program.notified_waiters_sublist _ _ _ _
      · rcases (hmoves.wait_cases hop).2 with ⟨hm, -⟩ | ⟨-, task, hp⟩ | ⟨i, hm⟩
        · cases hm
        · exact absurd trivial (h.outside t _ hp)
        · cases hm
  · refine ⟨⟨hempty, fun other call hcall => ?_⟩, ?_⟩
    · by_cases hother : other = t
      · subst hother
        simp only [Program.raise, Function.update_self] at hcall
        exact h.outside other call (Point.eq_of_handler hcall)
      · simp only [Program.raise, Function.update_of_ne hother] at hcall
        exact h.outside other call hcall
    · simp only [Program.raise]
      split <;> exact List.Sublist.refl _
  · refine ⟨⟨hempty, h.outside⟩, ?_⟩
    by_cases hm : m = .pool
    · subst hm
      simpa using List.erase_sublist
    · simp [Ne.symm hm]

theorem refuses_reaches (h : Refuses state)
    (hrun : Reaches cfg.program.step guard state next) :
    Refuses next ∧ (next.monitor .pool).waiters.Sublist (state.monitor .pool).waiters := by
  induction hrun with
  | refl => exact ⟨h, List.Sublist.refl _⟩
  | tail _ _ _ hstep ih =>
      obtain ⟨hrefuses, hfewer⟩ := refuses_step ih.1 hstep
      exact ⟨hrefuses, hfewer.trans ih.2⟩

/-- What `terminate` leaves behind: it has woken one caller if any was asleep. -/
theorem refuses_of_terminate (hrun : Reaches cfg.program.step guard cfg.initial state) {t : Tid}
    (hpoint : state.pc t = t.calling (some (.terminate .finish))) {input : Input}
    {choice : Nat} (hstep : cfg.program.step state (.run t input choice) = some next) :
    Refuses next ∧
      (next.monitor .pool).waiters = ((state.monitor .pool).signal choice).waiters := by
  have ht := ne_dispatcher_of_calling hrun hpoint
  have hempty : state.data.taskList = [] :=
    (clearing_of_reaches hrun).assertion t _ hpoint
  have hlocked := locked_of_reaches hrun
  have hheld : .pool ∈ (state.pc t).held t := by
    rw [hpoint, Tid.held_calling ht]
    exact List.mem_append_left _ List.mem_cons_self
  rcases Program.step_cases hstep with
    ⟨_, _, _, piece, hrun', hcode, -, rfl⟩ | ⟨_, _, _, piece, hrun', hcode, hraises, rfl⟩ |
    ⟨m, other, hspurious, -, rfl⟩
  · cases hrun'
    have hmoves := code_moves hcode
    rw [hpoint] at hmoves
    obtain rfl := hmoves.of_call ht
    refine ⟨⟨hempty, fun other call hcall hoffers => ?_⟩, ?_⟩
    · by_cases hother : other = t
      · subst hother
        simp only [Program.advance, Function.update_self] at hcall
        cases other.calling_injective hcall
      · simp only [Program.advance, Function.update_of_ne hother] at hcall
        have hotherNe := ne_dispatcher_of_calling hrun hcall
        refine hother (hlocked.exclusive (m := .pool) ?_ hheld)
        show MonitorId.pool ∈ (state.pc other).held other
        rw [hcall, Tid.held_calling hotherNe]
        exact List.mem_append_left _ (Call.held_of_offers hoffers)
    · simp [Program.advance, Call.code, Call.piece, ThreadPool.terminate, Op.perform, notified]
  · cases hrun'
    have hmoves := code_moves hcode
    rw [hpoint] at hmoves
    obtain rfl := hmoves.of_call ht
    exact hraises.elim
  · cases hspurious

/-- When `terminate` returns, it has released every submitter if and only if at most
one of them was asleep when it issued its notification. -/
theorem terminate_releases_iff (hrun : Reaches cfg.program.step guard cfg.initial state)
    {t : Tid} (hpoint : state.pc t = t.calling (some (.terminate .finish))) {input : Input}
    {choice : Nat} (hallowed : guard state (.run t input choice))
    (hstep : cfg.program.step state (.run t input choice) = some next) :
    (∀ later, Reaches cfg.program.step guard next later →
      ∀ caller, InWait later caller → caller ∉ (later.monitor .pool).waiters) ↔
    (state.monitor .pool).waiters.length ≤ 1 := by
  obtain ⟨hrefuses, hwaiters⟩ := refuses_of_terminate hrun hpoint hstep
  constructor
  · intro hreleased
    by_contra hmany
    have hne : (state.monitor .pool).waiters ≠ [] := fun hnil => hmany (by simp [hnil])
    have hlength := (state.monitor .pool).length_signal_waiters choice hne
    rw [← hwaiters] at hlength
    obtain ⟨caller, hcaller⟩ : ∃ caller, caller ∈ (next.monitor .pool).waiters := by
      refine List.exists_mem_of_length_pos ?_
      omega
    have hnext := hrun.tail _ hallowed hstep
    exact hreleased next .refl caller (inWait_of_waiter hnext hcaller) hcaller
  · intro hfew later hlater caller _ hasleep
    have hnone : (next.monitor .pool).waiters = [] :=
      hwaiters.trans ((state.monitor .pool).signal_waiters_of_length_le_one choice hfew)
    have hsublist := (refuses_reaches hrefuses hlater).2
    rw [hnone] at hsublist
    exact absurd (List.sublist_nil.mp hsublist ▸ hasleep) List.not_mem_nil

/-- The only submitter is woken by `terminate`. -/
theorem terminate_releases_one : ∃ state next : PoolState,
    (state.monitor .pool).waiters = [.client 1] ∧
      ∀ later, Reaches (Config.complete .threadPool 1).program.step Contract next later →
        ∀ caller, InWait later caller → caller ∉ (later.monitor .pool).waiters := by
  let cfg := Config.complete .threadPool 1
  obtain ⟨state, hrun, hobserved⟩ : ∃ state : PoolState,
      Reaches cfg.program.step Contract cfg.initial state ∧
        (state.pc (.client 2), (state.monitor .pool).waiters,
          (cfg.program.step state (PoolAction.go (.client 2))).isSome,
          decide (Contract state (PoolAction.go (.client 2)))) =
        (.client (some (.terminate .finish)), [.client 1], true, true) :=
    Reaches.of_observed (fun state action => decide (Contract state action))
      (PoolAction.call (.client 0) (.execute (some 1)) :: PoolAction.steps (.client 0) 7 ++
        PoolAction.call (.client 1) (.execute (some 2)) :: PoolAction.steps (.client 1) 5 ++
        PoolAction.call (.client 2) .terminate :: PoolAction.steps (.client 2) 5 ++
        PoolAction.steps (.worker 0) 6 ++ PoolAction.steps (.client 2) 2)
      (fun _ _ => of_decide_eq_true) (by decide +kernel)
  simp only [Prod.mk.injEq] at hobserved
  obtain ⟨hpoint, hwaiters, hstep, hallowed⟩ := hobserved
  obtain ⟨next, hnext⟩ := Option.isSome_iff_exists.mp hstep
  refine ⟨state, next, hwaiters, (terminate_releases_iff hrun (t := .client 2) hpoint
    (of_decide_eq_true hallowed) hnext).mpr ?_⟩
  simp [hwaiters]

/-- Three callers are asleep when the only worker ends its task and wakes one of them;
`terminate` wakes the second, and the third sleeps on beside an empty list of
managers. -/
theorem submitter_not_released :
    ∃ state next : PoolState,
      Reaches (Config.complete .threadPool 1).program.step Contract
        (Config.complete .threadPool 1).initial state ∧
      state.pc (.client 4) = .client (some (.terminate .finish)) ∧
      (Config.complete .threadPool 1).program.step state (PoolAction.go (.client 4)) =
        some next ∧
      next.pc (.client 4) = .client none ∧ next.data.taskList = [] ∧
      InWait next (.client 3) ∧ .client 3 ∈ (next.monitor .pool).waiters := by
  let cfg := Config.complete .threadPool 1
  obtain ⟨state, hrun, hobserved⟩ : ∃ state : PoolState,
      Reaches cfg.program.step Contract cfg.initial state ∧
        ((cfg.program.step state (PoolAction.go (.client 4))).map fun next =>
          ([state.pc (.client 4), next.pc (.client 4), next.pc (.client 3)],
            next.data.taskList, (next.monitor .pool).waiters)) =
        some ([.client (some (.terminate .finish)), .client none,
          .client (some (.execute (some 4) .woken))], [], [.client 3]) :=
    Reaches.of_observed (fun state action => decide (Contract state action))
      (PoolAction.call (.client 0) (.execute (some 1)) :: PoolAction.steps (.client 0) 7 ++
        PoolAction.call (.client 1) (.execute (some 2)) :: PoolAction.steps (.client 1) 5 ++
        PoolAction.call (.client 2) (.execute (some 3)) :: PoolAction.steps (.client 2) 5 ++
        PoolAction.call (.client 3) (.execute (some 4)) :: PoolAction.steps (.client 3) 5 ++
        PoolAction.steps (.worker 0) 4 ++ [PoolAction.finish 0, PoolAction.go (.worker 0)] ++
        PoolAction.call (.client 4) .terminate :: PoolAction.steps (.client 4) 5 ++
        PoolAction.steps (.worker 0) 5 ++ PoolAction.steps (.client 4) 2)
      (fun _ _ => of_decide_eq_true) (by decide +kernel)
  simp only [Prod.mk.injEq, Option.map_eq_some_iff, List.cons.injEq] at hobserved
  obtain ⟨next, hnext, ⟨hpoint, hreturned, hcaller, -⟩, hlist, hwaiters⟩ := hobserved
  exact ⟨state, next, hrun, hpoint, hnext, hreturned, hlist, ⟨some 4, hcaller⟩,
    by simp [hwaiters]⟩

end Config

end ThreadPools.Posix
