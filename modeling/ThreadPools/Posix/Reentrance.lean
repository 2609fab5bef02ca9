/-
# Tasks that submit tasks

A worker executes a task inside its manager's monitor. When the task calls
`execute` on the pool that runs it, the call enters the monitors of the pool
from there, against the order of the other threads, and the loop of
`ThreadPool::execute` comes to the manager of the caller as well. As long as
nobody turns to a manager whose task is inside such a call, the call raises no
exception, its task is accepted, and no cycle of blocked threads is reachable.
-/

import ThreadPools.Posix.Fate
import ThreadPools.Posix.Idleness
import ThreadPools.Posix.LockOrder

namespace ThreadPools.Posix

open ThreadPools.Concurrency

/-- Tasks call nothing but `execute`, and no task is submitted twice. -/
def ReentrantContract (state : PoolState) (action : PoolAction) : Prop :=
  Annotation.Respects (TasksCall mayExecute) state action ∧
    Annotation.Respects SubmitsFresh state action

instance (method : Method) : Decidable (mayExecute method) :=
  match method with
  | .execute task => .isTrue ⟨task, rfl⟩
  | .isIdle | .isBusy | .queueLength | .terminate | .destroy => .isFalse nofun

instance (t : Tid) (input : Input) (p : Point) (pool : Pool) :
    Decidable (TasksCall mayExecute t input p pool) :=
  match t, input with
  | .worker m, .call method =>
      decidable_of_iff (mayExecute method)
        ⟨fun h _ _ _ heq => TaskManager.Input.call.inj heq ▸ h, fun h => h m method rfl rfl⟩
  | .worker _, .go => .isTrue nofun
  | .worker _, .finish => .isTrue nofun
  | .client _, _ => .isTrue nofun
  | .dispatcher, _ => .isTrue nofun

instance (state : PoolState) (action : PoolAction) :
    Decidable (ReentrantContract state action) :=
  inferInstanceAs (Decidable (_ ∧ _))

/-- Nobody is about to enter the monitor of a manager whose task is inside a call. -/
def PoolState.Apart (state : PoolState) : Prop :=
  ∀ t m call, (state.pc t).reaching = some m →
    state.pc (.worker m) ≠ .worker (.running (some call))

/-- The step leads to a state where the threads are apart. -/
def KeepsApart (cfg : Config) (state : PoolState) (action : PoolAction) : Prop :=
  ∀ next, cfg.program.step state action = some next → PoolState.Apart next

/-- What a task may rely on that submits others. -/
structure Reentrant (cfg : Config) (state : PoolState) : Prop where
  /-- no exception in a call of a task -/
  not_raises : ∀ m call, state.pc (.worker m) = .worker (.running (some call)) →
    ¬ cfg.program.AboutToRaise state (.worker m)
  /-- the task of a call that has ended is in the queue's books or in those of the slots -/
  accepted : ∀ x m, (x, .worker m) ∈ state.data.log.submitted →
    (∀ call, state.pc (.worker m) = .worker (.running (some call)) →
      call.method ≠ .execute (some x)) →
    x ∉ state.data.log.rejected ∧ some x ∈ state.data.custody.accepted cfg.kind
  not_deadlocked : ¬ cfg.program.Deadlocked state

/-! ## Turning to a manager -/

theorem scan_op_of_reaching {t : Option Runnable} {p q : ScanPoint} {pool : Pool}
    {m : ManagerId} (hnext : (scan t p pool).next = .inl q) (hreaching : q.reaching = some m) :
    ∃ i, (scan t p pool).op = .unlock i := by
  have hmoves := scan_moves t p pool
  generalize scan t p pool = piece at hmoves hnext
  cases hmoves with
  | probe | offer => cases hnext; cases hreaching
  | idle i | busy i | taken i | refused i => exact ⟨_, rfl⟩

/-- `execute` turns to a manager without being blocked. -/
theorem Call.op_of_reaching {call next : Call} (hexecute : mayExecute call.method)
    {pool : Pool} {m : ManagerId} (hnext : (call.code pool).next = .inl next)
    (hreaching : next.reaching = some m) :
    (call.code pool).op = .skip ∨ ∃ i, (call.code pool).op = .unlock i := by
  obtain ⟨task, htask⟩ := hexecute
  cases call with
  | execute task p =>
      obtain ⟨q, hq, rfl⟩ := next_of_piece hnext
      cases p with
      | test =>
          simp only [ThreadPool.execute, code, piece, Instr.map_op] at hq ⊢
          split at hq
          · cases hq
          · next hlist => simp [hlist]
      | scan p =>
          change Sum.inl (ThreadPool.ExecutePoint.scanned (scan task p pool).next) = _ at hq
          cases hscan : (scan task p pool).next with
          | inl place =>
              rw [hscan] at hq
              cases hq
              exact .inr (scan_op_of_reaching hscan hreaching)
          | inr taken =>
              rw [hscan] at hq
              cases hq
              cases taken <;> cases hreaching
      | placed => cases hq
      | enter | failed | woken =>
          cases hq
          cases hreaching
  | queuedExecute task p =>
      obtain ⟨q, -, rfl⟩ := next_of_piece hnext
      cases hreaching
  | _ => cases htask

theorem Call.reaching_of_entry {kind : Kind} {method : Method} {call : Call}
    (h : entry kind method = some call) : call.reaching = none := by
  cases kind <;> cases method <;> cases h <;> rfl

/-! ## Joining a worker -/

namespace ThreadPool

theorem emptyTaskList_go {p : EmptyPoint} {pool : Pool} {m : ManagerId}
    (h : p.Control pool.life) (hop : (emptyTaskList p pool).op = .join (.worker m)) :
    (pool.life.manager m).go = false := by
  cases p with
  | destroy i rest p =>
      cases p with
      | lock | body => cases hop
      | join =>
          simp only [emptyTaskList, TaskManager.destroy] at hop
          split at hop <;> cases hop
          exact h.2.2 rfl
  | clear => cases hop

theorem terminate_go {p : TerminatePoint} {pool : Pool} {m : ManagerId}
    (h : p.Control pool.life) (hop : (terminate p pool).op = .join (.worker m)) :
    (pool.life.manager m).go = false := by
  cases p with
  | stop i rest p => cases p <;> cases hop
  | empty p => exact emptyTaskList_go h hop
  | enter | finish => cases hop

theorem destroy_go {p : DestroyPoint} {pool : Pool} {m : ManagerId}
    (h : p.Control pool.life) (hop : (destroy p pool).op = .join (.worker m)) :
    (pool.life.manager m).go = false := by
  cases p with
  | terminate p => exact terminate_go h hop
  | empty p =>
      obtain ⟨rfl, -⟩ := h
      cases hop
  | release => cases hop

end ThreadPool

/-- A worker is joined behind `go = false` of its manager. -/
theorem Call.go_of_join {call : Call} {pool : Pool} {m : ManagerId}
    (h : call.Control pool.life) (hop : (call.code pool).op = .join (.worker m)) :
    (pool.life.manager m).go = false := by
  have hqueued : ∀ {p : QueuedThreadPool.TerminatePoint}, p.Control pool.life →
      (QueuedThreadPool.terminate p pool).op = .join (.worker m) →
      (pool.life.manager m).go = false := by
    intro p h hop
    cases p with
    | base p => exact ThreadPool.terminate_go h.2 hop
    | enter | stop | leave => cases hop
  cases call with
  | execute task p | queuedExecute task p => exact absurd hop (execute_not_join ⟨task, rfl⟩)
  | isIdle p | isBusy p => exact absurd hop (ThreadPool.check_not_join _ _ _ p pool _)
  | terminate p => exact ThreadPool.terminate_go h hop
  | destroy p => exact ThreadPool.destroy_go h hop
  | queueLength p => cases p <;> cases hop
  | queuedIsIdle p | queuedIsBusy p =>
      exact absurd hop (QueuedThreadPool.check_not_join _ p pool _)
  | queuedTerminate p => exact hqueued h hop
  | queuedDestroy p =>
      cases p with
      | terminate p => exact hqueued h hop
      | join =>
          simp only [code, piece, QueuedThreadPool.destroy, Instr.map_op] at hop
          split at hop <;> cases hop
      | emptyQueue p => cases p <;> cases hop
      | baseTerminate p => exact ThreadPool.terminate_go h.2 hop
      | base p => exact ThreadPool.destroy_go h.2 hop

namespace Config

variable {cfg : Config} {state : PoolState} {guard : PoolState → PoolAction → Prop}

/-- A task that turns to its own manager ends up beside it. -/
theorem avoidsOwn_of_keepsApart {t : Tid} {input : Input} {choice : Nat}
    (hfits : (state.pc t).Fits cfg.kind mayExecute t)
    (hkeeps : KeepsApart cfg state (.run t input choice)) :
    AvoidsOwn cfg t input (state.pc t) state.data := by
  rintro m piece rfl hcode hreaching
  have hmoves := code_moves hcode
  -- the step can be taken
  have henabled : cfg.program.Enabled state (.worker m) piece.op ∧
      ∃ call, piece.next = .worker (.running (some call)) := by
    generalize hp : state.pc (.worker m) = p at hmoves hfits
    generalize ht : Tid.worker m = t at hmoves hfits
    cases hmoves with
    | enter t method call _ hentry =>
        have hnone := Call.reaching_of_entry hentry
        rw [Tid.reaching_calling] at hreaching
        exact absurd (hnone.symm.trans hreaching) nofun
    | call t call hne =>
        subst ht
        have hexecute := (hfits call rfl).2
        cases hnext : (call.code state.data).next with
        | inl next =>
            rw [Instr.map_next, hnext] at hreaching ⊢
            refine ⟨?_, next, rfl⟩
            rw [Instr.map_op]
            rcases Call.op_of_reaching hexecute hnext hreaching with hop | ⟨i, hop⟩ <;>
              rw [hop] <;> trivial
        | inr =>
            rw [Instr.map_next, hnext] at hreaching
            cases hreaching
    | dispatcher => cases ht
    | worker i input hmoves =>
        cases hmoves with
        | add p | remove p => cases p <;> cases hreaching
        | _ => cases hreaching
  obtain ⟨henabled, call, hcall⟩ := henabled
  have hstep : cfg.program.step state (.run (.worker m) input choice) =
      some (cfg.program.advance state (.worker m) piece choice) := by
    have hpiece : cfg.program.code (.worker m) input (state.pc (.worker m)) state.data =
        some piece := hcode
    simp [Program.step, hpiece, henabled]
  refine hkeeps _ hstep (.worker m) m call ?_ ?_
  · simpa [Program.advance] using hreaching
  · simpa [Program.advance] using hcall

theorem disciplined_of_keepsApart
    (hguard : ∀ state action, guard state action →
      ReentrantContract state action ∧ KeepsApart cfg state action) :
    cfg.Disciplined guard where
  tasksCall state action hallowed := (hguard state action hallowed).1.1
  avoidsOwn state action hrun hallowed := by
    have hshape : (cfg.shape mayExecute).Holds state :=
      shape_of_reaches (fun _ _ h => (hguard _ _ h).1.1) hrun
    cases action with
    | run t input choice =>
        exact avoidsOwn_of_keepsApart (hshape.assertion t) (hguard _ _ hallowed).2
    | spurious => trivial

theorem apart_of_reaches
    (hguard : ∀ state action, guard state action →
      ReentrantContract state action ∧ KeepsApart cfg state action)
    (hrun : Reaches cfg.program.step guard cfg.initial state) :
    state.Apart := by
  refine hrun.invariant (fun t m call _ hcall => ?_) fun _ _ next _ hallowed hstep =>
    (hguard _ _ hallowed).2 next hstep
  exact cfg.initialPoint_ne_calling (.worker m) call hcall

/-! ## No exception -/

theorem not_raises
    (hguard : ∀ state action, guard state action →
      ReentrantContract state action ∧ KeepsApart cfg state action)
    (hrun : Reaches cfg.program.step guard cfg.initial state) {m : ManagerId}
    {call : Call} (hcall : state.pc (.worker m) = .worker (.running (some call))) :
    ¬ cfg.program.AboutToRaise state (.worker m) := by
  rintro ⟨monitor, ⟨input, piece, hcode, hop, -⟩, howner⟩
  have hheld := ((locked_of_reaches hrun).owner monitor (.worker m)).mp howner
  have hdiscipline :=
    (discipline_of_reaches (disciplined_of_keepsApart hguard) hrun).assertion (.worker m)
  rw [hcall] at hcode hheld hdiscipline
  obtain ⟨⟨hfits, -⟩, havoids, -⟩ := hdiscipline
  exact not_raises_of_avoiding (hfits call rfl).2 (havoids m rfl) hcode hop hheld

/-! ## The submitted task -/

/-- `execute` rejects a task of a client only: the workers have ended. -/
theorem Handles.rejected {pool : Pool} {t : Tid} {p next : Point} {effect : Effect}
    (hhandles : cfg.Handles pool t p next (some effect)) {x : Runnable}
    (h : x ∈ (pool.apply effect).log.rejected) :
    x ∈ pool.log.rejected ∨ pool.taskList = [] ∧ t ≠ .dispatcher ∧ p.carried = some x := by
  have hcustody : x ∈ (pool.custody.apply effect).rejected := by
    rw [← Pool.custody_apply]
    exact h
  cases hhandles with
  | silent _ hsilent =>
      rw [(hsilent _ rfl).1] at hcustody
      exact .inl hcustody
  | reject ht _ hempty =>
      rcases List.mem_append.mp hcustody with hprior | hnew
      · exact .inl hprior
      · exact .inr ⟨hempty, ht, Option.mem_toList.mp hnew⟩
  | _ => exact .inl hcustody

theorem exited_of_empty
    (hguard : ∀ state action, guard state action →
      ReentrantContract state action ∧ KeepsApart cfg state action)
    (hrun : Reaches cfg.program.step guard cfg.initial state)
    (hempty : state.data.taskList = []) (m : ManagerId) :
    state.pc (.worker m) = .worker .exited := by
  have htasks := (disciplined_of_keepsApart hguard).tasksCall
  have hlife := lifecycle_of_reaches htasks hrun
  have hshape := shape_of_reaches htasks hrun
  by_cases hm : m < cfg.size
  · exact (exited_of_removed hlife hempty hshape hm).1
  · -- there is no such manager
    obtain ⟨q, hq⟩ := worker_point hshape m
    have hcontrol := hlife.assertion (.worker m)
    rw [hq] at hcontrol
    rw [hq, hcontrol.2.1 (Nat.not_lt.mp hm)]

theorem rejected_of_client
    (hguard : ∀ state action, guard state action →
      ReentrantContract state action ∧ KeepsApart cfg state action)
    (hrun : Reaches cfg.program.step guard cfg.initial state)
    {x : Runnable} (hx : x ∈ state.data.log.rejected) :
    ∃ c, (x, .client c) ∈ state.data.log.submitted := by
  have hdisciplined := disciplined_of_keepsApart hguard
  have hfresh : ∀ state action, guard state action →
      Annotation.Respects SubmitsFresh state action := fun _ _ h => (hguard _ _ h).1.2
  induction hrun with
  | refl => cases hx
  | @tail middle target action hprior hallowed hstep ih =>
      have hkept : ∀ {entry}, entry ∈ middle.data.log.submitted →
          entry ∈ target.data.log.submitted :=
        fun hmem => (custody_step hstep).submitted.subset hmem
      have hold : x ∈ middle.data.log.rejected → ∃ c, (x, .client c) ∈ target.data.log.submitted :=
        fun hmem => (ih hmem).imp fun _ => hkept
      rcases handles_of_step hdisciplined hfresh hprior hallowed hstep with
        hsame | ⟨t, p, e, hnext, hhandles⟩
      · exact hold (hsame ▸ hx)
      · rw [hnext] at hx
        rcases hhandles.rejected hx with hmem | ⟨hempty, ht, hcarried⟩
        · exact hold hmem
        · have hcarries : middle.data.custody.Carries cfg.kind t (middle.pc t).carried :=
            (ledger_of_reaches hdisciplined hfresh hprior).assertion t
          have hsubmitted := hkept (hcarries.submitted x hcarried)
          cases t with
          | client c => exact ⟨c, hsubmitted⟩
          | dispatcher => exact absurd rfl ht
          | worker m =>
              rw [exited_of_empty hguard hprior hempty m] at hcarried
              cases hcarried

/-- A task that has left `execute` has been accepted if another task submitted it. -/
theorem accepted_of_worker
    (hguard : ∀ state action, guard state action →
      ReentrantContract state action ∧ KeepsApart cfg state action)
    (hrun : Reaches cfg.program.step guard cfg.initial state)
    {x : Runnable} {m : ManagerId} (hsubmitted : (x, .worker m) ∈ state.data.log.submitted)
    (hreturned : ∀ call, state.pc (.worker m) = .worker (.running (some call)) →
      call.method ≠ .execute (some x)) :
    x ∉ state.data.log.rejected ∧ some x ∈ state.data.custody.accepted cfg.kind := by
  have hdisciplined := disciplined_of_keepsApart hguard
  have hfresh : ∀ state action, guard state action →
      Annotation.Respects SubmitsFresh state action := fun _ _ h => (hguard _ _ h).1.2
  have hrejected : x ∉ state.data.custody.rejected := by
    intro hx
    obtain ⟨c, hclient⟩ := rejected_of_client hguard hrun hx
    have hnodup := (ledger_of_reaches hdisciplined hfresh hrun).invariant.submitted
    cases Custody.submitter_unique hnodup hsubmitted hclient
  have htaken := taken_of_returned hdisciplined hfresh hrun hsubmitted hreturned
  unfold Custody.taken at htaken
  rw [List.count_eq_zero_of_not_mem hrejected] at htaken
  refine ⟨hrejected, List.count_pos_iff.mp ?_⟩
  omega

/-! ## No cycle of blocked threads -/

theorem Moves.go_of_join {pool : Pool} {t : Tid} {input : Input} {p : Point}
    {piece : Piece Point} {m : ManagerId} (hmoves : cfg.Moves pool t input p piece)
    (hcontrol : p.Control cfg.size t pool.life) (hop : piece.op = .join (.worker m)) :
    (pool.managers m).go = false := by
  cases hmoves with
  | enter => cases hop
  | call t call ht => exact Call.go_of_join (((Tid.control_calling ht).mp hcontrol).1 call rfl) hop
  | dispatcher hmoves =>
      cases hmoves with
      | assign x p => exact absurd hop (scan_not_join (some x) p pool _)
      | add p | remove p => cases p <;> cases hop
      | _ => cases hop
  | worker i input hmoves =>
      cases hmoves with
      | add p | remove p => cases p <;> cases hop
      | _ => cases hop

/-- A worker whose task is inside a call blocks others by the monitors of the call
only. -/
theorem Blocks.of_calling {label : Nat} {t : Tid} {m : ManagerId} {call : Call}
    (h : cfg.Blocks state label t (.worker m)) (hlife : cfg.lifecycle.Holds state)
    (hlocked : cfg.program.Locked state) (hapart : state.Apart)
    (hcall : state.pc (.worker m) = .worker (.running (some call))) :
    ∃ monitor ∈ call.held, label = monitor.level := by
  cases h with
  | lock monitor hrequests howner =>
      have hheld := (hlocked.owner monitor (.worker m)).mp howner
      rw [hcall] at hheld
      rcases List.mem_append.mp hheld with hinner | hown
      · exact ⟨monitor, hinner, rfl⟩
      · -- whoever turns to the manager is not apart from it
        cases List.mem_singleton.mp hown
        obtain ⟨input, piece, hcode, hop, -⟩ := hrequests
        rcases (code_moves hcode).lock_manager hop with hreaching | ⟨rfl, hpoint⟩
        · exact absurd hcall (hapart _ m call hreaching)
        · rw [hcall] at hpoint
          rcases hpoint with hpoint | hpoint <;> cases hpoint
  | worker i hjoins =>
      obtain ⟨input, piece, hcode, hop⟩ := hjoins
      have hstopped := (code_moves hcode).go_of_join (hlife.assertion t) hop
      have hcontrol := hlife.assertion (.worker m)
      rw [hcall] at hcontrol
      have hm : m < cfg.size := Nat.not_le.mp fun hle => absurd (hcontrol.2.1 hle) nofun
      have hgo : (state.data.managers m).go = true := (hcontrol.1 hm).2
      exact absurd (hstopped.symm.trans hgo) nofun

/-- While the threads are apart the places grow along every path of blocked threads. -/
theorem blocks_grow_of_apart
    (hguard : ∀ state action, guard state action →
      ReentrantContract state action ∧ KeepsApart cfg state action)
    (hrun : Reaches cfg.program.step guard cfg.initial state)
    {label later : Nat} {first second third : Tid} (hfirst : cfg.Blocks state label first second)
    (hsecond : cfg.Blocks state later second third) : label < later := by
  have htasks := (disciplined_of_keepsApart hguard).tasksCall
  have hfits := (shape_of_reaches htasks hrun).assertion second
  have hlocked := locked_of_reaches hrun
  by_cases hcalling : ∃ call, state.pc second = .worker (.running (some call))
  · obtain ⟨call, hcall⟩ := hcalling
    cases second with
    | client | dispatcher =>
        rw [hcall] at hfits
        exact hfits.elim
    | worker m =>
        obtain ⟨monitor, hmonitor, rfl⟩ :=
          hfirst.of_calling (lifecycle_of_reaches htasks hrun) hlocked
            (apart_of_reaches hguard hrun) hcall
        have hexecute : mayExecute call.method := by
          rw [hcall] at hfits
          exact (hfits call rfl).2
        have ht : Tid.worker m ≠ .dispatcher := nofun
        have hpiece : ∀ {input piece},
            cfg.code (.worker m) input (state.pc (.worker m)) state.data = some piece →
            piece.op = (call.code state.data).op := by
          intro input piece hcode
          rw [hcall] at hcode
          rw [(code_moves hcode).of_call ht, Instr.map_op]
        cases hsecond with
        | lock next hrequests =>
            obtain ⟨input, piece, hcode, hop, -⟩ := hrequests
            rw [hpiece hcode] at hop
            rcases Call.execute_lock hexecute hop with ⟨-, hnone⟩ | ⟨i, rfl, -, hpool⟩
            · rw [hnone] at hmonitor
              cases hmonitor
            · rw [hpool] at hmonitor
              cases List.mem_singleton.mp hmonitor
              show 2 < 4
              decide
        | worker _ hjoins | dispatcher hjoins =>
            obtain ⟨input, piece, hcode, hop⟩ := hjoins
            rw [hpiece hcode] at hop
            exact absurd hop (Call.execute_not_join hexecute)
  · exact blocks_grow (hfits.noCallback_of_not_calling fun call hcall => hcalling ⟨call, hcall⟩)
      hlocked hfirst hsecond

/-- Tasks may submit tasks to the pool that runs them, for every size of the pool, as long as
nobody turns to a manager whose task is inside a call. -/
theorem reentrant_of_apart
    (hguard : ∀ state action, guard state action →
      ReentrantContract state action ∧ KeepsApart cfg state action)
    (hrun : Reaches cfg.program.step guard cfg.initial state) :
    Reentrant cfg state := by
  refine ⟨fun m call => not_raises hguard hrun,
    fun x m => accepted_of_worker hguard hrun, ?_⟩
  rintro ⟨t, hcycle⟩
  have hshape := shape_of_reaches (disciplined_of_keepsApart hguard).tasksCall hrun
  exact not_transGen_self_of_labels (cfg.Blocks state) (blocks_grow_of_apart hguard hrun) t
    (Relation.TransGen.mono (fun _ _ => blocks_of_blockedBy hshape) _ _ hcycle)

/-! ## Runs of one task that submits another one -/

/-- The threads outside of `active` have not moved. -/
def Untouched (cfg : Config) (active : List Tid) (state : PoolState) : Prop :=
  ∀ t, t ∉ active → state.pc t = cfg.initialPoint t

/-- The active threads are apart. -/
def apart (active : List Tid) (state : PoolState) : Bool :=
  active.all fun t =>
    match (state.pc t).reaching with
    | none => true
    | some m =>
        match state.pc (.worker m) with
        | .worker (.running (some _)) => false
        | _ => true

theorem apart_of_untouched {active : List Tid} (huntouched : Untouched cfg active state)
    (hapart : apart active state = true) : state.Apart := by
  intro t m call hreaching hcall
  by_cases ht : t ∈ active
  · have hbeside := List.all_eq_true.mp hapart t ht
    simp only [hreaching, hcall] at hbeside
    cases hbeside
  · rw [huntouched t ht, cfg.reaching_initialPoint t] at hreaching
    cases hreaching

/-- The check of a step of the active threads. -/
def keepsApart (cfg : Config) (active : List Tid) (state : PoolState) (action : PoolAction) :
    Bool :=
  decide (ReentrantContract state action) && action.mover.all (· ∈ active) &&
    (cfg.program.step state action).all (apart active)

theorem keepsApart_sound {active : List Tid} {action : PoolAction} {next : PoolState}
    (huntouched : Untouched cfg active state)
    (hcheck : cfg.keepsApart active state action = true)
    (hstep : cfg.program.step state action = some next) :
    (ReentrantContract state action ∧ KeepsApart cfg state action) ∧
      Untouched cfg active next := by
  simp only [keepsApart, hstep, Option.all_some, Bool.and_eq_true, decide_eq_true_eq] at hcheck
  obtain ⟨⟨hcontract, hmover⟩, hapart⟩ := hcheck
  have hnext : Untouched cfg active next := by
    intro t ht
    refine (Program.step_pc hstep fun hmoves => ht ?_).trans (huntouched t ht)
    simpa [hmoves] using hmover
  refine ⟨⟨hcontract, fun other hother => ?_⟩, hnext⟩
  cases hstep.symm.trans hother
  exact apart_of_untouched hnext hapart

/-- The dispatcher sleeps while the task submits another one. -/
theorem reentrant_of_apart_asleep : ∃ state : PoolState,
    state.pc (.worker 0) = .worker (.running none) ∧
      (2, .worker 0) ∈ state.data.log.submitted ∧ state.data.queue = [some 2] ∧
      Reentrant (Config.complete .queuedThreadPool 1) state := by
  let cfg := Config.complete .queuedThreadPool 1
  let active : List Tid := [.client 0, .dispatcher, .worker 0]
  have hexecute : (execute cfg.program.step (cfg.keepsApart active)
        (PoolAction.call (.client 0) (.execute (some 1)) :: PoolAction.steps (.client 0) 2 ++
          PoolAction.steps .dispatcher 12 ++ PoolAction.steps (.worker 0) 4 ++
          PoolAction.call (.worker 0) (.execute (some 2)) :: PoolAction.steps (.worker 0) 2)
        cfg.initial).map (fun state =>
          (state.pc (.worker 0), state.data.log.submitted, state.data.queue)) =
      some (.worker (.running none), [(1, .client 0), (2, .worker 0)], [some 2]) := by
    decide +kernel
  obtain ⟨state, hrun, hobserved⟩ := Option.map_eq_some_iff.mp hexecute
  simp only [Prod.mk.injEq] at hobserved
  obtain ⟨hpoint, hsubmitted, hqueue⟩ := hobserved
  refine ⟨state, hpoint, by simp [hsubmitted], hqueue, reentrant_of_apart (fun _ _ h => h) ?_⟩
  exact .of_execute_keeping (fun _ _ _ => keepsApart_sound) (fun _ _ => rfl) hrun

/-- With one manager a task of a `ThreadPool` that submits another one locks its own
manager recursively, and a task of a `QueuedThreadPool` and the dispatcher, which looks
for an idle manager, block each other. -/
theorem reentrant_fails :
    (∃ (state : PoolState) (call : Call),
      Reaches (Config.complete .threadPool 1).program.step ReentrantContract
        (Config.complete .threadPool 1).initial state ∧
      state.pc (.worker 0) = .worker (.running (some call)) ∧
      (Config.complete .threadPool 1).program.AboutToRaise state (.worker 0)) ∧
    ∃ state : PoolState,
      Reaches (Config.complete .queuedThreadPool 1).program.step ReentrantContract
        (Config.complete .queuedThreadPool 1).initial state ∧
      (Config.complete .queuedThreadPool 1).program.Deadlocked state := by
  constructor
  · let cfg := Config.complete .threadPool 1
    let nested : Call := .execute (some 2) (.scan (.isIdle 0 [] .lock))
    obtain ⟨state, hrun, hobserved⟩ : ∃ state : PoolState,
        Reaches cfg.program.step ReentrantContract cfg.initial state ∧
          (state.pc (.worker 0), (state.monitor (.manager 0)).owner,
            (state.monitor (.manager 0)).waiters) =
          (.worker (.running (some nested)), some (.worker 0), []) :=
      Reaches.of_observed (fun state action => decide (ReentrantContract state action))
        (PoolAction.call (.client 0) (.execute (some 1)) :: PoolAction.steps (.client 0) 7 ++
          PoolAction.steps (.worker 0) 4 ++
          PoolAction.call (.worker 0) (.execute (some 2)) :: PoolAction.steps (.worker 0) 2)
        (fun _ _ => of_decide_eq_true) (by decide +kernel)
    simp only [Prod.mk.injEq] at hobserved
    obtain ⟨hpoint, howner, hwaiters⟩ := hobserved
    let entering : Piece Point :=
      { op := .lock (.manager 0)
        next := .worker (.running (some (.execute (some 2) (.scan (.isIdle 0 [] .body))))) }
    refine ⟨state, nested, hrun, hpoint, .manager 0, ⟨.go, entering, ?_, rfl, ?_⟩, howner⟩
    · rw [hpoint]
      rfl
    · simp [hwaiters]
  · let cfg := Config.complete .queuedThreadPool 1
    let scanning : Point := .dispatcher (.assign 2 (.isIdle 0 [] .lock))
    let nested : Point := .worker (.running (some (.queuedExecute (some 3) .lock)))
    obtain ⟨state, hrun, hobserved⟩ : ∃ state : PoolState,
        Reaches cfg.program.step ReentrantContract cfg.initial state ∧
          ([state.pc .dispatcher, state.pc (.worker 0)],
            [MonitorId.dispatcher, .manager 0].map fun m => (state.monitor m).owner,
            [MonitorId.dispatcher, .manager 0].map fun m => (state.monitor m).waiters) =
          ([scanning, nested], [some .dispatcher, some (.worker 0)], [[], []]) :=
      Reaches.of_observed (fun state action => decide (ReentrantContract state action))
        (PoolAction.call (.client 0) (.execute (some 1)) :: PoolAction.steps (.client 0) 2 ++
          PoolAction.call (.client 0) (.execute (some 2)) :: PoolAction.steps (.client 0) 2 ++
          PoolAction.steps .dispatcher 9 ++ PoolAction.steps (.worker 0) 4 ++
          PoolAction.steps .dispatcher 3 ++
          [PoolAction.call (.worker 0) (.execute (some 3))])
        (fun _ _ => of_decide_eq_true) (by decide +kernel)
    simp only [Prod.mk.injEq, List.map_cons, List.cons.injEq] at hobserved
    obtain ⟨⟨hscanning, hnested, -⟩, ⟨hdispatcher, hmanager, -⟩, hasleep, hwaiters, -⟩ :=
      hobserved
    let inspecting : Piece Point :=
      { op := .lock (.manager 0), next := .dispatcher (.assign 2 (.isIdle 0 [] .body)) }
    let entering : Piece Point :=
      { op := .lock .dispatcher
        next := .worker (.running (some (.queuedExecute (some 3) .body))) }
    have hscans : cfg.program.BlockedBy state .dispatcher (.worker 0) := by
      refine .inl ⟨.manager 0, ⟨.go, inspecting, ?_, rfl, ?_⟩, hmanager, nofun⟩
      · rw [hscanning]
        rfl
      · simp [hwaiters]
    have hsubmits : cfg.program.BlockedBy state (.worker 0) .dispatcher := by
      refine .inl ⟨.dispatcher, ⟨.go, entering, ?_, rfl, ?_⟩, hdispatcher, nofun⟩
      · rw [hnested]
        rfl
      · simp [hasleep]
    exact ⟨state, hrun, .dispatcher, .tail (.single hscans) hsubmits⟩

end Config

end ThreadPools.Posix
