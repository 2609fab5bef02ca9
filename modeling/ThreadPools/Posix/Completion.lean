/-
# What is left when nothing moves

A pool that is not shut down comes to rest when no thread can go on with what it has begun.
Tasks that do not call back leave nobody inside a monitor then, so that every thread which has
not finished is asleep. A worker sleeps beside an empty slot only: the notification of
`set_task` is not lost. What is left is either nothing at all, and every task has been run, or
the one situation in which a dispatcher or a submitter has missed its notification.
-/

import ThreadPools.Concurrency.Settled
import ThreadPools.Posix.Fate
import ThreadPools.Posix.LockOrder
import ThreadPools.Posix.Submitters

namespace ThreadPools.Posix

open ThreadPools.Concurrency

/-- All threads of the pool could be created. -/
structure Config.Staffed (cfg : Config) : Prop where
  size : 0 < cfg.size
  created : ∀ m < cfg.size, cfg.created m = true
  dispatcher : cfg.dispatcherCreated = true

theorem Config.complete_staffed (kind : Kind) {size : Nat} (h : 0 < size) :
    (Config.complete kind size).Staffed :=
  ⟨h, fun _ _ => rfl, rfl⟩

/-- A thread goes on with what it has begun; calls come from outside. -/
def Input.Own (input : Input) : Prop := ∀ method, input ≠ .call method

/-- The thread is outside of the pool, or it has ended. -/
def Point.Outside : Point → Prop
  | .client none => True
  | .dispatcher .exited => True
  | .worker .exited => True
  | _ => False

theorem Point.Outside.held {p : Point} (h : p.Outside) (t : Tid) : p.held t = [] := by
  unfold Outside at h
  split at h
  · cases t <;> rfl
  · rfl
  · cases t <;> rfl
  · exact h.elim

/-! ## Who goes on -/

/-- Calls that do not shut the pool down join nobody. -/
theorem Call.Harmless.not_join {call : Call} (h : call.Harmless) (pool : Pool) (other : Tid) :
    (call.code pool).op ≠ .join other := by
  cases call with
  | execute task p | queuedExecute task p => exact execute_not_join ⟨task, rfl⟩
  | isIdle p | isBusy p => exact ThreadPool.check_not_join _ _ _ p pool other
  | queuedIsIdle p | queuedIsBusy p => exact QueuedThreadPool.check_not_join _ p pool other
  | queueLength p => cases p <;> nofun
  | terminate | queuedTerminate => exact absurd rfl h.1
  | destroy | queuedDestroy => exact absurd rfl h.2

/-- Nobody who is asleep holds a monitor. -/
theorem Point.held_of_waitsAt {kind : Kind} {t : Tid} {p : Point} {m : MonitorId}
    (hfits : p.Fits kind noCallback t) (hwaits : p.waitsAt t = some m) : p.held t = [] := by
  cases t with
  | client c =>
      obtain ⟨call, rfl⟩ := Fits.client hfits
      cases call with
      | none => cases hwaits
      | some call =>
          cases call with
          | execute task p =>
              cases p with
              | woken => rfl
              | _ => cases hwaits
          | _ => cases hwaits
  | dispatcher =>
      obtain ⟨q, rfl⟩ := Fits.dispatcher hfits
      cases q with
      | wokenInner | wokenIdle => rfl
      | _ => cases hwaits
  | worker m =>
      obtain ⟨q, rfl⟩ := Fits.worker hfits
      cases q with
      | woken => rfl
      | running call =>
          cases call with
          | none => cases hwaits
          | some call => exact (hfits call rfl).2.elim
      | _ => cases hwaits

namespace Config

variable {cfg : Config} {pool : Pool} {t : Tid} {input : Input} {p : Point}
  {piece : Piece Point} {guard : PoolState → PoolAction → Prop} {state : PoolState}

/-- A thread that is neither outside nor in a call has a step of its own. -/
theorem exists_code (hfits : p.Fits cfg.kind noCallback t) (hinside : ¬ p.Outside)
    (pool : Pool) : ∃ input piece, Input.Own input ∧ cfg.code t input p pool = some piece := by
  have hgo : Input.Own .go := by rintro _ ⟨⟩
  have hcode : ∀ {input piece}, Input.Own input → cfg.code t input p pool = some piece →
      ∃ input piece, Input.Own input ∧ cfg.code t input p pool = some piece :=
    fun hown h => ⟨_, _, hown, h⟩
  cases t with
  | client c =>
      obtain ⟨call, rfl⟩ := Point.Fits.client hfits
      cases call with
      | none => exact absurd trivial hinside
      | some call => exact hcode hgo rfl
  | dispatcher =>
      obtain ⟨q, rfl⟩ := Point.Fits.dispatcher hfits
      obtain ⟨piece, hrun⟩ : ∃ piece, QueuedThreadPool.run q pool = some piece := by
        cases q with
        | exited => exact absurd trivial hinside
        | outer | inner | idle | again =>
            simp only [QueuedThreadPool.run]
            split <;> exact ⟨_, rfl⟩
        | _ => exact ⟨_, rfl⟩
      exact hcode hgo (by rw [code, hrun]; rfl)
  | worker m =>
      obtain ⟨q, rfl⟩ := Point.Fits.worker hfits
      have hworker : ∀ {input piece}, Input.Own input →
          cfg.workerCode m input q pool = some piece →
          ∃ input piece, Input.Own input ∧ cfg.code (.worker m) input (.worker q) pool =
            some piece := fun hown h => hcode hown (by rw [code, h]; rfl)
      cases q with
      | exited => exact absurd trivial hinside
      | running call =>
          cases call with
          | none =>
              have hfinish : Input.Own .finish := by rintro _ ⟨⟩
              exact hworker hfinish rfl
          | some call => exact (hfits call rfl).2.elim
      | loop =>
          cases hgo' : (pool.managers m).go <;> cases htask : (pool.managers m).task <;>
            exact hworker hgo (by simp [workerCode, TaskManager.run, hgo', htask]; rfl)
      | inner =>
          cases hsleeps : (pool.managers m).go && (pool.managers m).task.isNone <;>
            exact hworker hgo (by simp only [workerCode, TaskManager.run, hsleeps]; rfl)
      | _ => exact hworker hgo rfl

/-- Outside there is nothing to do but to call a method. -/
theorem Moves.not_outside (hmoves : cfg.Moves pool t input p piece) (hown : input.Own) :
    ¬ p.Outside := by
  cases hmoves with
  | enter t method => exact absurd rfl (hown method)
  | call t call => cases t <;> exact id
  | dispatcher hmoves =>
      intro houtside
      cases hmoves <;> exact houtside
  | worker m input hmoves =>
      intro houtside
      cases hmoves <;> exact houtside

/-- Nobody waits for the end of a thread. -/
theorem Moves.not_join (hmoves : cfg.Moves pool t input p piece)
    (h : ∀ call, p = t.calling (some call) → call.Harmless) (other : Tid) :
    piece.op ≠ .join other := by
  cases hmoves with
  | enter => nofun
  | call t call ht => exact (h call rfl).not_join pool other
  | dispatcher hmoves =>
      cases hmoves with
      | assign t p => exact scan_not_join (some t) p pool other
      | add p | remove p => cases p <;> nofun
      | _ => nofun
  | worker m input hmoves =>
      cases hmoves with
      | add p | remove p => cases p <;> nofun
      | _ => nofun

/-- Monitors are entered in their order. -/
theorem Moves.level_lt (hmoves : cfg.Moves pool t input p piece)
    (hfits : p.Fits cfg.kind noCallback t) {m next : MonitorId} (hheld : m ∈ p.held t)
    (hop : piece.op = .lock next) : m.level < next.level := by
  have hbalanced := hmoves.balanced
  rw [hop] at hbalanced
  have hafter := Point.inOrder (hmoves.fits_of_lock hfits hop)
  rw [hbalanced] at hafter
  exact (List.pairwise_cons.mp hafter).1 m hheld

/-- A thread that is not outside goes on. -/
theorem continues_of_inside (hshape : (cfg.shape noCallback).Holds state)
    (hundisturbed : cfg.undisturbed.Holds state) (hinside : ¬ (state.pc t).Outside) :
    ∃ piece, cfg.program.Continues Input.Own state t piece ∧
      ∀ m next, m ∈ (state.pc t).held t → piece.op = .lock next → m.level < next.level := by
  have hfits := hshape.assertion t
  obtain ⟨input, piece, hown, hcode⟩ := exists_code hfits hinside state.data
  have hmoves := code_moves hcode
  exact ⟨piece, ⟨input, hown, hcode, hmoves.not_join (hundisturbed.assertion t)⟩,
    fun m next hheld hop => hmoves.level_lt hfits hheld hop⟩

/-- In a settled state nobody is inside a monitor. -/
theorem free_of_settled (hlocked : cfg.program.Locked state)
    (hshape : (cfg.shape noCallback).Holds state) (hundisturbed : cfg.undisturbed.Holds state)
    (hsettled : cfg.program.Settled Input.Own state) (m : MonitorId) :
    (state.monitor m).owner = none := by
  have hbound : ∀ m : MonitorId, m.level ≤ 5 := by
    intro m
    cases m <;> simp [MonitorId.level]
  refine hsettled.free hlocked hbound (fun t m hheld => ?_) m
  have hheld : m ∈ (state.pc t).held t := hheld
  have hfits : (state.pc t).Fits cfg.kind noCallback t := hshape.assertion t
  have hinside : ¬ (state.pc t).Outside := by
    intro houtside
    rw [houtside.held t] at hheld
    cases hheld
  obtain ⟨piece, hcontinues, hlater⟩ := continues_of_inside hshape hundisturbed hinside
  refine ⟨?_, piece, hcontinues, fun next hop => hlater m next hheld hop⟩
  by_contra hwaits
  obtain ⟨other, hother⟩ := Option.ne_none_iff_exists'.mp hwaits
  rw [Point.held_of_waitsAt hfits hother] at hheld
  cases hheld

/-- Whoever has not finished in a settled state is asleep. -/
theorem asleep_of_settled (hlocked : cfg.program.Locked state)
    (hshape : (cfg.shape noCallback).Holds state) (hundisturbed : cfg.undisturbed.Holds state)
    (hsettled : cfg.program.Settled Input.Own state) (hinside : ¬ (state.pc t).Outside) :
    ∃ m, t ∈ (state.monitor m).waiters ∧ (state.pc t).waitsAt t = some m := by
  obtain ⟨piece, hcontinues, -⟩ := continues_of_inside hshape hundisturbed hinside
  obtain ⟨m, hasleep⟩ :=
    hsettled.asleep (free_of_settled hlocked hshape hundisturbed hsettled) hcontinues
  exact ⟨m, hasleep, hlocked.waits m t hasleep⟩

/-! ## Workers asleep -/

/-- A worker falls asleep beside an empty slot. -/
theorem Moves.slot_of_wait (hmoves : cfg.Moves pool t input p piece) {m : ManagerId}
    (hop : piece.op = .wait (.manager m)) : ((piece.after pool).managers m).task = none := by
  cases hmoves with
  | enter => cases hop
  | call t call ht =>
      obtain ⟨task, -, hm⟩ := Call.code_wait hop
      cases hm
  | dispatcher hmoves =>
      cases hmoves with
      | assign t p => exact absurd hop (scan_not_wait (some t) p pool _)
      | add p | remove p => cases p <;> cases hop
      | _ => cases hop
  | worker i input hmoves =>
      cases hmoves with
      | wait _ htask =>
          cases hop
          exact htask
      | add p | remove p => cases p <;> cases hop
      | _ => cases hop

/-- Only its worker waits for a manager, and it has just done so. -/
theorem Moves.wait_of_asleep (hmoves : cfg.Moves pool t input p piece)
    (hfits : piece.next.Fits cfg.kind (fun _ => True) t) {m : ManagerId}
    (hwaits : piece.next.waitsAt t = some (.manager m)) : piece.op = .wait (.manager m) := by
  rcases Point.waitsAt_cases hfits hwaits with ⟨hm, -⟩ | ⟨hm, -⟩ | ⟨i, hm, rfl, hnext⟩
  · cases hm
  · cases hm
  · cases hm
    generalize ht : Tid.worker m = t at hmoves
    cases hmoves with
    | enter t method call => subst ht; cases hnext
    | call t call ht' =>
        subst ht
        cases hcode : (call.code pool).next <;>
          · simp only [Instr.map_next, hcode] at hnext
            cases hnext
    | dispatcher => cases ht
    | worker i input hmoves =>
        cases ht
        cases hmoves with
        | wait => rfl
        | add p | remove p => cases p <;> cases hnext
        | _ => cases hnext

/-- A slot is filled with a notification of its worker. -/
theorem Moves.notify_place (hmoves : cfg.Moves pool t input p piece) {task : Option Runnable}
    {m : ManagerId} (heffect : piece.effect = some (.place task m)) :
    piece.notify = some (.manager m) := by
  have hscan : ∀ {x : Option Runnable} {p : ScanPoint}, (scan x p pool).effect =
      some (.place task m) → (scan x p pool).notify = some (.manager m) := by
    intro x p heffect
    have hmoves := scan_moves x p pool
    generalize scan x p pool = piece at hmoves heffect
    cases hmoves with
    | taken => cases heffect; rfl
    | _ => cases heffect
  cases hmoves with
  | enter t method call _ hentry =>
      rcases Call.entered_cases hentry t with ⟨_, -, hentered, -⟩ | ⟨-, hsilent⟩
      · cases hentered.symm.trans heffect
      · exact absurd (hsilent _ heffect) Effect.not_silent_place
  | call t call ht =>
      have hhandles := Call.code_handles call pool
      rw [Instr.map_effect] at heffect
      rw [heffect] at hhandles
      rw [Instr.map_notify]
      cases hhandles with
      | silent _ hsilent => exact absurd (hsilent _ rfl) Effect.not_silent_place
      | place _ rest _ hcall =>
          rw [hcall] at heffect ⊢
          exact hscan heffect
  | dispatcher hmoves =>
      cases hmoves with
      | assign x p => exact hscan heffect
      | add p | remove p => cases p <;> cases heffect
      | _ => cases heffect
  | worker i input hmoves =>
      cases hmoves with
      | add p | remove p => cases p <;> cases heffect
      | _ => cases heffect

/-- A worker asleep is served as long as its slot is empty. -/
theorem attends_worker (m : ManagerId) :
    cfg.program.Attends (.manager m) (fun pool => (pool.managers m).task = none)
      (fun t p => t = .worker m ∧ p.waitsAt t ≠ some (.manager m)) guard cfg.initial := by
  have hfits : ∀ {state : PoolState}, Reaches cfg.program.step guard cfg.initial state →
      ∀ t, (state.pc t).Fits cfg.kind (fun _ => True) t :=
    fun hrun t => (shape_of_reaches_any hrun).assertion t
  have hany : ∀ {t : Tid} {input : Input} {p : Point} {pool : Pool},
      TasksCall (fun _ => True) t input p pool := fun _ _ _ _ => trivial
  -- behind a piece of code the worker is awake, or it has just fallen asleep
  have hduty : ∀ {state : PoolState} {input : Input} {piece : Piece Point},
      Reaches cfg.program.step guard cfg.initial state →
      cfg.code (.worker m) input (state.pc (.worker m)) state.data = some piece →
      piece.next.waitsAt (.worker m) ≠ some (.manager m) ∨ piece.op = .wait (.manager m) := by
    intro state input piece hrun hcode
    by_cases hnext : piece.next.waitsAt (.worker m) = some (.manager m)
    · exact .inr ((code_moves hcode).wait_of_asleep
        ((code_moves hcode).fits hany (hfits hrun _)) hnext)
    · exact .inl hnext
  refine ⟨fun {_ _ _ _ piece} _ _ hcode hop => ?_, ?_, ?_, ?_, ?_⟩
  · rw [dataAfter_eq]
    exact (code_moves hcode).slot_of_wait hop
  · intro state t input choice piece hrun _ hcode hawakened
    rcases Point.waitsAt_cases (hfits hrun t) hawakened.1 with ⟨hm, -⟩ | ⟨hm, -⟩ | ⟨i, hm, rfl, -⟩
    · cases hm
    · cases hm
    · cases hm
      rcases hduty hrun hcode with hnext | hop
      · exact .inl ⟨rfl, hnext⟩
      · cases ((code_moves hcode).relocks hawakened.1).1.symm.trans hop
  · rintro state t input choice piece hrun _ hcode ⟨rfl, -⟩
    rw [dataAfter_eq]
    exact (hduty hrun hcode).imp (⟨rfl, ·⟩) (code_moves hcode).slot_of_wait
  · intro state t input choice piece _ _ hcode hnotify hslot
    rw [dataAfter_eq]
    cases heffect : piece.effect with
    | none => rwa [Piece.after_of_none heffect]
    | some effect =>
        rw [Piece.after_of_some heffect, Pool.task_apply]
        refine Custody.slot_apply_none hslot fun task heq => hnotify ?_
        subst heq
        exact (code_moves hcode).notify_place heffect
  · rintro state t hrun ⟨rfl, hawake⟩
    refine ⟨rfl, ?_⟩
    change (state.pc (.worker m)).handler.waitsAt (.worker m) ≠ _
    rcases (state.pc (.worker m)).handler_cases with hsame | ⟨call, -, hcaught⟩
    · rwa [hsame]
    · rw [hcaught]
      nofun

/-- No worker is left asleep with a task in its slot. -/
theorem slot_of_asleep (hrun : Reaches cfg.program.step guard cfg.initial state) {m : ManagerId}
    (hasleep : .worker m ∈ (state.monitor (.manager m)).waiters) :
    (state.data.managers m).task = none := by
  have hlocked := locked_of_reaches hrun
  have hwaits := hlocked.waits (.manager m) (.worker m) hasleep
  rcases (attends_worker m).attended cfg.wellLocked cfg.locked_initial (.inl rfl) hrun with
    hnil | hserved | ⟨t, hwoken, hawake⟩ | ⟨t, rfl, hnone⟩
  · rw [hnil] at hasleep
    cases hasleep
  · exact hserved
  · have hfits : (state.pc t).Fits cfg.kind (fun _ => True) t :=
      (shape_of_reaches_any hrun).assertion t
    rcases Point.waitsAt_cases hfits hwoken with ⟨hm, -⟩ | ⟨hm, -⟩ | ⟨i, hm, rfl, -⟩
    · cases hm
    · cases hm
    · cases hm
      exact absurd hasleep hawake
  · exact absurd hwaits hnone

/-! ## Without a shutdown -/

/-- Without a shutdown no task is rejected or discarded, and the dispatcher does not end; a
`ThreadPool` has no queue. -/
def uninterrupted (cfg : Config) : Annotation Tid MonitorId Pool Point where
  assertion _ p _ := cfg.kind = .queuedThreadPool → cfg.dispatcherCreated = true →
    ∀ q, p = .dispatcher q → q ≠ .exited ∧ ∀ s, q ≠ .remove s
  resource _ _ := True
  invariant pool := pool.log.rejected = [] ∧ pool.log.discarded = [] ∧
    (cfg.kind = .threadPool → pool.queue = [])

/-- A pool with managers that run rejects and discards nothing. -/
theorem Handles.kept {next : Point} {e : Effect} (hhandles : cfg.Handles pool t p next (some e))
    (hlist : pool.taskList ≠ []) (hgo : ∀ m, (pool.managers m).go = true) :
    (pool.custody.apply e).rejected = pool.custody.rejected ∧
      (pool.custody.apply e).discarded = pool.custody.discarded := by
  cases hhandles with
  | silent _ hsilent =>
      rw [(hsilent e rfl).1]
      exact ⟨rfl, rfl⟩
  | reject _ _ hempty => exact absurd hempty hlist
  | discard m _ _ _ hstopped => exact absurd ((hgo m).symm.trans hstopped) nofun
  | _ => exact ⟨rfl, rfl⟩

/-- The dispatcher ends behind a shutdown only. -/
theorem Moves.dispatcher_stays (hmoves : cfg.Moves pool t input p piece) (hgo : pool.go = true)
    (hstays : ∀ q, p = .dispatcher q → q ≠ .exited ∧ ∀ s, q ≠ .remove s)
    (q : QueuedThreadPool.RunPoint) (hnext : piece.next = .dispatcher q) :
    q ≠ .exited ∧ ∀ s, q ≠ .remove s := by
  cases hmoves with
  | enter t => exact absurd hnext (Tid.calling_ne_dispatcher _ _ _)
  | call t call =>
      rw [Instr.map_next] at hnext
      cases hcode : (call.code pool).next <;>
        · rw [hcode] at hnext
          exact absurd hnext (Tid.calling_ne_dispatcher _ _ _)
  | worker => cases hnext
  | dispatcher hmoves =>
      cases hnext
      cases hmoves with
      | add p => cases p <;> exact ⟨nofun, nofun⟩
      | remove p => exact absurd rfl ((hstays _ rfl).2 p)
      | leave hstopped => exact absurd (hgo.symm.trans hstopped) nofun
      | assign x p =>
          simp only [Instr.map_next]
          rcases (QueuedThreadPool.assign x p pool).next with q | taken
          · exact ⟨nofun, nofun⟩
          · cases taken <;> exact ⟨nofun, nofun⟩
      | offer x =>
          simp only
          cases pool.taskList <;> exact ⟨nofun, nofun⟩
      | _ => exact ⟨nofun, nofun⟩

theorem uninterrupted_valid (hsize : 0 < cfg.size) :
    Annotation.Valid cfg.program (cfg.discipline.and cfg.undisturbed) cfg.uninterrupted
      SubmitsFresh where
  assertion {t input p pool piece} hbefore _ hkind hcreated := by
    have hlife : pool.life = cfg.initialPool.life := hbefore.invariant.1.2
    have hgo : pool.life.go = true := by
      rw [hlife]
      rfl
    exact (code_moves hbefore.code).dispatcher_stays hgo (hbefore.assertion.2 hkind hcreated)
  release _ _ _ _ := trivial
  invariant {t input p pool piece e} hbefore husage heffect := by
    obtain ⟨⟨⟨⟨hfits, hcontrol⟩, -⟩, -⟩, -⟩ := hbefore.assertion
    obtain ⟨⟨⟨⟨-, hwell⟩, -⟩, hlife⟩, hrejected, hdiscarded, hqueue⟩ := hbefore.invariant
    have hhandles := (code_moves hbefore.code).handles hfits hcontrol hwell husage
    rw [heffect] at hhandles
    have hlife : pool.life = cfg.initialPool.life := hlife
    have hlist : pool.life.taskList ≠ [] := by
      rw [hlife]
      exact List.ne_nil_of_length_pos ((List.length_range (n := cfg.size)).symm ▸ hsize)
    have hgo : ∀ m, (pool.life.manager m).go = true := by
      rw [hlife]
      exact fun _ => rfl
    obtain ⟨hkeepsRejected, hkeepsDiscarded⟩ := hhandles.kept hlist hgo
    show (pool.apply e).custody.rejected = [] ∧ (pool.apply e).custody.discarded = [] ∧
      (cfg.kind = .threadPool → (pool.apply e).custody.queue = [])
    rw [Pool.custody_apply]
    refine ⟨hkeepsRejected.trans hrejected, hkeepsDiscarded.trans hdiscarded, fun hkind => ?_⟩
    refine Custody.queue_apply_nil (hqueue hkind) fun task heq => ?_
    cases hkind.symm.trans (hhandles.open_of_push heq).1
  frame _ _ _ _ hother _ _ := hother.2
  frame_resource _ _ _ _ _ _ _ := trivial
  raise {t _ p _ _} _ _ _ hassertion _ _ := by
    refine ⟨fun hkind hcreated q hq => ?_, fun _ _ _ => trivial⟩
    change p.handler = .dispatcher q at hq
    rcases p.handler_cases with hsame | ⟨call, -, hcaught⟩
    · exact hassertion.2 hkind hcreated q (hsame.symm.trans hq)
    · cases hcaught.symm.trans hq

theorem uninterrupted_initial : cfg.uninterrupted.Holds cfg.initial where
  assertion t hkind hcreated q hq := by
    change cfg.initialPoint t = .dispatcher q at hq
    cases t with
    | client => cases hq
    | dispatcher =>
        rw [initialPoint, if_pos ⟨hkind, hcreated⟩] at hq
        cases hq
        exact ⟨by rintro ⟨⟩, by rintro _ ⟨⟩⟩
    | worker =>
        simp only [initialPoint] at hq
        split at hq <;> cases hq
  resource _ _ := trivial
  invariant := ⟨rfl, rfl, fun _ => rfl⟩

/-- What is known of a run without a shutdown, whose tasks do not call back. -/
structure Quietly (cfg : Config) (guard : PoolState → PoolAction → Prop) : Prop where
  contract : ∀ state action, guard state action → Contract state action
  noShutdown : ∀ state action, guard state action → Annotation.Respects NoShutdown state action

namespace Quietly

theorem tasksCall (hguard : cfg.Quietly guard) (state : PoolState) (action : PoolAction)
    (h : guard state action) : Annotation.Respects (TasksCall noCallback) state action :=
  (hguard.contract state action h).1

theorem fresh (hguard : cfg.Quietly guard) (state : PoolState) (action : PoolAction)
    (h : guard state action) : Annotation.Respects SubmitsFresh state action :=
  (hguard.contract state action h).2

theorem disciplined (hguard : cfg.Quietly guard) : cfg.Disciplined guard :=
  .of_contract hguard.contract

theorem shape (hguard : cfg.Quietly guard)
    (hrun : Reaches cfg.program.step guard cfg.initial state) :
    (cfg.shape noCallback).Holds state :=
  shape_of_reaches hguard.tasksCall hrun

theorem undisturbed (hguard : cfg.Quietly guard)
    (hrun : Reaches cfg.program.step guard cfg.initial state) : cfg.undisturbed.Holds state :=
  undisturbed_of_reaches hguard.noShutdown hrun

theorem uninterrupted (hguard : cfg.Quietly guard)
    (hrun : Reaches cfg.program.step guard cfg.initial state) (hsize : 0 < cfg.size) :
    cfg.uninterrupted.Holds state :=
  (uninterrupted_valid hsize).holds cfg.wellLocked (fun _ _ _ h => hguard.fresh _ _ h)
    cfg.locked_initial
    (fun _ hprior => (discipline_of_reaches hguard.disciplined hprior).and
      (undisturbed_of_reaches hguard.noShutdown hprior))
    uninterrupted_initial hrun

end Quietly

/-- In a settled state every thread has finished or is asleep, and only there. -/
theorem settled_iff (hguard : cfg.Quietly guard)
    (hrun : Reaches cfg.program.step guard cfg.initial state) :
    cfg.program.Settled Input.Own state ↔
      ∀ t, (state.pc t).Outside ∨ ∃ m, t ∈ (state.monitor m).waiters := by
  have hlocked := locked_of_reaches hrun
  constructor
  · intro hsettled t
    by_cases houtside : (state.pc t).Outside
    · exact .inl houtside
    · obtain ⟨m, hasleep, -⟩ := asleep_of_settled hlocked (hguard.shape hrun)
        (hguard.undisturbed hrun) hsettled houtside
      exact .inr ⟨m, hasleep⟩
  · intro hrests t input choice hown
    cases hcode : cfg.program.code t input (state.pc t) state.data with
    | none => simp [Program.step, hcode]
    | some piece =>
        have hmoves := code_moves hcode
        rcases hrests t with houtside | ⟨m, hasleep⟩
        · exact absurd houtside (hmoves.not_outside hown)
        · obtain ⟨hop, hfree⟩ := hmoves.relocks (hlocked.waits m t hasleep)
          have howner : (state.monitor m).owner ≠ some t :=
            fun heq => hfree ((hlocked.owner m t).mp heq)
          simp [Program.step, hcode, hop, Program.Enabled, Program.Raises, hasleep, howner]

end Config

/-! ## What is left -/

/-- The task has been run once, to its end, and has been deleted. -/
structure Pool.Served (pool : Pool) (x : Runnable) : Prop where
  started : pool.log.started.count x = 1
  finished : pool.log.finished.count x = 1
  deleted : pool.log.deleted.count x = 1

/-- Nothing is left to do. -/
structure Config.Rests (cfg : Config) (state : PoolState) : Prop where
  /-- every call has returned -/
  returned : ∀ c, state.pc (.client c) = .client none
  queue : state.data.queue = []
  idle : ∀ m < cfg.size, ManagerIdle state m
  served : ∀ x t, (x, t) ∈ state.data.log.submitted → state.data.Served x

/-- A notification has been lost. -/
def Config.Stranded (cfg : Config) (state : PoolState) : Prop :=
  match cfg.kind with
  | .threadPool => ThreadPool.Stranded cfg state
  | .queuedThreadPool => QueuedThreadPool.Stranded cfg state

namespace Config

variable {cfg : Config} {guard : PoolState → PoolAction → Prop} {state : PoolState}

/-- When nothing moves, every worker is asleep beside an empty slot. -/
theorem idle_of_settled (hguard : cfg.Quietly guard) (hstaffed : cfg.Staffed)
    (hrun : Reaches cfg.program.step guard cfg.initial state)
    (hsettled : cfg.program.Settled Input.Own state) {m : ManagerId} (hm : m < cfg.size) :
    ManagerIdle state m := by
  have hshape := hguard.shape hrun
  have hundisturbed := hguard.undisturbed hrun
  obtain ⟨q, hq⟩ := worker_point hshape m
  have hinside : ¬ (state.pc (.worker m)).Outside := by
    intro houtside
    have hcontrol := (lifecycle_of_reaches hguard.disciplined.tasksCall hrun).assertion (.worker m)
    rw [hq] at hcontrol houtside
    cases q with
    | exited =>
        have hlife : state.data.life = cfg.initialPool.life := hundisturbed.invariant
        have hgo := hcontrol.1 hm
        rw [hlife] at hgo
        refine absurd (hgo ?_) nofun
        show startStatus (cfg.created m) = .running
        rw [hstaffed.created m hm]
        rfl
    | _ => exact houtside
  obtain ⟨other, hasleep, hwaits⟩ :=
    asleep_of_settled (locked_of_reaches hrun) hshape hundisturbed hsettled hinside
  have hfits : (state.pc (.worker m)).Fits cfg.kind noCallback (.worker m) :=
    hshape.assertion (.worker m)
  rcases Point.waitsAt_cases hfits hwaits with ⟨-, ht, -⟩ | ⟨-, task, hcall⟩ | ⟨i, rfl, ht, -⟩
  · cases ht
  · rw [hcall] at hfits
    exact (hfits _ rfl).2.elim
  · cases ht
    exact ⟨slot_of_asleep hrun hasleep, hasleep⟩

/-- A caller that has not returned sleeps on the condition of a `ThreadPool`. -/
theorem submitter_of_settled (hguard : cfg.Quietly guard)
    (hrun : Reaches cfg.program.step guard cfg.initial state)
    (hsettled : cfg.program.Settled Input.Own state) {c : Nat}
    (hcall : state.pc (.client c) ≠ .client none) :
    cfg.kind = .threadPool ∧ InWait state (.client c) ∧
      .client c ∈ (state.monitor .pool).waiters := by
  have hshape := hguard.shape hrun
  have hfits : (state.pc (.client c)).Fits cfg.kind noCallback (.client c) :=
    hshape.assertion (.client c)
  obtain ⟨call, hpoint⟩ := Point.Fits.client hfits
  have hinside : ¬ (state.pc (.client c)).Outside := by
    rw [hpoint]
    cases call with
    | none => exact absurd hpoint hcall
    | some call => exact id
  obtain ⟨m, hasleep, hwaits⟩ :=
    asleep_of_settled (locked_of_reaches hrun) hshape (hguard.undisturbed hrun) hsettled hinside
  rcases Point.waitsAt_cases hfits hwaits with ⟨-, ht, -⟩ | ⟨rfl, task, hexecute⟩ | ⟨i, -, ht, -⟩
  · cases ht
  · exact ⟨(kind_of_calling hrun hexecute).symm, ⟨task, hexecute⟩, hasleep⟩
  · cases ht

/-- The dispatcher is asleep. -/
theorem dispatcher_of_settled (hguard : cfg.Quietly guard) (hstaffed : cfg.Staffed)
    (hkind : cfg.kind = .queuedThreadPool)
    (hrun : Reaches cfg.program.step guard cfg.initial state)
    (hsettled : cfg.program.Settled Input.Own state) :
    .dispatcher ∈ (state.monitor .dispatcher).waiters := by
  have hshape := hguard.shape hrun
  have hfits : (state.pc .dispatcher).Fits cfg.kind noCallback .dispatcher :=
    hshape.assertion .dispatcher
  have hstays := (hguard.uninterrupted hrun hstaffed.size).assertion .dispatcher hkind
    hstaffed.dispatcher
  obtain ⟨q, hq⟩ := dispatcher_point hshape
  have hinside : ¬ (state.pc .dispatcher).Outside := by
    intro houtside
    rw [hq] at houtside
    cases q with
    | exited => exact absurd rfl (hstays _ hq).1
    | _ => exact houtside
  obtain ⟨m, hasleep, hwaits⟩ :=
    asleep_of_settled (locked_of_reaches hrun) hshape (hguard.undisturbed hrun) hsettled hinside
  rcases Point.waitsAt_cases hfits hwaits with ⟨rfl, -⟩ | ⟨-, task, hcall⟩ | ⟨i, -, ht, -⟩
  · exact hasleep
  · rw [hcall] at hfits
    exact hfits.elim
  · cases ht

/-- A task that has been handed over is served when no slot and no queue holds it. -/
theorem served_of_handed (hguard : cfg.Quietly guard) (hsize : 0 < cfg.size)
    (hrun : Reaches cfg.program.step guard cfg.initial state)
    (hslots : ∀ m < cfg.size, (state.data.managers m).task = none)
    (hplaced : ∀ x, state.data.custody.placed.count (some x) =
      (state.data.custody.accepted cfg.kind).count (some x)) {x : Runnable} {t : Tid}
    (hsubmitted : (x, t) ∈ state.data.log.submitted) (hcarried : (state.pc t).carried = none) :
    state.data.Served x := by
  have hledger := ledger_of_reaches hguard.disciplined hguard.fresh hrun
  have hbalanced : state.data.custody.Balanced cfg.kind cfg.size := hledger.invariant
  have hcarries : state.data.custody.Carries cfg.kind t (state.pc t).carried :=
    hledger.assertion t
  obtain ⟨hrejected, hdiscarded, -⟩ := (hguard.uninterrupted hrun hsize).invariant
  obtain ⟨hstarted, hfinished⟩ :=
    (work_of_reaches hguard.disciplined hguard.fresh hrun).invariant x
  have htaken := hcarries.taken x hsubmitted
  rw [hcarried, if_neg nofun] at htaken
  have hnoneRejected : state.data.custody.rejected.count x = 0 := by
    show state.data.log.rejected.count x = 0
    rw [hrejected]
    rfl
  have hnoneDiscarded : state.data.custody.discarded.count x = 0 := by
    show state.data.log.discarded.count x = 0
    rw [hdiscarded]
    rfl
  have hslot : state.data.custody.slots cfg.size x = 0 := by
    refine List.countP_eq_zero.mpr fun m hm => ?_
    simp [hslots m (List.mem_range.mp hm)]
  have hx := hplaced x
  have hbooks := hbalanced.placed x
  have hdispatched := hbalanced.dispatched x
  have hdeleted := hbalanced.deleted x
  unfold Custody.taken at htaken
  change state.data.log.finished.count x ≤ _ at hfinished
  change _ = _ + state.data.log.finished.count x + _ at hbooks
  change state.data.log.deleted.count x = state.data.log.finished.count x + _ + _ + _ at hdeleted
  exact ⟨by omega, by omega, by omega⟩

/-- The tasks that have been accepted have been dispatched when the queue is empty. -/
theorem placed_of_queue (hguard : cfg.Quietly guard) (hstaffed : cfg.Staffed)
    (hrun : Reaches cfg.program.step guard cfg.initial state)
    (hqueue : state.data.queue = []) (x : Runnable) :
    state.data.custody.placed.count (some x) =
      (state.data.custody.accepted cfg.kind).count (some x) := by
  cases hkind : cfg.kind with
  | threadPool => rfl
  | queuedThreadPool =>
      obtain ⟨q, hq⟩ := dispatcher_point (hguard.shape hrun)
      have hstays := (hguard.uninterrupted hrun hstaffed.size).assertion .dispatcher hkind
        hstaffed.dispatcher q hq
      have hdispatches :=
        ((dispatching_of_reaches hrun).assertion .dispatcher hkind).dispatches q hq
      have hcustody : state.data.custody.queue = [] := hqueue
      have hwaiting : q.waiting state.data.custody.queue = [] := by
        rw [hcustody]
        cases q <;> rfl
      have horder := hdispatches.order
      rw [hdispatches.dropped hstays.1, hwaiting, List.append_nil, List.append_nil] at horder
      exact congrArg (List.count (some x)) horder.symm

/-- A pool that is not shut down, and whose tasks do not call back, comes to rest only when
every task has been served, or when a notification has been lost. -/
theorem rests_or_stranded (hguard : cfg.Quietly guard) (hstaffed : cfg.Staffed)
    (hrun : Reaches cfg.program.step guard cfg.initial state)
    (hsettled : cfg.program.Settled Input.Own state) : cfg.Rests state ∨ cfg.Stranded state := by
  have hidle : ∀ m < cfg.size, ManagerIdle state m :=
    fun _ hm => idle_of_settled hguard hstaffed hrun hsettled hm
  have hshape := hguard.shape hrun
  have hrests : (∀ c, state.pc (.client c) = .client none) → state.data.queue = [] →
      cfg.Rests state := by
    intro hreturned hqueue
    refine ⟨hreturned, hqueue, hidle, fun x t hsubmitted => ?_⟩
    refine served_of_handed hguard hstaffed.size hrun (fun m hm => (hidle m hm).1)
      (placed_of_queue hguard hstaffed hrun hqueue) hsubmitted ?_
    by_contra hcarried
    obtain ⟨y, hy⟩ := Option.ne_none_iff_exists'.mp hcarried
    have hfits : (state.pc t).Fits cfg.kind noCallback t := hshape.assertion t
    obtain ⟨call, hcall, -⟩ := Point.calling_of_carried hfits hy
    cases t with
    | client c => cases (hreturned c).symm.trans hcall
    | dispatcher => rw [hcall] at hfits; exact hfits.elim
    | worker m => rw [hcall] at hfits; exact (hfits call rfl).2.elim
  unfold Stranded
  cases hkind : cfg.kind with
  | threadPool =>
      have hqueue := (hguard.uninterrupted hrun hstaffed.size).invariant.2.2 hkind
      by_cases hreturned : ∀ c, state.pc (.client c) = .client none
      · exact .inl (hrests hreturned hqueue)
      · obtain ⟨c, hcall⟩ := not_forall.mp hreturned
        obtain ⟨-, hwait, hasleep⟩ := submitter_of_settled hguard hrun hsettled hcall
        refine .inr ⟨⟨.client c, hwait, hasleep⟩, ?_, hidle⟩
        rintro t ⟨task, hexecute⟩
        have hfits : (state.pc t).Fits cfg.kind noCallback t := hshape.assertion t
        cases t with
        | client other =>
            refine (submitter_of_settled hguard hrun hsettled (c := other) ?_).2.2
            rw [hexecute]
            nofun
        | dispatcher => rw [hexecute] at hfits; exact hfits.elim
        | worker m => rw [hexecute] at hfits; exact (hfits _ rfl).2.elim
  | queuedThreadPool =>
      by_cases hqueue : state.data.queue = []
      · refine .inl (hrests (fun c => ?_) hqueue)
        by_contra hcall
        cases hkind.symm.trans (submitter_of_settled hguard hrun hsettled hcall).1
      · exact .inr ⟨hqueue, dispatcher_of_settled hguard hstaffed hkind hrun hsettled, hidle⟩

/-- A thread that takes no part in a run from the beginning is outside. -/
theorem outside_of_inactive {check : PoolState → PoolAction → Bool} {actions : List PoolAction}
    (hexecute : execute cfg.program.step check actions cfg.initial = some state)
    {active : List Tid}
    (hactive : actions.all (fun action => action.mover.all (· ∈ active)) = true)
    (hinitial : ∀ t ∉ active, (cfg.initialPoint t).Outside) {t : Tid} (ht : t ∉ active) :
    (state.pc t).Outside := by
  rw [Program.execute_pc hexecute hactive ht]
  exact hinitial t ht

/-- Two tasks have been run one after the other, and nothing moves any more. -/
theorem rests_or_stranded_two : ∃ state : PoolState,
    state.data.log.finished = [1, 2] ∧
      ((Config.complete .queuedThreadPool 1).Rests state ∨
        (Config.complete .queuedThreadPool 1).Stranded state) := by
  let cfg := Config.complete .queuedThreadPool 1
  let check (state : PoolState) (action : PoolAction) : Bool :=
    decide (Contract state action ∧ Annotation.Respects NoShutdown state action)
  let task (x : Runnable) : List PoolAction :=
    PoolAction.call (.client 0) (.execute (some x)) :: PoolAction.steps (.client 0) 2 ++
      PoolAction.steps .dispatcher 12 ++ PoolAction.steps (.worker 0) 3 ++
      [PoolAction.finish 0, PoolAction.go (.worker 0)] ++ PoolAction.steps .dispatcher 2
  let actions : List PoolAction :=
    PoolAction.steps .dispatcher 5 ++ PoolAction.steps (.worker 0) 5 ++ task 1 ++ task 2
  obtain ⟨state, hexecute, hobserved⟩ : ∃ state : PoolState,
      execute cfg.program.step check actions cfg.initial = some state ∧
        ([state.pc (.client 0), state.pc .dispatcher, state.pc (.worker 0)],
          (state.monitor .dispatcher).waiters, (state.monitor (.manager 0)).waiters,
          state.data.log.finished) =
        ([.client none, .dispatcher .wokenIdle, .worker .woken], [.dispatcher], [.worker 0],
          [1, 2]) :=
    Option.map_eq_some_iff.mp (by decide +kernel)
  simp only [Prod.mk.injEq, List.cons.injEq] at hobserved
  obtain ⟨⟨hclient, hdispatcher, hworker, -⟩, hdispatchers, hworkers, hfinished⟩ := hobserved
  let guard (state : PoolState) (action : PoolAction) : Prop :=
    Contract state action ∧ Annotation.Respects NoShutdown state action
  have hguard : cfg.Quietly guard := ⟨fun _ _ h => h.1, fun _ _ h => h.2⟩
  have hrun : Reaches cfg.program.step guard cfg.initial state :=
    .of_execute (fun _ _ => of_decide_eq_true) hexecute
  refine ⟨state, hfinished, rests_or_stranded hguard (complete_staffed _ Nat.one_pos) hrun
    ((settled_iff hguard hrun).mpr fun t => ?_)⟩
  by_cases hactive : t ∈ [Tid.client 0, .dispatcher, .worker 0]
  · simp only [List.mem_cons, List.not_mem_nil, or_false] at hactive
    rcases hactive with rfl | rfl | rfl
    · rw [hclient]
      exact .inl trivial
    · exact .inr ⟨.dispatcher, by simp [hdispatchers]⟩
    · exact .inr ⟨.manager 0, by simp [hworkers]⟩
  · refine .inl (outside_of_inactive hexecute (by decide) (fun t ht => ?_) hactive)
    cases t with
    | client => trivial
    | dispatcher => simp at ht
    | worker m =>
        cases m with
        | zero => simp at ht
        | succ m => trivial

end Config

end ThreadPools.Posix
