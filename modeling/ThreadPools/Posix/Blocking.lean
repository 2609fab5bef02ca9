/-
# Waiting for the end of a task

A worker holds its manager's monitor while it executes a task, and `is_idle` of a
manager enters that monitor. A thread that looks for an idle manager therefore
waits for the end of a task whenever it turns to a manager that is executing one,
and with it everybody waits who wants to enter the monitor it holds meanwhile.
While threads turn only to managers with an empty slot this does not happen:
nobody else fills the slot before the thread has moved on.
-/

import ThreadPools.Posix.WakeUps
import ThreadPools.Posix.Reaching

namespace ThreadPools.Posix

open ThreadPools.Concurrency

/-! ## Executing workers -/

/-- The worker of the manager is inside `task->run()`. -/
def Executing (state : PoolState) (m : ManagerId) : Prop :=
  ∃ nested, state.pc (.worker m) = .worker (.running nested)

namespace Config

variable {cfg : Config} {pool : Pool} {t : Tid} {input : Input} {p : Point}
  {piece : Piece Point} {effect : Effect}

/-- Only the worker handles the task in its slot. -/
theorem Moves.worker_of_own (hmoves : cfg.Moves pool t input p piece)
    (heffect : piece.effect = some effect) {m : ManagerId} (hown : effect.Own m) :
    t = .worker m ∧ ∀ nested, piece.next = .worker (.running nested) → effect = .begin m := by
  cases hmoves with
  | enter t method call _ hentry =>
      rcases Call.entered_cases hentry t with ⟨task, -, hentered, -⟩ | ⟨-, hsilent⟩
      · cases hentered.symm.trans heffect
        rcases hown with h | h | h <;> cases h
      · exact absurd hown ((hsilent effect heffect).not_own m)
  | call t call ht =>
      have hhandles := Call.code_handles call pool
      rw [Instr.map_effect] at heffect
      rw [heffect] at hhandles
      cases hhandles with
      | silent _ hsilent => exact absurd hown ((hsilent effect rfl).not_own m)
      | _ => rcases hown with h | h | h <;> cases h
  | dispatcher hmoves =>
      rcases hmoves.effect_cases heffect with hsilent | rfl | ⟨task, i, rest, rfl, -⟩
      · exact absurd hown (hsilent.not_own m)
      · rcases hown with h | h | h <;> cases h
      · rcases hown with h | h | h <;> cases h
  | worker i input hmoves =>
      cases hmoves with
      | add p | remove p =>
          cases p with
          | lock => cases heffect
          | body => cases heffect; rcases hown with h | h | h <;> cases h
      | begin =>
          cases heffect
          rcases hown with h | h | h <;> cases h
          exact ⟨rfl, fun _ _ => rfl⟩
      | finish | discard =>
          cases heffect
          rcases hown with h | h | h <;> cases h
          exact ⟨rfl, nofun⟩
      | _ => cases heffect

/-- A slot becomes empty only by its worker. -/
theorem Moves.slot_full (hmoves : cfg.Moves pool t input p piece)
    (heffect : piece.effect = some effect) {m : ManagerId}
    (hown : effect.Own m → effect = .begin m) (hslot : (pool.managers m).task ≠ none) :
    ((pool.apply effect).managers m).task ≠ none := by
  have hplace := (hmoves.announces heffect).place
  rw [Pool.task_apply]
  cases effect with
  | place task i =>
      have hi : m ≠ i := fun heq => hslot (heq ▸ hplace task i rfl)
      simpa [Custody.apply, hi] using hslot
  | finish i =>
      have hi : m ≠ i := fun heq => absurd (hown (heq ▸ .inr (.inl rfl))) (by rintro ⟨⟩)
      simpa [Custody.apply, hi] using hslot
  | discard i =>
      have hi : m ≠ i := fun heq => absurd (hown (heq ▸ .inr (.inr rfl))) (by rintro ⟨⟩)
      simpa [Custody.apply, hi] using hslot
  | _ => exact hslot

variable (cfg)

/-- A worker that executes a task finds it in its slot. -/
def occupying : Annotation Tid MonitorId Pool Point where
  assertion t p pool := ∀ m nested, t = .worker m → p = .worker (.running nested) →
    (pool.managers m).task ≠ none
  resource _ _ := True
  invariant _ := True

variable {cfg}

/-- Where a task begins its slot is full. -/
theorem Moves.slot_of_running (hmoves : cfg.Moves pool t input p piece) {m : ManagerId}
    {nested : Option Call} (ht : t = .worker m) (hnext : piece.next = .worker (.running nested))
    (h : ∀ nested, p = .worker (.running nested) → (pool.managers m).task ≠ none) :
    (pool.managers m).task ≠ none := by
  subst ht
  generalize hworker : Tid.worker m = t at hmoves
  cases hmoves with
  | enter | call =>
      subst hworker
      exact h _ rfl
  | dispatcher => cases hworker
  | worker i input hmoves =>
      cases hworker
      cases hmoves with
      | begin _ htask => exact htask
      | add p | remove p => cases p <;> cases hnext
      | _ => cases hnext

theorem occupying_valid {usage : Tid → Input → Point → Pool → Prop} :
    Annotation.Valid cfg.program .trivial occupying usage where
  assertion {t _ p data piece} hbefore _ := by
    intro m nested ht hnext
    have hmoves := code_moves hbefore.code
    have hslot := hmoves.slot_of_running ht hnext
      fun nested hp => hbefore.assertion.2 m nested ht hp
    rw [dataAfter_eq]
    cases heffect : piece.effect with
    | none => rwa [Piece.after_of_none heffect]
    | some effect =>
        rw [Piece.after_of_some heffect]
        exact hmoves.slot_full heffect
          (fun hown => (hmoves.worker_of_own heffect hown).2 nested hnext) hslot
  release _ _ _ _ := trivial
  invariant _ _ _ := trivial
  frame hbefore _ heffect hne hother _ _ := by
    intro m nested ht hp
    have hmoves := code_moves hbefore.code
    refine hmoves.slot_full heffect (fun hown => ?_) (hother.2 m nested ht hp)
    exact absurd (ht.trans (hmoves.worker_of_own heffect hown).1.symm) hne
  frame_resource _ _ _ _ _ _ _ := trivial
  raise {t _ p data _} _ _ _ hassertion _ _ := by
    refine ⟨fun m nested ht hp => ?_, fun _ _ _ => trivial⟩
    change p.handler = .worker (.running nested) at hp
    rcases p.handler_cases with hsame | ⟨call, hcall, -⟩
    · exact hassertion.2 m nested ht (hsame ▸ hp)
    · exact hassertion.2 m (some call) ht hcall

theorem occupying_initial : occupying.Holds cfg.initial where
  assertion t m nested ht hp := by
    subst ht
    change cfg.initialPoint (.worker m) = _ at hp
    simp only [initialPoint] at hp
    split at hp <;> cases hp
  resource _ _ := trivial
  invariant := trivial

variable {guard : PoolState → PoolAction → Prop} {state : PoolState}

theorem slot_of_executing (hrun : Reaches cfg.program.step guard cfg.initial state)
    {m : ManagerId} (hexecuting : Executing state m) : (state.data.managers m).task ≠ none := by
  obtain ⟨nested, hpoint⟩ := hexecuting
  have hvalid : Annotation.Valid cfg.program .trivial occupying fun _ _ _ _ => True :=
    occupying_valid
  have hholds : occupying.Holds state :=
    hvalid.holds cfg.wellLocked (fun _ action _ _ => by cases action <;> trivial) cfg.locked_initial
      (fun _ _ => Annotation.holds_trivial _) occupying_initial hrun
  exact hholds.assertion (.worker m) m nested rfl hpoint

end Config

/-! ## Turning to a manager -/

/-- The thread is not about to shut the pool down. -/
def Observes (t : Tid) (p : Point) : Prop :=
  ∀ call, p = t.calling (some call) → call.Harmless

/-- A thread which the condition `concerns` turns to a manager only while the slot of
the manager is empty, or the manager is exempt. -/
def TurnsToEmpty (cfg : Config) (concerns : Tid → Point → Prop)
    (exempt : ManagerId → Pool → Prop) (t : Tid) (input : Input) (p : Point) (pool : Pool) :
    Prop :=
  ∀ piece m, cfg.code t input p pool = some piece → concerns t piece.next →
    piece.next.reaching = some m → (pool.managers m).task = none ∨ exempt m pool

/-- A call that turns to a manager has entered the pool. -/
theorem Call.entrance_of_reaching {call : Call} (h : call.Harmless) {m : ManagerId}
    (hreaching : call.reaching = some m) : call.kind.entrance ∈ call.held := by
  cases call with
  | execute task p =>
      cases p with
      | scan => simp [kind, Kind.entrance, held, ThreadPool.ExecutePoint.held]
      | _ => cases hreaching
  | isIdle p | isBusy p =>
      cases p with
      | probe => simp [kind, Kind.entrance, held, ThreadPool.CheckPoint.held]
      | _ => cases hreaching
  | queuedIsIdle p | queuedIsBusy p =>
      cases p with
      | base => simp [kind, Kind.entrance, held, QueuedThreadPool.CheckPoint.held]
      | _ => cases hreaching
  | queuedExecute | queueLength => cases hreaching
  | terminate | queuedTerminate => exact absurd rfl h.1
  | destroy | queuedDestroy => exact absurd rfl h.2

namespace Config

variable {cfg : Config} {pool : Pool} {t : Tid} {input : Input} {p : Point}
  {piece : Piece Point} {effect : Effect} {m : ManagerId} {allowed : Method → Prop}

theorem entrance_of_reaching (hfits : p.Fits cfg.kind allowed t) (hobserves : Observes t p)
    (hreaching : p.reaching = some m) : cfg.kind.entrance ∈ p.held t := by
  have hcalling : ∀ call, t ≠ .dispatcher → p = t.calling (some call) →
      cfg.kind.entrance ∈ p.held t := by
    rintro call ht rfl
    rw [t.reaching_calling] at hreaching
    rw [Tid.held_calling ht, ← ((fits_calling ht).mp hfits call rfl).1]
    exact List.mem_append_left _
      (Call.entrance_of_reaching (hobserves call rfl) hreaching)
  cases t with
  | client c =>
      obtain ⟨call, rfl⟩ := Point.Fits.client hfits
      cases call with
      | none => cases hreaching
      | some call => exact hcalling call (by rintro ⟨⟩) rfl
  | dispatcher =>
      obtain ⟨q, rfl⟩ := Point.Fits.dispatcher hfits
      cases q with
      | assign x p =>
          rw [hfits (by rintro ⟨⟩)]
          simp [Kind.entrance, Point.held, QueuedThreadPool.RunPoint.held]
      | _ => cases hreaching
  | worker i =>
      obtain ⟨q, rfl⟩ := Point.Fits.worker hfits
      cases q with
      | running call =>
          cases call with
          | none => cases hreaching
          | some call => exact hcalling call (by rintro ⟨⟩) rfl
      | _ => cases hreaching

/-- A thread that fills a slot has entered the pool, and turns to no other manager. -/
theorem Moves.place_cases (hmoves : cfg.Moves pool t input p piece)
    (hfits : p.Fits cfg.kind allowed t) {task : Option Runnable}
    (heffect : piece.effect = some (.place task m)) :
    cfg.kind.entrance ∈ p.held t ∧ piece.next.reaching = none := by
  cases hmoves with
  | enter t method call _ hentry =>
      rcases Call.entered_cases hentry t with ⟨task, -, hentered, -⟩ | ⟨-, hsilent⟩
      · cases hentered.symm.trans heffect
      · exact absurd (hsilent _ heffect) Effect.not_silent_place
  | call t call ht =>
      have hkind := ((fits_calling ht).mp hfits call rfl).1
      have hhandles := Call.code_handles call pool
      rw [Instr.map_effect] at heffect
      rw [heffect] at hhandles
      cases hhandles with
      | silent _ hsilent => exact absurd (hsilent _ rfl) Effect.not_silent_place
      | place m rest _ hcall hslot =>
          rw [hcall] at hkind
          refine ⟨?_, ?_⟩
          · rw [Tid.held_calling ht, ← hkind, hcall]
            simp [Kind.entrance, Call.kind, Call.held, ThreadPool.ExecutePoint.held]
          · rw [hcall]
            simp [Call.code, Call.piece, ThreadPool.execute, scan, TaskManager.setTask, hslot,
              Instr.map, ThreadPool.ExecutePoint.scanned, Tid.reaching_calling, Call.reaching,
              ThreadPool.ExecutePoint.reaching]
  | dispatcher hmoves =>
      have hkind := (Point.Fits.kind_of_dispatcher hfits).2
      cases hmoves with
      | assign x q =>
          have hscan := scan_moves (some x) q pool
          change (scan (some x) q pool).effect = some (.place task m) at heffect
          rw [hkind (by rintro ⟨⟩)]
          refine ⟨by simp [Kind.entrance, Point.held, QueuedThreadPool.RunPoint.held], ?_⟩
          show (Point.dispatcher (.scanned x (scan (some x) q pool).next)).reaching = none
          generalize scan (some x) q pool = piece at hscan heffect
          cases hscan <;> cases heffect
          rfl
      | add p | remove p => cases p <;> cases heffect
      | _ => cases heffect
  | worker i input hmoves =>
      cases hmoves with
      | add p | remove p => cases p <;> cases heffect
      | _ => cases heffect

theorem Moves.slot_empty (hmoves : cfg.Moves pool t input p piece)
    (hfits : p.Fits cfg.kind allowed t) (heffect : piece.effect = some effect)
    (h : cfg.kind.entrance ∉ p.held t ∨ piece.next.reaching = some m)
    (hslot : (pool.managers m).task = none) : ((pool.apply effect).managers m).task = none := by
  rw [Pool.task_apply]
  refine Custody.slot_apply_none hslot fun task hplace => ?_
  obtain ⟨hentered, hnowhere⟩ := hmoves.place_cases hfits (heffect.trans (congrArg some hplace))
  rcases h with houtside | hreaching
  · exact houtside hentered
  · cases hreaching.symm.trans hnowhere

variable (cfg) (concerns : Tid → Point → Prop) (exempt : ManagerId → Pool → Prop)

/-- The managers that threads are about to enter the monitors of have no task. -/
def turning : Annotation Tid MonitorId Pool Point where
  assertion t p pool := concerns t p → ∀ m, p.reaching = some m →
    (pool.managers m).task = none ∨ exempt m pool
  resource _ _ := True
  invariant _ := True

variable {cfg concerns exempt}

theorem turning_valid (hconcerns : ∀ t p, concerns t p → Observes t p)
    (hexempt : ∀ m pool effect, exempt m pool → exempt m (pool.apply effect)) :
    Annotation.Valid cfg.program (cfg.shape fun _ => True) (turning concerns exempt)
      (TurnsToEmpty cfg concerns exempt) where
  assertion {t _ p data piece} hbefore husage := by
    intro hnext m hreaching
    have hslot := husage piece m hbefore.code hnext hreaching
    rw [dataAfter_eq]
    cases heffect : piece.effect with
    | none => rwa [Piece.after_of_none heffect]
    | some effect =>
        rw [Piece.after_of_some heffect]
        have hfits : p.Fits cfg.kind (fun _ => True) t := hbefore.assertion.1
        rcases hslot with hslot | hfree
        · exact .inl ((code_moves hbefore.code).slot_empty hfits heffect (.inr hreaching) hslot)
        · exact .inr (hexempt _ _ _ hfree)
  release _ _ _ _ := trivial
  invariant _ _ _ := trivial
  frame {t _ p _ _ _ other place} hbefore _ heffect hne hother hdisjoint _ := by
    intro hconcerned m hreaching
    have hfits : p.Fits cfg.kind (fun _ => True) t := hbefore.assertion.1
    have hplace : place.Fits cfg.kind (fun _ => True) other := hother.1
    rcases hother.2 hconcerned m hreaching with hslot | hfree
    · have hinside := entrance_of_reaching hplace (hconcerns _ _ hconcerned) hreaching
      exact .inl ((code_moves hbefore.code).slot_empty hfits heffect
        (.inl fun hmem => hdisjoint _ hmem hinside) hslot)
    · exact .inr (hexempt _ _ _ hfree)
  frame_resource _ _ _ _ _ _ _ := trivial
  raise {t _ p data _} _ _ _ hassertion _ _ := by
    refine ⟨fun hconcerned m hreaching => ?_, fun _ _ _ => trivial⟩
    change concerns t p.handler at hconcerned
    change p.handler.reaching = some m at hreaching
    rcases p.handler_cases with hsame | ⟨call, -, hcaught⟩
    · rw [hsame] at hconcerned hreaching
      exact hassertion.2 hconcerned m hreaching
    · rw [hcaught] at hreaching
      cases hreaching

theorem turning_initial : (turning concerns exempt).Holds cfg.initial where
  assertion t _ _ hreaching := absurd ((cfg.reaching_initialPoint t).symm.trans hreaching) nofun
  resource _ _ := trivial
  invariant := trivial

variable {guard : PoolState → PoolAction → Prop} {state : PoolState}

theorem turning_of_reaches (hconcerns : ∀ t p, concerns t p → Observes t p)
    (hexempt : ∀ m pool effect, exempt m pool → exempt m (pool.apply effect))
    (hguard : ∀ state action, guard state action →
      Annotation.Respects (TurnsToEmpty cfg concerns exempt) state action)
    (hrun : Reaches cfg.program.step guard cfg.initial state) :
    (turning concerns exempt).Holds state :=
  (turning_valid hconcerns hexempt).holds cfg.wellLocked (fun _ _ _ h => hguard _ _ h)
    cfg.locked_initial (fun _ hprior => shape_of_reaches_any hprior) turning_initial hrun

/-- A thread that holds a monitor of the pool and waits for the monitor of a manager
does not wait for the end of a task. -/
theorem not_executing_of_requests (hconcerns : ∀ t p, concerns t p → Observes t p)
    (hexempt : ∀ m pool effect, exempt m pool → exempt m (pool.apply effect))
    (hguard : ∀ state action, guard state action →
      Annotation.Respects (TurnsToEmpty cfg concerns exempt) state action)
    (hrun : Reaches cfg.program.step guard cfg.initial state)
    (hconcerned : concerns t (state.pc t)) (hinside : (state.pc t).held t ≠ [])
    (hrequests : cfg.program.Requests state t (.manager m)) (hfree : ¬ exempt m state.data) :
    ¬ Executing state m := by
  intro hexecuting
  obtain ⟨input, piece, hcode, hop, -⟩ := hrequests
  have hreaching := ((code_moves hcode).lock_manager hop).resolve_right fun hown => hinside <| by
    obtain ⟨rfl, hpoint | hpoint⟩ := hown <;> rw [hpoint] <;> rfl
  rcases (turning_of_reaches hconcerns hexempt hguard hrun).assertion t hconcerned m hreaching
    with hslot | hexempted
  · exact slot_of_executing hrun hexecuting hslot
  · exact hfree hexempted

end Config

/-! ## `execute` of a queued pool -/

/-- A caller of `execute` is kept from the dispatcher's monitor by a thread that waits
for the end of a task. -/
def QueuedThreadPool.ExecuteWaits (cfg : Config) (state : PoolState) : Prop :=
  ∃ caller task holder m,
    state.pc caller = caller.calling (some (.queuedExecute task .lock)) ∧
    (state.monitor .dispatcher).owner = some holder ∧
    cfg.program.Requests state holder (.manager m) ∧
    (state.monitor (.manager m)).owner = some (.worker m) ∧ Executing state m

namespace Config

variable {cfg : Config} {guard : PoolState → PoolAction → Prop} {state : PoolState}

/-- While the dispatcher and the observers turn only to managers with an empty slot,
`execute` does not wait for a task unless the pool is being shut down. -/
theorem execute_never_waits
    (hturns : ∀ state action, guard state action →
      Annotation.Respects (TurnsToEmpty cfg Observes fun _ _ => False) state action)
    (hrun : Reaches cfg.program.step guard cfg.initial state)
    (hquiet : ∀ t, Observes t (state.pc t)) :
    ¬ QueuedThreadPool.ExecuteWaits cfg state := by
  rintro ⟨caller, task, holder, m, -, howner, hrequests, -, hexecuting⟩
  have hheld := ((locked_of_reaches hrun).owner .dispatcher holder).mp howner
  exact not_executing_of_requests (fun _ _ h => h) (fun _ _ _ h => h) hturns hrun
    (hquiet holder) (List.ne_nil_of_mem hheld) hrequests id hexecuting

/-- The next point of a thread, if it turns to a manager, is in front of an empty
slot. -/
def turnsToEmpty (cfg : Config) (state : PoolState) : PoolAction → Bool
  | .run t input _ =>
      match cfg.code t input (state.pc t) state.data with
      | none => true
      | some piece =>
          match piece.next.reaching with
          | none => true
          | some m => (state.data.managers m).task.isNone
  | .spurious _ _ => true

theorem respects_of_turnsToEmpty {concerns : Tid → Point → Prop}
    {exempt : ManagerId → Pool → Prop} {action : PoolAction}
    (h : cfg.turnsToEmpty state action = true) :
    Annotation.Respects (TurnsToEmpty cfg concerns exempt) state action := by
  cases action with
  | run t input choice =>
      intro piece m hcode _ hreaching
      simp only [turnsToEmpty, hcode, hreaching, Option.isNone_iff_eq_none] at h
      exact .inl h
  | spurious => trivial

/-- A client waits for the dispatcher, which is about to look at an idle manager. -/
theorem execute_never_waits_idle : ∃ state : PoolState,
    state.pc (.client 1) = .client (some (.queuedExecute (some 2) .lock)) ∧
      (state.monitor .dispatcher).owner = some .dispatcher ∧
      ¬ QueuedThreadPool.ExecuteWaits (Config.complete .queuedThreadPool 1) state := by
  let cfg := Config.complete .queuedThreadPool 1
  let guard (state : PoolState) (action : PoolAction) : Prop :=
    Annotation.Respects (TurnsToEmpty cfg Observes fun _ _ => False) state action ∧
      Annotation.Respects NoShutdown state action
  obtain ⟨state, hrun, hobserved⟩ : ∃ state : PoolState,
      Reaches cfg.program.step guard cfg.initial state ∧
        (state.pc (.client 1), (state.monitor .dispatcher).owner) =
        (.client (some (.queuedExecute (some 2) .lock)), some .dispatcher) :=
    Reaches.of_observed
      (fun state action => cfg.turnsToEmpty state action &&
        decide ( Annotation.Respects NoShutdown state action))
      (PoolAction.call (.client 0) (.execute (some 1)) :: PoolAction.steps (.client 0) 2 ++
        PoolAction.steps .dispatcher 5 ++ [PoolAction.call (.client 1) (.execute (some 2))])
      (fun _ _ h => ⟨respects_of_turnsToEmpty (Bool.and_eq_true_iff.mp h).1,
        of_decide_eq_true (Bool.and_eq_true_iff.mp h).2⟩)
      (by decide +kernel)
  simp only [Prod.mk.injEq] at hobserved
  have hquiet : ∀ t, Observes t (state.pc t) :=
    (undisturbed_of_reaches (fun _ _ h => h.2) hrun).assertion
  exact ⟨state, hobserved.1, hobserved.2, execute_never_waits (fun _ _ h => h.1) hrun hquiet⟩

/-- The dispatcher waits for the end of the first task to learn that its worker is not
idle, and `execute` waits for the dispatcher. -/
theorem execute_waits :
    ∃ state : PoolState,
      Reaches (Config.complete .queuedThreadPool 1).program.step
        (fun state action => Contract state action ∧
          Annotation.Respects NoShutdown state action)
        (Config.complete .queuedThreadPool 1).initial state ∧
      QueuedThreadPool.ExecuteWaits (Config.complete .queuedThreadPool 1) state := by
  let cfg := Config.complete .queuedThreadPool 1
  let blocked : Point := .dispatcher (.assign 2 (.isIdle 0 [] .lock))
  obtain ⟨state, hrun, hobserved⟩ : ∃ state : PoolState,
      Reaches cfg.program.step (fun state action => Contract state action ∧
        Annotation.Respects NoShutdown state action) cfg.initial state ∧
        ([state.pc (.client 1), state.pc .dispatcher, state.pc (.worker 0)],
          (state.monitor .dispatcher).owner, (state.monitor (.manager 0)).owner,
          (state.monitor (.manager 0)).waiters) =
        ([.client (some (.queuedExecute (some 3) .lock)), blocked, .worker (.running none)],
          some .dispatcher, some (.worker 0), []) :=
    Reaches.of_observed
      (fun state action => decide (Contract state action ∧
        Annotation.Respects NoShutdown state action))
      (PoolAction.call (.client 0) (.execute (some 1)) :: PoolAction.steps (.client 0) 2 ++
        PoolAction.call (.client 0) (.execute (some 2)) :: PoolAction.steps (.client 0) 2 ++
        PoolAction.steps .dispatcher 9 ++ PoolAction.steps (.worker 0) 4 ++
        PoolAction.steps .dispatcher 3 ++
        [PoolAction.call (.client 1) (.execute (some 3))])
      (fun _ _ => of_decide_eq_true) (by decide +kernel)
  simp only [Prod.mk.injEq, List.cons.injEq] at hobserved
  obtain ⟨⟨hcaller, hblocked, hworker, -⟩, hdispatcher, howner, hwaiters⟩ := hobserved
  have hrequests : cfg.program.Requests state .dispatcher (.manager 0) := by
    refine ⟨.go, { op := .lock (.manager 0)
                   next := .dispatcher (.assign 2 (.isIdle 0 [] .body)) }, ?_, rfl, ?_⟩
    · rw [hblocked]
      rfl
    · simp [hwaiters]
  exact ⟨state, hrun, .client 1, some 3, .dispatcher, 0, hcaller, hdispatcher, hrequests,
    howner, none, hworker⟩

end Config

/-! ## Idle managers beside a busy one -/

/-- The thread offers a task to one manager after another. -/
def Scans (t : Tid) (p : Point) : Prop :=
  (∃ x q, p = .dispatcher (.assign x q)) ∨
    ∃ task q, t ≠ .dispatcher ∧ p = t.calling (some (.execute task (.scan q)))

/-- The manager could take a task at once. -/
def PoolState.Idle (state : PoolState) (m : ManagerId) : Prop :=
  (state.data.managers m).task = none ∧ (state.data.managers m).status = .running ∧
    .worker m ∈ (state.monitor (.manager m)).waiters ∧
    (state.monitor (.manager m)).owner = none

/-- A thread with a task to place waits for the end of another task, beside an idle
manager. -/
def WorkWaits (cfg : Config) (state : PoolState) : Prop :=
  ∃ t m other, Scans t (state.pc t) ∧ cfg.program.Requests state t (.manager m) ∧
    (state.monitor (.manager m)).owner = some (.worker m) ∧ Executing state m ∧
    other ∈ state.data.taskList ∧ other ≠ m ∧ state.Idle other

theorem Scans.observes {t : Tid} {p : Point} (h : Scans t p) : Observes t p := by
  rcases h with ⟨x, q, rfl⟩ | ⟨task, q, -, rfl⟩
  · intro call hcall
    cases t <;> cases hcall
  · intro call hcall
    cases t.calling_injective hcall
    exact ⟨nofun, nofun⟩

theorem Scans.inside {t : Tid} {p : Point} (h : Scans t p) : p.held t ≠ [] := by
  rcases h with ⟨x, q, rfl⟩ | ⟨task, q, ht, rfl⟩
  · cases t <;> simp [Point.held, QueuedThreadPool.RunPoint.held]
  · rw [Tid.held_calling ht]
    simp [Call.held, ThreadPool.ExecutePoint.held]

theorem Pool.mem_of_mem_taskList_apply {pool : Pool} {effect : Effect} {m : ManagerId}
    (h : m ∈ (pool.apply effect).taskList) : m ∈ pool.taskList := by
  cases effect with
  | clear => cases h
  | _ => exact h

namespace Config

variable {cfg : Config} {guard : PoolState → PoolAction → Prop} {state : PoolState}

/-- While the threads that look for an idle manager turn only to managers with an empty
slot, or there is no other manager, no idle manager is passed over for a busy one. -/
theorem work_conserved
    (hturns : ∀ state action, guard state action →
      Annotation.Respects (TurnsToEmpty cfg Scans fun m pool => ∀ i ∈ pool.taskList, i = m)
        state action)
    (hrun : Reaches cfg.program.step guard cfg.initial state) : ¬ WorkWaits cfg state := by
  rintro ⟨t, m, other, hscans, hrequests, -, hexecuting, hmem, hne, -⟩
  refine not_executing_of_requests (fun _ _ h => h.observes) (fun m pool effect halone i hi => ?_)
    hturns hrun hscans hscans.inside hrequests (fun halone => hne (halone other hmem)) hexecuting
  exact halone i (Pool.mem_of_mem_taskList_apply hi)

/-- A client offers its task to the second manager, which has just emptied its slot,
while the first one executes. -/
theorem work_conserved_second : ∃ state : PoolState,
    state.pc (.client 1) =
        .client (some (.execute (some 2) (.scan (.isIdle 0 [1] .lock)))) ∧
      ¬ WorkWaits (Config.complete .threadPool 2) state := by
  let cfg := Config.complete .threadPool 2
  let guard : PoolState → PoolAction → Prop :=
    Annotation.Respects (TurnsToEmpty cfg Scans fun m pool => ∀ i ∈ pool.taskList, i = m)
  obtain ⟨state, hrun, hobserved⟩ : ∃ state : PoolState,
      Reaches cfg.program.step guard cfg.initial state ∧
        state.pc (.client 1) =
          .client (some (.execute (some 2) (.scan (.isIdle 0 [1] .lock)))) :=
    Reaches.of_observed cfg.turnsToEmpty
      (PoolAction.call (.client 0) (.execute (some 1)) :: PoolAction.steps (.client 0) 7 ++
        PoolAction.steps (.worker 0) 4 ++ PoolAction.finish 0 ::
        PoolAction.call (.client 1) (.execute (some 2)) :: PoolAction.steps (.client 1) 2)
      (fun _ _ => respects_of_turnsToEmpty) (by decide +kernel)
  exact ⟨state, hobserved, work_conserved (fun _ _ h => h) hrun⟩

/-- The first worker executes, the second one sleeps, and a client waits for the first
one. -/
theorem work_waits :
    ∃ state : PoolState,
      Reaches (Config.complete .threadPool 2).program.step
        (fun state action => Contract state action ∧
          Annotation.Respects NoShutdown state action)
        (Config.complete .threadPool 2).initial state ∧
      WorkWaits (Config.complete .threadPool 2) state := by
  let cfg := Config.complete .threadPool 2
  let scanning : Point := .client (some (.execute (some 2) (.scan (.isIdle 0 [1] .lock))))
  obtain ⟨state, hrun, hobserved⟩ : ∃ state : PoolState,
      Reaches cfg.program.step (fun state action => Contract state action ∧
        Annotation.Respects NoShutdown state action) cfg.initial state ∧
        ([state.pc (.client 1), state.pc (.worker 0)],
          [0, 1].map fun m => (state.monitor (.manager m)).owner,
          [0, 1].map fun m => (state.monitor (.manager m)).waiters,
          decide (1 ∈ state.data.taskList ∧ (state.data.managers 1).task = none ∧
            (state.data.managers 1).status = .running)) =
        ([scanning, .worker (.running none)], [some (.worker 0), none], [[], [.worker 1]],
          true) :=
    Reaches.of_observed
      (fun state action => decide (Contract state action ∧
        Annotation.Respects NoShutdown state action))
      (PoolAction.steps (.worker 1) 5 ++
        PoolAction.call (.client 0) (.execute (some 1)) :: PoolAction.steps (.client 0) 7 ++
        PoolAction.steps (.worker 0) 4 ++
        PoolAction.call (.client 1) (.execute (some 2)) :: PoolAction.steps (.client 1) 2)
      (fun _ _ => of_decide_eq_true) (by decide +kernel)
  simp only [Prod.mk.injEq, List.map_cons, List.cons.injEq, decide_eq_true_eq] at hobserved
  obtain ⟨⟨hscanning, hworker, -⟩, ⟨howner, hfree, -⟩, ⟨hwaiters, hasleep, -⟩, hmem, htask,
    hstatus⟩ := hobserved
  have hscans : Scans (.client 1) (state.pc (.client 1)) :=
    .inr ⟨some 2, .isIdle 0 [1] .lock, nofun, hscanning⟩
  have hrequests : cfg.program.Requests state (.client 1) (.manager 0) := by
    refine ⟨.go, { op := .lock (.manager 0)
                   next := .client (some (.execute (some 2) (.scan (.isIdle 0 [1] .body)))) },
      ?_, rfl, ?_⟩
    · rw [hscanning]
      rfl
    · simp [hwaiters]
  have hidle : state.Idle 1 := ⟨htask, hstatus, by simp [hasleep], hfree⟩
  exact ⟨state, hrun, .client 1, 0, 1, hscans, hrequests, howner, ⟨none, hworker⟩,
    hmem, nofun, hidle⟩

end Config

end ThreadPools.Posix
