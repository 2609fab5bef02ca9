/-
# The fate of tasks

Where a task is from the call of `execute` on. The books of the custody machine
say it for the memory; the steps of the threads say when it moves. When the
destructor has finished, every thread of the pool has ended with an empty slot
and the queue has been emptied, so that every task which `execute` has taken has
been deleted.
-/

import ThreadPools.Posix.Idleness

namespace ThreadPools.Posix

open ThreadPools.Concurrency

/-! ## The end of the destructor -/

/-- Behind `EmptyQueue` the destructor of a queued pool finds no tasks. -/
def Call.Emptied (pool : Pool) : Call → Prop
  | .queuedDestroy (.baseTerminate _) => pool.queue = []
  | .queuedDestroy (.base _) => pool.queue = []
  | _ => True

/-- Nothing is left when the memory of the pool is released. -/
def Pool.Released (kind : Kind) (pool : Pool) : Prop :=
  pool.taskList = [] ∧ (kind = .queuedThreadPool → pool.queue = [] ∧ pool.go = false)

theorem Effect.Stops.queue {effect : Effect} (h : effect.Stops) (pool : Pool) :
    (pool.apply effect).queue = pool.queue := by
  cases h <;> rfl

theorem Piece.queue_after_of_stops {X : Type} {piece : Piece X}
    (h : ∀ e, piece.effect = some e → e.Stops ∨ e = .release) (pool : Pool) :
    (piece.after pool).queue = pool.queue := by
  cases heffect : piece.effect with
  | none => rw [Piece.after_of_none heffect]
  | some e =>
      rw [Piece.after_of_some heffect]
      rcases h e heffect with hstops | rfl
      · exact hstops.queue pool
      · rfl

/-- The destructor goes on with an empty queue. -/
theorem QueuedThreadPool.destroy_emptied {p q : DestroyPoint} {pool : Pool}
    (h : (Call.queuedDestroy p).Emptied pool) (hnext : (destroy p pool).next = .inl q) :
    (Call.queuedDestroy q).Emptied ((destroy p pool).after pool) := by
  cases p with
  | terminate p =>
      simp only [destroy, Instr.map_next] at hnext
      cases hbody : (terminate p pool).next with
      | inl => rw [hbody] at hnext; cases hnext; trivial
      | inr => rw [hbody] at hnext; cases hnext; trivial
  | join =>
      have hemptyQueue : q = .emptyQueue .lock := by
        simp only [destroy] at hnext
        split at hnext <;> cases hnext <;> rfl
      rw [hemptyQueue]
      trivial
  | emptyQueue p =>
      cases p with
      | lock => cases hnext; trivial
      | body => cases hnext; rfl
  | baseTerminate p =>
      have hqueue : ((destroy (.baseTerminate p) pool).after pool).queue = pool.queue :=
        Piece.queue_after_of_stops (fun e he => .inl (ThreadPool.terminate_stops he)) pool
      simp only [destroy, Instr.map_next] at hnext
      cases hbody : (ThreadPool.terminate p pool).next with
      | inl => rw [hbody] at hnext; cases hnext; exact hqueue.trans h
      | inr => rw [hbody] at hnext; cases hnext; exact hqueue.trans h
  | base p =>
      have hqueue : ((destroy (.base p) pool).after pool).queue = pool.queue :=
        Piece.queue_after_of_stops
          (fun e he => (ThreadPool.destroy_stops he).imp_right And.left) pool
      simp only [destroy, Instr.map_next] at hnext
      cases hbody : (ThreadPool.destroy p pool).next with
      | inl => rw [hbody] at hnext; cases hnext; exact hqueue.trans h
      | inr => rw [hbody] at hnext; cases hnext

theorem Call.code_emptied {call next : Call} {pool : Pool} (h : call.Emptied pool)
    (hnext : (call.code pool).next = .inl next) :
    next.Emptied ((call.code pool).after pool) := by
  cases call with
  | queuedDestroy p =>
      obtain ⟨q, hq, rfl⟩ := next_of_piece hnext
      exact QueuedThreadPool.destroy_emptied h hq
  | _ =>
      obtain ⟨q, -, rfl⟩ := next_of_piece hnext
      trivial

/-- Only the destructors release the memory. -/
theorem Call.code_released {call : Call} {pool : Pool}
    (heffect : (call.code pool).effect = some .release) :
    call = .destroy .release ∨ call = .queuedDestroy (.base .release) := by
  by_cases hexecute : mayExecute call.method
  · rcases execute_effect hexecute heffect with ⟨_, h⟩ | ⟨_, _, h⟩ | ⟨_, h⟩ <;> cases h
  · cases code_ends hexecute heffect with
    | stops _ h => cases h
    | release hcall => exact hcall

theorem Call.Emptied.apply {call : Call} {pool : Pool} (h : call.Emptied pool)
    {effect : Effect} (hpush : call.Control pool.life → pool.go = false →
      ∀ task, effect ≠ .push task) (hcontrol : call.Control pool.life) :
    call.Emptied (pool.apply effect) := by
  have hkept : pool.queue = [] → pool.go = false → (pool.apply effect).queue = [] := by
    intro hqueue hgo
    show (pool.apply effect).custody.queue = []
    rw [Pool.custody_apply]
    exact Custody.queue_apply_nil hqueue (hpush hcontrol hgo)
  cases call with
  | queuedDestroy p =>
      cases p with
      | baseTerminate p => exact hkept h hcontrol.1.1.1
      | base p => exact hkept h hcontrol.1.1.1
      | _ => trivial
  | _ => trivial

theorem Pool.released_apply {pool : Pool} {effect : Effect} (h : effect ≠ .release) :
    (pool.apply effect).log.released = pool.log.released := by
  cases effect with
  | release => exact absurd rfl h
  | _ => rfl

theorem Pool.Released.apply {kind : Kind} {pool : Pool} (h : pool.Released kind)
    {effect : Effect}
    (hpush : ∀ task, effect = .push task → kind = .queuedThreadPool ∧ pool.go = true) :
    (pool.apply effect).Released kind := by
  refine ⟨pool.taskList_apply h.1 effect, fun hkind => ?_⟩
  obtain ⟨hqueue, hgo⟩ := h.2 hkind
  constructor
  · show (pool.apply effect).custody.queue = []
    rw [Pool.custody_apply]
    exact Custody.queue_apply_nil hqueue fun task heq =>
      absurd ((hpush task heq).2.symm.trans hgo) nofun
  · show (pool.apply effect).life.go = false
    rw [Pool.life_apply]
    have hclosed : pool.life.Closed := ⟨hgo, h.1⟩
    exact (hclosed.apply effect).1

namespace Config

variable {cfg : Config} {pool : Pool} {t : Tid} {input : Input} {p next : Point}
  {piece : Piece Point} {e : Effect}

variable (cfg) in
/-- What the destructor leaves behind. -/
def releasing : Annotation Tid MonitorId Pool Point where
  assertion t p pool := ∀ call, p = t.calling (some call) → call.Emptied pool
  resource _ _ := True
  invariant pool := pool.log.released = true → pool.Released cfg.kind

theorem Moves.emptied (hmoves : cfg.Moves pool t input p piece)
    (h : ∀ call, p = t.calling (some call) → call.Emptied pool) {next : Call}
    (hnext : piece.next = t.calling (some next)) : next.Emptied (piece.after pool) := by
  rcases hmoves.next_calling hnext with ⟨method, -, -, hentry⟩ | ⟨prior, hp, hcode, hafter⟩
  · cases hkind : cfg.kind <;> rw [hkind] at hentry <;> cases method <;> cases hentry <;>
      trivial
  · rw [hafter]
    exact Call.code_emptied (h prior hp) hcode

/-- Tasks are pushed only while the pool is open. -/
theorem Handles.open_of_push (hhandles : cfg.Handles pool t p next (some e)) {task}
    (he : e = .push task) : cfg.kind = .queuedThreadPool ∧ pool.go = true := by
  subst he
  cases hhandles with
  | silent _ hsilent => exact absurd (hsilent _ rfl) Effect.not_silent_push
  | push _ _ hkind hgo => exact ⟨hkind, hgo⟩

/-- The memory is released by the destructor, behind everything else. -/
theorem Moves.released (hmoves : cfg.Moves pool t input p piece)
    (hfits : p.Fits cfg.kind mayExecute t) (hcontrol : p.Control cfg.size t pool.life)
    (hemptied : ∀ call, p = t.calling (some call) → call.Emptied pool)
    (heffect : piece.effect = some .release) : pool.Released cfg.kind := by
  cases hmoves with
  | enter t method call ht hentry =>
      have hnone := heffect
      simp only [Call.entered] at hnone
      split at hnone <;> cases hnone
  | call t call ht =>
      have hkind := ((fits_calling ht).mp hfits call rfl).1
      have hknown := ((Tid.control_calling ht).mp hcontrol).1 call rfl
      rcases Call.code_released heffect with rfl | rfl
      · exact ⟨hknown, fun hqueued => absurd (hkind.trans hqueued) nofun⟩
      · exact ⟨hknown.1.1.2, fun _ => ⟨hemptied _ rfl, hknown.1.1.1⟩⟩
  | dispatcher hmoves =>
      cases hmoves with
      | add p | remove p => cases p <;> cases heffect
      | assign task p =>
          have hscan := scan_moves (some task) p pool
          change (scan (some task) p pool).effect = some .release at heffect
          generalize scan (some task) p pool = piece at hscan heffect
          cases hscan <;> cases heffect
      | _ => cases heffect
  | worker m input hmoves =>
      cases hmoves with
      | add p | remove p => cases p <;> cases heffect
      | _ => cases heffect

theorem releasing_valid :
    Annotation.Valid cfg.program cfg.accounting cfg.releasing SubmitsFresh where
  assertion {t input p pool piece} hbefore _ := by
    rw [dataAfter_eq]
    exact fun next hnext => (code_moves hbefore.code).emptied hbefore.assertion.2 hnext
  release _ _ _ _ := trivial
  invariant {t input p pool piece e} hbefore husage heffect := by
    obtain ⟨⟨⟨⟨hfits, hcontrol⟩, -⟩, -⟩, hemptied⟩ := hbefore.assertion
    obtain ⟨⟨⟨⟨-, hwell⟩, -⟩, -⟩, hreleased⟩ := hbefore.invariant
    have hmoves := code_moves hbefore.code
    have hhandles := hmoves.handles hfits hcontrol hwell husage
    rw [heffect] at hhandles
    intro hafter
    have hnow : pool.Released cfg.kind := by
      by_cases he : e = .release
      · exact hmoves.released hfits hcontrol hemptied (he ▸ heffect)
      · exact hreleased ((Pool.released_apply he).symm.trans hafter)
    exact hnow.apply fun task heq => hhandles.open_of_push heq
  frame {t input p pool piece e other place} hbefore husage heffect hne hother hdisjoint _ := by
    obtain ⟨⟨⟨⟨hfits, hcontrol⟩, -⟩, -⟩, -⟩ := hbefore.assertion
    obtain ⟨⟨⟨⟨-, hwell⟩, -⟩, -⟩, -⟩ := hbefore.invariant
    obtain ⟨⟨⟨⟨hplace, hcontrolOther⟩, -⟩, -⟩, hemptied⟩ := hother
    have hhandles := (code_moves hbefore.code).handles hfits hcontrol hwell husage
    rw [heffect] at hhandles
    rintro call rfl
    have hcaller := hplace.ne_dispatcher
    refine (hemptied call rfl).apply (fun _ hgo task heq => ?_)
      (((Tid.control_calling hcaller).mp hcontrolOther).1 call rfl)
    exact absurd ((hhandles.open_of_push heq).2.symm.trans hgo) nofun
  frame_resource _ _ _ _ _ _ _ := trivial
  raise {t input p pool piece} m hcode _ hassertion hop hheld := by
    obtain ⟨⟨⟨⟨hfits, -⟩, havoids, -⟩, -⟩, hemptied⟩ := hassertion
    have hsame : cfg.program.handler p = p :=
      handler_eq_of_avoiding hcode hfits havoids hop hheld
    exact ⟨hsame.symm ▸ hemptied, fun _ _ _ => trivial⟩

theorem releasing_initial : cfg.releasing.Holds cfg.initial where
  assertion t call hcall := absurd hcall (cfg.initialPoint_ne_calling t call)
  resource _ _ := trivial
  invariant := nofun

variable {guard : PoolState → PoolAction → Prop} {state : PoolState}

theorem releasing_of_reaches (hguard : cfg.Disciplined guard)
    (hfresh : ∀ state action, guard state action →
      Annotation.Respects SubmitsFresh state action)
    (hrun : Reaches cfg.program.step guard cfg.initial state) :
    cfg.releasing.Holds state :=
  releasing_valid.holds cfg.wellLocked (fun _ _ _ h => hfresh _ _ h) cfg.locked_initial
    (fun _ hprior => accounting_of_reaches hguard hfresh hprior) releasing_initial hrun

/-- Managers leave the task list only when their threads have ended. -/
theorem exited_of_removed (h : cfg.lifecycle.Holds state) (hnil : state.data.taskList = [])
    (hshape : (cfg.shape mayExecute).Holds state) {m : ManagerId} (hm : m < cfg.size) :
    state.pc (.worker m) = .worker .exited ∧ (state.data.managers m).destroyed = true := by
  obtain ⟨q, hq⟩ := worker_point hshape m
  have hcontrol := h.assertion (.worker m)
  have hwell : state.data.life.WellFormed cfg.size := h.invariant
  have hdestroyed := hwell.removed hnil m hm
  rw [hq] at hcontrol
  rw [hq, TaskManager.RunPoint.Control.exited (hcontrol.1 hm) (hwell.stopped m hdestroyed).2]
  exact ⟨rfl, hdestroyed⟩

/-- Then no task is left in a slot. -/
theorem slots_of_removed (hguard : cfg.Disciplined guard)
    (hfresh : ∀ state action, guard state action →
      Annotation.Respects SubmitsFresh state action)
    (hrun : Reaches cfg.program.step guard cfg.initial state)
    (hnil : state.data.taskList = []) (x : Runnable) :
    state.data.custody.slots cfg.size x = 0 := by
  have hdiscipline := discipline_of_reaches hguard hrun
  refine List.countP_eq_zero.mpr fun m hm => ?_
  have hm := List.mem_range.mp hm
  obtain ⟨hexited, -⟩ := exited_of_removed
    (lifecycle_of_reaches hguard.tasksCall hrun) hnil
    (shape_of_reaches hguard.tasksCall hrun) hm
  have hslot : (state.data.managers m).task = none :=
    (work_of_reaches hguard hfresh hrun).assertion (.worker m) m .exited rfl hexited hm
  simp [hslot]

/-- When the destructor has finished, every task that `execute` has taken has been
deleted. -/
theorem deleted_of_released (hguard : cfg.Disciplined guard)
    (hfresh : ∀ state action, guard state action →
      Annotation.Respects SubmitsFresh state action)
    (hrun : Reaches cfg.program.step guard cfg.initial state)
    (hreleased : state.data.log.released = true) {x : Runnable}
    (htaken : state.data.custody.taken cfg.kind x = 1) :
    state.data.log.deleted.count x = 1 := by
  obtain ⟨hnil, hqueue⟩ := (releasing_of_reaches hguard hfresh hrun).invariant hreleased
  have hbalanced : state.data.custody.Balanced cfg.kind cfg.size :=
    (ledger_of_reaches hguard hfresh hrun).invariant
  have hslots := slots_of_removed hguard hfresh hrun hnil x
  have hsum := hbalanced.slots_add_deleted x
  have hdispatched : state.data.custody.placed.count (some x) +
      state.data.custody.dropped.count (some x) =
        (state.data.custody.accepted cfg.kind).count (some x) := by
    cases hkind : cfg.kind with
    | threadPool =>
        have hle := hbalanced.dispatched x
        rw [hkind] at hle
        show _ = state.data.custody.placed.count (some x)
        simp only [Custody.accepted] at hle
        omega
    | queuedThreadPool =>
        obtain ⟨q, hq⟩ := dispatcher_point (shape_of_reaches_any hrun)
        have hdispatches :=
          ((dispatching_of_reaches hrun).assertion .dispatcher hkind).dispatches q hq
        have hwaiting : q.waiting state.data.custody.queue = [] := by
          have hempty : state.data.custody.queue = [] := (hqueue hkind).1
          rw [hempty]
          cases q <;> rfl
        have horder := hdispatches.order
        rw [hwaiting, List.append_nil] at horder
        show _ = state.data.custody.pushed.count (some x)
        rw [horder, List.count_append]
  unfold Custody.taken at htaken
  show state.data.custody.deleted.count x = 1
  omega

end Config

/-! ## The tasks of a queued pool -/

/-- How often a task is found in the memory: in the queue, in slots, and among the
deleted ones. -/
def Pool.residences (size : Nat) (pool : Pool) (x : Runnable) : Nat :=
  pool.queue.count (some x) + pool.custody.slots size x + pool.log.deleted.count x

/-- The fate of the tasks of a queued pool in a state of a run. -/
structure QueuedThreadPool.Fate (cfg : Config) (guard : PoolState → PoolAction → Prop)
    (state : PoolState) : Prop where
  /-- The task is with the caller alone until `execute` takes it, and then in
  exactly one place, except between `assign` and `pop`. -/
  residences : ∀ x t, (x, t) ∈ state.data.log.submitted →
    state.data.residences cfg.size x =
      if (state.pc t).carried = some x then 0
      else if state.pc .dispatcher = .dispatcher (.assigned x) then 2
      else 1
  /-- Between `assign` and `pop`, where the dispatcher holds its monitor, the task at
  the front of the queue is also in a slot or has been deleted already. -/
  window : ∀ x, state.pc .dispatcher = .dispatcher (.assigned x) →
    (state.monitor .dispatcher).owner = some .dispatcher ∧
      state.data.queue.head? = some (some x) ∧ state.data.queue.count (some x) = 1 ∧
      state.data.custody.slots cfg.size x + state.data.log.deleted.count x = 1
  started : ∀ x, state.data.log.started.count x ≤ 1
  /-- No deleted task is started. -/
  alive : ∀ action next, guard state action → cfg.program.step state action = some next →
    ∀ x, state.data.log.started.count x < next.data.log.started.count x →
      x ∉ state.data.log.deleted
  deleted : ∀ x, state.data.log.deleted.count x ≤ 1
  /-- When the destructor has finished, what has been accepted or rejected has been
  deleted. -/
  released : state.data.log.released = true → ∀ x,
    some x ∈ state.data.log.pushed ∨ x ∈ state.data.log.rejected →
      state.data.log.deleted.count x = 1

namespace Config

variable {cfg : Config} {guard : PoolState → PoolAction → Prop} {state : PoolState}

/-- A task is started at most once. -/
theorem started_le_one (hguard : cfg.Disciplined guard)
    (hfresh : ∀ state action, guard state action →
      Annotation.Respects SubmitsFresh state action)
    (hrun : Reaches cfg.program.step guard cfg.initial state) (x : Runnable) :
    state.data.log.started.count x ≤ 1 := by
  have hstarted := ((work_of_reaches hguard hfresh hrun).invariant x).1
  have hbalanced := (ledger_of_reaches hguard hfresh hrun).invariant
  have hdispatched := hbalanced.dispatched x
  have hone := hbalanced.taken_le_one x
  unfold Custody.taken at hone
  omega

theorem deleted_le_one (hguard : cfg.Disciplined guard)
    (hfresh : ∀ state action, guard state action →
      Annotation.Respects SubmitsFresh state action)
    (hrun : Reaches cfg.program.step guard cfg.initial state) (x : Runnable) :
    state.data.log.deleted.count x ≤ 1 := by
  have hle := (ledger_of_reaches hguard hfresh hrun).invariant.slots_add_deleted_le_one x
  exact Nat.le_trans (Nat.le_add_left _ _) hle

/-- No deleted task is started. -/
theorem not_deleted_of_started (hguard : cfg.Disciplined guard)
    (hfresh : ∀ state action, guard state action →
      Annotation.Respects SubmitsFresh state action)
    (hrun : Reaches cfg.program.step guard cfg.initial state) {action : PoolAction}
    {next : PoolState} (hallowed : guard state action)
    (hstep : cfg.program.step state action = some next) {x : Runnable}
    (hstarted : state.data.log.started.count x < next.data.log.started.count x) :
    x ∉ state.data.log.deleted := by
  have hbalanced := (ledger_of_reaches hguard hfresh hrun).invariant
  rcases handles_of_step hguard hfresh hrun hallowed hstep with hsame | ⟨t, p, e, hnext, hhandles⟩
  · rw [hsame] at hstarted
    exact absurd hstarted (Nat.lt_irrefl _)
  · rw [hnext] at hstarted
    by_cases hbegin : ∃ m, e = .begin m
    · obtain ⟨m, rfl⟩ := hbegin
      have hm : m < cfg.size := by
        cases hhandles with
        | silent _ hsilent => exact absurd rfl ((hsilent _ rfl).2 m)
        | begin _ _ hm => exact hm
      change _ < (state.data.log.started ++ (state.data.managers m).task.toList).count x at hstarted
      rw [List.count_append, count_toList] at hstarted
      split at hstarted
      · next hslot => exact hbalanced.not_deleted_of_slot hm hslot
      · exact absurd hstarted (Nat.lt_irrefl _)
    · rw [Pool.started_apply fun m hm => hbegin ⟨m, hm⟩] at hstarted
      exact absurd hstarted (Nat.lt_irrefl _)

/-- Between `assign` and `pop` the front of the queue counts twice. -/
theorem residences_eq (hguard : cfg.Disciplined guard)
    (hfresh : ∀ state action, guard state action →
      Annotation.Respects SubmitsFresh state action)
    (hkind : cfg.kind = .queuedThreadPool)
    (hrun : Reaches cfg.program.step guard cfg.initial state) (x : Runnable) :
    state.data.residences cfg.size x = state.data.custody.taken cfg.kind x +
      if state.pc .dispatcher = .dispatcher (.assigned x) then 1 else 0 := by
  have hbalanced := (ledger_of_reaches hguard hfresh hrun).invariant
  obtain ⟨q, hq⟩ := dispatcher_point (shape_of_reaches_any hrun)
  have hdispatches :=
    ((dispatching_of_reaches hrun).assertion .dispatcher hkind).dispatches q hq
  have hqueue : state.data.queue.count (some x) =
      (q.waiting state.data.queue).count (some x) +
        if state.pc .dispatcher = .dispatcher (.assigned x) then 1 else 0 := by
    rw [hq]
    cases q with
    | assigned y =>
        obtain ⟨tail, htail⟩ := hdispatches.cons rfl
        have htail : state.data.queue = some y :: tail := htail
        rw [htail]
        simp [QueuedThreadPool.RunPoint.waiting, List.count_cons]
    | _ => rfl
  have horder := congrArg (List.count (some x)) hdispatches.order
  have hplaced := hbalanced.placed x
  have hdeleted := hbalanced.deleted x
  rw [List.count_append, List.count_append] at horder
  unfold Pool.residences Custody.taken
  rw [hkind, hqueue]
  change _ = state.data.custody.placed.count (some x) +
    state.data.custody.dropped.count (some x) +
      (q.waiting state.data.queue).count (some x) at horder
  change state.data.log.deleted.count x = _ at hdeleted
  show _ = state.data.custody.pushed.count (some x) + _ + _
  omega

/-- Inside the section between `assign` and `pop`. -/
theorem assigned_window (hguard : cfg.Disciplined guard)
    (hfresh : ∀ state action, guard state action →
      Annotation.Respects SubmitsFresh state action)
    (hkind : cfg.kind = .queuedThreadPool)
    (hrun : Reaches cfg.program.step guard cfg.initial state) {x : Runnable}
    (hassigned : state.pc .dispatcher = .dispatcher (.assigned x)) :
    state.data.custody.taken cfg.kind x = 1 ∧
      (state.monitor .dispatcher).owner = some .dispatcher ∧
      state.data.queue.head? = some (some x) ∧ state.data.queue.count (some x) = 1 ∧
      state.data.custody.slots cfg.size x + state.data.log.deleted.count x = 1 := by
  have hbalanced := (ledger_of_reaches hguard hfresh hrun).invariant
  have hdispatches :=
    ((dispatching_of_reaches hrun).assertion .dispatcher hkind).dispatches _ hassigned
  have hresidences := residences_eq hguard hfresh hkind hrun x
  have hone := hbalanced.taken_le_one x
  have hsum := hbalanced.slots_add_deleted x
  have hdispatched := hbalanced.dispatched x
  -- the task has been dispatched, so it has been taken and no longer waits
  have hplaced : 0 < state.data.custody.placed.count (some x) :=
    List.count_pos_iff.mpr (hdispatches.dispatched x rfl)
  rw [if_pos hassigned] at hresidences
  unfold Pool.residences at hresidences
  unfold Custody.taken at hone hresidences
  change _ + state.data.log.deleted.count x = _ at hsum
  have hfront := hdispatches.front _ rfl
  have hqueue : 0 < state.data.queue.count (some x) :=
    List.count_pos_iff.mpr (List.mem_of_mem_head? (by exact hfront))
  unfold Custody.taken
  refine ⟨by omega, ?_, hfront, by omega, by omega⟩
  refine ((locked_of_reaches hrun).owner .dispatcher .dispatcher).mpr ?_
  rw [hassigned]
  exact List.mem_cons_self

/-- The residences of a task whose call of `execute` has been entered. -/
theorem residences_of_submitted (hguard : cfg.Disciplined guard)
    (hfresh : ∀ state action, guard state action →
      Annotation.Respects SubmitsFresh state action)
    (hkind : cfg.kind = .queuedThreadPool)
    (hrun : Reaches cfg.program.step guard cfg.initial state) {x : Runnable} {t : Tid}
    (hsubmitted : (x, t) ∈ state.data.log.submitted) :
    state.data.residences cfg.size x =
      if (state.pc t).carried = some x then 0
      else if state.pc .dispatcher = .dispatcher (.assigned x) then 2
      else 1 := by
  have hcarries : state.data.custody.Carries cfg.kind t (state.pc t).carried :=
    (ledger_of_reaches hguard hfresh hrun).assertion t
  have htaken := hcarries.taken x hsubmitted
  rw [residences_eq hguard hfresh hkind hrun]
  split at htaken
  · next hcarried =>
      rw [if_pos hcarried, htaken, if_neg]
      intro hassigned
      have hwindow := (assigned_window hguard hfresh hkind hrun hassigned).1
      omega
  · next hcarried =>
      rw [if_neg hcarried, htaken]
      split <;> rfl

/-- The tasks of a queued pool have this fate in every state of every run. -/
theorem queued_fate (hkind : cfg.kind = .queuedThreadPool)
    (hguard : ∀ state action, guard state action → Contract state action)
    (hrun : Reaches cfg.program.step guard cfg.initial state) :
    QueuedThreadPool.Fate cfg guard state := by
  have hdisciplined : cfg.Disciplined guard := .of_contract hguard
  have hfresh : ∀ state action, guard state action →
      Annotation.Respects SubmitsFresh state action :=
    fun state action h => (hguard state action h).2
  refine ⟨fun x t => residences_of_submitted hdisciplined hfresh hkind hrun,
    fun x hassigned => (assigned_window hdisciplined hfresh hkind hrun hassigned).2,
    started_le_one hdisciplined hfresh hrun,
    fun action next hallowed hstep x =>
      not_deleted_of_started hdisciplined hfresh hrun hallowed hstep,
    deleted_le_one hdisciplined hfresh hrun, fun hreleased x hx => ?_⟩
  refine deleted_of_released hdisciplined hfresh hrun hreleased ?_
  have hone := (ledger_of_reaches hdisciplined hfresh hrun).invariant.taken_le_one x
  have hpos : 0 < state.data.custody.taken cfg.kind x := by
    rw [hkind]
    rcases hx with hx | hx
    · exact Nat.lt_of_lt_of_le (List.count_pos_iff.mpr hx) (Nat.le_add_right _ _)
    · exact Nat.lt_of_lt_of_le (List.count_pos_iff.mpr hx) (Nat.le_add_left _ _)
  omega

/-- The worker has run and deleted the task before the dispatcher removes it from the
queue. -/
theorem queued_fate_window : ∃ state : PoolState,
    QueuedThreadPool.Fate (Config.complete .queuedThreadPool 1) Contract state ∧
      state.data.log.released = false ∧ state.data.residences 1 7 = 2 := by
  let cfg := Config.complete .queuedThreadPool 1
  obtain ⟨state, hrun, hobserved⟩ : ∃ state : PoolState,
      Reaches cfg.program.step Contract cfg.initial state ∧
        (state.data.log.released, state.data.residences 1 7) = (false, 2) :=
    Reaches.of_observed (fun state action => decide (Contract state action))
      (PoolAction.call (.client 0) (.execute (some 7)) :: PoolAction.steps (.client 0) 2 ++
        PoolAction.steps .dispatcher 9 ++ PoolAction.steps (.worker 0) 4 ++
        [PoolAction.finish 0])
      (fun _ _ => of_decide_eq_true) (by decide +kernel)
  simp only [Prod.mk.injEq] at hobserved
  exact ⟨state, queued_fate rfl (fun _ _ h => h) hrun, hobserved⟩

/-- The queue, the slots and the deleted tasks are not disjoint outside of the overlap
of the front of the queue with a slot: between `assign` and `pop` a task may be in the
queue and deleted. -/
theorem queue_overlaps_deleted :
    ¬ ∀ state : PoolState,
        Reaches (Config.complete .queuedThreadPool 1).program.step Contract
          (Config.complete .queuedThreadPool 1).initial state →
        ∀ x, ¬ (some x ∈ state.data.queue ∧ x ∈ state.data.log.deleted) := by
  let cfg := Config.complete .queuedThreadPool 1
  obtain ⟨state, hrun, hobserved⟩ : ∃ state : PoolState,
      Reaches cfg.program.step Contract cfg.initial state ∧
        (state.data.queue, state.data.log.deleted) = ([some 7], [7]) :=
    Reaches.of_observed (fun state action => decide (Contract state action))
      (PoolAction.call (.client 0) (.execute (some 7)) :: PoolAction.steps (.client 0) 2 ++
        PoolAction.steps .dispatcher 9 ++ PoolAction.steps (.worker 0) 4 ++
        [PoolAction.finish 0])
      (fun _ _ => of_decide_eq_true) (by decide +kernel)
  simp only [Prod.mk.injEq] at hobserved
  intro h
  exact h state hrun 7 ⟨by simp [hobserved.1], by simp [hobserved.2]⟩

end Config

/-! ## Managers in use -/

theorem Life.Intact.not_destroyed {life : Life} (h : life.Intact) {m : ManagerId}
    {rest : List ManagerId} (hsuffix : m :: rest <:+ life.taskList) :
    (life.manager m).destroyed = false :=
  (h m (hsuffix.mem List.mem_cons_self)).2

theorem ScanPoint.Control.not_destroyed {p : ScanPoint} {life : Life} (h : p.Control life)
    (hintact : life.Intact) : (life.manager p.touching).destroyed = false := by
  cases p with
  | isIdle m rest p => exact hintact.not_destroyed h
  | setTask m rest p => exact hintact.not_destroyed h.1

namespace ThreadPool

theorem CheckPoint.Control.not_destroyed {p : CheckPoint} {life : Life} (h : p.Control life)
    {m : ManagerId} (hm : p.touching = some m) : (life.manager m).destroyed = false := by
  cases p with
  | probe i rest p =>
      cases hm
      exact h.1.not_destroyed h.2
  | _ => cases hm

/-- `EmptyTaskList` has not deleted the manager it is about to delete. -/
theorem TerminatePoint.Control.not_destroyed {p : TerminatePoint} {life : Life}
    (h : p.Control life) {m : ManagerId} (hm : p.touching = some m) :
    (life.manager m).destroyed = false := by
  cases p with
  | stop i rest p =>
      cases hm
      exact h.2 m (h.1.mem List.mem_cons_self)
  | empty p =>
      cases p with
      | destroy i rest p =>
          cases hm
          have hdone := h.2.1 m (h.1.mem List.mem_cons_self)
          by_contra hdestroyed
          exact hdone.mp (Bool.not_eq_false _ ▸ hdestroyed) List.mem_cons_self
      | clear => cases hm
  | _ => cases hm

theorem DestroyPoint.Control.not_destroyed {p : DestroyPoint} {life : Life}
    (h : p.Control life) {m : ManagerId} (hm : p.touching = some m) :
    (life.manager m).destroyed = false := by
  cases p with
  | terminate p => exact TerminatePoint.Control.not_destroyed h hm
  | empty p =>
      obtain ⟨rfl, -⟩ := h
      cases hm
  | release => cases hm

end ThreadPool

/-- No call is in a method of a manager that has been deleted. -/
theorem Call.Control.not_destroyed {call : Call} {life : Life} (h : call.Control life)
    {m : ManagerId} (hm : call.touching = some m) : (life.manager m).destroyed = false := by
  have hqueued : ∀ {p : QueuedThreadPool.TerminatePoint}, p.Control life →
      p.touching = some m → (life.manager m).destroyed = false := by
    intro p h hm
    cases p with
    | base p => exact ThreadPool.TerminatePoint.Control.not_destroyed h.2 hm
    | _ => cases hm
  have hchecked : ∀ {p : QueuedThreadPool.CheckPoint}, p.Control life →
      p.touching = some m → (life.manager m).destroyed = false := by
    intro p h hm
    cases p with
    | base p => exact ThreadPool.CheckPoint.Control.not_destroyed h.2 hm
    | _ => cases hm
  cases call with
  | execute task p =>
      cases p with
      | scan p =>
          cases hm
          exact ScanPoint.Control.not_destroyed h.2 h.1
      | _ => cases hm
  | isIdle p | isBusy p => exact ThreadPool.CheckPoint.Control.not_destroyed h hm
  | terminate p => exact ThreadPool.TerminatePoint.Control.not_destroyed h hm
  | destroy p => exact ThreadPool.DestroyPoint.Control.not_destroyed h hm
  | queuedIsIdle p | queuedIsBusy p => exact hchecked h hm
  | queuedTerminate p => exact hqueued h hm
  | queuedDestroy p =>
      cases p with
      | terminate p => exact hqueued h hm
      | baseTerminate p => exact ThreadPool.TerminatePoint.Control.not_destroyed h.2 hm
      | base p => exact ThreadPool.DestroyPoint.Control.not_destroyed h.2 hm
      | _ => cases hm
  | _ => cases hm

/-- No thread is in a method of a manager that has been deleted. -/
theorem Config.not_destroyed_of_touching {cfg : Config} {state : PoolState}
    (hshape : (cfg.shape mayExecute).Holds state) (h : cfg.lifecycle.Holds state) {t : Tid}
    {m : ManagerId} (hm : (state.pc t).touching = some m) :
    (state.data.managers m).destroyed = false := by
  have hfits := hshape.assertion t
  have hcontrol := h.assertion t
  revert hfits hcontrol hm
  generalize state.pc t = p
  intro hm hfits hcontrol
  cases t with
  | client c =>
      obtain ⟨call, rfl⟩ := Point.Fits.client hfits
      cases call with
      | none => cases hm
      | some call => exact (hcontrol call rfl).not_destroyed hm
  | dispatcher =>
      obtain ⟨q, rfl⟩ := Point.Fits.dispatcher hfits
      cases q with
      | assign task p =>
          cases hm
          exact ScanPoint.Control.not_destroyed hcontrol.2.2.2 hcontrol.2.1.1
      | _ => cases hm
  | worker i =>
      obtain ⟨q, rfl⟩ := Point.Fits.worker hfits
      cases q with
      | running call =>
          cases call with
          | none => cases hm
          | some call => exact (hcontrol.2.2 call rfl).not_destroyed hm
      | _ => cases hm

/-! ## The tasks of a plain pool -/

/-- The fate of the tasks of a `ThreadPool` in a state of a run. -/
structure ThreadPool.Fate (cfg : Config) (guard : PoolState → PoolAction → Prop)
    (state : PoolState) : Prop where
  /-- A call that has returned has placed its task once, or it has found no managers
  and has deleted the task unrun. -/
  returned : ∀ x t, (x, t) ∈ state.data.log.submitted →
    (∀ call, state.pc t = t.calling (some call) → call.method ≠ .execute (some x)) →
    ((state.data.log.placed.map Prod.fst).count (some x) = 1 ∧ x ∉ state.data.log.rejected) ∨
    ((state.data.log.placed.map Prod.fst).count (some x) = 0 ∧
      x ∈ state.data.log.rejected ∧ state.data.log.deleted.count x = 1 ∧
      x ∉ state.data.log.started ∧ state.data.taskList = [])
  /-- Tasks are placed into empty slots. -/
  placed : ∀ action next, guard state action → cfg.program.step state action = some next →
    next.data.log.placed = state.data.log.placed ∨
    ∃ task m, m < cfg.size ∧
      next.data.log.placed = state.data.log.placed ++ [(task, m)] ∧
      (state.data.managers m).task = none ∧ (next.data.managers m).task = task
  /-- An occupied slot is not overwritten. -/
  kept : ∀ action next, guard state action → cfg.program.step state action = some next →
    ∀ m, (state.data.managers m).task ≠ none →
      (next.data.managers m).task = (state.data.managers m).task ∨
      (next.data.managers m).task = none
  started : ∀ x, state.data.log.started.count x ≤ 1
  deleted : ∀ x, state.data.log.deleted.count x ≤ 1
  released : state.data.log.released = true → ∀ x t, (x, t) ∈ state.data.log.submitted →
    (∀ call, state.pc t = t.calling (some call) → call.method ≠ .execute (some x)) →
      state.data.log.deleted.count x = 1
  /-- No thread is in a method of a manager that has been deleted. -/
  touching : ∀ t m, (state.pc t).touching = some m →
    (state.data.managers m).destroyed = false

theorem Pool.placed_apply {effect : Effect} (h : ∀ task m, effect ≠ .place task m)
    (pool : Pool) : (pool.apply effect).log.placed = pool.log.placed := by
  cases effect with
  | place task m => exact absurd rfl (h task m)
  | _ => rfl

/-- A slot is filled, emptied or left alone. -/
theorem Custody.slot_apply_cases (custody : Custody) (effect : Effect) (m : ManagerId) :
    (custody.apply effect).slot m = custody.slot m ∨ (custody.apply effect).slot m = none ∨
      ∃ task, effect = .place task m := by
  cases effect with
  | place task i =>
      by_cases hi : m = i
      · exact .inr (.inr ⟨task, hi ▸ rfl⟩)
      · exact .inl (by simp [apply, hi])
  | finish i | discard i =>
      by_cases hi : m = i
      · exact .inr (.inl (by simp [apply, hi]))
      · exact .inl (by simp [apply, hi])
  | _ => exact .inl rfl

namespace Config

variable {cfg : Config} {guard : PoolState → PoolAction → Prop} {state : PoolState}

/-- Tasks are placed into empty slots. -/
theorem Handles.slot_of_place {pool : Pool} {t : Tid} {p next : Point}
    {task : Option Runnable} {m : ManagerId}
    (hhandles : cfg.Handles pool t p next (some (.place task m))) :
    m < cfg.size ∧ (pool.managers m).task = none := by
  cases hhandles with
  | silent _ hsilent => exact absurd (hsilent _ rfl) Effect.not_silent_place
  | place _ _ _ _ hserves _ _ hslot => exact ⟨hserves.1, hslot⟩
  | dispatch _ _ _ _ _ hserves _ _ hslot => exact ⟨hserves.1, hslot⟩

/-- What has become of the task of a call that has returned. -/
theorem returned_fate (hkind : cfg.kind = .threadPool)
    (hguard : ∀ state action, guard state action → Contract state action)
    (hrun : Reaches cfg.program.step guard cfg.initial state) {x : Runnable}
    (htaken : state.data.custody.taken cfg.kind x = 1) :
    (state.data.custody.placed.count (some x) = 1 ∧ x ∉ state.data.log.rejected) ∨
    (state.data.custody.placed.count (some x) = 0 ∧
      x ∈ state.data.log.rejected ∧ state.data.custody.deleted.count x = 1 ∧
      x ∉ state.data.log.started ∧ state.data.taskList = []) := by
  have hdisciplined : cfg.Disciplined guard := .of_contract hguard
  have hfresh : ∀ state action, guard state action →
      Annotation.Respects SubmitsFresh state action :=
    fun state action h => (hguard state action h).2
  have hbalanced := (ledger_of_reaches hdisciplined hfresh hrun).invariant
  rw [hkind] at htaken
  change state.data.custody.placed.count (some x) +
    state.data.custody.rejected.count x = 1 at htaken
  by_cases hrejected : x ∈ state.data.log.rejected
  · have hpos : 0 < state.data.custody.rejected.count x := List.count_pos_iff.mpr hrejected
    have hstarted := ((work_of_reaches hdisciplined hfresh hrun).invariant x).1
    have hsum := hbalanced.slots_add_deleted x
    have hplaced := hbalanced.placed x
    have hdispatched := hbalanced.dispatched x
    rw [hkind] at hdispatched
    simp only [Custody.accepted] at hdispatched
    refine .inr ⟨by omega, hrejected, by omega, List.count_eq_zero.mp (by omega), ?_⟩
    exact (checking_of_reaches hdisciplined hfresh hrun).invariant.rejected
      (List.ne_nil_of_mem hrejected)
  · have hzero : state.data.custody.rejected.count x = 0 := List.count_eq_zero.mpr hrejected
    exact .inl ⟨by omega, hrejected⟩

/-- The tasks of a `ThreadPool` have this fate in every state of every run. -/
theorem direct_fate (hkind : cfg.kind = .threadPool)
    (hguard : ∀ state action, guard state action → Contract state action)
    (hrun : Reaches cfg.program.step guard cfg.initial state) :
    ThreadPool.Fate cfg guard state := by
  have hdisciplined : cfg.Disciplined guard := .of_contract hguard
  have hfresh : ∀ state action, guard state action →
      Annotation.Respects SubmitsFresh state action :=
    fun state action h => (hguard state action h).2
  refine ⟨fun x t hsubmitted hreturned => ?_, fun action next hallowed hstep => ?_,
    fun action next hallowed hstep m hslot => ?_, started_le_one hdisciplined hfresh hrun,
    deleted_le_one hdisciplined hfresh hrun, fun hreleased x t hsubmitted hreturned => ?_,
    fun t m => not_destroyed_of_touching (shape_of_reaches hdisciplined.tasksCall hrun)
      (lifecycle_of_reaches hdisciplined.tasksCall hrun)⟩
  · exact returned_fate hkind hguard hrun
      (taken_of_returned hdisciplined hfresh hrun hsubmitted hreturned)
  · rcases handles_of_step hdisciplined hfresh hrun hallowed hstep with
      hsame | ⟨t, p, e, hnext, hhandles⟩
    · exact .inl (hsame ▸ rfl)
    · rw [hnext]
      by_cases hplace : ∃ task m, e = .place task m
      · obtain ⟨task, m, rfl⟩ := hplace
        obtain ⟨hm, hslot⟩ := hhandles.slot_of_place
        refine .inr ⟨task, m, hm, rfl, hslot, ?_⟩
        simp [Pool.apply]
      · exact .inl (Pool.placed_apply (fun task m he => hplace ⟨task, m, he⟩) state.data)
  · rcases handles_of_step hdisciplined hfresh hrun hallowed hstep with
      hsame | ⟨t, p, e, hnext, hhandles⟩
    · exact .inl (hsame ▸ rfl)
    · rw [hnext, Pool.task_apply]
      rcases state.data.custody.slot_apply_cases e m with hkept | hcleared | ⟨task, rfl⟩
      · exact .inl hkept
      · exact .inr hcleared
      · exact absurd hhandles.slot_of_place.2 hslot
  · exact deleted_of_released hdisciplined hfresh hrun hreleased
      (taken_of_returned hdisciplined hfresh hrun hsubmitted hreturned)

/-- One task from the call of `execute` to the end of the destructor. -/
theorem direct_fate_released : ∃ state : PoolState,
    ThreadPool.Fate (Config.complete .threadPool 1) Contract state ∧
      state.data.log.released = true ∧ state.data.log.deleted = [7] := by
  let cfg := Config.complete .threadPool 1
  obtain ⟨state, hrun, hobserved⟩ : ∃ state : PoolState,
      Reaches cfg.program.step Contract cfg.initial state ∧
        (state.data.log.released, state.data.log.deleted) = (true, [7]) :=
    Reaches.of_observed (fun state action => decide (Contract state action))
      (PoolAction.steps (.worker 0) 2 ++
        PoolAction.call (.client 0) (.execute (some 7)) :: PoolAction.steps (.client 0) 7 ++
        PoolAction.steps (.worker 0) 2 ++ [PoolAction.finish 0] ++
        PoolAction.steps (.worker 0) 1 ++
        PoolAction.call (.client 1) .destroy :: PoolAction.steps (.client 1) 5 ++
        PoolAction.steps (.worker 0) 5 ++ PoolAction.steps (.client 1) 5)
      (fun _ _ => of_decide_eq_true) (by decide +kernel)
  simp only [Prod.mk.injEq] at hobserved
  exact ⟨state, direct_fate rfl (fun _ _ h => h) hrun, hobserved⟩

end Config

end ThreadPools.Posix
