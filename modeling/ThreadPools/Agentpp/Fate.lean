/-
# The fate of a task

A slot is filled only when it is empty, and the worker empties it only by deleting the task in
it. So a manager loses no task that it has accepted, however the pool is used: with or without
one-time execution, behind `terminate()`, and when tasks call the methods of the pool. In a
`QueuedThreadPool` a task that has entered `execute` gets to a manager through the queue and
the hands of the threads inside the dispatcher's monitor, and is not doubled on the way.
-/

import ThreadPools.Agentpp.Order
import ThreadPools.Agentpp.Worker

namespace ThreadPools.Agentpp

open ThreadPools.Concurrency

variable {cfg : Config} {state after : PoolState} {action : PoolAction} {m : ManagerId}
  {thread : Tid} {pool : Pool} {p : Point} {instr : Piece Point}

/-! ## The slot -/

/-- The log notes nothing new for the manager. -/
structure Pool.SameLog (m : ManagerId) (pool after : Pool) : Prop where
  handed : tasksOf m after.log.handed = tasksOf m pool.log.handed
  started : tasksOf m after.log.started = tasksOf m pool.log.started
  deleted : tasksOf m after.log.deleted = tasksOf m pool.log.deleted

theorem Pool.SameSlot.sameLog {after : Pool} (h : pool.SameSlot m after) : pool.SameLog m after :=
  ⟨h.handed, h.started, h.deleted⟩

/-- The worker comes to the end of its loop only when it has found `go` cleared. -/
def Stops (state after : PoolState) (m : ManagerId) : Prop :=
  after.pc (.worker m) = .worker .stopped →
    state.pc (.worker m) = .worker .stopped ∨ (state.data.managers m).go = false

/-- What a step can do to the slot of a manager. -/
inductive SlotStep (m : ManagerId) (state after : PoolState) : Prop
  /-- nothing, but maybe clear `go` -/
  | keeps (hslot : slotOf after m = slotOf state m) (hlog : state.data.SameLog m after.data)
      (hgo : (after.data.managers m).go = true → (state.data.managers m).go = true)
      (hruns : (after.pc (.worker m)).runs = (state.pc (.worker m)).runs)
      (hstops : Stops state after m)
  /-- a task is put into the empty slot -/
  | places (task : Option Runnable) (hempty : slotOf state m = none)
      (hdata : after.data = state.data.apply (.place task m))
      (hruns : (after.pc (.worker m)).runs = (state.pc (.worker m)).runs)
      (hstops : Stops state after m)
  /-- the worker begins to run the task -/
  | begins (hfull : (slotOf state m).isSome = true)
      (hidle : (state.pc (.worker m)).runs = false)
      (hruns : (after.pc (.worker m)).runs = true)
      (hdata : after.data = state.data.apply (.begin m))
  /-- the worker deletes the task that it has run, or that it will not run any more -/
  | deletes (hpoint : (state.pc (.worker m)).runs = true ∨
        state.pc (.worker m) = .worker .stopped)
      (hruns : (after.pc (.worker m)).runs = false)
      (hstopped : after.pc (.worker m) ≠ .worker .stopped)
      (hdata : after.data = state.data.apply (.delete m))

theorem SlotStep.of_sameSlot (hsame : state.data.SameSlot m after.data)
    (hruns : (after.pc (.worker m)).runs = (state.pc (.worker m)).runs)
    (hstops : Stops state after m) : SlotStep m state after := by
  refine .keeps (congrArg TaskManager.task hsame.manager) hsame.sameLog (fun hgo => ?_) hruns hstops
  rwa [← hsame.manager]

/-- A step of the worker in its own loop. -/
theorem TaskManager.Moves.slot {choice : Nat} {op : Op Tid MonitorId} {next : Point}
    {q : TaskManager.RunPoint Call} {piece : Piece (TaskManager.RunPoint Call)} {n : MonitorId}
    (h : TaskManager.Moves n m state.data q piece)
    (hpoint : state.pc (.worker m) = .worker q)
    (houtcome : cfg.program.Outcome state (.worker m) (piece.map .worker) op next) :
    SlotStep m state
      (cfg.program.advance state (.worker m) (piece.map .worker) op next choice) := by
  have hpc : (cfg.program.advance state (.worker m) (piece.map .worker) op next choice).pc
      (.worker m) = next :=
    TolerantProgram.advance_pc_self
  have hwalks (heffect : piece.effect = none) (hidle : (Point.worker q).runs = false)
      (hruns : next.runs = false)
      (hstops : next = .worker .stopped → q = .stopped ∨ (state.data.managers m).go = false) :
      SlotStep m state
        (cfg.program.advance state (.worker m) (piece.map .worker) op next choice) := by
    refine .of_sameSlot (Pool.behind_sameSlot fun e he => by cases heffect.symm.trans he) ?_ ?_
    · rw [hpc, hpoint, hruns, hidle]
    · intro hstopped
      rw [hpc] at hstopped
      rw [hpoint]
      exact (hstops hstopped).imp_left (congrArg Point.worker)
  cases h with
  | wait =>
      refine hwalks rfl rfl ?_ ?_ <;>
        rcases houtcome.next_cases with rfl | ⟨n, -, -, rfl⟩ <;> first | rfl | rintro ⟨⟩
  | stop hgo =>
      obtain rfl := houtcome.next_eq (by rintro n ⟨⟩)
      exact hwalks rfl rfl rfl fun _ => .inr hgo
  | inner p hp =>
      obtain rfl := houtcome.next_eq (by rintro n ⟨⟩)
      refine hwalks rfl rfl ?_ ?_ <;> simp only [Instr.map_next, hp] <;> split <;>
        first | rfl | rintro ⟨⟩
  | begin hfull =>
      obtain rfl := houtcome.next_eq (by rintro n ⟨⟩)
      refine .begins hfull (by rw [hpoint]; rfl) (by rw [hpc]; rfl) rfl
  | finish =>
      obtain rfl := houtcome.next_eq (by rintro n ⟨⟩)
      exact .deletes (.inl (by rw [hpoint]; rfl)) (by rw [hpc]; rfl) (by rw [hpc]; rintro ⟨⟩) rfl
  | discard effect heffect =>
      obtain rfl := houtcome.next_eq (by rintro n ⟨⟩)
      split at heffect
      · subst heffect
        exact .deletes (.inr hpoint) (by rw [hpc]; rfl) (by rw [hpc]; rintro ⟨⟩) rfl
      · exact hwalks heffect rfl rfl fun _ => .inl rfl
  | _ =>
      obtain rfl := houtcome.next_eq (by rintro n ⟨⟩)
      exact hwalks rfl rfl rfl (by rintro ⟨⟩)

/-- What a step does to the slot. -/
theorem slot_cases (m : ManagerId) (hsteps : cfg.program.Steps state action after) :
    SlotStep m state after := by
  cases hsteps with
  | spurious n sleeper hwaiting =>
      exact .keeps rfl ⟨rfl, rfl, rfl⟩ id rfl .inl
  | run thread input choice instr op next hcode houtcome =>
      have hother (hne : thread ≠ .worker m) :
          (cfg.program.advance state thread instr op next choice).pc (.worker m) =
            state.pc (.worker m) :=
        TolerantProgram.advance_pc_of_ne (Ne.symm hne)
      rcases (code_moves hcode).offers with
        ⟨hoffers, hinside⟩ | ⟨k, q, piece, rfl, hpoint, rfl, hown⟩
      · -- in a call the worker stays inside its task
        have hruns : ((cfg.program.advance state thread instr op next choice).pc
            (.worker m)).runs = (state.pc (.worker m)).runs ∧
            Stops state (cfg.program.advance state thread instr op next choice) m := by
          by_cases hself : thread = .worker m
          · subst hself
            have hpc : (cfg.program.advance state (.worker m) instr op next choice).pc
                (.worker m) = next :=
              TolerantProgram.advance_pc_self
            have hnext : next.runs = true := by
              rcases houtcome.next_cases with rfl | ⟨n, -, -, rfl⟩
              · exact (hinside m rfl).2
              · exact Point.runs_resumed (hinside m rfl).2
            refine ⟨by rw [hpc, hnext, (hinside m rfl).1], fun hstopped => ?_⟩
            rw [hpc] at hstopped
            cases hstopped ▸ hnext
          · exact ⟨congrArg Point.runs (hother hself),
              fun hstopped => .inl (hother hself ▸ hstopped)⟩
        cases heffect : instr.effect with
        | none =>
            exact .of_sameSlot (Pool.behind_sameSlot fun e he => by cases heffect.symm.trans he)
              hruns.1 hruns.2
        | some e =>
            have hdata : (cfg.program.advance state thread instr op next choice).data =
                state.data.apply e := by
              simp only [TolerantProgram.advance, heffect]
              rfl
            have haway (hmanager : e.manager ≠ some m) : SlotStep m state
                (cfg.program.advance state thread instr op next choice) :=
              .of_sameSlot (hdata ▸ Pool.apply_sameSlot hmanager) hruns.1 hruns.2
            rcases hoffers.effect e heffect with haside | ⟨task, n, rfl, -, hempty, -, -⟩
            · cases e with
              | stopManager n =>
                  by_cases hm : n = m
                  · subst hm
                    refine .keeps ?_ ?_ ?_ hruns.1 hruns.2
                    · simp [slotOf, hdata, Pool.apply, Pool.update]
                    · rw [hdata]
                      exact ⟨rfl, rfl, rfl⟩
                    · simp [hdata, Pool.apply, Pool.update]
                  · exact haway fun heq => hm (Option.some.inj heq)
              | place | begin | delete => cases haside
              | _ => exact haway (by rintro ⟨⟩)
            · by_cases hm : n = m
              · subst hm
                exact .places task hempty hdata hruns.1 hruns.2
              · exact haway fun heq => hm (Option.some.inj heq)
      · by_cases hm : k = m
        · subst hm
          exact hown.slot hpoint houtcome
        · have hpc := hother fun heq => hm (Tid.worker.inj heq)
          exact .of_sameSlot (hown.sameSlot hm) (congrArg Point.runs hpc)
            fun hstopped => .inl (hpc ▸ hstopped)

/-- What is known about the tasks a manager has accepted. -/
structure Keeps (state : PoolState) (m : ManagerId) : Prop where
  /-- a task that has been accepted is in the slot or has been deleted -/
  handed : tasksOf m state.data.log.handed =
    tasksOf m state.data.log.deleted ++ (slotOf state m).toList
  /-- the worker runs the task in the slot -/
  runs : (state.pc (.worker m)).runs = true → (slotOf state m).isSome = true
  /-- before that it has run tasks that have been deleted since, each of them once -/
  started : ∃ ended, tasksOf m state.data.log.started =
      ended ++ (if (state.pc (.worker m)).runs then (slotOf state m).toList else []) ∧
    ended.Sublist (tasksOf m state.data.log.deleted)
  /-- all of them, unless the manager has been stopped -/
  all : (state.data.managers m).go = true → tasksOf m state.data.log.started =
    tasksOf m state.data.log.deleted ++
      if (state.pc (.worker m)).runs then (slotOf state m).toList else []
  stopped : state.pc (.worker m) = .worker .stopped → (state.data.managers m).go = false

theorem Keeps.step (h : Keeps state m) (hstep : SlotStep m state after) : Keeps after m := by
  cases hstep with
  | keeps hslot hlog hgo hruns hstops =>
      refine ⟨?_, ?_, ?_, fun hafter => ?_, fun hstopped => ?_⟩
      · rw [hlog.handed, hlog.deleted, hslot]
        exact h.handed
      · rw [hruns, hslot]
        exact h.runs
      · rw [hlog.started, hlog.deleted, hruns, hslot]
        exact h.started
      · rw [hlog.started, hlog.deleted, hruns, hslot]
        exact h.all (hgo hafter)
      · refine Bool.eq_false_iff.mpr fun hafter => ?_
        rcases hstops hstopped with hbefore | hbefore
        · cases (hgo hafter).symm.trans (h.stopped hbefore)
        · cases (hgo hafter).symm.trans hbefore
  | places task hempty hdata hruns hstops =>
      have hidle : (state.pc (.worker m)).runs = false := by
        refine Bool.eq_false_iff.mpr fun hruns => ?_
        have hfull := h.runs hruns
        rw [hempty] at hfull
        cases hfull
      have hslot : slotOf after m = task := by simp [slotOf, hdata, Pool.apply, Pool.update]
      have hgo : (after.data.managers m).go = (state.data.managers m).go := by
        simp [hdata, Pool.apply, Pool.update]
      have hhanded := h.handed
      have hstarted := h.started
      have hall := h.all
      rw [hempty, Option.toList_none, List.append_nil] at hhanded
      rw [hidle] at hstarted hall
      refine ⟨?_, ?_, ?_, ?_, fun hstopped => ?_⟩
      · rw [hslot, hdata]
        simpa [Pool.apply] using hhanded
      · rw [hruns, hidle]
        rintro ⟨⟩
      · rw [hruns, hidle, hdata]
        exact hstarted
      · rw [hruns, hidle, hgo, hdata]
        exact hall
      · rw [hgo]
        exact (hstops hstopped).elim h.stopped id
  | begins hfull hidle hruns hdata =>
      have hstarted := h.started
      have hall := h.all
      rw [hidle] at hstarted hall
      obtain ⟨ended, hended, hsublist⟩ := hstarted
      have hslot : slotOf after m = slotOf state m := by simp [slotOf, hdata, Pool.apply]
      have hafter : tasksOf m after.data.log.started =
          tasksOf m state.data.log.started ++ (slotOf state m).toList := by
        simp [hdata, Pool.apply, Pool.held, slotOf]
      refine ⟨?_, fun _ => hslot ▸ hfull, ⟨ended, ?_, ?_⟩, fun hgo => ?_, fun hstopped => ?_⟩
      · rw [hslot, hdata]
        exact h.handed
      · rw [hafter, hended, hruns, hslot]
        simp
      · rw [hdata]
        exact hsublist
      · rw [hdata] at hgo
        rw [hafter, hall hgo, hruns, hslot, hdata]
        simp [Pool.apply]
      · rw [hstopped] at hruns
        cases hruns
  | deletes hpoint hruns hstopped hdata =>
      have hslot : slotOf after m = none := by simp [slotOf, hdata, Pool.apply, Pool.update]
      have hgo : (after.data.managers m).go = (state.data.managers m).go := by
        simp [hdata, Pool.apply, Pool.update]
      have hdeleted : tasksOf m after.data.log.deleted = tasksOf m state.data.log.handed := by
        rw [h.handed, hdata]
        simp [Pool.apply, Pool.held, slotOf]
      have hstarted : after.data.log.started = state.data.log.started := by rw [hdata]; rfl
      refine ⟨?_, ?_, ⟨tasksOf m state.data.log.started, ?_, ?_⟩, fun hafter => ?_,
        fun hpoint => absurd hpoint hstopped⟩
      · rw [hslot, hdeleted, hdata]
        simp [Pool.apply]
      · rw [hruns]
        rintro ⟨⟩
      · rw [hstarted, hruns]
        simp
      · obtain ⟨ended, hended, hsublist⟩ := h.started
        rw [hdeleted, hended, h.handed]
        refine hsublist.append ?_
        split
        · exact .refl _
        · exact List.nil_sublist _
      · rw [hgo] at hafter
        rcases hpoint with hpoint | hpoint
        · rw [hstarted, h.all hafter, hdeleted, h.handed, hpoint, hruns]
          simp
        · cases hafter.symm.trans (h.stopped hpoint)

/-! ## The way to a manager -/

/-- The tasks in a hand. -/
def Hand.tasks : Hand → List Runnable
  | .empty => []
  | .entering t | .offering t => t.toList
  | .dispatching t => [t]

@[simp] theorem Hand.tasks_empty : Hand.empty.tasks = [] := rfl

/-- The tasks in the hand of a thread. -/
def carried (hand : Option Hand) : List Runnable := hand.elim [] Hand.tasks

/-- The tasks that have entered `execute` with an effect, -/
def Effect.entered : Effect → List Runnable
  | .enter task => task.toList
  | _ => []

/-- that have been put into the queue or handed to a manager, -/
def Effect.stored : Effect → List Runnable
  | .add task | .place task _ => task.toList
  | _ => []

/-- and that have been taken from the queue. -/
def Effect.taken (pool : Pool) : Effect → List Runnable
  | .removeFirst => (pool.queue.head?.getD none).toList
  | _ => []

/-- The tasks in the queue, and those that have been handed to a manager. -/
def Pool.stored (pool : Pool) : List Runnable :=
  pool.log.handed.map Prod.fst ++ pool.queue.reduceOption

theorem Pool.apply_entered (e : Effect) :
    (pool.apply e).log.entered = pool.log.entered ++ e.entered := by
  cases e with
  | enter task => rfl
  | _ => exact (List.append_nil _).symm

theorem Pool.apply_stored (e : Effect) (x : Runnable) :
    (pool.apply e).stored.count x + (e.taken pool).count x =
      pool.stored.count x + e.stored.count x := by
  cases e with
  | add task =>
      simp only [stored, apply, Effect.taken, Effect.stored, List.reduceOption_append,
        List.reduceOption_singleton, List.count_append, List.count_nil]
      omega
  | place task m =>
      have hhanded : (task.toList.map fun x => (x, m)).map Prod.fst = task.toList := by
        cases task <;> rfl
      simp only [stored, apply, update, Effect.taken, Effect.stored, List.map_append, hhanded,
        List.count_append, List.count_nil]
      omega
  | removeFirst =>
      rcases hqueue : pool.queue with _ | ⟨_ | y, rest⟩ <;>
        simp [stored, apply, Effect.taken, Effect.stored, hqueue,
          List.reduceOption_cons_of_some, List.count_cons, Nat.add_assoc]
  | _ => rfl

/-- A piece of code puts what it takes into the hand of its thread, and stores what it takes
out of it. -/
def Carries {X : Type} (pool : Pool) (piece : Piece X) (before behind : List Runnable) : Prop :=
  ∀ x, behind.count x + (piece.effect.elim [] Effect.stored).count x =
    before.count x + (piece.effect.elim [] fun e => e.entered ++ e.taken pool).count x

theorem Carries.of_none {X : Type} {piece : Piece X} (heffect : piece.effect = none)
    (tasks : List Runnable) : Carries pool piece tasks tasks := by
  intro x
  rw [heffect]
  rfl

theorem Carries.of_aside {X : Type} {piece : Piece X}
    (heffect : ∀ e, piece.effect = some e → e.stored = [] ∧ e.entered = [] ∧ e.taken pool = []) :
    Carries pool piece [] [] := by
  intro x
  cases he : piece.effect with
  | none => rfl
  | some e =>
      obtain ⟨hstored, hentered, htaken⟩ := heffect e he
      simp [hstored, hentered, htaken]

variable {size : Nat} {t : Option Runnable}

theorem Scans.carries {p : ScanPoint} {piece : Piece (ScanPoint ⊕ Bool)}
    (h : Scans t pool p piece) :
    Carries pool piece t.toList (if piece.next = .inr true then [] else t.toList) := by
  cases h with
  | probe | enter => exact .of_none rfl _
  | leave m n p next hp hnext => rcases hnext with rfl | rfl | rfl <;> exact .of_none rfl _
  | place m =>
      intro x
      simp [Effect.stored, Effect.entered, Effect.taken]

variable (size t pool)

namespace QueuedThreadPool

theorem assign_carries (p : AssignPoint) :
    Carries pool (assign size t p pool) t.toList
      ((assign size t p pool).next.elim (fun _ => t.toList) fun _ => []) := by
  cases p with
  | search =>
      rcases ScanPoint.start_cases size 0 with hstart | hstart <;> simp only [assign, hstart] <;>
        exact .of_none rfl _
  | scan p =>
      have hscan := (scan_scans size t p pool).carries
      simp only [assign, Instr.map_next]
      rcases hnext : (scan size t p pool).next with q | _ | _ <;> rw [hnext] at hscan <;>
        exact hscan
  | add =>
      intro x
      simp [assign, Effect.stored, Effect.entered, Effect.taken]

theorem execute_carries (p : ExecutePoint) :
    Carries pool (execute size t p pool) (carried (p.hand t))
      (carried ((execute size t p pool).next.elim (ExecutePoint.hand t) fun _ => none)) := by
  cases p with
  | enter | add =>
      intro x
      simp [execute, carried, ExecutePoint.hand, Hand.tasks, Effect.stored, Effect.entered,
        Effect.taken]
  | test =>
      simp only [execute]
      split <;> exact .of_none rfl _
  | assign p =>
      have hassign := assign_carries pool size t p
      simp only [execute, Instr.map_next]
      rcases hnext : (assign size t p pool).next with q | _ <;> rw [hnext] at hassign <;>
        exact hassign
  | notify => exact .of_none rfl _

variable {size pool} in
theorem run_carries {p : RunPoint} {piece : Piece RunPoint} (hrun : run size p pool = some piece) :
    Carries pool piece (carried p.hand) (carried piece.next.hand) := by
  cases p with
  | loop =>
      simp only [run] at hrun
      split at hrun <;> cases hrun <;> exact .of_none rfl _
  | removeFirst =>
      cases hrun
      intro x
      rcases hqueue : pool.queue with _ | ⟨_ | y, rest⟩ <;>
        simp [RunPoint.removed, RunPoint.hand, carried, Hand.tasks, Effect.stored,
          Effect.entered, Effect.taken, hqueue]
  | assign y p =>
      cases hrun
      have hassign := assign_carries pool size (some y) p
      simp only [Instr.map_next]
      rcases hnext : (assign size (some y) p pool).next with q | _ <;> rw [hnext] at hassign <;>
        exact hassign
  | enter | woken | wait =>
      cases hrun
      exact .of_none rfl _
  | exited => cases hrun

end QueuedThreadPool

theorem Call.code_carries {c : Call} (hqueued : c.Queued) :
    Carries pool (c.code size pool) (carried c.hand)
      (carried ((c.code size pool).next.elim Call.hand fun _ => none)) := by
  cases c with
  | execute task p => cases hqueued
  | queuedExecute task p =>
      have hcarries := QueuedThreadPool.execute_carries pool size task p
      simp only [Call.code, Instr.map_next]
      rcases hnext : (QueuedThreadPool.execute size task p pool).next with q | _ <;>
        rw [hnext] at hcarries <;> exact hcarries
  | terminate p =>
      have heffect : ∀ e, (ThreadPool.terminate size p pool).effect = some e →
          e.stored = [] ∧ e.entered = [] ∧ e.taken pool = [] := by
        intro e he
        cases p with
        | stop m p =>
            cases p with
            | lock => cases he
            | body =>
                cases he
                exact ⟨rfl, rfl, rfl⟩
        | _ => cases he
      simp only [Call.code, Instr.map_next]
      rcases (ThreadPool.terminate size p pool).next with q | _ <;> exact .of_aside heffect
  | setOneTimeExecution singleExec | stop =>
      refine .of_aside fun e he => ?_
      cases he
      exact ⟨rfl, rfl, rfl⟩

variable {size t pool}

theorem Moves.carries (h : Moves cfg thread pool p instr)
    (hqueued : ∀ c, p.call = some c → c.Queued) :
    Carries pool instr (carried p.hand) (carried instr.next.hand) := by
  cases h with
  | call c =>
      have hcarries := Call.code_carries pool cfg.size (hqueued c (by simp))
      rw [Point.within_hand, Instr.map_next, Point.within_hand]
      exact hcarries
  | enter method c hentry =>
      have hhand : c.hand = none := by
        cases hkind : cfg.kind <;> rw [hkind] at hentry <;> cases method <;> cases hentry <;> rfl
      rw [Point.within_hand, Point.within_hand, Sum.elim_inl, hhand]
      exact .of_none rfl _
  | dispatcher p piece ht hrun => exact QueuedThreadPool.run_carries hrun
  | worker m p piece ht hmoves =>
      obtain ⟨hbefore, hafter, -⟩ := hmoves.queues
      rw [hbefore, Instr.map_next, hafter]
      refine .of_aside fun e he => ?_
      cases hmoves with
      | begin | finish =>
          cases he
          exact ⟨rfl, rfl, rfl⟩
      | discard effect heffect =>
          have he : effect = some e := he
          rw [heffect] at he
          split at he <;> cases he
          exact ⟨rfl, rfl, rfl⟩
      | _ => cases he

/-- Every task that has entered `execute` is stored or in a hand. -/
structure Accounted (state : PoolState) : Prop where
  inside : ∀ t, (state.pc t).hand.isSome = true → (state.monitor .dispatcher).owner = some t
  owner : ∀ t, (state.monitor .dispatcher).owner = some t → (state.pc t).hand.isSome = true
  tasks : ∀ x, state.data.log.entered.count x =
    state.data.stored.count x + (handOf state).tasks.count x

/-- The counts behind a piece of code. -/
theorem Carries.counts {X : Type} {piece : Piece X} {before behind : List Runnable}
    (h : Carries pool piece before behind) (x : Runnable) :
    (pool.behind piece).log.entered.count x + pool.stored.count x + before.count x =
      pool.log.entered.count x + (pool.behind piece).stored.count x + behind.count x := by
  have hcarries := h x
  unfold Pool.behind
  cases heffect : piece.effect with
  | none =>
      rw [heffect] at hcarries
      simpa using hcarries.symm
  | some e =>
      rw [heffect] at hcarries
      have hentered := congrArg (List.count x) (pool.apply_entered e)
      have hstored := pool.apply_stored e x
      simp only [Option.elim_some, List.count_append] at hcarries hentered ⊢
      omega

theorem Accounted.run (h : Accounted state) {choice : Nat} {op : Op Tid MonitorId} {next : Point}
    (hmoves : Moves cfg thread state.data (state.pc thread) instr)
    (houtcome : cfg.program.Outcome state thread instr op next)
    (hqueued : ∀ c, (state.pc thread).call = some c → c.Queued) (x : Runnable) :
    (state.data.behind instr).log.entered.count x = (state.data.behind instr).stored.count x +
      (handOf (cfg.program.advance state thread instr op next choice)).tasks.count x := by
  have hbefore := h.tasks x
  have hcounts := (hmoves.carries hqueued).counts x
  have hself : (cfg.program.advance state thread instr op next choice).pc thread = next :=
    TolerantProgram.advance_pc_self
  have hqueues := hmoves.queues
  generalize hhand : (state.pc thread).hand = hand, hbehind : instr.next.hand = behind
    at hqueues hcounts
  cases hqueues with
  | outside hop =>
      have hkept := houtcome.kept choice hop
      have hsame : handOf (cfg.program.advance state thread instr op next choice) =
          handOf state := by
        rw [handOf, handOf, hkept]
        cases howner : (state.monitor .dispatcher).owner with
        | none => rfl
        | some t =>
            have hne : t ≠ thread := by
              rintro rfl
              cases hhand ▸ h.owner t howner
            rw [Option.bind_some, Option.bind_some, TolerantProgram.advance_pc_of_ne hne]
      rw [hsame]
      simp only [carried, Option.elim_none, List.count_nil] at hcounts
      omega
  | enter held hop =>
      have hother : (state.monitor .dispatcher).owner ≠ some thread := fun howner => by
        cases hhand ▸ h.owner thread howner
      obtain ⟨hfree, rfl, howner⟩ := houtcome.entered choice hop hother
      rw [handOf_of_free hfree] at hbefore
      rw [handOf_of_owner howner (hself ▸ hbehind)]
      simp only [carried, Option.elim_none, Option.elim_some, Hand.tasks_empty, List.count_nil]
        at hcounts hbefore
      omega
  | inside held target hop =>
      have howner := h.inside thread (by rw [hhand]; rfl)
      rw [handOf_of_owner howner hhand] at hbefore
      -- the thread does not wait: in this monitor it could wait on no other
      have hnext : next = instr.next := by
        rcases houtcome.next_cases with hnext | ⟨n, hwait, -, -⟩
        · exact hnext
        · rcases hmoves.of_wait hwait with
            ⟨-, task, hpoint, -⟩ | ⟨rfl, -, -⟩ | ⟨m, -, -, hpoint, -⟩
          · rw [hpoint, Point.within_hand] at hhand
            cases hhand
          · exact absurd hwait hop.2.2
          · rw [hpoint] at hhand
            cases hhand
      have howned := (houtcome.kept choice hop).trans howner
      rw [handOf_of_owner howned (by rw [hself, hnext, hbehind])]
      simp only [carried, Option.elim_some] at hcounts
      omega
  | leave held hop =>
      have howner := h.inside thread (by rw [hhand]; rfl)
      rw [handOf_of_owner howner hhand] at hbefore
      rw [handOf_of_free (houtcome.left choice hop howner).2]
      simp only [carried, Option.elim_none, Option.elim_some, Hand.tasks_empty, List.count_nil]
        at hcounts ⊢
      omega

theorem Accounted.step (h : Accounted state) (hqueued : AllQueued state)
    (hsteps : cfg.program.Steps state action after) : Accounted after := by
  refine ⟨(dispatcher_enteredBy cfg).owner h.inside hsteps,
    (dispatcher_leftBy cfg).inside h.owner hsteps, fun x => ?_⟩
  cases hsteps with
  | run thread input choice instr op next hcode houtcome =>
      exact h.run (code_moves hcode) houtcome (hqueued thread) x
  | spurious m sleeper hwaiting =>
      have hsame : handOf { state with
          monitor := Function.update state.monitor m
            ((state.monitor m).wakeSpuriously sleeper) } = handOf state := by
        simp only [handOf, TolerantProgram.wakeSpuriously_owner]
      rw [hsame]
      exact h.tasks x

/-! ## Every run -/

variable {guard : PoolState → PoolAction → Prop}

theorem keeps_of_reaches (hrun : Reaches cfg.program.step guard cfg.initial state)
    (m : ManagerId) : Keeps state m := by
  refine hrun.invariant ?_ fun _ _ _ (h : Keeps _ m) _ hstep =>
    h.step (slot_cases m (TolerantProgram.step_cases hstep))
  have hruns : (cfg.initialPoint (.worker m)).runs = false := by
    simp only [Config.initialPoint]
    split <;> rfl
  refine ⟨rfl, ?_, ⟨[], ?_, .refl _⟩, fun _ => ?_, ?_⟩
  · rw [Config.initial, hruns]
    rintro ⟨⟩
  · simp only [Config.initial, hruns]
    rfl
  · simp only [Config.initial, hruns]
    rfl
  · simp only [Config.initial, Config.initialPoint]
    split <;> rintro ⟨⟩

theorem accounted_of_reaches (hkind : cfg.kind = .queuedThreadPool)
    (hrun : Reaches cfg.program.step guard cfg.initial state) : Accounted state := by
  refine hrun.invariant_of AllQueued (fun _ => allQueued_of_reaches hkind)
    ⟨fun t ht => ?_, nofun, fun _ => rfl⟩ fun _ _ _ hqueued h _ hstep =>
      h.step hqueued (TolerantProgram.step_cases hstep)
  rw [Config.initial, (initialPoint_outside t).1] at ht
  cases ht

/-- What has become of the tasks of a pool. -/
structure Fate (cfg : Config) (state : PoolState) : Prop where
  /-- a task that has entered the `execute` of a `QueuedThreadPool` has been handed to a
  manager, or it is in the queue, or in the hand of the thread inside the monitor -/
  entered : cfg.kind = .queuedThreadPool → state.data.log.entered.Perm
    (state.data.log.handed.map Prod.fst ++ state.data.queue.reduceOption ++ (handOf state).tasks)
  /-- a task that has been handed to a manager is in its slot, or has been deleted -/
  handed : ∀ m, tasksOf m state.data.log.handed =
    tasksOf m state.data.log.deleted ++ (slotOf state m).toList
  /-- it has been run at most once -/
  once : ∀ m, (tasksOf m state.data.log.started).Sublist (tasksOf m state.data.log.handed)
  /-- exactly once, when it has been deleted before somebody has stopped the manager -/
  started : ∀ m, (state.data.managers m).go = true → tasksOf m state.data.log.started =
    tasksOf m state.data.log.deleted ++
      if (state.pc (.worker m)).runs then (slotOf state m).toList else []
  /-- it is not deleted while it runs -/
  running : ∀ m, (state.pc (.worker m)).runs = true →
    ∃ x, slotOf state m = some x ∧ (tasksOf m state.data.log.started).getLast? = some x

theorem Keeps.once (h : Keeps state m) :
    (tasksOf m state.data.log.started).Sublist (tasksOf m state.data.log.handed) := by
  obtain ⟨ended, hended, hsublist⟩ := h.started
  rw [hended, h.handed]
  refine hsublist.append ?_
  split
  · exact .refl _
  · exact List.nil_sublist _

theorem Keeps.running (h : Keeps state m) (hruns : (state.pc (.worker m)).runs = true) :
    ∃ x, slotOf state m = some x ∧ (tasksOf m state.data.log.started).getLast? = some x := by
  obtain ⟨x, hx⟩ := Option.isSome_iff_exists.mp (h.runs hruns)
  obtain ⟨ended, hended, -⟩ := h.started
  refine ⟨x, hx, ?_⟩
  rw [hended, hruns, hx]
  simp

/-- In every run of a pool of either kind, with any number of clients, with tasks that call the
methods of the pool, with one-time execution or without, with `stop()` and `terminate()`, no
task is lost, overwritten, run twice or deleted twice. -/
theorem tasks_kept (hrun : Reaches cfg.program.step guard cfg.initial state) : Fate cfg state where
  entered hkind := by
    refine List.perm_iff_count.mpr fun x => ?_
    rw [List.count_append]
    exact (accounted_of_reaches hkind hrun).tasks x
  handed m := (keeps_of_reaches hrun m).handed
  once m := (keeps_of_reaches hrun m).once
  started m := (keeps_of_reaches hrun m).all
  running m := (keeps_of_reaches hrun m).running

/-- The pool is terminated before the worker has looked at its first task: the task is deleted
without having been run. -/
theorem tasks_kept_terminated : ∃ state : PoolState,
    (state.data.log.entered, state.data.log.started, state.data.log.deleted) =
      ([1], [], [(1, 0)]) ∧ Fate (Config.complete .queuedThreadPool 1) state := by
  let actions : List PoolAction :=
    PoolAction.call (.client 0) (.execute (some 1)) :: PoolAction.steps (.client 0) 8 ++
    PoolAction.call (.client 0) .terminate :: PoolAction.steps (.client 0) 5 ++
    PoolAction.steps (.worker 0) 4
  obtain ⟨state, hrun, hobserved⟩ : ∃ state : PoolState,
      Reaches (Config.complete .queuedThreadPool 1).program.step (fun _ _ => True)
        (Config.complete .queuedThreadPool 1).initial state ∧
        (state.data.log.entered, state.data.log.started, state.data.log.deleted) =
          ([1], [], [(1, 0)]) :=
    Reaches.of_observed (fun _ _ => true) actions (fun _ _ _ => trivial) (by decide +kernel)
  exact ⟨state, hobserved, tasks_kept hrun⟩

end ThreadPools.Agentpp
