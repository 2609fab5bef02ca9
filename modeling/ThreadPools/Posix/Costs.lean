/-
# What the threads of a pool still cost

Every thread of a pool that is not shut down is at a bounded distance from its next sleep, as
long as nobody wakes it and no task arrives. A task in the queue, in a slot, or on its way to
one of them is worth the steps of the threads that are still going to be woken because of it.
So every thread pays for its steps, and for what a step gives to another thread.
-/

import ThreadPools.Posix.Progress
import ThreadPools.Posix.WakeUps

namespace ThreadPools.Posix

open ThreadPools.Concurrency

/-! ## Prices -/

/-- No thread is farther from its next sleep. -/
def Config.limit (size : Nat) : Nat := 4 * size + 6

/-- The price of a task in a slot: its end wakes a thread. -/
def Config.slotPrice (size : Nat) : Nat := limit size + 1

/-- The price of a task in the queue: it is placed, and the dispatcher goes on. -/
def Config.queuePrice (size : Nat) : Nat := 2 * limit size + slotPrice size

/-- The price of a task that is to be accepted: the dispatcher or a worker is woken. -/
def Config.taskPrice (size : Nat) : Nat := limit size + queuePrice size

/-- What a step gives to another thread. -/
def Effect.gain (size : Nat) : Option Effect → Nat
  | some (.push _) => Config.limit size + Config.queuePrice size
  | some (.place _ _) => Config.limit size + Config.slotPrice size
  | some (.finish _) => Config.limit size
  | _ => 0

/-- Whether a step is paid for by its thread. -/
def Input.paid : Input → Nat
  | .call _ => 0
  | _ => 1

/-- What a call brings in. -/
def Input.charge (size : Nat) : Input → Nat
  | .call _ => Config.limit size + Config.taskPrice size
  | _ => 0

/-! ## Distances -/

namespace ThreadPool

/-- The steps of `execute` to its return or its next sleep. -/
def ExecutePoint.distance (size : Nat) (asleep : Bool) : ExecutePoint → Nat
  | .enter => 4 * size + 3
  | .test => 4 * size + 2
  | .scan p => p.left + 1
  | .placed => 1
  | .failed => 1
  | .woken => if asleep then 0 else 4 * size + 3

/-- The steps of `is_idle` and `is_busy` to their return. -/
def CheckPoint.distance (size : Nat) : CheckPoint → Nat
  | .enter => 2 * size + 3
  | .test => 2 * size + 2
  | .probe _ rest .lock => 2 * rest.length + 3
  | .probe _ rest .body => 2 * rest.length + 2
  | .leave _ => 1

end ThreadPool

/-- The steps of a critical section. -/
def Section.distance : Section → Nat
  | .lock => 2
  | .body => 1

namespace QueuedThreadPool

def CheckPoint.distance (size : Nat) : CheckPoint → Nat
  | .enter => 2 * size + 6
  | .test => 2 * size + 5
  | .base p => p.distance size + 1
  | .leave _ => 1

/-- The steps of the dispatcher to its next sleep, or to the removal of the next task. -/
def RunPoint.distance (size : Nat) (asleep : Bool) (queue : List (Option Runnable)) :
    RunPoint → Nat
  | .add p => 4 * size + 4 + p.distance
  | .enter => 4 * size + 4
  | .outer => if queue.isEmpty then 2 else 4 * size + 3
  | .inner _ => 4 * size + 2
  | .assign _ p => p.left + 1
  | .assigned _ => 4 * size + 4
  | .unassigned _ => 1
  | .wokenInner _ => if asleep then 0 else 4 * size + 3
  | .idle => if queue.isEmpty then 1 else 4 * size + 5
  | .wokenIdle =>
      if asleep then 0 else if queue.isEmpty then 2 else 4 * size + 6
  | .again => if queue.isEmpty then 3 else 4 * size + 4
  | .remove p => p.distance
  | .exited => 0

end QueuedThreadPool

/-- The steps of a worker to its next sleep, or to the end of its task. -/
def TaskManager.RunPoint.distance {C : Type} (asleep occupied : Bool) :
    TaskManager.RunPoint C → Nat
  | .add p => 3 + p.distance
  | .enter => 3
  | .loop => 2
  | .running _ => 1
  | .inner => if occupied then 3 else 1
  | .woken => if asleep then 0 else 4
  | .remove p => p.distance
  | .exited => 0

namespace Call

/-- The steps of a call to its return or its next sleep. -/
def distance (size : Nat) (asleep : Bool) : Call → Nat
  | .execute _ p => p.distance size asleep
  | .isIdle p | .isBusy p => p.distance size
  | .queuedExecute _ p | .queueLength p => p.distance
  | .queuedIsIdle p | .queuedIsBusy p => p.distance size
  | _ => 0

/-- The call has still to hand its task over. -/
def owes : Call → Bool
  | .execute _ .placed => false
  | .execute _ _ => true
  | .queuedExecute _ _ => true
  | _ => false

/-- What a call still costs. -/
def cost (size : Nat) (asleep : Bool) (call : Call) : Nat :=
  call.distance size asleep + if call.owes then Config.taskPrice size else 0

end Call

/-- What the dispatcher still costs. -/
def QueuedThreadPool.RunPoint.cost (size : Nat) (asleep : Bool) (queue : List (Option Runnable))
    (p : RunPoint) : Nat :=
  p.distance size asleep queue + Config.queuePrice size * (p.waiting queue).length

/-- What a worker still costs. -/
def TaskManager.RunPoint.cost {C : Type} (size : Nat) (asleep : Bool)
    (slot : Option Runnable) (p : RunPoint C) : Nat :=
  p.distance asleep slot.isSome + if slot.isSome then Config.slotPrice size else 0

/-- What a thread still costs. -/
def Point.cost (size : Nat) (asleep : Bool) (pool : Pool) : Tid → Point → Nat
  | _, .client call => call.elim 0 (Call.cost size asleep)
  | .dispatcher, .dispatcher p => p.cost size asleep pool.queue
  | .worker m, .worker p => p.cost size asleep (pool.managers m).task
  | _, _ => 0

/-! ## A thread pays for its steps -/

/-- The piece of code ends in a sleep. -/
def sleeps : Op Tid MonitorId → Bool
  | .wait _ => true
  | _ => false

theorem ScanPoint.left_pos (p : ScanPoint) : 0 < p.left := by
  cases p with
  | isIdle m rest p => cases p <;> exact Nat.succ_pos _
  | setTask m rest p => cases p <;> exact Nat.succ_pos _

/-- What a call costs behind its next piece of code. -/
def Call.costAfter (size : Nat) (pool : Pool) (call : Call) : Nat :=
  (call.code pool).next.elim (cost size (sleeps (call.code pool).op)) fun _ => 0

theorem scan_not_sleeps (t : Option Runnable) (p : ScanPoint) (pool : Pool) :
    sleeps (scan t p pool).op = false := by
  have hmoves := scan_moves t p pool
  generalize scan t p pool = piece at hmoves
  cases hmoves <;> rfl

theorem scan_effect (t : Option Runnable) (p : ScanPoint) (pool : Pool) :
    (scan t p pool).effect = none ∧ (scan t p pool).next ≠ .inr true ∨
      ∃ m, (scan t p pool).effect = some (.place t m) ∧ (scan t p pool).next = .inr true := by
  have hmoves := scan_moves t p pool
  generalize scan t p pool = piece at hmoves
  cases hmoves with
  | taken m => exact .inr ⟨m, rfl, rfl⟩
  | busy m rest | refused m rest =>
      exact .inl ⟨rfl, QueuedThreadPool.RunPoint.start_ne_taken rest⟩
  | _ => exact .inl ⟨rfl, nofun⟩

namespace ThreadPool

/-- The loop over the managers comes nearer to its end. -/
theorem ExecutePoint.distance_scanned (size : Nat) (asleep : Bool) {t : Option Runnable}
    {p : ScanPoint} {pool : Pool} (hnext : (Posix.scan t p pool).next ≠ .inr true) :
    (scanned (Posix.scan t p pool).next).distance size asleep + 1 ≤ p.left + 1 := by
  cases hplace : (Posix.scan t p pool).next with
  | inl q => exact Nat.succ_le_succ (QueuedThreadPool.scan_left hplace)
  | inr taken =>
      cases taken with
      | true => exact absurd hplace hnext
      | false => exact Nat.succ_le_succ p.left_pos

theorem ExecutePoint.distance_start (size : Nat) (asleep : Bool) (rest : List ManagerId) :
    (scanned (ScanPoint.start rest)).distance size asleep ≤ 4 * rest.length + 1 := by
  cases hstart : ScanPoint.start rest with
  | inl p => exact Nat.succ_le_succ (QueuedThreadPool.ScanPoint.left_start hstart)
  | inr taken => cases rest <;> cases hstart; exact Nat.le_add_left _ _

theorem cost_scanned {task : Option Runnable} {place : ScanPoint ⊕ Bool} {size : Nat}
    {asleep : Bool} (hplace : place ≠ .inr true) :
    (Call.execute task (.scanned place)).cost size asleep =
      (ExecutePoint.scanned place).distance size asleep + Config.taskPrice size := by
  rcases place with p | taken
  · rfl
  · cases taken with
    | true => exact absurd rfl hplace
    | false => rfl

theorem execute_cost (task : Option Runnable) (p : ExecutePoint) (pool : Pool) :
    (Call.execute task p).costAfter pool.taskList.length pool +
      Effect.gain pool.taskList.length ((Call.execute task p).code pool).effect + 1 ≤
      (Call.execute task p).cost pool.taskList.length false := by
  cases p with
  | enter | placed | failed | woken =>
      simp only [Call.costAfter, sleeps, Call.code, Call.piece, Instr.map, execute, Sum.elim_inl,
        Sum.elim_inr, Function.comp_apply, Call.cost, Call.distance, ExecutePoint.distance,
        Call.owes, ↓reduceIte, Bool.false_eq_true, Effect.gain]
      omega
  | test =>
      have hle := ExecutePoint.distance_start pool.taskList.length false pool.taskList
      have hcost : (Call.execute task .test).cost pool.taskList.length false =
          4 * pool.taskList.length + 2 + Config.taskPrice pool.taskList.length := rfl
      rw [hcost]
      simp only [Call.costAfter, Call.code, Call.piece, execute]
      split
      · simp [Instr.map, Effect.gain]
        omega
      · simp only [Instr.map, Sum.elim_inl, Function.comp_apply, sleeps,
          cost_scanned (QueuedThreadPool.RunPoint.start_ne_taken pool.taskList), Effect.gain]
        omega
  | scan p =>
      have hpos := p.left_pos
      have hcost : (Call.execute task (.scan p)).cost pool.taskList.length false =
          p.left + 1 + Config.taskPrice pool.taskList.length := rfl
      rw [hcost]
      simp only [Call.costAfter, Call.code, Call.piece, execute, Instr.map, Sum.elim_inl,
        Function.comp_apply, scan_not_sleeps task p pool]
      rcases scan_effect task p pool with ⟨heffect, hnext⟩ | ⟨m, heffect, hnext⟩
      · have hle := ExecutePoint.distance_scanned pool.taskList.length false hnext
        rw [cost_scanned hnext, heffect]
        simp only [Effect.gain]
        omega
      · have hplaced : (Call.execute task (.scanned (.inr true))).cost pool.taskList.length
            false = 1 := rfl
        rw [heffect, hnext, hplaced]
        simp only [Effect.gain, Config.taskPrice, Config.queuePrice]
        omega

theorem CheckPoint.distance_next (atEnd : Bool) (size : Nat) (rest : List ManagerId) :
    (next atEnd rest).distance size ≤ 2 * rest.length + 1 := by
  cases rest with
  | nil => exact Nat.le_refl 1
  | cons m rest =>
      simp only [next, distance, List.length_cons]
      omega

/-- `is_idle` and `is_busy` come nearer to their return. -/
theorem check_distance (onEmpty onBusy atEnd : Bool) (p : CheckPoint) (pool : Pool) :
    ((check onEmpty onBusy atEnd p pool).next.elim (CheckPoint.distance pool.taskList.length)
      fun _ => 0) + 1 ≤ p.distance pool.taskList.length := by
  cases p with
  | enter | leave => simp [check, CheckPoint.distance]
  | test =>
      have hle := CheckPoint.distance_next atEnd pool.taskList.length pool.taskList
      have hdistance : CheckPoint.test.distance pool.taskList.length =
          2 * pool.taskList.length + 2 := rfl
      rw [hdistance]
      simp only [check]
      split
      · exact Nat.le_add_left _ _
      · exact Nat.succ_le_succ hle
  | probe m rest p =>
      cases p with
      | lock => exact Nat.le_refl _
      | body =>
          have hle := CheckPoint.distance_next atEnd pool.taskList.length rest
          have hdistance : (CheckPoint.probe m rest .body).distance pool.taskList.length =
              2 * rest.length + 2 := rfl
          rw [hdistance]
          simp only [check, TaskManager.isIdle, Instr.map, Sum.elim_inr, Sum.elim_inl]
          split
          · exact Nat.succ_le_succ hle
          · exact Nat.le_add_left _ _

end ThreadPool

namespace QueuedThreadPool

theorem check_distance (result : Bool → Bool) (p : CheckPoint) (pool : Pool) :
    ((check result p pool).next.elim (CheckPoint.distance pool.taskList.length) fun _ => 0) + 1 ≤
      p.distance pool.taskList.length := by
  cases p with
  | enter | leave => simp [check, CheckPoint.distance]
  | test =>
      simp only [check]
      split <;> simp [CheckPoint.distance, ThreadPool.CheckPoint.distance]
  | base p =>
      have hle : ((ThreadPool.isIdle p pool).next.elim _ _) + 1 ≤ _ :=
        ThreadPool.check_distance false false true p pool
      simp only [check, Instr.map]
      cases hnext : (ThreadPool.isIdle p pool).next with
      | inl q =>
          rw [hnext] at hle
          exact Nat.succ_le_succ hle
      | inr idle =>
          rw [hnext] at hle
          exact Nat.succ_le_succ hle

end QueuedThreadPool

/-- The observers neither sleep nor hand anything over. -/
theorem Call.elim_piece {Q R : Type} {embed : Q → Call} {distance : Q → Nat} {size : Nat}
    {asleep : Bool} (hcost : ∀ q, (embed q).cost size asleep = distance q)
    (body : Piece (Q ⊕ R)) :
    ((piece embed body).next.elim (cost size asleep) fun _ => 0) =
      body.next.elim distance fun _ => 0 := by
  rcases hnext : body.next with q | r
  · simp [piece, Instr.map, hnext, hcost]
  · simp [piece, Instr.map, hnext]

/-- A call pays for each of its steps. -/
theorem Call.cost_lt {call : Call} (h : call.Harmless) (pool : Pool) :
    call.costAfter pool.taskList.length pool +
      Effect.gain pool.taskList.length (call.code pool).effect + 1 ≤
      call.cost pool.taskList.length false := by
  cases call with
  | execute task p => exact ThreadPool.execute_cost task p pool
  | isIdle p =>
      have heffect : ((Call.isIdle p).code pool).effect = none :=
        ThreadPool.check_effect _ _ _ p pool
      rw [heffect, costAfter]
      refine (congrArg (· + 0 + 1) (elim_piece (fun _ => rfl) _)).trans_le ?_
      exact ThreadPool.check_distance _ _ _ p pool
  | isBusy p =>
      have heffect : ((Call.isBusy p).code pool).effect = none :=
        ThreadPool.check_effect _ _ _ p pool
      rw [heffect, costAfter]
      refine (congrArg (· + 0 + 1) (elim_piece (fun _ => rfl) _)).trans_le ?_
      exact ThreadPool.check_distance _ _ _ p pool
  | queuedExecute task p =>
      cases p with
      | lock =>
          simp only [costAfter, sleeps, code, piece, Instr.map, QueuedThreadPool.execute,
            Sum.elim_inl, Function.comp_apply, cost, distance, Section.distance, owes,
            ↓reduceIte, Effect.gain]
          omega
      | body =>
          simp only [costAfter, code, piece, QueuedThreadPool.execute]
          split <;>
            simp only [Instr.map, Sum.elim_inr, Effect.gain, cost, distance, Section.distance,
              owes, ↓reduceIte, Config.taskPrice] <;> omega
  | queuedIsIdle p =>
      have heffect : ((Call.queuedIsIdle p).code pool).effect = none :=
        QueuedThreadPool.check_effect _ p pool
      rw [heffect, costAfter]
      refine (congrArg (· + 0 + 1) (elim_piece (fun _ => rfl) _)).trans_le ?_
      exact QueuedThreadPool.check_distance _ p pool
  | queuedIsBusy p =>
      have heffect : ((Call.queuedIsBusy p).code pool).effect = none :=
        QueuedThreadPool.check_effect _ p pool
      rw [heffect, costAfter]
      refine (congrArg (· + 0 + 1) (elim_piece (fun _ => rfl) _)).trans_le ?_
      exact QueuedThreadPool.check_distance _ p pool
  | queueLength p =>
      cases p <;>
        simp [costAfter, code, piece, QueuedThreadPool.queueLength, Instr.map, cost, distance,
          Section.distance, owes, Effect.gain, sleeps]
  | terminate | queuedTerminate => exact absurd rfl h.1
  | destroy | queuedDestroy => exact absurd rfl h.2

/-- No call costs more than the way to a sleep and the price of a task. -/
theorem Call.cost_entry {kind : Kind} {method : Method} {call : Call}
    (h : entry kind method = some call) (size : Nat) (asleep : Bool) :
    call.cost size asleep ≤ Config.limit size + Config.taskPrice size := by
  cases kind <;> cases method <;> cases h <;>
    simp [cost, distance, owes, ThreadPool.ExecutePoint.distance, ThreadPool.CheckPoint.distance,
      QueuedThreadPool.CheckPoint.distance, Section.distance, Config.limit] <;> omega

namespace QueuedThreadPool

variable {p q : RunPoint} {pool : Pool} {size : Nat} {asleep : Bool}

theorem RunPoint.cost_lt_of_distance (queue : List (Option Runnable))
    (hwaiting : q.waiting queue = p.waiting queue)
    (hdistance : q.distance size asleep queue < p.distance size false queue) :
    q.cost size asleep queue + 0 + 1 ≤ p.cost size false queue := by
  unfold cost
  rw [hwaiting]
  omega

/-- The loop over the managers comes nearer to its end. -/
theorem distance_scanned {t : Runnable} {scan : ScanPoint} (queue : List (Option Runnable))
    (hnext : (assign t scan pool).next ≠ .inr true) :
    (RunPoint.scanned t (assign t scan pool).next).distance size asleep queue <
      scan.left + 1 := by
  cases hplace : (assign t scan pool).next with
  | inl q => exact Nat.succ_lt_succ (scan_left hplace)
  | inr taken =>
      cases taken with
      | true => exact absurd hplace hnext
      | false => exact Nat.succ_lt_succ scan.left_pos

theorem distance_start {t : Runnable} {queue : List (Option Runnable)}
    (rest : List ManagerId) :
    (RunPoint.scanned t (ScanPoint.start rest)).distance size asleep queue <
      4 * rest.length + 2 := by
  cases hstart : ScanPoint.start rest with
  | inl p => exact Nat.lt_succ_of_le (Nat.succ_le_succ (ScanPoint.left_start hstart))
  | inr taken => cases rest <;> cases hstart; exact Nat.lt_add_left _ Nat.one_lt_two

/-- The dispatcher pays for each of its steps. -/
theorem Moves.cost_lt {piece : Piece RunPoint} (hmoves : Moves pool p piece)
    (hgo : pool.go = true) (htasks : none ∉ pool.queue)
    (hfront : ∀ t, p.front = some t → pool.queue.head? = some t) :
    piece.next.cost pool.taskList.length (sleeps piece.op) (piece.after pool).queue +
      Effect.gain pool.taskList.length piece.effect + 1 ≤
      p.cost pool.taskList.length false pool.queue := by
  cases hmoves with
  | add p | remove p =>
      cases p <;>
        simp only [ThreadList.add, ThreadList.remove, Instr.map, Sum.elim_inl, Sum.elim_inr,
          RunPoint.cost, RunPoint.distance, RunPoint.waiting, Section.distance, Effect.gain,
          Piece.after, Pool.apply] <;> omega
  | enter =>
      refine RunPoint.cost_lt_of_distance pool.queue rfl ?_
      simp only [RunPoint.distance]
      split <;> omega
  | front _ hqueue =>
      refine RunPoint.cost_lt_of_distance pool.queue rfl ?_
      simp [RunPoint.distance, hqueue]
  | drained h =>
      have hqueue : pool.queue = [] := h.resolve_left (by simp [hgo])
      refine RunPoint.cost_lt_of_distance pool.queue rfl ?_
      simp [RunPoint.distance, hqueue]
  | offer t =>
      refine RunPoint.cost_lt_of_distance pool.queue ?_ (distance_start pool.taskList)
      exact RunPoint.waiting_eq (RunPoint.scanned_ne_assigned (RunPoint.start_ne_taken _)) _
  | withdraw t h =>
      rcases h with hstopped | rfl
      · cases hgo.symm.trans hstopped
      · exact absurd (List.mem_of_head? (hfront none rfl)) htasks
  | assign t p =>
      have hqueue : ((QueuedThreadPool.assign t p pool).after pool).queue = pool.queue :=
        (scan_after (some t) p pool).1
      have hsleeps : sleeps (QueuedThreadPool.assign t p pool).op = false :=
        scan_not_sleeps (some t) p pool
      rw [Piece.after_map, Instr.map_next, Instr.map_op, Instr.map_effect, hqueue, hsleeps]
      rcases scan_effect (some t) p pool with ⟨heffect, hnext⟩ | ⟨m, heffect, hnext⟩
      · have heffect : (QueuedThreadPool.assign t p pool).effect = none := heffect
        rw [heffect]
        refine RunPoint.cost_lt_of_distance pool.queue ?_ (distance_scanned pool.queue hnext)
        exact RunPoint.waiting_eq (RunPoint.scanned_ne_assigned hnext) _
      · have heffect :
            (QueuedThreadPool.assign t p pool).effect = some (.place (some t) m) := heffect
        have hnext : (QueuedThreadPool.assign t p pool).next = .inr true := hnext
        obtain ⟨rest, hrest⟩ := List.head?_eq_some_iff.mp (hfront (some t) rfl)
        rw [heffect, hnext, hrest]
        simp only [RunPoint.scanned, RunPoint.cost, RunPoint.distance, RunPoint.waiting,
          List.tail_cons, List.length_cons, Nat.mul_succ, Effect.gain, Config.queuePrice,
          Config.limit]
        omega
  | pop t =>
      show RunPoint.outer.cost pool.taskList.length false pool.queue.tail + 0 + 1 ≤ _
      simp only [RunPoint.cost, RunPoint.distance, RunPoint.waiting]
      split <;> omega
  | waitInner t | wokenInner t =>
      refine RunPoint.cost_lt_of_distance pool.queue rfl ?_
      simp [RunPoint.distance, sleeps]
  | waitIdle _ hqueue =>
      refine RunPoint.cost_lt_of_distance pool.queue rfl ?_
      simp [RunPoint.distance, sleeps, hqueue]
  | busy h =>
      have hqueue : pool.queue ≠ [] := h.resolve_left (by simp [hgo])
      refine RunPoint.cost_lt_of_distance pool.queue rfl ?_
      simp [RunPoint.distance, hqueue]
  | wokenIdle | again | leave =>
      refine RunPoint.cost_lt_of_distance pool.queue rfl ?_
      simp only [RunPoint.distance, Section.distance]
      split <;> simp

end QueuedThreadPool

theorem TaskManager.RunPoint.cost_lt_of_distance {C : Type} {p q : RunPoint C} {size : Nat}
    {asleep : Bool} (slot : Option Runnable)
    (h : q.distance asleep slot.isSome < p.distance false slot.isSome) :
    q.cost size asleep slot + 0 + 1 ≤ p.cost size false slot := by
  unfold cost
  omega

/-- A worker pays for each of its steps. -/
theorem TaskManager.Moves.cost_lt {C : Type} {note : MonitorId} {m : ManagerId} {pool : Pool}
    {p : RunPoint C} {piece : Piece (RunPoint C)} (hmoves : Moves note m pool p piece)
    (hgo : (pool.managers m).go = true)
    (hrunning : p = .running none → (pool.managers m).task ≠ none) (size : Nat) :
    piece.next.cost size (sleeps piece.op) ((piece.after pool).managers m).task +
      Effect.gain size piece.effect + 1 ≤ p.cost size false (pool.managers m).task := by
  cases hmoves with
  | add p =>
      cases p <;> exact RunPoint.cost_lt_of_distance (pool.managers m).task (Nat.lt_succ_self _)
  | remove p =>
      cases p <;> exact RunPoint.cost_lt_of_distance (pool.managers m).task (Nat.lt_succ_self _)
  | enter => exact RunPoint.cost_lt_of_distance (pool.managers m).task (Nat.lt_succ_self _)
  | woken =>
      refine RunPoint.cost_lt_of_distance (pool.managers m).task ?_
      simp only [RunPoint.distance]
      split <;> decide
  | discard hstopped | leave hstopped => exact absurd (hgo.symm.trans hstopped) nofun
  | finish =>
      obtain ⟨x, hx⟩ := Option.ne_none_iff_exists'.mp (hrunning rfl)
      have hemptied : ((pool.deleteTask m).managers m).task = none := by
        simp [Pool.deleteTask]
      show RunPoint.inner.cost (C := C) size false ((pool.deleteTask m).managers m).task +
        Config.limit size + 1 ≤ _
      rw [hemptied, hx]
      simp only [RunPoint.cost, RunPoint.distance, Config.slotPrice, Option.isSome_none,
        Option.isSome_some, Bool.false_eq_true, ↓reduceIte]
      omega
  | again h =>
      obtain ⟨x, hx⟩ := Option.ne_none_iff_exists'.mp (h.resolve_left (by simp [hgo]))
      simp only [RunPoint.cost, RunPoint.distance, Piece.after, hx, Option.isSome_some,
        ↓reduceIte, Effect.gain]
      omega
  | begin _ htask =>
      obtain ⟨x, hx⟩ := Option.ne_none_iff_exists'.mp htask
      simp only [RunPoint.cost, RunPoint.distance, Piece.after, Pool.apply, hx,
        Option.isSome_some, ↓reduceIte, Effect.gain]
      omega
  | skip _ htask | wait _ htask =>
      simp [RunPoint.cost, RunPoint.distance, Effect.gain, Piece.after, sleeps, htask]

namespace Config

variable {cfg : Config} {pool : Pool} {t : Tid} {input : Input} {p : Point}
  {piece : Piece Point}

/-- What a thread knows when it pays for its next step. -/
structure Funded (cfg : Config) (t : Tid) (p : Point) (pool : Pool) : Prop where
  fits : p.Fits cfg.kind noCallback t
  harmless : ∀ call, p = t.calling (some call) → call.Harmless
  size : pool.taskList.length = cfg.size
  go : pool.go = true
  runs : ∀ m, (pool.managers m).go = true
  tasks : none ∉ pool.queue
  front : ∀ q, p = .dispatcher q → ∀ x, q.front = some x → pool.queue.head? = some x
  running : ∀ m, t = .worker m → p = .worker (.running none) → (pool.managers m).task ≠ none

/-- Every thread pays for the steps of its own, and for a call with what the call brings. -/
theorem Moves.cost_le (hmoves : cfg.Moves pool t input p piece)
    (husage : TasksCall noCallback t input p pool) (h : cfg.Funded t p pool) :
    piece.next.cost cfg.size (sleeps piece.op) (piece.after pool) t +
      Effect.gain cfg.size piece.effect + input.paid ≤
      p.cost cfg.size false pool t + input.charge cfg.size := by
  have hpays : ∀ {total left : Nat}, total + 1 ≤ left →
      total + input.paid ≤ left + input.charge cfg.size := by
    intro total left hlt
    have hpaid : input.paid ≤ 1 := by cases input <;> simp [Input.paid]
    omega
  cases hmoves with
  | enter t method call ht hentry =>
      cases t with
      | client c =>
          have hcost := Call.cost_entry hentry cfg.size false
          have hgain : Effect.gain cfg.size (call.entered (.client c)) = 0 := by
            unfold Call.entered
            split <;> rfl
          show call.cost cfg.size false + Effect.gain cfg.size (call.entered (.client c)) + 0 ≤
            0 + (limit cfg.size + taskPrice cfg.size)
          omega
      | dispatcher => exact absurd rfl ht
      | worker m => exact (husage m method rfl rfl).elim
  | call t call ht =>
      refine hpays ?_
      rw [← h.size]
      cases t with
      | client c =>
          have hlt := Call.cost_lt (h.harmless call rfl) pool
          unfold Call.costAfter at hlt
          rcases hnext : (call.code pool).next with next | result <;>
            · simp only [Instr.map, hnext] at hlt ⊢
              exact hlt
      | dispatcher => exact absurd rfl ht
      | worker m => exact (h.fits call rfl).2.elim
  | dispatcher hmoves =>
      refine hpays ?_
      rw [← h.size]
      exact hmoves.cost_lt h.go h.tasks (h.front _ rfl)
  | worker m input hmoves =>
      refine hpays (hmoves.cost_lt (h.runs m) (fun hp => ?_) _)
      exact h.running m rfl (congrArg Point.worker hp)

end Config

/-! ## What a step gives to the others -/

/-- A step of `t` leaves to the others what they pay for. -/
structure Pool.Leaves (t : Tid) (pool after : Pool) : Prop where
  queue : t ≠ .dispatcher → after.queue = pool.queue
  slot : ∀ m, t ≠ .worker m → (after.managers m).task = (pool.managers m).task

theorem Pool.leaves_self (t : Tid) (pool : Pool) : pool.Leaves t pool :=
  ⟨fun _ => rfl, fun _ _ => rfl⟩

/-- A piece of code brings a task into the queue or into a slot, ends one, or leaves all this
to the others and notifies nobody. -/
inductive Config.Outlay (cfg : Config) (t : Tid) (pool : Pool) (piece : Piece Point) : Prop
  | none (hnotify : piece.notify = none) (hleaves : pool.Leaves t (piece.after pool))
  | push (task) (heffect : piece.effect = some (.push task))
      (hnotify : piece.notify = some .dispatcher)
  | place (task m) (heffect : piece.effect = some (.place task m))
      (hnotify : piece.notify = some (.manager m))
  | finish (m) (ht : t = .worker m) (heffect : piece.effect = some (.finish m))

namespace Config.Outlay

variable {cfg : Config} {t : Tid} {pool : Pool} {piece : Piece Point}

theorem of_quiet (heffect : piece.effect = Option.none) (hnotify : piece.notify = Option.none) :
    cfg.Outlay t pool piece :=
  .none hnotify (by rw [Piece.after_of_none heffect]; exact pool.leaves_self t)

theorem of_scan (x : Option Runnable) (p : ScanPoint)
    (heffect : piece.effect = (scan x p pool).effect)
    (hnotify : piece.notify = (scan x p pool).notify) : cfg.Outlay t pool piece := by
  have hmoves := scan_moves x p pool
  generalize scan x p pool = body at hmoves heffect hnotify
  cases hmoves with
  | taken m => exact .place x m heffect hnotify
  | _ => exact .of_quiet heffect hnotify

end Config.Outlay

theorem ThreadPool.check_notify (onEmpty onBusy atEnd : Bool) (p : CheckPoint) (pool : Pool) :
    (check onEmpty onBusy atEnd p pool).notify = none := by
  cases p with
  | test =>
      simp only [check]
      split <;> rfl
  | probe m rest p => cases p <;> rfl
  | _ => rfl

theorem QueuedThreadPool.check_notify (result : Bool → Bool) (p : CheckPoint) (pool : Pool) :
    (check result p pool).notify = none := by
  cases p with
  | test =>
      simp only [check]
      split <;> rfl
  | base p => exact ThreadPool.check_notify _ _ _ p pool
  | _ => rfl

theorem Call.outlay {cfg : Config} {t : Tid} {call : Call} (h : call.Harmless) (pool : Pool)
    (embed : Call ⊕ Unit → Point) : cfg.Outlay t pool ((call.code pool).map embed) := by
  cases call with
  | execute task p =>
      cases p with
      | scan p => exact .of_scan task p rfl rfl
      | test =>
          simp only [code, piece, ThreadPool.execute]
          split
          · exact .none rfl ⟨fun _ => rfl, fun _ _ => rfl⟩
          · exact .of_quiet rfl rfl
      | enter | placed | failed | woken => exact .of_quiet rfl rfl
  | isIdle p | isBusy p =>
      exact .of_quiet (ThreadPool.check_effect _ _ _ p pool) (ThreadPool.check_notify _ _ _ p pool)
  | queuedExecute task p =>
      cases p with
      | lock => exact .of_quiet rfl rfl
      | body =>
          simp only [code, piece, QueuedThreadPool.execute]
          split
          · exact .push task rfl rfl
          · exact .none rfl ⟨fun _ => rfl, fun _ _ => rfl⟩
  | queuedIsIdle p | queuedIsBusy p =>
      exact .of_quiet (QueuedThreadPool.check_effect _ p pool)
        (QueuedThreadPool.check_notify _ p pool)
  | queueLength p => cases p <;> exact .of_quiet rfl rfl
  | terminate | queuedTerminate => exact absurd rfl h.1
  | destroy | queuedDestroy => exact absurd rfl h.2

namespace Config

variable {cfg : Config} {pool : Pool} {t : Tid} {input : Input} {p : Point}
  {piece : Piece Point}

theorem Moves.outlay (hmoves : cfg.Moves pool t input p piece)
    (h : ∀ call, p = t.calling (some call) → call.Harmless) : cfg.Outlay t pool piece := by
  cases hmoves with
  | enter t method call =>
      refine .none rfl ?_
      show pool.Leaves t (Piece.after { effect := call.entered t, next := _ } pool)
      unfold Call.entered
      split <;> exact ⟨fun _ => rfl, fun _ _ => rfl⟩
  | call t call => exact Call.outlay (h call rfl) pool _
  | dispatcher hmoves =>
      cases hmoves with
      | add p | remove p =>
          cases p with
          | lock => exact .of_quiet rfl rfl
          | body => exact .none rfl ⟨fun _ => rfl, fun _ _ => rfl⟩
      | assign x p => exact .of_scan (some x) p rfl rfl
      | pop => exact .none rfl ⟨fun ht => absurd rfl ht, fun _ _ => rfl⟩
      | _ => exact .of_quiet rfl rfl
  | worker m input hmoves =>
      cases hmoves with
      | add p | remove p =>
          cases p with
          | lock => exact .of_quiet rfl rfl
          | body => exact .none rfl ⟨fun _ => rfl, fun _ _ => rfl⟩
      | begin => exact .none rfl ⟨fun _ => rfl, fun _ _ => rfl⟩
      | finish => exact .finish m rfl rfl
      | discard =>
          refine .none rfl ⟨fun _ => rfl, fun i hi => ?_⟩
          have hne : i ≠ m := fun heq => hi (congrArg Tid.worker heq.symm)
          show ((pool.deleteTask m).managers i).task = _
          simp [Pool.deleteTask, Pool.update, hne]
      | _ => exact .of_quiet rfl rfl

end Config

/-- A wake-up adds the way to the next sleep. -/
theorem ThreadPool.ExecutePoint.distance_le (size : Nat) (asleep before : Bool)
    (p : ExecutePoint) : p.distance size asleep ≤ p.distance size before + Config.limit size ∧
      ((before = true → asleep = true) → p.distance size asleep ≤ p.distance size before) := by
  cases p with
  | woken => cases asleep <;> cases before <;> simp [distance, Config.limit]
  | _ => simp [distance]

theorem QueuedThreadPool.RunPoint.distance_le (size : Nat) (asleep before : Bool)
    (queue : List (Option Runnable)) (p : RunPoint) :
    p.distance size asleep queue ≤ p.distance size before queue + Config.limit size ∧
      ((before = true → asleep = true) →
        p.distance size asleep queue ≤ p.distance size before queue) := by
  cases p with
  | wokenInner t => cases asleep <;> cases before <;> simp [distance, Config.limit]
  | wokenIdle =>
      cases asleep <;> cases before <;> simp [distance, Config.limit]
      split <;> omega
  | _ => simp [distance]

theorem TaskManager.RunPoint.distance_le {C : Type} (size : Nat) (asleep before : Bool)
    (occupied : Bool) (p : RunPoint C) :
    p.distance asleep occupied ≤ p.distance before occupied + Config.limit size ∧
      ((before = true → asleep = true) →
        p.distance asleep occupied ≤ p.distance before occupied) := by
  cases p with
  | woken =>
      cases asleep <;> cases before <;> simp [distance, Config.limit]
  | _ => simp [distance]

namespace Point

variable {size : Nat} {asleep before : Bool} {pool after : Pool} {t : Tid} {p : Point}

/-- A wake-up adds the way to the next sleep; who stays asleep costs no more. -/
theorem cost_le : p.cost size asleep pool t ≤ p.cost size before pool t + Config.limit size ∧
    ((before = true → asleep = true) → p.cost size asleep pool t ≤ p.cost size before pool t) := by
  have hsame : ∀ {x : Nat}, x ≤ x + Config.limit size ∧ ((before = true → asleep = true) → x ≤ x) :=
    ⟨Nat.le_add_right _ _, fun _ => le_rfl⟩
  cases p with
  | client call =>
      cases call with
      | none => exact hsame
      | some call =>
          cases call with
          | execute task p =>
              obtain ⟨hle, hmono⟩ := p.distance_le size asleep before
              simp only [cost, Option.elim_some, Call.cost, Call.distance]
              exact ⟨by omega, fun h => Nat.add_le_add_right (hmono h) _⟩
          | _ => exact hsame
  | dispatcher p =>
      cases t with
      | dispatcher =>
          obtain ⟨hle, hmono⟩ := p.distance_le size asleep before pool.queue
          simp only [cost, QueuedThreadPool.RunPoint.cost]
          exact ⟨by omega, fun h => Nat.add_le_add_right (hmono h) _⟩
      | _ => exact hsame
  | worker p =>
      cases t with
      | worker m =>
          obtain ⟨hle, hmono⟩ := p.distance_le size asleep before
            (pool.managers m).task.isSome
          simp only [cost, TaskManager.RunPoint.cost]
          exact ⟨by omega, fun h => Nat.add_le_add_right (hmono h) _⟩
      | _ => exact hsame

/-- What a thread still costs depends on the queue and on its slot. -/
theorem cost_congr (hqueue : t = .dispatcher → after.queue = pool.queue)
    (hslot : ∀ m, t = .worker m → (after.managers m).task = (pool.managers m).task) :
    p.cost size asleep after t = p.cost size asleep pool t := by
  cases p with
  | client call => rfl
  | dispatcher p =>
      cases t with
      | dispatcher => simp only [cost, hqueue rfl]
      | _ => rfl
  | worker p =>
      cases t with
      | worker m => simp only [cost, hslot m rfl]
      | _ => rfl

/-- A task in the queue costs the dispatcher its price and the way to its next sleep. -/
theorem cost_push (task : Option Runnable) :
    p.cost size asleep (pool.apply (.push task)) .dispatcher ≤
      p.cost size before pool .dispatcher + (Config.limit size + Config.queuePrice size) := by
  cases p with
  | dispatcher p =>
      have hwaiting : (p.waiting (pool.queue ++ [task])).length ≤
          (p.waiting pool.queue).length + 1 := by
        cases p with
        | assigned t => simp [QueuedThreadPool.RunPoint.waiting]; omega
        | _ => simp [QueuedThreadPool.RunPoint.waiting]
      have hdistance : p.distance size asleep (pool.queue ++ [task]) ≤
          p.distance size before pool.queue + Config.limit size := by
        cases p with
        | wokenInner t =>
            exact (QueuedThreadPool.RunPoint.distance_le size asleep before pool.queue
              (.wokenInner t)).1
        | wokenIdle | outer | idle | again =>
            simp only [QueuedThreadPool.RunPoint.distance, Config.limit]
            split_ifs <;> omega
        | _ => exact Nat.le_add_right _ _
      have hprice := Nat.mul_le_mul_left (Config.queuePrice size) hwaiting
      rw [Nat.mul_succ] at hprice
      show p.cost size asleep (pool.queue ++ [task]) ≤ p.cost size before pool.queue + _
      unfold QueuedThreadPool.RunPoint.cost
      omega
  | client call =>
      have hle : (client call).cost size asleep pool .dispatcher ≤
          (client call).cost size before pool .dispatcher + Config.limit size := cost_le.1
      exact hle.trans (Nat.add_le_add_left (Nat.le_add_right _ _) _)
  | worker p => exact Nat.zero_le _

/-- A task in a slot costs the worker its price and the way to its next sleep. -/
theorem cost_place (task : Option Runnable) (m : ManagerId) :
    p.cost size asleep (pool.apply (.place task m)) (.worker m) ≤
      p.cost size before pool (.worker m) + (Config.limit size + Config.slotPrice size) := by
  cases p with
  | worker p =>
      have hdistance : ∀ occupied filled : Bool,
          p.distance asleep filled ≤ p.distance before occupied + Config.limit size := by
        intro occupied filled
        cases p with
        | inner | woken =>
            simp only [TaskManager.RunPoint.distance, Config.limit]
            split_ifs <;> omega
        | _ => exact Nat.le_add_right _ _
      simp only [cost, TaskManager.RunPoint.cost]
      have hle := hdistance (pool.managers m).task.isSome
        ((pool.apply (.place task m)).managers m).task.isSome
      split <;> omega
  | client call =>
      have hle : (client call).cost size asleep pool (.worker m) ≤
          (client call).cost size before pool (.worker m) + Config.limit size := cost_le.1
      exact hle.trans (Nat.add_le_add_left (Nat.le_add_right _ _) _)
  | dispatcher p => exact Nat.zero_le _

end Point

end ThreadPools.Posix
