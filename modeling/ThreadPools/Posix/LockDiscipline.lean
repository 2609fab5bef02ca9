/-
# The pools are well locked

Each function body is balanced on its own, and balanced bodies compose along
the calls; so the whole program obeys the lock discipline, tasks which call
back into their pool included.
-/

import ThreadPools.Posix.Steps

namespace ThreadPools.Posix

open ThreadPools.Concurrency

/-! ## Function bodies -/

namespace TaskManager

theorem isIdle_balanced (m : ManagerId) (p : Section) (pool : Pool) :
    (isIdle m p pool).BalancedBy (Section.held (.manager m)) p := by
  cases p <;> rfl

theorem setTask_balanced (m : ManagerId) (t : Option Runnable) (p : Section) (pool : Pool) :
    (setTask m t p pool).BalancedBy (Section.held (.manager m)) p := by
  cases p with
  | lock => rfl
  | body =>
      simp only [setTask]
      split <;> rfl

theorem stop_balanced (m : ManagerId) (p : Section) (pool : Pool) :
    (stop m p pool).BalancedBy (Section.held (.manager m)) p := by
  cases p <;> rfl

theorem destroy_balanced (m : ManagerId) (p : DestroyPoint) (pool : Pool) :
    (destroy m p pool).BalancedBy (DestroyPoint.held m) p := by
  cases p with
  | lock => rfl
  | body => rfl
  | join =>
      simp only [destroy]
      split <;> rfl

end TaskManager

theorem ScanPoint.held_start (rest : List ManagerId) :
    (ScanPoint.start rest).elim ScanPoint.held (fun _ => []) = [] := by
  cases rest <;> rfl

theorem scan_balanced (t : Option Runnable) (p : ScanPoint) (pool : Pool) :
    (scan t p pool).BalancedBy ScanPoint.held p := by
  cases p with
  | isIdle m rest p =>
      refine (TaskManager.isIdle_balanced m p pool).call [] (fun p => ?_) fun idle => ?_
      · cases p <;> rfl
      · cases idle
        · exact ScanPoint.held_start rest
        · rfl
  | setTask m rest p =>
      refine (TaskManager.setTask_balanced m t p pool).call [] (fun p => ?_) fun taken => ?_
      · cases p <;> rfl
      · cases taken
        · exact ScanPoint.held_start rest
        · rfl

namespace ThreadPool

theorem ExecutePoint.held_scanned (place : ScanPoint ⊕ Bool) :
    (ExecutePoint.scanned place).held =
      place.elim ScanPoint.held (fun _ => []) ++ [.pool] := by
  rcases place with p | taken
  · rfl
  · cases taken <;> rfl

theorem execute_balanced (t : Option Runnable) (p : ExecutePoint) (pool : Pool) :
    (execute t p pool).BalancedBy ExecutePoint.held p := by
  cases p with
  | enter => rfl
  | test =>
      simp only [execute]
      split
      · rfl
      · show (ExecutePoint.scanned (ScanPoint.start pool.taskList)).held = [.pool]
        rw [ExecutePoint.held_scanned, ScanPoint.held_start]
        rfl
  | scan p =>
      exact (scan_balanced t p pool).map [.pool]
        (Sum.elim ExecutePoint.held fun _ => [])
        (fun p => ExecutePoint.held_scanned (.inl p))
        (fun taken => ExecutePoint.held_scanned (.inr taken))
  | placed => rfl
  | failed => rfl
  | woken => rfl

theorem CheckPoint.held_next (atEnd : Bool) (rest : List ManagerId) :
    (CheckPoint.next atEnd rest).held = [.pool] := by
  cases rest <;> rfl

theorem check_balanced (onEmpty onBusy atEnd : Bool) (p : CheckPoint) (pool : Pool) :
    (check onEmpty onBusy atEnd p pool).BalancedBy CheckPoint.held p := by
  cases p with
  | enter => rfl
  | test =>
      simp only [check]
      split
      · rfl
      · exact CheckPoint.held_next atEnd pool.taskList
  | probe m rest p =>
      refine (TaskManager.isIdle_balanced m p pool).call [.pool] (fun _ => rfl) fun idle => ?_
      cases idle
      · rfl
      · exact CheckPoint.held_next atEnd rest
  | leave => rfl

theorem EmptyPoint.held_start (rest : List ManagerId) :
    (EmptyPoint.start rest).held = [] := by
  cases rest <;> rfl

theorem emptyTaskList_balanced (p : EmptyPoint) (pool : Pool) :
    (emptyTaskList p pool).BalancedBy EmptyPoint.held p := by
  cases p with
  | destroy m rest p =>
      refine (TaskManager.destroy_balanced m p pool).call [] (fun p => ?_) fun _ => ?_
      · cases p <;> rfl
      · exact EmptyPoint.held_start rest
  | clear => rfl

theorem TerminatePoint.held_start (all rest : List ManagerId) :
    (TerminatePoint.start all rest).held = [.pool] := by
  cases rest with
  | nil => simp [TerminatePoint.start, TerminatePoint.held, EmptyPoint.held_start]
  | cons => rfl

theorem terminate_balanced (p : TerminatePoint) (pool : Pool) :
    (terminate p pool).BalancedBy TerminatePoint.held p := by
  cases p with
  | enter => exact TerminatePoint.held_start pool.taskList pool.taskList
  | stop m rest p =>
      exact (TaskManager.stop_balanced m p pool).call [.pool] (fun _ => rfl)
        fun _ => TerminatePoint.held_start pool.taskList rest
  | empty p =>
      exact (emptyTaskList_balanced p pool).call [.pool] (fun _ => rfl) fun _ => rfl
  | finish => rfl

theorem destroy_balanced (p : DestroyPoint) (pool : Pool) :
    (destroy p pool).BalancedBy DestroyPoint.held p := by
  cases p with
  | terminate p =>
      exact (terminate_balanced p pool).call [] (fun p => (List.append_nil p.held).symm)
        fun _ => EmptyPoint.held_start pool.taskList
  | empty p =>
      exact (emptyTaskList_balanced p pool).call [] (fun p => (List.append_nil p.held).symm)
        fun _ => rfl
  | release => rfl

end ThreadPool

namespace QueuedThreadPool

theorem emptyQueue_balanced (p : Section) (pool : Pool) :
    (emptyQueue p pool).BalancedBy (Section.held .dispatcher) p := by
  cases p <;> rfl

theorem execute_balanced (t : Option Runnable) (p : Section) (pool : Pool) :
    (execute t p pool).BalancedBy (Section.held .dispatcher) p := by
  cases p with
  | lock => rfl
  | body =>
      simp only [execute]
      split <;> rfl

theorem queueLength_balanced (p : Section) (pool : Pool) :
    (queueLength p pool).BalancedBy (Section.held .dispatcher) p := by
  cases p <;> rfl

theorem RunPoint.held_scanned (t : Runnable) (place : ScanPoint ⊕ Bool) :
    (RunPoint.scanned t place).held =
      place.elim ScanPoint.held (fun _ => []) ++ [.dispatcher] := by
  rcases place with p | taken
  · rfl
  · cases taken <;> rfl

theorem Moves.balanced {p : RunPoint} {pool : Pool} {piece : Piece RunPoint}
    (hmoves : Moves pool p piece) : piece.op.Balanced p.held piece.next.held := by
  cases hmoves with
  | add p => cases p <;> rfl
  | offer t =>
      show (RunPoint.scanned t (ScanPoint.start pool.taskList)).held = [.dispatcher]
      rw [RunPoint.held_scanned, ScanPoint.held_start]
      rfl
  | assign t p =>
      exact (scan_balanced (some t) p pool).map [.dispatcher] RunPoint.held
        (fun p => RunPoint.held_scanned t (.inl p))
        (fun taken => RunPoint.held_scanned t (.inr taken))
  | remove p => cases p <;> rfl
  | enter | front | drained | withdraw | pop | waitInner | wokenInner | waitIdle | busy
  | wokenIdle | again | leave => rfl

theorem check_balanced (result : Bool → Bool) (p : CheckPoint) (pool : Pool) :
    (check result p pool).BalancedBy CheckPoint.held p := by
  cases p with
  | enter => rfl
  | test =>
      simp only [check]
      split <;> rfl
  | base p =>
      exact (ThreadPool.check_balanced false false true p pool).call [.dispatcher]
        (fun _ => rfl) fun _ => rfl
  | leave => rfl

theorem terminate_balanced (p : TerminatePoint) (pool : Pool) :
    (terminate p pool).BalancedBy TerminatePoint.held p := by
  cases p with
  | enter => rfl
  | stop => rfl
  | base p =>
      exact (ThreadPool.terminate_balanced p pool).call [.dispatcher] (fun _ => rfl)
        fun _ => rfl
  | leave => rfl

theorem destroy_balanced (p : DestroyPoint) (pool : Pool) :
    (destroy p pool).BalancedBy DestroyPoint.held p := by
  cases p with
  | terminate p =>
      exact (terminate_balanced p pool).call [] (fun p => (List.append_nil p.held).symm)
        fun _ => rfl
  | join =>
      simp only [destroy]
      split <;> rfl
  | emptyQueue p =>
      exact (emptyQueue_balanced p pool).call []
        (fun p => (List.append_nil (Section.held .dispatcher p)).symm) fun _ => rfl
  | baseTerminate p =>
      exact (ThreadPool.terminate_balanced p pool).call []
        (fun p => (List.append_nil p.held).symm) fun _ => rfl
  | base p =>
      exact (ThreadPool.destroy_balanced p pool).call []
        (fun p => (List.append_nil p.held).symm) fun _ => rfl

end QueuedThreadPool

/-! ## The whole program -/

theorem Call.code_balanced (call : Call) (pool : Pool) :
    (call.code pool).BalancedBy Call.held call := by
  have hpiece : ∀ {Q R : Type} {held : Q → List MonitorId} {p : Q}
      {body : Piece (Q ⊕ R)} {embed : Q → Call}, body.BalancedBy held p →
      (∀ p, (embed p).held = held p) →
      (Call.piece embed body).BalancedBy Call.held (embed p) :=
    fun hbody hheld => hbody.call [] (fun p => (hheld p).trans (List.append_nil _).symm)
      fun _ => rfl
  cases call with
  | execute task p => exact hpiece (ThreadPool.execute_balanced task p pool) fun _ => rfl
  | isIdle p => exact hpiece (ThreadPool.check_balanced _ _ _ p pool) fun _ => rfl
  | isBusy p => exact hpiece (ThreadPool.check_balanced _ _ _ p pool) fun _ => rfl
  | terminate p => exact hpiece (ThreadPool.terminate_balanced p pool) fun _ => rfl
  | destroy p => exact hpiece (ThreadPool.destroy_balanced p pool) fun _ => rfl
  | queuedExecute task p =>
      exact hpiece (QueuedThreadPool.execute_balanced task p pool) fun _ => rfl
  | queuedIsIdle p => exact hpiece (QueuedThreadPool.check_balanced _ p pool) fun _ => rfl
  | queuedIsBusy p => exact hpiece (QueuedThreadPool.check_balanced _ p pool) fun _ => rfl
  | queueLength p => exact hpiece (QueuedThreadPool.queueLength_balanced p pool) fun _ => rfl
  | queuedTerminate p =>
      exact hpiece (QueuedThreadPool.terminate_balanced p pool) fun _ => rfl
  | queuedDestroy p => exact hpiece (QueuedThreadPool.destroy_balanced p pool) fun _ => rfl

/-- Every method starts without a monitor. -/
theorem Call.held_of_entry {kind : Kind} {method : Method} {call : Call}
    (h : Call.entry kind method = some call) : call.held = [] := by
  cases kind <;> cases method <;> cases h <;> rfl

/-- What a thread holds around the calls it makes. -/
def Tid.outer : Tid → List MonitorId
  | .worker m => [.manager m]
  | _ => []

theorem Tid.held_calling {t : Tid} (ht : t ≠ .dispatcher) (call : Option Call) :
    (t.calling call).held t = call.elim [] Call.held ++ t.outer := by
  cases t with
  | client => cases call <;> simp [Point.held, Tid.outer]
  | dispatcher => exact (ht rfl).elim
  | worker => cases call <;> rfl

theorem TaskManager.Moves.balanced {note : MonitorId} {m : ManagerId} {pool : Pool}
    {p : TaskManager.RunPoint Call} {piece : Piece (TaskManager.RunPoint Call)}
    (hmoves : TaskManager.Moves note m pool p piece) :
    piece.op.Balanced (Point.held (.worker m) (.worker p))
      (Point.held (.worker m) (.worker piece.next)) := by
  cases hmoves with
  | add p => cases p <;> rfl
  | remove p => cases p <;> rfl
  | enter | begin | skip | discard | leave | finish | wait | again | woken => rfl

theorem Config.Moves.balanced {cfg : Config} {pool : Pool} {t : Tid} {input : Input}
    {p : Point} {piece : Piece Point} (hmoves : cfg.Moves pool t input p piece) :
    piece.op.Balanced (p.held t) (piece.next.held t) := by
  cases hmoves with
  | enter t method call ht hentry =>
      show (t.calling (some call)).held t = (t.calling none).held t
      rw [Tid.held_calling ht, Tid.held_calling ht, Option.elim_some, Option.elim_none,
        Call.held_of_entry hentry]
  | call t call ht =>
      rw [Tid.held_calling ht]
      exact (Call.code_balanced call pool).map t.outer (Point.held t)
        (fun inner => Tid.held_calling ht (some inner)) fun _ => Tid.held_calling ht none
  | dispatcher hmoves => exact hmoves.balanced
  | worker m input hmoves => exact hmoves.balanced

/-! ## Waiting -/

theorem scan_not_wait (t : Option Runnable) (p : ScanPoint) (pool : Pool) (m : MonitorId) :
    (scan t p pool).op ≠ .wait m := by
  have hmoves := scan_moves t p pool
  generalize scan t p pool = piece at hmoves
  cases hmoves <;> nofun

theorem TaskManager.isIdle_not_wait (m : ManagerId) (p : Section) (pool : Pool)
    (monitor : MonitorId) : (isIdle m p pool).op ≠ .wait monitor := by
  cases p <;> nofun

theorem TaskManager.stop_not_wait (m : ManagerId) (p : Section) (pool : Pool)
    (monitor : MonitorId) : (stop m p pool).op ≠ .wait monitor := by
  cases p <;> nofun

theorem TaskManager.destroy_not_wait (m : ManagerId) (p : DestroyPoint) (pool : Pool)
    (monitor : MonitorId) : (destroy m p pool).op ≠ .wait monitor := by
  cases p with
  | lock => nofun
  | body => nofun
  | join =>
      simp only [destroy]
      split <;> nofun

namespace ThreadPool

theorem execute_wait {t : Option Runnable} {p : ExecutePoint} {pool : Pool} {m : MonitorId}
    (hop : (execute t p pool).op = .wait m) : p = .failed ∧ m = .pool := by
  cases p with
  | failed => cases hop; exact ⟨rfl, rfl⟩
  | scan p => exact absurd hop (scan_not_wait t p pool m)
  | test =>
      simp only [execute] at hop
      split at hop <;> cases hop
  | enter | placed | woken => cases hop

theorem check_not_wait (onEmpty onBusy atEnd : Bool) (p : CheckPoint) (pool : Pool)
    (m : MonitorId) : (check onEmpty onBusy atEnd p pool).op ≠ .wait m := by
  cases p with
  | probe other rest p => exact TaskManager.isIdle_not_wait other p pool m
  | test =>
      simp only [check]
      split <;> nofun
  | enter | leave => nofun

theorem emptyTaskList_not_wait (p : EmptyPoint) (pool : Pool) (m : MonitorId) :
    (emptyTaskList p pool).op ≠ .wait m := by
  cases p with
  | destroy other rest p => exact TaskManager.destroy_not_wait other p pool m
  | clear => nofun

theorem terminate_not_wait (p : TerminatePoint) (pool : Pool) (m : MonitorId) :
    (terminate p pool).op ≠ .wait m := by
  cases p with
  | stop other rest p => exact TaskManager.stop_not_wait other p pool m
  | empty p => exact emptyTaskList_not_wait p pool m
  | enter | finish => nofun

theorem destroy_not_wait (p : DestroyPoint) (pool : Pool) (m : MonitorId) :
    (destroy p pool).op ≠ .wait m := by
  cases p with
  | terminate p => exact terminate_not_wait p pool m
  | empty p => exact emptyTaskList_not_wait p pool m
  | release => nofun

end ThreadPool

namespace QueuedThreadPool

theorem check_not_wait (result : Bool → Bool) (p : CheckPoint) (pool : Pool)
    (m : MonitorId) : (check result p pool).op ≠ .wait m := by
  cases p with
  | base p => exact ThreadPool.check_not_wait false false true p pool m
  | test =>
      simp only [check]
      split <;> nofun
  | enter | leave => nofun

theorem terminate_not_wait (p : TerminatePoint) (pool : Pool) (m : MonitorId) :
    (terminate p pool).op ≠ .wait m := by
  cases p with
  | base p => exact ThreadPool.terminate_not_wait p pool m
  | enter | stop | leave => nofun

theorem destroy_not_wait (p : DestroyPoint) (pool : Pool) (m : MonitorId) :
    (destroy p pool).op ≠ .wait m := by
  cases p with
  | terminate p => exact terminate_not_wait p pool m
  | join =>
      simp only [destroy]
      split <;> nofun
  | emptyQueue p => cases p <;> nofun
  | baseTerminate p => exact ThreadPool.terminate_not_wait p pool m
  | base p => exact ThreadPool.destroy_not_wait p pool m

end QueuedThreadPool

/-- The only call that waits is `ThreadPool::execute`. -/
theorem Call.code_wait {call : Call} {pool : Pool} {m : MonitorId}
    (hop : (call.code pool).op = .wait m) :
    ∃ task, call = .execute task .failed ∧ m = .pool := by
  cases call with
  | execute task p =>
      obtain ⟨rfl, rfl⟩ := ThreadPool.execute_wait hop
      exact ⟨task, rfl, rfl⟩
  | isIdle p => exact absurd hop (ThreadPool.check_not_wait _ _ _ p pool m)
  | isBusy p => exact absurd hop (ThreadPool.check_not_wait _ _ _ p pool m)
  | terminate p => exact absurd hop (ThreadPool.terminate_not_wait p pool m)
  | destroy p => exact absurd hop (ThreadPool.destroy_not_wait p pool m)
  | queuedExecute task p =>
      cases p with
      | lock => cases hop
      | body =>
          simp only [Call.code, Call.piece, Instr.map_op, QueuedThreadPool.execute] at hop
          split at hop <;> cases hop
  | queuedIsIdle p => exact absurd hop (QueuedThreadPool.check_not_wait _ p pool m)
  | queuedIsBusy p => exact absurd hop (QueuedThreadPool.check_not_wait _ p pool m)
  | queueLength p => cases p <;> cases hop
  | queuedTerminate p => exact absurd hop (QueuedThreadPool.terminate_not_wait p pool m)
  | queuedDestroy p => exact absurd hop (QueuedThreadPool.destroy_not_wait p pool m)

theorem Tid.waitsAt_calling {t : Tid} (ht : t ≠ .dispatcher) (call : Option Call) :
    (t.calling call).waitsAt t = call.bind Call.waitsAt := by
  cases t with
  | client => cases call <;> rfl
  | dispatcher => exact (ht rfl).elim
  | worker => cases call <;> rfl

/-- A thread that waits continues at a point inside `wait`. -/
theorem Config.Moves.waits {cfg : Config} {pool : Pool} {t : Tid} {input : Input}
    {p : Point} {piece : Piece Point} (hmoves : cfg.Moves pool t input p piece)
    {m : MonitorId} (hop : piece.op = .wait m) : piece.next.waitsAt t = some m := by
  cases hmoves with
  | enter => cases hop
  | call t call ht =>
      obtain ⟨task, rfl, rfl⟩ := Call.code_wait hop
      exact Tid.waitsAt_calling ht _
  | dispatcher hmoves =>
      cases hmoves with
      | waitInner => cases hop; rfl
      | waitIdle => cases hop; rfl
      | assign t p => exact absurd hop (scan_not_wait (some t) p pool m)
      | add p => cases p <;> cases hop
      | remove p => cases p <;> cases hop
      | _ => cases hop
  | worker other input hmoves =>
      cases hmoves with
      | wait => cases hop; rfl
      | add p => cases p <;> cases hop
      | remove p => cases p <;> cases hop
      | _ => cases hop

/-- A thread inside `wait` does nothing but enter the monitor again. -/
theorem Config.Moves.relocks {cfg : Config} {pool : Pool} {t : Tid} {input : Input}
    {p : Point} {piece : Piece Point} (hmoves : cfg.Moves pool t input p piece)
    {m : MonitorId} (hwaits : p.waitsAt t = some m) :
    piece.op = .lock m ∧ m ∉ p.held t := by
  cases hmoves with
  | enter t method call ht =>
      rw [Tid.waitsAt_calling ht] at hwaits
      cases hwaits
  | call t call ht =>
      rw [Tid.waitsAt_calling ht] at hwaits
      rw [Tid.held_calling ht]
      cases call with
      | execute task p =>
          cases p <;> cases hwaits
          exact ⟨rfl, by cases t <;> simp [Call.held, ThreadPool.ExecutePoint.held, Tid.outer]⟩
      | _ => cases hwaits
  | dispatcher hmoves =>
      cases hmoves with
      | wokenInner => cases hwaits; exact ⟨rfl, List.not_mem_nil⟩
      | wokenIdle => cases hwaits; exact ⟨rfl, List.not_mem_nil⟩
      | _ => cases hwaits
  | worker other input hmoves =>
      cases hmoves with
      | woken => cases hwaits; exact ⟨rfl, List.not_mem_nil⟩
      | _ => cases hwaits

/-! ## The whole program -/

namespace Config

variable (cfg : Config)

theorem wellLocked : cfg.program.WellLocked where
  balanced hcode := (code_moves hcode).balanced
  handler t p := by
    cases p with
    | client call => exact List.suffix_refl _
    | dispatcher p => exact List.suffix_refl _
    | worker p =>
        cases p with
        | running call =>
            cases call with
            | none => exact List.suffix_refl _
            | some call =>
                cases t with
                | client => exact List.suffix_refl _
                | dispatcher => exact List.suffix_refl _
                | worker m => exact List.suffix_append call.held [.manager m]
        | _ => exact List.suffix_refl _
  waits hcode := (code_moves hcode).waits
  relocks hcode := (code_moves hcode).relocks

theorem held_initialPoint (t : Tid) : (cfg.initialPoint t).held t = [] := by
  cases t with
  | client => rfl
  | dispatcher => simp only [initialPoint]; split <;> rfl
  | worker => simp only [initialPoint]; split <;> rfl

theorem locked_initial : cfg.program.Locked cfg.initial where
  nodup t := by
    show ((cfg.initialPoint t).held t).Nodup
    rw [cfg.held_initialPoint]
    exact List.nodup_nil
  owner m t := by
    show none = some t ↔ m ∈ (cfg.initialPoint t).held t
    rw [cfg.held_initialPoint]
    simp
  waiters_nodup _ := List.nodup_nil
  waits _ _ hmem := absurd hmem List.not_mem_nil

variable {cfg}

/-- In every run of a pool, tasks that call back included, the owner of a
monitor is the thread whose control point is inside of it. -/
theorem locked_of_reaches {guard : PoolState → PoolAction → Prop} {state : PoolState}
    (hrun : Reaches cfg.program.step guard cfg.initial state) : cfg.program.Locked state :=
  Program.Locked.reaches cfg.wellLocked hrun cfg.locked_initial

end Config

end ThreadPools.Posix
