/-
# Reaching for a manager

The methods of a pool enter the monitors of its managers one after another
while they are inside the pool's own monitors. This module says which manager a
thread is about to enter the monitor of, and states the condition that a task
which calls `execute` does not come to the manager that runs the task: this is
the recursive locking that `Synchronized::lock` answers with an exception.
-/

import ThreadPools.Posix.Usage

namespace ThreadPools.Posix

open ThreadPools.Concurrency

def ScanPoint.reaching : ScanPoint → Option ManagerId
  | .isIdle m _ .lock => some m
  | .setTask m _ .lock => some m
  | _ => none

namespace ThreadPool

def ExecutePoint.reaching : ExecutePoint → Option ManagerId
  | .scan p => p.reaching
  | _ => none

def CheckPoint.reaching : CheckPoint → Option ManagerId
  | .probe m _ .lock => some m
  | _ => none

def EmptyPoint.reaching : EmptyPoint → Option ManagerId
  | .destroy m _ .lock => some m
  | _ => none

def TerminatePoint.reaching : TerminatePoint → Option ManagerId
  | .stop m _ .lock => some m
  | .empty p => p.reaching
  | _ => none

def DestroyPoint.reaching : DestroyPoint → Option ManagerId
  | .terminate p => p.reaching
  | .empty p => p.reaching
  | .release => none

end ThreadPool

namespace QueuedThreadPool

def RunPoint.reaching : RunPoint → Option ManagerId
  | .assign _ p => p.reaching
  | _ => none

def CheckPoint.reaching : CheckPoint → Option ManagerId
  | .base p => p.reaching
  | _ => none

def TerminatePoint.reaching : TerminatePoint → Option ManagerId
  | .base p => p.reaching
  | _ => none

def DestroyPoint.reaching : DestroyPoint → Option ManagerId
  | .terminate p => p.reaching
  | .baseTerminate p => p.reaching
  | .base p => p.reaching
  | _ => none

end QueuedThreadPool

def Call.reaching : Call → Option ManagerId
  | .execute _ p => p.reaching
  | .isIdle p => p.reaching
  | .isBusy p => p.reaching
  | .terminate p => p.reaching
  | .destroy p => p.reaching
  | .queuedExecute _ _ => none
  | .queuedIsIdle p => p.reaching
  | .queuedIsBusy p => p.reaching
  | .queueLength _ => none
  | .queuedTerminate p => p.reaching
  | .queuedDestroy p => p.reaching

/-- The manager whose monitor a thread is about to enter for the pool; a worker
that enters its own monitor does so for itself. -/
def Point.reaching : Point → Option ManagerId
  | .client (some call) => call.reaching
  | .dispatcher p => p.reaching
  | .worker (.running (some call)) => call.reaching
  | _ => none

theorem Tid.reaching_calling (t : Tid) (call : Option Call) :
    (t.calling call).reaching = call.bind Call.reaching := by
  cases t <;> cases call <;> rfl

theorem Config.reaching_initialPoint (cfg : Config) (t : Tid) :
    (cfg.initialPoint t).reaching = none := by
  cases t with
  | client => rfl
  | dispatcher => simp only [initialPoint]; split <;> rfl
  | worker => simp only [initialPoint]; split <;> rfl

/-! ## Managers in use -/

def ScanPoint.touching : ScanPoint → ManagerId
  | .isIdle m _ _ => m
  | .setTask m _ _ => m

namespace ThreadPool

def ExecutePoint.touching : ExecutePoint → Option ManagerId
  | .scan p => some p.touching
  | _ => none

def CheckPoint.touching : CheckPoint → Option ManagerId
  | .probe m _ _ => some m
  | _ => none

def EmptyPoint.touching : EmptyPoint → Option ManagerId
  | .destroy m _ _ => some m
  | .clear => none

def TerminatePoint.touching : TerminatePoint → Option ManagerId
  | .stop m _ _ => some m
  | .empty p => p.touching
  | _ => none

def DestroyPoint.touching : DestroyPoint → Option ManagerId
  | .terminate p => p.touching
  | .empty p => p.touching
  | .release => none

end ThreadPool

namespace QueuedThreadPool

def RunPoint.touching : RunPoint → Option ManagerId
  | .assign _ p => some p.touching
  | _ => none

def CheckPoint.touching : CheckPoint → Option ManagerId
  | .base p => p.touching
  | _ => none

def TerminatePoint.touching : TerminatePoint → Option ManagerId
  | .base p => p.touching
  | _ => none

def DestroyPoint.touching : DestroyPoint → Option ManagerId
  | .terminate p => p.touching
  | .baseTerminate p => p.touching
  | .base p => p.touching
  | _ => none

end QueuedThreadPool

def Call.touching : Call → Option ManagerId
  | .execute _ p => p.touching
  | .isIdle p => p.touching
  | .isBusy p => p.touching
  | .terminate p => p.touching
  | .destroy p => p.touching
  | .queuedExecute _ _ => none
  | .queuedIsIdle p => p.touching
  | .queuedIsBusy p => p.touching
  | .queueLength _ => none
  | .queuedTerminate p => p.touching
  | .queuedDestroy p => p.touching

/-- The manager in one of whose methods a thread is for the pool. -/
def Point.touching : Point → Option ManagerId
  | .client (some call) => call.touching
  | .dispatcher p => p.touching
  | .worker (.running (some call)) => call.touching
  | _ => none

/-! ## Entering a manager's monitor -/

theorem scan_lock {t : Option Runnable} {p : ScanPoint} {pool : Pool} {m : MonitorId}
    (hop : (scan t p pool).op = .lock m) :
    ∃ i, m = .manager i ∧ p.reaching = some i ∧ p.held = [] := by
  have hmoves := scan_moves t p pool
  generalize scan t p pool = piece at hmoves hop
  cases hmoves with
  | probe i => cases hop; exact ⟨i, rfl, rfl, rfl⟩
  | offer i => cases hop; exact ⟨i, rfl, rfl, rfl⟩
  | idle | busy | taken | refused => cases hop

namespace ThreadPool

theorem execute_lock {t : Option Runnable} {p : ExecutePoint} {pool : Pool} {m : MonitorId}
    (hop : (execute t p pool).op = .lock m) :
    (m = .pool ∧ p.held = []) ∨
      ∃ i, m = .manager i ∧ p.reaching = some i ∧ p.held = [.pool] := by
  cases p with
  | enter => cases hop; exact .inl ⟨rfl, rfl⟩
  | woken => cases hop; exact .inl ⟨rfl, rfl⟩
  | scan p =>
      obtain ⟨i, rfl, hreaching, hheld⟩ := scan_lock hop
      exact .inr ⟨i, rfl, hreaching, by simp [ExecutePoint.held, hheld]⟩
  | test =>
      simp only [execute] at hop
      split at hop <;> cases hop
  | placed | failed => cases hop

end ThreadPool

theorem ThreadPool.check_lock {onEmpty onBusy atEnd : Bool} {p : CheckPoint} {pool : Pool}
    {m : ManagerId} (hop : (check onEmpty onBusy atEnd p pool).op = .lock (.manager m)) :
    p.reaching = some m := by
  cases p with
  | probe i rest p =>
      cases p with
      | lock => cases hop; rfl
      | body => cases hop
  | test =>
      simp only [check] at hop
      split at hop <;> cases hop
  | enter | leave => cases hop

theorem QueuedThreadPool.check_lock {result : Bool → Bool} {p : CheckPoint} {pool : Pool}
    {m : ManagerId} (hop : (check result p pool).op = .lock (.manager m)) :
    p.reaching = some m := by
  cases p with
  | base p => exact ThreadPool.check_lock hop
  | test =>
      simp only [check] at hop
      split at hop <;> cases hop
  | enter | leave => cases hop

theorem ThreadPool.emptyTaskList_lock {p : EmptyPoint} {pool : Pool} {m : ManagerId}
    (hop : (emptyTaskList p pool).op = .lock (.manager m)) : p.reaching = some m := by
  cases p with
  | destroy i rest p =>
      cases p with
      | lock => cases hop; rfl
      | body => cases hop
      | join =>
          simp only [emptyTaskList, TaskManager.destroy] at hop
          split at hop <;> cases hop
  | clear => cases hop

theorem ThreadPool.terminate_lock {p : TerminatePoint} {pool : Pool} {m : ManagerId}
    (hop : (terminate p pool).op = .lock (.manager m)) : p.reaching = some m := by
  cases p with
  | stop i rest p =>
      cases p with
      | lock => cases hop; rfl
      | body => cases hop
  | empty p => exact emptyTaskList_lock hop
  | enter | finish => cases hop

theorem ThreadPool.destroy_lock {p : DestroyPoint} {pool : Pool} {m : ManagerId}
    (hop : (destroy p pool).op = .lock (.manager m)) : p.reaching = some m := by
  cases p with
  | terminate p => exact terminate_lock hop
  | empty p => exact emptyTaskList_lock hop
  | release => cases hop

theorem QueuedThreadPool.terminate_lock {p : TerminatePoint} {pool : Pool} {m : ManagerId}
    (hop : (terminate p pool).op = .lock (.manager m)) : p.reaching = some m := by
  cases p with
  | base p => exact ThreadPool.terminate_lock hop
  | enter | stop | leave => cases hop

theorem QueuedThreadPool.destroy_lock {p : DestroyPoint} {pool : Pool} {m : ManagerId}
    (hop : (destroy p pool).op = .lock (.manager m)) : p.reaching = some m := by
  cases p with
  | terminate p => exact terminate_lock hop
  | join =>
      simp only [destroy] at hop
      split at hop <;> cases hop
  | emptyQueue p => cases p <;> cases hop
  | baseTerminate p => exact ThreadPool.terminate_lock hop
  | base p => exact ThreadPool.destroy_lock hop

/-- What `execute` enters, and from where. -/
theorem Call.execute_lock {call : Call} (hexecute : mayExecute call.method) {pool : Pool}
    {m : MonitorId} (hop : (call.code pool).op = .lock m) :
    ((m = .pool ∨ m = .dispatcher) ∧ call.held = []) ∨
      ∃ i, m = .manager i ∧ call.reaching = some i ∧ call.held = [.pool] := by
  obtain ⟨task, htask⟩ := hexecute
  cases call with
  | execute task p =>
      rcases ThreadPool.execute_lock hop with ⟨rfl, hheld⟩ | hmanager
      · exact .inl ⟨.inl rfl, hheld⟩
      · exact .inr hmanager
  | queuedExecute task p =>
      cases p with
      | lock => cases hop; exact .inl ⟨.inr rfl, rfl⟩
      | body =>
          simp only [code, piece, QueuedThreadPool.execute, Instr.map_op] at hop
          split at hop <;> cases hop
  | _ => cases htask

/-- Calls enter a manager's monitor where they turn to the manager. -/
theorem Call.code_lock_manager {call : Call} {pool : Pool} {m : ManagerId}
    (hop : (call.code pool).op = .lock (.manager m)) : call.reaching = some m := by
  cases call with
  | execute task p | queuedExecute task p =>
      rcases execute_lock ⟨task, rfl⟩ hop with ⟨hm, -⟩ | ⟨i, hi, hreaching, -⟩
      · rcases hm with hm | hm <;> cases hm
      · cases hi
        exact hreaching
  | isIdle p | isBusy p => exact ThreadPool.check_lock hop
  | queuedIsIdle p | queuedIsBusy p => exact QueuedThreadPool.check_lock hop
  | queueLength p => cases p <;> cases hop
  | terminate p => exact ThreadPool.terminate_lock hop
  | destroy p => exact ThreadPool.destroy_lock hop
  | queuedTerminate p => exact QueuedThreadPool.terminate_lock hop
  | queuedDestroy p => exact QueuedThreadPool.destroy_lock hop

/-- The other threads that enter it are the manager's worker. -/
theorem Config.Moves.lock_manager {cfg : Config} {pool : Pool} {t : Tid} {input : Input}
    {p : Point} {piece : Piece Point} {m : ManagerId} (hmoves : cfg.Moves pool t input p piece)
    (hop : piece.op = .lock (.manager m)) :
    p.reaching = some m ∨ t = .worker m ∧ (p = .worker .enter ∨ p = .worker .woken) := by
  cases hmoves with
  | enter => cases hop
  | call t call ht =>
      exact .inl ((t.reaching_calling (some call)).trans (Call.code_lock_manager hop))
  | dispatcher hmoves =>
      cases hmoves with
      | assign x p =>
          obtain ⟨i, hi, hreaching, -⟩ := scan_lock (t := some x) hop
          cases hi
          exact .inl hreaching
      | add p | remove p => cases p <;> cases hop
      | _ => cases hop
  | worker i input hmoves =>
      cases hmoves with
      | add p | remove p => cases p <;> cases hop
      | enter => cases hop; exact .inr ⟨rfl, .inl rfl⟩
      | woken => cases hop; exact .inr ⟨rfl, .inr rfl⟩
      | _ => cases hop

/-! ## Staying away from the own manager -/

/-- The call of a task does not turn to the manager that runs the task. -/
def AvoidsOwn (cfg : Config) (t : Tid) (input : Input) (p : Point) (pool : Pool) : Prop :=
  ∀ m piece, t = .worker m → cfg.code t input p pool = some piece →
    piece.next.reaching ≠ some m

namespace Config

variable (cfg : Config)

def avoiding : Annotation Tid MonitorId Pool Point where
  assertion t p _ := ∀ m, t = .worker m → p.reaching ≠ some m
  resource _ _ := True
  invariant _ := True

variable {cfg}

theorem avoiding_valid {known : Annotation Tid MonitorId Pool Point} :
    Annotation.Valid cfg.program known avoiding (AvoidsOwn cfg) where
  assertion hbefore husage := fun m ht => husage m _ ht hbefore.code
  release _ _ _ _ := trivial
  invariant _ _ _ := trivial
  frame _ _ _ _ hother _ _ := hother.2
  frame_resource _ _ _ _ _ _ _ := trivial
  raise {t _ p _ _} _ _ _ hassertion _ _ := by
    refine ⟨fun m ht => ?_, fun _ _ _ => trivial⟩
    show p.handler.reaching ≠ some m
    rcases p.handler_cases with hsame | ⟨call, -, hcaught⟩
    · rw [hsame]
      exact hassertion.2 m ht
    · rw [hcaught]
      nofun

theorem avoiding_initial : avoiding.Holds cfg.initial where
  assertion t _ _ hreaching := absurd ((cfg.reaching_initialPoint t).symm.trans hreaching) nofun
  resource _ _ := trivial
  invariant := trivial

/-- A task that stays away from its own manager does not lock recursively. -/
theorem not_raises_of_avoiding {m : ManagerId} {call : Call} {input : Input} {pool : Pool}
    {piece : Piece Point} (hexecute : mayExecute call.method)
    (havoids : call.reaching ≠ some m)
    (hcode : cfg.code (.worker m) input ((Tid.worker m).calling (some call)) pool = some piece)
    {monitor : MonitorId} (hop : piece.op = .lock monitor) :
    monitor ∉ ((Tid.worker m).calling (some call)).held (.worker m) := by
  have ht : Tid.worker m ≠ .dispatcher := nofun
  obtain rfl := (code_moves hcode).of_call ht
  rw [Tid.held_calling ht]
  rcases Call.execute_lock hexecute hop with ⟨hmonitor, hheld⟩ | ⟨i, rfl, hreaching, hheld⟩
  · rcases hmonitor with rfl | rfl <;> simp [hheld, Tid.outer]
  · have hi : i ≠ m := fun heq => havoids (heq ▸ hreaching)
    simp [hheld, Tid.outer, hi]

/-- The exception for recursive locking is then caught where it is raised: no
call of a task is cut short. -/
theorem handler_eq_of_avoiding {t : Tid} {input : Input} {p : Point} {pool : Pool}
    {piece : Piece Point} (hcode : cfg.code t input p pool = some piece)
    (hfits : p.Fits cfg.kind mayExecute t) (havoids : ∀ m, t = .worker m → p.reaching ≠ some m)
    {monitor : MonitorId} (hop : piece.op = .lock monitor) (hheld : monitor ∈ p.held t) :
    p.handler = p := by
  rcases p.handler_cases with hsame | ⟨call, rfl, -⟩
  · exact hsame
  · cases t with
    | client | dispatcher => exact hfits.elim
    | worker m =>
        exact absurd hheld (not_raises_of_avoiding (hfits call rfl).2 (havoids m rfl) hcode hop)

/-- Tasks that do not call back stay away from their managers. -/
theorem avoidsOwn_of_noCallback {t : Tid} {input : Input} {p : Point} {pool : Pool}
    (hfits : p.Fits cfg.kind noCallback t) (husage : TasksCall noCallback t input p pool) :
    AvoidsOwn cfg t input p pool := by
  rintro m piece rfl hcode hreaching
  have hnext := (code_moves hcode).fits husage hfits
  obtain ⟨q, hq⟩ := Point.Fits.worker hnext
  rw [hq] at hnext hreaching
  cases q with
  | running call =>
      cases call with
      | none => cases hreaching
      | some call => exact (hnext call rfl).2
  | _ => cases hreaching

end Config

end ThreadPools.Posix
