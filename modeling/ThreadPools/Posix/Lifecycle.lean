/-
# The life of a pool

The part of the memory which only `terminate` and the destructors change, as a
small machine of its own, and what a call knows about it at its points. Outside
of `terminate` a call that is inside a pool's monitor sees a task list whose
managers all run; `terminate` stops them, joins their threads and clears the
list before it leaves the monitor.
-/

import ThreadPools.Posix.Usage

namespace ThreadPools.Posix

open ThreadPools.Concurrency

/-! ## The shutdown machine -/

/-- The life of one manager. -/
structure ManagerLife where
  go : Bool
  status : ThreadStatus
  destroyed : Bool

/-- The life of a pool. -/
structure Life where
  taskList : List ManagerId
  manager : ManagerId → ManagerLife
  go : Bool
  status : ThreadStatus

namespace Life

def update (life : Life) (m : ManagerId) (f : ManagerLife → ManagerLife) : Life :=
  { life with manager := Function.update life.manager m (f (life.manager m)) }

/-- What an effect does to the life of a pool. -/
def apply : Effect → Life → Life
  | .stopManager m, life => life.update m fun manager => { manager with go := false }
  | .joinManager m, life =>
      life.update m fun manager => { manager with status := .idle, destroyed := true }
  | .clear, life => { life with taskList := [] }
  | .stop, life => { life with go := false }
  | .joinDispatcher, life => { life with status := .idle }
  | _, life => life

/-- The life of a pool behind a piece of code. -/
def after {X : Type} (piece : Piece X) (life : Life) : Life :=
  match piece.effect with
  | none => life
  | some effect => life.apply effect

@[simp] theorem after_map {X Y : Type} (f : X → Y) (piece : Piece X) (life : Life) :
    life.after (Instr.map f piece) = life.after piece := rfl

theorem after_of_none {X : Type} {piece : Piece X} (h : piece.effect = none) (life : Life) :
    life.after piece = life := by
  simp [after, h]

theorem after_of_some {X : Type} {piece : Piece X} {effect : Effect}
    (h : piece.effect = some effect) (life : Life) : life.after piece = life.apply effect := by
  simp [after, h]

end Life

def TaskManager.life (manager : TaskManager) : ManagerLife where
  go := manager.go
  status := manager.status
  destroyed := manager.destroyed

def Pool.life (pool : Pool) : Life where
  taskList := pool.taskList
  manager m := (pool.managers m).life
  go := pool.go
  status := pool.status

@[simp] theorem Pool.life_taskList (pool : Pool) : pool.life.taskList = pool.taskList := rfl
@[simp] theorem Pool.life_go (pool : Pool) : pool.life.go = pool.go := rfl
@[simp] theorem Pool.life_status (pool : Pool) : pool.life.status = pool.status := rfl
@[simp] theorem Pool.life_manager_go (pool : Pool) (m : ManagerId) :
    (pool.life.manager m).go = (pool.managers m).go := rfl
@[simp] theorem Pool.life_manager_status (pool : Pool) (m : ManagerId) :
    (pool.life.manager m).status = (pool.managers m).status := rfl
@[simp] theorem Pool.life_manager_destroyed (pool : Pool) (m : ManagerId) :
    (pool.life.manager m).destroyed = (pool.managers m).destroyed := rfl

theorem Pool.life_update (pool : Pool) (m : ManagerId) {f : TaskManager → TaskManager}
    {g : ManagerLife → ManagerLife} (h : ∀ manager, (f manager).life = g manager.life) :
    (pool.update m f).life = pool.life.update m g := by
  have hmanager : (pool.update m f).life.manager = (pool.life.update m g).manager := by
    funext other
    by_cases hother : other = m
    · subst hother
      simp [life, update, Life.update, h]
    · simp [life, update, Life.update, hother]
  simp only [life, Life.update, update] at hmanager ⊢
  rw [hmanager]

theorem Life.update_id (life : Life) (m : ManagerId) : life.update m id = life := by
  simp [update]

/-- The memory refines the shutdown machine. -/
theorem Pool.life_apply (effect : Effect) (pool : Pool) :
    (pool.apply effect).life = pool.life.apply effect := by
  have hslot : ∀ (m : ManagerId) (task : Option Runnable),
      (pool.update m fun manager => { manager with task := task }).life = pool.life := by
    intro m task
    rw [pool.life_update m (f := fun manager => { manager with task := task }) (g := id)
      fun _ => rfl, Life.update_id]
  cases effect with
  | stopManager m =>
      exact pool.life_update m (f := fun manager => { manager with go := false })
        (g := fun manager => { manager with go := false }) fun _ => rfl
  | joinManager m =>
      exact pool.life_update m
        (f := fun manager => { manager with status := .idle, destroyed := true })
        (g := fun manager => { manager with status := .idle, destroyed := true }) fun _ => rfl
  | place task m => exact hslot m task
  | finish m => exact hslot m none
  | discard m => exact hslot m none
  | _ => rfl

theorem Piece.life_after {X : Type} (piece : Piece X) (pool : Pool) :
    (piece.after pool).life = pool.life.after piece := by
  unfold Piece.after Life.after
  cases piece.effect with
  | none => rfl
  | some effect => exact pool.life_apply effect

namespace Life

/-- No manager on the list has been told to stop. -/
def Intact (life : Life) : Prop :=
  ∀ m ∈ life.taskList, (life.manager m).go = true ∧ (life.manager m).destroyed = false

/-- The managers of a stopped queued pool have been removed. -/
def Open (life : Life) : Prop :=
  life.Intact ∧ (life.go = true ∨ life.taskList = [])

/-- `QueuedThreadPool::terminate` has been finished. -/
def Closed (life : Life) : Prop :=
  life.go = false ∧ life.taskList = []

theorem taskList_apply_of_nil {life : Life} (h : life.taskList = []) (effect : Effect) :
    (life.apply effect).taskList = [] := by
  cases effect with
  | clear => rfl
  | _ => exact h

theorem apply_clear_of_nil {life : Life} (h : life.taskList = []) :
    life.apply .clear = life := by
  obtain ⟨taskList, manager, go, status⟩ := life
  cases h
  rfl

theorem Closed.apply {life : Life} (h : life.Closed) (effect : Effect) :
    (life.apply effect).Closed := by
  cases effect with
  | clear => exact ⟨h.1, rfl⟩
  | stop => exact ⟨rfl, h.2⟩
  | _ => exact h

theorem status_apply {life : Life} (h : life.status ≠ .running) (effect : Effect) :
    (life.apply effect).status ≠ .running := by
  cases effect with
  | joinDispatcher => nofun
  | _ => exact h

/-- Being closed is for ever, and so is the end of the dispatcher. -/
theorem Closed.after {X : Type} {life : Life} (h : life.Closed ∧ life.status ≠ .running)
    (piece : Piece X) : (life.after piece).Closed ∧ (life.after piece).status ≠ .running := by
  unfold Life.after
  split
  · exact h
  · exact ⟨h.1.apply _, status_apply h.2 _⟩

/-- Managers leave the list together, and only after their threads have been
joined. -/
structure WellFormed (size : Nat) (life : Life) : Prop where
  list : life.taskList = List.range size ∨ life.taskList = []
  removed : life.taskList = [] → ∀ m < size, (life.manager m).destroyed = true
  stopped : ∀ m, (life.manager m).destroyed = true →
    (life.manager m).go = false ∧ (life.manager m).status ≠ .running

theorem intact_of_nil {life : Life} (h : life.taskList = []) : life.Intact := by
  intro m hm
  rw [h] at hm
  cases hm

theorem WellFormed.nodup {size : Nat} {life : Life} (h : life.WellFormed size) :
    life.taskList.Nodup := by
  rcases h.list with hlist | hlist <;> rw [hlist]
  · exact List.nodup_range
  · exact List.nodup_nil

theorem WellFormed.lt_size {size : Nat} {life : Life} (h : life.WellFormed size)
    {m : ManagerId} (hm : m ∈ life.taskList) : m < size := by
  rcases h.list with hlist | hlist <;> rw [hlist] at hm
  · exact List.mem_range.mp hm
  · cases hm

end Life

theorem Pool.taskList_apply {pool : Pool} (h : pool.taskList = []) (effect : Effect) :
    (pool.apply effect).taskList = [] := by
  show (pool.apply effect).life.taskList = []
  rw [life_apply]
  exact Life.taskList_apply_of_nil h effect

/-! ## What a call knows at its points -/

def ScanPoint.Control : ScanPoint → Life → Prop
  | .isIdle m rest _, life => m :: rest <:+ life.taskList
  | .setTask m rest _, life =>
      m :: rest <:+ life.taskList ∧ (life.manager m).status = .running

namespace ThreadPool

def ExecutePoint.Control : ExecutePoint → Life → Prop
  | .enter, _ => True
  | .woken, _ => True
  | .scan p, life => life.Intact ∧ p.Control life
  | _, life => life.Intact

def CheckPoint.Control : CheckPoint → Life → Prop
  | .enter, _ => True
  | .probe m rest _, life => life.Intact ∧ m :: rest <:+ life.taskList
  | _, life => life.Intact

/-- Exactly the managers in front of the current one have been deleted. -/
def EmptyPoint.Control : EmptyPoint → Life → Prop
  | .destroy m rest p, life =>
      m :: rest <:+ life.taskList ∧
      (∀ i ∈ life.taskList, (life.manager i).destroyed = true ↔ i ∉ m :: rest) ∧
      (p = .join → (life.manager m).go = false)
  | .clear, life => ∀ i ∈ life.taskList, (life.manager i).destroyed = true

def TerminatePoint.Control : TerminatePoint → Life → Prop
  | .enter, _ => True
  | .stop m rest _, life =>
      m :: rest <:+ life.taskList ∧ ∀ i ∈ life.taskList, (life.manager i).destroyed = false
  | .empty p, life => p.Control life
  | .finish, life => life.taskList = []

/-- Behind the first `terminate` there is nothing left to do. -/
def DestroyPoint.Control : DestroyPoint → Life → Prop
  | .terminate p, life => p.Control life
  | .empty p, life => p = .clear ∧ life.taskList = []
  | .release, life => life.taskList = []

end ThreadPool

namespace QueuedThreadPool

def CheckPoint.Control : CheckPoint → Life → Prop
  | .enter, _ => True
  | .base p, life => life.Open ∧ p.Control life
  | _, life => life.Open

def TerminatePoint.Control : TerminatePoint → Life → Prop
  | .enter, _ => True
  | .stop, life => life.Open
  | .base p, life => life.go = false ∧ p.Control life
  | .leave, life => life.Closed

def DestroyPoint.Control : DestroyPoint → Life → Prop
  | .terminate p, life => p.Control life
  | .join, life => life.Closed
  | .emptyQueue _, life => life.Closed ∧ life.status ≠ .running
  | .baseTerminate p, life => (life.Closed ∧ life.status ≠ .running) ∧ p.Control life
  | .base p, life => (life.Closed ∧ life.status ≠ .running) ∧ p.Control life

end QueuedThreadPool

namespace Call

def Control : Call → Life → Prop
  | .execute _ p, life => p.Control life
  | .isIdle p, life => p.Control life
  | .isBusy p, life => p.Control life
  | .terminate p, life => p.Control life
  | .destroy p, life => p.Control life
  | .queuedExecute _ p, life => p = .body → life.Open
  | .queuedIsIdle p, life => p.Control life
  | .queuedIsBusy p, life => p.Control life
  | .queueLength p, life => p = .body → life.Open
  | .queuedTerminate p, life => p.Control life
  | .queuedDestroy p, life => p.Control life

end Call

/-- What a monitor that is free guarantees. -/
def Life.Resource (kind : Kind) : MonitorId → Life → Prop
  | .pool, life => life.Intact
  | .dispatcher, life => kind = .queuedThreadPool → life.Open
  | _, _ => True

/-! ## Calls establish what they know -/

theorem ScanPoint.control_start {rest : List ManagerId} {life : Life}
    (h : rest <:+ life.taskList) :
    (ScanPoint.start rest).elim (·.Control life) fun _ => True := by
  cases rest with
  | nil => trivial
  | cons => exact h

theorem scan_control {t : Option Runnable} {p : ScanPoint} {pool : Pool}
    (h : p.Control pool.life) :
    (scan t p pool).Establishes (·.Control (pool.life.after (scan t p pool)))
      fun _ => True := by
  have hmoves := scan_moves t p pool
  generalize scan t p pool = piece at hmoves
  cases hmoves with
  | probe => exact h
  | idle m rest htask halive => exact ⟨h, halive⟩
  | busy m rest => exact ScanPoint.control_start ((List.suffix_cons m rest).trans h)
  | offer => exact h
  | taken => trivial
  | refused m rest => exact ScanPoint.control_start ((List.suffix_cons m rest).trans h.1)

namespace ThreadPool

theorem ExecutePoint.control_scanned {place : ScanPoint ⊕ Bool} {life : Life}
    (hintact : life.Intact) (h : place.elim (·.Control life) fun _ => True) :
    (ExecutePoint.scanned place).Control life := by
  rcases place with p | taken
  · exact ⟨hintact, h⟩
  · cases taken <;> exact hintact

theorem life_after_scan (t : Option Runnable) (p : ScanPoint) (pool : Pool) :
    pool.life.after (scan t p pool) = pool.life := by
  have hmoves := scan_moves t p pool
  generalize scan t p pool = piece at hmoves
  cases hmoves <;> rfl

theorem execute_control {t : Option Runnable} {p : ExecutePoint} {pool : Pool}
    (h : p.Control pool.life)
    (hlock : ∀ m, (execute t p pool).op = .lock m → m = .pool → pool.life.Intact) :
    (execute t p pool).Establishes (·.Control (pool.life.after (execute t p pool)))
      fun _ => True := by
  cases p with
  | enter => exact hlock .pool rfl rfl
  | test =>
      simp only [execute]
      split
      · trivial
      · exact ExecutePoint.control_scanned h (ScanPoint.control_start (List.suffix_refl _))
  | scan p =>
      have hscan := scan_control (t := t) h.2
      show (ExecutePoint.scanned (scan t p pool).next).Control
        (pool.life.after (scan t p pool))
      exact ExecutePoint.control_scanned (by rw [life_after_scan]; exact h.1) hscan
  | placed => trivial
  | failed => trivial
  | woken => exact hlock .pool rfl rfl

theorem CheckPoint.control_next {atEnd : Bool} {rest : List ManagerId} {life : Life}
    (hintact : life.Intact) (h : rest <:+ life.taskList) :
    (CheckPoint.next atEnd rest).Control life := by
  cases rest with
  | nil => exact hintact
  | cons => exact ⟨hintact, h⟩

theorem check_effect (onEmpty onBusy atEnd : Bool) (p : CheckPoint) (pool : Pool) :
    (check onEmpty onBusy atEnd p pool).effect = none := by
  cases p with
  | test =>
      simp only [check]
      split <;> rfl
  | probe m rest p => cases p <;> rfl
  | _ => rfl

theorem check_control {onEmpty onBusy atEnd : Bool} {p : CheckPoint} {pool : Pool}
    (h : p.Control pool.life)
    (hlock : ∀ m, (check onEmpty onBusy atEnd p pool).op = .lock m → m = .pool →
      pool.life.Intact) :
    (check onEmpty onBusy atEnd p pool).Establishes (·.Control pool.life)
      fun _ => True := by
  cases p with
  | enter => exact hlock .pool rfl rfl
  | test =>
      simp only [check]
      split
      · exact h
      · exact CheckPoint.control_next h (List.suffix_refl _)
  | probe m rest p =>
      cases p with
      | lock => exact h
      | body =>
          show (if ((pool.managers m).task.isNone && (pool.managers m).isAlive) = true then
            CheckPoint.next atEnd rest else .leave onBusy).Control pool.life
          split
          · exact CheckPoint.control_next h.1 ((List.suffix_cons m rest).trans h.2)
          · exact h.1
  | leave => trivial

theorem EmptyPoint.control_start {rest : List ManagerId} {life : Life}
    (hsuffix : rest <:+ life.taskList)
    (hdone : ∀ i ∈ life.taskList, (life.manager i).destroyed = true ↔ i ∉ rest) :
    (EmptyPoint.start rest).Control life := by
  cases rest with
  | nil => exact fun i hi => (hdone i hi).mpr List.not_mem_nil
  | cons => exact ⟨hsuffix, hdone, nofun⟩

theorem emptyTaskList_control {p : EmptyPoint} {pool : Pool} (h : p.Control pool.life)
    (hnodup : pool.taskList.Nodup) :
    (emptyTaskList p pool).Establishes
      (·.Control (pool.life.after (emptyTaskList p pool)))
      fun _ => (pool.life.after (emptyTaskList p pool)).taskList = [] := by
  cases p with
  | destroy m rest p =>
      cases p with
      | lock => exact ⟨h.1, h.2.1, nofun⟩
      | body =>
          refine ⟨h.1, fun i hi => ?_, fun _ => ?_⟩
          · rw [← h.2.1 i hi]
            by_cases him : i = m
            · subst him
              simp [Life.after, Life.apply, Life.update, emptyTaskList, TaskManager.destroy,
                Instr.map]
            · simp [Life.after, Life.apply, Life.update, emptyTaskList, TaskManager.destroy,
                Instr.map, him]
          · simp [Life.after, Life.apply, Life.update, emptyTaskList, TaskManager.destroy,
              Instr.map]
      | join =>
          have hm : m ∉ rest := (List.nodup_cons.mp (hnodup.sublist h.1.sublist)).1
          have hafter : pool.life.after (emptyTaskList (.destroy m rest .join) pool) =
              pool.life.apply (.joinManager m) := by
            simp only [emptyTaskList, TaskManager.destroy]
            split <;> rfl
          have hnext : (emptyTaskList (.destroy m rest .join) pool).next =
              .inl (.start rest) := by
            simp only [emptyTaskList, TaskManager.destroy]
            split <;> rfl
          unfold Instr.Establishes
          rw [hnext, hafter]
          refine EmptyPoint.control_start ((List.suffix_cons m rest).trans h.1) fun i hi => ?_
          by_cases him : i = m
          · subst him
            simp [Life.apply, Life.update, hm]
          · have hprior := h.2.1 i hi
            simpa [Life.apply, Life.update, him] using hprior
  | clear => rfl

theorem TerminatePoint.control_start {all rest : List ManagerId} {life : Life}
    (hall : all = life.taskList) (hsuffix : rest <:+ life.taskList)
    (hnone : ∀ i ∈ life.taskList, (life.manager i).destroyed = false) :
    (TerminatePoint.start all rest).Control life := by
  subst hall
  cases rest with
  | nil =>
      refine EmptyPoint.control_start (List.suffix_refl _) fun i hi => ?_
      simp [hnone i hi, hi]
  | cons => exact ⟨hsuffix, hnone⟩

theorem terminate_control {p : TerminatePoint} {pool : Pool} (h : p.Control pool.life)
    (hnodup : pool.taskList.Nodup)
    (hlock : ∀ m, (terminate p pool).op = .lock m → m = .pool → pool.life.Intact) :
    (terminate p pool).Establishes (·.Control (pool.life.after (terminate p pool)))
      fun _ => p = .finish ∧ pool.life.taskList = [] := by
  cases p with
  | enter =>
      exact TerminatePoint.control_start rfl (List.suffix_refl _)
        fun i hi => (hlock .pool rfl rfl i hi).2
  | stop m rest p =>
      cases p with
      | lock => exact h
      | body =>
          show (TerminatePoint.start pool.taskList rest).Control
            (pool.life.apply (.stopManager m))
          refine TerminatePoint.control_start rfl ((List.suffix_cons m rest).trans h.1)
            fun i hi => ?_
          have hprior := h.2 i hi
          by_cases him : i = m
          · subst him
            simpa [Life.apply, Life.update] using hprior
          · simpa [Life.apply, Life.update, him] using hprior
  | empty p =>
      exact (emptyTaskList_control h hnodup).call (fun _ hinside => hinside)
        fun _ hbehind => hbehind
  | finish => exact ⟨rfl, h⟩

theorem destroy_control {p : DestroyPoint} {pool : Pool} (h : p.Control pool.life)
    (hnodup : pool.taskList.Nodup)
    (hlock : ∀ m, (destroy p pool).op = .lock m → m = .pool → pool.life.Intact) :
    (destroy p pool).Establishes (·.Control (pool.life.after (destroy p pool)))
      fun _ => (pool.life.after (destroy p pool)).taskList = [] := by
  cases p with
  | terminate p =>
      refine (terminate_control h hnodup hlock).call (fun _ hinside => hinside) ?_
      rintro _ ⟨rfl, hnil⟩
      have hlist : pool.taskList = [] := hnil
      show EmptyPoint.start pool.taskList = .clear ∧ pool.taskList = []
      rw [hlist]
      exact ⟨rfl, rfl⟩
  | empty p =>
      obtain ⟨rfl, hnil⟩ := h
      rfl
  | release => exact h

end ThreadPool

namespace QueuedThreadPool

theorem check_effect (result : Bool → Bool) (p : CheckPoint) (pool : Pool) :
    (check result p pool).effect = none := by
  cases p with
  | test =>
      simp only [check]
      split <;> rfl
  | base p => exact ThreadPool.check_effect _ _ _ p pool
  | _ => rfl

theorem check_control {result : Bool → Bool} {p : CheckPoint} {pool : Pool}
    (h : p.Control pool.life)
    (hpool : ∀ m, (check result p pool).op = .lock m → m = .pool → pool.life.Intact)
    (hdispatcher : ∀ m, (check result p pool).op = .lock m → m = .dispatcher →
      pool.life.Open) :
    (check result p pool).Establishes (·.Control pool.life) fun _ => True := by
  cases p with
  | enter => exact hdispatcher .dispatcher rfl rfl
  | test =>
      simp only [check]
      split
      · exact ⟨h, trivial⟩
      · exact h
  | base p =>
      exact (ThreadPool.check_control h.2 hpool).call (fun _ hinside => ⟨h.1, hinside⟩)
        fun _ _ => h.1
  | leave => trivial

/-- The base class does not touch the dispatcher. -/
theorem life_after_terminate (p : ThreadPool.TerminatePoint) (pool : Pool) :
    (pool.life.after (ThreadPool.terminate p pool)).go = pool.life.go ∧
      (pool.life.after (ThreadPool.terminate p pool)).status = pool.life.status := by
  cases p with
  | stop m rest p => cases p <;> exact ⟨rfl, rfl⟩
  | empty p =>
      cases p with
      | destroy m rest p =>
          cases p with
          | join =>
              simp only [ThreadPool.terminate, ThreadPool.emptyTaskList, TaskManager.destroy]
              split <;> exact ⟨rfl, rfl⟩
          | _ => exact ⟨rfl, rfl⟩
      | clear => exact ⟨rfl, rfl⟩
  | _ => exact ⟨rfl, rfl⟩

theorem terminate_control {p : TerminatePoint} {pool : Pool} (h : p.Control pool.life)
    (hnodup : pool.taskList.Nodup)
    (hpool : ∀ m, (terminate p pool).op = .lock m → m = .pool → pool.life.Intact)
    (hdispatcher : ∀ m, (terminate p pool).op = .lock m → m = .dispatcher →
      pool.life.Open) :
    (terminate p pool).Establishes (·.Control (pool.life.after (terminate p pool)))
      fun _ => p = .leave ∧ pool.life.Closed := by
  cases p with
  | enter => exact hdispatcher .dispatcher rfl rfl
  | stop => exact ⟨rfl, trivial⟩
  | base p =>
      have hgo : (pool.life.after (ThreadPool.terminate p pool)).go = false :=
        (life_after_terminate p pool).1.trans h.1
      refine (ThreadPool.terminate_control h.2 hnodup hpool).call
        (fun _ hinside => ⟨hgo, hinside⟩) ?_
      rintro _ ⟨rfl, hnil⟩
      exact ⟨hgo, hnil⟩
  | leave => exact ⟨rfl, h⟩

theorem destroy_control {p : DestroyPoint} {pool : Pool} (h : p.Control pool.life)
    (hnodup : pool.taskList.Nodup)
    (hpool : ∀ m, (destroy p pool).op = .lock m → m = .pool → pool.life.Intact)
    (hdispatcher : ∀ m, (destroy p pool).op = .lock m → m = .dispatcher →
      pool.life.Open) :
    (destroy p pool).Establishes (·.Control (pool.life.after (destroy p pool)))
      fun _ => (pool.life.after (destroy p pool)).Closed := by
  cases p with
  | terminate p =>
      refine (terminate_control h hnodup hpool hdispatcher).call (fun _ hinside => hinside) ?_
      rintro _ ⟨rfl, hclosed⟩
      exact hclosed
  | join =>
      simp only [destroy]
      split <;> exact ⟨h, by rintro ⟨⟩⟩
  | emptyQueue p =>
      cases p with
      | lock => exact h
      | body => exact ⟨h, trivial⟩
  | baseTerminate p =>
      have hclosed := Life.Closed.after h.1 (ThreadPool.terminate p pool)
      refine (ThreadPool.terminate_control h.2 hnodup hpool).call
        (fun _ hinside => ⟨hclosed, hinside⟩) ?_
      rintro _ ⟨rfl, -⟩
      exact ⟨h.1, trivial⟩
  | base p =>
      have hclosed := Life.Closed.after h.1 (ThreadPool.destroy p pool)
      exact (ThreadPool.destroy_control h.2 hnodup hpool).call
        (fun _ hinside => ⟨hclosed, hinside⟩) fun _ _ => hclosed.1

end QueuedThreadPool

namespace Call

theorem code_control {call : Call} {pool : Pool} (h : call.Control pool.life)
    (hnodup : pool.taskList.Nodup)
    (hlock : ∀ m, (call.code pool).op = .lock m → Life.Resource call.kind m pool.life) :
    (call.code pool).Establishes (·.Control (pool.life.after (call.code pool)))
      fun _ => True := by
  have hpool : ∀ m, (call.code pool).op = .lock m → m = .pool → pool.life.Intact := by
    rintro m hop rfl
    exact hlock .pool hop
  have hdispatcher : call.kind = .queuedThreadPool →
      ∀ m, (call.code pool).op = .lock m → m = .dispatcher → pool.life.Open := by
    rintro hkind m hop rfl
    exact hlock .dispatcher hop hkind
  cases call with
  | execute task p =>
      exact (ThreadPool.execute_control h hpool).call (fun _ hinside => hinside) fun _ h => h
  | isIdle p | isBusy p =>
      refine (ThreadPool.check_control h hpool).call (fun _ hinside => ?_) fun _ h => h
      rwa [Life.after_of_none (by exact ThreadPool.check_effect _ _ _ p pool)]
  | terminate p =>
      exact (ThreadPool.terminate_control h hnodup hpool).call (fun _ hinside => hinside)
        fun _ _ => trivial
  | destroy p =>
      exact (ThreadPool.destroy_control h hnodup hpool).call (fun _ hinside => hinside)
        fun _ _ => trivial
  | queuedExecute task p =>
      cases p with
      | lock => exact fun _ => hdispatcher rfl .dispatcher rfl rfl
      | body =>
          simp only [code, piece, QueuedThreadPool.execute]
          split <;> trivial
  | queuedIsIdle p | queuedIsBusy p =>
      refine (QueuedThreadPool.check_control h hpool (hdispatcher rfl)).call
        (fun _ hinside => ?_) fun _ h => h
      rwa [Life.after_of_none (by exact QueuedThreadPool.check_effect _ p pool)]
  | queueLength p =>
      cases p with
      | lock => exact fun _ => hdispatcher rfl .dispatcher rfl rfl
      | body => trivial
  | queuedTerminate p =>
      exact (QueuedThreadPool.terminate_control h hnodup hpool (hdispatcher rfl)).call
        (fun _ hinside => hinside) fun _ _ => trivial
  | queuedDestroy p =>
      exact (QueuedThreadPool.destroy_control h hnodup hpool (hdispatcher rfl)).call
        (fun _ hinside => hinside) fun _ _ => trivial

end Call

end ThreadPools.Posix
