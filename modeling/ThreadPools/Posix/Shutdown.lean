/-
# Shutting down

What every thread knows about the life of the pool survives the steps of the
others, because all calls that change it are inside the monitors of those that
look at it. Hence nobody meets a manager that has been deleted, and a worker
that has left its loop was told to.
-/

import ThreadPools.Posix.Lifecycle

namespace ThreadPools.Posix

open ThreadPools.Concurrency

/-! ## What others do -/

theorem ThreadPool.TerminatePoint.eq_enter {p : TerminatePoint} (h : .pool ∉ p.held) :
    p = .enter := by
  cases p <;> simp_all [held]

/-- Every point that knows something of the managers is inside a monitor. -/
theorem ThreadPool.DestroyPoint.Control.of_outside {p : DestroyPoint} {life : Life}
    (h : p.Control life) (hpool : .pool ∉ p.held) (effect : Effect) :
    p.Control (life.apply effect) := by
  cases p with
  | terminate p =>
      obtain rfl := TerminatePoint.eq_enter hpool
      trivial
  | empty p => exact ⟨h.1, Life.taskList_apply_of_nil h.2 effect⟩
  | release => exact Life.taskList_apply_of_nil h effect

namespace QueuedThreadPool

theorem CheckPoint.control_of_outside {p : CheckPoint} (h : .dispatcher ∉ p.held)
    (life : Life) : p.Control life := by
  cases p with
  | enter => trivial
  | _ => simp [held] at h

theorem TerminatePoint.control_of_outside {p : TerminatePoint} (h : .dispatcher ∉ p.held)
    (life : Life) : p.Control life := by
  cases p with
  | enter => trivial
  | _ => simp [held] at h

end QueuedThreadPool

/-- A call outside of the monitors that `terminate` enters does not notice it. -/
theorem Call.Control.of_outside {call : Call} {life : Life} (h : call.Control life)
    (hpool : .pool ∉ call.held)
    (hdispatcher : call.kind = .queuedThreadPool → .dispatcher ∉ call.held)
    (effect : Effect) : call.Control (life.apply effect) := by
  cases call with
  | execute task p =>
      cases p with
      | enter | woken => trivial
      | _ => simp [held, ThreadPool.ExecutePoint.held] at hpool
  | isIdle p | isBusy p =>
      cases p with
      | enter => trivial
      | _ => simp [held, ThreadPool.CheckPoint.held] at hpool
  | terminate p =>
      obtain rfl := ThreadPool.TerminatePoint.eq_enter hpool
      trivial
  | destroy p => exact ThreadPool.DestroyPoint.Control.of_outside h hpool effect
  | queuedExecute task p | queueLength p =>
      cases p with
      | lock => rintro ⟨⟩
      | body => exact absurd List.mem_cons_self (hdispatcher rfl)
  | queuedIsIdle p | queuedIsBusy p =>
      exact QueuedThreadPool.CheckPoint.control_of_outside (hdispatcher rfl) _
  | queuedTerminate p =>
      exact QueuedThreadPool.TerminatePoint.control_of_outside (hdispatcher rfl) _
  | queuedDestroy p =>
      cases p with
      | terminate p =>
          exact QueuedThreadPool.TerminatePoint.control_of_outside (hdispatcher rfl) _
      | join => exact Life.Closed.apply h effect
      | emptyQueue p => exact ⟨h.1.apply effect, Life.status_apply h.2 effect⟩
      | baseTerminate p =>
          obtain rfl := ThreadPool.TerminatePoint.eq_enter hpool
          exact ⟨⟨h.1.1.apply effect, Life.status_apply h.1.2 effect⟩, trivial⟩
      | base p =>
          exact ⟨⟨h.1.1.apply effect, Life.status_apply h.1.2 effect⟩,
            ThreadPool.DestroyPoint.Control.of_outside h.2 hpool effect⟩

/-- Two lives of a pool with the same managers. -/
structure Life.SameManagers (life next : Life) : Prop where
  taskList : next.taskList = life.taskList
  manager : next.manager = life.manager

namespace ThreadPool

variable {life next : Life}

theorem TerminatePoint.Control.congr {p : TerminatePoint} (h : p.Control life)
    (hsame : life.SameManagers next) : p.Control next := by
  obtain ⟨hlist, hmanager⟩ := hsame
  cases p with
  | enter => trivial
  | empty p => cases p <;> simpa [Control, EmptyPoint.Control, hlist, hmanager] using h
  | _ => simpa [Control, hlist, hmanager] using h

theorem DestroyPoint.Control.congr {p : DestroyPoint} (h : p.Control life)
    (hsame : life.SameManagers next) : p.Control next := by
  cases p with
  | terminate p => exact TerminatePoint.Control.congr h hsame
  | empty p => exact ⟨h.1, hsame.taskList.trans h.2⟩
  | release => exact hsame.taskList.trans h

theorem CheckPoint.Control.congr {p : CheckPoint} (h : p.Control life)
    (hsame : life.SameManagers next) : p.Control next := by
  obtain ⟨hlist, hmanager⟩ := hsame
  cases p with
  | enter => trivial
  | _ => simpa [Control, Life.Intact, hlist, hmanager] using h

theorem ExecutePoint.Control.congr {p : ExecutePoint} (h : p.Control life)
    (hsame : life.SameManagers next) : p.Control next := by
  obtain ⟨hlist, hmanager⟩ := hsame
  cases p with
  | enter | woken => trivial
  | scan p =>
      cases p <;> simpa [Control, ScanPoint.Control, Life.Intact, hlist, hmanager] using h
  | _ => simpa [Control, Life.Intact, hlist, hmanager] using h

end ThreadPool

theorem Life.Open.congr {life next : Life} (h : life.Open) (hsame : life.SameManagers next)
    (hgo : next.go = life.go) : next.Open := by
  obtain ⟨hlist, hmanager⟩ := hsame
  simpa [Life.Open, Life.Intact, hlist, hmanager, hgo] using h

namespace QueuedThreadPool

variable {life next : Life}

theorem CheckPoint.Control.congr {p : CheckPoint} (h : p.Control life)
    (hsame : life.SameManagers next) (hgo : .dispatcher ∈ p.held → next.go = life.go) :
    p.Control next := by
  cases p with
  | enter => trivial
  | base p =>
      exact ⟨h.1.congr hsame (hgo (by simp [held])),
        ThreadPool.CheckPoint.Control.congr h.2 hsame⟩
  | test => exact Life.Open.congr h hsame (hgo (by simp [held]))
  | leave => exact Life.Open.congr h hsame (hgo (by simp [held]))

theorem TerminatePoint.Control.congr {p : TerminatePoint} (h : p.Control life)
    (hsame : life.SameManagers next) (hgo : .dispatcher ∈ p.held → next.go = life.go) :
    p.Control next := by
  cases p with
  | enter => trivial
  | stop => exact Life.Open.congr h hsame (hgo (by simp [held]))
  | base p =>
      exact ⟨(hgo (by simp [held])).trans h.1,
        ThreadPool.TerminatePoint.Control.congr h.2 hsame⟩
  | leave => exact ⟨(hgo (by simp [held])).trans h.1, hsame.taskList.trans h.2⟩

end QueuedThreadPool

/-- Outside of the dispatcher's monitor nothing is known of a queued pool that
goes on. -/
theorem Call.Control.congr {call : Call} {life next : Life} (h : call.Control life)
    (hsame : life.SameManagers next)
    (hgo : call.kind = .queuedThreadPool → .dispatcher ∈ call.held → next.go = life.go)
    (hstop : life.go = false → next.go = false)
    (hstatus : life.status ≠ .running → next.status ≠ .running) : call.Control next := by
  have hclosed : life.Closed → next.Closed := fun h => ⟨hstop h.1, hsame.taskList.trans h.2⟩
  cases call with
  | execute task p => exact ThreadPool.ExecutePoint.Control.congr h hsame
  | isIdle p | isBusy p => exact ThreadPool.CheckPoint.Control.congr h hsame
  | terminate p => exact ThreadPool.TerminatePoint.Control.congr h hsame
  | destroy p => exact ThreadPool.DestroyPoint.Control.congr h hsame
  | queuedExecute task p | queueLength p =>
      rintro rfl
      exact Life.Open.congr (h rfl) hsame (hgo rfl List.mem_cons_self)
  | queuedIsIdle p | queuedIsBusy p =>
      exact QueuedThreadPool.CheckPoint.Control.congr h hsame (hgo rfl)
  | queuedTerminate p => exact QueuedThreadPool.TerminatePoint.Control.congr h hsame (hgo rfl)
  | queuedDestroy p =>
      cases p with
      | terminate p =>
          exact QueuedThreadPool.TerminatePoint.Control.congr h hsame (hgo rfl)
      | join => exact hclosed h
      | emptyQueue p => exact ⟨hclosed h.1, hstatus h.2⟩
      | baseTerminate p =>
          exact ⟨⟨hclosed h.1.1, hstatus h.1.2⟩,
            ThreadPool.TerminatePoint.Control.congr h.2 hsame⟩
      | base p =>
          exact ⟨⟨hclosed h.1.1, hstatus h.1.2⟩,
            ThreadPool.DestroyPoint.Control.congr h.2 hsame⟩

/-! ## Who shuts down -/

/-- An effect of a call on the life of the pool, with what the call knows. -/
inductive Call.Shuts (call : Call) (op : Op Tid MonitorId) (life : Life) : Effect → Prop
  | stopManager (m) (hpool : .pool ∈ call.held)
      (hdispatcher : call.kind = .queuedThreadPool → .dispatcher ∈ call.held)
      (hmanager : .manager m ∈ call.held) : Shuts call op life (.stopManager m)
  | joinManager (m) (hpool : .pool ∈ call.held)
      (hdispatcher : call.kind = .queuedThreadPool → .dispatcher ∈ call.held)
      (hgo : (life.manager m).go = false)
      (hjoin : op = .join (.worker m) ∨ (life.manager m).status ≠ .running) :
      Shuts call op life (.joinManager m)
  | clear (hpool : .pool ∈ call.held)
      (hdispatcher : call.kind = .queuedThreadPool → .dispatcher ∈ call.held)
      (hall : ∀ i ∈ life.taskList, (life.manager i).destroyed = true) :
      Shuts call op life .clear
  | stop (hkind : call.kind = .queuedThreadPool) (hdispatcher : .dispatcher ∈ call.held) :
      Shuts call op life .stop
  | joinDispatcher (hkind : call.kind = .queuedThreadPool)
      (hjoin : op = .join .dispatcher ∨ life.status ≠ .running) :
      Shuts call op life .joinDispatcher
  | nothing (effect) (h : life.apply effect = life) : Shuts call op life effect

namespace ThreadPool

/-- `ThreadPool::terminate` works inside the pool's monitor, and does nothing on
an empty list. -/
theorem terminate_shuts {call : Call} {p : TerminatePoint} {pool : Pool} {effect : Effect}
    (h : p.Control pool.life) (heffect : (terminate p pool).effect = some effect)
    (hheld : ∀ m ∈ p.held, m ∈ call.held)
    (hdispatcher : call.kind = .queuedThreadPool →
      .dispatcher ∈ call.held ∨ pool.life.taskList = []) :
    call.Shuts (terminate p pool).op pool.life effect := by
  have hempty : ∀ {m rest}, m :: rest <:+ pool.life.taskList →
      call.kind = .queuedThreadPool → .dispatcher ∈ call.held := by
    intro m rest hsuffix hkind
    refine (hdispatcher hkind).resolve_right fun hnil => ?_
    rw [hnil] at hsuffix
    exact List.cons_ne_nil m rest (List.suffix_nil.mp hsuffix)
  cases p with
  | stop m rest p =>
      cases p with
      | lock => cases heffect
      | body =>
          cases heffect
          exact .stopManager m (hheld _ (by simp [TerminatePoint.held]))
            (hempty h.1) (hheld _ (by simp [TerminatePoint.held, Section.held]))
  | empty p =>
      have hpool : .pool ∈ call.held := hheld _ (by simp [TerminatePoint.held])
      cases p with
      | destroy m rest p =>
          cases p with
          | lock => cases heffect
          | body =>
              cases heffect
              exact .stopManager m hpool (hempty h.1) (hheld _ (by
                simp [TerminatePoint.held, EmptyPoint.held, TaskManager.DestroyPoint.held]))
          | join =>
              simp only [terminate, emptyTaskList, TaskManager.destroy] at heffect ⊢
              split at heffect
              · next halive =>
                  cases heffect
                  exact .joinManager m hpool (hempty h.1) (h.2.2 rfl) (.inl (by simp [halive]))
              · next hdead =>
                  cases heffect
                  refine .joinManager m hpool (hempty h.1) (h.2.2 rfl) (.inr ?_)
                  simpa [TaskManager.isAlive] using hdead
      | clear =>
          cases heffect
          by_cases hnil : pool.life.taskList = []
          · exact .nothing _ (Life.apply_clear_of_nil hnil)
          · exact .clear hpool (fun hkind => (hdispatcher hkind).resolve_right hnil) h
  | enter => cases heffect
  | finish => cases heffect

theorem destroy_shuts {call : Call} {p : DestroyPoint} {pool : Pool} {effect : Effect}
    (h : p.Control pool.life) (heffect : (destroy p pool).effect = some effect)
    (hheld : ∀ m ∈ p.held, m ∈ call.held)
    (hdispatcher : call.kind = .queuedThreadPool →
      .dispatcher ∈ call.held ∨ pool.life.taskList = []) :
    call.Shuts (destroy p pool).op pool.life effect := by
  cases p with
  | terminate p => exact terminate_shuts h heffect hheld hdispatcher
  | empty p =>
      obtain ⟨rfl, hnil⟩ := h
      cases heffect
      exact .nothing _ (Life.apply_clear_of_nil hnil)
  | release =>
      cases heffect
      exact .nothing _ rfl

end ThreadPool

/-- Calls of `execute` leave the life of the pool alone. -/
theorem Call.life_apply_of_execute {call : Call} (hcall : mayExecute call.method)
    {pool : Pool} {effect : Effect} (heffect : (call.code pool).effect = some effect)
    (life : Life) : life.apply effect = life := by
  rcases execute_effect hcall heffect with ⟨_, rfl⟩ | ⟨_, _, rfl⟩ | ⟨_, rfl⟩ <;> rfl

theorem Call.code_shuts {call : Call} {pool : Pool} {effect : Effect}
    (h : call.Control pool.life) (heffect : (call.code pool).effect = some effect) :
    call.Shuts (call.code pool).op pool.life effect := by
  have hqueuedTerminate : ∀ {p : QueuedThreadPool.TerminatePoint},
      p.Control pool.life → (QueuedThreadPool.terminate p pool).effect = some effect →
      (∀ m ∈ p.held, m ∈ call.held) → call.kind = .queuedThreadPool →
      call.Shuts (QueuedThreadPool.terminate p pool).op pool.life effect := by
    intro p h heffect hheld hkind
    cases p with
    | stop =>
        cases heffect
        exact .stop hkind (hheld _ (by simp [QueuedThreadPool.TerminatePoint.held]))
    | base p =>
        exact ThreadPool.terminate_shuts h.2 heffect
          (fun m hm => hheld m (List.mem_append_left _ hm))
          fun _ => .inl (hheld _ (by simp [QueuedThreadPool.TerminatePoint.held]))
    | enter => cases heffect
    | leave => cases heffect
  cases call with
  | execute task p =>
      exact .nothing _ (life_apply_of_execute ⟨task, rfl⟩ heffect _)
  | isIdle p | isBusy p =>
      exact absurd (heffect.symm.trans (ThreadPool.check_effect _ _ _ p pool)) nofun
  | terminate p =>
      exact ThreadPool.terminate_shuts h heffect (fun _ hm => hm) nofun
  | destroy p => exact ThreadPool.destroy_shuts h heffect (fun _ hm => hm) nofun
  | queuedExecute task p =>
      exact .nothing _
        (life_apply_of_execute ⟨task, rfl⟩ heffect _)
  | queueLength p => cases p <;> cases heffect
  | queuedIsIdle p | queuedIsBusy p =>
      exact absurd (heffect.symm.trans (QueuedThreadPool.check_effect _ p pool)) nofun
  | queuedTerminate p => exact hqueuedTerminate h heffect (fun _ hm => hm) rfl
  | queuedDestroy p =>
      cases p with
      | terminate p => exact hqueuedTerminate h heffect (fun _ hm => hm) rfl
      | join =>
          simp only [code, piece, QueuedThreadPool.destroy, Instr.map_effect] at heffect ⊢
          split at heffect
          · next halive =>
              cases heffect
              exact .joinDispatcher rfl (.inl (by simp [halive]))
          · next hdead =>
              cases heffect
              refine .joinDispatcher rfl (.inr ?_)
              simpa [Pool.isAlive] using hdead
      | emptyQueue p => cases p <;> cases heffect; exact .nothing _ rfl
      | baseTerminate p =>
          exact ThreadPool.terminate_shuts h.2 heffect (fun _ hm => hm) fun _ => .inr h.1.1.2
      | base p =>
          exact ThreadPool.destroy_shuts h.2 heffect (fun _ hm => hm) fun _ => .inr h.1.1.2

/-- What a call knows survives what another one does outside of its monitors. -/
theorem Call.Control.frame {call other : Call} {op : Op Tid MonitorId} {life : Life}
    {effect : Effect} (h : other.Control life) (hshuts : call.Shuts op life effect)
    (hkind : other.kind = call.kind) (hdisjoint : ∀ m ∈ call.held, m ∉ other.held) :
    other.Control (life.apply effect) := by
  cases hshuts with
  | stopManager m hpool hdispatcher | joinManager m hpool hdispatcher
  | clear hpool hdispatcher =>
      exact h.of_outside (hdisjoint _ hpool)
        (fun hqueued => hdisjoint _ (hdispatcher (hkind ▸ hqueued))) _
  | stop hqueued hdispatcher =>
      exact h.congr ⟨rfl, rfl⟩ (fun _ hmem => absurd hmem (hdisjoint _ hdispatcher))
        (fun _ => rfl) fun h => h
  | joinDispatcher => exact h.congr ⟨rfl, rfl⟩ (fun _ _ => rfl) (fun h => h) nofun
  | nothing effect hsame => exact hsame.symm ▸ h

/-! ## What every thread knows -/

/-- A worker runs until its manager is stopped, and runs no task afterwards. -/
def TaskManager.RunPoint.Control : TaskManager.RunPoint Call → ManagerLife → Prop
  | .running _, manager => manager.status = .running ∧ manager.go = true
  | .remove _, manager => manager.status = .running ∧ manager.go = false
  | .exited, manager => manager.status = .running → manager.go = false
  | _, manager => manager.status = .running

def QueuedThreadPool.RunPoint.Control : RunPoint → Life → Prop
  | .exited, _ => True
  | .add _, life => life.status = .running
  | .enter, life => life.status = .running
  | .wokenInner _, life => life.status = .running
  | .wokenIdle, life => life.status = .running
  | .remove _, life => life.status = .running
  | .assign _ p, life =>
      life.status = .running ∧ life.Open ∧ life.go = true ∧ p.Control life
  | .assigned _, life => life.status = .running ∧ life.Open ∧ life.go = true
  | _, life => life.status = .running ∧ life.Open

def Point.Control (size : Nat) : Tid → Point → Life → Prop
  | .client _, .client call, life => ∀ c ∈ call, c.Control life
  | .dispatcher, .dispatcher p, life => p.Control life
  | .worker m, .worker p, life =>
      (m < size → p.Control (life.manager m)) ∧ (size ≤ m → p = .exited) ∧
        ∀ c, p = .running (some c) → c.Control life
  | _, _, _ => False

/-- What a thread knows around the calls it makes. -/
def Tid.Active (size : Nat) (life : Life) : Tid → Prop
  | .worker m =>
      m < size ∧ (life.manager m).status = .running ∧ (life.manager m).go = true
  | _ => True

theorem Tid.control_calling {size : Nat} {t : Tid} (ht : t ≠ .dispatcher) {call : Option Call}
    {life : Life} :
    (t.calling call).Control size t life ↔
      (∀ c ∈ call, c.Control life) ∧ t.Active size life := by
  cases t with
  | client => simp [Point.Control, Active]
  | dispatcher => exact (ht rfl).elim
  | worker m =>
      simp only [calling_worker, Point.Control, Active, TaskManager.RunPoint.Control,
        TaskManager.RunPoint.running.injEq, reduceCtorEq, imp_false, Nat.not_le]
      constructor
      · rintro ⟨hactive, hm, hcall⟩
        exact ⟨fun c hc => hcall c hc, hm, hactive hm⟩
      · rintro ⟨hcall, hm, hactive⟩
        exact ⟨fun _ => hactive, hm, fun c hc => hcall c hc⟩

theorem Call.control_of_entry {kind : Kind} {method : Method} {call : Call}
    (h : entry kind method = some call) (life : Life) : call.Control life := by
  cases kind <;> cases method <;> cases h <;> first | trivial | nofun

theorem Call.life_apply_entered {call : Call} {t : Tid} {effect : Effect}
    (h : call.entered t = some effect) (life : Life) : life.apply effect = life := by
  unfold entered at h
  split at h <;> cases h <;> rfl

namespace QueuedThreadPool

theorem RunPoint.control_scanned {t : Runnable} {place : ScanPoint ⊕ Bool} {life : Life}
    (hstatus : life.status = .running) (hopen : life.Open) (hgo : life.go = true)
    (h : place.elim (·.Control life) fun _ => True) : (RunPoint.scanned t place).Control life := by
  rcases place with p | taken
  · exact ⟨hstatus, hopen, hgo, h⟩
  · cases taken with
    | true => exact ⟨hstatus, hopen, hgo⟩
    | false => exact ⟨hstatus, hopen⟩

/-- The dispatcher does not change the life of the pool. -/
theorem Moves.life_after {p : RunPoint} {pool : Pool} {piece : Piece RunPoint}
    (hmoves : Moves pool p piece) : pool.life.after piece = pool.life := by
  cases hmoves with
  | add p => cases p <;> rfl
  | remove p => cases p <;> rfl
  | assign t p => exact ThreadPool.life_after_scan (some t) p pool
  | _ => rfl

theorem Moves.control {p : RunPoint} {pool : Pool} {piece : Piece RunPoint}
    (hmoves : Moves pool p piece) (h : p.Control pool.life)
    (hlock : piece.op = .lock .dispatcher → pool.life.Open) :
    piece.next.Control pool.life := by
  cases hmoves with
  | add p => cases p <;> exact h
  | enter => exact ⟨h, hlock rfl⟩
  | offer t hgo =>
      exact RunPoint.control_scanned h.1 h.2 hgo (ScanPoint.control_start (List.suffix_refl _))
  | assign t p =>
      have hscan := scan_control (t := some t) h.2.2.2
      rw [ThreadPool.life_after_scan] at hscan
      exact RunPoint.control_scanned h.1 h.2.1 h.2.2.1 hscan
  | pop => exact ⟨h.1, h.2.1⟩
  | waitInner => exact h.1
  | wokenInner => exact ⟨h, hlock rfl⟩
  | waitIdle => exact h.1
  | wokenIdle => exact ⟨h, hlock rfl⟩
  | leave => exact h.1
  | remove p =>
      cases p with
      | lock => exact h
      | body => trivial
  | front | drained | withdraw | busy | again => exact h

end QueuedThreadPool

namespace TaskManager

/-- Nor does a worker. -/
theorem Moves.life_after {note : MonitorId} {m : ManagerId} {pool : Pool}
    {p : RunPoint Call} {piece : Piece (RunPoint Call)} (hmoves : Moves note m pool p piece) :
    pool.life.after piece = pool.life := by
  cases hmoves with
  | add p => cases p <;> rfl
  | remove p => cases p <;> rfl
  | _ => rfl

theorem Moves.control {note : MonitorId} {m : ManagerId} {pool : Pool}
    {p : RunPoint Call} {piece : Piece (RunPoint Call)} (hmoves : Moves note m pool p piece)
    (h : p.Control (pool.life.manager m)) : piece.next.Control (pool.life.manager m) := by
  cases hmoves with
  | add p => cases p <;> exact h
  | begin hgo => exact ⟨h, hgo⟩
  | discard hgo => exact ⟨h, hgo⟩
  | leave hgo => exact ⟨h, hgo⟩
  | finish => exact h.1
  | remove p =>
      cases p with
      | lock => exact h
      | body => exact fun _ => h.2
  | enter | skip | wait | again | woken => exact h

end TaskManager

namespace Config

variable {cfg : Config}

theorem Moves.life_after_of_worker {pool : Pool} {m : ManagerId} {input : Input} {p : Point}
    {piece : Piece Point} (hmoves : cfg.Moves pool (.worker m) input p piece)
    (hfits : p.Fits cfg.kind mayExecute (.worker m)) : pool.life.after piece = pool.life := by
  generalize ht : Tid.worker m = t at hmoves hfits
  cases hmoves with
  | enter t method call _ hentry =>
      simp only [Life.after]
      split
      · rfl
      · next heffect => exact Call.life_apply_entered heffect _
  | call t call hdispatcher =>
      have hcall := (fits_calling hdispatcher).mp hfits call rfl
      simp only [Life.after, Instr.map_effect]
      split
      · rfl
      · next heffect => exact Call.life_apply_of_execute (hcall.2 m ht.symm) heffect _
  | dispatcher => cases ht
  | worker m input hmoves => exact hmoves.life_after

/-- A task stays active during the calls it makes. -/
theorem Moves.active {pool : Pool} {t : Tid} {input : Input} {p : Point}
    {piece : Piece Point} (hmoves : cfg.Moves pool t input p piece)
    (hfits : p.Fits cfg.kind mayExecute t) (h : t.Active cfg.size pool.life) :
    t.Active cfg.size (pool.life.after piece) := by
  cases t with
  | client => trivial
  | dispatcher => trivial
  | worker m => exact (hmoves.life_after_of_worker hfits).symm ▸ h

/-- Every piece of code establishes what is known behind it. -/
theorem Moves.control {pool : Pool} {t : Tid} {input : Input} {p : Point}
    {piece : Piece Point} (hmoves : cfg.Moves pool t input p piece)
    (hfits : p.Fits cfg.kind mayExecute t) (h : p.Control cfg.size t pool.life)
    (hnodup : pool.taskList.Nodup)
    (hlock : ∀ m, piece.op = .lock m → Life.Resource cfg.kind m pool.life) :
    piece.next.Control cfg.size t (pool.life.after piece) := by
  have hactive := hmoves.active hfits
  cases hmoves with
  | enter t method call ht hentry =>
      refine (Tid.control_calling ht).mpr
        ⟨?_, hactive ((Tid.control_calling ht).mp h).2⟩
      rintro _ ⟨⟩
      exact Call.control_of_entry hentry _
  | call t call ht =>
      obtain ⟨hcontrol, hbefore⟩ := (Tid.control_calling ht).mp h
      have hkind := ((fits_calling ht).mp hfits call rfl).1
      have hbody := Call.code_control (hcontrol call rfl) hnodup
        fun m hop => hkind ▸ hlock m hop
      unfold Instr.Establishes at hbody
      rw [Instr.map_next]
      cases hnext : (call.code pool).next with
      | inl next =>
          rw [hnext] at hbody
          refine (Tid.control_calling ht).mpr ⟨?_, hactive hbefore⟩
          rintro _ ⟨⟩
          exact hbody
      | inr => exact (Tid.control_calling ht).mpr ⟨nofun, hactive hbefore⟩
  | dispatcher hmoves =>
      have hkind : cfg.kind = .queuedThreadPool := hfits hmoves.not_exited
      have hcontrol := hmoves.control h fun hop => hlock .dispatcher hop hkind
      exact hmoves.life_after.symm ▸ hcontrol
  | worker m input hmoves =>
      have hsame := hmoves.life_after
      refine ⟨fun hm => ?_, fun hm => absurd (h.2.1 hm) hmoves.not_exited, fun c hc => ?_⟩
      · exact hsame.symm ▸ hmoves.control (h.1 hm)
      · exact absurd hc (hmoves.next_not_running c)

end Config

/-! ## Leaving monitors -/

theorem Life.Closed.open {life : Life} (h : life.Closed) : life.Open :=
  ⟨Life.intact_of_nil h.2, .inr h.2⟩

namespace ThreadPool

theorem execute_release {t : Option Runnable} {p : ExecutePoint} {pool : Pool}
    (h : p.Control pool.life)
    (hop : (execute t p pool).op = .unlock .pool ∨ (execute t p pool).op = .wait .pool) :
    pool.life.Intact := by
  cases p with
  | scan p => exact h.1
  | enter => rcases hop with hop | hop <;> cases hop
  | woken => rcases hop with hop | hop <;> cases hop
  | _ => exact h

theorem check_release {onEmpty onBusy atEnd : Bool} {p : CheckPoint} {pool : Pool}
    (h : p.Control pool.life)
    (hop : (check onEmpty onBusy atEnd p pool).op = .unlock .pool) : pool.life.Intact := by
  cases p with
  | enter => cases hop
  | test => exact h
  | probe => exact h.1
  | leave => exact h

theorem terminate_release {p : TerminatePoint} {pool : Pool} (h : p.Control pool.life)
    (kind : Kind) {m : MonitorId} (hop : (terminate p pool).op = .unlock m) :
    Life.Resource kind m (pool.life.after (terminate p pool)) := by
  cases p with
  | enter => cases hop
  | stop i rest p =>
      cases p with
      | lock => cases hop
      | body => cases hop; trivial
  | empty p =>
      cases p with
      | destroy i rest p =>
          cases p with
          | lock => cases hop
          | body => cases hop; trivial
          | join =>
              simp only [terminate, emptyTaskList, TaskManager.destroy] at hop
              split at hop <;> cases hop
      | clear => cases hop
  | finish => cases hop; exact Life.intact_of_nil h

theorem destroy_release {p : DestroyPoint} {pool : Pool} (h : p.Control pool.life)
    (kind : Kind) {m : MonitorId} (hop : (destroy p pool).op = .unlock m) :
    Life.Resource kind m (pool.life.after (destroy p pool)) := by
  cases p with
  | terminate p => exact terminate_release h kind hop
  | empty p =>
      obtain ⟨rfl, -⟩ := h
      cases hop
  | release => cases hop

end ThreadPool

namespace QueuedThreadPool

theorem check_release {result : Bool → Bool} {p : CheckPoint} {pool : Pool}
    (h : p.Control pool.life) {m : MonitorId} (hop : (check result p pool).op = .unlock m) :
    Life.Resource .queuedThreadPool m pool.life := by
  cases p with
  | enter => cases hop
  | test =>
      simp only [check] at hop
      split at hop <;> cases hop
  | base p =>
      cases m with
      | pool => exact ThreadPool.check_release h.2 hop
      | dispatcher => exact fun _ => h.1
      | manager => trivial
      | threadList => trivial
  | leave => cases hop; exact fun _ => h

theorem terminate_release {p : TerminatePoint} {pool : Pool} (h : p.Control pool.life)
    {m : MonitorId} (hop : (terminate p pool).op = .unlock m) :
    Life.Resource .queuedThreadPool m (pool.life.after (terminate p pool)) := by
  cases p with
  | enter => cases hop
  | stop => cases hop
  | base p => exact ThreadPool.terminate_release h.2 .queuedThreadPool hop
  | leave => cases hop; exact fun _ => Life.Closed.open h

end QueuedThreadPool

/-- A call leaves each monitor in order. -/
theorem Call.code_release {call : Call} {pool : Pool} (h : call.Control pool.life)
    {m : MonitorId} (hop : (call.code pool).op = .unlock m ∨ (call.code pool).op = .wait m) :
    Life.Resource call.kind m (pool.life.after (call.code pool)) := by
  have hsame : mayExecute call.method →
      pool.life.after (call.code pool) = pool.life := fun hexecute => by
    simp only [Life.after]
    split
    · rfl
    · next heffect => exact life_apply_of_execute hexecute heffect _
  have hunlock : ¬ mayExecute call.method → (call.code pool).op = .unlock m :=
    fun hnot => hop.resolve_right fun hwait => by
      obtain ⟨task, rfl, -⟩ := code_wait hwait
      exact hnot ⟨task, rfl⟩
  cases call with
  | execute task p =>
      rw [hsame ⟨task, rfl⟩]
      cases m with
      | pool => exact ThreadPool.execute_release h hop
      | dispatcher => rintro ⟨⟩
      | manager => trivial
      | threadList => trivial
  | isIdle p | isBusy p =>
      have hop := hunlock (by rintro ⟨_, ⟨⟩⟩)
      rw [Life.after_of_none (by exact ThreadPool.check_effect _ _ _ p pool)]
      cases m with
      | pool => exact ThreadPool.check_release h hop
      | dispatcher => rintro ⟨⟩
      | manager => trivial
      | threadList => trivial
  | terminate p => exact ThreadPool.terminate_release h _ (hunlock (by rintro ⟨_, ⟨⟩⟩))
  | destroy p => exact ThreadPool.destroy_release h _ (hunlock (by rintro ⟨_, ⟨⟩⟩))
  | queuedExecute task p =>
      rw [hsame ⟨task, rfl⟩]
      cases p with
      | lock => rcases hop with hop | hop <;> cases hop
      | body =>
          cases m with
          | dispatcher => exact fun _ => h rfl
          | pool =>
              simp only [code, piece, QueuedThreadPool.execute, Instr.map_op] at hop
              split at hop <;> rcases hop with hop | hop <;> cases hop
          | manager => trivial
          | threadList => trivial
  | queuedIsIdle p | queuedIsBusy p =>
      have hop := hunlock (by rintro ⟨_, ⟨⟩⟩)
      rw [Life.after_of_none (by exact QueuedThreadPool.check_effect _ p pool)]
      exact QueuedThreadPool.check_release h hop
  | queueLength p =>
      have hop := hunlock (by rintro ⟨_, ⟨⟩⟩)
      cases p with
      | lock => cases hop
      | body => cases hop; exact fun _ => h rfl
  | queuedTerminate p => exact QueuedThreadPool.terminate_release h (hunlock (by rintro ⟨_, ⟨⟩⟩))
  | queuedDestroy p =>
      have hop := hunlock (by rintro ⟨_, ⟨⟩⟩)
      cases p with
      | terminate p => exact QueuedThreadPool.terminate_release h hop
      | join =>
          simp only [code, piece, QueuedThreadPool.destroy, Instr.map_op] at hop
          split at hop <;> cases hop
      | emptyQueue p =>
          cases p with
          | lock => cases hop
          | body => cases hop; exact fun _ => h.1.open
      | baseTerminate p => exact ThreadPool.terminate_release h.2 _ hop
      | base p => exact ThreadPool.destroy_release h.2 _ hop

namespace Config

variable {cfg : Config}

/-- Every thread leaves each monitor in order. -/
theorem Moves.release {pool : Pool} {t : Tid} {input : Input} {p : Point}
    {piece : Piece Point} (hmoves : cfg.Moves pool t input p piece)
    (hfits : p.Fits cfg.kind mayExecute t) (h : p.Control cfg.size t pool.life)
    {m : MonitorId} (hop : piece.op = .unlock m ∨ piece.op = .wait m) :
    Life.Resource cfg.kind m (pool.life.after piece) := by
  cases hmoves with
  | enter => rcases hop with hop | hop <;> cases hop
  | call t call ht =>
      have hkind := ((fits_calling ht).mp hfits call rfl).1
      exact hkind ▸ Call.code_release (((Tid.control_calling ht).mp h).1 call rfl) hop
  | dispatcher hmoves =>
      have hsame := hmoves.life_after
      rw [Life.after_map, hsame]
      cases m with
      | dispatcher =>
          cases hmoves with
          | assign => exact fun _ => h.2.1
          | waitInner => exact fun _ => h.2
          | waitIdle => exact fun _ => h.2
          | leave => exact fun _ => h.2
          | add p => cases p <;> rcases hop with hop | hop <;> cases hop
          | remove p => cases p <;> rcases hop with hop | hop <;> cases hop
          | _ => rcases hop with hop | hop <;> cases hop
      | pool =>
          cases hmoves with
          | assign t p =>
              have hscan := scan_moves (some t) p pool
              have hop : (scan (some t) p pool).op = .unlock .pool ∨
                (scan (some t) p pool).op = .wait .pool := hop
              generalize scan (some t) p pool = piece at hscan hop
              cases hscan <;> rcases hop with hop | hop <;> cases hop
          | add p => cases p <;> rcases hop with hop | hop <;> cases hop
          | remove p => cases p <;> rcases hop with hop | hop <;> cases hop
          | _ => rcases hop with hop | hop <;> cases hop
      | manager => trivial
      | threadList => trivial
  | worker i input hmoves =>
      cases hmoves with
      | add p | remove p =>
          cases p with
          | lock => rcases hop with hop | hop <;> cases hop
          | body =>
              rcases hop with hop | hop <;> cases hop
              trivial
      | _ => rcases hop with hop | hop <;> cases hop <;> trivial

end Config

/-! ## Interference -/

theorem TaskManager.RunPoint.Control.exited {p : TaskManager.RunPoint Call}
    {manager : ManagerLife} (h : p.Control manager) (hstatus : manager.status ≠ .running) :
    p = .exited := by
  cases p with
  | exited => rfl
  | running => exact absurd h.1 hstatus
  | remove => exact absurd h.1 hstatus
  | _ => exact absurd h hstatus

theorem QueuedThreadPool.RunPoint.Control.exited {p : RunPoint} {life : Life}
    (h : p.Control life) (hstatus : life.status ≠ .running) : p = .exited := by
  cases p with
  | exited => rfl
  | outer | inner | assign | assigned | unassigned | idle | again => exact absurd h.1 hstatus
  | _ => exact absurd h hstatus

/-- Outside of its own monitor the dispatcher only knows that it runs. -/
theorem QueuedThreadPool.RunPoint.Control.of_outside {p : RunPoint} {life next : Life}
    (h : p.Control life) (hdispatcher : .dispatcher ∉ p.held)
    (hstatus : life.status = .running → next.status = .running) : p.Control next := by
  cases p with
  | exited => trivial
  | add | enter | wokenInner | wokenIdle | remove => exact hstatus h
  | _ => simp [held] at hdispatcher

/-- A worker notices an effect on its manager only where it may happen. -/
theorem TaskManager.RunPoint.Control.frame {m : ManagerId} {p : TaskManager.RunPoint Call}
    {life : Life} {call : Call} {op : Op Tid MonitorId} {effect : Effect}
    (h : p.Control (life.manager m)) (hshuts : call.Shuts op life effect)
    (hdisjoint : ∀ monitor ∈ call.held, monitor ∉ Point.held (.worker m) (.worker p))
    (hjoin : op = .join (.worker m) → p = .exited) :
    p.Control ((life.apply effect).manager m) := by
  cases hshuts with
  | stopManager i hpool hdispatcher hmanager =>
      by_cases hi : m = i
      · subst hi
        have hfree := hdisjoint _ hmanager
        simp only [Life.apply, Life.update, Function.update_self]
        cases p with
        | running call => cases call <;> simp [Point.held] at hfree
        | remove => exact ⟨h.1, rfl⟩
        | exited => exact fun _ => rfl
        | _ => exact h
      · simpa [Life.apply, Life.update, hi] using h
  | joinManager i hpool hdispatcher hgo hjoined =>
      by_cases hi : m = i
      · subst hi
        obtain rfl := hjoined.elim hjoin fun hstatus => h.exited hstatus
        simp [Life.apply, Life.update, Control]
      · simpa [Life.apply, Life.update, hi] using h
  | clear => exact h
  | stop => exact h
  | joinDispatcher => exact h
  | nothing effect hsame => exact hsame.symm ▸ h

theorem Life.WellFormed.shuts {size : Nat} {life : Life} {call : Call}
    {op : Op Tid MonitorId} {effect : Effect} (h : life.WellFormed size)
    (hshuts : call.Shuts op life effect) : (life.apply effect).WellFormed size := by
  cases hshuts with
  | stopManager m =>
      refine ⟨h.list, fun hnil i hi => ?_, fun i hdestroyed => ?_⟩
      · have hprior := h.removed hnil i hi
        by_cases him : i = m
        · subst him
          simpa [Life.apply, Life.update] using hprior
        · simpa [Life.apply, Life.update, him] using hprior
      · by_cases him : i = m
        · subst him
          simp only [Life.apply, Life.update, Function.update_self] at hdestroyed ⊢
          exact ⟨trivial, (h.stopped i hdestroyed).2⟩
        · simp only [Life.apply, Life.update, Function.update_of_ne him] at hdestroyed ⊢
          exact h.stopped i hdestroyed
  | joinManager m hpool hdispatcher hgo =>
      refine ⟨h.list, fun hnil i hi => ?_, fun i hdestroyed => ?_⟩
      · by_cases him : i = m
        · subst him
          simp [Life.apply, Life.update]
        · simpa [Life.apply, Life.update, him] using h.removed hnil i hi
      · by_cases him : i = m
        · subst him
          simpa [Life.apply, Life.update] using hgo
        · simp only [Life.apply, Life.update, Function.update_of_ne him] at hdestroyed ⊢
          exact h.stopped i hdestroyed
  | clear hpool hdispatcher hall =>
      refine ⟨.inr rfl, fun _ i hi => ?_, h.stopped⟩
      rcases h.list with hlist | hnil
      · exact hall i (hlist ▸ List.mem_range.mpr hi)
      · exact h.removed hnil i hi
  | stop => exact ⟨h.list, h.removed, h.stopped⟩
  | joinDispatcher => exact ⟨h.list, h.removed, h.stopped⟩
  | nothing effect hsame => exact hsame.symm ▸ h

/-- A monitor that others are inside of may be in any order. -/
theorem Life.Resource.shuts {kind : Kind} {m : MonitorId} {life : Life} {call : Call}
    {op : Op Tid MonitorId} {effect : Effect} (h : life.Resource kind m)
    (hshuts : call.Shuts op life effect) (hkind : call.kind = kind) (hm : m ∉ call.held) :
    (life.apply effect).Resource kind m := by
  subst hkind
  cases hshuts with
  | stopManager i hpool hdispatcher | joinManager i hpool hdispatcher
  | clear hpool hdispatcher =>
      cases m with
      | pool => exact absurd hpool hm
      | dispatcher => exact fun hkind => absurd (hdispatcher hkind) hm
      | manager => trivial
      | threadList => trivial
  | stop hkind hdispatcher =>
      cases m with
      | pool => exact h
      | dispatcher => exact absurd hdispatcher hm
      | manager => trivial
      | threadList => trivial
  | joinDispatcher =>
      cases m with
      | pool => exact h
      | dispatcher => exact h
      | manager => trivial
      | threadList => trivial
  | nothing effect hsame => exact hsame.symm ▸ h

/-- A task that leaves `execute` by an exception leaves the monitors in order. -/
theorem Call.Control.resource_of_execute {call : Call} {life : Life} (h : call.Control life)
    (hexecute : mayExecute call.method) {m : MonitorId} (hm : m ∈ call.held) :
    life.Resource call.kind m := by
  obtain ⟨task, htask⟩ := hexecute
  cases m with
  | manager => trivial
  | threadList => trivial
  | dispatcher =>
      cases call with
      | execute => nofun
      | queuedExecute task p =>
          cases p with
          | lock => exact absurd hm List.not_mem_nil
          | body => exact fun _ => h rfl
      | _ => cases htask
  | pool =>
      cases call with
      | execute task p =>
          cases p with
          | enter | woken => exact absurd hm List.not_mem_nil
          | scan p => exact h.1
          | _ => exact h
      | queuedExecute task p => cases p <;> simp [held, Section.held] at hm
      | _ => cases htask

/-! ## The annotation -/

namespace Config

variable (cfg : Config)

/-- What the threads know of the life of the pool. -/
def lifecycle : Annotation Tid MonitorId Pool Point where
  assertion t p pool := p.Control cfg.size t pool.life
  resource m pool := pool.life.Resource cfg.kind m
  invariant pool := pool.life.WellFormed cfg.size

variable {cfg}

/-- Only calls change the life of a pool. -/
theorem Moves.shuts {pool : Pool} {t : Tid} {input : Input} {p : Point} {piece : Piece Point}
    (hmoves : cfg.Moves pool t input p piece) (h : p.Control cfg.size t pool.life)
    {effect : Effect} (heffect : piece.effect = some effect) :
    pool.life.apply effect = pool.life ∨
      ∃ call, t ≠ .dispatcher ∧ p = t.calling (some call) ∧
        call.Shuts piece.op pool.life effect := by
  cases hmoves with
  | enter t method call ht hentry => exact .inl (Call.life_apply_entered heffect _)
  | call t call ht =>
      exact .inr ⟨call, ht, rfl, Call.code_shuts (((Tid.control_calling ht).mp h).1 call rfl)
        heffect⟩
  | dispatcher hmoves =>
      exact .inl ((Life.after_of_some (by exact heffect) _).symm.trans hmoves.life_after)
  | worker m input hmoves =>
      exact .inl ((Life.after_of_some (by exact heffect) _).symm.trans hmoves.life_after)

/-- What a thread knows survives the steps of the others. -/
theorem Point.Control.frame {t other : Tid} {call : Call} {place : Point} {life : Life}
    {op : Op Tid MonitorId} {effect : Effect} (ht : t ≠ .dispatcher)
    (hkind : call.kind = cfg.kind) (hshuts : call.Shuts op life effect)
    (hother : place.Control cfg.size other life)
    (hfits : place.Fits cfg.kind mayExecute other)
    (hdisjoint : ∀ m, m ∈ (t.calling (some call)).held t → m ∉ place.held other)
    (hjoin : op = .join other → place.exited = true) :
    place.Control cfg.size other (life.apply effect) := by
  have hheld : ∀ m ∈ call.held, m ∉ place.held other := fun m hm => by
    refine hdisjoint m ?_
    rw [Tid.held_calling ht]
    exact List.mem_append_left _ hm
  cases other with
  | client c =>
      cases place with
      | client inner =>
          rintro second ⟨⟩
          exact Call.Control.frame (hother second rfl) hshuts
            ((hfits second rfl).trans hkind.symm) hheld
      | dispatcher => exact hother.elim
      | worker => exact hother.elim
  | dispatcher =>
      cases place with
      | dispatcher p =>
          by_cases hexited : p = .exited
          · subst hexited
            trivial
          · have hqueued : call.kind = .queuedThreadPool := hkind.trans (hfits hexited)
            cases hshuts with
            | stopManager m hpool hdispatcher | joinManager m hpool hdispatcher
            | clear hpool hdispatcher =>
                exact QueuedThreadPool.RunPoint.Control.of_outside hother
                  (hheld _ (hdispatcher hqueued)) fun h => h
            | stop _ hdispatcher =>
                exact QueuedThreadPool.RunPoint.Control.of_outside hother
                  (hheld _ hdispatcher) fun h => h
            | joinDispatcher _ hjoined =>
                rcases hjoined with hop | hstatus
                · cases p <;> simp_all [Point.exited]
                · exact absurd (QueuedThreadPool.RunPoint.Control.exited hother hstatus) hexited
            | nothing effect hsame => exact hsame.symm ▸ hother
      | client => exact hother.elim
      | worker => exact hother.elim
  | worker m =>
      cases place with
      | worker p =>
          refine ⟨fun hm => ?_, hother.2.1, fun second hsecond => ?_⟩
          · refine TaskManager.RunPoint.Control.frame (hother.1 hm) hshuts hheld fun hop => ?_
            have hexited := hjoin hop
            cases p <;> simp_all [Point.exited]
          · refine Call.Control.frame (hother.2.2 second hsecond) hshuts
              ((hfits second hsecond).1.trans hkind.symm) fun monitor hm hmem => ?_
            subst hsecond
            exact hheld monitor hm (List.mem_append_left _ hmem)
      | client => exact hother.elim
      | dispatcher => exact hother.elim

theorem lifecycle_valid :
    Annotation.Valid cfg.program (cfg.shape mayExecute) cfg.lifecycle
      (TasksCall mayExecute) where
  assertion hbefore _ := by
    rw [dataAfter_eq]
    show Point.Control _ _ _ (Pool.life _)
    rw [Piece.life_after]
    exact (code_moves hbefore.code).control hbefore.assertion.1 hbefore.assertion.2
      hbefore.invariant.2.nodup fun m hop => (hbefore.lock m hop).2
  release m hbefore _ hop := by
    rw [dataAfter_eq]
    show Life.Resource _ _ (Pool.life _)
    rw [Piece.life_after]
    exact (code_moves hbefore.code).release hbefore.assertion.1 hbefore.assertion.2 hop
  invariant hbefore _ heffect := by
    show Life.WellFormed _ (Pool.life (Pool.apply _ _))
    rw [Pool.life_apply]
    rcases (code_moves hbefore.code).shuts hbefore.assertion.2 heffect with
      hsame | ⟨call, -, -, hshuts⟩
    · exact hsame.symm ▸ hbefore.invariant.2
    · exact hbefore.invariant.2.shuts hshuts
  frame hbefore _ heffect _ hother hdisjoint hjoin := by
    show Point.Control _ _ _ (Pool.life (Pool.apply _ _))
    rw [Pool.life_apply]
    rcases (code_moves hbefore.code).shuts hbefore.assertion.2 heffect with
      hsame | ⟨call, ht, hp, hshuts⟩
    · exact hsame.symm ▸ hother.2
    · have hfits := hbefore.assertion.1
      rw [hp] at hfits hdisjoint
      exact Point.Control.frame ht ((fits_calling ht).mp hfits call rfl).1 hshuts hother.2
        hother.1 hdisjoint hjoin
  frame_resource m hbefore _ heffect hm _ hresource := by
    show Life.Resource _ _ (Pool.life (Pool.apply _ _))
    rw [Pool.life_apply]
    rcases (code_moves hbefore.code).shuts hbefore.assertion.2 heffect with
      hsame | ⟨call, ht, hp, hshuts⟩
    · exact hsame.symm ▸ hresource.2
    · have hfits := hbefore.assertion.1
      rw [hp] at hfits hm
      refine Life.Resource.shuts hresource.2 hshuts ((fits_calling ht).mp hfits call rfl).1
        fun hheld => hm ?_
      show m ∈ Point.held _ _
      rw [Tid.held_calling ht]
      exact List.mem_append_left _ hheld
  raise {t _ p pool _} _ _ _ hassertion _ _ := by
    obtain ⟨hfits, hcontrol⟩ := hassertion
    change p.Fits cfg.kind mayExecute t at hfits
    change p.Control cfg.size t pool.life at hcontrol
    show p.handler.Control cfg.size t pool.life ∧ ∀ released ∈ p.held t,
      released ∉ p.handler.held t → pool.life.Resource cfg.kind released
    rcases p.handler_cases with hsame | ⟨call, rfl, -⟩
    · rw [hsame]
      exact ⟨hcontrol, fun released hheld hnot => absurd hheld hnot⟩
    · cases t with
      | client | dispatcher => exact hfits.elim
      | worker m =>
          have ht : Tid.worker m ≠ .dispatcher := nofun
          obtain ⟨hkind, hallowed⟩ := (fits_calling ht).mp hfits call rfl
          obtain ⟨hcall, hactive⟩ := (Tid.control_calling ht).mp hcontrol
          refine ⟨?_, fun released hheld hnot => ?_⟩
          · exact (Tid.control_calling ht).mpr ⟨nofun, hactive⟩
          · rcases List.mem_append.mp hheld with hmem | hmem
            · exact hkind ▸
                Call.Control.resource_of_execute (hcall call rfl) (hallowed m rfl) hmem
            · exact absurd hmem hnot

theorem lifecycle_initial : cfg.lifecycle.Holds cfg.initial where
  assertion t := by
    show (cfg.initialPoint t).Control cfg.size t cfg.initialPool.life
    cases t with
    | client => rintro _ ⟨⟩
    | dispatcher =>
        simp only [initialPoint]
        split
        · next h => simp [Point.Control, QueuedThreadPool.RunPoint.Control, initialPool,
            startStatus, h.2]
        · trivial
    | worker m =>
        simp only [initialPoint]
        split
        · next h =>
            refine ⟨fun _ => ?_, fun hm => absurd h.1 (Nat.not_lt.mpr hm), by rintro _ ⟨⟩⟩
            simp [TaskManager.RunPoint.Control, initialPool, startStatus, h.2]
        · next h =>
            refine ⟨fun hm => ?_, fun _ => rfl, by rintro _ ⟨⟩⟩
            have hcreated : cfg.created m = false := by simpa [hm] using h
            simp [TaskManager.RunPoint.Control, initialPool, startStatus, hcreated]
  resource m _ := by
    have hintact : cfg.initialPool.life.Intact := fun _ _ => ⟨rfl, rfl⟩
    cases m with
    | pool => exact hintact
    | dispatcher => exact fun _ => ⟨hintact, .inl rfl⟩
    | manager => trivial
    | threadList => trivial
  invariant := by
    refine ⟨.inl rfl, fun hnil m hm => ?_, by rintro _ ⟨⟩⟩
    have hmem : m ∈ List.range cfg.size := List.mem_range.mpr hm
    rw [show List.range cfg.size = [] from hnil] at hmem
    cases hmem

variable {guard : PoolState → PoolAction → Prop} {state : PoolState}

theorem lifecycle_of_reaches
    (hguard : ∀ state action, guard state action →
      Annotation.Respects (TasksCall mayExecute) state action)
    (hrun : Reaches cfg.program.step guard cfg.initial state) : cfg.lifecycle.Holds state :=
  lifecycle_valid.holds cfg.wellLocked (fun _ _ _ h => hguard _ _ h) cfg.locked_initial
    (fun _ hprior => shape_of_reaches hguard hprior) lifecycle_initial hrun

end Config

end ThreadPools.Posix
