/-
# Deadlock freedom of a Boost pool

A thread is blocked on a monitor when its next step is impossible and would be possible if
the monitor's mutex were free. A thread inside the pool's monitor is never blocked; a
worker inside its manager's monitor is blocked on the pool's monitor at most. So every
chain of blocked threads ends, also when tasks call the pool that runs them.
-/

import ThreadPools.Concurrency.Deadlock
import ThreadPools.Boost.Guarded

namespace ThreadPools.Boost

namespace Synchronized

variable {T : Type*} [DecidableEq T] {t : T} {s : Synchronized T} {choice : Choice}

theorem lock_eq_none {p : LockPoint}
    (h : lock t p s = none) : p = .acquire := by
  cases p with
  | acquire => rfl
  | test | own => cases h

omit [DecidableEq T] in
theorem enter_eq_none {p : EnterPoint}
    (h : enter t p s = none) : p = .acquire := by
  cases p with
  | acquire => rfl
  | own => cases h

theorem waitLoop_eq_none {timed holds : Bool} {p : WaitPoint}
    (h : waitLoop t timed holds choice p s = none) : p = .asleep := by
  cases p with
  | asleep => rfl
  | reset | check | disown | block | own => cases h

theorem trylock_ne_none {p : TryLockPoint} :
    trylock t p s ≠ none := by
  cases p with
  | attempt =>
      simp only [trylock]
      split <;> rintro ⟨⟩
  | test | own => rintro ⟨⟩

theorem unlock_ne_none {p : UnlockPoint} :
    unlock t p s ≠ none := by
  cases p <;> nofun

omit [DecidableEq T] in
theorem notify_ne_none {all : Bool} {p : NotifyPoint} :
    notify all choice p s ≠ none := by
  cases p <;> nofun

omit [DecidableEq T] in
theorem leave_ne_none {p : LeavePoint} :
    leave p s ≠ none := by
  cases p <;> nofun

end Synchronized

namespace Pool

open ThreadPools.Concurrency
open Standings (outside)

/-- The memory if the mutex of `x` were free. -/
def Memory.free (memory : Memory) (x : MonitorId) : Memory :=
  memory.apply (.sync x { memory.sync x with owner := none })

/-- The next step of `t` waits for the mutex of `x`. -/
def Blocked (size : Nat) (state : State) (t : Tid) (x : MonitorId) : Prop :=
  ∃ choice, code size state.ended choice t (state.pc t) state.memory = none ∧
    code size state.ended choice t (state.pc t) (state.memory.free x) ≠ none

/-- The next step of `t` waits for a mutex of `u`. -/
def BlockedBy (size : Nat) (state : State) (t u : Tid) : Prop :=
  ∃ x, Blocked size state t x ∧ (state.memory.sync x).owner = some u

/-! ## Where threads are blocked -/

/-- The monitor whose mutex the next step acquires. -/
def NotificationPoint.requests : NotificationPoint → Option MonitorId
  | .enter .acquire => some .pool
  | _ => none

def ThreadPool.ExecutePoint.requests : ThreadPool.ExecutePoint → Option MonitorId
  | .enter .acquire | .wait .asleep => some .pool
  | _ => none

def ThreadPool.CheckPoint.requests : ThreadPool.CheckPoint → Option MonitorId
  | .enter .acquire => some .pool
  | _ => none

def ThreadPool.TerminatePoint.requests : ThreadPool.TerminatePoint → Option MonitorId
  | .enter .acquire => some .pool
  | _ => none

def ThreadPool.DestroyPoint.requests : ThreadPool.DestroyPoint → Option MonitorId
  | .manager m (.enter .acquire) => some (.manager m)
  | _ => none

def Call.requests : Call → Option MonitorId
  | .execute _ p => p.requests
  | .isIdle p => p.requests
  | .isBusy p => p.requests
  | .terminate p => p.requests
  | .idleNotification p => p.requests
  | .destroy p => p.requests

def TaskManager.RunPoint.requests (m : ManagerId) : TaskManager.RunPoint Call → Option MonitorId
  | .add .acquire | .remove .acquire => some (.thread m)
  | .enter .acquire | .wait .asleep => some (.manager m)
  | .running (some call) => call.requests
  | .idle p => p.requests
  | _ => none

def Point.requests : Tid → Point → Option MonitorId
  | _, .client (some call) => call.requests
  | .worker m, .worker p => p.requests m
  | _, _ => none


section Blocked

variable {size : Nat} {ended : ManagerId → Bool} {t : Tid} {choice : Choice} {memory : Memory}
  {m : ManagerId} {x y : MonitorId}

/-- A step inside a method of `y` is blocked on `y` only. -/
theorem within_blocked {P R X : Type}
    {stepped : Synchronized Tid → Option (Synchronized Tid × (P ⊕ R))} {inside : P → X}
    {behind : R → X} (h : within y (stepped (memory.sync y)) inside behind = none)
    (hfree : within y (stepped ((memory.free x).sync y)) inside behind ≠ none) :
    x = y ∧ stepped (memory.sync y) = none := by
  have hnone : stepped (memory.sync y) = none := Option.map_eq_none_iff.mp h
  refine ⟨?_, hnone⟩
  by_contra hne
  rw [Memory.free, memory.sync_apply_of_ne (Ne.symm hne), hnone] at hfree
  exact hfree rfl

/-- A function body that is blocked blocks its caller. -/
theorem map_blocked {X Y : Type} {first second : Option X} {f : X → Y}
    (h : first.map f = none) (hfree : second.map f ≠ none) : first = none ∧ second ≠ none :=
  ⟨Option.map_eq_none_iff.mp h, mt Option.map_eq_none_iff.mpr hfree⟩

theorem idleNotification_blocked {p : NotificationPoint}
    (h : idleNotification t choice p memory = none)
    (hfree : idleNotification t choice p (memory.free x) ≠ none) : p.requests = some x := by
  cases p with
  | enter p =>
      obtain ⟨rfl, hnone⟩ := within_blocked h hfree
      cases Synchronized.lock_eq_none hnone
      rfl
  | notify p =>
      obtain ⟨-, hnone⟩ := within_blocked h hfree
      exact absurd hnone Synchronized.notify_ne_none
  | leave p =>
      obtain ⟨-, hnone⟩ := within_blocked h hfree
      exact absurd hnone Synchronized.unlock_ne_none

theorem isIdle_ne_none {p : TaskManager.IdlePoint} : TaskManager.isIdle m p memory ≠ none := by
  cases p <;> nofun

theorem setTask_not_blocked {task : Option Runnable} {p : TaskManager.SetTaskPoint}
    (h : TaskManager.setTask m task t choice p memory = none) : False := by
  cases p with
  | test | again | store => cases h
  | tryLock p => exact Synchronized.trylock_ne_none (Option.map_eq_none_iff.mp h)
  | giveUp p | leave p => exact Synchronized.unlock_ne_none (Option.map_eq_none_iff.mp h)
  | notify p => exact Synchronized.notify_ne_none (Option.map_eq_none_iff.mp h)

theorem execute_blocked {task : Option Runnable} {p : ThreadPool.ExecutePoint}
    (h : ThreadPool.execute size task t choice p memory = none)
    (hfree : ThreadPool.execute size task t choice p (memory.free x) ≠ none) :
    p.requests = some x := by
  cases p with
  | enter p =>
      obtain ⟨rfl, hnone⟩ := within_blocked h hfree
      cases Synchronized.lock_eq_none hnone
      rfl
  | isIdle m p => exact absurd (map_blocked h hfree).1 isIdle_ne_none
  | setTask m p => exact (setTask_not_blocked (map_blocked h hfree).1).elim
  | wait p =>
      obtain ⟨rfl, hnone⟩ := within_blocked h hfree
      cases Synchronized.waitLoop_eq_none hnone
      rfl
  | leave p =>
      obtain ⟨-, hnone⟩ := within_blocked h hfree
      exact absurd hnone Synchronized.unlock_ne_none

theorem check_blocked {expected : Bool} {p : ThreadPool.CheckPoint}
    (h : ThreadPool.check size expected t p memory = none)
    (hfree : ThreadPool.check size expected t p (memory.free x) ≠ none) :
    p.requests = some x := by
  cases p with
  | enter p =>
      obtain ⟨rfl, hnone⟩ := within_blocked h hfree
      cases Synchronized.lock_eq_none hnone
      rfl
  | isIdle m p => exact absurd (map_blocked h hfree).1 isIdle_ne_none
  | leave result p =>
      obtain ⟨-, hnone⟩ := within_blocked h hfree
      exact absurd hnone Synchronized.unlock_ne_none

theorem terminate_blocked {p : ThreadPool.TerminatePoint}
    (h : ThreadPool.terminate size t choice p memory = none)
    (hfree : ThreadPool.terminate size t choice p (memory.free x) ≠ none) :
    p.requests = some x := by
  cases p with
  | enter p =>
      obtain ⟨rfl, hnone⟩ := within_blocked h hfree
      cases Synchronized.lock_eq_none hnone
      rfl
  | stop m => cases h
  | notify p =>
      obtain ⟨-, hnone⟩ := within_blocked h hfree
      exact absurd hnone Synchronized.notify_ne_none
  | leave p =>
      obtain ⟨-, hnone⟩ := within_blocked h hfree
      exact absurd hnone Synchronized.unlock_ne_none

theorem destroy_blocked {p : ThreadPool.DestroyPoint}
    (h : ThreadPool.destroy size ended t choice p memory = none)
    (hfree : ThreadPool.destroy size ended t choice p (memory.free x) ≠ none) :
    p.requests = some x := by
  cases p with
  | next m =>
      simp only [ThreadPool.destroy] at h
      split at h <;> cases h
  | manager m p =>
      obtain ⟨hbody, hbodyFree⟩ := map_blocked h hfree
      cases p with
      | enter p =>
          obtain ⟨rfl, hnone⟩ := within_blocked hbody hbodyFree
          cases Synchronized.lock_eq_none hnone
          rfl
      | stop => cases hbody
      | notify p =>
          obtain ⟨-, hnone⟩ := within_blocked hbody hbodyFree
          exact absurd hnone Synchronized.notify_ne_none
      | leave p =>
          obtain ⟨-, hnone⟩ := within_blocked hbody hbodyFree
          exact absurd hnone Synchronized.unlock_ne_none
      | join => exact absurd hbody hbodyFree  -- a join waits for no mutex

theorem Call.code_blocked {call : Call} (h : call.code size ended t choice memory = none)
    (hfree : call.code size ended t choice (memory.free x) ≠ none) : call.requests = some x := by
  cases call <;> obtain ⟨hbody, hbodyFree⟩ := map_blocked h hfree
  case execute => exact execute_blocked hbody hbodyFree
  case isIdle | isBusy => exact check_blocked hbody hbodyFree
  case terminate => exact terminate_blocked hbody hbodyFree
  case idleNotification => exact idleNotification_blocked hbody hbodyFree
  case destroy => exact destroy_blocked hbody hbodyFree

theorem TaskManager.run_blocked {p : TaskManager.RunPoint Call}
    (h : TaskManager.run m (Call.code size ended t choice) choice p memory = none)
    (hfree : TaskManager.run m (Call.code size ended t choice) choice p (memory.free x) ≠ none) :
    p.requests m = some x := by
  cases p with
  | add p | remove p =>
      obtain ⟨rfl, hnone⟩ := within_blocked h hfree
      cases Synchronized.lock_eq_none hnone
      rfl
  | added p | removed p =>
      obtain ⟨-, hnone⟩ := within_blocked h hfree
      exact absurd hnone Synchronized.unlock_ne_none
  | enter p =>
      obtain ⟨rfl, hnone⟩ := within_blocked h hfree
      cases Synchronized.enter_eq_none hnone
      rfl
  | wait p =>
      obtain ⟨rfl, hnone⟩ := within_blocked h hfree
      cases Synchronized.waitLoop_eq_none hnone
      rfl
  | leave p =>
      obtain ⟨-, hnone⟩ := within_blocked h hfree
      exact absurd hnone Synchronized.leave_ne_none
  | idle p =>
      obtain ⟨hbody, hbodyFree⟩ := map_blocked h hfree
      exact idleNotification_blocked hbody hbodyFree
  | running call =>
      cases call with
      | none => exact absurd rfl hfree
      | some call =>
          obtain ⟨hbody, hbodyFree⟩ := map_blocked h hfree
          exact Call.code_blocked hbody hbodyFree
  | take =>
      simp only [run] at h
      split at h <;> cases h
  | hasTask p => cases p <;> cases h
  | exited => exact absurd rfl hfree
  | loop | woken | stopped | delete | clear | finish => cases h

end Blocked

variable {size : Nat} {state : State} {t u : Tid} {x y : MonitorId}

theorem Blocked.requests (h : Blocked size state t x) : (state.pc t).requests t = some x := by
  obtain ⟨choice, hnone, hfree⟩ := h
  generalize state.pc t = p at hnone hfree ⊢
  match t, p with
  | t, .client none => exact absurd rfl hfree
  | t, .client (some call) =>
      obtain ⟨hbody, hbodyFree⟩ := map_blocked hnone hfree
      exact Call.code_blocked hbody hbodyFree
  | .worker m, .worker p =>
      obtain ⟨hbody, hbodyFree⟩ := map_blocked hnone hfree
      exact TaskManager.run_blocked hbody hbodyFree
  | .client c, .worker p => exact absurd rfl hfree

/-! ## Chains of blocked threads -/

/-- A call that requests a mutex is outside of all monitors. -/
theorem Call.standings_of_requests {call : Call} (h : call.requests = some x) :
    call.standings = outside ∧ (x = .pool ∨ ∃ p, call = .destroy p) := by
  have hout : ∀ y, outside.set y .outside = outside := fun y => Standings.set_outside rfl
  cases call with
  | execute task p =>
      cases p with
      | enter p | wait p =>
          cases p <;> cases h
          exact ⟨hout .pool, .inl rfl⟩
      | isIdle | setTask | leave => cases h
  | isIdle p | isBusy p =>
      cases p with
      | enter p =>
          cases p <;> cases h
          exact ⟨hout .pool, .inl rfl⟩
      | isIdle | leave => cases h
  | terminate p =>
      cases p with
      | enter p =>
          cases p <;> cases h
          exact ⟨hout .pool, .inl rfl⟩
      | stop | notify | leave => cases h
  | idleNotification p =>
      cases p with
      | enter p =>
          cases p <;> cases h
          exact ⟨hout .pool, .inl rfl⟩
      | notify | leave => cases h
  | destroy p =>
      cases p with
      | next => cases h
      | manager m p =>
          cases p with
          | enter p =>
              cases p <;> cases h
              exact ⟨hout (.manager m), .inr ⟨_, rfl⟩⟩
          | stop | notify | leave | join => cases h

theorem NotificationPoint.standings_of_requests {p : NotificationPoint}
    (h : p.requests = some x) : p.standings = outside ∧ x = .pool := by
  cases p with
  | enter p =>
      cases p <;> cases h
      exact ⟨Standings.set_outside rfl, rfl⟩
  | notify | leave => cases h

/-- A thread that requests a mutex is outside of all monitors, or it is a worker inside its
manager that requests the pool's. -/
theorem Guarded.standings_of_requests (h : Guarded state)
    (hrequests : (state.pc t).requests t = some x) :
    (state.pc t).standings t = outside ∨
      x = .pool ∧ ∃ m, (state.pc t).standings t = outside.set (.manager m) .marked := by
  have hout : ∀ y, outside.set y .outside = outside := fun y => Standings.set_outside rfl
  have howner := h.owner
  have hfits := h.fits t
  cases t with
  | client c =>
      generalize state.pc (.client c) = p at hrequests hfits ⊢
      match p, hfits with
      | .client none, _ => cases hrequests
      | .client (some call), _ => exact .inl (Call.standings_of_requests hrequests).1
  | worker m =>
      have howner := h.owner m
      generalize state.pc (.worker m) = p at hrequests hfits howner ⊢
      match p, hfits with
      | .worker p, _ =>
          cases p with
          | add p | remove p | enter p | wait p =>
              cases p <;> cases hrequests
              exact .inl (hout _)
          | running call =>
              cases call with
              | none => cases hrequests
              | some call =>
                  obtain ⟨hstandings, rfl | ⟨p, rfl⟩⟩ := Call.standings_of_requests hrequests
                  · exact .inr ⟨rfl, m, by rw [standings_running, hstandings]⟩
                  · exact absurd rfl (howner p)
          | idle p =>
              obtain ⟨hstandings, rfl⟩ := NotificationPoint.standings_of_requests hrequests
              exact .inr ⟨rfl, m, congrArg
                (fun standings : Standings => standings.set (.manager m) .marked) hstandings⟩
          | _ => cases hrequests

/-- A thread does not own what it is outside of. -/
theorem Guarded.not_owner (h : Guarded state)
    (houtside : (state.pc t).standings t x = .outside) :
    (state.memory.sync x).owner ≠ some t := by
  have hstanding := h.standing t x
  rwa [houtside] at hstanding

/-- A thread is not blocked on a monitor it is inside of. -/
theorem Guarded.not_blocked_by_itself (h : Guarded state) (hblocked : Blocked size state t x) :
    (state.memory.sync x).owner ≠ some t := by
  refine h.not_owner ?_
  rcases h.standings_of_requests hblocked.requests with hstandings | ⟨rfl, m, hstandings⟩ <;>
    rw [hstandings]
  · rfl
  · rfl

/-- The pool's monitor comes last on every chain of blocked threads. -/
def MonitorId.rank : MonitorId → Nat
  | .pool => 1
  | .manager _ | .thread _ => 0

theorem Guarded.rank_lt (h : Guarded state) (howner : (state.memory.sync x).owner = some u)
    (hblocked : Blocked size state u y) : x.rank < y.rank := by
  rcases h.standings_of_requests hblocked.requests with hstandings | ⟨rfl, m, hstandings⟩
  · exact absurd howner (h.not_owner (by rw [hstandings]; rfl))
  · cases x with
    | pool => exact absurd howner (h.not_owner (by rw [hstandings]; rfl))
    | manager | thread => exact Nat.zero_lt_one

/-- Deadlock freedom: in every state of every run no thread waits for a mutex it owns, and
the threads that wait for one another form no cycle. -/
theorem never_deadlocked {guard : State → Action → Prop}
    (hguard : ∀ state action, guard state action → OwnerDestroys state action)
    (hrun : Reaches (step size) guard (initial size) state) :
    (∀ t x, Blocked size state t x → (state.memory.sync x).owner ≠ some t) ∧
      ¬ ∃ t, Relation.TransGen (BlockedBy size state) t t := by
  have h := guarded_of_reaches hguard hrun
  refine ⟨fun t x hblocked => h.not_blocked_by_itself hblocked, fun ⟨t, hcycle⟩ => ?_⟩
  let edge (label : Nat) (t u : Tid) : Prop :=
    ∃ x, label = x.rank ∧ Blocked size state t x ∧ (state.memory.sync x).owner = some u
  have hgrows : ∀ {label later first second third}, edge label first second →
      edge later second third → label < later := by
    rintro _ _ _ _ _ ⟨x, rfl, -, howner⟩ ⟨y, rfl, hblocked, -⟩
    exact h.rank_lt howner hblocked
  exact not_transGen_self_of_labels edge hgrows t (Relation.TransGen.mono
    (fun t u ⟨x, hblocked, howner⟩ => ⟨x.rank, x, rfl, hblocked, howner⟩) t t hcycle)

/-- A task calls `execute` on its own pool while a client is inside the pool. -/
theorem never_deadlocked_nested : ∃ state : State,
    BlockedBy 1 state (.worker 0) (.client 1) ∧
      ¬ ∃ t, Relation.TransGen (BlockedBy 1 state) t t := by
  let choice : Choice := { waiter := 0, timeout := false, condition := false }
  obtain ⟨state, hrun, hobserved⟩ : ∃ state : State,
      Reaches (step 1) Contract (initial 1) state ∧
        ((code 1 state.ended choice (.worker 0) (state.pc (.worker 0)) state.memory).isNone,
          (code 1 state.ended choice (.worker 0) (state.pc (.worker 0))
            (state.memory.free .pool)).isNone,
          (state.memory.sync .pool).owner) = (true, false, some (.client 1)) :=
    Reaches.of_observed (fun state action => decide (Contract state action))
      (Action.steps (.worker 0) 13 ++
        .call (.client 0) (.execute (some 5)) :: Action.steps (.client 0) 19 ++
        Action.steps (.worker 0) 6 ++ .call (.client 1) .isBusy :: Action.steps (.client 1) 3 ++
        .call (.worker 0) (.execute (some 9)) :: Action.steps (.worker 0) 1)
      (fun _ _ => of_decide_eq_true) (by decide +kernel)
  simp only [Prod.mk.injEq, Option.isNone_iff_eq_none, Option.isNone_eq_false_iff,
    Option.isSome_iff_ne_none] at hobserved
  obtain ⟨hnone, hfree, howner⟩ := hobserved
  exact ⟨state, ⟨.pool, ⟨choice, hnone, hfree⟩, howner⟩,
    (never_deadlocked (fun _ _ h => ownerDestroys_of_contract h) hrun).2⟩

end Pool

end ThreadPools.Boost
