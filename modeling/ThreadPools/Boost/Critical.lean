/-
# The critical sections of a Boost pool

Every method of the pool brackets its work between `lock()` and `unlock()`, and a worker
is inside its own manager all the time except in its wait. At each point it is known
how the thread stands to every monitor. A worker that calls `execute` from a task never
gets to the `try_lock()` of its own manager, for its slot is occupied while the task runs.
-/

import ThreadPools.Boost.Ownership
import ThreadPools.Boost.Steps

namespace ThreadPools.Boost

/-! ## The methods of a monitor as brackets -/

namespace Synchronized

variable {T : Type*} {t : T} {s s' : Synchronized T} {choice : Choice}

/-- A thread on its way into the monitor. -/
def LockPoint.entering : LockPoint → Standing
  | .test | .acquire => .outside
  | .own => .inside

/-- A thread that tries to get into the monitor. -/
def TryLockPoint.entering : TryLockPoint → Standing
  | .test | .attempt => .outside
  | .own => .inside

/-- A thread on its way out of the monitor. -/
def UnlockPoint.leaving : UnlockPoint → Standing
  | .test | .disown => .marked
  | .release => .unmarked

/-- A thread that waits inside the monitor. -/
def WaitPoint.waiting : WaitPoint → Standing
  | .reset | .check | .disown => .marked
  | .block => .unmarked
  | .asleep => .outside
  | .own _ => .inside

/-- A worker on its way out of the monitor. -/
def LeavePoint.leaving : LeavePoint → Standing
  | .disown => .marked
  | .release => .unmarked

variable [DecidableEq T]

theorem lock_enters {p : LockPoint} {next : LockPoint ⊕ Bool} (hconsistent : s.Consistent)
    (hstanding : p.entering.Holds t s) (hstep : lock t p s = some (s', next)) :
    Disciplined t s s' (next.elim LockPoint.entering fun _ => .marked) := by
  cases p with
  | test =>
      simp only [lock, Option.some.injEq, Prod.mk.injEq] at hstep
      obtain ⟨rfl, rfl⟩ := hstep
      rw [if_neg fun htid => hstanding (hconsistent t htid)]
      exact .keep hconsistent rfl rfl hstanding
  | acquire =>
      simp only [lock] at hstep
      split at hstep
      · next hfree =>
          cases hstep
          exact .acquire hconsistent hfree rfl rfl
      · cases hstep
  | own =>
      cases hstep
      exact .own hconsistent hstanding rfl rfl

theorem trylock_enters {p : TryLockPoint} {next : TryLockPoint ⊕ TryLockResult}
    (hconsistent : s.Consistent) (hstanding : p.entering.Holds t s)
    (hstep : trylock t p s = some (s', next)) :
    Disciplined t s s'
      (next.elim TryLockPoint.entering fun r => if r = .busy then .outside else .marked) := by
  cases p with
  | test =>
      simp only [trylock, Option.some.injEq, Prod.mk.injEq] at hstep
      obtain ⟨rfl, rfl⟩ := hstep
      rw [if_neg fun htid => hstanding (hconsistent t htid)]
      exact .keep hconsistent rfl rfl hstanding
  | attempt =>
      simp only [trylock] at hstep
      split at hstep
      · next hfree =>
          cases hstep
          exact .acquire hconsistent hfree rfl rfl
      · cases hstep
        exact .keep hconsistent rfl rfl hstanding
  | own =>
      cases hstep
      exact .own hconsistent hstanding rfl rfl

theorem unlock_leaves {p : UnlockPoint} {next : UnlockPoint ⊕ Bool} (hconsistent : s.Consistent)
    (hstanding : p.leaving.Holds t s) (hstep : unlock t p s = some (s', next)) :
    Disciplined t s s' (next.elim UnlockPoint.leaving fun _ => .outside) := by
  cases p with
  | test =>
      simp only [unlock, Option.some.injEq, Prod.mk.injEq] at hstep
      obtain ⟨rfl, rfl⟩ := hstep
      rw [if_pos hstanding.2]
      exact .keep hconsistent rfl rfl hstanding
  | disown =>
      cases hstep
      exact .disown hconsistent hstanding.1 rfl rfl
  | release =>
      cases hstep
      exact .release_outside hconsistent hstanding.1 hstanding.2 rfl rfl

theorem waitLoop_waits {timed holds : Bool} {p : WaitPoint} {next : WaitPoint ⊕ Bool}
    (hconsistent : s.Consistent) (hstanding : p.waiting.Holds t s)
    (hstep : waitLoop t timed holds choice p s = some (s', next)) :
    Disciplined t s s' (next.elim WaitPoint.waiting fun _ => .marked) := by
  cases p with
  | reset =>
      cases hstep
      exact .keep hconsistent rfl rfl hstanding
  | check =>
      simp only [waitLoop, Option.some.injEq, Prod.mk.injEq] at hstep
      obtain ⟨rfl, rfl⟩ := hstep
      split <;> exact .keep hconsistent rfl rfl hstanding
  | disown =>
      cases hstep
      exact .disown hconsistent hstanding.1 rfl rfl
  | block =>
      cases hstep
      exact .release_outside hconsistent hstanding.1 hstanding.2 rfl rfl
  | asleep =>
      simp only [waitLoop] at hstep
      split at hstep
      · next hawake =>
          cases hstep
          exact .acquire hconsistent hawake.1 rfl rfl
      · cases hstep
  | own timeout =>
      cases hstep
      cases timeout <;> exact .own hconsistent hstanding rfl rfl

omit [DecidableEq T] in
theorem notify_notifies {all : Bool} {p : NotifyPoint} {next : NotifyPoint ⊕ Unit}
    (hconsistent : s.Consistent) (hstanding : Standing.marked.Holds t s)
    (hstep : notify all choice p s = some (s', next)) :
    Disciplined t s s' (next.elim (fun _ => .marked) fun _ => .marked) := by
  cases p <;> cases hstep <;> exact .keep hconsistent rfl rfl hstanding

omit [DecidableEq T] in
theorem enter_enters {p : EnterPoint} {next : EnterPoint ⊕ Unit} (hconsistent : s.Consistent)
    (hstanding : p.standing.Holds t s) (hstep : enter t p s = some (s', next)) :
    Disciplined t s s' (next.elim EnterPoint.standing fun _ => .marked) := by
  cases p with
  | acquire =>
      simp only [enter] at hstep
      split at hstep
      · next hfree =>
          cases hstep
          exact .acquire hconsistent hfree rfl rfl
      · cases hstep
  | own =>
      cases hstep
      exact .own hconsistent hstanding rfl rfl

omit [DecidableEq T] in
theorem leave_leaves {p : LeavePoint} {next : LeavePoint ⊕ Unit} (hconsistent : s.Consistent)
    (hstanding : p.leaving.Holds t s) (hstep : leave p s = some (s', next)) :
    Disciplined t s s' (next.elim LeavePoint.leaving fun _ => .outside) := by
  cases p with
  | disown =>
      cases hstep
      exact .disown hconsistent hstanding.1 rfl rfl
  | release =>
      cases hstep
      exact .release_outside hconsistent hstanding.1 hstanding.2 rfl rfl

end Synchronized

namespace Pool

open ThreadPools.Concurrency

/-! ## Where a thread stands -/

/-- How a thread stands to all monitors. -/
abbrev Standings := MonitorId → Standing

namespace Standings

/-- The thread is outside of all monitors. -/
def outside : Standings := fun _ => .outside

/-- The thread is on its way into or out of the monitor `x`, or inside. -/
def set (standings : Standings) (x : MonitorId) (standing : Standing) : Standings :=
  Function.update standings x standing

@[simp] theorem set_self (standings : Standings) (x : MonitorId) (standing : Standing) :
    standings.set x standing x = standing :=
  Function.update_self ..

theorem set_of_ne (standings : Standings) {x y : MonitorId} (h : y ≠ x) (standing : Standing) :
    standings.set x standing y = standings y :=
  Function.update_of_ne h ..

/-- A monitor the thread is outside of anyway. -/
theorem set_outside {standings : Standings} {x : MonitorId} (h : standings x = .outside) :
    standings.set x .outside = standings := by
  rw [set, ← h, Function.update_eq_self]

end Standings

open Standings (outside)

def NotificationPoint.standings : NotificationPoint → Standings
  | .enter p => outside.set .pool p.entering
  | .notify _ => outside.set .pool .marked
  | .leave p => outside.set .pool p.leaving

namespace TaskManager

/-- How a thread in `set_task` stands to the manager. -/
def SetTaskPoint.standing : SetTaskPoint → Standing
  | .test => .outside
  | .tryLock p => p.entering
  | .again => .marked
  | .giveUp p => p.leaving
  | .store => .marked
  | .notify _ => .marked
  | .leave p => p.leaving

/-- How a thread in the destructor stands to the manager. -/
def DestroyPoint.standing : DestroyPoint → Standing
  | .enter p => p.entering
  | .stop => .marked
  | .notify _ => .marked
  | .leave p => p.leaving
  | .join => .outside

/-- How the worker of `m` stands to all monitors; `nested` is for the method its task has
called. -/
def RunPoint.standings {C : Type} (m : ManagerId) (nested : C → Standings) :
    RunPoint C → Standings
  | .add p => outside.set (.thread m) p.entering
  | .added p => outside.set (.thread m) p.leaving
  | .enter p => outside.set (.manager m) p.standing
  | .wait p => outside.set (.manager m) p.waiting
  | .running (some c) => (nested c).set (.manager m) .marked
  | .idle p => p.standings.set (.manager m) .marked
  | .leave p => outside.set (.manager m) p.leaving
  | .remove p => outside.set (.thread m) p.entering
  | .finish => outside.set (.thread m) .marked
  | .removed p => outside.set (.thread m) p.leaving
  | .exited => outside
  | .loop | .hasTask _ | .woken | .take | .running none | .delete _ | .clear _ | .stopped =>
      outside.set (.manager m) .marked

end TaskManager

namespace ThreadPool

def ExecutePoint.standings : ExecutePoint → Standings
  | .enter p => outside.set .pool p.entering
  | .isIdle _ _ => outside.set .pool .marked
  | .setTask m p => (outside.set .pool .marked).set (.manager m) p.standing
  | .wait p => outside.set .pool p.waiting
  | .leave p => outside.set .pool p.leaving

/-- The call is at work on the monitor of the manager `m`. -/
def ExecutePoint.Touches (m : ManagerId) : ExecutePoint → Prop
  | .setTask other p => other = m ∧ p ≠ .test
  | _ => False

def CheckPoint.standings : CheckPoint → Standings
  | .enter p => outside.set .pool p.entering
  | .isIdle _ _ => outside.set .pool .marked
  | .leave _ p => outside.set .pool p.leaving

def TerminatePoint.standings : TerminatePoint → Standings
  | .enter p => outside.set .pool p.entering
  | .stop _ => outside.set .pool .marked
  | .notify _ => outside.set .pool .marked
  | .leave p => outside.set .pool p.leaving

def DestroyPoint.standings : DestroyPoint → Standings
  | .next _ => outside
  | .manager m p => outside.set (.manager m) p.standing

/-- The call is at work on the manager `m`. -/
def DestroyPoint.Touches (m : ManagerId) : DestroyPoint → Prop
  | .next _ => False
  | .manager other _ => other = m

end ThreadPool

def Call.standings : Call → Standings
  | .execute _ p => p.standings
  | .isIdle p => p.standings
  | .isBusy p => p.standings
  | .terminate p => p.standings
  | .idleNotification p => p.standings
  | .destroy p => p.standings

/-- The call is at work on the manager `m`. -/
def Call.Touches (m : ManagerId) : Call → Prop
  | .execute _ p => p.Touches m
  | .destroy p => p.Touches m
  | _ => False

def Point.standings : Tid → Point → Standings
  | _, .client none => outside
  | _, .client (some call) => call.standings
  | .worker m, .worker p => p.standings m Call.standings
  | .client _, .worker _ => outside

/-! ## One step -/

/-- How a step of `t` changes its standings: it writes one monitor with discipline, or none. -/
inductive Bracket (t : Tid) (memory : Memory) (before : Standings) :
    Effect → Standings → Prop
  | sync {x : MonitorId} {s : Synchronized Tid} {after : Standings}
      (hdisciplined : Disciplined t (memory.sync x) s (after x))
      (hframe : ∀ y, y ≠ x → after y = before y) : Bracket t memory before (.sync x s) after
  | other {effect : Effect} (hother : ∀ x s, effect ≠ .sync x s) :
      Bracket t memory before effect before

variable {t : Tid} {memory : Memory} {choice : Choice} {m : ManagerId}

/-- All monitors are consistent. -/
def Memory.Consistent (memory : Memory) : Prop := ∀ x, (memory.sync x).Consistent

/-- The thread stands to all monitors as its point says. -/
def Standings.Hold (standings : Standings) (t : Tid) (memory : Memory) : Prop :=
  ∀ x, (standings x).Holds t (memory.sync x)

/-- A step of a function body that changes the relation to one monitor. -/
theorem Bracket.within {P R X : Type} {x : MonitorId} {base : Standings} {before : Standing}
    {table : P → Standing} {result : R → Standing}
    {stepped : Option (Synchronized Tid × (P ⊕ R))} {inside : P → X} {behind : R → X}
    {piece : Piece X} (standings : X → Standings)
    (hpiece : within x stepped inside behind = some piece)
    (hstepped : ∀ s next, stepped = some (s, next) →
      Disciplined t (memory.sync x) s (next.elim table result))
    (hinside : ∀ p, standings (inside p) = base.set x (table p))
    (hbehind : ∀ r, standings (behind r) = base.set x (result r)) :
    Bracket t memory (base.set x before) piece.effect (standings piece.next) := by
  obtain ⟨s, next, hnext, rfl⟩ := within_eq_some hpiece
  have hafter : standings (next.elim inside behind) = base.set x (next.elim table result) := by
    cases next with
    | inl p => exact hinside p
    | inr r => exact hbehind r
  simp only [hafter]
  refine .sync ?_ fun y hy => ?_
  · rw [Standings.set_self]
    exact hstepped s next hnext
  · rw [Standings.set_of_ne _ hy, Standings.set_of_ne _ hy]

/-- A step that writes no monitor. -/
theorem Bracket.still {effect : Effect} {before after : Standings}
    (hother : ∀ x s, effect ≠ .sync x s) (hsame : after = before) :
    Bracket t memory before effect after :=
  hsame ▸ .other hother

/-- A caller knows where it stands behind the steps of a function body. -/
theorem Bracket.call {Q R X : Type} {before : Standings} {tableIn : Q → Standings}
    {tableOut : R → Standings} {piece : Piece (Q ⊕ R)} {f : Q ⊕ R → X} (standings : X → Standings)
    (h : Bracket t memory before piece.effect (piece.next.elim tableIn tableOut))
    (hinside : ∀ q, standings (f (.inl q)) = tableIn q)
    (hbehind : ∀ r, standings (f (.inr r)) = tableOut r) :
    Bracket t memory before (piece.map f).effect (standings (piece.map f).next) := by
  have hafter : standings (f piece.next) = piece.next.elim tableIn tableOut := by
    cases piece.next with
    | inl q => exact hinside q
    | inr r => exact hbehind r
  rw [Piece.map_effect, Piece.map_next, hafter]
  exact h

theorem idleNotification_bracket {p : NotificationPoint} {piece : Piece (NotificationPoint ⊕ Unit)}
    (hconsistent : memory.Consistent) (hpool : (p.standings .pool).Holds t (memory.sync .pool))
    (hpiece : idleNotification t choice p memory = some piece) :
    Bracket t memory p.standings piece.effect
      (piece.next.elim NotificationPoint.standings fun _ => outside) := by
  cases p with
  | enter p =>
      exact .within (Sum.elim _ _) hpiece
        (fun _ _ hnext => Synchronized.lock_enters (hconsistent .pool) hpool hnext)
        (fun _ => rfl) (fun _ => rfl)
  | notify p =>
      exact .within (Sum.elim _ _) hpiece
        (fun _ _ hnext => Synchronized.notify_notifies (hconsistent .pool) hpool hnext)
        (fun _ => rfl) (fun _ => rfl)
  | leave p =>
      exact .within (Sum.elim _ _) hpiece
        (fun _ _ hnext => Synchronized.unlock_leaves (hconsistent .pool) hpool hnext)
        (fun _ => rfl) (fun _ => (Standings.set_outside rfl).symm)

namespace TaskManager

theorem isIdle_still {p : IdlePoint} {piece : Piece (IdlePoint ⊕ Bool)}
    (hpiece : isIdle m p memory = some piece) : piece.effect = .read := by
  cases p <;> cases hpiece <;> rfl

theorem setTask_bracket {task : Option Runnable} {p : SetTaskPoint}
    {piece : Piece (SetTaskPoint ⊕ Bool)} {base : Standings} (hconsistent : memory.Consistent)
    (hstanding : p ≠ .test → p.standing.Holds t (memory.sync (.manager m)))
    (hpiece : setTask m task t choice p memory = some piece) :
    Bracket t memory (base.set (.manager m) p.standing) piece.effect
      (piece.next.elim (fun q => base.set (.manager m) q.standing)
        fun _ => base.set (.manager m) .outside) := by
  have hmonitor := hconsistent (.manager m)
  cases p with
  | test =>
      cases hpiece
      refine .still (fun _ _ => nofun) ?_
      dsimp only
      split <;> rfl
  | tryLock p =>
      refine .within (Sum.elim _ _) hpiece
        (fun _ _ hnext => Synchronized.trylock_enters hmonitor (hstanding nofun) hnext)
        (fun _ => rfl) fun r => ?_
      split <;> rfl
  | again =>
      cases hpiece
      refine .still (fun _ _ => nofun) ?_
      dsimp only
      split <;> rfl
  | giveUp p =>
      exact .within (Sum.elim _ _) hpiece
        (fun _ _ hnext => Synchronized.unlock_leaves hmonitor (hstanding nofun) hnext)
        (fun _ => rfl) (fun _ => rfl)
  | store =>
      cases hpiece
      exact .still (fun _ _ => nofun) rfl
  | notify p =>
      exact .within (Sum.elim _ _) hpiece
        (fun _ _ hnext => Synchronized.notify_notifies hmonitor (hstanding nofun) hnext)
        (fun _ => rfl) (fun _ => rfl)
  | leave p =>
      exact .within (Sum.elim _ _) hpiece
        (fun _ _ hnext => Synchronized.unlock_leaves hmonitor (hstanding nofun) hnext)
        (fun _ => rfl) (fun _ => rfl)

theorem destroy_bracket {ended : ManagerId → Bool} {p : DestroyPoint}
    {piece : Piece (DestroyPoint ⊕ Unit)} (hconsistent : memory.Consistent)
    (hstanding : p.standing.Holds t (memory.sync (.manager m)))
    (hpiece : destroy m ended t choice p memory = some piece) :
    Bracket t memory (outside.set (.manager m) p.standing) piece.effect
      (piece.next.elim (fun q => outside.set (.manager m) q.standing) fun _ => outside) := by
  have hmonitor := hconsistent (.manager m)
  cases p with
  | enter p =>
      exact .within (Sum.elim _ _) hpiece
        (fun _ _ hnext => Synchronized.lock_enters hmonitor hstanding hnext)
        (fun _ => rfl) (fun _ => rfl)
  | stop =>
      cases hpiece
      exact .still (fun _ _ => by rintro ⟨⟩) rfl
  | notify p =>
      exact .within (Sum.elim _ _) hpiece
        (fun _ _ hnext => Synchronized.notify_notifies hmonitor hstanding hnext)
        (fun _ => rfl) (fun _ => rfl)
  | leave p =>
      exact .within (Sum.elim _ _) hpiece
        (fun _ _ hnext => Synchronized.unlock_leaves hmonitor hstanding hnext)
        (fun _ => rfl) (fun _ => rfl)
  | join =>
      have hout : outside = outside.set (.manager m) DestroyPoint.join.standing :=
        (Standings.set_outside rfl).symm
      simp only [destroy] at hpiece
      split at hpiece
      · cases hpiece
        exact .still (fun _ _ => by rintro ⟨⟩) hout
      · split at hpiece <;> cases hpiece
        exact .still (fun _ _ => by rintro ⟨⟩) hout

end TaskManager

namespace ThreadPool

theorem ExecutePoint.next_standings (size : Nat) (m : ManagerId) :
    (ExecutePoint.next size m).standings = outside.set .pool .marked := by
  unfold ExecutePoint.next
  split <;> rfl

theorem CheckPoint.next_standings (size : Nat) (m : ManagerId) :
    (CheckPoint.next size m).standings = outside.set .pool .marked := by
  unfold CheckPoint.next
  split <;> rfl

theorem TerminatePoint.next_standings (size : Nat) (m : ManagerId) :
    (TerminatePoint.next size m).standings = outside.set .pool .marked := by
  unfold TerminatePoint.next
  split <;> rfl

/-- Outside of a manager the pool's own monitor is all that counts. -/
theorem outside_manager (m : ManagerId) :
    (outside.set .pool .marked).set (.manager m) .outside = outside.set .pool .marked :=
  Standings.set_outside rfl

theorem execute_bracket {size : Nat} {task : Option Runnable} {p : ExecutePoint}
    {piece : Piece (ExecutePoint ⊕ Unit)} (hconsistent : memory.Consistent)
    (hpool : (p.standings .pool).Holds t (memory.sync .pool))
    (hmanager : ∀ m, p.Touches m → (p.standings (.manager m)).Holds t (memory.sync (.manager m)))
    (hpiece : execute size task t choice p memory = some piece) :
    Bracket t memory p.standings piece.effect
      (piece.next.elim ExecutePoint.standings fun _ => outside) := by
  cases p with
  | enter p =>
      exact .within (Sum.elim _ _) hpiece
        (fun _ _ hnext => Synchronized.lock_enters (hconsistent .pool) hpool hnext)
        (fun _ => rfl) (fun _ => ExecutePoint.next_standings size 0)
  | isIdle m p =>
      obtain ⟨body, hbody, rfl⟩ := Option.map_eq_some_iff.mp hpiece
      have hread := TaskManager.isIdle_still hbody
      rw [Piece.map_effect, hread]
      refine .still (fun _ _ => nofun) ?_
      rw [Piece.map_next]
      cases body.next with
      | inl q => rfl
      | inr idle =>
          cases idle
          · exact ExecutePoint.next_standings size (m + 1)
          · exact outside_manager m
  | setTask m p =>
      obtain ⟨body, hbody, rfl⟩ := Option.map_eq_some_iff.mp hpiece
      have hbody_standing : p ≠ .test →
          p.standing.Holds t (memory.sync (.manager m)) := fun hp => by
        have hself := hmanager m ⟨rfl, hp⟩
        simpa only [ExecutePoint.standings, Standings.set_self] using hself
      refine .call (Sum.elim _ _) (TaskManager.setTask_bracket hconsistent hbody_standing hbody)
        (fun _ => rfl) fun done => ?_
      rw [outside_manager]
      cases done
      · exact ExecutePoint.next_standings size (m + 1)
      · rfl
  | wait p =>
      exact .within (Sum.elim _ _) hpiece
        (fun _ _ hnext => Synchronized.waitLoop_waits (hconsistent .pool) hpool hnext)
        (fun _ => rfl) (fun _ => ExecutePoint.next_standings size 0)
  | leave p =>
      exact .within (Sum.elim _ _) hpiece
        (fun _ _ hnext => Synchronized.unlock_leaves (hconsistent .pool) hpool hnext)
        (fun _ => rfl) (fun _ => (Standings.set_outside rfl).symm)

theorem check_bracket {size : Nat} {expected : Bool} {p : CheckPoint}
    {piece : Piece (CheckPoint ⊕ Bool)} (hconsistent : memory.Consistent)
    (hpool : (p.standings .pool).Holds t (memory.sync .pool))
    (hpiece : check size expected t p memory = some piece) :
    Bracket t memory p.standings piece.effect
      (piece.next.elim CheckPoint.standings fun _ => outside) := by
  cases p with
  | enter p =>
      exact .within (Sum.elim _ _) hpiece
        (fun _ _ hnext => Synchronized.lock_enters (hconsistent .pool) hpool hnext)
        (fun _ => rfl) (fun _ => CheckPoint.next_standings size 0)
  | isIdle m p =>
      obtain ⟨body, hbody, rfl⟩ := Option.map_eq_some_iff.mp hpiece
      have hread := TaskManager.isIdle_still hbody
      rw [Piece.map_effect, hread]
      refine .still (fun _ _ => nofun) ?_
      rw [Piece.map_next]
      cases body.next with
      | inl q => rfl
      | inr idle =>
          simp only [Function.comp_apply, Sum.elim_inr, Sum.elim_inl]
          split
          · exact CheckPoint.next_standings size (m + 1)
          · rfl
  | leave result p =>
      exact .within (Sum.elim _ _) hpiece
        (fun _ _ hnext => Synchronized.unlock_leaves (hconsistent .pool) hpool hnext)
        (fun _ => rfl) (fun _ => (Standings.set_outside rfl).symm)

theorem terminate_bracket {size : Nat} {p : TerminatePoint}
    {piece : Piece (TerminatePoint ⊕ Unit)} (hconsistent : memory.Consistent)
    (hpool : (p.standings .pool).Holds t (memory.sync .pool))
    (hpiece : terminate size t choice p memory = some piece) :
    Bracket t memory p.standings piece.effect
      (piece.next.elim TerminatePoint.standings fun _ => outside) := by
  cases p with
  | enter p =>
      exact .within (Sum.elim _ _) hpiece
        (fun _ _ hnext => Synchronized.lock_enters (hconsistent .pool) hpool hnext)
        (fun _ => rfl) (fun _ => TerminatePoint.next_standings size 0)
  | stop m =>
      cases hpiece
      exact .still (fun _ _ => nofun) (TerminatePoint.next_standings size (m + 1))
  | notify p =>
      exact .within (Sum.elim _ _) hpiece
        (fun _ _ hnext => Synchronized.notify_notifies (hconsistent .pool) hpool hnext)
        (fun _ => rfl) (fun _ => rfl)
  | leave p =>
      exact .within (Sum.elim _ _) hpiece
        (fun _ _ hnext => Synchronized.unlock_leaves (hconsistent .pool) hpool hnext)
        (fun _ => rfl) (fun _ => (Standings.set_outside rfl).symm)

theorem destroy_bracket {size : Nat} {ended : ManagerId → Bool} {p : DestroyPoint}
    {piece : Piece (DestroyPoint ⊕ Unit)} (hconsistent : memory.Consistent)
    (hmanager : ∀ m, p.Touches m → (p.standings (.manager m)).Holds t (memory.sync (.manager m)))
    (hpiece : destroy size ended t choice p memory = some piece) :
    Bracket t memory p.standings piece.effect
      (piece.next.elim DestroyPoint.standings fun _ => outside) := by
  cases p with
  | next m =>
      simp only [destroy] at hpiece
      split at hpiece <;> cases hpiece
      · exact .still (fun _ _ => by rintro ⟨⟩) (Standings.set_outside rfl)
      · exact .still (fun _ _ => by rintro ⟨⟩) rfl
  | manager m p =>
      obtain ⟨body, hbody, rfl⟩ := Option.map_eq_some_iff.mp hpiece
      have hstanding : p.standing.Holds t (memory.sync (.manager m)) := by
        have hself := hmanager m rfl
        simpa only [DestroyPoint.standings, Standings.set_self] using hself
      exact .call (Sum.elim _ _) (TaskManager.destroy_bracket hconsistent hstanding hbody)
        (fun _ => rfl) (fun _ => rfl)

end ThreadPool

theorem Call.code_bracket {size : Nat} {ended : ManagerId → Bool} {call : Call}
    {piece : Piece (Call ⊕ Unit)} (hconsistent : memory.Consistent)
    (hpool : (call.standings .pool).Holds t (memory.sync .pool))
    (hmanager : ∀ m, call.Touches m →
      (call.standings (.manager m)).Holds t (memory.sync (.manager m)))
    (hpiece : call.code size ended t choice memory = some piece) :
    Bracket t memory call.standings piece.effect
      (piece.next.elim Call.standings fun _ => outside) := by
  cases call <;> obtain ⟨body, hbody, rfl⟩ := Option.map_eq_some_iff.mp hpiece
  case execute =>
    exact .call (Sum.elim _ _) (ThreadPool.execute_bracket hconsistent hpool hmanager hbody)
      (fun _ => rfl) (fun _ => rfl)
  case isIdle | isBusy =>
    exact .call (Sum.elim _ _) (ThreadPool.check_bracket hconsistent hpool hbody)
      (fun _ => rfl) (fun _ => rfl)
  case terminate =>
    exact .call (Sum.elim _ _) (ThreadPool.terminate_bracket hconsistent hpool hbody)
      (fun _ => rfl) (fun _ => rfl)
  case idleNotification =>
    exact .call (Sum.elim _ _) (idleNotification_bracket hconsistent hpool hbody)
      (fun _ => rfl) (fun _ => rfl)
  case destroy =>
    exact .call (Sum.elim _ _) (ThreadPool.destroy_bracket hconsistent hmanager hbody)
      (fun _ => rfl) (fun _ => rfl)

/-- A step inside a monitor's method is a step on that monitor. -/
theorem within_effect {P R X : Type} {x : MonitorId}
    {stepped : Option (Synchronized Tid × (P ⊕ R))} {inside : P → X} {behind : R → X}
    {piece : Piece X} (h : within x stepped inside behind = some piece) {y : MonitorId}
    {s : Synchronized Tid} (heffect : piece.effect = .sync y s) : x = y := by
  obtain ⟨s, next, -, rfl⟩ := within_eq_some h
  cases heffect
  rfl

theorem TaskManager.setTask_touches {task : Option Runnable} {other : ManagerId}
    {p : TaskManager.SetTaskPoint} {piece : Piece (TaskManager.SetTaskPoint ⊕ Bool)}
    (hpiece : TaskManager.setTask other task t choice p memory = some piece)
    {s : Synchronized Tid} (heffect : piece.effect = .sync (.manager m) s) :
    other = m ∧ p ≠ .test := by
  cases p with
  | tryLock | giveUp | notify | leave =>
      cases within_effect hpiece heffect
      exact ⟨rfl, nofun⟩
  | test | again | store =>
      cases hpiece
      cases heffect

theorem TaskManager.destroy_touches {ended : ManagerId → Bool} {other : ManagerId}
    {p : TaskManager.DestroyPoint} {piece : Piece (TaskManager.DestroyPoint ⊕ Unit)}
    (hpiece : TaskManager.destroy other ended t choice p memory = some piece)
    {s : Synchronized Tid} (heffect : piece.effect = .sync (.manager m) s) : other = m := by
  cases p with
  | enter | notify | leave =>
      cases within_effect hpiece heffect
      rfl
  | stop =>
      cases hpiece
      cases heffect
  | join =>
      simp only [TaskManager.destroy] at hpiece
      split at hpiece
      · cases hpiece
        cases heffect
      · split at hpiece <;> cases hpiece
        cases heffect

/-- A call works on the monitor of a manager at the points that say so. -/
theorem Call.code_touches {size : Nat} {ended : ManagerId → Bool} {call : Call}
    {piece : Piece (Call ⊕ Unit)} (hpiece : call.code size ended t choice memory = some piece)
    {s : Synchronized Tid} (heffect : piece.effect = .sync (.manager m) s) : call.Touches m := by
  cases call <;> obtain ⟨body, hbody, rfl⟩ := Option.map_eq_some_iff.mp hpiece
  case execute task p =>
    cases p with
    | enter | wait | leave => cases within_effect hbody heffect
    | isIdle m p =>
        obtain ⟨inner, hinner, rfl⟩ := Option.map_eq_some_iff.mp hbody
        cases (TaskManager.isIdle_still hinner).symm.trans heffect
    | setTask other p =>
        obtain ⟨inner, hinner, rfl⟩ := Option.map_eq_some_iff.mp hbody
        exact TaskManager.setTask_touches hinner heffect
  case isIdle p | isBusy p =>
    cases p with
    | enter | leave => cases within_effect hbody heffect
    | isIdle m p =>
        obtain ⟨inner, hinner, rfl⟩ := Option.map_eq_some_iff.mp hbody
        cases (TaskManager.isIdle_still hinner).symm.trans heffect
  case terminate p =>
    cases p with
    | enter | notify | leave => cases within_effect hbody heffect
    | stop =>
        cases hbody
        cases heffect
  case idleNotification p => cases p <;> cases within_effect hbody heffect
  case destroy p =>
    cases p with
    | next =>
        simp only [ThreadPool.destroy] at hbody
        split at hbody <;> cases hbody <;> cases heffect
    | manager other p =>
        obtain ⟨inner, hinner, rfl⟩ := Option.map_eq_some_iff.mp hbody
        exact TaskManager.destroy_touches hinner heffect

/-- The worker stays inside its own monitor during a call. -/
theorem Bracket.nested {before after : Standings} {effect : Effect}
    (h : Bracket t memory before effect after)
    (hmanager : ∀ s, effect ≠ .sync (.manager m) s) :
    Bracket t memory (before.set (.manager m) .marked) effect
      (after.set (.manager m) .marked) := by
  cases h with
  | @sync x s after hdisciplined hframe =>
      have hx : x ≠ .manager m := fun heq => hmanager s (heq ▸ rfl)
      refine .sync ?_ fun y hy => ?_
      · rwa [Standings.set_of_ne _ hx]
      · by_cases hown : y = .manager m
        · rw [hown, Standings.set_self, Standings.set_self]
        · rw [Standings.set_of_ne _ hown, Standings.set_of_ne _ hown, hframe y hy]
  | other hother => exact .other hother

/-- The worker's own part of the code. -/
theorem TaskManager.run_bracket {C : Type} {tables : C → Standings}
    {nested : C → Memory → Option (Piece (C ⊕ Unit))} {p : TaskManager.RunPoint C}
    {piece : Piece (TaskManager.RunPoint C)} (hconsistent : memory.Consistent)
    (hstanding : (p.standings m tables).Hold (.worker m) memory)
    (hnested : ∀ c body, p = .running (some c) → nested c memory = some body →
      Bracket (.worker m) memory ((tables c).set (.manager m) .marked) body.effect
        ((body.next.elim tables fun _ => outside).set (.manager m) .marked))
    (hpiece : TaskManager.run m nested choice p memory = some piece) :
    Bracket (.worker m) memory (p.standings m tables) piece.effect
      (piece.next.standings m tables) := by
  have hmanager := hstanding (.manager m)
  have hthread := hstanding (.thread m)
  have hout : ∀ x, outside = outside.set x .outside := fun x => (Standings.set_outside rfl).symm
  cases p with
  | add p =>
      simp only [RunPoint.standings, Standings.set_self] at hthread
      exact .within _ hpiece
        (fun _ _ hnext => Synchronized.lock_enters (hconsistent _) hthread hnext)
        (fun _ => rfl) (fun _ => rfl)
  | added p =>
      simp only [RunPoint.standings, Standings.set_self] at hthread
      exact .within _ hpiece
        (fun _ _ hnext => Synchronized.unlock_leaves (hconsistent _) hthread hnext)
        (fun _ => rfl) (fun _ => (hout _).symm.trans (hout _))
  | enter p =>
      simp only [RunPoint.standings, Standings.set_self] at hmanager
      exact .within _ hpiece
        (fun _ _ hnext => Synchronized.enter_enters (hconsistent _) hmanager hnext)
        (fun _ => rfl) (fun _ => rfl)
  | wait p =>
      simp only [RunPoint.standings, Standings.set_self] at hmanager
      refine .within _ hpiece
        (fun _ _ hnext => Synchronized.waitLoop_waits (hconsistent _) hmanager hnext)
        (fun q => ?_) (fun _ => rfl)
      unfold RunPoint.waiting
      split
      · next hcheck =>
          rw [hcheck]
          rfl
      · rfl
  | running call =>
      cases call with
      | none => cases hpiece
      | some c =>
          obtain ⟨body, hbody, rfl⟩ := Option.map_eq_some_iff.mp hpiece
          rw [Piece.map_effect, Piece.map_next]
          have hinner := hnested c body rfl hbody
          cases hnext : body.next with
          | inl q =>
              rw [hnext] at hinner
              exact hinner
          | inr =>
              rw [hnext] at hinner
              exact hinner
  | idle p =>
      obtain ⟨body, hbody, rfl⟩ := Option.map_eq_some_iff.mp hpiece
      have hpool : (p.standings .pool).Holds (.worker m) (memory.sync .pool) := hstanding .pool
      have hother : ∀ s, body.effect ≠ .sync (.manager m) s := fun s heffect => by
        cases p <;> cases within_effect hbody heffect
      have hinner := (idleNotification_bracket hconsistent hpool hbody).nested hother
      rw [Piece.map_effect, Piece.map_next]
      cases hnext : body.next with
      | inl q =>
          rw [hnext] at hinner
          exact hinner
      | inr =>
          rw [hnext] at hinner
          exact hinner
  | leave p =>
      simp only [RunPoint.standings, Standings.set_self] at hmanager
      exact .within _ hpiece
        (fun _ _ hnext => Synchronized.leave_leaves (hconsistent _) hmanager hnext)
        (fun _ => rfl) (fun _ => (hout _).symm.trans (hout _))
  | remove p =>
      simp only [RunPoint.standings, Standings.set_self] at hthread
      exact .within _ hpiece
        (fun _ _ hnext => Synchronized.lock_enters (hconsistent _) hthread hnext)
        (fun _ => rfl) (fun _ => rfl)
  | removed p =>
      simp only [RunPoint.standings, Standings.set_self] at hthread
      exact .within _ hpiece
        (fun _ _ hnext => Synchronized.unlock_leaves (hconsistent _) hthread hnext)
        (fun _ => rfl) (fun _ => hout _)
  | loop | woken | stopped =>
      cases hpiece
      refine .still (fun _ _ => by rintro ⟨⟩) ?_
      dsimp only
      split <;> rfl
  | hasTask p =>
      cases p <;> cases hpiece <;> refine .still (fun _ _ => by rintro ⟨⟩) ?_ <;> dsimp only <;>
        split <;> rfl
  | take =>
      simp only [run] at hpiece
      split at hpiece <;> cases hpiece <;> exact .still (fun _ _ => by rintro ⟨⟩) rfl
  | delete looping =>
      cases hpiece
      exact .still (fun _ _ => by rintro ⟨⟩) rfl
  | clear looping =>
      cases hpiece
      refine .still (fun _ _ => by rintro ⟨⟩) ?_
      cases looping
      · rfl
      · exact congrArg (fun standings : Standings => standings.set (.manager m) .marked)
          (hout .pool).symm
  | finish =>
      cases hpiece
      exact .still (fun _ _ => by rintro ⟨⟩) rfl
  | exited => cases hpiece

/-- At the head of the loop `execute` is at no manager. -/
theorem ThreadPool.ExecutePoint.next_ne_setTask {size k : Nat} {m : ManagerId}
    {q : TaskManager.SetTaskPoint} : ThreadPool.ExecutePoint.next size k ≠ .setTask m q := by
  unfold ThreadPool.ExecutePoint.next
  split <;> nofun

/-- `set_task` gets to its manager only if the slot is empty, and stores only then. -/
theorem TaskManager.setTask_next {task : Option Runnable} {p q : TaskManager.SetTaskPoint}
    {piece : Piece (TaskManager.SetTaskPoint ⊕ Bool)}
    (hpiece : TaskManager.setTask m task t choice p memory = some piece)
    (hnext : piece.next = .inl q) :
    (p ≠ .test ∨ (memory.managers m).task = none) ∧
      (q = .store → (memory.managers m).task = none) := by
  cases p with
  | test =>
      cases hpiece
      dsimp only at hnext
      split at hnext
      · next hvacant =>
          have hslot : (memory.managers m).task = none := by simpa using hvacant
          exact ⟨.inr hslot, fun _ => hslot⟩
      · cases hnext
  | again =>
      cases hpiece
      dsimp only at hnext
      split at hnext
      · cases hnext
        exact ⟨.inl nofun, nofun⟩
      · next hvacant => exact ⟨.inl nofun, fun _ => by simpa using hvacant⟩
  | tryLock p =>
      obtain ⟨s, next, -, rfl⟩ := within_eq_some hpiece
      refine ⟨.inl nofun, ?_⟩
      rintro rfl
      cases next with
      | inl => cases hnext
      | inr r =>
          simp only [Sum.elim_inr] at hnext
          split at hnext <;> cases hnext
  | giveUp p | notify p | leave p =>
      obtain ⟨s, next, -, rfl⟩ := within_eq_some hpiece
      refine ⟨.inl nofun, ?_⟩
      rintro rfl
      cases next <;> cases hnext
  | store =>
      cases hpiece
      cases hnext
      exact ⟨.inl nofun, nofun⟩

/-- A step that leads `execute` to a manager is a step of `set_task` there, or its call. -/
theorem ThreadPool.execute_next {size : Nat} {task : Option Runnable} {p : ThreadPool.ExecutePoint}
    {q : TaskManager.SetTaskPoint} {piece : Piece (ThreadPool.ExecutePoint ⊕ Unit)}
    (hpiece : ThreadPool.execute size task t choice p memory = some piece)
    (hnext : piece.next = .inl (.setTask m q)) :
    q = .test ∨ ∃ p' body, p = .setTask m p' ∧
      TaskManager.setTask m task t choice p' memory = some body ∧ body.next = .inl q := by
  cases p with
  | enter | wait =>
      obtain ⟨s, next, -, rfl⟩ := within_eq_some hpiece
      cases next with
      | inl => cases hnext
      | inr => exact absurd (Sum.inl.inj hnext) ThreadPool.ExecutePoint.next_ne_setTask
  | leave =>
      obtain ⟨s, next, -, rfl⟩ := within_eq_some hpiece
      cases next <;> cases hnext
  | isIdle k p =>
      obtain ⟨body, -, rfl⟩ := Option.map_eq_some_iff.mp hpiece
      rw [Piece.map_next] at hnext
      cases hbody : body.next with
      | inl =>
          rw [hbody] at hnext
          cases hnext
      | inr idle =>
          rw [hbody] at hnext
          cases idle with
          | false => exact absurd (Sum.inl.inj hnext) ThreadPool.ExecutePoint.next_ne_setTask
          | true =>
              cases hnext
              exact .inl rfl
  | setTask k p =>
      obtain ⟨body, hbody, rfl⟩ := Option.map_eq_some_iff.mp hpiece
      rw [Piece.map_next] at hnext
      cases hbodyNext : body.next with
      | inl =>
          rw [hbodyNext] at hnext
          cases hnext
          exact .inr ⟨p, body, rfl, hbody, hbodyNext⟩
      | inr done =>
          rw [hbodyNext] at hnext
          cases done with
          | false => exact absurd (Sum.inl.inj hnext) ThreadPool.ExecutePoint.next_ne_setTask
          | true => cases hnext

/-- What a call knows about the manager it gets to. -/
theorem Call.code_next {size : Nat} {ended : ManagerId → Bool} {call next : Call}
    {piece : Piece (Call ⊕ Unit)} (hpiece : call.code size ended t choice memory = some piece)
    (hnext : piece.next = .inl next) :
    (∀ m, next.Touches m →
        call.Touches m ∨ (memory.managers m).task = none ∨ ∃ p, call = .destroy p) ∧
      (∀ p, next = .destroy p → ∃ p, call = .destroy p) ∧
      (∀ task m, next = .execute task (.setTask m .store) → (memory.managers m).task = none) := by
  cases call <;> obtain ⟨body, hbody, rfl⟩ := Option.map_eq_some_iff.mp hpiece <;>
    rw [Piece.map_next] at hnext <;>
    cases hbodyNext : body.next <;> rw [hbodyNext] at hnext <;> cases hnext
  case execute task p q =>
    refine ⟨fun m htouches => ?_, nofun, fun other m hstore => ?_⟩
    · cases q with
      | setTask k q =>
          obtain ⟨rfl, hq⟩ := htouches
          rcases ThreadPool.execute_next hbody hbodyNext with
            htest | ⟨p', inner, rfl, hinner, hnext⟩
          · exact absurd htest hq
          · rcases (TaskManager.setTask_next hinner hnext).1 with hp | hslot
            · exact .inl ⟨rfl, hp⟩
            · exact .inr (.inl hslot)
      | _ => exact htouches.elim
    · cases hstore
      rcases ThreadPool.execute_next hbody hbodyNext with htest | ⟨p', inner, rfl, hinner, hnext⟩
      · cases htest
      · exact (TaskManager.setTask_next hinner hnext).2 rfl
  case destroy p q => exact ⟨fun _ _ => .inr (.inr ⟨p, rfl⟩), fun _ _ => ⟨p, rfl⟩, nofun⟩
  case isIdle | isBusy | terminate | idleNotification =>
    exact ⟨fun _ => False.elim, nofun, nofun⟩

end Pool

end ThreadPools.Boost
