/-
# Who owns the monitor

The mutex and `tid_` are written in different steps. At every point of a method its
thread stands in one of a few relations to the two, and a step of one thread changes the
relation of no other thread: `tid_` is written by the owner of the mutex only, and it
is cleared before the mutex is released.
-/

import ThreadPools.Concurrency.Runs
import ThreadPools.Boost.Synchronized

namespace ThreadPools.Boost

open ThreadPools.Concurrency

/-- How a thread stands to the mutex and to `tid_`. -/
inductive Standing
  /-- it owns the mutex if and only if `tid_` says so -/
  | agrees
  /-- it does not own the mutex -/
  | outside
  /-- it owns the mutex -/
  | inside
  /-- it owns the mutex, and `tid_` says so -/
  | marked
  /-- it owns the mutex, and `tid_` does not say so -/
  | unmarked

def Standing.Holds {T : Type*} (t : T) (s : Synchronized T) : Standing → Prop
  | .agrees => s.owner = some t ↔ s.tid = some t
  | .outside => s.owner ≠ some t
  | .inside => s.owner = some t
  | .marked => s.owner = some t ∧ s.tid = some t
  | .unmarked => s.owner = some t ∧ s.tid ≠ some t

namespace Synchronized

def LockPoint.standing : LockPoint → Standing
  | .test => .agrees
  | .acquire => .outside
  | .own => .inside

def LockForPoint.standing : LockForPoint → Standing
  | .attempt _ | .sleep _ => .agrees
  | .own => .inside

def TryLockPoint.standing : TryLockPoint → Standing
  | .test => .agrees
  | .attempt => .outside
  | .own => .inside

def UnlockPoint.standing : UnlockPoint → Standing
  | .test => .agrees
  | .disown => .inside
  | .release => .unmarked

def WaitPoint.standing : WaitPoint → Standing
  | .reset | .check => .marked
  | .disown => .inside
  | .block => .unmarked
  | .asleep => .outside
  | .own _ => .inside

def EnterPoint.standing : EnterPoint → Standing
  | .acquire => .outside
  | .own => .inside

def LeavePoint.standing : LeavePoint → Standing
  | .disown => .inside
  | .release => .unmarked

end Synchronized

def Point.standing : Point → Standing
  | .lock p => p.standing
  | .lockFor p => p.standing
  | .trylock p => p.standing
  | .unlock p => p.standing
  | .wait _ p => p.standing
  | .waitUntilCondition p => p.standing
  | .notify _ _ => .marked
  | .enter p => p.standing
  | .leave p => p.standing

/-- A thread outside of calls agrees with `tid_`. -/
def standingOf (call : Option Call) : Standing :=
  call.elim .agrees fun call => call.point.standing

/-- What a call knows about its beginning. -/
def Call.Recalls {T : Type*} (t : T) (s : Synchronized T) (call : Call) : Prop :=
  match call.point with
  | .lock .test | .lockFor (.attempt _) | .lockFor (.sleep _) | .trylock .test =>
      call.owned = true ↔ s.owner = some t
  | .unlock .test => (call.owned = true ↔ s.owner = some t) ∧ call.wrote = false
  | .lock _ | .lockFor .own | .trylock _ => call.owned = false
  | .unlock _ => call.owned = true
  | _ => True

/-- What the methods promise about ownership. -/
def Return.Correct {T : Type*} (ret : Return T) : Prop :=
  match ret.point with
  | .lock _ | .lockFor _ =>
      ret.result = .bool true → ret.owned = false ∧ ret.owner = some ret.thread
  | .trylock _ =>
      (ret.result = .trylock .locked → ret.owned = false ∧ ret.owner = some ret.thread) ∧
        (ret.result = .trylock .owned ↔ ret.owned = true)
  | .unlock _ =>
      (ret.result = .bool true ↔ ret.owned = true) ∧
        (ret.result = .bool true → ret.owner = none) ∧
        (ret.result = .bool false → ret.wrote = false)
  | _ => True

/-- `tid_` names the owner of the mutex, every thread stands as its point says, and all
calls have kept their promises. -/
structure Tracked {T : Type*} (state : State T) : Prop where
  tid : ∀ t, state.sync.tid = some t → state.sync.owner = some t
  standing : ∀ t, (standingOf (state.pc t)).Holds t state.sync
  recalls : ∀ t call, state.pc t = some call → call.Recalls t state.sync
  returns : ∀ ret ∈ state.returns, ret.Correct

/-! ## One step of a method -/

/-- What a step of `t` leaves alone, and how `t` stands behind it. -/
structure Disciplined {T : Type*} (t : T) (before after : Synchronized T)
    (next : Standing) : Prop where
  tid : ∀ u, after.tid = some u → after.owner = some u
  standing : next.Holds t after
  owner : ∀ u, u ≠ t → (after.owner = some u ↔ before.owner = some u)
  mark : ∀ u, u ≠ t → (after.tid = some u ↔ before.tid = some u)

section Writes

variable {T : Type*} {t : T} {s s' : Synchronized T}

/-- `tid_` names the owner of the mutex. -/
def Synchronized.Consistent (s : Synchronized T) : Prop :=
  ∀ u, s.tid = some u → s.owner = some u

/-- A step that writes neither the mutex nor `tid_`. -/
theorem Disciplined.keep {next : Standing} (hconsistent : s.Consistent)
    (howner : s'.owner = s.owner) (htid : s'.tid = s.tid) (hnext : next.Holds t s) :
    Disciplined t s s' next where
  tid u hu := howner ▸ hconsistent u (htid ▸ hu)
  standing := by cases next <;> simpa only [Standing.Holds, howner, htid] using hnext
  owner u _ := by rw [howner]
  mark u _ := by rw [htid]

/-- The thread gets the mutex. -/
theorem Disciplined.acquire (hconsistent : s.Consistent) (hfree : s.owner = none)
    (howner : s'.owner = some t) (htid : s'.tid = s.tid) : Disciplined t s s' .inside where
  tid u hu := absurd (hfree.symm.trans (hconsistent u (htid ▸ hu))) nofun
  standing := howner
  owner u hu := by simp [howner, hfree, Ne.symm hu]
  mark u _ := by rw [htid]

/-- The owner of the mutex writes its id. -/
theorem Disciplined.own (hconsistent : s.Consistent) (hinside : s.owner = some t)
    (howner : s'.owner = s.owner) (htid : s'.tid = some t) : Disciplined t s s' .marked where
  tid u hu := by
    cases htid.symm.trans hu
    exact howner.trans hinside
  standing := ⟨howner.trans hinside, htid⟩
  owner u _ := by rw [howner]
  mark u hu := by
    refine ⟨fun h => absurd (Option.some.inj (htid.symm.trans h)) (Ne.symm hu), fun h => ?_⟩
    exact absurd (Option.some.inj (hinside.symm.trans (hconsistent u h))) (Ne.symm hu)

/-- The owner of the mutex clears its id. -/
theorem Disciplined.disown (hconsistent : s.Consistent) (hinside : s.owner = some t)
    (howner : s'.owner = s.owner) (htid : s'.tid = none) : Disciplined t s s' .unmarked where
  tid u hu := absurd (htid.symm.trans hu) nofun
  standing := ⟨howner.trans hinside, by simp [htid]⟩
  owner u _ := by rw [howner]
  mark u hu := by
    refine ⟨fun h => absurd (htid.symm.trans h) nofun, fun h => ?_⟩
    exact absurd (Option.some.inj (hinside.symm.trans (hconsistent u h))) (Ne.symm hu)

/-- The owner of the mutex, which has cleared its id, gives the mutex back. -/
theorem Disciplined.release (hconsistent : s.Consistent) (hinside : s.owner = some t)
    (hunmarked : s.tid ≠ some t) (howner : s'.owner = none) (htid : s'.tid = s.tid) :
    Disciplined t s s' .agrees where
  tid u hu := by
    rw [htid] at hu
    cases hinside.symm.trans (hconsistent u hu)
    exact absurd hu hunmarked
  standing := by simp [Standing.Holds, howner, htid, hunmarked]
  owner u hu := by simp [howner, hinside, Ne.symm hu]
  mark u _ := by rw [htid]

/-- Behind a write of its id a thread agrees with `tid_`. -/
theorem Disciplined.own_agrees (hconsistent : s.Consistent) (hinside : s.owner = some t)
    (howner : s'.owner = s.owner) (htid : s'.tid = some t) : Disciplined t s s' .agrees :=
  have hmarked := Disciplined.own hconsistent hinside howner htid
  ⟨hmarked.tid, iff_of_true hmarked.standing.1 hmarked.standing.2, hmarked.owner, hmarked.mark⟩

/-- A thread that has given the mutex back is outside. -/
theorem Disciplined.release_outside (hconsistent : s.Consistent) (hinside : s.owner = some t)
    (hunmarked : s.tid ≠ some t) (howner : s'.owner = none) (htid : s'.tid = s.tid) :
    Disciplined t s s' .outside :=
  have hagrees := Disciplined.release hconsistent hinside hunmarked howner htid
  ⟨hagrees.tid, by simp [Standing.Holds, howner], hagrees.owner, hagrees.mark⟩

end Writes

/-! ## The methods -/

namespace Synchronized

variable {T : Type*} {t : T} {s s' : Synchronized T} {choice : Choice}

/-- How a thread stands at the next point of a method, or behind the method. -/
def behind {P R : Type*} (standing : P → Standing) (next : P ⊕ R) : Standing :=
  next.elim standing fun _ => .agrees

theorem notify_disciplined {all : Bool} {p : NotifyPoint} {next : NotifyPoint ⊕ Unit}
    (hconsistent : s.Consistent) (hstanding : Standing.marked.Holds t s)
    (hstep : notify all choice p s = some (s', next)) :
    Disciplined t s s' (behind (fun _ => .marked) next) := by
  cases p with
  | set =>
      cases hstep
      exact .keep hconsistent rfl rfl hstanding
  | wake =>
      cases hstep
      exact .keep hconsistent rfl rfl (iff_of_true hstanding.1 hstanding.2)

theorem leave_disciplined {p : LeavePoint} {next : LeavePoint ⊕ Unit}
    (hconsistent : s.Consistent) (hstanding : p.standing.Holds t s)
    (hstep : leave p s = some (s', next)) :
    Disciplined t s s' (behind LeavePoint.standing next) := by
  cases p with
  | disown =>
      cases hstep
      exact .disown hconsistent hstanding rfl rfl
  | release =>
      cases hstep
      exact .release hconsistent hstanding.1 hstanding.2 rfl rfl

theorem lockFor_disciplined {p : LockForPoint} {next : LockForPoint ⊕ Bool}
    (hconsistent : s.Consistent) (hstanding : p.standing.Holds t s)
    (hstep : lockFor t p s = some (s', next)) :
    Disciplined t s s' (behind LockForPoint.standing next) := by
  cases p with
  | attempt d =>
      simp only [lockFor] at hstep
      split at hstep
      · next hfree =>
          cases hstep
          exact .acquire hconsistent hfree rfl rfl
      · cases hstep
        exact .keep hconsistent rfl rfl hstanding
  | sleep d =>
      simp only [lockFor, Option.some.injEq, Prod.mk.injEq] at hstep
      obtain ⟨rfl, rfl⟩ := hstep
      split <;> exact .keep hconsistent rfl rfl hstanding
  | own =>
      cases hstep
      exact .own_agrees hconsistent hstanding rfl rfl

theorem enter_disciplined {p : EnterPoint} {next : EnterPoint ⊕ Unit}
    (hconsistent : s.Consistent) (hstanding : p.standing.Holds t s)
    (hstep : enter t p s = some (s', next)) :
    Disciplined t s s' (behind EnterPoint.standing next) := by
  cases p with
  | acquire =>
      simp only [enter] at hstep
      split at hstep
      · next hfree =>
          cases hstep
          exact .acquire hconsistent hfree rfl rfl
      · cases hstep
  | own =>
      cases hstep
      exact .own_agrees hconsistent hstanding rfl rfl

variable [DecidableEq T]

theorem lock_disciplined {p : LockPoint} {next : LockPoint ⊕ Bool} (hconsistent : s.Consistent)
    (hstanding : p.standing.Holds t s) (hstep : lock t p s = some (s', next)) :
    Disciplined t s s' (behind LockPoint.standing next) := by
  cases p with
  | test =>
      simp only [lock, Option.some.injEq, Prod.mk.injEq] at hstep
      obtain ⟨rfl, rfl⟩ := hstep
      have hiff : s.owner = some t ↔ s.tid = some t := hstanding
      split
      · exact .keep hconsistent rfl rfl hiff
      · next hnot => exact .keep hconsistent rfl rfl (mt hiff.mp hnot)
  | acquire =>
      simp only [lock] at hstep
      split at hstep
      · next hfree =>
          cases hstep
          exact .acquire hconsistent hfree rfl rfl
      · cases hstep
  | own =>
      cases hstep
      exact .own_agrees hconsistent hstanding rfl rfl

theorem trylock_disciplined {p : TryLockPoint} {next : TryLockPoint ⊕ TryLockResult}
    (hconsistent : s.Consistent) (hstanding : p.standing.Holds t s)
    (hstep : trylock t p s = some (s', next)) :
    Disciplined t s s' (behind TryLockPoint.standing next) := by
  cases p with
  | test =>
      simp only [trylock, Option.some.injEq, Prod.mk.injEq] at hstep
      obtain ⟨rfl, rfl⟩ := hstep
      have hiff : s.owner = some t ↔ s.tid = some t := hstanding
      split
      · exact .keep hconsistent rfl rfl hiff
      · next hnot => exact .keep hconsistent rfl rfl (mt hiff.mp hnot)
  | attempt =>
      have hnot : s.owner ≠ some t := hstanding
      simp only [trylock] at hstep
      split at hstep
      · next hfree =>
          cases hstep
          exact .acquire hconsistent hfree rfl rfl
      · cases hstep
        exact .keep hconsistent rfl rfl (iff_of_false hnot fun htid => hnot (hconsistent t htid))
  | own =>
      cases hstep
      exact .own_agrees hconsistent hstanding rfl rfl

theorem unlock_disciplined {p : UnlockPoint} {next : UnlockPoint ⊕ Bool}
    (hconsistent : s.Consistent) (hstanding : p.standing.Holds t s)
    (hstep : unlock t p s = some (s', next)) :
    Disciplined t s s' (behind UnlockPoint.standing next) := by
  cases p with
  | test =>
      simp only [unlock, Option.some.injEq, Prod.mk.injEq] at hstep
      obtain ⟨rfl, rfl⟩ := hstep
      have hiff : s.owner = some t ↔ s.tid = some t := hstanding
      split
      · next htid => exact .keep hconsistent rfl rfl (hiff.mpr htid)
      · exact .keep hconsistent rfl rfl hiff
  | disown =>
      cases hstep
      exact .disown hconsistent hstanding rfl rfl
  | release =>
      cases hstep
      exact .release hconsistent hstanding.1 hstanding.2 rfl rfl

theorem waitLoop_disciplined {timed holds : Bool} {p : WaitPoint} {next : WaitPoint ⊕ Bool}
    (hconsistent : s.Consistent) (hstanding : p.standing.Holds t s)
    (hstep : waitLoop t timed holds choice p s = some (s', next)) :
    Disciplined t s s' (behind WaitPoint.standing next) := by
  cases p with
  | reset =>
      cases hstep
      exact .keep hconsistent rfl rfl hstanding
  | check =>
      simp only [waitLoop, Option.some.injEq, Prod.mk.injEq] at hstep
      obtain ⟨rfl, rfl⟩ := hstep
      split
      · exact .keep hconsistent rfl rfl (iff_of_true hstanding.1 hstanding.2)
      · exact .keep hconsistent rfl rfl hstanding.1
  | disown =>
      cases hstep
      exact .disown hconsistent hstanding rfl rfl
  | block =>
      cases hstep
      exact .release_outside hconsistent hstanding.1 hstanding.2 rfl rfl
  | asleep =>
      simp only [waitLoop] at hstep
      split at hstep
      · next hready =>
          cases hstep
          exact .acquire hconsistent hready.1 rfl rfl
      · cases hstep
  | own timeout =>
      simp only [waitLoop, Option.some.injEq, Prod.mk.injEq] at hstep
      obtain ⟨rfl, rfl⟩ := hstep
      split
      · exact .own_agrees hconsistent hstanding rfl rfl
      · exact .own hconsistent hstanding rfl rfl

end Synchronized

variable {T : Type*} {t : T}

/-- A step inside a method is a step of the method in the code of all methods. -/
theorem Body.embed_eq_some {P R Q S : Type*} {point : P → Q} {result : R → S}
    {stepped : Option (Synchronized T × (P ⊕ R))} {sync : Synchronized T} {target : Q ⊕ S}
    (h : Body.embed point result stepped = some (sync, target)) :
    ∃ inner, stepped = some (sync, inner) ∧ target = inner.map point result := by
  obtain ⟨⟨after, inner⟩, hstepped, heq⟩ := Option.map_eq_some_iff.mp h
  cases heq
  exact ⟨inner, hstepped, rfl⟩

variable [DecidableEq T] {state next : State T} {choice : Choice} {action : Action T}

theorem code_disciplined {s s' : Synchronized T} {p : Point} {target : Point ⊕ Result}
    (hconsistent : s.Consistent) (hstanding : p.standing.Holds t s)
    (hstep : code t choice p s = some (s', target)) :
    Disciplined t s s' (target.elim Point.standing fun _ => .agrees) := by
  cases p <;> obtain ⟨inner, hinner, rfl⟩ := Body.embed_eq_some hstep
  case lock => cases inner <;> exact Synchronized.lock_disciplined hconsistent hstanding hinner
  case lockFor =>
    cases inner <;> exact Synchronized.lockFor_disciplined hconsistent hstanding hinner
  case trylock =>
    cases inner <;> exact Synchronized.trylock_disciplined hconsistent hstanding hinner
  case unlock => cases inner <;> exact Synchronized.unlock_disciplined hconsistent hstanding hinner
  case wait => cases inner <;> exact Synchronized.waitLoop_disciplined hconsistent hstanding hinner
  case waitUntilCondition =>
    cases inner <;> exact Synchronized.waitLoop_disciplined hconsistent hstanding hinner
  case notify => cases inner <;> exact Synchronized.notify_disciplined hconsistent hstanding hinner
  case enter => cases inner <;> exact Synchronized.enter_disciplined hconsistent hstanding hinner
  case leave => cases inner <;> exact Synchronized.leave_disciplined hconsistent hstanding hinner

/-! ## What a call remembers -/

omit [DecidableEq T] in
theorem Call.not_owned {call : Call} {s : Synchronized T}
    (h : call.owned = true ↔ s.owner = some t) (hnot : s.owner ≠ some t) : call.owned = false :=
  Bool.eq_false_iff.mpr (mt h.mp hnot)

/-- A call that goes on remembers how it was made. -/
theorem Call.Recalls.goOn {call : Call} {s s' : Synchronized T} {point : Point}
    (hconsistent : s.Consistent) (hstanding : call.point.standing.Holds t s)
    (h : call.Recalls t s) (hstep : code t choice call.point s = some (s', .inl point)) :
    (call.goOn s s' point).Recalls t s' := by
  have hfree : s.owner = none → s.owner ≠ some t := fun hnone => by simp [hnone]
  unfold Call.Recalls at h
  cases hpoint : call.point with
  | lock p =>
      rw [hpoint] at h hstep hstanding
      obtain ⟨inner, hinner, htarget⟩ := Body.embed_eq_some hstep
      cases p with
      | test =>
          simp only [Synchronized.lock, Option.some.injEq, Prod.mk.injEq] at hinner
          obtain ⟨rfl, rfl⟩ := hinner
          split at htarget <;> cases htarget
          next hnot => exact Call.not_owned h (mt hstanding.mp hnot)
      | acquire =>
          simp only [Synchronized.lock] at hinner
          split at hinner <;> cases hinner
          cases htarget
          exact h
      | own =>
          cases hinner
          cases htarget
  | lockFor p =>
      rw [hpoint] at h hstep
      obtain ⟨inner, hinner, htarget⟩ := Body.embed_eq_some hstep
      cases p with
      | attempt d =>
          simp only [Synchronized.lockFor] at hinner
          split at hinner <;> cases hinner <;> cases htarget
          · next hnone => exact Call.not_owned h (hfree hnone)
          · exact h
      | sleep d =>
          simp only [Synchronized.lockFor, Option.some.injEq, Prod.mk.injEq] at hinner
          obtain ⟨rfl, rfl⟩ := hinner
          split at htarget <;> cases htarget
          exact h
      | own =>
          cases hinner
          cases htarget
  | trylock p =>
      rw [hpoint] at h hstep hstanding
      obtain ⟨inner, hinner, htarget⟩ := Body.embed_eq_some hstep
      cases p with
      | test =>
          simp only [Synchronized.trylock, Option.some.injEq, Prod.mk.injEq] at hinner
          obtain ⟨rfl, rfl⟩ := hinner
          split at htarget <;> cases htarget
          next hnot => exact Call.not_owned h (mt hstanding.mp hnot)
      | attempt =>
          simp only [Synchronized.trylock] at hinner
          split at hinner <;> cases hinner <;> cases htarget
          exact h
      | own =>
          cases hinner
          cases htarget
  | unlock p =>
      rw [hpoint] at h hstep hstanding
      obtain ⟨inner, hinner, htarget⟩ := Body.embed_eq_some hstep
      cases p with
      | test =>
          simp only [Synchronized.unlock, Option.some.injEq, Prod.mk.injEq] at hinner
          obtain ⟨rfl, rfl⟩ := hinner
          split at htarget <;> cases htarget
          next htid => exact h.1.mpr (hconsistent t htid)
      | disown =>
          cases hinner
          cases htarget
          exact h
      | release =>
          cases hinner
          cases htarget
  | wait | waitUntilCondition | notify | enter | leave =>
      rw [hpoint] at hstep
      obtain ⟨inner, -, htarget⟩ := Body.embed_eq_some hstep
      cases inner <;> cases htarget
      trivial

/-- A call that returns has kept its promises. -/
theorem Call.Recalls.return {call : Call} {s s' : Synchronized T} {result : Result}
    (hconsistent : s.Consistent) (hstanding : call.point.standing.Holds t s)
    (h : call.Recalls t s) (hstep : code t choice call.point s = some (s', .inr result)) :
    (call.return t s s' result).Correct := by
  unfold Call.Recalls at h
  unfold Return.Correct
  simp only [Call.return]
  cases hpoint : call.point with
  | lock p =>
      rw [hpoint] at h hstep hstanding
      obtain ⟨inner, hinner, htarget⟩ := Body.embed_eq_some hstep
      intro hresult
      cases p with
      | test =>
          simp only [Synchronized.lock, Option.some.injEq, Prod.mk.injEq] at hinner
          obtain ⟨rfl, rfl⟩ := hinner
          split at htarget <;> cases htarget
          cases hresult
      | acquire =>
          simp only [Synchronized.lock] at hinner
          split at hinner <;> cases hinner
          cases htarget
      | own =>
          cases hinner
          exact ⟨h, hstanding⟩
  | lockFor p =>
      rw [hpoint] at h hstep hstanding
      obtain ⟨inner, hinner, htarget⟩ := Body.embed_eq_some hstep
      intro hresult
      cases p with
      | attempt d =>
          simp only [Synchronized.lockFor] at hinner
          split at hinner <;> cases hinner <;> cases htarget
      | sleep d =>
          simp only [Synchronized.lockFor, Option.some.injEq, Prod.mk.injEq] at hinner
          obtain ⟨rfl, rfl⟩ := hinner
          split at htarget <;> cases htarget
          cases hresult
      | own =>
          cases hinner
          exact ⟨h, hstanding⟩
  | trylock p =>
      rw [hpoint] at h hstep hstanding
      obtain ⟨inner, hinner, htarget⟩ := Body.embed_eq_some hstep
      cases p with
      | test =>
          simp only [Synchronized.trylock, Option.some.injEq, Prod.mk.injEq] at hinner
          obtain ⟨rfl, rfl⟩ := hinner
          split at htarget <;> cases htarget
          next htid => exact ⟨nofun, fun _ => h.mpr (hconsistent t htid), fun _ => rfl⟩
      | attempt =>
          simp only [Synchronized.trylock] at hinner
          split at hinner <;> cases hinner <;> cases htarget
          exact ⟨nofun, nofun, fun howned => absurd (howned.symm.trans h) nofun⟩
      | own =>
          cases hinner
          cases htarget
          exact ⟨fun _ => ⟨h, hstanding⟩, nofun, fun howned => absurd (howned.symm.trans h) nofun⟩
  | unlock p =>
      rw [hpoint] at h hstep hstanding
      obtain ⟨inner, hinner, htarget⟩ := Body.embed_eq_some hstep
      cases p with
      | test =>
          simp only [Synchronized.unlock, Option.some.injEq, Prod.mk.injEq] at hinner
          obtain ⟨rfl, rfl⟩ := hinner
          split at htarget <;> cases htarget
          next hnot =>
            have howned := Call.not_owned h.1 (mt hstanding.mp hnot)
            exact ⟨⟨nofun, fun heq => absurd (heq.symm.trans howned) nofun⟩, nofun,
              fun _ => by simp [Call.touched, h.2]⟩
      | disown =>
          cases hinner
          cases htarget
      | release =>
          cases hinner
          cases htarget
          exact ⟨⟨fun _ => h, fun _ => rfl⟩, fun _ => rfl, nofun⟩
  | wait | waitUntilCondition | notify | enter | leave => trivial

/-! ## Every run -/

omit [DecidableEq T] in
/-- A relation of another thread to the monitor is not disturbed. -/
theorem Disciplined.frame {u : T} {s s' : Synchronized T} {after other : Standing}
    (h : Disciplined t s s' after) (hne : u ≠ t) (hother : other.Holds u s) : other.Holds u s' := by
  have howner := h.owner u hne
  have hmark := h.mark u hne
  cases other <;> simp only [Standing.Holds, ne_eq, howner, hmark] at hother ⊢ <;> exact hother

omit [DecidableEq T] in
theorem Call.Recalls.frame {u : T} {s s' : Synchronized T} {after : Standing} {call : Call}
    (h : Disciplined t s s' after) (hne : u ≠ t) (hother : call.Recalls u s) :
    call.Recalls u s' := by
  have howner := h.owner u hne
  unfold Call.Recalls at hother ⊢
  split <;> simp_all

theorem Tracked.run (h : Tracked state) {call : Call} (hcall : state.pc t = some call)
    {sync : Synchronized T} {target : Point ⊕ Result}
    (hstep : code t choice call.point state.sync = some (sync, target)) :
    Tracked (state.advance t call sync target) := by
  have hstanding : call.point.standing.Holds t state.sync := by
    have hself := h.standing t
    rw [hcall] at hself
    exact hself
  have hdisciplined := code_disciplined h.tid hstanding hstep
  have hrecalls := h.recalls t call hcall
  have hstandings : ∀ u, u ≠ t → (standingOf (state.pc u)).Holds u sync := fun u hne =>
    hdisciplined.frame hne (h.standing u)
  have hmemories : ∀ u call, u ≠ t → state.pc u = some call → call.Recalls u sync :=
    fun u call hne hpc => (h.recalls u call hpc).frame hdisciplined hne
  cases target with
  | inl point =>
      refine ⟨hdisciplined.tid, fun u => ?_, fun u other hother => ?_, h.returns⟩
      · by_cases hu : u = t
        · subst hu
          simpa [State.advance, standingOf, Call.goOn] using hdisciplined.standing
        · simpa [State.advance, hu] using hstandings u hu
      · by_cases hu : u = t
        · subst hu
          simp only [State.advance, Function.update_self, Option.some.injEq] at hother
          subst hother
          exact hrecalls.goOn h.tid hstanding hstep
        · simp only [State.advance, Function.update_of_ne hu] at hother
          exact hmemories u other hu hother
  | inr result =>
      refine ⟨hdisciplined.tid, fun u => ?_, fun u other hother => ?_, fun ret hret => ?_⟩
      · by_cases hu : u = t
        · subst hu
          simpa [State.advance, standingOf] using hdisciplined.standing
        · simpa [State.advance, hu] using hstandings u hu
      · by_cases hu : u = t
        · subst hu
          simp [State.advance] at hother
        · simp only [State.advance, Function.update_of_ne hu] at hother
          exact hmemories u other hu hother
      · rcases List.mem_append.mp hret with hret | hret
        · exact h.returns ret hret
        · cases List.mem_singleton.mp hret
          exact hrecalls.return h.tid hstanding hstep

/-- The contract of a method is what its first point needs. -/
theorem Tracked.call (h : Tracked state) {method : Method} (hidle : state.pc t = none)
    (hcontract : Contract state (.call t method)) :
    Tracked { state with
      pc := Function.update state.pc t (some
        { point := method.entry, owned := decide (state.sync.owner = some t)
          wrote := false }) } := by
  have hagrees : state.sync.owner = some t ↔ state.sync.tid = some t := by
    have hself := h.standing t
    rw [hidle] at hself
    exact hself
  refine ⟨h.tid, fun u => ?_, fun u other hother => ?_, h.returns⟩
  · by_cases hu : u = t
    · subst hu
      simp only [Function.update_self, standingOf, Option.elim]
      cases method with
      | lock | lockFor | trylock | unlock => exact hagrees
      | wait | waitFor | waitUntilCondition | notify | notifyAll =>
          exact ⟨h.tid u hcontract, hcontract⟩
      | enter => exact mt hagrees.mp hcontract
      | leave => exact h.tid u hcontract
    · simpa [hu] using h.standing u
  · by_cases hu : u = t
    · subst hu
      simp only [Function.update_self, Option.some.injEq] at hother
      subst hother
      cases method <;> simp [Call.Recalls, Method.entry]
    · simp only [Function.update_of_ne hu] at hother
      exact h.recalls u other hother

theorem Tracked.step (h : Tracked state) (hcontract : Contract state action)
    (hstep : step state action = some next) : Tracked next := by
  cases step_moves hstep with
  | call t method hidle => exact h.call hidle hcontract
  | run t choice hcall hcode => exact h.run hcall hcode
  | wakeUp t =>
      refine ⟨h.tid, fun u => ?_, h.recalls, h.returns⟩
      have hself := h.standing u
      change (standingOf (state.pc u)).Holds u _
      cases hstanding : standingOf (state.pc u) <;> (rw [hstanding] at hself; exact hself)

omit [DecidableEq T] in
theorem tracked_initial : Tracked (initial : State T) where
  tid := nofun
  standing t := by simp [standingOf, Standing.Holds, initial, Synchronized.new]
  recalls := nofun
  returns ret hret := absurd hret List.not_mem_nil

theorem tracked_of_reaches {guard : State T → Action T → Prop}
    (hguard : ∀ state action, guard state action → Contract state action)
    (hrun : Reaches step guard initial state) : Tracked state := by
  induction hrun with
  | refl => exact tracked_initial
  | tail action _ hallowed hstep ih => exact ih.step (hguard _ _ hallowed) hstep

/-- Ownership tracking: in every run `tid_` names the owner of the mutex, between its calls a
thread owns the mutex if and only if `tid_` is its id, and every call that has returned
has done to the ownership what its result says. -/
theorem ownership_tracked {guard : State T → Action T → Prop}
    (hguard : ∀ state action, guard state action → Contract state action)
    (hrun : Reaches step guard initial state) :
    (∀ t, state.sync.tid = some t → state.sync.owner = some t) ∧
      (∀ t, state.pc t = none → (state.sync.owner = some t ↔ state.sync.tid = some t)) ∧
      ∀ ret ∈ state.returns, ret.Correct := by
  have htracked := tracked_of_reaches hguard hrun
  refine ⟨htracked.tid, fun t hidle => ?_, htracked.returns⟩
  have hself := htracked.standing t
  rw [hidle] at hself
  exact hself

/-- The first thread waits and the second one comes and goes. -/
theorem ownership_tracked_waiting : ∃ state : State Nat,
    state.pc 0 = none ∧ state.returns.map (fun ret => (ret.thread, ret.result)) =
        [(0, .bool true), (0, .trylock .owned), (1, .trylock .busy), (1, .bool true), (1, .done),
          (1, .bool true), (0, .bool true)] ∧
      (state.sync.owner = some 0 ↔ state.sync.tid = some 0) := by
  obtain ⟨state, hrun, hobserved⟩ : ∃ state : State Nat,
      Reaches step Contract initial state ∧
        (state.pc 0, state.returns.map fun ret => (ret.thread, ret.result)) =
        (none, [(0, .bool true), (0, .trylock .owned), (1, .trylock .busy), (1, .bool true),
          (1, .done), (1, .bool true), (0, .bool true)]) :=
    Reaches.of_observed (fun state action => decide (Contract state action))
      (.call 0 .lock :: Action.steps 0 3 ++ .call 0 .trylock :: Action.steps 0 1 ++
        .call 1 .trylock :: Action.steps 1 2 ++ .call 0 .wait :: Action.steps 0 4 ++
        .call 1 .lock :: Action.steps 1 3 ++ .call 1 .notify :: Action.steps 1 2 ++
        .call 1 .unlock :: Action.steps 1 3 ++ Action.steps 0 3)
      (fun _ _ => of_decide_eq_true) (by decide +kernel)
  simp only [Prod.mk.injEq] at hobserved
  exact ⟨state, hobserved.1, hobserved.2,
    (ownership_tracked (fun _ _ h => h) hrun).2.1 0 hobserved.1⟩

end ThreadPools.Boost
