/-
# The destructor of `Synchronized`

`~Synchronized` tries to take the mutex from the threads that may still use it before it
destroys it, and gives up behind a number of retries. One variable `error` keeps the result of
the last call and is the condition of the loop as well. The other threads lock and unlock the
mutex between any two calls of the destructor.
-/

import Mathlib.Tactic.ByContra
import ThreadPools.Concurrency.Progress

namespace ThreadPools.Posix.Synchronized

open ThreadPools.Concurrency

/-- The results of the functions that the destructor calls. -/
inductive Errno
  | ok
  | ebusy
  | eperm
  deriving DecidableEq

/-- `AGENTPP_SYNCHRONIZED_UNLOCK_RETRIES` -/
def unlockRetries : Nat := 10

/-- An error-checking mutex. -/
structure Mutex (T : Type*) where
  owner : Option T
  /-- how often `pthread_mutex_destroy` has succeeded -/
  destroyed : Nat

namespace Mutex

variable {T : Type*} [DecidableEq T]

/-- `pthread_mutex_trylock` -/
def trylock (mutex : Mutex T) (t : T) : Mutex T × Errno :=
  if mutex.owner = none then ({ mutex with owner := some t }, .ok) else (mutex, .ebusy)

/-- `pthread_mutex_unlock` -/
def unlock (mutex : Mutex T) (t : T) : Mutex T × Errno :=
  if mutex.owner = some t then ({ mutex with owner := none }, .ok) else (mutex, .eperm)

/-- `pthread_mutex_destroy`. Threads that wait on the condition, for which it answers `EBUSY` as
well, are left out, and with them the `notify_all` of the destructor. -/
def destroy (mutex : Mutex T) : Mutex T × Errno :=
  if mutex.owner = none then ({ mutex with destroyed := mutex.destroyed + 1 }, .ok)
  else (mutex, .ebusy)

end Mutex

/-- The points of `Synchronized::~Synchronized`. -/
inductive DestructorPoint
  /-- at the first call of the loop -/
  | trylock
  /-- at the `unlock` behind it -/
  | unlock
  /-- at `lock(10)` -/
  | lock
  /-- inside `pthread_mutex_timedlock` -/
  | blocked
  /-- at the `unlock` behind `lock(10)` -/
  | unlockAgain
  /-- at `pthread_mutex_destroy` -/
  | destroy
  /-- at the `unlock` "in case this thread hold the lock" -/
  | unlockOwn
  /-- at the tests that end the loop -/
  | again
  /-- at `if (error == EBUSY)` behind the loop -/
  | failed
  /-- at `pthread_cond_destroy` -/
  | condDestroy
  | returned
  | threw (what : String)
  deriving DecidableEq

/-- The mutex, the variables `error` and `errors`, and where the destructor is. -/
structure DestructorState (T : Type*) where
  mutex : Mutex T
  error : Errno
  errors : Nat
  point : DestructorPoint

/-- What the destructor throws when the mutex stays busy. -/
def mutexFailed : String := "pthread_mutex_destroy: failed"

/-- What it throws when somebody waits on the condition. -/
def condFailed : String := "pthread_cond_destroy: failed"

/-- What `lock(unsigned long)` throws. -/
def recursiveLock : String := "timedlock: recursive lock detected"

variable {T : Type*} [DecidableEq T]

/-- `Synchronized::~Synchronized`, called by `self`. The environment lets `lock(10)` time out
and finds the condition busy. -/
def destructor (self : T) (fails : Bool) (s : DestructorState T) : Option (DestructorState T) :=
  match s.point with
  | .trylock =>
      let (mutex, error) := s.mutex.trylock self
      some { s with
        mutex := mutex, error := error, point := if error = .ok then .unlock else .unlockOwn }
  | .unlock => some { s with mutex := (s.mutex.unlock self).1, point := .lock }
  | .lock =>
      if s.mutex.owner = some self then some { s with point := .threw recursiveLock }
      else if s.mutex.owner = none then
        some { s with mutex := (s.mutex.trylock self).1, point := .unlockAgain }
      else some { s with point := .blocked }
  | .blocked =>
      -- a timeout leaves `error` as `pthread_mutex_trylock` has set it
      if fails then some { s with point := .again }
      else if s.mutex.owner = none then
        some { s with mutex := (s.mutex.trylock self).1, point := .unlockAgain }
      else none
  | .unlockAgain => some { s with mutex := (s.mutex.unlock self).1, point := .destroy }
  | .destroy =>
      let (mutex, error) := s.mutex.destroy
      some
        { mutex := mutex, error := error
          errors := if error = .ok then s.errors else s.errors + 1, point := .again }
  | .unlockOwn =>
      let (mutex, error) := s.mutex.unlock self
      if error ≠ .eperm then some { s with mutex := mutex, error := error, point := .failed }
      else
        some { mutex := mutex, error := error, errors := s.errors + 1, point := .again }
  | .again =>
      if unlockRetries < s.errors then some { s with point := .failed }
      else if s.error = .ebusy then some { s with point := .trylock }
      else some { s with point := .failed }
  | .failed =>
      if s.error = .ebusy then
        some { s with errors := s.errors + 1, point := .threw mutexFailed }
      else some { s with point := .condDestroy }
  | .condDestroy =>
      if fails then
        some { s with error := .ebusy, errors := s.errors + 1, point := .threw condFailed }
      else some { s with error := .ok, point := .returned }
  | .returned | .threw _ => none

inductive DestructorAction (T : Type*)
  | destructor (fails : Bool)
  /-- another thread locks the monitor -/
  | lock (t : T)
  /-- another thread unlocks it -/
  | unlock (t : T)

/-- The destructor and the other threads. -/
def destructorStep (self : T) (s : DestructorState T) :
    DestructorAction T → Option (DestructorState T)
  | .destructor fails => destructor self fails s
  | .lock t =>
      if t ≠ self ∧ s.mutex.owner = none ∧ s.mutex.destroyed = 0 then
        some { s with mutex := (s.mutex.trylock t).1 }
      else none
  | .unlock t =>
      if t ≠ self ∧ s.mutex.owner = some t then some { s with mutex := (s.mutex.unlock t).1 }
      else none

/-- The entry of the destructor. -/
def entered (owner : Option T) : DestructorState T where
  mutex := { owner := owner, destroyed := 0 }
  error := .ok
  errors := 0
  point := .trylock

/-! ## What the destructor needs -/

def DestructorAction.IsDestructor : DestructorAction T → Prop
  | .destructor _ => True
  | _ => False

/-- The mutex is free whenever the loop begins, and `lock(10)` gets it in time. -/
def FindsFree (s : DestructorState T) : DestructorAction T → Prop
  | .destructor fails =>
      (s.point = .trylock → s.mutex.owner = none) ∧ (s.point = .blocked → fails = false)
  | _ => True

instance (s : DestructorState T) (action : DestructorAction T) :
    Decidable (FindsFree s action) := by
  cases action <;> simp only [FindsFree] <;> infer_instance

omit [DecidableEq T] in
theorem findsFree_of_other {s : DestructorState T} {action : DestructorAction T}
    (h : ¬ action.IsDestructor) : FindsFree s action := by
  cases action with
  | destructor => exact absurd trivial h
  | lock | unlock => trivial

/-- The mutex has been destroyed once, and nobody holds it. -/
def DestructorState.Gone (s : DestructorState T) : Prop :=
  s.mutex.destroyed = 1 ∧ s.mutex.owner = none

/-- What holds while the mutex has been found free. -/
def DestructorState.Sound (self : T) (s : DestructorState T) : Prop :=
  match s.point with
  | .trylock => s.mutex.destroyed = 0 ∧ s.errors ≤ unlockRetries
  | .unlock | .unlockAgain =>
      s.mutex.owner = some self ∧ s.error = .ok ∧ s.mutex.destroyed = 0 ∧ s.errors ≤ unlockRetries
  | .lock | .blocked | .destroy =>
      s.mutex.owner ≠ some self ∧ s.error = .ok ∧ s.mutex.destroyed = 0 ∧ s.errors ≤ unlockRetries
  | .unlockOwn => False
  | .again =>
      (s.Gone ∧ s.error = .ok ∧ s.errors ≤ unlockRetries) ∨
        (s.mutex.destroyed = 0 ∧ s.error = .ebusy ∧ s.errors ≤ unlockRetries + 1)
  | .failed =>
      (s.Gone ∧ s.error = .ok) ∨
        (s.mutex.destroyed = 0 ∧ s.error = .ebusy ∧ s.errors = unlockRetries + 1)
  | .condDestroy | .returned => s.Gone
  | .threw what =>
      (what = mutexFailed ∧ s.mutex.destroyed = 0 ∧ s.errors = unlockRetries + 2) ∨
        (what = condFailed ∧ s.Gone)

/-- What holds from the moment when the mutex has not been found free. -/
def DestructorState.Lost (s : DestructorState T) : Prop :=
  s.mutex.destroyed = 0 ∧
    match s.point with
    | .unlockOwn => s.error = .ebusy ∧ s.errors ≤ unlockRetries
    | .again => s.error ≠ .ebusy ∧ s.errors ≤ unlockRetries + 1
    | .failed => s.error ≠ .ebusy
    | .condDestroy | .returned => True
    | .threw what => what = condFailed
    | _ => False

variable {self : T} {s next : DestructorState T} {fails : Bool}

/-- The steps of the destructor. -/
inductive DestructorMoves (self : T) (fails : Bool) (s : DestructorState T) :
    DestructorState T → Prop
  | free (hp : s.point = .trylock) (howner : s.mutex.owner = none) :
      DestructorMoves self fails s
        { s with mutex := { s.mutex with owner := some self }, error := .ok, point := .unlock }
  | busy (hp : s.point = .trylock) (howner : s.mutex.owner ≠ none) :
      DestructorMoves self fails s { s with error := .ebusy, point := .unlockOwn }
  | unlock (hp : s.point = .unlock) :
      DestructorMoves self fails s
        { s with mutex := (s.mutex.unlock self).1, point := .lock }
  | recursive (hp : s.point = .lock) (howner : s.mutex.owner = some self) :
      DestructorMoves self fails s { s with point := .threw recursiveLock }
  | locked (hp : s.point = .lock ∨ (s.point = .blocked ∧ fails = false))
      (howner : s.mutex.owner = none) :
      DestructorMoves self fails s
        { s with mutex := { s.mutex with owner := some self }, point := .unlockAgain }
  | blocks (hp : s.point = .lock) (howner : s.mutex.owner ≠ some self) :
      DestructorMoves self fails s { s with point := .blocked }
  | expires (hp : s.point = .blocked) (hfails : fails = true) :
      DestructorMoves self fails s { s with point := .again }
  | unlockAgain (hp : s.point = .unlockAgain) :
      DestructorMoves self fails s
        { s with mutex := (s.mutex.unlock self).1, point := .destroy }
  | destroyed (hp : s.point = .destroy) (howner : s.mutex.owner = none) :
      DestructorMoves self fails s
        { s with
          mutex := { s.mutex with destroyed := s.mutex.destroyed + 1 }, error := .ok
          point := .again }
  | kept (hp : s.point = .destroy) (howner : s.mutex.owner ≠ none) :
      DestructorMoves self fails s
        { s with error := .ebusy, errors := s.errors + 1, point := .again }
  | own (hp : s.point = .unlockOwn) (howner : s.mutex.owner = some self) :
      DestructorMoves self fails s
        { s with mutex := { s.mutex with owner := none }, error := .ok, point := .failed }
  | foreign (hp : s.point = .unlockOwn) (howner : s.mutex.owner ≠ some self) :
      DestructorMoves self fails s
        { s with error := .eperm, errors := s.errors + 1, point := .again }
  | again (hp : s.point = .again) (herrors : s.errors ≤ unlockRetries)
      (herror : s.error = .ebusy) : DestructorMoves self fails s { s with point := .trylock }
  | leave (hp : s.point = .again) (h : unlockRetries < s.errors ∨ s.error ≠ .ebusy) :
      DestructorMoves self fails s { s with point := .failed }
  | throws (hp : s.point = .failed) (herror : s.error = .ebusy) :
      DestructorMoves self fails s
        { s with errors := s.errors + 1, point := .threw mutexFailed }
  | passes (hp : s.point = .failed) (herror : s.error ≠ .ebusy) :
      DestructorMoves self fails s { s with point := .condDestroy }
  | condThrows (hp : s.point = .condDestroy) :
      DestructorMoves self fails s
        { s with error := .ebusy, errors := s.errors + 1, point := .threw condFailed }
  | returns (hp : s.point = .condDestroy) :
      DestructorMoves self fails s { s with error := .ok, point := .returned }

theorem destructor_moves (hstep : destructor self fails s = some next) :
    DestructorMoves self fails s next := by
  unfold destructor at hstep
  split at hstep
  · next hp =>
      simp only [Mutex.trylock] at hstep
      by_cases howner : s.mutex.owner = none
      · simp only [howner, if_true] at hstep
        cases hstep
        exact .free hp howner
      · simp only [howner, if_false, reduceCtorEq] at hstep
        cases hstep
        exact .busy hp howner
  · next hp =>
      cases hstep
      exact .unlock hp
  · next hp =>
      split at hstep
      · next howner =>
          cases hstep
          exact .recursive hp howner
      · next hnot =>
          split at hstep
          · next howner =>
              simp only [Mutex.trylock, howner, if_true] at hstep
              cases hstep
              exact .locked (.inl hp) howner
          · cases hstep
            exact .blocks hp hnot
  · next hp =>
      split at hstep
      · next hfails =>
          cases hstep
          exact .expires hp hfails
      · next hnot =>
          split at hstep
          · next howner =>
              simp only [Mutex.trylock, howner, if_true] at hstep
              cases hstep
              exact .locked (.inr ⟨hp, Bool.eq_false_iff.mpr hnot⟩) howner
          · cases hstep
  · next hp =>
      cases hstep
      exact .unlockAgain hp
  · next hp =>
      simp only [Mutex.destroy] at hstep
      by_cases howner : s.mutex.owner = none
      · simp only [if_pos howner, if_true] at hstep
        cases hstep
        exact .destroyed hp howner
      · simp only [howner, if_false, reduceCtorEq] at hstep
        cases hstep
        exact .kept hp howner
  · next hp =>
      simp only [Mutex.unlock] at hstep
      by_cases howner : s.mutex.owner = some self
      · simp only [howner, if_true, ne_eq, reduceCtorEq, not_false_eq_true] at hstep
        cases hstep
        exact .own hp howner
      · simp only [howner, if_false, ne_eq, not_true_eq_false] at hstep
        cases hstep
        exact .foreign hp howner
  · next hp =>
      split at hstep
      · next hmany =>
          cases hstep
          exact .leave hp (.inl hmany)
      · next hfew =>
          split at hstep
          · next herror =>
              cases hstep
              exact .again hp (Nat.not_lt.mp hfew) herror
          · next herror =>
              cases hstep
              exact .leave hp (.inr herror)
  · next hp =>
      split at hstep
      · next herror =>
          cases hstep
          exact .throws hp herror
      · next herror =>
          cases hstep
          exact .passes hp herror
  · next hp =>
      split at hstep
      · cases hstep
        exact .condThrows hp
      · cases hstep
        exact .returns hp
  · cases hstep
  · cases hstep

theorem Mutex.unlock_owner_ne (mutex : Mutex T) (t : T) : (mutex.unlock t).1.owner ≠ some t := by
  unfold unlock
  split
  · nofun
  · assumption

theorem Mutex.unlock_destroyed (mutex : Mutex T) (t : T) :
    (mutex.unlock t).1.destroyed = mutex.destroyed := by
  unfold unlock
  split <;> rfl

/-- The steps of the destructor while it finds the mutex free. -/
theorem DestructorMoves.sound (hmoves : DestructorMoves self fails s next) (h : s.Sound self)
    (hfree : FindsFree s (.destructor fails)) : next.Sound self := by
  obtain ⟨htrylock, hblocked⟩ := hfree
  unfold DestructorState.Sound at h
  cases hmoves with
  | free hp howner =>
      rw [hp] at h
      obtain ⟨hdestroyed, herrors⟩ := h
      exact ⟨rfl, rfl, hdestroyed, herrors⟩
  | busy hp howner => exact absurd (htrylock hp) howner
  | unlock hp | unlockAgain hp =>
      rw [hp] at h
      obtain ⟨-, herror, hdestroyed, herrors⟩ := h
      exact ⟨s.mutex.unlock_owner_ne self, herror,
        (s.mutex.unlock_destroyed self).trans hdestroyed, herrors⟩
  | recursive hp howner =>
      rw [hp] at h
      exact absurd howner h.1
  | locked hp howner =>
      have hin : s.error = .ok ∧ s.mutex.destroyed = 0 ∧ s.errors ≤ unlockRetries := by
        rcases hp with hp | ⟨hp, -⟩ <;> rw [hp] at h <;> exact h.2
      exact ⟨rfl, hin⟩
  | blocks hp howner =>
      rw [hp] at h
      exact h
  | expires hp hfails =>
      rw [hblocked hp] at hfails
      cases hfails
  | destroyed hp howner =>
      rw [hp] at h
      obtain ⟨-, -, hdestroyed, herrors⟩ := h
      exact .inl ⟨⟨congrArg (· + 1) hdestroyed, howner⟩, rfl, herrors⟩
  | kept hp howner =>
      rw [hp] at h
      obtain ⟨-, -, hdestroyed, herrors⟩ := h
      exact .inr ⟨hdestroyed, rfl, Nat.succ_le_succ herrors⟩
  | own hp | foreign hp =>
      rw [hp] at h
      exact h.elim
  | again hp herrors herror =>
      rw [hp] at h
      rcases h with ⟨-, hok, -⟩ | ⟨hdestroyed, -, -⟩
      · rw [herror] at hok
        cases hok
      · exact ⟨hdestroyed, herrors⟩
  | leave hp hleave =>
      rw [hp] at h
      rcases h with ⟨hgone, hok, -⟩ | ⟨hdestroyed, hbusy, herrors⟩
      · exact .inl ⟨hgone, hok⟩
      · refine .inr ⟨hdestroyed, hbusy, ?_⟩
        rcases hleave with hmany | hnot
        · exact Nat.le_antisymm herrors hmany
        · exact absurd hbusy hnot
  | throws hp herror =>
      rw [hp] at h
      rcases h with ⟨-, hok⟩ | ⟨hdestroyed, -, herrors⟩
      · rw [herror] at hok
        cases hok
      · exact .inl ⟨rfl, hdestroyed, congrArg (· + 1) herrors⟩
  | passes hp herror =>
      rw [hp] at h
      rcases h with ⟨hgone, -⟩ | ⟨-, hbusy, -⟩
      · exact hgone
      · exact absurd hbusy herror
  | condThrows hp =>
      rw [hp] at h
      exact .inr ⟨rfl, h⟩
  | returns hp =>
      rw [hp] at h
      exact h

/-- The step at which the mutex is not found free. -/
theorem DestructorMoves.lost (hmoves : DestructorMoves self fails s next) (h : s.Sound self)
    (hnot : ¬ FindsFree s (.destructor fails)) : next.Lost := by
  unfold DestructorState.Sound at h
  have hcases : (s.point = .trylock ∧ s.mutex.owner ≠ none) ∨
      (s.point = .blocked ∧ fails = true) := by
    by_contra hneither
    rw [not_or, not_and_not_right, not_and] at hneither
    exact hnot ⟨hneither.1, fun hp => Bool.eq_false_iff.mpr (hneither.2 hp)⟩
  rcases hcases with ⟨hpoint, howner⟩ | ⟨hpoint, hfails⟩
  · rw [hpoint] at h
    cases hmoves with
    | free hp hfree => exact absurd hfree howner
    | busy => exact ⟨h.1, rfl, h.2⟩
    | locked hp => rcases hp with hp | ⟨hp, -⟩ <;> cases hpoint.symm.trans hp
    | _ hp => cases hpoint.symm.trans hp
  · rw [hpoint] at h
    obtain ⟨-, herror, hdestroyed, herrors⟩ := h
    cases hmoves with
    | expires => exact ⟨hdestroyed, herror ▸ nofun, Nat.le_succ_of_le herrors⟩
    | locked hp =>
        rcases hp with hp | ⟨-, hnotFails⟩
        · cases hpoint.symm.trans hp
        · cases hfails.symm.trans hnotFails
    | _ hp => cases hpoint.symm.trans hp

/-- The mutex is not destroyed any more. -/
theorem DestructorMoves.lost_of_lost (hmoves : DestructorMoves self fails s next) (h : s.Lost) :
    next.Lost := by
  obtain ⟨hdestroyed, h⟩ := h
  cases hmoves with
  | own hp => exact ⟨hdestroyed, nofun⟩
  | foreign hp =>
      rw [hp] at h
      exact ⟨hdestroyed, nofun, Nat.succ_le_succ h.2⟩
  | again hp _ herror =>
      rw [hp] at h
      exact absurd herror h.1
  | leave hp =>
      rw [hp] at h
      exact ⟨hdestroyed, h.1⟩
  | throws hp herror =>
      rw [hp] at h
      exact absurd herror h
  | passes | returns => exact ⟨hdestroyed, trivial⟩
  | condThrows => exact ⟨hdestroyed, rfl⟩
  | locked hp => rcases hp with hp | ⟨hp, -⟩ <;> rw [hp] at h <;> exact h.elim
  | free hp | busy hp | unlock hp | recursive hp | blocks hp | expires hp | unlockAgain hp
  | destroyed hp | kept hp =>
      rw [hp] at h
      exact h.elim

/-! ## The other threads -/

/-- What another thread does to the mutex. -/
structure DestructorState.Disturbed (self : T) (s next : DestructorState T) : Prop where
  destroyed : next.mutex.destroyed = s.mutex.destroyed
  owner : s.mutex.owner = some self ↔ next.mutex.owner = some self
  gone : s.Gone → next.Gone
  error : next.error = s.error
  errors : next.errors = s.errors
  point : next.point = s.point

theorem disturbed_of_step {action : DestructorAction T}
    (hstep : destructorStep self s action = some next) :
    (∃ fails, action = .destructor fails ∧ DestructorMoves self fails s next) ∨
      (¬ action.IsDestructor ∧ s.Disturbed self next) := by
  cases action with
  | destructor fails => exact .inl ⟨fails, rfl, destructor_moves hstep⟩
  | lock t =>
      simp only [destructorStep] at hstep
      split at hstep
      · next hallowed =>
          obtain ⟨hne, howner, hdestroyed⟩ := hallowed
          simp only [Mutex.trylock, if_pos howner] at hstep
          cases hstep
          refine .inr ⟨id, rfl, ?_, ?_, rfl, rfl, rfl⟩
          · simp [howner, hne]
          · intro hgone
            rw [hgone.1] at hdestroyed
            cases hdestroyed
      · cases hstep
  | unlock t =>
      simp only [destructorStep] at hstep
      split at hstep
      · next hallowed =>
          obtain ⟨hne, howner⟩ := hallowed
          simp only [Mutex.unlock, if_pos howner] at hstep
          cases hstep
          refine .inr ⟨id, rfl, ?_, fun hgone => ⟨hgone.1, rfl⟩, rfl, rfl, rfl⟩
          simp [howner, hne]
      · cases hstep

omit [DecidableEq T] in
theorem DestructorState.Disturbed.sound (h : s.Disturbed self next) (hsound : s.Sound self) :
    next.Sound self := by
  obtain ⟨hdestroyed, howner, hgone, herror, herrors, hpoint⟩ := h
  unfold Sound at hsound ⊢
  rw [hpoint, herror, herrors, hdestroyed]
  cases hp : s.point with
  | trylock =>
      rw [hp] at hsound
      exact hsound
  | unlock | unlockAgain =>
      rw [hp] at hsound
      exact ⟨howner.mp hsound.1, hsound.2⟩
  | lock | blocked | destroy =>
      rw [hp] at hsound
      exact ⟨fun hown => hsound.1 (howner.mpr hown), hsound.2⟩
  | unlockOwn =>
      rw [hp] at hsound
      exact hsound
  | again =>
      rw [hp] at hsound
      exact hsound.imp_left fun hleft => ⟨hgone hleft.1, hleft.2⟩
  | failed =>
      rw [hp] at hsound
      exact hsound.imp_left fun hleft => ⟨hgone hleft.1, hleft.2⟩
  | condDestroy | returned =>
      rw [hp] at hsound
      exact hgone hsound
  | threw what =>
      rw [hp] at hsound
      exact hsound.imp_right fun hright => ⟨hright.1, hgone hright.2⟩

omit [DecidableEq T] in
theorem DestructorState.Disturbed.lost (h : s.Disturbed self next) (hlost : s.Lost) :
    next.Lost := by
  obtain ⟨hdestroyed, -, -, herror, herrors, hpoint⟩ := h
  unfold Lost
  rw [hpoint, herror, herrors, hdestroyed]
  exact hlost

/-! ## Runs of the destructor -/

variable {owner : Option T}

/-- As long as the mutex is found free. -/
theorem sound_of_reaches
    (hrun : Reaches (destructorStep self) FindsFree (entered owner) s) : s.Sound self := by
  refine hrun.invariant ⟨rfl, Nat.zero_le _⟩ ?_
  intro s action next hsound hfree hstep
  rcases disturbed_of_step hstep with ⟨fails, rfl, hmoves⟩ | ⟨-, hdisturbed⟩
  · exact hmoves.sound hsound hfree
  · exact hdisturbed.sound hsound

/-- Every run finds the mutex free all the time, or has lost it. -/
theorem reaches_or_lost {guard : DestructorState T → DestructorAction T → Prop}
    (hrun : Reaches (destructorStep self) guard (entered owner) s) :
    Reaches (destructorStep self) FindsFree (entered owner) s ∨ s.Lost := by
  induction hrun with
  | refl => exact .inl .refl
  | @tail middle target action hprior hguard hstep ih =>
      rcases disturbed_of_step hstep with ⟨fails, rfl, hmoves⟩ | ⟨hother, hdisturbed⟩
      · rcases ih with hfree | hlost
        · by_cases hfinds : FindsFree middle (.destructor fails)
          · exact .inl (hfree.tail _ hfinds hstep)
          · exact .inr (hmoves.lost (sound_of_reaches hfree) hfinds)
        · exact .inr (hmoves.lost_of_lost hlost)
      · rcases ih with hfree | hlost
        · exact .inl (hfree.tail action (findsFree_of_other hother) hstep)
        · exact .inr (hdisturbed.lost hlost)

/-! ## The loop ends -/

/-- What is left of a pass of the loop, and of the code behind it. -/
def DestructorState.stage (s : DestructorState T) : Nat :=
  match s.point with
  | .trylock => 9
  | .unlock => 8
  | .lock => 7
  | .blocked => 6
  | .unlockAgain => 5
  | .destroy => 4
  | .unlockOwn => 4
  | .again => if s.error = .ebusy then 10 else 3
  | .failed => 2
  | .condDestroy => 1
  | .returned | .threw _ => 0

def DestructorState.rank (s : DestructorState T) : Nat :=
  (unlockRetries + 2 - s.errors) * 11 + s.stage

/-- Every step of the destructor decreases the rank. -/
theorem DestructorMoves.rank_lt (hmoves : DestructorMoves self fails s next)
    (h : s.Sound self ∨ s.Lost) : next.rank < s.rank := by
  have hblocked : s.point = .blocked → s.error ≠ .ebusy := by
    intro hp
    rcases h with hsound | ⟨-, hlost⟩
    · rw [DestructorState.Sound, hp] at hsound
      exact hsound.2.1 ▸ nofun
    · rw [hp] at hlost
      exact hlost.elim
  have hdestroy : s.point = .destroy → s.errors ≤ unlockRetries := by
    intro hp
    rcases h with hsound | ⟨-, hlost⟩
    · rw [DestructorState.Sound, hp] at hsound
      exact hsound.2.2.2
    · rw [hp] at hlost
      exact hlost.elim
  cases hmoves with
  | locked hp =>
      rcases hp with hp | ⟨hp, -⟩ <;> simp [DestructorState.rank, DestructorState.stage, hp]
  | expires hp => simp [DestructorState.rank, DestructorState.stage, hp, hblocked hp]
  | kept hp =>
      have herrors := hdestroy hp
      simp only [DestructorState.rank, DestructorState.stage, hp, if_true]
      omega
  | again hp _ herror => simp [DestructorState.rank, DestructorState.stage, hp, herror]
  | leave hp =>
      simp only [DestructorState.rank, DestructorState.stage, hp]
      split <;> omega
  | throws hp | condThrows hp =>
      simp only [DestructorState.rank, DestructorState.stage, hp]
      omega
  | foreign hp =>
      simp only [DestructorState.rank, DestructorState.stage, hp, reduceCtorEq, if_false]
      omega
  | free hp | busy hp | unlock hp | recursive hp | blocks hp | unlockAgain hp | destroyed hp
  | own hp | passes hp | returns hp => simp [DestructorState.rank, DestructorState.stage, hp]

omit [DecidableEq T] in
theorem DestructorState.Disturbed.rank_eq (h : s.Disturbed self next) : next.rank = s.rank := by
  obtain ⟨-, -, -, herror, herrors, hpoint⟩ := h
  simp only [rank, stage, herror, herrors, hpoint]

/-- The destructor has ended. -/
def DestructorState.Ended (s : DestructorState T) : Prop :=
  s.point = .returned ∨ ∃ what, s.point = .threw what

/-- The destructor is never blocked for good: at the latest `lock(10)` times out. -/
theorem exists_step (self : T) (h : ¬ s.Ended) :
    ∃ fails next, destructor self fails s = some next := by
  refine ⟨true, ?_⟩
  unfold destructor
  split
  · exact ⟨_, rfl⟩
  · exact ⟨_, rfl⟩
  · split
    · exact ⟨_, rfl⟩
    · split <;> exact ⟨_, rfl⟩
  · exact ⟨_, rfl⟩
  · exact ⟨_, rfl⟩
  · exact ⟨_, rfl⟩
  · simp only
    split <;> exact ⟨_, rfl⟩
  · split
    · exact ⟨_, rfl⟩
    · split <;> exact ⟨_, rfl⟩
  · split <;> exact ⟨_, rfl⟩
  · exact ⟨_, rfl⟩
  · next hp => exact absurd (.inl hp) h
  · next what hp => exact absurd (.inr ⟨what, hp⟩) h

/-- From every state the destructor ends: it makes finitely many steps, whatever the other threads
do, and is able to make the next one until it has ended. -/
structure Terminates (self : T) (s : DestructorState T) : Prop where
  finite : ∀ run : Endless (destructorStep self) s,
    ∃ bound, ∀ n, bound ≤ n → ¬ (run.action n).IsDestructor
  able : ¬ s.Ended → ∃ fails next, destructorStep self s (.destructor fails) = some next

variable {guard : DestructorState T → DestructorAction T → Prop}

theorem terminates_of_reaches (hrun : Reaches (destructorStep self) guard (entered owner) s) :
    Terminates self s where
  finite run := by
    have hrank : ∀ n, (run.state (n + 1)).rank ≤ (run.state n).rank ∧
        ((run.action n).IsDestructor → (run.state (n + 1)).rank < (run.state n).rank) := by
      intro n
      have hany : Reaches (destructorStep self) (fun _ _ => True) (entered owner) s :=
        hrun.mono fun _ _ _ => trivial
      have hreach := hany.trans (run.reaches (fun _ => trivial) n)
      rcases disturbed_of_step (run.next n) with ⟨fails, -, hmoves⟩ | ⟨hother, hdisturbed⟩
      · have hlt := hmoves.rank_lt ((reaches_or_lost hreach).imp_left sound_of_reaches)
        exact ⟨hlt.le, fun _ => hlt⟩
      · exact ⟨hdisturbed.rank_eq.le, fun hmove => absurd hmove hother⟩
    exact run.finitely_often DestructorAction.IsDestructor (fun n => (hrank n).1)
      fun n => (hrank n).2
  able := exists_step self

/-- The destructor always ends. When it returns, it has destroyed a mutex that nobody holds if
and only if it has found the mutex free; only then it can throw because of the mutex, and only
after all retries. -/
theorem destructor_destroys_iff (hrun : Reaches (destructorStep self) guard (entered owner) s) :
    Terminates self s ∧
      (s.point = .returned →
        (s.Gone ↔ Reaches (destructorStep self) FindsFree (entered owner) s)) ∧
      (s.point = .threw mutexFailed →
        Reaches (destructorStep self) FindsFree (entered owner) s ∧ unlockRetries < s.errors) := by
  refine ⟨terminates_of_reaches hrun, ?_, ?_⟩
  · intro hreturned
    constructor
    · intro hgone
      refine (reaches_or_lost hrun).resolve_right ?_
      rintro ⟨hdestroyed, -⟩
      rw [hgone.1] at hdestroyed
      cases hdestroyed
    · intro hfree
      have hsound := sound_of_reaches hfree
      rw [DestructorState.Sound, hreturned] at hsound
      exact hsound
  · intro hthrew
    have hfree : Reaches (destructorStep self) FindsFree (entered owner) s := by
      refine (reaches_or_lost hrun).resolve_right ?_
      rintro ⟨-, hlost⟩
      rw [hthrew] at hlost
      exact absurd (show mutexFailed = condFailed from hlost) (by decide)
    have hsound := sound_of_reaches hfree
    rw [DestructorState.Sound, hthrew] at hsound
    rcases hsound with ⟨-, -, herrors⟩ | ⟨hwhat, -⟩
    · exact ⟨hfree, by omega⟩
    · exact absurd hwhat (by decide)

/-- What an execution of the destructor alone shows. -/
def DestructorState.outcome (s : DestructorState T) : DestructorPoint × Nat × Option T :=
  (s.point, s.mutex.destroyed, s.mutex.owner)

/-- Another thread locks the monitor twice: `lock(10)` waits for it, and the mutex is destroyed in
the second pass. -/
theorem destructor_destroys_retried :
    ∃ s : DestructorState Nat, s.point = .returned ∧ s.errors = 1 ∧ s.Gone := by
  obtain ⟨s, hrun, hobserved⟩ : ∃ s : DestructorState Nat,
      Reaches (destructorStep 0) FindsFree (entered none) s ∧
        (s.outcome, s.errors) = ((.returned, 1, none), 1) :=
    Reaches.of_observed (fun s action => decide (FindsFree s action))
      ([.destructor false, .destructor false, .lock 1, .destructor false, .unlock 1,
        .destructor false, .destructor false, .lock 1, .destructor false, .unlock 1] ++
        List.replicate 9 (.destructor false))
      (fun _ _ => of_decide_eq_true) (by decide +kernel)
  obtain ⟨houtcome, herrors⟩ := Prod.mk.inj hobserved
  obtain ⟨hreturned, -⟩ := Prod.mk.inj houtcome
  exact ⟨s, hreturned, herrors, ((destructor_destroys_iff hrun).2.1 hreturned).mpr hrun⟩

/-- Another thread holds the monitor: the destructor returns at once, without an exception. -/
theorem destructor_gives_up :
    ¬ ∀ (owner : Option Nat) (s : DestructorState Nat),
      Reaches (destructorStep 0) (fun _ _ => True) (entered owner) s →
        s.point = .returned → s.Gone := by
  intro hgone
  obtain ⟨s, hrun, houtcome⟩ : ∃ s : DestructorState Nat,
      Reaches (destructorStep 0) (fun _ _ => True) (entered (some 1)) s ∧
        s.outcome = (.returned, 0, some 1) :=
    Reaches.of_observed (fun _ _ => true) (List.replicate 5 (.destructor false))
      (fun _ _ _ => trivial) (by decide +kernel)
  simp only [DestructorState.outcome, Prod.mk.injEq] at houtcome
  have hdestroyed := (hgone _ s hrun houtcome.1).1
  rw [houtcome.2.1] at hdestroyed
  cases hdestroyed

end ThreadPools.Posix.Synchronized
