/-
# The mark `isLocked` of a monitor

`Synchronized` keeps in `isLocked` whether its mutex is locked. The thread that owns the
mutex sets the mark behind the operation that has given it the mutex, and clears it in
front of the one that gives the mutex back, and `trylock()` and `unlock()` assert what the
mark should say. The mutex checks for errors: an operation of a thread that does not own
it, or owns it already, fails. Every operation of the mutex or the condition variable and
every access to the mark is a step; a thread may leave a wait at any time.
-/

import Mathlib.Logic.Function.Basic
import ThreadPools.Concurrency.Runs

namespace ThreadPools.Agentpp.Synchronized

open ThreadPools.Concurrency

inductive Method
  | lock
  /-- `lock(long timeout)` -/
  | lockFor
  | trylock
  | unlock
  | wait
  /-- `wait(long timeout)` -/
  | waitFor
  deriving DecidableEq

/-- The points of a thread. -/
inductive Point
  /-- outside of all methods -/
  | client
  /-- in `lock()`, at `pthread_mutex_lock` -/
  | lock
  /-- in `lock(long)`, at `pthread_mutex_timedlock` -/
  | timedlock
  /-- in both, at `isLocked = true` -/
  | locked
  /-- in `trylock()`, at `pthread_mutex_trylock` -/
  | trylock
  /-- at `assert(!isLocked)` -/
  | assertFree
  /-- at `isLocked = true` -/
  | tryLocked
  /-- at `assert(isLocked)` in front of `return OWNED` -/
  | assertOwned
  /-- at `assert(isLocked)` in front of `return BUSY` -/
  | assertBusy
  /-- in `unlock()`, at `wasLocked = isLocked` -/
  | save
  /-- at `isLocked = false` -/
  | clear (wasLocked : Bool)
  /-- at `pthread_mutex_unlock` -/
  | unlock (wasLocked : Bool)
  /-- at `isLocked = wasLocked` -/
  | restore (wasLocked : Bool)
  /-- at `assert(!isLocked)` -/
  | assertCleared
  /-- in `wait(long)`, at `isLocked = false` -/
  | waitClear
  /-- in `cond_timed_wait`, at `isLocked = false`; called by `wait()` or by `wait(long)` -/
  | condClear (timed : Bool)
  /-- at `pthread_cond_wait` or `pthread_cond_timedwait` -/
  | condWait (timed : Bool)
  /-- inside the wait -/
  | asleep (timed : Bool)
  /-- at `isLocked = true` -/
  | condSet (timed : Bool)
  /-- in `wait(long)`, at `isLocked = true` -/
  | waitSet
  /-- an assertion has failed -/
  | aborted
  deriving DecidableEq

/-- The mutex and the mark, and the points of the threads. -/
structure State (T : Type*) where
  owner : Option T
  isLocked : Bool
  point : T → Point

/-- The first point of a method. -/
def Method.entry : Method → Point
  | .lock => .lock
  | .lockFor => .timedlock
  | .trylock => .trylock
  | .unlock => .save
  | .wait => .condClear false
  | .waitFor => .waitClear

variable {T : Type*} [DecidableEq T]

/-- The next step of `t` in a method: the owner, the mark and the point behind it. A thread
that owns the mutex is told so by `trylock()` with `EDEADLK` or `EBUSY`. -/
def code (t : T) (deadlock : Bool) (owner : Option T) (isLocked : Bool) :
    Point → Option (Option T × Bool × Point)
  | .client | .aborted => none
  | .lock =>
      if owner = none then some (some t, isLocked, .locked)
      else if owner = some t then some (owner, isLocked, .client)
      else none
  | .timedlock =>
      if owner = none then some (some t, isLocked, .locked) else some (owner, isLocked, .client)
  | .locked => some (owner, true, .client)
  | .trylock =>
      if owner = none then some (some t, isLocked, .assertFree)
      else if owner = some t ∧ deadlock then some (owner, isLocked, .assertOwned)
      else some (owner, isLocked, .assertBusy)
  | .assertFree => some (owner, isLocked, if isLocked then .aborted else .tryLocked)
  | .tryLocked => some (owner, true, .client)
  | .assertOwned => some (owner, isLocked, if isLocked then .client else .aborted)
  | .assertBusy => some (owner, isLocked, if isLocked then .client else .aborted)
  | .save => some (owner, isLocked, .clear isLocked)
  | .clear wasLocked => some (owner, false, .unlock wasLocked)
  | .unlock wasLocked =>
      if owner = some t then some (none, isLocked, .client)
      else some (owner, isLocked, .restore wasLocked)
  | .restore wasLocked => some (owner, wasLocked, .assertCleared)
  | .assertCleared => some (owner, isLocked, if isLocked then .aborted else .client)
  | .waitClear => some (owner, false, .condClear true)
  | .condClear timed => some (owner, false, .condWait timed)
  | .condWait timed =>
      if owner = some t then some (none, isLocked, .asleep timed)
      else some (owner, isLocked, .condSet timed)
  | .asleep timed =>
      if owner = none then some (some t, isLocked, .condSet timed) else none
  | .condSet timed => some (owner, true, if timed then .waitSet else .client)
  | .waitSet => some (owner, true, .client)

inductive Action (T : Type*)
  | call (t : T) (method : Method)
  | go (t : T) (deadlock : Bool)

/-- One atomic step. -/
def step (state : State T) : Action T → Option (State T)
  | .call t method =>
      if state.point t = .client then
        some { state with point := Function.update state.point t method.entry }
      else none
  | .go t deadlock =>
      (code t deadlock state.owner state.isLocked (state.point t)).map fun result =>
        { owner := result.1
          isLocked := result.2.1
          point := Function.update state.point t result.2.2 }

def initial : State T where
  owner := none
  isLocked := false
  point _ := .client

/-- Threads unlock and wait only inside the monitor. -/
def CallsInside (state : State T) (action : Action T) : Prop :=
  match action with
  | .call t .unlock | .call t .wait | .call t .waitFor => state.owner = some t
  | _ => True

namespace State

/-- The value of the assertion a thread is about to evaluate. -/
def assertion (state : State T) (t : T) : Option Bool :=
  match state.point t with
  | .assertFree | .assertCleared => some !state.isLocked
  | .assertOwned | .assertBusy => some state.isLocked
  | _ => none

end State

/-- What the mark should say while a thread that owns the mutex is at the point: it is
clear between an operation that has given it the mutex and the next assignment, and between
an assignment and the operation that gives the mutex back. -/
def Point.marked : Point → Bool
  | .locked | .assertFree | .tryLocked | .unlock _ | .condClear true | .condWait _ => false
  | .condSet _ => false
  | _ => true

/-- The points of a thread that does not own the mutex. -/
def Point.outside : Point → Bool
  | .client | .lock | .timedlock | .trylock | .assertBusy | .asleep _ | .aborted => true
  | _ => false

/-- The points of a thread that owns the mutex. -/
def Point.inside : Point → Bool
  | .asleep _ | .restore _ | .assertCleared | .aborted => false
  | _ => true

namespace State

/-- In front of `return BUSY` the mutex is owned by a thread that is not between one of its
operations and the assignment that belongs to it. -/
def Settled (state : State T) (t : T) : Prop :=
  state.point t = .assertBusy →
    ∃ owner, state.owner = some owner ∧ (state.point owner).marked = true

end State

/-- A thread evaluates the assertion in front of `return BUSY` only at such a moment. -/
def AssertsSettled (state : State T) (action : Action T) : Prop :=
  match action with
  | .go t _ => state.Settled t
  | _ => True

/-! ## What a step can be -/

/-- What a step of a thread in a method does to the owner and the mark. -/
inductive Moves (t : T) (owner : Option T) (isLocked : Bool) :
    Point → Option T → Bool → Point → Prop
  | acquire (source target : Point) (hfree : owner = none)
      (htarget : target.inside = true ∧ target.marked = false) :
      Moves t owner isLocked source (some t) isLocked target
  | release (source target : Point) (howner : owner = some t) (hsource : source.marked = false)
      (htarget : target.outside = true) (hgoes : target ≠ .aborted) :
      Moves t owner isLocked source none isLocked target
  /-- an assignment to the mark -/
  | assign (source target : Point) (value : Bool) (hsource : source.outside = false)
      (htarget : source.inside = true → target.inside = true ∧ target.marked = value)
      (hgoes : target ≠ .aborted) :
      Moves t owner isLocked source owner value target
  /-- no effect; an assertion may fail -/
  | stay (source target : Point)
      (hinside : owner = some t → source.inside = true → isLocked = source.marked →
        target.inside = true ∧ target.marked = source.marked)
      (houtside : owner ≠ some t → source.outside = true → target.outside = true)
      (hfails : target = .aborted →
        source = .assertBusy ∧ isLocked = false ∨ source.outside = false) :
      Moves t owner isLocked source owner isLocked target

variable {t : T} {deadlock isLocked isLocked' : Bool} {owner owner' : Option T}
  {source target : Point}

theorem code_moves (h : code t deadlock owner isLocked source = some (owner', isLocked', target)) :
    Moves t owner isLocked source owner' isLocked' target := by
  cases source with
  | client => cases h
  | aborted => cases h
  | lock =>
      simp only [code] at h
      split at h
      · next hfree =>
          cases h
          exact .acquire _ _ hfree ⟨rfl, rfl⟩
      · split at h
        · next howner =>
            cases h
            exact .stay _ _ (fun _ _ _ => ⟨rfl, rfl⟩) (fun hne => absurd howner hne) nofun
        · cases h
  | timedlock =>
      simp only [code] at h
      split at h
      · next hfree =>
          cases h
          exact .acquire _ _ hfree ⟨rfl, rfl⟩
      · cases h
        exact .stay _ _ (fun _ _ _ => ⟨rfl, rfl⟩) (fun _ _ => rfl) nofun
  | locked =>
      cases h
      exact .assign _ _ _ rfl (fun _ => ⟨rfl, rfl⟩) nofun
  | trylock =>
      simp only [code] at h
      split at h
      · next hfree =>
          cases h
          exact .acquire _ _ hfree ⟨rfl, rfl⟩
      · split at h
        · next howner =>
            cases h
            exact .stay _ _ (fun _ _ _ => ⟨rfl, rfl⟩) (fun hne => absurd howner.1 hne) nofun
        · cases h
          exact .stay _ _ (fun _ _ _ => ⟨rfl, rfl⟩) (fun _ _ => rfl) nofun
  | assertFree =>
      cases h
      exact .stay _ _ (fun _ _ hmark => by rw [hmark]; exact ⟨rfl, rfl⟩) nofun fun _ => .inr rfl
  | tryLocked =>
      cases h
      exact .assign _ _ _ rfl (fun _ => ⟨rfl, rfl⟩) nofun
  | assertOwned =>
      cases h
      exact .stay _ _ (fun _ _ hmark => by rw [hmark]; exact ⟨rfl, rfl⟩) nofun fun _ => .inr rfl
  | assertBusy =>
      cases h
      refine .stay _ _ (fun _ _ hmark => by rw [hmark]; exact ⟨rfl, rfl⟩) (fun _ _ => ?_)
        fun habort => .inl ⟨rfl, Bool.eq_false_iff.mpr fun hlocked => ?_⟩
      · split <;> rfl
      · rw [if_pos hlocked] at habort
        cases habort
  | save =>
      cases h
      exact .stay _ _ (fun _ _ _ => ⟨rfl, rfl⟩) nofun nofun
  | clear wasLocked =>
      cases h
      exact .assign _ _ _ rfl (fun _ => ⟨rfl, rfl⟩) nofun
  | unlock wasLocked =>
      simp only [code] at h
      split at h
      · next howner =>
          cases h
          exact .release _ _ howner rfl rfl nofun
      · next hne =>
          cases h
          exact .stay _ _ (fun howner => absurd howner hne) nofun nofun
  | restore wasLocked =>
      cases h
      exact .assign _ _ _ rfl nofun nofun
  | assertCleared =>
      cases h
      exact .stay _ _ nofun nofun fun _ => .inr rfl
  | waitClear =>
      cases h
      exact .assign _ _ _ rfl (fun _ => ⟨rfl, rfl⟩) nofun
  | condClear timed =>
      cases h
      exact .assign _ _ _ rfl (fun _ => ⟨rfl, rfl⟩) nofun
  | condWait timed =>
      simp only [code] at h
      split at h
      · next howner =>
          cases h
          exact .release _ _ howner rfl rfl nofun
      · next hne =>
          cases h
          exact .stay _ _ (fun howner => absurd howner hne) nofun nofun
  | asleep timed =>
      simp only [code] at h
      split at h
      · next hfree =>
          cases h
          exact .acquire _ _ hfree ⟨rfl, rfl⟩
      · cases h
  | condSet timed =>
      cases h
      refine .assign _ _ _ rfl (fun _ => ?_) ?_
      · cases timed <;> exact ⟨rfl, rfl⟩
      · cases timed <;> nofun
  | waitSet =>
      cases h
      exact .assign _ _ _ rfl (fun _ => ⟨rfl, rfl⟩) nofun

/-- The steps of the threads. -/
inductive Steps (state : State T) : Action T → State T → Prop
  | call (t : T) (method : Method) (hclient : state.point t = .client) :
      Steps state (.call t method)
        { state with point := Function.update state.point t method.entry }
  | go (t : T) (deadlock : Bool) (owner : Option T) (isLocked : Bool) (target : Point)
      (hmoves : Moves t state.owner state.isLocked (state.point t) owner isLocked target) :
      Steps state (.go t deadlock)
        { owner := owner, isLocked := isLocked
          point := Function.update state.point t target }

variable {state after : State T} {action : Action T}

theorem step_cases (h : step state action = some after) : Steps state action after := by
  cases action with
  | call t method =>
      obtain ⟨hclient, ⟨⟩⟩ := Option.ite_none_right_eq_some.mp h
      exact .call t method hclient
  | go t deadlock =>
      obtain ⟨⟨owner, isLocked, target⟩, hcode, ⟨⟩⟩ := Option.map_eq_some_iff.mp h
      exact .go t deadlock owner isLocked target (code_moves hcode)

/-! ## The mark and the owner -/

/-- The mark is clear while the mutex is free, and what it should be for its owner. -/
structure Agrees (state : State T) : Prop where
  free : state.owner = none → state.isLocked = false
  owned : ∀ t, state.owner = some t →
    (state.point t).inside = true ∧ state.isLocked = (state.point t).marked
  others : ∀ t, state.owner ≠ some t → (state.point t).outside = true

omit [DecidableEq T] in
theorem agrees_initial : Agrees (initial : State T) :=
  ⟨fun _ => rfl, nofun, fun _ _ => rfl⟩

namespace Agrees

omit [DecidableEq T] in
/-- The thread at a point that no other thread reaches is the owner. -/
theorem owner_of_inside (h : Agrees state) (hpoint : (state.point t).outside = false) :
    state.owner = some t := by
  by_contra hne
  cases hpoint.symm.trans (h.others t hne)

/-- The point of one thread changes. -/
theorem update (howner : owner = some t → target.inside = true ∧ isLocked = target.marked)
    (hother : owner ≠ some t → target.outside = true)
    (hfree : owner = none → isLocked = false)
    (howned : ∀ s, s ≠ t → owner = some s →
      (state.point s).inside = true ∧ isLocked = (state.point s).marked)
    (hothers : ∀ s, s ≠ t → owner ≠ some s → (state.point s).outside = true) :
    Agrees { owner := owner, isLocked := isLocked
             point := Function.update state.point t target } := by
  refine ⟨hfree, fun s hs => ?_, fun s hs => ?_⟩
  · by_cases heq : s = t
    · subst heq
      simpa using howner hs
    · simpa [heq] using howned s heq hs
  · by_cases heq : s = t
    · subst heq
      simpa using hother hs
    · simpa [heq] using hothers s heq hs

theorem go (h : Agrees state)
    (hmoves : Moves t state.owner state.isLocked (state.point t) owner isLocked target) :
    Agrees { owner := owner, isLocked := isLocked
             point := Function.update state.point t target } := by
  generalize hpoint : state.point t = source at hmoves
  cases hmoves with
  | acquire _ hfree htarget =>
      refine update (fun _ => ⟨htarget.1, (h.free hfree).trans htarget.2.symm⟩)
        (fun hne => absurd rfl hne) nofun (fun s hs heq => ?_) fun s _ _ => h.others s ?_
      · exact absurd (Option.some.inj heq).symm hs
      · rw [hfree]
        nofun
  | release _ howner hsource htarget =>
      refine update nofun (fun _ => htarget) (fun _ => ?_) nofun fun s hs _ => h.others s ?_
      · rw [(h.owned t howner).2, hpoint, hsource]
      · rw [howner]
        exact fun heq => hs (Option.some.inj heq).symm
  | assign _ _ hsource htarget =>
      have howner := h.owner_of_inside (by rw [hpoint, hsource])
      obtain ⟨hinside, hmarked⟩ := htarget (hpoint ▸ (h.owned t howner).1)
      refine update (fun _ => ⟨hinside, hmarked.symm⟩) (fun hne => absurd howner hne)
        (fun hfree => ?_) (fun s hs heq => ?_) fun s _ => h.others s
      · cases hfree.symm.trans howner
      · exact absurd (Option.some.inj (heq.symm.trans howner)) hs
  | stay _ hinside houtside =>
      refine update (fun howner => ?_) (fun hne => ?_) h.free (fun s _ => h.owned s)
        fun s _ => h.others s
      · obtain ⟨hsource, hmark⟩ := h.owned t howner
        rw [hpoint] at hsource hmark
        obtain ⟨htarget, heq⟩ := hinside howner hsource hmark
        exact ⟨htarget, hmark.trans heq.symm⟩
      · exact houtside hne (hpoint ▸ h.others t hne)

theorem step (h : Agrees state) (hguard : CallsInside state action)
    (hstep : Steps state action after) : Agrees after := by
  cases hstep with
  | call t method hclient =>
      refine update (fun howner => ?_) (fun hne => ?_) h.free (fun s _ => h.owned s)
        fun s _ => h.others s
      · have hmark := (h.owned t howner).2
        rw [hclient] at hmark
        rw [hmark]
        cases method <;> exact ⟨rfl, rfl⟩
      · cases method <;> first | rfl | exact absurd hguard hne
  | go t deadlock owner isLocked target hmoves => exact h.go hmoves

omit [DecidableEq T] in
theorem settled_iff (h : Agrees state) (hpoint : state.point t = .assertBusy) :
    state.isLocked = true ↔ state.Settled t := by
  refine ⟨fun hlocked _ => ?_, fun hsettled => ?_⟩
  · cases howner : state.owner with
    | none => cases hlocked.symm.trans (h.free howner)
    | some owner => exact ⟨owner, rfl, (h.owned owner howner).2.symm.trans hlocked⟩
  · obtain ⟨owner, howner, hmarked⟩ := hsettled hpoint
    exact (h.owned owner howner).2.trans hmarked

omit [DecidableEq T] in
/-- The assertion in front of `return BUSY` is the only one that can fail. -/
theorem assertion_iff (h : Agrees state) {value : Bool} (hvalue : state.assertion t = some value) :
    value = true ↔ state.Settled t := by
  have hmark (hpoint : (state.point t).outside = false) :
      state.isLocked = (state.point t).marked :=
    (h.owned t (h.owner_of_inside hpoint)).2
  have hsettled (hpoint : state.point t ≠ .assertBusy) : state.Settled t :=
    fun hbusy => absurd hbusy hpoint
  unfold State.assertion at hvalue
  split at hvalue
  · next hpoint =>
      rw [hpoint] at hmark hsettled
      rw [hmark rfl] at hvalue
      cases hvalue
      exact ⟨fun _ => hsettled nofun, fun _ => rfl⟩
  · next hpoint =>
      -- behind an unlock that has failed: its thread owns the mutex at no such point
      have howner := h.owner_of_inside (t := t) (by rw [hpoint]; rfl)
      have hinside := (h.owned t howner).1
      rw [hpoint] at hinside
      cases hinside
  · next hpoint =>
      rw [hpoint] at hmark hsettled
      rw [hmark rfl] at hvalue
      cases hvalue
      exact ⟨fun _ => hsettled nofun, fun _ => rfl⟩
  · next hpoint =>
      cases hvalue
      exact h.settled_iff hpoint
  · cases hvalue

/-- No step fails an assertion. -/
theorem not_aborted (h : Agrees state) (hsettled : AssertsSettled state action)
    (hstep : Steps state action after) (hbefore : ∀ t, state.point t ≠ .aborted) :
    ∀ t, after.point t ≠ .aborted := by
  have hupdate (t : T) (target : Point) (htarget : target ≠ .aborted) (s : T) :
      Function.update state.point t target s ≠ .aborted := by
    by_cases heq : s = t
    · subst heq
      simpa using htarget
    · simpa [heq] using hbefore s
  cases hstep with
  | call t method hclient => exact hupdate t _ (by cases method <;> nofun)
  | go t deadlock owner isLocked target hmoves =>
      refine hupdate t target ?_
      rintro rfl
      generalize hpoint : state.point t = source at hmoves
      cases hmoves with
      | acquire _ hfree htarget => cases htarget.1
      | release _ howner hsource htarget hgoes => exact hgoes rfl
      | assign _ _ hsource htarget hgoes => exact hgoes rfl
      | stay _ hinside houtside hfails =>
          rcases hfails rfl with ⟨rfl, hcleared⟩ | hsource
          · exact absurd ((h.settled_iff hpoint).mpr hsettled) (by simp [hcleared])
          · have howner := h.owner_of_inside (hpoint ▸ hsource)
            obtain ⟨hin, hmark⟩ := h.owned t howner
            rw [hpoint] at hin hmark
            cases (hinside howner hin hmark).1

end Agrees

variable {guard : State T → Action T → Prop}

theorem agrees_of_reaches
    (hguard : ∀ state action, guard state action → CallsInside state action)
    (hrun : Reaches step guard initial state) : Agrees state :=
  hrun.invariant agrees_initial fun _ _ _ h hallowed hstep =>
    h.step (hguard _ _ hallowed) (step_cases hstep)

/-- While threads unlock and wait only inside the monitor, an assertion holds exactly when
its thread, if it is the one in front of `return BUSY`, sees a mutex whose owner is not
between an operation and its assignment; in a run whose steps all meet this no assertion
fails. -/
theorem assertions_hold_iff
    (hguard : ∀ state action, guard state action → CallsInside state action)
    (hrun : Reaches step guard initial state) :
    (∀ t value, state.assertion t = some value → (value = true ↔ state.Settled t)) ∧
      ((∀ state action, guard state action → AssertsSettled state action) →
        ∀ t, state.point t ≠ .aborted) := by
  refine ⟨fun t value hvalue => (agrees_of_reaches hguard hrun).assertion_iff hvalue,
    fun hsettled => ?_⟩
  exact hrun.invariant_of Agrees (fun _ => agrees_of_reaches hguard) (fun _ => nofun)
    fun _ _ _ h hbefore hallowed hstep =>
      h.not_aborted (hsettled _ _ hallowed) (step_cases hstep) hbefore

instance (state : State T) (action : Action T) : Decidable (CallsInside state action) := by
  unfold CallsInside
  split <;> infer_instance

/-- Thread 1 is busy while thread 0 is inside. -/
theorem assertions_hold_busy : ∃ state : State Nat,
    state.assertion 1 = some true ∧ state.Settled 1 := by
  obtain ⟨state, hrun, hobserved⟩ : ∃ state : State Nat,
      Reaches step CallsInside initial state ∧ state.assertion 1 = some true :=
    Reaches.of_observed (fun state action => decide (CallsInside state action))
      [.call 0 .lock, .go 0 false, .go 0 false, .call 1 .trylock, .go 1 false]
      (fun _ _ => of_decide_eq_true) (by decide +kernel)
  exact ⟨state, hobserved, ((assertions_hold_iff (fun _ _ h => h) hrun).1 1 true hobserved).mp rfl⟩

/-- Thread 1 is busy while thread 0 has cleared the mark and not yet unlocked the mutex. -/
theorem assertions_fail : ∃ state : State Nat,
    Reaches step CallsInside initial state ∧ state.point 1 = .aborted :=
  Reaches.of_observed (fun state action => decide (CallsInside state action))
    [.call 0 .lock, .go 0 false, .go 0 false, .call 0 .unlock, .go 0 false, .go 0 false,
      .call 1 .trylock, .go 1 false, .go 1 false]
    (fun _ _ => of_decide_eq_true) (by decide +kernel)

end ThreadPools.Agentpp.Synchronized
