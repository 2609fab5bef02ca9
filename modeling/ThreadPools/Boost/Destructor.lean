/-
# The destructor of the Boost monitor

`~Synchronized` wants to get into the mutex once more, to notify the threads that still wait
and to let them go. Its loop ends when `signal` is set, which the destructor does itself in
each of its passes, but which an earlier notification may have done as well. The destructor
calls the methods of the monitor, in which the other threads go on meanwhile.
-/

import ThreadPools.Boost.Notification

namespace ThreadPools.Boost

open ThreadPools.Concurrency

/-- The points of `Synchronized::~Synchronized`; `looping` says whether a call is in the loop. -/
inductive DestructorPoint
  /-- at `is_locked_by_this_thread()` -/
  | test
  /-- at `while (!signal)` -/
  | again
  /-- inside `lock(50)` -/
  | lock
  /-- at `signal = true` -/
  | mark (looping : Bool)
  /-- inside `notify_all()` -/
  | notifyAll (looping : Bool)
  /-- at `unlock()` -/
  | release (looping : Bool)
  /-- inside `unlock()` -/
  | unlock (looping : Bool)
  /-- at `sleep_for` -/
  | sleep (looping : Bool)
  | finished
  deriving DecidableEq

/-- A monitor with its destructor; `calls` are the calls of the destructor that have returned. -/
structure Destruction (T : Type*) where
  state : State T
  point : DestructorPoint
  calls : List (Return T)

namespace Destruction

variable {T : Type*} [DecidableEq T]

/-- The entry of the destructor. -/
def entered (state : State T) : Destruction T where
  state := state
  point := .test
  calls := []

/-- The destructor calls a method. -/
def invoke (d : Destruction T) (self : T) (method : Method) (point : DestructorPoint) :
    Option (Destruction T) :=
  (step d.state (.call self method)).map fun state => { d with state := state, point := point }

/-- Behind the return of a call the destructor goes on where the result tells it. -/
def resume (d : Destruction T) (self : T) (behind : Result → DestructorPoint) (state : State T) :
    Destruction T :=
  match state.pc self, state.returns.getLast? with
  | none, some ret => { state := state, point := behind ret.result, calls := d.calls ++ [ret] }
  | _, _ => { d with state := state }

/-- The destructor performs a step of the method that it has called. -/
def proceed (d : Destruction T) (self : T) (choice : Choice) (behind : Result → DestructorPoint) :
    Option (Destruction T) :=
  (step d.state (.run self choice)).map (d.resume self behind)

/-- The destructor sets the flag. -/
def marked (d : Destruction T) : Destruction T :=
  { d with state := { d.state with sync := { d.state.sync with signal := true } } }

/-- `Synchronized::~Synchronized` -/
def destructor (self : T) (choice : Choice) (d : Destruction T) : Option (Destruction T) :=
  match d.point with
  | .test =>
      some { d with point := if d.state.sync.tid = some self then .mark false else .again }
  | .again =>
      if d.state.sync.signal then some { d with point := .finished }
      else d.invoke self (.lockFor 50) .lock
  | .lock =>
      d.proceed self choice fun result => if result = .bool true then .mark true else .again
  | .mark looping => d.marked.invoke self .notifyAll (.notifyAll looping)
  | .notifyAll looping => d.proceed self choice fun _ => .release looping
  | .release looping => d.invoke self .unlock (.unlock looping)
  | .unlock looping => d.proceed self choice fun _ => .sleep looping
  | .sleep looping => some { d with point := if looping then .again else .finished }
  | .finished => none

end Destruction

inductive DestructorAction (T : Type*)
  | destructor (choice : Choice)
  /-- a step of the other threads -/
  | other (action : Action T)

/-- The step is not a step of `self`. -/
def Action.Foreign {T : Type*} (self : T) : Action T → Prop
  | .call t _ | .run t _ => t ≠ self
  | .wakeUp _ => True

variable {T : Type*} [DecidableEq T]

instance (self : T) (action : Action T) : Decidable (action.Foreign self) :=
  match action with
  | .call t _ | .run t _ => inferInstanceAs (Decidable (t ≠ self))
  | .wakeUp _ => .isTrue trivial

/-- The destructor and the other threads. -/
def destructorStep (self : T) (d : Destruction T) :
    DestructorAction T → Option (Destruction T)
  | .destructor choice => d.destructor self choice
  | .other action =>
      if action.Foreign self then
        (step d.state action).map fun state => { d with state := state }
      else none

/-- The other threads keep to the contract of the methods. -/
def Polite (d : Destruction T) : DestructorAction T → Prop
  | .other action => Contract d.state action
  | .destructor _ => True

/-- `lock(50)` has succeeded. -/
def Return.Acquired (ret : Return T) : Prop :=
  ret.point = .lockFor .own ∧ ret.result = .bool true

/-- In one of the calls. -/
def Acquires (calls : List (Return T)) : Prop :=
  ∃ ret ∈ calls, ret.Acquired

/-- The loop finds the flag not set as long as `lock(50)` has not succeeded. -/
def FindsUnset (d : Destruction T) : DestructorAction T → Prop
  | .destructor _ => d.point = .again → d.state.sync.signal = true → Acquires d.calls
  | .other _ => True

/-- The thread has notified all others while it owned the mutex. -/
def Return.Notified (self : T) (ret : Return T) : Prop :=
  ret.thread = self ∧ ret.point = .notify true .wake ∧ ret.owned = true

/-- The thread has released the mutex, which it owned. -/
def Return.Released (self : T) (ret : Return T) : Prop :=
  ret.thread = self ∧ ret.point = .unlock .release ∧ ret.owned = true ∧ ret.result = .bool true

/-- The destructor has called `notify_all` while it owned the mutex, and has released it then. -/
def Synchronizes (self : T) (calls : List (Return T)) : Prop :=
  ∃ before notified released after, calls = before ++ notified :: released :: after ∧
    notified.Notified self ∧ released.Released self

/-! ## The calls of the destructor -/

variable {self : T} {d next : Destruction T} {choice : Choice} {call : Call}

omit [DecidableEq T] in
/-- The flag is nothing to the owner of the mutex. -/
theorem Tracked.setSignal {state : State T} (h : Tracked state) (signal : Bool) :
    Tracked { state with sync := { state.sync with signal := signal } } where
  tid := h.tid
  standing t := by
    have hself := h.standing t
    change (standingOf (state.pc t)).Holds t _
    cases hstanding : standingOf (state.pc t) <;> (rw [hstanding] at hself; exact hself)
  recalls := h.recalls
  returns := h.returns

theorem invoke_spec (htracked : Tracked d.state) {method : Method} {point : DestructorPoint}
    (hcontract : Contract d.state (.call self method))
    (hinvoke : d.invoke self method point = some next) :
    Tracked next.state ∧ next.point = point ∧ next.calls = d.calls ∧
      next.state.pc self = some
        { point := method.entry, owned := decide (d.state.sync.owner = some self)
          wrote := false } := by
  obtain ⟨state, hstep, rfl⟩ := Option.map_eq_some_iff.mp hinvoke
  refine ⟨htracked.step hcontract hstep, rfl, rfl, ?_⟩
  cases step_moves hstep
  exact Function.update_self ..

theorem proceed_spec (htracked : Tracked d.state) {behind : Result → DestructorPoint}
    (hcall : d.state.pc self = some call) (hproceed : d.proceed self choice behind = some next) :
    ∃ sync target, code self choice call.point d.state.sync = some (sync, target) ∧
      Tracked next.state ∧ next.state.sync = sync ∧
      ((∃ q, target = .inl q ∧ next.point = d.point ∧ next.calls = d.calls ∧
          next.state.pc self = some (call.goOn d.state.sync sync q)) ∨
        ∃ result, target = .inr result ∧ next.point = behind result ∧
          next.calls = d.calls ++ [call.return self d.state.sync sync result] ∧
          next.state.pc self = none ∧
          (call.return self d.state.sync sync result).Correct) := by
  obtain ⟨state, hstep, rfl⟩ := Option.map_eq_some_iff.mp hproceed
  have hcontract : Contract d.state (.run self choice) := trivial
  have hafter : Tracked state := htracked.step hcontract hstep
  obtain ⟨sync, target, hcode, rfl⟩ := run_of_step hcall hstep
  refine ⟨sync, target, hcode, ?_⟩
  cases target with
  | inl q =>
      have hpc : (d.state.advance self call sync (.inl q)).pc self =
          some (call.goOn d.state.sync sync q) := Function.update_self ..
      have hresume : d.resume self behind (d.state.advance self call sync (.inl q)) =
          { d with state := d.state.advance self call sync (.inl q) } := by
        simp only [Destruction.resume, hpc]
      rw [hresume]
      exact ⟨hafter, rfl, .inl ⟨q, rfl, rfl, rfl, hpc⟩⟩
  | inr result =>
      have hpc : (d.state.advance self call sync (.inr result)).pc self = none :=
        Function.update_self ..
      have hlast : (d.state.advance self call sync (.inr result)).returns.getLast? =
          some (call.return self d.state.sync sync result) := List.getLast?_concat ..
      have hresume : d.resume self behind (d.state.advance self call sync (.inr result)) =
          { state := d.state.advance self call sync (.inr result), point := behind result
            calls := d.calls ++ [call.return self d.state.sync sync result] } := by
        simp only [Destruction.resume, hpc, hlast]
        rfl
      rw [hresume]
      refine ⟨hafter, rfl, .inr ⟨result, rfl, rfl, rfl, hpc, ?_⟩⟩
      exact hafter.returns _ (List.mem_append_right _ List.mem_cons_self)

/-- The other threads do not disturb the destructor. -/
theorem foreign_spec (htracked : Tracked d.state) {action : Action T}
    (hforeign : action.Foreign self) (hcontract : Contract d.state action) {state : State T}
    (hstep : step d.state action = some state) :
    Tracked state ∧ state.pc self = d.state.pc self ∧
      (d.state.sync.tid = some self → state.sync.tid = some self) := by
  refine ⟨htracked.step hcontract hstep, ?_⟩
  cases step_moves hstep with
  | call t method => exact ⟨Function.update_of_ne (Ne.symm hforeign) .., id⟩
  | @run t choice call sync target hcall hcode =>
      refine ⟨advance_other (Ne.symm hforeign), ?_⟩
      rw [advance_sync]
      have hstanding : call.point.standing.Holds t d.state.sync := by
        have hself := htracked.standing t
        rw [hcall] at hself
        exact hself
      exact ((code_disciplined htracked.tid hstanding hcode).mark self (Ne.symm hforeign)).mpr
  | wakeUp t => exact ⟨rfl, id⟩

/-! ## What the destructor knows -/

/-- Between two passes of the loop: either `lock(50)` has not succeeded yet, or the destructor has
synchronized with the other threads. -/
def Settled (self : T) (calls : List (Return T)) : Prop :=
  (∀ ret ∈ calls, ¬ ret.Acquired ∧ ¬ ret.Notified self) ∨
    (Acquires calls ∧ Synchronizes self calls)

/-- The last call of the destructor was `notify_all`. -/
def Announced (self : T) (calls : List (Return T)) : Prop :=
  ∃ before notified, calls = before ++ [notified] ∧ notified.Notified self

/-- What the destructor knows at its points. -/
def Destruction.Stands (self : T) (d : Destruction T) : DestructorPoint → Prop
  | .test => d.state.pc self = none ∧ d.calls = []
  | .again => d.state.pc self = none ∧ Settled self d.calls
  | .lock =>
      (∃ call p, d.state.pc self = some call ∧ call.point = .lockFor p) ∧ Settled self d.calls
  | .mark looping =>
      d.state.pc self = none ∧ d.state.sync.tid = some self ∧
        (looping = true → Acquires d.calls)
  | .notifyAll looping =>
      (∃ call p, d.state.pc self = some call ∧ call.point = .notify true p ∧ call.owned = true) ∧
        (looping = true → Acquires d.calls)
  | .release looping =>
      d.state.pc self = none ∧ d.state.sync.tid = some self ∧ Announced self d.calls ∧
        (looping = true → Acquires d.calls)
  | .unlock looping =>
      (∃ call p, d.state.pc self = some call ∧ call.point = .unlock p ∧ call.owned = true) ∧
        Announced self d.calls ∧ (looping = true → Acquires d.calls)
  | .sleep looping =>
      d.state.pc self = none ∧ Synchronizes self d.calls ∧ (looping = true → Acquires d.calls)
  | .finished => Synchronizes self d.calls

/-- What holds as long as the loop has found the flag not set. -/
structure Destruction.Sound (t : T) (d : Destruction T) : Prop where
  tracked : Tracked d.state
  stands : d.Stands t d.point

/-! ## The steps of the called methods -/

variable {s s' : Synchronized T} {target : Point ⊕ Result}

theorem lockFor_target {p : Synchronized.LockForPoint}
    (hcode : code self choice (.lockFor p) s = some (s', target)) :
    (∃ q, target = .inl (.lockFor q)) ∨ target = .inr (.bool false) ∨
      (p = .own ∧ target = .inr (.bool true) ∧ s'.tid = some self) := by
  obtain ⟨inner, hinner, rfl⟩ := Body.embed_eq_some hcode
  cases p with
  | attempt d =>
      simp only [Synchronized.lockFor] at hinner
      split at hinner <;> cases hinner <;> exact .inl ⟨_, rfl⟩
  | sleep d =>
      simp only [Synchronized.lockFor, Option.some.injEq, Prod.mk.injEq] at hinner
      obtain ⟨-, rfl⟩ := hinner
      split
      · exact .inr (.inl rfl)
      · exact .inl ⟨_, rfl⟩
  | own =>
      cases hinner
      exact .inr (.inr ⟨rfl, rfl, rfl⟩)

theorem notifyAll_target {p : Synchronized.NotifyPoint}
    (hcode : code self choice (.notify true p) s = some (s', target)) :
    s'.tid = s.tid ∧
      ((∃ q, target = .inl (.notify true q)) ∨ (p = .wake ∧ target = .inr .done)) := by
  obtain ⟨inner, hinner, rfl⟩ := Body.embed_eq_some hcode
  cases p with
  | set =>
      cases hinner
      exact ⟨rfl, .inl ⟨_, rfl⟩⟩
  | wake =>
      cases hinner
      exact ⟨rfl, .inr ⟨rfl, rfl⟩⟩

theorem unlock_target {p : Synchronized.UnlockPoint}
    (hcode : code self choice (.unlock p) s = some (s', target)) :
    (∃ q, target = .inl (.unlock q)) ∨ target = .inr (.bool false) ∨
      (p = .release ∧ target = .inr (.bool true)) := by
  obtain ⟨inner, hinner, rfl⟩ := Body.embed_eq_some hcode
  cases p with
  | test =>
      simp only [Synchronized.unlock, Option.some.injEq, Prod.mk.injEq] at hinner
      obtain ⟨-, rfl⟩ := hinner
      split
      · exact .inl ⟨_, rfl⟩
      · exact .inr (.inl rfl)
  | disown =>
      cases hinner
      exact .inl ⟨_, rfl⟩
  | release =>
      cases hinner
      exact .inr (.inr ⟨rfl, rfl⟩)

/-! ## The steps of the destructor -/

omit [DecidableEq T] in
theorem Acquires.append {calls : List (Return T)} (h : Acquires calls) (ret : Return T) :
    Acquires (calls ++ [ret]) := by
  obtain ⟨other, hmem, hacquired⟩ := h
  exact ⟨other, List.mem_append_left _ hmem, hacquired⟩

omit [DecidableEq T] in
theorem Synchronizes.append {calls : List (Return T)} (h : Synchronizes self calls)
    (ret : Return T) : Synchronizes self (calls ++ [ret]) := by
  obtain ⟨before, notified, released, after, rfl, hnotified, hreleased⟩ := h
  refine ⟨before, notified, released, after ++ [ret], ?_, hnotified, hreleased⟩
  simp

omit [DecidableEq T] in
/-- A failed `lock(50)` settles nothing. -/
theorem Settled.append {calls : List (Return T)} (h : Settled self calls) {ret : Return T}
    (hacquired : ¬ ret.Acquired) (hnotified : ¬ ret.Notified self) :
    Settled self (calls ++ [ret]) := by
  rcases h with hnone | ⟨hearlier, hsynchronizes⟩
  · refine .inl ?_
    intro other hmem
    rw [List.mem_append, List.mem_singleton] at hmem
    rcases hmem with hmem | rfl
    · exact hnone other hmem
    · exact ⟨hacquired, hnotified⟩
  · exact .inr ⟨hearlier.append ret, hsynchronizes.append ret⟩

omit [DecidableEq T] in
theorem Announced.release {calls : List (Return T)} (h : Announced self calls) {ret : Return T}
    (hret : ret.Released self) : Synchronizes self (calls ++ [ret]) := by
  obtain ⟨before, notified, rfl, hnotified⟩ := h
  refine ⟨before, notified, ret, [], ?_, hnotified, hret⟩
  simp

/-- Inside `lock(50)`: it succeeds, and the mutex belongs to the destructor, or it fails. -/
theorem Destruction.Sound.lock (h : d.Sound self) (hpoint : d.point = .lock)
    (hproceed : d.proceed self choice
      (fun result => if result = .bool true then .mark true else .again) = some next) :
    next.Sound self := by
  obtain ⟨htracked, hstands⟩ := h
  rw [hpoint] at hstands
  obtain ⟨⟨call, p, hcall, hmethod⟩, hsettled⟩ := hstands
  obtain ⟨sync, target, hcode, hafter, hsync, hcases⟩ := proceed_spec htracked hcall hproceed
  rw [hmethod] at hcode
  refine ⟨hafter, ?_⟩
  rcases hcases with ⟨q, rfl, hnext, hcalls, hpc⟩ | ⟨result, rfl, hnext, hcalls, hpc, -⟩
  · rcases lockFor_target hcode with ⟨q', hq⟩ | hq | ⟨-, hq, -⟩ <;> cases hq
    rw [hnext, hpoint]
    exact ⟨⟨_, _, hpc, rfl⟩, hcalls ▸ hsettled⟩
  · rcases lockFor_target hcode with ⟨q', hq⟩ | hq | ⟨rfl, hq, htid⟩ <;> cases hq
    · rw [hnext]
      refine ⟨hpc, hcalls ▸ hsettled.append ?_ ?_⟩
      · rintro ⟨-, hresult⟩
        cases hresult
      · rintro ⟨-, hnotify, -⟩
        cases hmethod.symm.trans hnotify
    · rw [hnext]
      refine ⟨hpc, hsync ▸ htid, fun _ => ?_⟩
      rw [hcalls]
      exact ⟨_, List.mem_append_right _ List.mem_cons_self, hmethod, rfl⟩

/-- Inside `notify_all()`. -/
theorem Destruction.Sound.notifyAll (h : d.Sound self) {looping : Bool}
    (hpoint : d.point = .notifyAll looping)
    (hproceed : d.proceed self choice (fun _ => .release looping) = some next) :
    next.Sound self := by
  obtain ⟨htracked, hstands⟩ := h
  rw [hpoint] at hstands
  obtain ⟨⟨call, p, hcall, hmethod, howned⟩, hacquires⟩ := hstands
  obtain ⟨sync, target, hcode, hafter, hsync, hcases⟩ := proceed_spec htracked hcall hproceed
  rw [hmethod] at hcode
  obtain ⟨htid, htarget⟩ := notifyAll_target hcode
  refine ⟨hafter, ?_⟩
  rcases hcases with ⟨q, rfl, hnext, hcalls, hpc⟩ | ⟨result, rfl, hnext, hcalls, hpc, -⟩
  · rcases htarget with ⟨q', hq⟩ | ⟨-, hq⟩ <;> cases hq
    rw [hnext, hpoint]
    exact ⟨⟨_, _, hpc, rfl, howned⟩, hcalls ▸ hacquires⟩
  · rcases htarget with ⟨q', hq⟩ | ⟨rfl, hq⟩ <;> cases hq
    have hmarked := htracked.standing self
    rw [hcall, standingOf, Option.elim, hmethod] at hmarked
    rw [hnext]
    refine ⟨hpc, ?_, ⟨d.calls, _, hcalls, rfl, hmethod, howned⟩, fun hloop => ?_⟩
    · rw [hsync, htid]
      exact hmarked.2
    · exact hcalls ▸ (hacquires hloop).append _

/-- Inside `unlock()`: it succeeds, because the destructor owns the mutex. -/
theorem Destruction.Sound.unlock (h : d.Sound self) {looping : Bool}
    (hpoint : d.point = .unlock looping)
    (hproceed : d.proceed self choice (fun _ => .sleep looping) = some next) :
    next.Sound self := by
  obtain ⟨htracked, hstands⟩ := h
  rw [hpoint] at hstands
  obtain ⟨⟨call, p, hcall, hmethod, howned⟩, hannounced, hacquires⟩ := hstands
  obtain ⟨sync, target, hcode, hafter, hsync, hcases⟩ := proceed_spec htracked hcall hproceed
  rw [hmethod] at hcode
  refine ⟨hafter, ?_⟩
  rcases hcases with ⟨q, rfl, hnext, hcalls, hpc⟩ |
    ⟨result, rfl, hnext, hcalls, hpc, hcorrect⟩
  · rcases unlock_target hcode with ⟨q', hq⟩ | hq | ⟨-, hq⟩ <;> cases hq
    rw [hnext, hpoint]
    exact ⟨⟨_, _, hpc, rfl, howned⟩, hcalls ▸ ⟨hannounced, hacquires⟩⟩
  · unfold Return.Correct at hcorrect
    simp only [Call.return, hmethod] at hcorrect
    rcases unlock_target hcode with ⟨q', hq⟩ | hq | ⟨rfl, hq⟩ <;> cases hq
    · cases hcorrect.1.mpr howned
    · rw [hnext]
      refine ⟨hpc, ?_, fun hloop => hcalls ▸ (hacquires hloop).append _⟩
      exact hcalls ▸ hannounced.release ⟨rfl, hmethod, howned, rfl⟩

/-- As long as the loop finds the flag not set. -/
theorem Destruction.Sound.destructor (h : d.Sound self)
    (hunset : FindsUnset d (.destructor choice)) (hstep : d.destructor self choice = some next) :
    next.Sound self := by
  obtain ⟨htracked, hstands⟩ := h
  unfold Destruction.destructor at hstep
  split at hstep
  · next hpoint =>
      rw [hpoint] at hstands
      obtain ⟨hidle, hcalls⟩ := hstands
      cases hstep
      refine ⟨htracked, ?_⟩
      change Destruction.Stands self _ (if _ then _ else _)
      split
      · next htid => exact ⟨hidle, htid, nofun⟩
      · refine ⟨hidle, .inl ?_⟩
        intro ret hmem
        change ret ∈ d.calls at hmem
        rw [hcalls] at hmem
        cases hmem
  · next hpoint =>
      rw [hpoint] at hstands
      obtain ⟨hidle, hsettled⟩ := hstands
      split at hstep
      · next hsignal =>
          cases hstep
          obtain ⟨ret, hmem, hacquired⟩ := hunset hpoint hsignal
          rcases hsettled with hnone | ⟨-, hsynchronizes⟩
          · exact absurd hacquired (hnone ret hmem).1
          · exact ⟨htracked, hsynchronizes⟩
      · have hcontract : Contract d.state (.call self (.lockFor 50)) := trivial
        obtain ⟨hafter, hnext, hcalls, hpc⟩ := invoke_spec htracked hcontract hstep
        refine ⟨hafter, ?_⟩
        rw [hnext]
        exact ⟨⟨_, _, hpc, rfl⟩, hcalls ▸ hsettled⟩
  · next hpoint => exact Sound.lock ⟨htracked, hstands⟩ hpoint hstep
  · next looping hpoint =>
      rw [hpoint] at hstands
      obtain ⟨hidle, htid, hacquires⟩ := hstands
      have hcontract : Contract d.marked.state (.call self .notifyAll) := htid
      obtain ⟨hafter, hnext, hcalls, hpc⟩ := invoke_spec (htracked.setSignal true) hcontract hstep
      refine ⟨hafter, ?_⟩
      rw [hnext]
      exact ⟨⟨_, _, hpc, rfl, decide_eq_true (htracked.tid self htid)⟩, hcalls ▸ hacquires⟩
  · next looping hpoint => exact Sound.notifyAll ⟨htracked, hstands⟩ hpoint hstep
  · next looping hpoint =>
      rw [hpoint] at hstands
      obtain ⟨hidle, htid, hrest⟩ := hstands
      have hcontract : Contract d.state (.call self .unlock) := trivial
      obtain ⟨hafter, hnext, hcalls, hpc⟩ := invoke_spec htracked hcontract hstep
      refine ⟨hafter, ?_⟩
      rw [hnext]
      exact ⟨⟨_, _, hpc, rfl, decide_eq_true (htracked.tid self htid)⟩, hcalls ▸ hrest⟩
  · next looping hpoint => exact Sound.unlock ⟨htracked, hstands⟩ hpoint hstep
  · next looping hpoint =>
      rw [hpoint] at hstands
      obtain ⟨hidle, hsynchronizes, hacquires⟩ := hstands
      cases hstep
      refine ⟨htracked, ?_⟩
      cases looping with
      | false => exact hsynchronizes
      | true => exact ⟨hidle, .inr ⟨hacquires rfl, hsynchronizes⟩⟩
  · cases hstep

/-- The other threads leave what the destructor knows alone. -/
theorem Destruction.Sound.other (h : d.Sound self) {action : Action T}
    (hforeign : action.Foreign self) (hcontract : Contract d.state action) {state : State T}
    (hstep : step d.state action = some state) : Sound self { d with state := state } := by
  obtain ⟨htracked, hstands⟩ := h
  obtain ⟨hafter, hpc, htid⟩ := foreign_spec htracked hforeign hcontract hstep
  refine ⟨hafter, ?_⟩
  change Destruction.Stands self _ d.point
  cases hpoint : d.point with
  | test | again | sleep =>
      rw [hpoint] at hstands
      exact ⟨hpc.trans hstands.1, hstands.2⟩
  | mark | release =>
      rw [hpoint] at hstands
      exact ⟨hpc.trans hstands.1, htid hstands.2.1, hstands.2.2⟩
  | lock | notifyAll | unlock =>
      rw [hpoint] at hstands
      obtain ⟨⟨call, p, hcall, hmethod⟩, hrest⟩ := hstands
      exact ⟨⟨call, p, hpc.trans hcall, hmethod⟩, hrest⟩
  | finished =>
      rw [hpoint] at hstands
      exact hstands

/-! ## Runs of the destructor -/

/-- The destructor has ended without having got the mutex. -/
def Destruction.Missed (self : T) (d : Destruction T) : Prop :=
  d.point = .finished ∧ ¬ Synchronizes self d.calls

variable {state : State T} {guard : Destruction T → DestructorAction T → Prop}

theorem sound_of_entered (hstate : Reaches step Contract initial state)
    (hidle : state.pc self = none) : (Destruction.entered state).Sound self where
  tracked := tracked_of_reaches (fun _ _ h => h) hstate
  stands := ⟨hidle, rfl⟩

theorem sound_of_unset (hstate : Reaches step Contract initial state)
    (hidle : state.pc self = none)
    (hrun : Reaches (destructorStep self) (fun d action => Polite d action ∧ FindsUnset d action)
      (.entered state) d) : d.Sound self := by
  refine hrun.invariant (sound_of_entered hstate hidle) ?_
  intro d action next hsound hguard hstep
  cases action with
  | destructor choice => exact hsound.destructor hguard.2 hstep
  | other action =>
      simp only [destructorStep] at hstep
      split at hstep
      · next hforeign =>
          obtain ⟨state, htaken, rfl⟩ := Option.map_eq_some_iff.mp hstep
          exact hsound.other hforeign hguard.1 htaken
      · cases hstep

/-- The step at which the loop finds the flag set too early is the last one. -/
theorem Destruction.Sound.missed (h : d.Sound self)
    (hset : ¬ FindsUnset d (.destructor choice)) (hstep : d.destructor self choice = some next) :
    next.Missed self := by
  obtain ⟨hpoint, hrest⟩ := Classical.not_imp.mp hset
  obtain ⟨hsignal, hacquires⟩ := Classical.not_imp.mp hrest
  have hstands := h.stands
  rw [hpoint] at hstands
  simp only [Destruction.destructor, hpoint, hsignal, if_true, Option.some.injEq] at hstep
  subst hstep
  refine ⟨rfl, ?_⟩
  rintro ⟨before, notified, released, after, hcalls, hnotified, -⟩
  rcases hstands.2 with hnone | ⟨hearlier, -⟩
  · refine (hnone notified ?_).2 hnotified
    change d.calls = _ at hcalls
    rw [hcalls]
    simp
  · exact hacquires hearlier

/-- Every run finds the flag not set as long as necessary, or has missed the mutex. -/
theorem unset_or_missed (hstate : Reaches step Contract initial state)
    (hidle : state.pc self = none)
    (hrun : Reaches (destructorStep self) Polite (.entered state) d) :
    Reaches (destructorStep self) (fun d action => Polite d action ∧ FindsUnset d action)
      (.entered state) d ∨ d.Missed self := by
  induction hrun with
  | refl => exact .inl .refl
  | @tail middle target action hprior hpolite hstep ih =>
      cases action with
      | destructor choice =>
          rcases ih with hunset | ⟨hfinished, -⟩
          · by_cases hfinds : FindsUnset middle (.destructor choice)
            · exact .inl (hunset.tail _ ⟨hpolite, hfinds⟩ hstep)
            · exact .inr ((sound_of_unset hstate hidle hunset).missed hfinds hstep)
          · simp only [destructorStep, Destruction.destructor, hfinished] at hstep
            cases hstep
      | other action =>
          rcases ih with hunset | hmissed
          · exact .inl (hunset.tail _ ⟨hpolite, trivial⟩ hstep)
          · simp only [destructorStep] at hstep
            split at hstep
            · obtain ⟨state, -, rfl⟩ := Option.map_eq_some_iff.mp hstep
              exact .inr hmissed
            · cases hstep

/-- The destructor, entered in any state of any run, has notified all others while it owned the
mutex and has released it when it ends, if and only if its loop has found the flag not set until
`lock(50)` has succeeded. -/
theorem destructor_synchronizes_iff (hstate : Reaches step Contract initial state)
    (hidle : state.pc self = none)
    (hrun : Reaches (destructorStep self) Polite (.entered state) d)
    (hfinished : d.point = .finished) :
    Synchronizes self d.calls ↔
      Reaches (destructorStep self) (fun d action => Polite d action ∧ FindsUnset d action)
        (.entered state) d := by
  constructor
  · intro hsynchronizes
    refine (unset_or_missed hstate hidle hrun).resolve_right ?_
    rintro ⟨-, hnot⟩
    exact hnot hsynchronizes
  · intro hunset
    have hstands := (sound_of_unset hstate hidle hunset).stands
    rw [hfinished] at hstands
    exact hstands

instance (d : Destruction T) (action : DestructorAction T) : Decidable (Polite d action) := by
  unfold Polite
  split <;> infer_instance

instance (d : Destruction T) (action : DestructorAction T) : Decidable (FindsUnset d action) := by
  unfold FindsUnset Acquires Return.Acquired
  split <;> infer_instance

/-- The destructor performs its next `n` steps. -/
def DestructorAction.steps (n : Nat) : List (DestructorAction (Fin 2)) :=
  List.replicate n (.destructor { waiter := 0, timeout := false, condition := false })

/-- Nobody has ever notified anybody. -/
theorem destructor_synchronizes_unset : ∃ d : Destruction (Fin 2),
    d.point = .finished ∧ Synchronizes 0 d.calls := by
  obtain ⟨d, hrun, hfinished⟩ : ∃ d : Destruction (Fin 2),
      Reaches (destructorStep 0) (fun d action => Polite d action ∧ FindsUnset d action)
        (.entered initial) d ∧ d.point = .finished :=
    Reaches.of_observed (fun d action => decide (Polite d action ∧ FindsUnset d action))
      (DestructorAction.steps 13) (fun _ _ => of_decide_eq_true) (by decide +kernel)
  exact ⟨d, hfinished, (destructor_synchronizes_iff .refl rfl (hrun.mono fun _ _ h => h.1)
    hfinished).mpr hrun⟩

/-- The second thread has notified the others and still owns the mutex: the destructor does
not wait for it. -/
theorem destructor_misses : ∃ (state : State (Fin 2)) (d : Destruction (Fin 2)),
    Reaches step Contract initial state ∧ state.pc 0 = none ∧ state.sync.owner = some 1 ∧
      Reaches (destructorStep 0) Polite (.entered state) d ∧ d.point = .finished ∧
      d.state.sync.owner = some 1 ∧ ¬ Synchronizes 0 d.calls := by
  obtain ⟨state, hstate, hobserved⟩ : ∃ state : State (Fin 2), Reaches step Contract initial state ∧
      (decide (state.pc 0 = none ∧ state.sync.owner = some 1),
        (execute (destructorStep 0) (fun d action => decide (Polite d action))
          (DestructorAction.steps 2) (.entered state)).map fun d =>
            (d.point, d.state.sync.owner, d.calls.length)) =
        (true, some (.finished, some 1, 0)) :=
    Reaches.of_observed (fun state action => decide (Contract state action))
      (.call 1 .lock :: Action.steps 1 3 ++ .call 1 .notify :: Action.steps 1 2)
      (fun _ _ => of_decide_eq_true) (by decide +kernel)
  simp only [Prod.mk.injEq, decide_eq_true_eq] at hobserved
  obtain ⟨⟨hidle, howner⟩, hthen⟩ := hobserved
  obtain ⟨d, hexecute, hd⟩ := Option.map_eq_some_iff.mp hthen
  simp only [Prod.mk.injEq, List.length_eq_zero_iff] at hd
  refine ⟨state, d, hstate, hidle, howner, .of_execute (fun _ _ => of_decide_eq_true) hexecute,
    hd.1, hd.2.1, ?_⟩
  rintro ⟨before, notified, released, after, hcalls, -⟩
  rw [hd.2.2] at hcalls
  simp at hcalls

end ThreadPools.Boost
