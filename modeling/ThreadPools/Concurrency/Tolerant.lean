/-
# Programs that go on when an operation fails

The mutex of a monitor checks for errors, and the program does not look at them: who enters
a monitor that he owns goes on, who leaves or waits on one that he does not own has no
effect, and a `wait` that fails returns at once. So nothing says that a thread owns the
monitor whose section it is in. The rules here are about one monitor and a set of points:
when the points are reached only by entering the monitor, their thread owns it.
-/

import ThreadPools.Concurrency.Locking

namespace ThreadPools.Concurrency

/-- A program whose threads do not look at the errors of the monitors. -/
structure TolerantProgram (T M D E P I : Type*) where
  code : T → I → P → D → Option (Instr T M E P)
  apply : E → D → D
  /-- The point behind the `wait` a thread is in. -/
  resumed : P → P
  /-- The thread has ended. -/
  exited : P → Bool

namespace TolerantProgram

variable {T M D E P I : Type*} [DecidableEq T] [DecidableEq M] (π : TolerantProgram T M D E P I)

/-- What becomes of the operation of a piece of code, and the point behind it; `none` while
the thread is blocked. -/
def outcome (state : State T M D P) (thread : T) (instr : Instr T M E P) :
    Option (Op T M × P) :=
  match instr.op with
  | .skip => some (.skip, instr.next)
  | .lock m =>
      if thread ∈ (state.monitor m).waiters then none
      else if (state.monitor m).owner = none then some (.lock m, instr.next)
      else if (state.monitor m).owner = some thread then some (.skip, instr.next)
      else none
  | .unlock m =>
      if (state.monitor m).owner = some thread then some (.unlock m, instr.next)
      else some (.skip, instr.next)
  | .wait m =>
      if (state.monitor m).owner = some thread then some (.wait m, instr.next)
      else some (.skip, π.resumed instr.next)
  | .join other => if π.exited (state.pc other) then some (.skip, instr.next) else none

/-- The state after `thread` has performed `instr` with the given outcome. -/
def advance (state : State T M D P) (thread : T) (instr : Instr T M E P) (op : Op T M)
    (next : P) (choice : Nat) : State T M D P where
  data := instr.effect.elim state.data fun effect => π.apply effect state.data
  monitor := op.perform thread (notified state.monitor instr.notify choice)
  pc := Function.update state.pc thread next

section

variable {π : TolerantProgram T M D E P I} {state : State T M D P} {thread : T}
  {instr : Instr T M E P} {op : Op T M} {next : P} {choice : Nat}

@[simp] theorem advance_pc_self :
    (π.advance state thread instr op next choice).pc thread = next := by
  simp [advance]

theorem advance_pc_of_ne {t : T} (hne : t ≠ thread) :
    (π.advance state thread instr op next choice).pc t = state.pc t := by
  simp [advance, hne]

end

/-- One atomic step; `none` when the action is not possible. -/
def step (state : State T M D P) : Action T M I → Option (State T M D P)
  | .run thread input choice =>
      (π.code thread input (state.pc thread) state.data).bind fun instr =>
        (π.outcome state thread instr).map fun result =>
          π.advance state thread instr result.1 result.2 choice
  | .spurious m thread =>
      if thread ∈ (state.monitor m).waiters then
        some { state with
          monitor := Function.update state.monitor m
            ((state.monitor m).wakeSpuriously thread) }
      else none

variable {π} {state after : State T M D P} {thread : T} {instr : Instr T M E P} {m : M}

/-- The outcomes of the operations. -/
inductive Outcome (π : TolerantProgram T M D E P I) (state : State T M D P) (thread : T)
    (instr : Instr T M E P) : Op T M → P → Prop
  | done (hop : instr.op = .skip ∨ ∃ other, instr.op = .join other) :
      Outcome π state thread instr .skip instr.next
  | enter (m : M) (hop : instr.op = .lock m) (hawake : thread ∉ (state.monitor m).waiters)
      (hfree : (state.monitor m).owner = none) :
      Outcome π state thread instr (.lock m) instr.next
  | reenter (m : M) (hop : instr.op = .lock m) (hawake : thread ∉ (state.monitor m).waiters)
      (howner : (state.monitor m).owner = some thread) :
      Outcome π state thread instr .skip instr.next
  | leave (m : M) (hop : instr.op = .unlock m) (howner : (state.monitor m).owner = some thread) :
      Outcome π state thread instr (.unlock m) instr.next
  | stranger (m : M) (hop : instr.op = .unlock m)
      (hother : (state.monitor m).owner ≠ some thread) :
      Outcome π state thread instr .skip instr.next
  | wait (m : M) (hop : instr.op = .wait m) (howner : (state.monitor m).owner = some thread) :
      Outcome π state thread instr (.wait m) instr.next
  | refused (m : M) (hop : instr.op = .wait m)
      (hother : (state.monitor m).owner ≠ some thread) :
      Outcome π state thread instr .skip (π.resumed instr.next)

omit [DecidableEq M] in
theorem outcome_cases {result : Op T M × P} (h : π.outcome state thread instr = some result) :
    Outcome π state thread instr result.1 result.2 := by
  unfold outcome at h
  split at h
  · next hop =>
      cases h
      exact .done (.inl hop)
  · next m hop =>
      split at h
      · cases h
      · next hawake =>
          split at h
          · next hfree =>
              cases h
              exact .enter m hop hawake hfree
          · split at h
            · next howner =>
                cases h
                exact .reenter m hop hawake howner
            · cases h
  · next m hop =>
      split at h
      · next howner =>
          cases h
          exact .leave m hop howner
      · next hother =>
          cases h
          exact .stranger m hop hother
  · next m hop =>
      split at h
      · next howner =>
          cases h
          exact .wait m hop howner
      · next hother =>
          cases h
          exact .refused m hop hother
  · next other hop =>
      split at h
      · cases h
        exact .done (.inr ⟨other, hop⟩)
      · cases h

omit [DecidableEq T] [DecidableEq M] in
/-- Only a `wait` that fails leads to another point. -/
theorem Outcome.next_cases {op : Op T M} {next : P} (h : Outcome π state thread instr op next) :
    next = instr.next ∨ ∃ m, instr.op = .wait m ∧ (state.monitor m).owner ≠ some thread ∧
      next = π.resumed instr.next := by
  cases h with
  | refused m hop hother => exact .inr ⟨m, hop, hother, rfl⟩
  | _ => exact .inl rfl

omit [DecidableEq T] [DecidableEq M] in
theorem Outcome.next_eq {op : Op T M} {next : P} (h : Outcome π state thread instr op next)
    (hwait : ∀ m, instr.op ≠ .wait m) : next = instr.next :=
  h.next_cases.resolve_right fun ⟨m, hop, _⟩ => hwait m hop

omit [DecidableEq T] [DecidableEq M] in
theorem Outcome.op_cases {op : Op T M} {next : P} (h : Outcome π state thread instr op next) :
    op = instr.op ∨ op = .skip := by
  cases h with
  | enter m hop | leave m hop | wait m hop => exact .inl hop.symm
  | done | reenter | stranger | refused => exact .inr rfl

/-- What a step can be: a piece of code, or a spurious wake-up. -/
inductive Steps (π : TolerantProgram T M D E P I) (state : State T M D P) :
    Action T M I → State T M D P → Prop
  | run (thread : T) (input : I) (choice : Nat) (instr : Instr T M E P) (op : Op T M) (next : P)
      (hcode : π.code thread input (state.pc thread) state.data = some instr)
      (houtcome : Outcome π state thread instr op next) :
      Steps π state (.run thread input choice) (π.advance state thread instr op next choice)
  | spurious (m : M) (thread : T) (hwaiting : thread ∈ (state.monitor m).waiters) :
      Steps π state (.spurious m thread)
        { state with
          monitor := Function.update state.monitor m
            ((state.monitor m).wakeSpuriously thread) }

theorem step_cases {action : Action T M I} (h : π.step state action = some after) :
    Steps π state action after := by
  cases action with
  | run thread input choice =>
      obtain ⟨instr, hcode, htaken⟩ := Option.bind_eq_some_iff.mp h
      obtain ⟨⟨op, next⟩, houtcome, ⟨⟩⟩ := Option.map_eq_some_iff.mp htaken
      exact .run thread input choice instr op next hcode (outcome_cases houtcome)
  | spurious m thread =>
      obtain ⟨hwaiting, ⟨⟩⟩ := Option.ite_none_right_eq_some.mp h
      exact .spurious m thread hwaiting

/-! ## The owner of a monitor -/

theorem perform_owner_of_ne {monitor : M → Monitor T} {op : Op T M} (hlock : op ≠ .lock m)
    (hunlock : op ≠ .unlock m) (hwait : op ≠ .wait m) :
    (op.perform thread monitor m).owner = (monitor m).owner := by
  have hother {n : M} (hne : m ≠ n) (changed : Monitor T) :
      (Function.update monitor n changed m).owner = (monitor m).owner := by
    rw [Function.update_of_ne hne]
  cases op with
  | skip => rfl
  | join => rfl
  | lock n => exact hother (fun heq => hlock (congrArg Op.lock heq.symm)) _
  | unlock n => exact hother (fun heq => hunlock (congrArg Op.unlock heq.symm)) _
  | wait n => exact hother (fun heq => hwait (congrArg Op.wait heq.symm)) _

/-- What an operation of `thread` does to the owner of the monitor `m`. -/
inductive Passes (thread : T) (m : M) (op : Op T M) (owner : Option T) : Option T → Prop
  | taken (hop : op = .lock m) (hfree : owner = none) : Passes thread m op owner (some thread)
  | given (hop : op = .unlock m ∨ op = .wait m) (howner : owner = some thread) :
      Passes thread m op owner none
  | kept (hlock : op ≠ .lock m) (hleave : op ≠ .unlock m ∧ op ≠ .wait m) :
      Passes thread m op owner owner

variable {op : Op T M} {next : P}

theorem Outcome.passes (h : Outcome π state thread instr op next) (m : M) (choice : Nat) :
    Passes thread m op (state.monitor m).owner
      ((π.advance state thread instr op next choice).monitor m).owner := by
  have hself (monitor : M → Monitor T) (changed : Monitor T) (n : M) :
      Function.update monitor n changed n = changed := Function.update_self _ _ _
  have hnotified := Program.notified_owner state.monitor instr.notify choice m
  by_cases hlock : op = .lock m
  · subst hlock
    cases h with
    | enter _ hop hawake hfree =>
        simp only [advance, Op.perform, hself, Monitor.acquire_owner]
        exact .taken rfl hfree
  · by_cases hleave : op = .unlock m ∨ op = .wait m
    · have howner : (state.monitor m).owner = some thread := by
        rcases hleave with rfl | rfl <;> cases h <;> assumption
      have hafter : ((π.advance state thread instr op next choice).monitor m).owner = none := by
        rcases hleave with rfl | rfl <;>
          simp [advance, Op.perform, hnotified, howner]
      rw [hafter]
      exact .given hleave howner
    · rw [not_or] at hleave
      have hkept (monitor : M → Monitor T) :
          (op.perform thread monitor m).owner = (monitor m).owner :=
        perform_owner_of_ne hlock hleave.1 hleave.2
      rw [advance, hkept, hnotified]
      exact .kept hlock hleave

/-- An operation on other monitors, or none. -/
theorem Outcome.kept (h : Outcome π state thread instr op next) (choice : Nat)
    (hother : instr.op ≠ .lock m ∧ instr.op ≠ .unlock m ∧ instr.op ≠ .wait m) :
    ((π.advance state thread instr op next choice).monitor m).owner =
      (state.monitor m).owner := by
  have hop : op ≠ .lock m ∧ op ≠ .unlock m ∧ op ≠ .wait m := by
    rcases h.op_cases with rfl | rfl
    · exact hother
    · exact ⟨nofun, nofun, nofun⟩
  have hpasses := h.passes m choice
  generalize ((π.advance state thread instr op next choice).monitor m).owner = owner at hpasses
  cases hpasses with
  | taken hlock => exact absurd hlock hop.1
  | given hleave => exact absurd hleave (not_or.mpr hop.2)
  | kept => rfl

/-- A thread outside enters a monitor that is free. -/
theorem Outcome.entered (h : Outcome π state thread instr op next) (choice : Nat)
    (hop : instr.op = .lock m) (hother : (state.monitor m).owner ≠ some thread) :
    (state.monitor m).owner = none ∧ next = instr.next ∧
      ((π.advance state thread instr op next choice).monitor m).owner = some thread := by
  cases h with
  | enter n hlock hawake hfree =>
      cases hop.symm.trans hlock
      exact ⟨hfree, rfl, by simp [advance, Op.perform]⟩
  | reenter n hlock hawake howner =>
      cases hop.symm.trans hlock
      exact absurd howner hother
  | done hskip => rcases hskip with hskip | ⟨other, hskip⟩ <;> cases hop.symm.trans hskip
  | leave n hleave | stranger n hleave | wait n hleave | refused n hleave =>
      cases hop.symm.trans hleave

/-- The owner leaves the monitor, or waits. -/
theorem Outcome.left (h : Outcome π state thread instr op next) (choice : Nat)
    (hop : instr.op = .unlock m ∨ instr.op = .wait m)
    (howner : (state.monitor m).owner = some thread) :
    next = instr.next ∧
      ((π.advance state thread instr op next choice).monitor m).owner = none := by
  have hnotified := Program.notified_owner state.monitor instr.notify choice m
  cases h with
  | leave n hunlock | wait n hunlock =>
      rcases hop with hop | hop <;> cases hop.symm.trans hunlock
      exact ⟨rfl, by simp [advance, Op.perform, hnotified, howner]⟩
  | stranger n hunlock hother | refused n hunlock hother =>
      rcases hop with hop | hop <;> cases hop.symm.trans hunlock
      exact absurd howner hother
  | enter n hlock | reenter n hlock => rcases hop with hop | hop <;> cases hop.symm.trans hlock
  | done hskip =>
      rcases hskip with hskip | ⟨other, hskip⟩ <;> rcases hop with hop | hop <;>
        cases hop.symm.trans hskip

/-- The points at which `holds` is true are entered through the monitor `m`. -/
structure EnteredBy (π : TolerantProgram T M D E P I) (m : M) (holds : T → P → Prop) : Prop where
  enters : ∀ {thread input p data instr}, π.code thread input p data = some instr →
    holds thread instr.next →
      instr.op = .lock m ∨ holds thread p ∧ instr.op ≠ .unlock m ∧ instr.op ≠ .wait m
  resumes : ∀ {thread input p data instr n}, π.code thread input p data = some instr →
    instr.op = .wait n → holds thread (π.resumed instr.next) → holds thread p

/-- The monitor `m` is entered only at points behind which `holds` is true, until it is
left. -/
structure LeftBy (π : TolerantProgram T M D E P I) (m : M) (holds : T → P → Prop) : Prop where
  locks : ∀ {thread input p data instr}, π.code thread input p data = some instr →
    instr.op = .lock m → holds thread instr.next
  keeps : ∀ {thread input p data instr}, π.code thread input p data = some instr →
    holds thread p → instr.op = .unlock m ∨ instr.op = .wait m ∨ holds thread instr.next
  resumes : ∀ {thread input p data instr n}, π.code thread input p data = some instr →
    instr.op = .wait n → holds thread p → holds thread (π.resumed instr.next)

variable {holds : T → P → Prop} {action : Action T M I}

theorem wakeSpuriously_owner (monitor : M → Monitor T) (n : M) (t : T) (m : M) :
    (Function.update monitor n ((monitor n).wakeSpuriously t) m).owner = (monitor m).owner := by
  by_cases hm : m = n
  · subst hm
    simp
  · simp [hm]

omit [DecidableEq T] [DecidableEq M] in
/-- A thread that goes on inside enters the monitor, or has been inside and does not leave. -/
theorem EnteredBy.moved (h : EnteredBy π m holds) {input : I}
    (hcode : π.code thread input (state.pc thread) state.data = some instr)
    (houtcome : Outcome π state thread instr op next) (hholds : holds thread next) :
    op = .lock m ∨ (op ≠ .unlock m ∧ op ≠ .wait m) ∧
      ((state.monitor m).owner = some thread ∨ holds thread (state.pc thread)) := by
  cases houtcome with
  | done hop =>
      rcases h.enters hcode hholds with hlock | ⟨hsource, -⟩
      · rcases hop with hop | ⟨other, hop⟩ <;> cases hop.symm.trans hlock
      · exact .inr ⟨⟨nofun, nofun⟩, .inr hsource⟩
  | enter n hop =>
      rcases h.enters hcode hholds with hlock | ⟨hsource, -⟩
      · exact .inl (hop.symm.trans hlock)
      · exact .inr ⟨⟨nofun, nofun⟩, .inr hsource⟩
  | reenter n hop hawake howner =>
      rcases h.enters hcode hholds with hlock | ⟨hsource, -⟩
      · cases hop.symm.trans hlock
        exact .inr ⟨⟨nofun, nofun⟩, .inl howner⟩
      · exact .inr ⟨⟨nofun, nofun⟩, .inr hsource⟩
  | leave n hop | wait n hop =>
      rcases h.enters hcode hholds with hlock | ⟨hsource, hunlock, hwait⟩
      · cases hop.symm.trans hlock
      · exact .inr ⟨hop ▸ ⟨hunlock, hwait⟩, .inr hsource⟩
  | stranger n hop =>
      rcases h.enters hcode hholds with hlock | ⟨hsource, -⟩
      · cases hop.symm.trans hlock
      · exact .inr ⟨⟨nofun, nofun⟩, .inr hsource⟩
  | refused n hop => exact .inr ⟨⟨nofun, nofun⟩, .inr (h.resumes hcode hop hholds)⟩

/-- A thread at a point that is entered through the monitor owns it. -/
theorem EnteredBy.owner (h : EnteredBy π m holds)
    (hbefore : ∀ t, holds t (state.pc t) → (state.monitor m).owner = some t)
    (hstep : Steps π state action after) :
    ∀ t, holds t (after.pc t) → (after.monitor m).owner = some t := by
  cases hstep with
  | spurious n sleeper => exact fun t ht => (wakeSpuriously_owner _ _ _ _).trans (hbefore t ht)
  | run thread input choice instr op next hcode houtcome =>
      have hpasses := houtcome.passes m choice
      intro t ht
      generalize ((π.advance state thread instr op next choice).monitor m).owner = owner
        at hpasses
      by_cases hself : t = thread
      · subst hself
        replace ht : holds t next := by simpa [advance] using ht
        have hmoved := h.moved hcode houtcome ht
        cases hpasses with
        | taken => rfl
        | given hop =>
            rcases hmoved with rfl | ⟨⟨hunlock, hwait⟩, -⟩
            · rcases hop with hop | hop <;> cases hop
            · exact absurd hop (not_or.mpr ⟨hunlock, hwait⟩)
        | kept hlock =>
            rcases hmoved with hop | ⟨-, howner | hsource⟩
            · exact absurd hop hlock
            · exact howner
            · exact hbefore t hsource
      · replace ht : holds t (state.pc t) := by simpa [advance, hself] using ht
        have howner := hbefore t ht
        cases hpasses with
        | taken hop hfree => cases hfree.symm.trans howner
        | given hop hthread => exact absurd (Option.some.inj (howner.symm.trans hthread)) hself
        | kept => exact howner

omit [DecidableEq T] [DecidableEq M] in
/-- A thread that has been inside goes on inside, or leaves. -/
theorem LeftBy.moved (h : LeftBy π m holds) {input : I}
    (hcode : π.code thread input (state.pc thread) state.data = some instr)
    (houtcome : Outcome π state thread instr op next)
    (howner : (state.monitor m).owner = some thread) (hholds : holds thread (state.pc thread)) :
    op = .unlock m ∨ op = .wait m ∨ holds thread next := by
  cases houtcome with
  | done hop =>
      rcases h.keeps hcode hholds with hunlock | hwait | htarget
      · rcases hop with hop | ⟨other, hop⟩ <;> cases hop.symm.trans hunlock
      · rcases hop with hop | ⟨other, hop⟩ <;> cases hop.symm.trans hwait
      · exact .inr (.inr htarget)
  | enter n hop | reenter n hop =>
      rcases h.keeps hcode hholds with hunlock | hwait | htarget
      · cases hop.symm.trans hunlock
      · cases hop.symm.trans hwait
      · exact .inr (.inr htarget)
  | leave n hop | wait n hop => exact hop ▸ h.keeps hcode hholds
  | stranger n hop hother =>
      rcases h.keeps hcode hholds with hunlock | hwait | htarget
      · cases hop.symm.trans hunlock
        exact absurd howner hother
      · cases hop.symm.trans hwait
      · exact .inr (.inr htarget)
  | refused n hop => exact .inr (.inr (h.resumes hcode hop hholds))

/-- The owner of the monitor is at a point inside. -/
theorem LeftBy.inside (h : LeftBy π m holds)
    (hbefore : ∀ t, (state.monitor m).owner = some t → holds t (state.pc t))
    (hstep : Steps π state action after) :
    ∀ t, (after.monitor m).owner = some t → holds t (after.pc t) := by
  cases hstep with
  | spurious n sleeper => exact fun t ht => hbefore t ((wakeSpuriously_owner _ _ _ _).symm.trans ht)
  | run thread input choice instr op next hcode houtcome =>
      have hpasses := houtcome.passes m choice
      intro t ht
      rw [ht] at hpasses
      by_cases hself : t = thread
      · subst hself
        suffices holds t next by simpa [advance]
        generalize hbeforeOwner : (state.monitor m).owner = owner at hpasses
        cases hpasses with
        | taken hop =>
            subst hop
            cases houtcome with
            | enter _ hop => exact h.locks hcode hop
        | kept hlock hleave =>
            have hmoved := h.moved hcode houtcome hbeforeOwner (hbefore t hbeforeOwner)
            exact (hmoved.resolve_left hleave.1).resolve_left hleave.2
      · suffices holds t (state.pc t) by simpa [advance, hself]
        generalize hbeforeOwner : (state.monitor m).owner = owner at hpasses
        cases hpasses with
        | taken => exact absurd rfl hself
        | kept => exact hbefore t hbeforeOwner

/-! ## The waiting threads -/

/-- A waiting thread has been waiting and was not woken, or begins to wait. -/
theorem mem_waiters_advance {choice : Nat} {t : T}
    (h : t ∈ ((π.advance state thread instr op next choice).monitor m).waiters) :
    t ∈ (notified state.monitor instr.notify choice m).waiters ∨ t = thread ∧ op = .wait m := by
  rcases Program.perform_waiters thread (notified state.monitor instr.notify choice) op m with
    hsame | ⟨hop, hmore⟩
  · exact .inl (hsame ▸ h)
  · simp only [advance, hmore, List.mem_append, List.mem_singleton] at h
    exact h.imp id fun heq => ⟨heq, hop⟩

theorem wakeSpuriously_waiters_sublist (monitor : M → Monitor T) (n : M) (t : T) (m : M) :
    (Function.update monitor n ((monitor n).wakeSpuriously t) m).waiters.Sublist
      (monitor m).waiters := by
  by_cases hm : m = n
  · subst hm
    simpa using List.erase_sublist
  · simp [hm]

/-- The points inside a `wait` on the monitor `m`, from which a thread enters it again. -/
structure AsleepAt (π : TolerantProgram T M D E P I) (m : M) (asleep : T → P → Prop) :
    Prop where
  waits : ∀ {thread input p data instr}, π.code thread input p data = some instr →
    instr.op = .wait m → asleep thread instr.next
  relocks : ∀ {thread input p data instr}, π.code thread input p data = some instr →
    asleep thread p → instr.op = .lock m

/-- The waiting threads are inside a `wait`. -/
structure Sleeping (state : State T M D P) (m : M) (asleep : T → P → Prop) : Prop where
  nodup : (state.monitor m).waiters.Nodup
  inside : ∀ t ∈ (state.monitor m).waiters, asleep t (state.pc t)

variable {asleep : T → P → Prop}

omit [DecidableEq T] [DecidableEq M] in
/-- A thread that moves is not asleep. -/
theorem AsleepAt.awake (h : AsleepAt π m asleep) (hbefore : Sleeping state m asleep) {input : I}
    (hcode : π.code thread input (state.pc thread) state.data = some instr)
    (houtcome : Outcome π state thread instr op next) :
    thread ∉ (state.monitor m).waiters := by
  intro hwaiting
  have hlock := h.relocks hcode (hbefore.inside thread hwaiting)
  cases houtcome with
  | done hop => rcases hop with hop | ⟨other, hop⟩ <;> cases hop.symm.trans hlock
  | enter n hop hawake | reenter n hop hawake =>
      cases hop.symm.trans hlock
      exact hawake hwaiting
  | leave n hop | stranger n hop | wait n hop | refused n hop => cases hop.symm.trans hlock

theorem AsleepAt.step (h : AsleepAt π m asleep) (hbefore : Sleeping state m asleep)
    (hstep : Steps π state action after) : Sleeping after m asleep := by
  cases hstep with
  | spurious n sleeper =>
      have hsublist := wakeSpuriously_waiters_sublist state.monitor n sleeper m
      exact ⟨hbefore.nodup.sublist hsublist, fun t ht => hbefore.inside t (hsublist.mem ht)⟩
  | run thread input choice instr op next hcode houtcome =>
      have hawake := h.awake hbefore hcode houtcome
      have hsublist := Program.notified_waiters_sublist state.monitor instr.notify choice m
      refine ⟨?_, fun t ht => ?_⟩
      · have hprior := hbefore.nodup.sublist hsublist
        rcases Program.perform_waiters thread (notified state.monitor instr.notify choice) op m
          with hsame | ⟨-, hmore⟩
        · simpa only [advance, hsame] using hprior
        · simp only [advance, hmore]
          refine List.nodup_append.mpr ⟨hprior, List.nodup_singleton thread, ?_⟩
          rintro first hfirst second hsecond rfl
          exact hawake (List.mem_singleton.mp hsecond ▸ hsublist.mem hfirst)
      · rcases mem_waiters_advance ht with hwaiting | ⟨rfl, rfl⟩
        · have hne : t ≠ thread := fun heq => hawake (heq ▸ hsublist.mem hwaiting)
          simpa [advance, hne] using hbefore.inside t (hsublist.mem hwaiting)
        · cases houtcome with
          | wait _ hop => simpa [advance] using h.waits hcode hop

omit [DecidableEq T] [DecidableEq M] in
/-- A notification wakes the only thread that can be asleep. -/
theorem Sleeping.notified (h : Sleeping state m asleep) (halone : ∀ t p, asleep t p → t = thread)
    (choice : Nat) : ((state.monitor m).signal choice).waiters = [] := by
  refine Monitor.signal_waiters_of_length_le_one _ choice ?_
  have hsubset : (state.monitor m).waiters ⊆ [thread] := fun t ht =>
    List.mem_singleton.mpr (halone t _ (h.inside t ht))
  exact (List.subperm_of_subset h.nodup hsubset).length_le

/-! ## Threads that can move -/

theorem step_of_outcome {input : I} {choice : Nat} {result : Op T M × P}
    (hcode : π.code thread input (state.pc thread) state.data = some instr)
    (houtcome : π.outcome state thread instr = some result) :
    π.step state (.run thread input choice) =
      some (π.advance state thread instr result.1 result.2 choice) := by
  simp [step, hcode, houtcome]

omit [DecidableEq M] in
/-- Only a thread that enters a monitor or joins another thread can be blocked. -/
theorem exists_outcome (hlock : ∀ m, instr.op ≠ .lock m) (hjoin : ∀ t, instr.op ≠ .join t) :
    ∃ result, π.outcome state thread instr = some result := by
  unfold outcome
  split
  · exact ⟨_, rfl⟩
  · next m hop => exact absurd hop (hlock m)
  · split <;> exact ⟨_, rfl⟩
  · split <;> exact ⟨_, rfl⟩
  · next t hop => exact absurd hop (hjoin t)

omit [DecidableEq M] in
/-- A thread that enters a monitor is awake or asleep there, or another thread owns the
monitor. -/
theorem exists_outcome_of_lock (hop : instr.op = .lock m)
    (hawake : thread ∉ (state.monitor m).waiters) :
    (∃ result, π.outcome state thread instr = some result) ∨
      ∃ t, t ≠ thread ∧ (state.monitor m).owner = some t := by
  cases howner : (state.monitor m).owner with
  | none => exact .inl ⟨(.lock m, instr.next), by simp [outcome, hop, hawake, howner]⟩
  | some t =>
      by_cases heq : t = thread
      · subst heq
        exact .inl ⟨(.skip, instr.next), by simp [outcome, hop, hawake, howner]⟩
      · exact .inr ⟨t, heq, rfl⟩

end TolerantProgram

end ThreadPools.Concurrency
