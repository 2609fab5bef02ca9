/-
# Lock discipline

A program is well locked when every piece of code changes the list of monitors
held at its control points exactly as its operation says, and when a thread
inside `wait` does nothing but enter the monitor again. For such programs the
owner of a monitor is at all times the thread whose control point holds it;
hence two threads are never at control points holding the same monitor, and
the waiting lists contain exactly threads that are inside `wait`.
-/

import Mathlib.Data.List.Nodup
import Mathlib.Data.List.Infix
import Mathlib.Data.List.Perm.Subperm
import ThreadPools.Concurrency.Program

namespace ThreadPools.Concurrency

variable {T M D E P I : Type*}

/-- The change of the held monitors which an operation makes. -/
def Op.Balanced (op : Op T M) (before after : List M) : Prop :=
  match op with
  | .skip => after = before
  | .join _ => after = before
  | .lock m => after = m :: before
  | .unlock m => before = m :: after
  | .wait m => before = m :: after

/-- A function body is balanced if each of its pieces is; it returns with the
monitors it was called with. -/
def Instr.BalancedBy {Q R : Type*} (held : Q → List M) (point : Q)
    (instr : Instr T M E (Q ⊕ R)) : Prop :=
  instr.op.Balanced (held point) (instr.next.elim held fun _ => [])

theorem Op.Balanced.append {op : Op T M} {before after : List M}
    (h : op.Balanced before after) (outer : List M) :
    op.Balanced (before ++ outer) (after ++ outer) := by
  cases op with
  | skip => exact congrArg (· ++ outer) h
  | join => exact congrArg (· ++ outer) h
  | lock => exact congrArg (· ++ outer) h
  | unlock => exact congrArg (· ++ outer) h
  | wait => exact congrArg (· ++ outer) h

/-- Calling a balanced function with the monitors `outer` held is balanced. -/
theorem Instr.BalancedBy.map {Q R S : Type*} {heldBody : Q → List M} {point : Q}
    {instr : Instr T M E (Q ⊕ R)} (h : instr.BalancedBy heldBody point) (outer : List M)
    (heldCaller : S → List M) {embed : Q ⊕ R → S}
    (hinside : ∀ inner, heldCaller (embed (.inl inner)) = heldBody inner ++ outer)
    (hreturn : ∀ result, heldCaller (embed (.inr result)) = outer) :
    (instr.map embed).op.Balanced (heldBody point ++ outer)
      (heldCaller (instr.map embed).next) := by
  have hnext : heldCaller (embed instr.next) =
      instr.next.elim heldBody (fun _ => []) ++ outer := by
    cases instr.next with
    | inl inner => exact hinside inner
    | inr result => simpa using hreturn result
  rw [Instr.map_next, Instr.map_op, hnext]
  exact Op.Balanced.append h outer

/-- A function whose body calls a balanced function is balanced at the points
inside the call. -/
theorem Instr.BalancedBy.call {Q R S U : Type*} {heldBody : Q → List M} {point : Q}
    {instr : Instr T M E (Q ⊕ R)} (h : instr.BalancedBy heldBody point) (outer : List M)
    {heldCaller : S → List M} {embed : Q → S} {resume : R → S ⊕ U}
    (hinside : ∀ inner, heldCaller (embed inner) = heldBody inner ++ outer)
    (hreturn : ∀ result, (resume result).elim heldCaller (fun _ => []) = outer) :
    (instr.map (Sum.elim (.inl ∘ embed) resume)).BalancedBy heldCaller (embed point) := by
  unfold Instr.BalancedBy
  rw [hinside point]
  exact h.map outer (Sum.elim heldCaller fun _ => []) hinside hreturn

namespace Program

variable (π : Program T M D E P I)

/-- The static conditions of the lock discipline. -/
structure WellLocked : Prop where
  balanced : ∀ {thread input point data instr},
    π.code thread input point data = some instr →
      instr.op.Balanced (π.held thread point) (π.held thread instr.next)
  handler : ∀ thread point, π.held thread (π.handler point) <:+ π.held thread point
  waits : ∀ {thread input point data instr} {m : M},
    π.code thread input point data = some instr →
      (instr.op = .wait m → π.waitsAt thread instr.next = some m)
  relocks : ∀ {thread input point data instr} {m : M},
    π.code thread input point data = some instr → π.waitsAt thread point = some m →
      instr.op = .lock m ∧ m ∉ π.held thread point

/-- Owners and control points agree. -/
structure Locked (state : State T M D P) : Prop where
  nodup : ∀ thread, (π.held thread (state.pc thread)).Nodup
  owner : ∀ m thread,
    (state.monitor m).owner = some thread ↔ m ∈ π.held thread (state.pc thread)
  waiters_nodup : ∀ m, (state.monitor m).waiters.Nodup
  waits : ∀ m thread, thread ∈ (state.monitor m).waiters →
    π.waitsAt thread (state.pc thread) = some m

variable {π}

/-- Two threads do not hold the same monitor. -/
theorem Locked.exclusive {state : State T M D P} (h : π.Locked state) {m : M}
    {first second : T} (hfirst : m ∈ π.held first (state.pc first))
    (hsecond : m ∈ π.held second (state.pc second)) : first = second := by
  have howner := (h.owner m first).mpr hfirst
  rw [(h.owner m second).mpr hsecond] at howner
  exact (Option.some.inj howner).symm

/-- A monitor without owner is held at no control point. -/
theorem Locked.not_held {state : State T M D P} (h : π.Locked state) {m : M}
    (hfree : (state.monitor m).owner = none) (thread : T) :
    m ∉ π.held thread (state.pc thread) := by
  intro hheld
  rw [(h.owner m thread).mpr hheld] at hfree
  cases hfree

variable {state next : State T M D P}

/-- A notification wakes the only thread that can be asleep. -/
theorem Locked.signal_waiters_of_alone (h : π.Locked state) {m : M} {thread : T}
    (halone : ∀ t ∈ (state.monitor m).waiters, t = thread) (choice : Nat) :
    ((state.monitor m).signal choice).waiters = [] := by
  refine Monitor.signal_waiters_of_length_le_one _ choice ?_
  have hsubset : (state.monitor m).waiters ⊆ [thread] := fun t ht =>
    List.mem_singleton.mpr (halone t ht)
  exact (List.subperm_of_subset (h.waiters_nodup m) hsubset).length_le

/-- A thread whose next operation is possible or raises is not asleep. -/
theorem Locked.awake (hwell : π.WellLocked) (h : π.Locked state) {thread : T}
    {input : I} {instr : Instr T M E P}
    (hcode : π.code thread input (state.pc thread) state.data = some instr)
    (hmoves : π.Enabled state thread instr.op ∨ Raises state thread instr.op) (m : M) :
    thread ∉ (state.monitor m).waiters := by
  intro hasleep
  obtain ⟨hop, hnotHeld⟩ := hwell.relocks hcode (h.waits m thread hasleep)
  rw [hop] at hmoves
  rcases hmoves with henabled | hraises
  · exact henabled.2 hasleep
  · exact hnotHeld ((h.owner m thread).mp hraises)

variable [DecidableEq M]

theorem notified_owner (monitor : M → Monitor T) (target : Option M) (choice : Nat)
    (m : M) : (notified monitor target choice m).owner = (monitor m).owner := by
  cases target with
  | none => rfl
  | some other =>
      by_cases hm : m = other
      · subst hm
        simp [notified]
      · simp [notified, hm]

theorem notified_waiters_sublist (monitor : M → Monitor T) (target : Option M)
    (choice : Nat) (m : M) :
    (notified monitor target choice m).waiters.Sublist (monitor m).waiters := by
  cases target with
  | none => exact List.Sublist.refl _
  | some other =>
      by_cases hm : m = other
      · subst hm
        simpa [notified] using Monitor.signal_waiters_sublist (monitor m) choice
      · simp [notified, hm]

variable [DecidableEq T]

/-- The waiting lists change only by `wait`. -/
theorem perform_waiters (thread : T) (monitor : M → Monitor T) (op : Op T M) (m : M) :
    (op.perform thread monitor m).waiters = (monitor m).waiters ∨
      op = .wait m ∧
        (op.perform thread monitor m).waiters = (monitor m).waiters ++ [thread] := by
  cases op with
  | skip => exact .inl rfl
  | join => exact .inl rfl
  | lock other =>
      refine .inl ?_
      by_cases hm : m = other
      · subst hm
        simp [Op.perform]
      · simp [Op.perform, hm]
  | unlock other =>
      refine .inl ?_
      by_cases hm : m = other
      · subst hm
        simp [Op.perform]
      · simp [Op.perform, hm]
  | wait other =>
      by_cases hm : m = other
      · subst hm
        exact .inr ⟨rfl, by simp [Op.perform]⟩
      · exact .inl (by simp [Op.perform, hm])

/-- Owners after a balanced operation, for the thread that performs it. -/
theorem perform_owner_self {thread : T} {monitor : M → Monitor T} {op : Op T M}
    {before after : List M} (hbalanced : op.Balanced before after)
    (hnodup : before.Nodup) (howner : ∀ m, (monitor m).owner = some thread ↔ m ∈ before)
    (m : M) : (op.perform thread monitor m).owner = some thread ↔ m ∈ after := by
  cases op with
  | skip =>
      cases hbalanced
      exact howner m
  | join =>
      cases hbalanced
      exact howner m
  | lock other =>
      cases hbalanced
      by_cases hm : m = other
      · subst hm
        simp [Op.perform]
      · simpa [Op.perform, hm] using howner m
  | unlock other =>
      cases hbalanced
      by_cases hm : m = other
      · subst hm
        have hown := (howner m).mpr List.mem_cons_self
        simpa [Op.perform, hown] using (List.nodup_cons.mp hnodup).1
      · simpa [Op.perform, hm] using howner m
  | wait other =>
      cases hbalanced
      by_cases hm : m = other
      · subst hm
        have hown := (howner m).mpr List.mem_cons_self
        simpa [Op.perform, hown] using (List.nodup_cons.mp hnodup).1
      · simpa [Op.perform, hm] using howner m

/-- Owners after a balanced operation, for the other threads. -/
theorem perform_owner_other {thread other : T} (hne : other ≠ thread)
    {monitor : M → Monitor T} {op : Op T M} {before after : List M}
    (hbalanced : op.Balanced before after)
    (howner : ∀ m, (monitor m).owner = some thread ↔ m ∈ before)
    (hfree : ∀ m, op = .lock m → (monitor m).owner = none) (m : M) :
    (op.perform thread monitor m).owner = some other ↔
      (monitor m).owner = some other := by
  cases op with
  | skip => rfl
  | join => rfl
  | lock target =>
      by_cases hm : m = target
      · subst hm
        simp [Op.perform, hfree m rfl, hne.symm]
      · simp [Op.perform, hm]
  | unlock target =>
      by_cases hm : m = target
      · subst hm
        cases hbalanced
        have hown := (howner m).mpr List.mem_cons_self
        simp [Op.perform, hown, hne.symm]
      · simp [Op.perform, hm]
  | wait target =>
      by_cases hm : m = target
      · subst hm
        cases hbalanced
        have hown := (howner m).mpr List.mem_cons_self
        simp [Op.perform, hown, hne.symm]
      · simp [Op.perform, hm]

theorem Locked.advance (hwell : π.WellLocked) (h : π.Locked state) {thread : T}
    {input : I} {instr : Instr T M E P}
    (hcode : π.code thread input (state.pc thread) state.data = some instr)
    (henabled : π.Enabled state thread instr.op) (choice : Nat) :
    π.Locked (π.advance state thread instr choice) := by
  have hbalanced := hwell.balanced hcode
  have howner : ∀ m, (notified state.monitor instr.notify choice m).owner = some thread ↔
      m ∈ π.held thread (state.pc thread) := fun m => by
    rw [notified_owner]
    exact h.owner m thread
  have hawake := h.awake hwell hcode (.inl henabled)
  refine ⟨fun other => ?_, fun m other => ?_, fun m => ?_, fun m other hmem => ?_⟩
  · by_cases hother : other = thread
    · subst hother
      have hself := h.nodup other
      simp only [Program.advance, Function.update_self]
      cases hop : instr.op with
      | skip =>
          rw [hop] at hbalanced
          exact hbalanced ▸ hself
      | join =>
          rw [hop] at hbalanced
          exact hbalanced ▸ hself
      | lock m =>
          rw [hop] at hbalanced henabled
          exact hbalanced ▸ List.nodup_cons.mpr ⟨h.not_held henabled.1 other, hself⟩
      | unlock m =>
          rw [hop] at hbalanced
          exact (List.nodup_cons.mp (hbalanced ▸ hself)).2
      | wait m =>
          rw [hop] at hbalanced
          exact (List.nodup_cons.mp (hbalanced ▸ hself)).2
    · simpa [Program.advance, hother] using h.nodup other
  · by_cases hother : other = thread
    · subst hother
      simpa [Program.advance] using
        perform_owner_self hbalanced (h.nodup other) howner m
    · have hfree : ∀ m, instr.op = .lock m →
          (notified state.monitor instr.notify choice m).owner = none := fun m hop => by
        rw [hop] at henabled
        rw [notified_owner]
        exact henabled.1
      simp only [Program.advance, Function.update_of_ne hother]
      rw [perform_owner_other hother hbalanced howner hfree m, notified_owner]
      exact h.owner m other
  · have hprior : (notified state.monitor instr.notify choice m).waiters.Nodup :=
      (h.waiters_nodup m).sublist (notified_waiters_sublist _ _ _ m)
    rcases perform_waiters thread (notified state.monitor instr.notify choice) instr.op m
      with hsame | ⟨-, hmore⟩
    · simpa only [Program.advance, hsame] using hprior
    · simp only [Program.advance, hmore]
      refine List.nodup_append.mpr ⟨hprior, List.nodup_singleton thread, ?_⟩
      intro first hfirst second hsecond heq
      rw [List.mem_singleton] at hsecond
      rw [heq, hsecond] at hfirst
      exact hawake m ((notified_waiters_sublist _ _ _ m).mem hfirst)
  · have hsource : other ∈ (state.monitor m).waiters → other ≠ thread ∧
        π.waitsAt other (state.pc other) = some m := fun hwaiting =>
      ⟨fun heq => hawake m (heq ▸ hwaiting), h.waits m other hwaiting⟩
    rcases perform_waiters thread (notified state.monitor instr.notify choice) instr.op m
      with hsame | ⟨hop, hmore⟩
    · simp only [Program.advance, hsame] at hmem ⊢
      obtain ⟨hne, hwaits⟩ := hsource ((notified_waiters_sublist _ _ _ m).mem hmem)
      rwa [Function.update_of_ne hne]
    · simp only [Program.advance, hmore, List.mem_append, List.mem_singleton] at hmem ⊢
      rcases hmem with hmem | rfl
      · obtain ⟨hne, hwaits⟩ := hsource ((notified_waiters_sublist _ _ _ m).mem hmem)
        rwa [Function.update_of_ne hne]
      · rw [Function.update_self]
        exact hwell.waits hcode hop

theorem Locked.raise (hwell : π.WellLocked) (h : π.Locked state) {thread : T}
    {input : I} {instr : Instr T M E P}
    (hcode : π.code thread input (state.pc thread) state.data = some instr)
    (hraises : Raises state thread instr.op) : π.Locked (π.raise state thread) := by
  have hawake := h.awake hwell hcode (.inr hraises)
  have hsuffix := hwell.handler thread (state.pc thread)
  refine ⟨fun other => ?_, fun m other => ?_, fun m => ?_, fun m other hmem => ?_⟩
  · by_cases hother : other = thread
    · subst hother
      simpa [Program.raise] using (h.nodup other).sublist hsuffix.sublist
    · simpa [Program.raise, hother] using h.nodup other
  · by_cases hother : other = thread
    · subst hother
      simp only [Program.raise, Function.update_self]
      split
      · next hreleased =>
          have hown := (h.owner m other).mpr hreleased.1
          simpa [hown] using hreleased.2
      · next hkept =>
          rw [h.owner m other]
          exact ⟨fun hmem => by_contra fun hnot => hkept ⟨hmem, hnot⟩,
            fun hmem => hsuffix.mem hmem⟩
    · simp only [Program.raise, Function.update_of_ne hother]
      split
      · next hreleased =>
          have hown := (h.owner m thread).mpr hreleased.1
          have hnot : m ∉ π.held other (state.pc other) := fun hmem =>
            hother (h.exclusive hmem hreleased.1)
          simpa [hown] using hnot
      · exact h.owner m other
  · have hsame : ((π.raise state thread).monitor m).waiters = (state.monitor m).waiters := by
      simp only [Program.raise]
      split <;> rfl
    rw [hsame]
    exact h.waiters_nodup m
  · have hsame : ((π.raise state thread).monitor m).waiters = (state.monitor m).waiters := by
      simp only [Program.raise]
      split <;> rfl
    rw [hsame] at hmem
    have hne : other ≠ thread := fun heq => hawake m (heq ▸ hmem)
    simpa [Program.raise, hne] using h.waits m other hmem

/-- The waiting list of a monitor on which nobody waits or is notified is the same. -/
theorem advance_waiters {thread : T} {instr : Instr T M E P} (choice : Nat) {m : M}
    (hnotify : instr.notify ≠ some m) (hop : instr.op ≠ .wait m) :
    ((π.advance state thread instr choice).monitor m).waiters = (state.monitor m).waiters := by
  have hnotified : notified state.monitor instr.notify choice m = state.monitor m := by
    cases htarget : instr.notify with
    | none => rfl
    | some other =>
        refine Function.update_of_ne (fun heq => hnotify ?_) _ _
        exact htarget.trans (congrArg some heq.symm)
  rcases perform_waiters thread (notified state.monitor instr.notify choice) instr.op m
    with hsame | ⟨hwait, -⟩
  · exact hsame.trans (congrArg Monitor.waiters hnotified)
  · exact absurd hwait hop

/-- Every step of a well-locked program keeps owners and control points in
agreement. -/
theorem Locked.step (hwell : π.WellLocked) (h : π.Locked state)
    {action : Action T M I} (hstep : π.step state action = some next) :
    π.Locked next := by
  rcases step_cases hstep with
    ⟨thread, input, choice, instr, -, hcode, henabled, rfl⟩ |
    ⟨thread, input, choice, instr, -, hcode, hraises, rfl⟩ | ⟨m, thread, -, hmem, rfl⟩
  · exact h.advance hwell hcode henabled choice
  · exact h.raise hwell hcode hraises
  · refine ⟨h.nodup, fun other waiter => ?_, fun other => ?_, fun other waiter hwaiter => ?_⟩
    · by_cases hother : other = m
      · subst hother
        simpa using h.owner other waiter
      · simpa [hother] using h.owner other waiter
    · by_cases hother : other = m
      · subst hother
        simpa using (h.waiters_nodup other).erase thread
      · simpa [hother] using h.waiters_nodup other
    · by_cases hother : other = m
      · subst hother
        simp only [Function.update_self, Monitor.wakeSpuriously_waiters] at hwaiter
        exact h.waits other waiter (List.mem_of_mem_erase hwaiter)
      · simp only [Function.update_of_ne hother] at hwaiter
        exact h.waits other waiter hwaiter

/-- The lock discipline holds in every state of every run. -/
theorem Locked.reaches (hwell : π.WellLocked) {guard : State T M D P → Action T M I → Prop}
    (hrun : Reaches π.step guard state next) (h : π.Locked state) : π.Locked next :=
  hrun.invariant h fun _ _ _ hlocked _ hstep => hlocked.step hwell hstep

end Program

end ThreadPools.Concurrency
