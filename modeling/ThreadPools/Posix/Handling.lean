/-
# What calls do with tasks

A call of `execute` carries its task until the piece of code that takes it:
`execute` rejects the task, pushes it or places it into a slot. The destructor
of a queued pool drops what is left in the queue. No other method touches a
task; `terminate` and the destructors change only the life of the pool.
-/

import ThreadPools.Posix.Custody
import ThreadPools.Posix.Lifecycle

namespace ThreadPools.Posix

open ThreadPools.Concurrency

/-! ## What effects do to tasks -/

namespace Effect

/-- The effect changes neither the custody of tasks nor starts one. -/
def Silent (effect : Effect) : Prop :=
  (∀ custody : Custody, custody.apply effect = custody) ∧ ∀ m, effect ≠ .begin m

/-- What `terminate` does. -/
inductive Stops : Effect → Prop
  | stopManager (m) : Stops (.stopManager m)
  | joinManager (m) : Stops (.joinManager m)
  | clear : Stops .clear
  | stop : Stops .stop

theorem Stops.silent {effect : Effect} (h : effect.Stops) : effect.Silent := by
  cases h <;> exact ⟨fun _ => rfl, nofun⟩

theorem silent_release : Effect.release.Silent :=
  ⟨fun _ => rfl, nofun⟩

theorem silent_joinDispatcher : Effect.joinDispatcher.Silent :=
  ⟨fun _ => rfl, nofun⟩

/-- The worker `m` handles the task in its slot. -/
def Own (m : ManagerId) (effect : Effect) : Prop :=
  effect = .begin m ∨ effect = .finish m ∨ effect = .discard m

theorem not_silent_place {task : Option Runnable} {m : ManagerId} :
    ¬ (Effect.place task m).Silent := by
  intro h
  have hsame := congrArg Custody.placed
    (h.1 ⟨[], [], [], [], fun _ => none, [], [], [], [], []⟩)
  cases hsame

theorem not_silent_push {task : Option Runnable} : ¬ (Effect.push task).Silent := by
  intro h
  have hsame := congrArg Custody.pushed
    (h.1 ⟨[], [], [], [], fun _ => none, [], [], [], [], []⟩)
  cases hsame

theorem Silent.not_own {effect : Effect} (h : effect.Silent) (m : ManagerId) :
    ¬ effect.Own m := by
  have hkeeps := congrArg Custody.deleted
    (h.1 ⟨[], [], [], [], fun _ => some 0, [], [], [], [], []⟩)
  rintro (rfl | rfl | rfl)
  · exact h.2 m rfl
  · cases hkeeps
  · cases hkeeps

/-- The effect moves no task between the queue, the slots and the workers. -/
structure Quiet (effect : Effect) : Prop where
  pushed : ∀ custody : Custody, (custody.apply effect).pushed = custody.pushed
  placed : ∀ custody : Custody, (custody.apply effect).placed = custody.placed
  dropped : ∀ custody : Custody, (custody.apply effect).dropped = custody.dropped
  queue : ∀ custody : Custody, (custody.apply effect).queue = custody.queue
  slot : ∀ custody : Custody, (custody.apply effect).slot = custody.slot
  started : ∀ m, effect ≠ .begin m

theorem Silent.quiet {effect : Effect} (h : effect.Silent) : effect.Quiet := by
  refine ⟨?_, ?_, ?_, ?_, ?_, h.2⟩ <;> intro custody <;> rw [h.1]

theorem quiet_submit (task : Runnable) (t : Tid) : (Effect.submit task t).Quiet :=
  ⟨fun _ => rfl, fun _ => rfl, fun _ => rfl, fun _ => rfl, fun _ => rfl, nofun⟩

theorem quiet_reject (task : Option Runnable) : (Effect.reject task).Quiet :=
  ⟨fun _ => rfl, fun _ => rfl, fun _ => rfl, fun _ => rfl, fun _ => rfl, nofun⟩

end Effect

namespace Pool

theorem started_apply {effect : Effect} (h : ∀ m, effect ≠ .begin m) (pool : Pool) :
    (pool.apply effect).log.started = pool.log.started := by
  cases effect with
  | begin m => exact absurd rfl (h m)
  | _ => rfl

theorem task_apply (effect : Effect) (pool : Pool) (m : ManagerId) :
    ((pool.apply effect).managers m).task = (pool.custody.apply effect).slot m := by
  rw [← custody_slot, custody_apply]

end Pool

theorem Custody.slot_apply_none {custody : Custody} {m : ManagerId} {effect : Effect}
    (h : custody.slot m = none) (hplace : ∀ task, effect ≠ .place task m) :
    (custody.apply effect).slot m = none := by
  cases effect with
  | place task i =>
      have hi : m ≠ i := fun heq => hplace task (heq ▸ rfl)
      simpa [Custody.apply, hi] using h
  | finish i | discard i =>
      by_cases hi : m = i
      · simp [Custody.apply, hi]
      · simpa [Custody.apply, hi] using h
  | _ => exact h

theorem Custody.queue_apply_nil {custody : Custody} {effect : Effect}
    (h : custody.queue = []) (hpush : ∀ task, effect ≠ .push task) :
    (custody.apply effect).queue = [] := by
  cases effect with
  | push task => exact absurd rfl (hpush task)
  | pop => simp [Custody.apply, h]
  | emptyQueue => rfl
  | _ => exact h

namespace ThreadPool

theorem terminate_stops {p : TerminatePoint} {pool : Pool} {effect : Effect}
    (heffect : (terminate p pool).effect = some effect) : effect.Stops := by
  cases p with
  | stop m rest p =>
      cases p with
      | lock => cases heffect
      | body => cases heffect; exact .stopManager m
  | empty p =>
      cases p with
      | destroy m rest p =>
          cases p with
          | lock => cases heffect
          | body => cases heffect; exact .stopManager m
          | join =>
              simp only [terminate, emptyTaskList, TaskManager.destroy] at heffect
              split at heffect <;> cases heffect <;> exact .joinManager m
      | clear => cases heffect; exact .clear
  | enter => cases heffect
  | finish => cases heffect

theorem destroy_stops {p : DestroyPoint} {pool : Pool} {effect : Effect}
    (heffect : (destroy p pool).effect = some effect) :
    effect.Stops ∨ effect = .release ∧ p = .release := by
  cases p with
  | terminate p => exact .inl (terminate_stops heffect)
  | empty p => exact .inl (terminate_stops (p := .empty p) heffect)
  | release => cases heffect; exact .inr ⟨rfl, rfl⟩

end ThreadPool

theorem QueuedThreadPool.terminate_stops {p : TerminatePoint} {pool : Pool}
    {effect : Effect} (heffect : (terminate p pool).effect = some effect) :
    effect.Stops := by
  cases p with
  | base p => exact ThreadPool.terminate_stops heffect
  | stop => cases heffect; exact .stop
  | enter => cases heffect
  | leave => cases heffect

/-- What the methods other than `execute` do. -/
inductive Call.Ends (call : Call) : Effect → Prop
  | stops (effect) (h : effect.Stops) : Ends call effect
  | release (hcall : call = .destroy .release ∨ call = .queuedDestroy (.base .release)) :
      Ends call .release
  | joinDispatcher (hcall : call = .queuedDestroy .join) : Ends call .joinDispatcher
  | emptyQueue (hcall : call = .queuedDestroy (.emptyQueue .body)) : Ends call .emptyQueue

theorem Call.code_ends {call : Call} {pool : Pool} {effect : Effect}
    (hmethod : ¬ mayExecute call.method) (heffect : (call.code pool).effect = some effect) :
    call.Ends effect := by
  cases call with
  | execute task p => exact absurd ⟨task, rfl⟩ hmethod
  | queuedExecute task p => exact absurd ⟨task, rfl⟩ hmethod
  | isIdle p | isBusy p => cases heffect.symm.trans (ThreadPool.check_effect _ _ _ p pool)
  | queuedIsIdle p | queuedIsBusy p =>
      cases heffect.symm.trans (QueuedThreadPool.check_effect _ p pool)
  | queueLength p => cases p <;> cases heffect
  | terminate p => exact .stops _ (ThreadPool.terminate_stops heffect)
  | destroy p =>
      rcases ThreadPool.destroy_stops heffect with h | ⟨rfl, rfl⟩
      · exact .stops _ h
      · exact .release (.inl rfl)
  | queuedTerminate p => exact .stops _ (QueuedThreadPool.terminate_stops heffect)
  | queuedDestroy p =>
      cases p with
      | terminate p => exact .stops _ (QueuedThreadPool.terminate_stops heffect)
      | join =>
          simp only [code, piece, QueuedThreadPool.destroy, Instr.map_effect] at heffect
          split at heffect <;> cases heffect <;> exact .joinDispatcher rfl
      | emptyQueue p =>
          cases p with
          | lock => cases heffect
          | body => cases heffect; exact .emptyQueue rfl
      | baseTerminate p => exact .stops _ (ThreadPool.terminate_stops heffect)
      | base p =>
          rcases ThreadPool.destroy_stops heffect with h | ⟨rfl, rfl⟩
          · exact .stops _ h
          · exact .release (.inr rfl)

/-! ## Taking a task -/

/-- The task that a call has been given and that `execute` has not taken yet. -/
def Call.carried : Call → Option Runnable
  | .execute _ .placed => none
  | .execute task _ => task
  | .queuedExecute task _ => task
  | _ => none

theorem Call.carried_of_not_execute {call : Call} (h : ¬ mayExecute call.method) :
    call.carried = none := by
  cases call with
  | execute task p => exact absurd ⟨task, rfl⟩ h
  | queuedExecute task p => exact absurd ⟨task, rfl⟩ h
  | _ => rfl

/-- A piece of code of a call, seen from the tasks; `carried` is what the call
has still to hand over behind it. -/
inductive Call.Handles (call : Call) (pool : Pool) (carried : Option Runnable) :
    Option Effect → Prop
  | silent (effect) (hsilent : ∀ e ∈ effect, e.Silent)
      (hcarried : carried = call.carried) : Handles call pool carried effect
  | reject (hcarried : carried = none)
      (hempty : call.kind = .threadPool → pool.taskList = [])
      (hstopped : call.kind = .queuedThreadPool →
        pool.go = false ∧ call = .queuedExecute call.carried .body) :
      Handles call pool carried (some (.reject call.carried))
  | push (hcarried : carried = none) (hcall : call = .queuedExecute call.carried .body)
      (hgo : pool.go = true) : Handles call pool carried (some (.push call.carried))
  | place (m rest) (hcarried : carried = none)
      (hcall : call = .execute call.carried (.scan (.setTask m rest .body)))
      (hslot : (pool.managers m).task = none) :
      Handles call pool carried (some (.place call.carried m))
  | emptyQueue (hcarried : carried = none)
      (hcall : call = .queuedDestroy (.emptyQueue .body)) :
      Handles call pool carried (some .emptyQueue)

/-- A piece of code without an effect. -/
theorem Call.Handles.still {call : Call} {pool : Pool} {carried : Option Runnable}
    (hcarried : carried = call.carried) : call.Handles pool carried none :=
  .silent none nofun hcarried

theorem Call.execute_handles (task : Option Runnable) (p : ThreadPool.ExecutePoint)
    (pool : Pool) :
    (Call.execute task p).Handles pool
      (((Call.execute task p).code pool).next.elim Call.carried fun _ => none)
      ((Call.execute task p).code pool).effect := by
  have hscanned : ∀ {place : ScanPoint ⊕ Bool}, place ≠ .inr true →
      (Call.execute task (.scanned place)).carried = task := by
    intro place hplace
    rcases place with p | taken
    · rfl
    · cases taken with
      | true => exact absurd rfl hplace
      | false => rfl
  have hstart : ∀ rest, ScanPoint.start rest ≠ .inr true := by
    intro rest
    cases rest <;> rintro ⟨⟩
  cases p with
  | enter => exact .still rfl
  | test =>
      simp only [code, piece, ThreadPool.execute]
      split
      · next hempty => exact .reject rfl (fun _ => List.isEmpty_iff.mp hempty) (by rintro ⟨⟩)
      · exact .still (hscanned (hstart pool.taskList))
  | scan p =>
      have hmoves := scan_moves task p pool
      show (Call.execute task (.scan p)).Handles pool
        (Call.execute task (.scanned (scan task p pool).next)).carried
        (scan task p pool).effect
      generalize scan task p pool = piece at hmoves
      cases hmoves with
      | probe => exact .still rfl
      | idle => exact .still rfl
      | busy m rest => exact .still (hscanned (hstart rest))
      | offer => exact .still rfl
      | taken m rest htask => exact .place m rest rfl rfl htask
      | refused m rest => exact .still (hscanned (hstart rest))
  | placed => exact .still rfl
  | failed => exact .still rfl
  | woken => exact .still rfl

theorem Call.queuedExecute_handles (task : Option Runnable) (p : Section) (pool : Pool) :
    (Call.queuedExecute task p).Handles pool
      (((Call.queuedExecute task p).code pool).next.elim Call.carried fun _ => none)
      ((Call.queuedExecute task p).code pool).effect := by
  cases p with
  | lock => exact .still rfl
  | body =>
      simp only [code, piece, QueuedThreadPool.execute]
      split
      · next hgo => exact .push rfl rfl hgo
      · next hgo => exact .reject rfl (by rintro ⟨⟩) fun _ => ⟨Bool.eq_false_iff.mpr hgo, rfl⟩

theorem Call.code_handles (call : Call) (pool : Pool) :
    call.Handles pool ((call.code pool).next.elim Call.carried fun _ => none)
      (call.code pool).effect := by
  by_cases hexecute : mayExecute call.method
  · obtain ⟨task, htask⟩ := hexecute
    cases call with
    | execute task p => exact execute_handles task p pool
    | queuedExecute task p => exact queuedExecute_handles task p pool
    | _ => cases htask
  · have hcarried : ((call.code pool).next.elim Call.carried fun _ => none) = none := by
      cases hnext : (call.code pool).next with
      | inl next => exact carried_of_not_execute ((method_of_next hnext).2 ▸ hexecute)
      | inr => rfl
    have hnone := hcarried.trans (carried_of_not_execute hexecute).symm
    cases heffect : (call.code pool).effect with
    | none => exact .still hnone
    | some effect =>
        cases code_ends hexecute heffect with
        | stops _ h => exact .silent _ (fun e he => Option.some.inj he ▸ h.silent) hnone
        | release =>
            exact .silent _ (fun e he => Option.some.inj he ▸ Effect.silent_release) hnone
        | joinDispatcher =>
            exact .silent _
              (fun e he => Option.some.inj he ▸ Effect.silent_joinDispatcher) hnone
        | emptyQueue hcall => exact .emptyQueue hcarried hcall

/-- The task that the thread's call has still to hand over. -/
def Point.carried : Point → Option Runnable
  | .client (some call) => call.carried
  | .worker (.running (some call)) => call.carried
  | _ => none

/-- Only a call of `execute` carries a task. -/
theorem Point.calling_of_carried {kind : Kind} {allowed : Method → Prop} {t : Tid} {p : Point}
    {x : Runnable} (hfits : p.Fits kind allowed t) (h : p.carried = some x) :
    ∃ call, p = t.calling (some call) ∧ call.method = .execute (some x) := by
  have hmethod : ∀ call : Call, call.carried = some x → call.method = .execute (some x) := by
    intro call hcall
    unfold Call.carried at hcall
    split at hcall
    · cases hcall
    · exact congrArg Method.execute hcall
    · exact congrArg Method.execute hcall
    · cases hcall
  cases t with
  | client c =>
      obtain ⟨call, rfl⟩ := Point.Fits.client hfits
      cases call with
      | none => cases h
      | some call => exact ⟨call, rfl, hmethod call h⟩
  | dispatcher =>
      obtain ⟨q, rfl⟩ := Point.Fits.dispatcher hfits
      cases h
  | worker m =>
      obtain ⟨q, rfl⟩ := Point.Fits.worker hfits
      cases q with
      | running call =>
          cases call with
          | none => cases h
          | some call => exact ⟨call, rfl, hmethod call h⟩
      | _ => cases h

theorem Tid.carried_calling (t : Tid) (call : Option Call) :
    (t.calling call).carried = call.bind Call.carried := by
  cases t <;> cases call <;> rfl

theorem Call.entered_cases {kind : Kind} {method : Method} {call : Call}
    (h : entry kind method = some call) (t : Tid) :
    (∃ task, method = .execute (some task) ∧ call.entered t = some (.submit task t) ∧
      call.carried = some task) ∨
    (call.carried = none ∧ ∀ e ∈ call.entered t, e.Silent) := by
  have hnot : ¬ mayExecute method → call.carried = none := fun hmethod =>
    carried_of_not_execute ((entry_spec h).2.symm ▸ hmethod)
  cases method with
  | execute task =>
      cases task with
      | some task => cases kind <;> cases h <;> exact .inl ⟨task, rfl, rfl, rfl⟩
      | none => cases kind <;> cases h <;> exact .inr ⟨rfl, nofun⟩
  | destroy =>
      refine .inr ⟨hnot nofun, fun e he => ?_⟩
      cases kind <;> cases h <;> cases he <;> exact ⟨fun _ => rfl, nofun⟩
  | isIdle | isBusy | terminate =>
      refine .inr ⟨hnot nofun, fun e he => ?_⟩
      cases kind <;> cases h <;> cases he
  | queueLength =>
      refine .inr ⟨hnot nofun, fun e he => ?_⟩
      cases kind <;> cases h
      cases he

end ThreadPools.Posix
