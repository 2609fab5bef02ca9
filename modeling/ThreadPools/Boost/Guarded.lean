/-
# The monitors of a Boost pool in every run

In every state each thread stands to each monitor as its point says. Three facts about the
slots carry this through calls of the pool from inside a task: the slot of a worker that
runs a task is occupied, its task is not at work on the worker's own manager, and no task
destroys the pool.
-/

import ThreadPools.Boost.Critical

namespace ThreadPools.Boost.Pool

open ThreadPools.Concurrency
open Standings (outside)

/-- There is a task in the slot. -/
def SlotStatus.Occupied : SlotStatus → Prop
  | .waiting | .started | .deleted => True
  | .unknown | .empty => False

/-- The points of a worker that knows of a task in its slot. -/
theorem SlotStatus.Occupied.cases {C : Type} {p : TaskManager.RunPoint C}
    (h : p.slot.Occupied) :
    (∃ call, p = .running call) ∨ (∃ looping, p = .delete looping) ∨
      ∃ looping, p = .clear looping := by
  cases p with
  | running call => exact .inl ⟨call, rfl⟩
  | delete looping => exact .inr (.inl ⟨looping, rfl⟩)
  | clear looping => exact .inr (.inr ⟨looping, rfl⟩)
  | wait p => cases p <;> exact h.elim
  | _ => exact h.elim

/-- The destructor is not called by a task. -/
def OwnerDestroys (_ : State) : Action → Prop
  | .call t .destroy => ∀ m, t ≠ .worker m
  | _ => True

/-- Every thread stands to the monitors as its point says. -/
structure Guarded (state : State) : Prop where
  fits : ∀ t, (state.pc t).Fits t
  consistent : state.memory.Consistent
  standing : ∀ t, ((state.pc t).standings t).Hold t state.memory
  occupied : ∀ m p, state.pc (.worker m) = .worker p → p.slot.Occupied →
    (state.memory.managers m).task ≠ none
  apart : ∀ m call, (state.pc (.worker m)).call = some call → ¬ call.Touches m
  owner : ∀ m p, (state.pc (.worker m)).call ≠ some (.destroy p)
  vacant : ∀ t task m, (state.pc t).call = some (.execute task (.setTask m .store)) →
    (state.memory.managers m).task = none

variable {size : Nat} {state next : State} {action : Action} {piece : Piece Point} {t u : Tid}
  {m : ManagerId}

theorem ownerDestroys_of_contract (h : Contract state action) :
    OwnerDestroys state action := by
  cases action with
  | call t method =>
      cases method with
      | destroy => exact (h.2.2 rfl).2
      | _ => trivial
  | _ => trivial

/-! ## The standings -/

theorem Method.entry_standings (method : Method) : method.entry.next.standings = outside := by
  cases method with
  | destroy => rfl
  | _ => exact Standings.set_outside rfl

theorem Method.entry_other (method : Method) (x : MonitorId) (s : Synchronized Tid) :
    method.entry.effect ≠ .sync x s := by
  cases method <;> nofun

/-- The worker of `m` is inside its manager during the call. -/
theorem standings_running (call : Call) (m : ManagerId) :
    Point.standings (.worker m) (.worker (.running (some call))) =
      call.standings.set (.manager m) .marked := rfl

/-- Every step is disciplined. -/
theorem Guarded.bracket (h : Guarded state) (hpiece : state.piece size action = some piece) :
    Bracket action.thread state.memory ((state.pc action.thread).standings action.thread)
      piece.effect (piece.next.standings action.thread) := by
  have hfits := h.fits action.thread
  have hstanding := h.standing action.thread
  have hconsistent := h.consistent
  cases action with
  | run t choice =>
      have happart := h.apart
      simp only [State.piece, Action.thread] at hpiece hfits hstanding ⊢
      cases t with
      | client c =>
          generalize state.pc (.client c) = p at hpiece hfits hstanding ⊢
          cases p with
          | worker => exact hfits.elim
          | client call =>
              cases call with
              | none => cases hpiece
              | some call =>
                  obtain ⟨body, hbody, rfl⟩ := Option.map_eq_some_iff.mp hpiece
                  have hbracket := Call.code_bracket hconsistent (hstanding .pool)
                    (fun m _ => hstanding (.manager m)) hbody
                  exact .call (Point.standings (.client c)) hbracket (fun _ => rfl) fun _ => rfl
      | worker m =>
          have happart := h.apart m
          generalize state.pc (.worker m) = p at hpiece hfits hstanding happart ⊢
          cases p with
          | client => exact hfits.elim
          | worker p =>
              obtain ⟨body, hbody, rfl⟩ := Option.map_eq_some_iff.mp hpiece
              refine TaskManager.run_bracket hconsistent hstanding (fun call inner hp hinner => ?_)
                hbody
              subst hp
              have hapart : ¬ call.Touches m := happart call rfl
              -- the call has no business with the worker's own manager
              have hpool : (call.standings .pool).Holds (.worker m) (state.memory.sync .pool) :=
                hstanding .pool
              have hmanager : ∀ k, call.Touches k → (call.standings (.manager k)).Holds (.worker m)
                  (state.memory.sync (.manager k)) := fun k htouches => by
                have hne : MonitorId.manager k ≠ .manager m := fun heq => by
                  cases heq
                  exact hapart htouches
                have hself := hstanding (.manager k)
                rwa [standings_running, Standings.set_of_ne _ hne] at hself
              exact (Call.code_bracket hconsistent hpool hmanager hinner).nested
                fun s heffect => hapart (Call.code_touches hinner heffect)
  | call t method =>
      simp only [State.piece, Action.thread] at hpiece hfits ⊢
      generalize state.pc t = p at hpiece hfits ⊢
      unfold enter at hpiece
      split at hpiece <;> cases hpiece
      · refine .still method.entry_other ?_
        cases t <;> exact method.entry_standings
      · refine .still method.entry_other ?_
        cases t with
        | client => exact hfits.elim
        | worker m =>
            exact congrArg (fun standings : Standings => standings.set (.manager m) .marked)
              method.entry_standings
  | finish m =>
      simp only [State.piece, Action.thread] at hpiece ⊢
      generalize state.pc (.worker m) = p at hpiece ⊢
      unfold Pool.finish at hpiece
      split at hpiece <;> cases hpiece
      exact .still (fun _ _ => by rintro ⟨⟩) rfl
  | wakeUp x t =>
      simp only [State.piece] at hpiece
      split at hpiece <;> cases hpiece
      exact .sync (.keep (hconsistent x) rfl rfl (hstanding x)) fun _ _ => rfl

/-! ## The memory behind a step -/

theorem Memory.sync_apply_other {effect : Effect} (hother : ∀ x s, effect ≠ .sync x s)
    (memory : Memory) : (memory.apply effect).sync = memory.sync := by
  cases effect with
  | sync x s => exact absurd rfl (hother x s)
  | _ => rfl

/-- Only two effects change a slot. -/
theorem Memory.task_apply (effect : Effect) (memory : Memory) (m : ManagerId) :
    ((memory.apply effect).managers m).task = (memory.managers m).task ∨
      (∃ task, effect = .place task m ∧ ((memory.apply effect).managers m).task = task) ∨
      (effect = .clear m ∧ ((memory.apply effect).managers m).task = none) := by
  have hother : ∀ k (f : TaskManager → TaskManager), m ≠ k →
      ((memory.update k f).managers m).task = (memory.managers m).task := fun k f hne => by
    rw [memory.update_managers_of_ne hne]
  cases effect with
  | place task k =>
      by_cases hm : m = k
      · subst hm
        exact .inr (.inl ⟨task, rfl, by simp [apply]⟩)
      · exact .inl (hother k (fun manager => { manager with task := task }) hm)
  | clear k =>
      by_cases hm : m = k
      · subst hm
        exact .inr (.inr ⟨rfl, by simp [apply]⟩)
      · exact .inl (hother k (fun manager => { manager with task := none }) hm)
  | stop k | finish k | join k =>
      by_cases hm : m = k
      · subst hm
        exact .inl (by simp [apply])
      · refine .inl ?_
        simp only [apply]
        exact hother k _ hm
  | _ => exact .inl rfl

theorem Memory.task_apply_silent {effect : Effect} (hsilent : effect.Silent) (memory : Memory)
    (m : ManagerId) : ((memory.apply effect).managers m).task = (memory.managers m).task := by
  rcases memory.task_apply effect m with h | ⟨task, rfl, -⟩ | ⟨rfl, -⟩
  · exact h
  · exact hsilent.elim
  · exact hsilent.elim

theorem step_eq_some (hstep : step size state action = some next) :
    ∃ piece, state.piece size action = some piece ∧ next = state.advance action.thread piece := by
  obtain ⟨piece, hpiece, rfl⟩ := Option.map_eq_some_iff.mp hstep
  exact ⟨piece, hpiece, rfl⟩

@[simp] theorem State.advance_memory (state : State) (t : Tid) (piece : Piece Point) :
    (state.advance t piece).memory = state.memory.apply piece.effect := rfl

@[simp] theorem State.advance_pc_self (state : State) (t : Tid) (piece : Piece Point) :
    (state.advance t piece).pc t = piece.next :=
  Function.update_self ..

theorem State.advance_pc_of_ne (state : State) {t u : Tid} (h : u ≠ t) (piece : Piece Point) :
    (state.advance t piece).pc u = state.pc u :=
  Function.update_of_ne h ..

/-! ## One step -/

/-- A thread inside a monitor owns it. -/
theorem Guarded.owner_of_marked (h : Guarded state) {x : MonitorId}
    (hmarked : (state.pc t).standings t x = .marked) :
    (state.memory.sync x).owner = some t := by
  have hstanding := h.standing t x
  rw [hmarked] at hstanding
  exact hstanding.1

/-- A thread that stores a task is inside the manager. -/
theorem Guarded.owner_of_store (h : Guarded state) {task : Option Runnable}
    (hcall : (state.pc t).call = some (.execute task (.setTask m .store))) :
    (state.memory.sync (.manager m)).owner = some t := by
  refine h.owner_of_marked ?_
  have hfits := h.fits t
  cases t with
  | client c =>
      generalize state.pc (.client c) = p at hcall hfits ⊢
      match p, hfits, hcall with
      | .client (some _), _, rfl => exact Standings.set_self ..
  | worker k =>
      have hne : MonitorId.manager m ≠ .manager k := fun heq => by
        cases heq
        exact h.apart _ _ hcall ⟨rfl, nofun⟩
      generalize state.pc (.worker k) = p at hcall hfits ⊢
      match p, hfits, hcall with
      | .worker (.running (some _)), _, rfl =>
          rw [standings_running, Standings.set_of_ne _ hne]
          exact Standings.set_self ..

/-- A worker that knows of a task in its slot is inside its manager. -/
theorem Guarded.owner_of_occupied (h : Guarded state) {p : TaskManager.RunPoint Call}
    (hp : state.pc (.worker m) = .worker p) (hoccupied : p.slot.Occupied) :
    (state.memory.sync (.manager m)).owner = some (.worker m) := by
  refine h.owner_of_marked ?_
  rw [hp]
  rcases hoccupied.cases with ⟨call, rfl⟩ | ⟨looping, rfl⟩ | ⟨looping, rfl⟩
  · cases call <;> exact Standings.set_self ..
  · exact Standings.set_self ..
  · exact Standings.set_self ..

section Bracket

variable {memory : Memory} {before after standings : Standings} {effect : Effect}

theorem Memory.sync_apply_self (memory : Memory) (x : MonitorId) (s : Synchronized Tid) :
    (memory.apply (.sync x s)).sync x = s :=
  Function.update_self ..

theorem Memory.sync_apply_of_ne (memory : Memory) {x y : MonitorId} (h : y ≠ x)
    (s : Synchronized Tid) : (memory.apply (.sync x s)).sync y = memory.sync y :=
  Function.update_of_ne h ..

theorem Bracket.consistent (h : Bracket t memory before effect after)
    (hconsistent : memory.Consistent) : (memory.apply effect).Consistent := by
  intro y
  cases h with
  | @sync x s _ hdisciplined hframe =>
      by_cases hy : y = x
      · subst hy
        rw [memory.sync_apply_self]
        exact hdisciplined.tid
      · rw [memory.sync_apply_of_ne hy]
        exact hconsistent y
  | other hother =>
      rw [Memory.sync_apply_other hother]
      exact hconsistent y

theorem Bracket.self (h : Bracket t memory before effect after)
    (hstanding : before.Hold t memory) : after.Hold t (memory.apply effect) := by
  intro y
  cases h with
  | @sync x s _ hdisciplined hframe =>
      by_cases hy : y = x
      · subst hy
        rw [memory.sync_apply_self]
        exact hdisciplined.standing
      · rw [memory.sync_apply_of_ne hy, hframe y hy]
        exact hstanding y
  | other hother =>
      rw [Memory.sync_apply_other hother]
      exact hstanding y

theorem Bracket.frame (h : Bracket t memory before effect after) (hne : u ≠ t)
    (hstanding : standings.Hold u memory) : standings.Hold u (memory.apply effect) := by
  intro y
  cases h with
  | @sync x s _ hdisciplined hframe =>
      by_cases hy : y = x
      · subst hy
        rw [memory.sync_apply_self]
        exact hdisciplined.frame hne (hstanding y)
      · rw [memory.sync_apply_of_ne hy]
        exact hstanding y
  | other hother =>
      rw [Memory.sync_apply_other hother]
      exact hstanding y

end Bracket

theorem Handles.fits {ended : ManagerId → Bool} {calls : Method → Prop} {memory : Memory}
    {p q : Point} {effect : Effect}
    (h : Handles size ended calls memory t p effect q) (hp : p.Fits t) : q.Fits t := by
  cases h with
  | stay => exact hp
  | enter | place => exact t.fits_calling _
  | @call _ _ piece =>
      cases piece.next with
      | inl => exact t.fits_calling _
      | inr => exact t.fits_calling _
  | work ht | finish ht =>
      subst ht
      trivial

/-- A task is stored by its carrier, and a slot is cleared by its worker. -/
theorem Handles.task_cases {ended : ManagerId → Bool} {calls : Method → Prop}
    {memory : Memory} {p q : Point}
    {effect : Effect} (h : Handles size ended calls memory t p effect q) (m : ManagerId) :
    ((memory.apply effect).managers m).task = (memory.managers m).task ∨
      (∃ task, effect = .place task m ∧ p = t.calling (some (.execute task (.setTask m .store))) ∧
        q = t.calling (some (.execute task (.setTask m (.notify .set)))) ∧
        ((memory.apply effect).managers m).task = task) ∨
      (∃ looping, effect = .clear m ∧ t = .worker m ∧ p = .worker (.clear looping) ∧
        ((memory.apply effect).managers m).task = none) := by
  rcases memory.task_apply effect m with hsame | ⟨task, rfl, htask⟩ | ⟨rfl, htask⟩
  · exact .inl hsame
  · refine .inr (.inl ⟨task, rfl, ?_⟩)
    generalize heffect : Effect.place task m = effect at h
    cases h with
    | stay hplain =>
        subst heffect
        exact hplain.elim
    | enter method => cases method <;> cases heffect
    | call _ hsilent =>
        rw [← heffect] at hsilent
        exact hsilent.elim
    | place other k =>
        cases heffect
        exact ⟨rfl, rfl, htask⟩
    | work ht hworks =>
        subst heffect
        cases hworks with
        | keep hplain | forget hplain => exact hplain.elim
    | finish => cases heffect
  · refine .inr (.inr ?_)
    generalize heffect : Effect.clear m = effect at h
    cases h with
    | stay hplain =>
        subst heffect
        exact hplain.elim
    | enter method => cases method <;> cases heffect
    | call _ hsilent =>
        rw [← heffect] at hsilent
        exact hsilent.elim
    | place => cases heffect
    | work ht hworks =>
        subst heffect
        cases hworks with
        | keep hplain | forget hplain => exact hplain.elim
        | clear looping => exact ⟨looping, rfl, ht, rfl, htask⟩
    | finish => cases heffect

/-- A step changes the slot of a worker that knows of a task in it only when the worker
itself clears it. -/
theorem Guarded.task_occupied (h : Guarded state) (hpiece : state.piece size action = some piece)
    {p : TaskManager.RunPoint Call} (hp : state.pc (.worker m) = .worker p)
    (hoccupied : p.slot.Occupied) :
    ((state.memory.apply piece.effect).managers m).task = (state.memory.managers m).task ∨
      action.thread = .worker m ∧ ∃ looping, p = .clear looping := by
  have hhandles := handles_of_piece (h.fits action.thread) hpiece
  rcases hhandles.task_cases m with hsame | ⟨task, -, hbefore, -, -⟩ | ⟨looping, -, ht, hbefore, -⟩
  · exact .inl hsame
  · -- the thread that stores would be inside the manager together with the worker
    have hcall : (state.pc action.thread).call = some (.execute task (.setTask m .store)) := by
      rw [hbefore, Tid.call_calling]
    have hstores := h.owner_of_store hcall
    have hworks := h.owner_of_occupied hp hoccupied
    have ht : action.thread = .worker m := Option.some.inj (hstores.symm.trans hworks)
    rw [ht] at hcall
    exact absurd ⟨rfl, nofun⟩ (h.apart m _ hcall)
  · rw [ht, hp] at hbefore
    cases hbefore
    exact .inr ⟨ht, looping, rfl⟩

section Handles

variable {ended : ManagerId → Bool} {calls : Method → Prop} {memory : Memory}
  {p : TaskManager.RunPoint Call}
  {q next : Point} {effect : Effect} {call : Call}

/-- What a worker knows of a task in its slot stays true in its own steps. -/
theorem Handles.occupied (h : Handles size ended calls memory (.worker m) q effect (.worker p))
    (hoccupied : p.slot.Occupied)
    (hbefore : ∀ p, q = .worker p → p.slot.Occupied → (memory.managers m).task ≠ none)
    (happart : ∀ call, q.call = some call → ¬ call.Touches m) :
    ((memory.apply effect).managers m).task ≠ none := by
  rcases h.task_cases m with hsame | ⟨task, -, rfl, -, -⟩ | ⟨looping, rfl, -, rfl, -⟩
  · rw [hsame]
    generalize hnext : Point.worker p = next at h
    cases h with
    | stay =>
        subst hnext
        exact hbefore p rfl hoccupied
    | enter => exact hbefore (.running none) rfl trivial
    | call => exact hbefore _ rfl trivial
    | place => exact hbefore _ rfl trivial
    | work ht hworks =>
        cases ht
        cases hnext
        cases hworks with
        | keep _ hslot =>
            rw [hslot] at hoccupied
            exact hbefore _ rfl hoccupied
        | forget _ hslot =>
            rw [hslot] at hoccupied
            exact hoccupied.elim
        | vacant _ _ hslot =>
            rw [hslot] at hoccupied
            exact hoccupied.elim
        | begin hfull => exact hfull
        | discard hfull => exact hfull
        | delete looping => exact hbefore (.delete looping) rfl (by cases looping <;> trivial)
        | clear _ _ hslot =>
            rcases hslot with hslot | hslot <;> rw [hslot] at hoccupied <;> exact hoccupied.elim
    | finish => exact hbefore (.running none) rfl trivial
  · exact absurd ⟨rfl, nofun⟩ (happart _ rfl)
  · -- behind `task = 0` the worker knows of no task
    generalize hnext : Point.worker p = next at h
    generalize hbegin : Point.worker (.clear looping) = q at h
    generalize heffect : Effect.clear m = effect at h
    cases h with
    | stay hplain =>
        subst heffect
        exact hplain.elim
    | enter method => cases hbegin
    | call => cases hbegin
    | place => cases hbegin
    | work ht hworks =>
        cases hnext
        cases hbegin
        subst heffect
        cases hworks with
        | keep hplain | forget hplain => exact hplain.elim
        | clear _ _ hslot =>
            rcases hslot with hslot | hslot <;> rw [hslot] at hoccupied <;> exact hoccupied.elim
    | finish => cases hbegin

/-- The task of a worker stays away from the worker's manager and does not destroy the pool. -/
theorem Handles.apart (h : Handles size ended calls memory (.worker m) q effect next)
    (hcall : next.call = some call)
    (hentry : ∀ method, calls method → method ≠ .destroy)
    (hbefore : ∀ call, q.call = some call → ¬ call.Touches m ∧ ∀ p, call ≠ .destroy p)
    (hslot : ∀ call, q = .worker (.running call) → (memory.managers m).task ≠ none) :
    ¬ call.Touches m ∧ ∀ p, call ≠ .destroy p := by
  cases h with
  | stay => exact hbefore call hcall
  | enter method hcalls =>
      cases hcall
      have hmethod := hentry method hcalls
      cases method <;> simp_all [Method.entry, Call.Touches, ThreadPool.ExecutePoint.Touches]
  | @call _ before piece hcode =>
      obtain ⟨hapart, hdestroy⟩ := hbefore before rfl
      cases hnext : piece.next with
      | inr => rw [hnext] at hcall; cases hcall
      | inl after =>
          rw [hnext] at hcall
          cases hcall
          obtain ⟨htouches, hmethod, -⟩ := Call.code_next hcode hnext
          refine ⟨fun hafter => ?_, fun p hp => ?_⟩
          · rcases htouches m hafter with hearlier | hvacant | ⟨p, hp⟩
            · exact hapart hearlier
            · exact hslot _ rfl hvacant
            · exact hdestroy p hp
          · obtain ⟨p, hp⟩ := hmethod p hp
            exact hdestroy p hp
  | place task k =>
      cases hcall
      refine ⟨fun hafter => (hbefore _ rfl).1 ⟨hafter.1, nofun⟩, nofun⟩
  | work ht hworks =>
      rw [hworks.call_next] at hcall
      cases hcall
  | finish => cases hcall

/-- A thread gets to the store only when it has seen the slot empty. -/
theorem Handles.vacant (h : Handles size ended calls memory t q effect next)
    {task : Option Runnable}
    (hcall : next.call = some (.execute task (.setTask m .store)))
    (hbefore : q.call = some (.execute task (.setTask m .store)) →
      (memory.managers m).task = none) :
    ((memory.apply effect).managers m).task = none := by
  cases h with
  | stay hplain =>
      rw [Memory.task_apply_silent hplain.silent]
      exact hbefore hcall
  | enter method =>
      rw [Tid.call_calling] at hcall
      cases method <;> cases hcall
  | @call _ before piece hcode hsilent =>
      rw [Memory.task_apply_silent hsilent]
      cases hnext : piece.next with
      | inr =>
          rw [hnext] at hcall
          simp at hcall
      | inl after =>
          rw [hnext] at hcall
          simp only [Sum.elim_inl, Function.comp_apply, Tid.call_calling,
            Option.some.injEq] at hcall
          exact (Call.code_next hcode hnext).2.2 task m hcall
  | place other k =>
      rw [Tid.call_calling] at hcall
      cases hcall
  | work ht hworks =>
      rw [hworks.call_next] at hcall
      cases hcall
  | finish => cases hcall

end Handles

theorem Guarded.step (h : Guarded state) (howner : OwnerDestroys state action)
    (hstep : Pool.step size state action = some next) : Guarded next := by
  obtain ⟨piece, hpiece, rfl⟩ := step_eq_some hstep
  have hhandles := handles_of_piece (h.fits action.thread) hpiece
  have hbracket := h.bracket hpiece
  -- what the task of a worker does is the same as what the worker's thread does
  have hnested : ∀ m call, action.thread = .worker m → piece.next.call = some call →
      ¬ call.Touches m ∧ ∀ p, call ≠ .destroy p := fun m call ht hcall => by
    rw [ht] at hhandles
    refine hhandles.apart hcall (fun method haction hdestroy => ?_)
      (fun call hbefore => ⟨h.apart m call hbefore, fun p hp => h.owner m p (hp ▸ hbefore)⟩)
      (fun call hrunning => h.occupied m _ hrunning trivial)
    subst hdestroy haction
    exact howner m ht
  refine ⟨fun u => ?_, hbracket.consistent h.consistent, fun u => ?_, fun m p hp hoccupied => ?_,
    fun m call hcall => ?_, fun m p hcall => ?_, fun u task m hcall => ?_⟩
  · by_cases hu : u = action.thread
    · subst hu
      rw [State.advance_pc_self]
      exact hhandles.fits (h.fits _)
    · rw [State.advance_pc_of_ne _ hu]
      exact h.fits u
  · by_cases hu : u = action.thread
    · subst hu
      rw [State.advance_pc_self]
      exact hbracket.self (h.standing _)
    · rw [State.advance_pc_of_ne _ hu]
      exact hbracket.frame hu (h.standing u)
  · by_cases hm : Tid.worker m = action.thread
    · rw [hm, State.advance_pc_self] at hp
      rw [← hm] at hhandles
      rw [hp] at hhandles
      exact hhandles.occupied hoccupied (fun p hp => h.occupied m p hp) (h.apart m)
    · rw [State.advance_pc_of_ne _ hm] at hp
      rcases h.task_occupied hpiece hp hoccupied with hsame | ⟨ht, -⟩
      · rw [State.advance_memory, hsame]
        exact h.occupied m p hp hoccupied
      · exact absurd ht.symm hm
  · by_cases hm : Tid.worker m = action.thread
    · rw [hm, State.advance_pc_self] at hcall
      exact (hnested m call hm.symm hcall).1
    · rw [State.advance_pc_of_ne _ hm] at hcall
      exact h.apart m call hcall
  · by_cases hm : Tid.worker m = action.thread
    · rw [hm, State.advance_pc_self] at hcall
      exact (hnested m _ hm.symm hcall).2 p rfl
    · rw [State.advance_pc_of_ne _ hm] at hcall
      exact h.owner m p hcall
  · by_cases hu : u = action.thread
    · subst hu
      rw [State.advance_pc_self] at hcall
      exact hhandles.vacant hcall (h.vacant _ task m)
    · rw [State.advance_pc_of_ne _ hu] at hcall
      -- whoever changes the slot is inside the manager, and so is the thread that will store
      have hstores := h.owner_of_store hcall
      have hvacant := h.vacant u task m hcall
      rcases hhandles.task_cases m with
        hsame | ⟨other, -, hbefore, -, -⟩ | ⟨looping, -, -, -, hnone⟩
      · rw [State.advance_memory, hsame]
        exact hvacant
      · have hother : (state.pc action.thread).call =
            some (.execute other (.setTask m .store)) := by
          rw [hbefore, Tid.call_calling]
        exact absurd (Option.some.inj (hstores.symm.trans (h.owner_of_store hother))) hu
      · exact hnone

theorem guarded_initial (size : Nat) : Guarded (initial size) where
  fits t := by cases t <;> trivial
  consistent _ := nofun
  standing t x := by
    have houtside : ((initial size).pc t).standings t = outside := by
      cases t with
      | client c => rfl
      | worker m =>
          simp only [initial]
          split
          · exact Standings.set_outside rfl
          · rfl
    rw [houtside]
    exact nofun
  occupied m p hp hoccupied := by
    simp only [initial] at hp
    cases hp
    split at hoccupied <;> exact hoccupied.elim
  apart m call hcall := by
    simp only [initial] at hcall
    split at hcall <;> cases hcall
  owner m p hcall := by
    simp only [initial] at hcall
    split at hcall <;> cases hcall
  vacant t task m hcall := rfl

theorem guarded_of_reaches {guard : State → Action → Prop}
    (hguard : ∀ state action, guard state action → OwnerDestroys state action)
    (hrun : Reaches (Pool.step size) guard (initial size) state) : Guarded state := by
  induction hrun with
  | refl => exact guarded_initial size
  | tail action _ hallowed hstep ih => exact ih.step (hguard _ _ hallowed) hstep

end ThreadPools.Boost.Pool
