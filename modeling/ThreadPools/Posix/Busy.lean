/-
# Calls of `ThreadPool::is_idle` and `ThreadPool::is_busy` that return

A call gets through to its end if the workers before which it waits finish their tasks. The
exception is a task that has called the pool itself: it waits for the monitor of the pool,
which the call does not leave before the task has ended.
-/

import ThreadPools.Posix.Costs
import ThreadPools.Posix.Survey

namespace ThreadPools.Posix

open ThreadPools.Concurrency

/-- Nothing has changed about other managers than `m`. -/
def Apart (m : ManagerId) (state next : PoolState) : Prop :=
  ∀ i, i ≠ m → (next.data.managers i).task = (state.data.managers i).task ∧
    (next.monitor (.manager i)).owner = (state.monitor (.manager i)).owner ∧
    next.pc (.worker i) = state.pc (.worker i)

namespace Apart

variable {m i : ManagerId} {first second third : PoolState}

theorem refl (m : ManagerId) (state : PoolState) : Apart m state state :=
  fun _ _ => ⟨rfl, rfl, rfl⟩

theorem trans (hleft : Apart m first second) (hright : Apart m second third) :
    Apart m first third := by
  intro i hi
  obtain ⟨htask, howner, hpc⟩ := hright i hi
  obtain ⟨htask', howner', hpc'⟩ := hleft i hi
  exact ⟨htask.trans htask', howner.trans howner', hpc.trans hpc'⟩

theorem handed_iff (h : Apart m first second) (hi : i ≠ m) :
    Handed second i ↔ Handed first i := by
  obtain ⟨htask, howner, -⟩ := h i hi
  rw [Handed, Handed, htask, howner]

theorem callsBack_iff (h : Apart m first second) (hi : i ≠ m) :
    CallsBack second i ↔ CallsBack first i := by
  obtain ⟨-, -, hpc⟩ := h i hi
  rw [CallsBack, CallsBack, hpc]

end Apart

namespace Config

variable {size c : Nat} {state : PoolState} {m : ManagerId} {input : Input}
  {piece : Piece Point}

/-- The worker can leave the manager `m` with an empty slot while the client `c` is in the
pool. -/
def Vacates (size c : Nat) (m : ManagerId) (state : PoolState) : Prop :=
  ∃ next, Reaches (complete .threadPool size).program.step (Inside c) state next ∧
    Apart m state next ∧ next.pc (.client c) = state.pc (.client c) ∧
    (next.monitor .pool).owner = some (.client c) ∧
    (next.monitor (.manager m)).owner = none ∧ (next.data.managers m).task = none

section Vacates

variable (hused : (complete .threadPool size).Used state)
  (howner : (state.monitor .pool).owner = some (.client c))

include hused howner

/-- A step of the worker on its way. -/
theorem vacates_of_step
    (hcode : (complete .threadPool size).code (.worker m) input (state.pc (.worker m)) state.data =
      some piece)
    (hguard : ∀ method, input ≠ .call method)
    (hop : piece.op = .skip ∨ piece.op = .wait (.manager m))
    (heffect : ∀ effect, piece.effect = some effect → effect = .begin m ∨ effect = .finish m)
    (h : ∀ next, next = (complete .threadPool size).program.advance state (.worker m) piece 0 →
      (complete .threadPool size).Used next → (next.monitor .pool).owner = some (.client c) →
      Vacates size c m next) :
    Vacates size c m state := by
  have hstep : (complete .threadPool size).program.step state (.run (.worker m) input 0) =
      some ((complete .threadPool size).program.advance state (.worker m) piece 0) := by
    change ((complete .threadPool size).code (.worker m) input (state.pc (.worker m))
      state.data).bind _ = _
    rw [hcode, Option.bind_some]
    refine if_pos ?_
    rcases hop with hop | hop <;> rw [hop] <;> trivial
  have hallowed : Annotation.Respects NoShutdown state (.run (.worker m) input 0) :=
    ⟨hguard _, hguard _⟩
  have hnext := (hused.owner_step hstep (t := .client c) (by rintro ⟨⟩)).mpr howner
  obtain ⟨last, hrun, hapart, hpc, hpool, hfree, hempty⟩ :=
    h _ rfl (Reaches.tail _ hused hallowed hstep) hnext
  refine ⟨last, (Reaches.refl.tail _ ⟨howner, hallowed⟩ hstep).trans hrun, ?_, ?_, hpool, hfree,
    hempty⟩
  · refine Apart.trans (fun i hi => ⟨?_, ?_, ?_⟩) hapart
    · change (((complete .threadPool size).program.dataAfter piece state.data).managers i).task = _
      cases hpiece : piece.effect with
      | none => rw [(complete .threadPool size).program.dataAfter_none hpiece]
      | some effect =>
          rw [(complete .threadPool size).program.dataAfter_some hpiece]
          rcases heffect effect hpiece with rfl | rfl
          · rfl
          · simp [program, Pool.apply, Pool.deleteTask, Pool.update, hi]
    · have hne : MonitorId.manager i ≠ .manager m := fun heq => hi (MonitorId.manager.inj heq)
      simp only [Program.advance]
      rcases hop with hop | hop <;>
        simp [hop, Op.perform, Program.notified_owner, hne]
    · simp [Program.advance, hi]
  · rw [hpc]
    simp [Program.advance]

/-- A worker with an empty slot goes to sleep. -/
theorem vacates_of_inner_empty (hp : state.pc (.worker m) = .worker .inner)
    (hempty : (state.data.managers m).task = none) : Vacates size c m state := by
  have hcode : (complete .threadPool size).code (.worker m) .go (state.pc (.worker m))
      state.data = some { op := .wait (.manager m), next := .worker .woken } := by
    rw [hp]
    simp [code, workerCode, TaskManager.run, hused.go m, hempty, Instr.map]
  refine vacates_of_step hused howner hcode (by rintro _ ⟨⟩) (.inr rfl) (by rintro _ ⟨⟩) ?_
  rintro next rfl hnextUsed hnext
  refine ⟨_, .refl, Apart.refl m _, rfl, hnext, ?_, hempty⟩
  have hinside : (state.monitor (.manager m)).owner = some (.worker m) := by
    refine (hused.locked.owner _ _).mpr ?_
    rw [hp]
    exact List.mem_cons_self
  simp [Program.advance, Op.perform, notified, hinside]

/-- The task comes to its end. -/
theorem vacates_of_running (hp : state.pc (.worker m) = .worker (.running none)) :
    Vacates size c m state := by
  have hcode : (complete .threadPool size).code (.worker m) .finish (state.pc (.worker m))
      state.data = some { effect := some (.finish m), notify := some .pool
                          next := .worker .inner } := by
    rw [hp]
    rfl
  refine vacates_of_step hused howner hcode (by rintro _ ⟨⟩) (.inl rfl)
    (by rintro _ ⟨⟩; exact .inr rfl) ?_
  rintro next rfl hnextUsed hnext
  refine vacates_of_inner_empty hnextUsed hnext ?_ ?_
  · simp [Program.advance]
  · simp [Program.advance, Program.dataAfter, program, Pool.apply, Pool.deleteTask]

theorem vacates_of_loop (hp : state.pc (.worker m) = .worker .loop) :
    Vacates size c m state := by
  by_cases hempty : (state.data.managers m).task = none
  · have hcode : (complete .threadPool size).code (.worker m) .go (state.pc (.worker m))
        state.data = some { next := .worker .inner } := by
      rw [hp]
      simp [code, workerCode, TaskManager.run, hused.go m, hempty, Instr.map]
    refine vacates_of_step hused howner hcode (by rintro _ ⟨⟩) (.inl rfl) (by rintro _ ⟨⟩) ?_
    rintro next rfl hnextUsed hnext
    exact vacates_of_inner_empty hnextUsed hnext (by simp [Program.advance]) hempty
  · have hsome : (state.data.managers m).task.isSome = true := Option.isSome_iff_ne_none.mpr hempty
    have hcode : (complete .threadPool size).code (.worker m) .go (state.pc (.worker m))
        state.data = some { effect := some (.begin m), next := .worker (.running none) } := by
      rw [hp]
      simp [code, workerCode, TaskManager.run, hused.go m, hsome, Instr.map]
    refine vacates_of_step hused howner hcode (by rintro _ ⟨⟩) (.inl rfl)
      (by rintro _ ⟨⟩; exact .inl rfl) ?_
    rintro next rfl hnextUsed hnext
    exact vacates_of_running hnextUsed hnext (by simp [Program.advance])

theorem vacates_of_inner (hp : state.pc (.worker m) = .worker .inner) :
    Vacates size c m state := by
  by_cases hempty : (state.data.managers m).task = none
  · exact vacates_of_inner_empty hused howner hp hempty
  · have hcode : (complete .threadPool size).code (.worker m) .go (state.pc (.worker m))
        state.data = some { next := .worker .loop } := by
      rw [hp]
      simp [code, workerCode, TaskManager.run, hempty, Instr.map]
    refine vacates_of_step hused howner hcode (by rintro _ ⟨⟩) (.inl rfl) (by rintro _ ⟨⟩) ?_
    rintro next rfl hnextUsed hnext
    exact vacates_of_loop hnextUsed hnext (by simp [Program.advance])

/-- A worker inside its manager can come to the end of its task, unless the task waits for
the pool. -/
theorem vacates_of_taken (hinside : (state.monitor (.manager m)).owner = some (.worker m))
    (hcalls : ¬ CallsBack state m) : Vacates size c m state := by
  have hheld := (hused.locked.owner _ _).mp hinside
  obtain ⟨p, hp⟩ := Point.Fits.worker (hused.fits (.worker m))
  rw [hp] at hheld
  cases p with
  | running call =>
      cases call with
      | none => exact vacates_of_running hused howner hp
      | some call => exact absurd ⟨call, hp⟩ hcalls
  | loop => exact vacates_of_loop hused howner hp
  | inner => exact vacates_of_inner hused howner hp
  | add p | remove p => cases p <;> simp [program, Point.held, Section.held] at hheld
  | enter | woken | exited => cases hheld

end Vacates

/-- Nobody else is inside a manager while the client `c` is in the pool. -/
theorem Used.manager_owner (hused : (complete .threadPool size).Used state)
    (howner : (state.monitor .pool).owner = some (.client c)) {t : Tid}
    (ht : (state.monitor (.manager m)).owner = some t) : t = .worker m ∨ t = .client c := by
  have hheld := (hused.locked.owner (.manager m) t).mp ht
  -- a call inside a manager is inside the pool
  have hcall : ∀ call, state.pc t = t.calling (some call) → .manager m ∈ call.held →
      t = .client c := by
    intro call hpc hmem
    have hne := ne_dispatcher_of_calling hused hpc
    rcases Call.held_cases (kind_of_calling hused hpc) (hused.harmless t call hpc) with
      ⟨houtside, -⟩ | hpool
    · rw [houtside] at hmem
      cases hmem
    · have hinside : (state.monitor .pool).owner = some t := by
        refine (hused.locked.owner .pool t).mpr ?_
        rw [hpc]
        change MonitorId.pool ∈ (t.calling (some call)).held t
        rw [Tid.held_calling hne]
        exact List.mem_append_left _ hpool
      exact Option.some.inj (hinside.symm.trans howner)
  have hfits := hused.fits t
  cases t with
  | client d =>
      obtain ⟨call, hpc⟩ := Point.Fits.client hfits
      rw [hpc] at hheld
      cases call with
      | none => cases hheld
      | some call => exact .inr (hcall call hpc hheld)
  | dispatcher =>
      obtain ⟨q, hpc⟩ := Point.Fits.dispatcher hfits
      rw [hpc] at hheld hfits
      by_cases hq : q = .exited
      · rw [hq] at hheld
        cases hheld
      · cases hfits hq
  | worker i =>
      obtain ⟨q, hpc⟩ := Point.Fits.worker hfits
      rw [hpc] at hheld
      have hself : ∀ {l : List MonitorId}, l = [.manager i] → .manager m ∈ l →
          Tid.worker i = .worker m := by
        rintro l rfl hmem
        rw [MonitorId.manager.inj (List.mem_singleton.mp hmem)]
      cases q with
      | running call =>
          cases call with
          | none => exact .inl (hself rfl hheld)
          | some call =>
              rcases List.mem_append.mp hheld with hmem | hmem
              · exact .inr (hcall call hpc hmem)
              · exact .inl (hself rfl hmem)
      | loop | inner => exact .inl (hself rfl hheld)
      | add p | remove p => cases p <;> simp [program, Point.held, Section.held] at hheld
      | enter | woken | exited => cases hheld

end Config

namespace Survey

open Config

variable {size c : Nat} {survey : Survey} {state : PoolState} {m : ManagerId}
  {rest : List ManagerId} {p q : ThreadPool.CheckPoint}

/-- A step of the call when it is not blocked. -/
theorem exists_step (cfg : Config) (hp : state.pc (.client c) = .client (some (survey.embed p)))
    (hnext : (ThreadPool.check survey.onEmpty survey.onBusy survey.atEnd p state.data).next =
      .inl q)
    (henabled : cfg.program.Enabled state (.client c)
      (ThreadPool.check survey.onEmpty survey.onBusy survey.atEnd p state.data).op) :
    ∃ next, cfg.program.step state (PoolAction.go (.client c)) = some next ∧
      next.data = state.data ∧
      next.monitor = (ThreadPool.check survey.onEmpty survey.onBusy survey.atEnd p
        state.data).op.perform (.client c) state.monitor ∧
      next.pc = Function.update state.pc (.client c) (.client (some (survey.embed q))) := by
  let body := ThreadPool.check survey.onEmpty survey.onBusy survey.atEnd p state.data
  have hcode : cfg.code (.client c) .go (state.pc (.client c)) state.data =
      some { op := body.op, effect := none, notify := none
             next := .client (some (survey.embed q)) } := by
    have heffect : body.effect = none := ThreadPool.check_effect _ _ _ p state.data
    have hnotify : body.notify = none := ThreadPool.check_notify _ _ _ p state.data
    rw [hp]
    simp only [Config.code, clientCode, survey.code, Call.piece, Instr.map, Option.map_some]
    rw [heffect, hnotify, hnext]
    rfl
  have hstep : cfg.program.step state (PoolAction.go (.client c)) =
      some (cfg.program.advance state (.client c)
        { op := body.op, next := .client (some (survey.embed q)) } 0) := by
    change (cfg.code (.client c) .go (state.pc (.client c)) state.data).bind _ = _
    rw [hcode, Option.bind_some]
    exact if_pos henabled
  exact ⟨_, hstep, rfl, rfl, rfl⟩

/-- Where the call is about to enter a manager, nobody but the worker can be inside. -/
theorem free_of_lock (hused : (complete .threadPool size).Used state)
    (hp : state.pc (.client c) = .client (some (survey.embed (.probe m rest .lock))))
    (hworker : (state.monitor (.manager m)).owner ≠ some (.worker m)) :
    (state.monitor (.manager m)).owner = none := by
  refine Option.eq_none_iff_forall_ne_some.mpr fun t ht => ?_
  rcases hused.manager_owner ((owner_iff hused hp).mpr List.mem_cons_self) ht with rfl | rfl
  · exact hworker ht
  · have hmem := (owner_iff hused hp).mp ht
    simp [ThreadPool.CheckPoint.held, Section.held] at hmem

/-- Asking a manager nobody is inside of. -/
theorem exists_asked (hused : (complete .threadPool size).Used state)
    (hp : state.pc (.client c) = .client (some (survey.embed (.probe m rest .lock))))
    (hfree : (state.monitor (.manager m)).owner = none) :
    ∃ next, Reaches (complete .threadPool size).program.step (Inside c) state next ∧
      Apart m state next ∧ (next.monitor .pool).owner = some (.client c) ∧
      next.pc (.client c) = .client (some (survey.embed
        (if (state.data.managers m).task = none then .next survey.atEnd rest
          else .leave survey.onBusy))) := by
  have howner : (state.monitor .pool).owner = some (.client c) :=
    (owner_iff hused hp).mpr List.mem_cons_self
  have hawake : Tid.client c ∉ (state.monitor (.manager m)).waiters := by
    intro hasleep
    have hwaits := hused.locked.waits _ _ hasleep
    rw [hp] at hwaits
    cases (survey.waitsAt _).symm.trans hwaits
  obtain ⟨inner, hlock, hinnerData, hinnerMonitor, hinnerPc⟩ :=
    exists_step (complete .threadPool size) hp rfl ⟨hfree, hawake⟩
  have hinner : inner.pc (.client c) = .client (some (survey.embed (.probe m rest .body))) := by
    rw [hinnerPc, Function.update_self]
  have hnext : (ThreadPool.check survey.onEmpty survey.onBusy survey.atEnd (.probe m rest .body)
      inner.data).next = .inl (if (state.data.managers m).task = none then .next survey.atEnd rest
        else .leave survey.onBusy) := by
    rw [hinnerData]
    simp only [ThreadPool.check, TaskManager.isIdle, Instr.map_next, Sum.elim_inr,
      hused.isAlive m, Bool.and_true, Option.isNone_iff_eq_none]
  obtain ⟨next, hunlock, hnextData, hnextMonitor, hnextPc⟩ :=
    exists_step (complete .threadPool size) hinner hnext trivial
  have hpool : ∀ x ≠ MonitorId.manager m, (next.monitor x).owner = (state.monitor x).owner := by
    intro x hx
    rw [hnextMonitor, hinnerMonitor]
    simp [ThreadPool.check, TaskManager.isIdle, Op.perform, hx]
  have hallowed : ∀ state, Annotation.Respects NoShutdown state (PoolAction.go (.client c)) :=
    fun _ => ⟨by rintro ⟨⟩, by rintro ⟨⟩⟩
  have hinnerPool : (inner.monitor .pool).owner = some (.client c) := by
    rw [hinnerMonitor]
    simpa [ThreadPool.check, TaskManager.isIdle, Op.perform] using howner
  refine ⟨next, ?_, ?_, (hpool .pool (by rintro ⟨⟩)).trans howner, ?_⟩
  · exact (Reaches.refl.tail _ ⟨howner, hallowed _⟩ hlock).tail _ ⟨hinnerPool, hallowed _⟩ hunlock
  · intro i hi
    refine ⟨by rw [hnextData, hinnerData], hpool _ fun heq => hi (MonitorId.manager.inj heq), ?_⟩
    rw [hnextPc, hinnerPc]
    simp
  · rw [hnextPc, Function.update_self]

/-- No task on the way waits for the pool. -/
def Clear (state : PoolState) : List ManagerId → Prop
  | [] => True
  | m :: rest => Handed state m ∨ ¬ CallsBack state m ∧ Clear state rest

theorem clear_of_forall (h : ∀ m ∈ rest, ¬ CallsBack state m) : Clear state rest := by
  induction rest with
  | nil => trivial
  | cons m rest ih =>
      exact .inr ⟨h m List.mem_cons_self, ih fun i hi => h i (List.mem_cons_of_mem _ hi)⟩

theorem clear_congr {next : PoolState}
    (hsame : ∀ m ∈ rest, (Handed next m ↔ Handed state m) ∧ (CallsBack next m ↔ CallsBack state m))
    (h : Clear state rest) : Clear next rest := by
  induction rest with
  | nil => trivial
  | cons m rest ih =>
      obtain ⟨hhanded, hcalls⟩ := hsame m List.mem_cons_self
      refine h.imp hhanded.mpr fun ⟨hquiet, hclear⟩ => ⟨fun hnext => hquiet (hcalls.mp hnext), ?_⟩
      exact ih (fun i hi => hsame i (List.mem_cons_of_mem _ hi)) hclear

/-- Before the task that waits for the pool every task has been taken up. -/
theorem exists_blocked (h : ¬ Clear state rest) :
    ∃ front k behind, rest = front ++ k :: behind ∧ (∀ m ∈ front, ¬ Handed state m) ∧
      CallsBack state k := by
  induction rest with
  | nil => exact absurd trivial h
  | cons m rest ih =>
      obtain ⟨hhanded, hrest⟩ := not_or.mp h
      by_cases hcalls : CallsBack state m
      · exact ⟨[], m, rest, rfl, by rintro _ ⟨⟩, hcalls⟩
      · obtain ⟨front, k, behind, rfl, hfront, hk⟩ := ih fun hclear => hrest ⟨hcalls, hclear⟩
        refine ⟨m :: front, k, behind, rfl, ?_, hk⟩
        rintro i (_ | ⟨_, hi⟩)
        · exact hhanded
        · exact hfront i hi

/-- The rest of a call can let the workers finish the tasks they have taken up; it stops at
the first task that nobody has begun with. -/
theorem exists_result_of_next (hused : (complete .threadPool size).Used state)
    (howner : (state.monitor .pool).owner = some (.client c))
    (hp : state.pc (.client c) = .client (some (survey.embed (.next survey.atEnd rest))))
    (hnodup : rest.Nodup) (hclear : Clear state rest) :
    ∃ result target, Reaches (complete .threadPool size).program.step (Inside c) state target ∧
      target.pc (.client c) = .client (some (survey.embed (.leave result))) ∧
      ((∃ m ∈ rest, Handed state m) → result = survey.onBusy) := by
  induction rest generalizing state with
  | nil => exact ⟨_, state, .refl, hp, by rintro ⟨m, ⟨⟩, -⟩⟩
  | cons m rest ih =>
      obtain ⟨hm, hnodup⟩ := List.nodup_cons.mp hnodup
      have hp : state.pc (.client c) = .client (some (survey.embed (.probe m rest .lock))) := hp
      by_cases hhanded : Handed state m
      · have hfree : (state.monitor (.manager m)).owner = none := by
          refine Option.eq_none_iff_forall_ne_some.mpr fun t ht => ?_
          rcases hused.manager_owner howner ht with rfl | rfl
          · exact hhanded.2 ht
          · have hmem := (owner_iff hused hp).mp ht
            simp [ThreadPool.CheckPoint.held, Section.held] at hmem
        obtain ⟨target, hrun, -, -, htarget⟩ := exists_asked hused hp hfree
        rw [if_neg hhanded.1] at htarget
        exact ⟨_, target, hrun, htarget, fun _ => rfl⟩
      · obtain ⟨hcalls, hclear⟩ := hclear.resolve_left hhanded
        -- the worker leaves its manager, and the call finds it idle
        obtain ⟨free, hvacate, haway, hfreePc, hfreePool, hfreeOwner, hempty⟩ :
            Vacates size c m state := by
          by_cases hinside : (state.monitor (.manager m)).owner = some (.worker m)
          · exact vacates_of_taken hused howner hinside hcalls
          · exact ⟨state, .refl, Apart.refl m state, rfl, howner, free_of_lock hused hp hinside,
              (not_handed_iff.mp hhanded).resolve_right hinside⟩
        have hfreeUsed := hused.inside hvacate
        obtain ⟨next, hask, hbeside, hnextPool, hnextPc⟩ :=
          exists_asked hfreeUsed (hfreePc.trans hp) hfreeOwner
        rw [if_pos hempty] at hnextPc
        have hsame : ∀ i ∈ rest, (Handed next i ↔ Handed state i) ∧
            (CallsBack next i ↔ CallsBack state i) := by
          intro i hi
          have hne : i ≠ m := fun heq => hm (heq ▸ hi)
          have hapart := haway.trans hbeside
          exact ⟨hapart.handed_iff hne, hapart.callsBack_iff hne⟩
        obtain ⟨result, target, hrest, htarget, hresult⟩ :=
          ih (hfreeUsed.inside hask) hnextPool hnextPc hnodup (clear_congr hsame hclear)
        refine ⟨result, target, (hvacate.trans hask).trans hrest, htarget, ?_⟩
        rintro ⟨i, _ | ⟨_, hi⟩, hlater⟩
        · exact absurd hlater hhanded
        · exact hresult ⟨i, hi, (hsame i hi).1.mpr hlater⟩

/-! ### Whole calls -/

section Whole

variable (hused : (complete .threadPool size).Used state)
  (houtside : state.pc (.client c) = .client none)
  (hfree : (state.monitor .pool).owner = none)

include hused houtside hfree

/-- Behind the beginning of the call the managers are as they were. -/
theorem exists_begun (survey : Survey) :
    ∃ begun, (complete .threadPool size).Begins c survey state begun ∧
      (complete .threadPool size).Used begun ∧
      begun.pc (.client c) = .client (some (survey.embed .test)) ∧
      ∀ m, (Handed begun m ↔ Handed state m) ∧ (CallsBack begun m ↔ CallsBack state m) := by
  let called : PoolState :=
    (complete .threadPool size).program.advance state (.client c)
      { next := .client (some (survey.embed .enter)) } 0
  have hcall : (complete .threadPool size).program.step state
      (PoolAction.call (.client c) survey.method) = some called := by
    have hcode : (complete .threadPool size).code (.client c) (.call survey.method)
        (state.pc (.client c)) state.data =
        some { next := .client (some (survey.embed .enter)) } := by
      rw [houtside]
      simp [Config.code, clientCode, Config.enter, complete, survey.entry, survey.entered,
        Instr.map]
    change ((complete .threadPool size).code (.client c) (.call survey.method)
      (state.pc (.client c)) state.data).bind _ = _
    rw [hcode]
    rfl
  have hallowed : Annotation.Respects NoShutdown state
      (PoolAction.call (.client c) survey.method) :=
    ⟨fun heq => survey.quiet.1 (TaskManager.Input.call.inj heq),
      fun heq => survey.quiet.2 (TaskManager.Input.call.inj heq)⟩
  have hcalledUsed : (complete .threadPool size).Used called :=
    Reaches.tail _ hused hallowed hcall
  have hcalled : called.pc (.client c) = .client (some (survey.embed .enter)) :=
    Function.update_self ..
  have hawake : Tid.client c ∉ (called.monitor .pool).waiters := by
    intro hasleep
    have hwaits := hcalledUsed.locked.waits _ _ hasleep
    rw [hcalled] at hwaits
    cases (survey.waitsAt _).symm.trans hwaits
  obtain ⟨begun, hlock, hdata, hmonitor, hpc⟩ :=
    exists_step (complete .threadPool size) hcalled (q := .test) rfl ⟨hfree, hawake⟩
  have hgo : Annotation.Respects NoShutdown called (PoolAction.go (.client c)) :=
    ⟨by rintro ⟨⟩, by rintro ⟨⟩⟩
  refine ⟨begun, ⟨called, hcall, hlock⟩, Reaches.tail _ hcalledUsed hgo hlock,
    by rw [hpc, Function.update_self], fun m => ?_⟩
  have htask : begun.data = state.data := hdata
  have howner : (begun.monitor (.manager m)).owner = (state.monitor (.manager m)).owner := by
    rw [hmonitor]
    rfl
  have hworker : begun.pc (.worker m) = state.pc (.worker m) := by
    rw [hpc]
    simp [called, Program.advance]
  rw [Handed, Handed, CallsBack, CallsBack, htask, howner, hworker]
  exact ⟨Iff.rfl, Iff.rfl⟩

/-- A call that comes to no task which waits for the pool can return. -/
theorem exists_returns (survey : Survey) (hsize : 0 < size)
    (hclear : Clear state (List.range size)) :
    ∃ result, (complete .threadPool size).Returns c survey state result ∧
      ((∃ m < size, Handed state m) → result = survey.onBusy) := by
  obtain ⟨begun, hbegins, hbegunUsed, hbegun, hsame⟩ := exists_begun hused houtside hfree survey
  have howner : (begun.monitor .pool).owner = some (.client c) :=
    (owner_iff hbegunUsed hbegun).mpr List.mem_cons_self
  have hnext : (ThreadPool.check survey.onEmpty survey.onBusy survey.atEnd .test begun.data).next =
        .inl (.next survey.atEnd (List.range size)) ∧
      (ThreadPool.check survey.onEmpty survey.onBusy survey.atEnd .test begun.data).op = .skip := by
    have hsome : (List.range size).isEmpty = false := by simpa using hsize.ne'
    simp [ThreadPool.check, hbegunUsed.taskList, hsome]
  obtain ⟨next, hstep, hdata, hmonitor, hpc⟩ :=
    exists_step (complete .threadPool size) hbegun hnext.1 (by rw [hnext.2]; trivial)
  rw [hnext.2] at hmonitor
  have hinside : Inside c begun (PoolAction.go (.client c)) :=
    ⟨howner, by rintro ⟨⟩, by rintro ⟨⟩⟩
  have hfirst : Reaches (complete .threadPool size).program.step (Inside c) begun next :=
    Reaches.refl.tail _ hinside hstep
  have hlooped : ∀ m, (Handed next m ↔ Handed state m) ∧
      (CallsBack next m ↔ CallsBack state m) := by
    intro m
    have hworker : next.pc (.worker m) = begun.pc (.worker m) := by
      rw [hpc]
      simp
    rw [← (hsame m).1, ← (hsame m).2, Handed, Handed, CallsBack, CallsBack, hdata, hmonitor,
      hworker]
    exact ⟨Iff.rfl, Iff.rfl⟩
  obtain ⟨result, target, hrun, htarget, hresult⟩ :=
    exists_result_of_next (hbegunUsed.inside hfirst) (by rw [hmonitor]; exact howner)
      (by rw [hpc, Function.update_self]) List.nodup_range
      (clear_congr (fun m _ => hlooped m) hclear)
  refine ⟨result, ⟨begun, target, hbegins, hfirst.trans hrun, htarget⟩, ?_⟩
  rintro ⟨m, hm, hhanded⟩
  exact hresult ⟨m, List.mem_range.mpr hm, (hlooped m).1.mpr hhanded⟩

/-- What a call can return if the managers of `front` have no task nobody has begun with, and
the task of the first one behind these waits for the pool. -/
theorem result_of_returns {front behind : List ManagerId} (hsize : 0 < size)
    (hmanagers : List.range size = front ++ behind) (hfront : ∀ m ∈ front, ¬ Handed state m)
    (hbehind : ∀ k ∈ behind.head?, CallsBack state k) {result : Bool}
    (h : (complete .threadPool size).Returns c survey state result) :
    behind = [] ∧ result = survey.atEnd := by
  obtain ⟨begun, hbegins, hbegunUsed, hbegun, hsame⟩ := exists_begun hused houtside hfree survey
  obtain ⟨other, target, hother, hrun, hresult⟩ := h
  obtain rfl : other = begun := by
    obtain ⟨called, hcall, hlock⟩ := hbegins
    obtain ⟨called', hcall', hlock'⟩ := hother
    cases hcall.symm.trans hcall'
    exact Option.some.inj (hlock'.symm.trans hlock)
  exact result_of_before hbegunUsed hsize hmanagers
    (fun m hm hhanded => hfront m hm ((hsame m).1.mp hhanded))
    (fun k hk => (hsame k).2.mpr (hbehind k hk)) hbegun hrun hresult

end Whole

end Survey

end ThreadPools.Posix
