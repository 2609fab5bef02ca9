/-
# What an idle pool has done

`is_idle` looks at the managers one after another, inside the monitor which
every other method and the dispatcher have to enter before they hand a task to a
manager. A manager found without a task stays without one until the call leaves,
so at the end nothing is in the queue or in a slot. Tasks are deleted without
having been run only behind `terminate`, and then the task list is empty or a
manager has been stopped, which `is_idle` would have noticed.
-/

import ThreadPools.Posix.Work

namespace ThreadPools.Posix

open ThreadPools.Concurrency

/-! ## Tasks that have not been run -/

/-- Tasks are deleted without having been run only when the pool is shut down. -/
structure Pool.Retains (size : Nat) (pool : Pool) : Prop where
  rejected : pool.log.rejected ≠ [] → pool.taskList = []
  dropped : pool.log.dropped ≠ [] → pool.taskList = []
  discarded : pool.log.discarded ≠ [] → ∃ m < size, (pool.managers m).go = false

theorem Life.go_apply {life : Life} {m : ManagerId} (h : (life.manager m).go = false)
    (effect : Effect) : ((life.apply effect).manager m).go = false := by
  cases effect with
  | stopManager i | joinManager i =>
      by_cases hi : m = i
      · subst hi
        simp [apply, update, h]
      · simp [apply, update, hi, h]
  | _ => exact h

namespace Pool

theorem go_apply {pool : Pool} {m : ManagerId} (h : (pool.managers m).go = false)
    (effect : Effect) : ((pool.apply effect).managers m).go = false := by
  show ((pool.apply effect).life.manager m).go = false
  rw [life_apply]
  exact Life.go_apply h effect

/-- Nothing is lost by an effect that deletes nothing unrun. -/
theorem Retains.apply {size : Nat} {pool : Pool} (h : pool.Retains size) {effect : Effect}
    (hrejected : pool.taskList ≠ [] →
      (pool.custody.apply effect).rejected = pool.log.rejected)
    (hdropped : pool.taskList ≠ [] → (pool.custody.apply effect).dropped = pool.log.dropped)
    (hdiscarded : (∀ m < size, (pool.managers m).go = true) →
      (pool.custody.apply effect).discarded = pool.log.discarded) :
    (pool.apply effect).Retains size := by
  have hcustody := pool.custody_apply effect
  refine ⟨fun hne => ?_, fun hne => ?_, fun hne => ?_⟩
  · refine taskList_apply (by_contra fun hlist => ?_) effect
    have hsame : (pool.apply effect).log.rejected = pool.log.rejected :=
      (congrArg Custody.rejected hcustody).trans (hrejected hlist)
    exact hlist (h.rejected (hsame ▸ hne))
  · refine taskList_apply (by_contra fun hlist => ?_) effect
    have hsame : (pool.apply effect).log.dropped = pool.log.dropped :=
      (congrArg Custody.dropped hcustody).trans (hdropped hlist)
    exact hlist (h.dropped (hsame ▸ hne))
  · by_contra hnone
    simp only [not_exists, not_and, Bool.not_eq_false] at hnone
    have hgo : ∀ m < size, (pool.managers m).go = true := fun m hm => by
      by_contra hstopped
      exact absurd (go_apply (Bool.not_eq_true _ ▸ hstopped) effect)
        (Bool.eq_false_iff.not.mpr (not_not.mpr (hnone m hm)))
    have hsame : (pool.apply effect).log.discarded = pool.log.discarded :=
      (congrArg Custody.discarded hcustody).trans (hdiscarded hgo)
    obtain ⟨m, hm, hstopped⟩ := h.discarded (hsame ▸ hne)
    exact absurd (hgo m hm) (by simp [hstopped])

end Pool

/-! ## What a check has seen -/

/-- No manager on the list has a task. -/
def Pool.Vacant (pool : Pool) : Prop :=
  pool.taskList ≠ [] ∧ ∀ m ∈ pool.taskList, (pool.managers m).task = none

/-- The managers that have been inspected have no task, and when the result is
`idle` none has. -/
def ThreadPool.CheckPoint.Checked (idle : Bool) (pool : Pool) : CheckPoint → Prop
  | .probe m rest _ =>
      ∃ seen, pool.taskList = seen ++ m :: rest ∧ ∀ i ∈ seen, (pool.managers i).task = none
  | .leave result => result = idle → pool.Vacant
  | _ => True

def QueuedThreadPool.CheckPoint.Checked (idle : Bool) (pool : Pool) : CheckPoint → Prop
  | .base p => pool.queue = [] ∧ p.Checked true pool
  | .leave result => result = idle → pool.queue = [] ∧ pool.Vacant
  | _ => True

/-- What a call has seen of the managers. -/
def Call.Checked (pool : Pool) : Call → Prop
  | .isIdle p => p.Checked true pool
  | .isBusy p => p.Checked false pool
  | .queuedIsIdle p => p.Checked true pool
  | .queuedIsBusy p => p.Checked false pool
  | _ => True

namespace ThreadPool

theorem CheckPoint.checked_next {atEnd : Bool} {seen rest : List ManagerId} {pool : Pool}
    (hlist : pool.taskList = seen ++ rest) (hne : pool.taskList ≠ [])
    (hseen : ∀ i ∈ seen, (pool.managers i).task = none) :
    (CheckPoint.next atEnd rest).Checked atEnd pool := by
  cases rest with
  | nil =>
      refine fun _ => ⟨hne, fun i hi => hseen i ?_⟩
      rwa [hlist, List.append_nil] at hi
  | cons m rest => exact ⟨seen, hlist, hseen⟩

theorem check_checked {onEmpty onBusy atEnd : Bool} (hempty : onEmpty ≠ atEnd)
    (hbusy : onBusy ≠ atEnd) {p : CheckPoint} {pool : Pool} (h : p.Checked atEnd pool) :
    (check onEmpty onBusy atEnd p pool).Establishes (·.Checked atEnd pool)
      fun result => result = atEnd → pool.Vacant := by
  cases p with
  | enter => trivial
  | test =>
      simp only [check]
      split
      · exact fun heq => absurd heq hempty
      · next hne =>
          exact CheckPoint.checked_next (List.nil_append _).symm
            (fun hnil => hne (List.isEmpty_iff.mpr hnil)) (by rintro _ ⟨⟩)
  | probe m rest p =>
      cases p with
      | lock => exact h
      | body =>
          obtain ⟨seen, hlist, hseen⟩ := h
          show (if ((pool.managers m).task.isNone && (pool.managers m).isAlive) = true then
            CheckPoint.next atEnd rest else .leave onBusy).Checked atEnd pool
          split
          · next hidle =>
              rw [Bool.and_eq_true, Option.isNone_iff_eq_none] at hidle
              have hsplit : pool.taskList = (seen ++ [m]) ++ rest := by simp [hlist]
              refine CheckPoint.checked_next hsplit (by simp [hlist]) fun i hi => ?_
              rcases List.mem_append.mp hi with hi | hi
              · exact hseen i hi
              · cases List.mem_singleton.mp hi
                exact hidle.1
          · exact fun heq => absurd heq hbusy
  | leave result => exact h

end ThreadPool

theorem QueuedThreadPool.check_checked {result : Bool → Bool}
    (hresult : Function.Injective result) {p : CheckPoint} {pool : Pool}
    (h : p.Checked (result true) pool) :
    (check result p pool).Establishes (·.Checked (result true) pool) fun _ => True := by
  cases p with
  | enter => trivial
  | test =>
      simp only [check]
      split
      · next halive =>
          rw [Bool.and_eq_true, List.isEmpty_iff] at halive
          exact ⟨halive.2, trivial⟩
      · exact fun heq => absurd (hresult heq) (by rintro ⟨⟩)
  | base p =>
      have hbase : (ThreadPool.isIdle p pool).Establishes (·.Checked true pool)
          fun idle => idle = true → pool.Vacant :=
        ThreadPool.check_checked (by decide) (by decide) h.2
      exact hbase.call (fun q hq => ⟨h.1, hq⟩) fun idle hidle heq => ⟨h.1, hidle (hresult heq)⟩
  | leave => trivial

theorem Call.code_checked {call : Call} {pool : Pool} (h : call.Checked pool) :
    (call.code pool).Establishes (·.Checked ((call.code pool).after pool)) fun _ => True := by
  have hcheck : ∀ {Q R : Type} {embed : Q → Call} {body : Piece (Q ⊕ R)} {inside : Q → Prop}
      {behind : R → Prop}, body.effect = none → body.Establishes inside behind →
      (∀ q, inside q → (embed q).Checked pool) →
      (piece embed body).Establishes (·.Checked ((piece embed body).after pool))
        fun _ => True := by
    intro Q R embed body inside behind heffect hbody hinside
    have hafter : (piece embed body).after pool = pool := Piece.after_of_none heffect pool
    rw [hafter]
    exact hbody.call hinside fun _ _ => trivial
  have hother : ∀ {Q R : Type} {embed : Q → Call} {body : Piece (Q ⊕ R)},
      (∀ q next, (embed q).Checked next) →
      (piece embed body).Establishes (·.Checked ((piece embed body).after pool))
        fun _ => True := by
    intro Q R embed body hembed
    unfold Instr.Establishes piece
    rw [Instr.map_next]
    cases body.next with
    | inl q => exact hembed q _
    | inr => trivial
  cases call with
  | isIdle p | isBusy p =>
      exact hcheck (ThreadPool.check_effect _ _ _ p pool)
        (ThreadPool.check_checked (by decide) (by decide) h) fun _ hq => hq
  | queuedIsIdle p =>
      exact hcheck (QueuedThreadPool.check_effect _ p pool)
        (QueuedThreadPool.check_checked Function.injective_id h) fun _ hq => hq
  | queuedIsBusy p =>
      have hnot : Function.Injective not := fun _ _ => Bool.not_inj
      exact hcheck (QueuedThreadPool.check_effect _ p pool)
        (QueuedThreadPool.check_checked hnot h) fun _ hq => hq
  | _ => exact hother fun _ _ => trivial

/-- The call is about to leave its first monitor with the result that the pool is
idle. -/
def Call.reportsIdle : Call → Bool
  | .isIdle (.leave true) => true
  | .queuedIsIdle (.leave true) => true
  | _ => false

/-! ## What the others leave alone -/

/-- No task comes into the queue or into a slot. -/
structure Pool.KeepsVacancy (pool next : Pool) : Prop where
  taskList : next.taskList = pool.taskList
  slot : ∀ m, (pool.managers m).task = none → (next.managers m).task = none
  queue : pool.queue = [] → next.queue = []

namespace Pool.KeepsVacancy

variable {pool next : Pool}

theorem vacant (h : pool.KeepsVacancy next) (hvacant : pool.Vacant) : next.Vacant := by
  refine ⟨h.taskList ▸ hvacant.1, fun m hm => h.slot m (hvacant.2 m ?_)⟩
  rwa [h.taskList] at hm

theorem checked_base (h : pool.KeepsVacancy next) {idle : Bool} {p : ThreadPool.CheckPoint}
    (hp : p.Checked idle pool) : p.Checked idle next := by
  cases p with
  | enter | test => trivial
  | probe m rest p =>
      obtain ⟨seen, hlist, hseen⟩ := hp
      exact ⟨seen, h.taskList.trans hlist, fun i hi => h.slot i (hseen i hi)⟩
  | leave result => exact fun heq => h.vacant (hp heq)

/-- Inside the first monitor a call has to fear nobody. -/
theorem checked (call : Call) (hcall : call.Checked pool)
    (h : call.kind.entrance ∈ call.held → pool.KeepsVacancy next) : call.Checked next := by
  have hbase : ∀ {idle : Bool} {p : ThreadPool.CheckPoint}, p.Checked idle pool →
      (.pool ∈ p.held → pool.KeepsVacancy next) → p.Checked idle next := by
    intro idle p hp h
    cases p with
    | enter => trivial
    | test => trivial
    | _ => exact (h (by simp [ThreadPool.CheckPoint.held])).checked_base hp
  have hqueued : ∀ {idle : Bool} {p : QueuedThreadPool.CheckPoint}, p.Checked idle pool →
      (.dispatcher ∈ p.held → pool.KeepsVacancy next) → p.Checked idle next := by
    intro idle p hp h
    cases p with
    | enter => trivial
    | test => trivial
    | base p =>
        have hkept := h (by simp [QueuedThreadPool.CheckPoint.held])
        exact ⟨hkept.queue hp.1, hkept.checked_base hp.2⟩
    | leave result =>
        have hkept := h (by simp [QueuedThreadPool.CheckPoint.held])
        exact fun heq => ⟨hkept.queue (hp heq).1, hkept.vacant (hp heq).2⟩
  cases call with
  | isIdle p | isBusy p => exact hbase hcall h
  | queuedIsIdle p | queuedIsBusy p => exact hqueued hcall h
  | _ => trivial

end Pool.KeepsVacancy

namespace Config

variable {cfg : Config} {pool : Pool} {t other : Tid} {input : Input} {p next : Point}
  {piece : Piece Point} {e : Effect}

/-- Tasks come into the queue and into the slots only inside the first monitor. -/
theorem Handles.entrance (hhandles : cfg.Handles pool t p next (some e))
    (h : (∃ task m, e = .place task m) ∨ ∃ task, e = .push task) :
    cfg.kind.entrance ∈ p.held t := by
  cases hhandles with
  | silent _ hsilent =>
      rcases h with ⟨task, m, rfl⟩ | ⟨task, rfl⟩
      · exact absurd (hsilent _ rfl) Effect.not_silent_place
      · exact absurd (hsilent _ rfl) Effect.not_silent_push
  | push _ _ hkind _ hheld =>
      rw [hkind]
      exact hheld
  | place m _ _ hkind _ hpool =>
      rw [hkind]
      exact hpool
  | dispatch task m rest _ hkind _ hp =>
      rw [hkind, hp]
      simp [Kind.entrance, Point.held, QueuedThreadPool.RunPoint.held]
  | _ => rcases h with ⟨task, m, h⟩ | ⟨task, h⟩ <;> cases h

/-- Outside of the first monitor nobody hands out tasks or managers. -/
theorem Moves.keepsVacancy (hmoves : cfg.Moves pool t input p piece)
    (hhandles : cfg.Handles pool t p piece.next piece.effect)
    (hfits : p.Fits cfg.kind mayExecute t)
    (hcontrol : p.Control cfg.size t pool.life) (heffect : piece.effect = some e)
    (houtside : cfg.kind.entrance ∉ p.held t) : pool.KeepsVacancy (pool.apply e) := by
  rw [heffect] at hhandles
  refine ⟨?_, fun m hslot => ?_, fun hqueue => ?_⟩
  · show (pool.apply e).life.taskList = pool.life.taskList
    rw [Pool.life_apply]
    rcases hmoves.shuts hcontrol heffect with hsame | ⟨call, ht, rfl, hshuts⟩
    · rw [hsame]
    · have hkind : call.kind = cfg.kind := ((fits_calling ht).mp hfits call rfl).1
      have hcall : cfg.kind.entrance ∉ call.held := fun hmem => houtside <| by
        rw [Tid.held_calling ht]
        exact List.mem_append_left _ hmem
      cases hshuts with
      | clear hpool hdispatcher =>
          cases hplain : cfg.kind with
          | threadPool => exact absurd hpool (by rwa [hplain] at hcall)
          | queuedThreadPool =>
              exact absurd (hdispatcher (hkind.trans hplain)) (by rwa [hplain] at hcall)
      | nothing _ hsame => rw [hsame]
      | _ => rfl
  · rw [Pool.task_apply]
    exact Custody.slot_apply_none hslot fun task heq =>
      houtside (hhandles.entrance (.inl ⟨task, m, heq⟩))
  · show (pool.apply e).custody.queue = []
    rw [Pool.custody_apply]
    exact Custody.queue_apply_nil hqueue fun task heq =>
      houtside (hhandles.entrance (.inr ⟨task, heq⟩))

variable (cfg)

/-- What the calls of `is_idle` and `is_busy` have seen. -/
def checking : Annotation Tid MonitorId Pool Point where
  assertion t p pool := ∀ call, p = t.calling (some call) → call.Checked pool
  resource _ _ := True
  invariant pool := pool.Retains cfg.size

variable {cfg}

theorem Handles.retains (hhandles : cfg.Handles pool t p next (some e))
    (h : pool.Retains cfg.size) : (pool.apply e).Retains cfg.size := by
  cases hhandles with
  | silent _ hsilent =>
      obtain ⟨hcustody, -⟩ := hsilent e rfl
      refine h.apply ?_ ?_ ?_ <;> intro _ <;> rw [hcustody] <;> rfl
  | reject _ _ hempty => exact h.apply (fun hne => absurd hempty hne) (fun _ => rfl) fun _ => rfl
  | discard m _ hm _ hgo =>
      refine h.apply (fun _ => rfl) (fun _ => rfl) fun hall => ?_
      exact absurd (hgo.symm.trans (hall m hm)) nofun
  | emptyQueue _ _ hclosed =>
      exact h.apply (fun _ => rfl) (fun hne => absurd hclosed.2 hne) fun _ => rfl
  | _ => exact h.apply (fun _ => rfl) (fun _ => rfl) fun _ => rfl

theorem Moves.checked (hmoves : cfg.Moves pool t input p piece)
    (h : ∀ call, p = t.calling (some call) → call.Checked pool) {next : Call}
    (hnext : piece.next = t.calling (some next)) : next.Checked (piece.after pool) := by
  rcases hmoves.next_calling hnext with ⟨method, -, -, hentry⟩ | ⟨prior, hp, hcode, hafter⟩
  · cases hkind : cfg.kind <;> rw [hkind] at hentry <;> cases method <;> cases hentry <;>
      trivial
  · have hchecked := Call.code_checked (h prior hp)
    unfold Instr.Establishes at hchecked
    rw [hcode] at hchecked
    rw [hafter]
    exact hchecked

theorem checking_valid :
    Annotation.Valid cfg.program cfg.accounting cfg.checking SubmitsFresh where
  assertion {t input p pool piece} hbefore _ := by
    rw [dataAfter_eq]
    exact fun next hnext =>
      (code_moves hbefore.code).checked hbefore.assertion.2 hnext
  release _ _ _ _ := trivial
  invariant {t input p pool piece e} hbefore husage heffect := by
    obtain ⟨⟨⟨⟨hfits, hcontrol⟩, -⟩, -⟩, -⟩ := hbefore.assertion
    obtain ⟨⟨⟨⟨-, hwell⟩, -⟩, -⟩, hretains⟩ := hbefore.invariant
    have hhandles := (code_moves hbefore.code).handles hfits hcontrol hwell husage
    rw [heffect] at hhandles
    exact hhandles.retains hretains
  frame {t input p pool piece e other place} hbefore husage heffect hne hother hdisjoint _ := by
    obtain ⟨⟨⟨⟨hfits, hcontrol⟩, -⟩, -⟩, -⟩ := hbefore.assertion
    obtain ⟨⟨⟨⟨-, hwell⟩, -⟩, -⟩, -⟩ := hbefore.invariant
    obtain ⟨⟨⟨⟨hplace, -⟩, -⟩, -⟩, hchecked⟩ := hother
    have hmoves := code_moves hbefore.code
    have hhandles := hmoves.handles hfits hcontrol hwell husage
    rintro call rfl
    refine Pool.KeepsVacancy.checked call (hchecked call rfl) fun hentrance => ?_
    refine hmoves.keepsVacancy hhandles hfits hcontrol heffect fun hmem => ?_
    have hcaller := hplace.ne_dispatcher
    rw [((fits_calling hcaller).mp hplace call rfl).1] at hentrance
    refine hdisjoint _ hmem ?_
    show cfg.kind.entrance ∈ Point.held other (other.calling (some call))
    rw [Tid.held_calling hcaller]
    exact List.mem_append_left _ hentrance
  frame_resource _ _ _ _ _ _ _ := trivial
  raise {t input p pool piece} m hcode _ hassertion hop hheld := by
    obtain ⟨⟨⟨⟨hfits, -⟩, havoids, -⟩, -⟩, hchecked⟩ := hassertion
    have hsame : cfg.program.handler p = p :=
      handler_eq_of_avoiding hcode hfits havoids hop hheld
    exact ⟨hsame.symm ▸ hchecked, fun _ _ _ => trivial⟩

theorem checking_initial : cfg.checking.Holds cfg.initial where
  assertion t call hcall := absurd hcall (cfg.initialPoint_ne_calling t call)
  resource _ _ := trivial
  invariant := ⟨fun h => absurd rfl h, fun h => absurd rfl h, fun h => absurd rfl h⟩

variable {guard : PoolState → PoolAction → Prop} {state : PoolState}

theorem checking_of_reaches (hguard : cfg.Disciplined guard)
    (hfresh : ∀ state action, guard state action →
      Annotation.Respects SubmitsFresh state action)
    (hrun : Reaches cfg.program.step guard cfg.initial state) :
    cfg.checking.Holds state :=
  checking_valid.holds cfg.wellLocked (fun _ _ _ h => hfresh _ _ h) cfg.locked_initial
    (fun _ hprior => accounting_of_reaches hguard hfresh hprior) checking_initial hrun

/-- In an idle pool every task that has been taken has been run and deleted. -/
theorem finished_of_vacant (hguard : cfg.Disciplined guard)
    (hfresh : ∀ state action, guard state action →
      Annotation.Respects SubmitsFresh state action)
    (hrun : Reaches cfg.program.step guard cfg.initial state)
    (hvacant : state.data.Vacant) (hintact : state.data.life.Intact)
    (hqueue : cfg.kind = .queuedThreadPool → state.data.queue = []) {x : Runnable}
    (htaken : state.data.custody.taken cfg.kind x = 1) :
    x ∈ state.data.log.finished ∧ x ∈ state.data.log.deleted := by
  have hdiscipline := discipline_of_reaches hguard hrun
  have hbalanced : state.data.custody.Balanced cfg.kind cfg.size :=
    (ledger_of_reaches hguard hfresh hrun).invariant
  have hretains : state.data.Retains cfg.size :=
    (checking_of_reaches hguard hfresh hrun).invariant
  have hwell : state.data.life.WellFormed cfg.size := hdiscipline.invariant.1.2
  have hlist : state.data.taskList = List.range cfg.size :=
    hwell.list.resolve_right hvacant.1
  -- nothing has been lost
  have hrejected : state.data.custody.rejected = [] :=
    by_contra fun hne => hvacant.1 (hretains.rejected hne)
  have hdropped : state.data.custody.dropped = [] :=
    by_contra fun hne => hvacant.1 (hretains.dropped hne)
  have hdiscarded : state.data.custody.discarded = [] := by
    by_contra hne
    obtain ⟨m, hm, hstopped⟩ := hretains.discarded hne
    have hmem : m ∈ state.data.taskList := hlist ▸ List.mem_range.mpr hm
    exact absurd (hstopped.symm.trans (hintact m hmem).1) nofun
  -- and nothing is on its way
  have hslots : state.data.custody.slots cfg.size x = 0 := by
    refine List.countP_eq_zero.mpr fun m hm => ?_
    have hnone := hvacant.2 m (hlist ▸ hm)
    simp [hnone]
  have hplaced : state.data.custody.placed.count (some x) = 1 := by
    cases hkind : cfg.kind with
    | threadPool =>
        rw [hkind] at htaken
        simpa [Custody.taken, Custody.accepted, hrejected] using htaken
    | queuedThreadPool =>
        obtain ⟨q, hq⟩ := dispatcher_point (shape_of_reaches_any hrun)
        have hdispatches :=
          ((dispatching_of_reaches hrun).assertion .dispatcher hkind).dispatches q hq
        have hwaiting : q.waiting state.data.custody.queue = [] := by
          have hnil : state.data.custody.queue = [] := hqueue hkind
          rw [hnil]
          cases q <;> rfl
        have horder := hdispatches.order
        rw [hdropped, hwaiting, List.append_nil, List.append_nil] at horder
        rw [hkind] at htaken
        simpa [Custody.taken, Custody.accepted, hrejected, horder] using htaken
  have hbooks := hbalanced.placed x
  have hdeleted := hbalanced.deleted x
  have hfinished : 0 < state.data.custody.finished.count x := by
    rw [hdiscarded, List.count_nil] at hbooks
    omega
  have hgone : 0 < state.data.custody.deleted.count x := by omega
  exact ⟨List.count_pos_iff.mp hfinished, List.count_pos_iff.mp hgone⟩

/-- What a call knows that is about to report an idle pool. -/
theorem vacant_of_reportsIdle (hguard : cfg.Disciplined guard)
    (hfresh : ∀ state action, guard state action →
      Annotation.Respects SubmitsFresh state action)
    (hrun : Reaches cfg.program.step guard cfg.initial state) {t : Tid} {call : Call}
    (ht : t ≠ .dispatcher) (hcall : state.pc t = t.calling (some call))
    (hreports : call.reportsIdle = true) :
    state.data.Vacant ∧ state.data.life.Intact ∧
      (cfg.kind = .queuedThreadPool → state.data.queue = []) := by
  have hdiscipline := (discipline_of_reaches hguard hrun).assertion t
  rw [hcall] at hdiscipline
  obtain ⟨⟨hfits, hcontrol⟩, -⟩ := hdiscipline
  have hkind := ((fits_calling ht).mp hfits call rfl).1
  have hknown := ((Tid.control_calling ht).mp hcontrol).1 call rfl
  have hchecked := (checking_of_reaches hguard hfresh hrun).assertion t call hcall
  unfold Call.reportsIdle at hreports
  split at hreports
  · exact ⟨hchecked rfl, hknown, fun hqueued => absurd (hkind.trans hqueued) nofun⟩
  · exact ⟨(hchecked rfl).2, hknown.1, fun _ => (hchecked rfl).1⟩
  · cases hreports

/-- A call that has returned has handed its task over. -/
theorem taken_of_returned (hguard : cfg.Disciplined guard)
    (hfresh : ∀ state action, guard state action →
      Annotation.Respects SubmitsFresh state action)
    (hrun : Reaches cfg.program.step guard cfg.initial state) {x : Runnable} {t : Tid}
    (hsubmitted : (x, t) ∈ state.data.log.submitted)
    (hreturned : ∀ call, state.pc t = t.calling (some call) → call.method ≠ .execute (some x)) :
    state.data.custody.taken cfg.kind x = 1 := by
  have hcarries : state.data.custody.Carries cfg.kind t (state.pc t).carried :=
    (ledger_of_reaches hguard hfresh hrun).assertion t
  rw [hcarries.taken x hsubmitted, if_neg]
  intro hcarried
  obtain ⟨call, hcall, hmethod⟩ := Point.calling_of_carried
    ((discipline_of_reaches hguard hrun).assertion t).1.1 hcarried
  exact hreturned call hcall hmethod

/-- `is_idle` is a sound completion test: when it returns `true`, at the moment it
leaves its first monitor, every task whose `execute` had returned in an `earlier`
state, such as the one in which `is_idle` was entered, has been run to its end and
deleted. -/
theorem isIdle_sound
    (hguard : ∀ state action, guard state action → Contract state action)
    {earlier next : PoolState} (hprior : Reaches cfg.program.step guard cfg.initial earlier)
    {x : Runnable} {t : Tid} (hsubmitted : (x, t) ∈ earlier.data.log.submitted)
    (hreturned : ∀ call, earlier.pc t = t.calling (some call) →
      call.method ≠ .execute (some x))
    (hrun : Reaches cfg.program.step guard earlier state)
    {caller : Tid} {call : Call} (hcaller : caller ≠ .dispatcher)
    (hcall : state.pc caller = caller.calling (some call)) (hreports : call.reportsIdle = true)
    {input : Input} {choice : Nat}
    (hstep : cfg.program.step state (.run caller input choice) = some next) :
    x ∈ next.data.log.finished ∧ x ∈ next.data.log.deleted := by
  have hdisciplined : cfg.Disciplined guard := .of_contract hguard
  have hfresh : ∀ state action, guard state action →
      Annotation.Respects SubmitsFresh state action :=
    fun state action h => (hguard state action h).2
  have hwhole := hprior.trans hrun
  have htaken : state.data.custody.taken cfg.kind x = 1 := by
    have hbefore := taken_of_returned hdisciplined hfresh hprior hsubmitted hreturned
    have hle := (custody_extends hrun).taken x
    have hone := (ledger_of_reaches hdisciplined hfresh hwhole).invariant.taken_le_one x
    omega
  obtain ⟨hvacant, hintact, hqueue⟩ :=
    vacant_of_reportsIdle hdisciplined hfresh hwhole hcaller hcall hreports
  obtain ⟨hfinished, hdeleted⟩ :=
    finished_of_vacant hdisciplined hfresh hwhole hvacant hintact hqueue htaken
  -- leaving the monitor takes nothing back
  have hextends := custody_step hstep
  exact ⟨hextends.finished.subset hfinished, hextends.deleted.subset hdeleted⟩

/-- A client finds the pool idle behind the only task. -/
theorem isIdle_sound_once : ∃ next : PoolState,
    7 ∈ next.data.log.finished ∧ 7 ∈ next.data.log.deleted := by
  let cfg := Config.complete .queuedThreadPool 1
  let leave : Point := .client (some (.queuedIsIdle (.leave true)))
  obtain ⟨state, hrun, hobserved⟩ : ∃ state : PoolState,
      Reaches cfg.program.step Contract cfg.initial state ∧
        (state.data.log.submitted, state.pc (.client 0), state.pc (.client 1),
          (cfg.program.step state (PoolAction.go (.client 1))).isSome) =
        ([(7, .client 0)], .client none, leave, true) :=
    Reaches.of_observed (fun state action => decide (Contract state action))
      (PoolAction.call (.client 0) (.execute (some 7)) :: PoolAction.steps (.client 0) 2 ++
        PoolAction.steps .dispatcher 12 ++ PoolAction.steps (.worker 0) 4 ++
        [PoolAction.finish 0, PoolAction.call (.client 1) .isIdle] ++
        PoolAction.steps (.worker 0) 1 ++ PoolAction.steps (.client 1) 7)
      (fun _ _ => of_decide_eq_true) (by decide +kernel)
  simp only [Prod.mk.injEq] at hobserved
  obtain ⟨hsubmitted, hreturned, hcall, hstep⟩ := hobserved
  obtain ⟨next, hnext⟩ := Option.isSome_iff_exists.mp hstep
  have hcaller : Tid.client 1 ≠ .dispatcher := nofun
  refine ⟨next, isIdle_sound (fun _ _ h => h) hrun (t := .client 0) ?_ ?_ .refl hcaller hcall
    rfl hnext⟩
  · simp [hsubmitted]
  · intro call hpoint
    cases hreturned.symm.trans hpoint

end Config

end ThreadPools.Posix
