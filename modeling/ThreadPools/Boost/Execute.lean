/-
# The loop of `execute` in a Boost pool

`ThreadPool::execute` leaves its loop only when some `set_task` has taken the task. A thread
that has recorded its end never becomes alive again, and an empty pool has no managers at
all: then nothing is found idle, and the call goes around its loop with a task that nobody
deletes.
-/

import ThreadPools.Boost.Custody
import ThreadPools.Boost.Release

namespace ThreadPools.Boost.Pool

open ThreadPools.Concurrency

variable {size : Nat} {state next final : State} {action : Action} {t u : Tid} {m : ManagerId}
  {effect : Effect} {p q : Point} {x : Runnable} {guard : State → Action → Prop}

/-! ## Tasks that nobody has taken -/

/-- A task is carried by one call, and only accepted tasks get into slots and are deleted. -/
structure Traced (state : State) : Prop where
  slot : ∀ m x, (state.memory.managers m).task = some x → x ∈ state.memory.log.accepted
  deleted : ∀ x ∈ state.memory.log.deleted, x ∈ state.memory.log.accepted
  accepted : ∀ x ∈ state.memory.log.accepted, x ∈ state.memory.log.submitted
  carried : ∀ t x, (state.pc t).carried = some x →
    x ∈ state.memory.log.submitted ∧ x ∉ state.memory.log.accepted
  carrier : ∀ t u x, (state.pc t).carried = some x → (state.pc u).carried = some x → t = u

/-- What a step does to the tasks: it accepts only what its thread carries, deletes only what is in
a slot, and its thread carries nothing but its task or a new one. -/
structure Moves (state : State) (t : Tid) (effect : Effect) (q : Point) : Prop where
  slot : ∀ m x, ((state.memory.apply effect).managers m).task = some x →
    (state.memory.managers m).task = some x ∨ x ∈ (state.memory.apply effect).log.accepted
  deleted : ∀ x ∈ (state.memory.apply effect).log.deleted,
    x ∈ state.memory.log.deleted ∨ ∃ m, (state.memory.managers m).task = some x
  accepted : ∀ x ∈ (state.memory.apply effect).log.accepted,
    x ∈ state.memory.log.accepted ∨ (state.pc t).carried = some x
  grows : ∀ x ∈ state.memory.log.accepted, x ∈ (state.memory.apply effect).log.accepted
  submitted : ∀ x ∈ state.memory.log.submitted, x ∈ (state.memory.apply effect).log.submitted
  carried : ∀ x, q.carried = some x → x ∈ (state.memory.apply effect).log.submitted ∧
    x ∉ (state.memory.apply effect).log.accepted ∧
      ((state.pc t).carried = some x ∨ x ∉ state.memory.log.submitted)

theorem Traced.advance (h : Traced state) (hmoves : Moves state t effect q) :
    Traced (state.advance t ⟨effect, q⟩) where
  slot m x hx := by
    rcases hmoves.slot m x hx with hbefore | hnew
    · exact hmoves.grows x (h.slot m x hbefore)
    · exact hnew
  deleted x hx := by
    rcases hmoves.deleted x hx with hbefore | ⟨m, hslot⟩
    · exact hmoves.grows x (h.deleted x hbefore)
    · exact hmoves.grows x (h.slot m x hslot)
  accepted x hx := by
    rcases hmoves.accepted x hx with hbefore | hcarried
    · exact hmoves.submitted x (h.accepted x hbefore)
    · exact hmoves.submitted x (h.carried t x hcarried).1
  carried u x hx := by
    by_cases hu : u = t
    · subst hu
      rw [State.advance_pc_self] at hx
      obtain ⟨hsubmitted, haccepted, -⟩ := hmoves.carried x hx
      exact ⟨hsubmitted, haccepted⟩
    · rw [State.advance_pc_of_ne _ hu] at hx
      obtain ⟨hsubmitted, haccepted⟩ := h.carried u x hx
      refine ⟨hmoves.submitted x hsubmitted, fun hmem => ?_⟩
      rcases hmoves.accepted x hmem with hbefore | hcarried
      · exact haccepted hbefore
      · exact hu (h.carrier u t x hx hcarried)
  carrier := by
    -- nobody else carries what the moving thread carries
    have hself : ∀ u x, u ≠ t → q.carried = some x → (state.pc u).carried ≠ some x := by
      intro u x hu hq hother
      obtain ⟨-, -, hbefore | hnew⟩ := hmoves.carried x hq
      · exact hu (h.carrier u t x hother hbefore)
      · exact hnew (h.carried u x hother).1
    intro u v x hu hv
    by_cases hut : u = t <;> by_cases hvt : v = t
    · rw [hut, hvt]
    · rw [hut, State.advance_pc_self] at hu
      rw [State.advance_pc_of_ne _ hvt] at hv
      exact absurd hv (hself v x hvt hu)
    · rw [hvt, State.advance_pc_self] at hv
      rw [State.advance_pc_of_ne _ hut] at hu
      exact absurd hu (hself u x hut hv)
    · rw [State.advance_pc_of_ne _ hut] at hu
      rw [State.advance_pc_of_ne _ hvt] at hv
      exact h.carrier u v x hu hv

/-- A step that moves no task. -/
theorem Traced.moves_silent (h : Traced state) (hsilent : effect.Silent)
    (hcarried : ∀ x, q.carried = some x → (state.pc t).carried = some x) :
    Moves state t effect q := by
  obtain ⟨hsubmitted, haccepted, -, hdeleted⟩ := Memory.log_apply_silent hsilent state.memory
  refine ⟨?_, ?_, ?_, ?_, ?_, ?_⟩
  · intro m x hx
    rw [Memory.task_apply_silent hsilent] at hx
    exact .inl hx
  · intro x hx
    exact .inl (hdeleted ▸ hx)
  · intro x hx
    exact .inl (haccepted ▸ hx)
  · intro x hx
    exact haccepted ▸ hx
  · intro x hx
    exact hsubmitted ▸ hx
  · intro x hx
    have hbefore := hcarried x hx
    obtain ⟨hin, hout⟩ := h.carried t x hbefore
    exact ⟨hsubmitted ▸ hin, haccepted ▸ hout, .inl hbefore⟩

/-- A worker outside of its task. -/
theorem Traced.moves_work (h : Traced state) {p q : TaskManager.RunPoint Call}
    (hworks : TaskManager.Works m (state.memory.managers m).task p effect q) :
    Moves state (.worker m) effect (.worker q) := by
  have hnone : ∀ x, (Point.worker q).carried ≠ some x := by
    intro x hx
    rw [Point.carried, hworks.call_next] at hx
    cases hx
  cases hworks with
  | keep hplain | forget hplain =>
      exact h.moves_silent hplain.silent fun x hx => absurd hx (hnone x)
  | vacant | discard => exact h.moves_silent trivial fun x hx => absurd hx (hnone x)
  | begin =>
      exact ⟨fun _ _ => .inl, fun _ => .inl, fun _ => .inl, fun _ => id, fun _ => id,
        fun x hx => absurd hx (hnone x)⟩
  | delete looping =>
      refine ⟨fun _ _ => .inl, ?_, fun _ => .inl, fun _ => id, fun _ => id,
        fun x hx => absurd hx (hnone x)⟩
      intro x hx
      rcases List.mem_append.mp hx with hx | hx
      · exact .inl hx
      · exact .inr ⟨m, Option.mem_toList.mp hx⟩
  | clear looping =>
      refine ⟨?_, fun _ => .inl, fun _ => .inl, fun _ => id, fun _ => id,
        fun x hx => absurd hx (hnone x)⟩
      intro n x hx
      rcases state.memory.task_apply (.clear m) n with hsame | ⟨task, heffect, -⟩ | ⟨-, hcleared⟩
      · exact .inl (hsame ▸ hx)
      · cases heffect
      · cases hcleared.symm.trans hx

theorem Traced.step (h : Traced state) (hguarded : Guarded state)
    (hcontract : Contract state action) (hstep : Pool.step size state action = some next) :
    Traced next := by
  obtain ⟨⟨effect, q⟩, hpiece, rfl⟩ := step_eq_some hstep
  have hhandles := handles_of_piece (hguarded.fits action.thread) hpiece
  refine h.advance ?_
  generalize hp : state.pc action.thread = p at hhandles
  cases hhandles with
  | stay hplain => exact h.moves_silent hplain.silent fun x hx => hp ▸ hx
  | enter method hcalls =>
      have hquiet : ∀ call : Call, call.carried = none → ∀ x,
          (action.thread.calling (some call)).carried = some x →
            (state.pc action.thread).carried = some x := by
        intro call hcall x hx
        rw [Tid.carried_calling] at hx
        cases hcall.symm.trans hx
      cases method with
      | execute task =>
          rw [hcalls] at hcontract
          refine ⟨fun _ _ => .inl, fun _ => .inl, fun _ => .inl, fun _ => id,
            fun _ => List.mem_append_left _, ?_⟩
          intro x hx
          have htask : task = some x :=
            (Tid.carried_calling action.thread (some _)).symm.trans hx
          have hfresh := hcontract.2.1 x (htask ▸ rfl)
          exact ⟨List.mem_append_right _ (Option.mem_toList.mpr htask),
            fun haccepted => hfresh (h.accepted x haccepted), .inr hfresh⟩
      | isIdle | isBusy | terminate | idleNotification | destroy =>
          exact h.moves_silent trivial (hquiet _ rfl)
  | @call _ call piece hcode hsilent _ hcarried =>
      refine h.moves_silent hsilent ?_
      intro x hx
      have hbefore : (state.pc action.thread).carried = call.carried := by
        rw [hp, Tid.carried_calling]
        rfl
      rw [hbefore, ← hcarried]
      cases hnext : piece.next with
      | inl after =>
          rw [hnext] at hx
          exact (Tid.carried_calling action.thread (some after)).symm.trans hx
      | inr =>
          rw [hnext] at hx
          cases (Tid.carried_calling action.thread none).symm.trans hx
  | place task m =>
      have htask : (state.pc action.thread).carried = task := by
        rw [hp, Tid.carried_calling]
        rfl
      have haccepted : ∀ x ∈ task.toList, (state.pc action.thread).carried = some x := by
        intro x hx
        exact htask.trans (Option.mem_toList.mp hx)
      refine ⟨?_, fun _ => .inl, ?_, fun _ => List.mem_append_left _, fun _ => id, ?_⟩
      · intro n x hx
        rcases state.memory.task_apply (.place task m) n
          with hsame | ⟨other, heq, hplaced⟩ | ⟨heq, -⟩
        · exact .inl (hsame ▸ hx)
        · cases heq
          exact .inr (List.mem_append_right _ (Option.mem_toList.mpr (hplaced.symm.trans hx)))
        · cases heq
      · intro x hx
        exact (List.mem_append.mp hx).imp_right (haccepted x)
      · intro x hx
        cases (Tid.carried_calling action.thread _).symm.trans hx
  | work ht hworks =>
      rw [ht]
      exact h.moves_work hworks
  | finish ht => exact h.moves_silent trivial nofun

theorem traced_initial (size : Nat) : Traced (initial size) where
  slot := nofun
  deleted := nofun
  accepted := nofun
  carried t x hx := by
    cases t with
    | client c => cases hx
    | worker m =>
        simp only [initial] at hx
        split at hx <;> cases hx
  carrier t u x ht := by
    cases t with
    | client c => cases ht
    | worker m =>
        simp only [initial] at ht
        split at ht <;> cases ht

theorem traced_of_reaches (hguard : ∀ state action, guard state action → Contract state action)
    (hrun : Reaches (Pool.step size) guard (initial size) state) : Traced state := by
  induction hrun with
  | refl => exact traced_initial size
  | tail action hprior hallowed hstep ih =>
      have hguarded := guarded_of_reaches
        (fun _ _ h => ownerDestroys_of_contract (hguard _ _ h)) hprior
      exact ih.step hguarded (hguard _ _ hallowed) hstep

/-! ## Workers that have ended -/

/-- No worker can ever take a task again. -/
def Hopeless (size : Nat) (state : State) : Prop :=
  ∀ m < size, state.Left m ∧ (state.memory.managers m).status ≠ .running

theorem Memory.status_running (effect : Effect) {memory : Memory}
    (h : ((memory.apply effect).managers m).status = .running) :
    (memory.managers m).status = .running := by
  have hother : ∀ k (f : TaskManager → TaskManager),
      ((memory.update k f).managers m).status = .running →
      (k = m → (f (memory.managers m)).status = .running →
        (memory.managers m).status = .running) →
      (memory.managers m).status = .running := by
    intro k f hrunning hself
    by_cases hm : m = k
    · subst hm
      rw [memory.update_managers_self] at hrunning
      exact hself rfl hrunning
    · rwa [memory.update_managers_of_ne hm] at hrunning
  cases effect with
  | place task k => exact hother k (fun manager => { manager with task := task }) h fun _ => id
  | clear k => exact hother k (fun manager => { manager with task := none }) h fun _ => id
  | stop k => exact hother k (fun manager => { manager with go := false }) h fun _ => id
  | finish k =>
      exact hother k (fun manager => { manager with status := .finished }) h fun _ => nofun
  | join k => exact hother k (fun manager => { manager with status := .idle }) h fun _ => nofun
  | _ => exact h

theorem TaskManager.run_left {nested : Call → Memory → Option (Piece (Call ⊕ Unit))}
    {choice : Choice} {memory : Memory} {p : TaskManager.RunPoint Call}
    {piece : Piece (TaskManager.RunPoint Call)}
    (hpiece : TaskManager.run m nested choice p memory = some piece) (hleft : p.Left) :
    piece.next.Left := by
  cases p with
  | remove p | removed p =>
      obtain ⟨-, next, hnext⟩ := within_plain hpiece
      rw [hnext]
      cases next <;> trivial
  | finish =>
      cases hpiece
      trivial
  | exited => cases hpiece
  | _ => exact hleft.elim

/-- A worker that has left stays so. -/
theorem State.Left.step (h : state.Left m) (hstep : Pool.step size state action = some next) :
    next.Left m := by
  obtain ⟨p, hp, hleft⟩ : ∃ p, state.pc (.worker m) = .worker p ∧ p.Left := by
    unfold State.Left at h
    split at h
    · next p hp => exact ⟨p, hp, h⟩
    · exact h.elim
  obtain ⟨piece, hpiece, rfl⟩ := step_eq_some hstep
  unfold State.Left
  by_cases ht : Tid.worker m = action.thread
  · rw [ht, State.advance_pc_self]
    cases action with
    | run t choice =>
        cases ht
        simp only [State.piece, hp] at hpiece
        obtain ⟨body, hbody, rfl⟩ := Option.map_eq_some_iff.mp hpiece
        exact TaskManager.run_left hbody hleft
    | call t method =>
        cases ht
        simp only [State.piece, hp] at hpiece
        cases p with
        | running => exact hleft.elim
        | _ => cases hpiece
    | finish k =>
        cases ht
        simp only [State.piece, hp] at hpiece
        cases p with
        | running => exact hleft.elim
        | _ => cases hpiece
    | wakeUp y t =>
        cases ht
        simp only [State.piece] at hpiece
        split at hpiece <;> cases hpiece
        rw [hp]
        exact hleft
  · rw [State.advance_pc_of_ne _ ht, hp]
    exact hleft

theorem Hopeless.step (h : Hopeless size state) (hstep : Pool.step size state action = some next) :
    Hopeless size next := by
  intro m hm
  obtain ⟨hleft, hstatus⟩ := h m hm
  refine ⟨hleft.step hstep, fun hrunning => hstatus ?_⟩
  obtain ⟨piece, -, rfl⟩ := step_eq_some hstep
  exact Memory.status_running piece.effect hrunning

/-- Only a worker deletes, and what it deletes is in its slot. -/
theorem Handles.delete {ended : ManagerId → Bool} {calls : Method → Prop} {memory : Memory}
    (h : Handles size ended calls memory t p (.delete m) q) :
    t = .worker m ∧ ∃ looping, p = .worker (.delete looping) := by
  generalize heffect : Effect.delete m = effect at h
  cases h with
  | stay hplain =>
      subst heffect
      exact hplain.elim
  | enter method => cases method <;> cases heffect
  | call _ hsilent =>
      rw [← heffect] at hsilent
      exact hsilent.elim
  | place => cases heffect
  | work ht hworks =>
      subst heffect
      cases hworks with
      | keep hplain | forget hplain => exact hplain.elim
      | delete looping => exact ⟨ht, looping, rfl⟩
  | finish => cases heffect

/-- Nothing is deleted any more. -/
theorem Hopeless.deleted_step (h : Hopeless size state)
    (hbeyond : ∀ m, size ≤ m → state.Ended m) (hguarded : Guarded state)
    (hstep : Pool.step size state action = some next) :
    next.memory.log.deleted = state.memory.log.deleted := by
  obtain ⟨⟨effect, q⟩, hpiece, rfl⟩ := step_eq_some hstep
  have hhandles := handles_of_piece (hguarded.fits action.thread) hpiece
  cases effect with
  | delete m =>
      obtain ⟨ht, looping, hp⟩ := hhandles.delete
      have hleft : state.Left m := by
        by_cases hm : m < size
        · exact (h m hm).1
        · have hended : state.Ended m := hbeyond m (Nat.not_lt.mp hm)
          unfold State.Left
          rw [show state.pc (.worker m) = .worker .exited from hended]
          trivial
      unfold State.Left at hleft
      rw [← ht, hp] at hleft
      exact hleft.elim
  | _ => rfl

/-! ## The loop -/

namespace ThreadPool

/-- The manager under inspection belongs to the pool. -/
def ExecutePoint.Bounded (size : Nat) : ExecutePoint → Prop
  | .isIdle m _ | .setTask m _ => m < size
  | _ => True

/-- In the loop, outside of `set_task`. -/
def ExecutePoint.Searches : ExecutePoint → Prop
  | .enter _ | .isIdle _ _ | .wait _ => True
  | _ => False

theorem ExecutePoint.bounded_next (size : Nat) (m : ManagerId) :
    (ExecutePoint.next size m).Bounded size := by
  unfold ExecutePoint.next
  split
  · assumption
  · trivial

theorem ExecutePoint.searches_next (size : Nat) (m : ManagerId) :
    (ExecutePoint.next size m).Searches := by
  unfold ExecutePoint.next
  split <;> trivial

variable {task : Option Runnable} {choice : Choice} {memory : Memory} {p : ExecutePoint}
  {piece : Piece (ExecutePoint ⊕ Unit)}

theorem execute_bounded (hpiece : execute size task t choice p memory = some piece)
    (hbounded : p.Bounded size) {q : ExecutePoint} (hnext : piece.next = .inl q) :
    q.Bounded size := by
  cases p with
  | enter p | wait p =>
      obtain ⟨-, next, hwithin⟩ := within_plain hpiece
      rw [hwithin] at hnext
      cases next <;> cases hnext
      · trivial
      · exact ExecutePoint.bounded_next size 0
  | leave p =>
      obtain ⟨-, next, hwithin⟩ := within_plain hpiece
      rw [hwithin] at hnext
      cases next <;> cases hnext
      trivial
  | isIdle m p =>
      obtain ⟨body, -, rfl⟩ := Option.map_eq_some_iff.mp hpiece
      rw [Piece.map_next] at hnext
      cases hbody : body.next with
      | inl =>
          rw [hbody] at hnext
          cases hnext
          exact hbounded
      | inr idle =>
          rw [hbody] at hnext
          cases idle <;> cases hnext
          · exact ExecutePoint.bounded_next size (m + 1)
          · exact hbounded
  | setTask m p =>
      obtain ⟨body, -, rfl⟩ := Option.map_eq_some_iff.mp hpiece
      rw [Piece.map_next] at hnext
      cases hbody : body.next with
      | inl =>
          rw [hbody] at hnext
          cases hnext
          exact hbounded
      | inr done =>
          rw [hbody] at hnext
          cases done <;> cases hnext
          · exact ExecutePoint.bounded_next size (m + 1)
          · trivial

/-- Without a thread that is alive nothing is found idle. -/
theorem execute_searches (hstatus : ∀ m < size, (memory.managers m).status ≠ .running)
    (hpiece : execute size task t choice p memory = some piece) (hbounded : p.Bounded size)
    (hsearches : p.Searches) : ∃ q, piece.next = .inl q ∧ q.Searches := by
  cases p with
  | enter p | wait p =>
      obtain ⟨-, next, hwithin⟩ := within_plain hpiece
      rw [hwithin]
      cases next with
      | inl => exact ⟨_, rfl, trivial⟩
      | inr => exact ⟨_, rfl, ExecutePoint.searches_next size 0⟩
  | isIdle m p =>
      obtain ⟨body, hbody, rfl⟩ := Option.map_eq_some_iff.mp hpiece
      cases p with
      | task =>
          cases hbody
          simp only [Piece.map_next]
          split
          · exact ⟨_, rfl, trivial⟩
          · exact ⟨_, rfl, ExecutePoint.searches_next size (m + 1)⟩
      | status =>
          cases hbody
          refine ⟨.next size (m + 1), ?_, ExecutePoint.searches_next size (m + 1)⟩
          simp [Piece.map_next, hstatus m hbounded]
  | setTask | leave => exact hsearches.elim

end ThreadPool

/-- A step of `execute` in the code of all methods. -/
theorem Call.code_of_execute {ended : ManagerId → Bool} {choice : Choice} {memory : Memory}
    {call : Call} {task : Option Runnable} {q : ThreadPool.ExecutePoint}
    {piece : Piece (Call ⊕ Unit)} (hpiece : call.code size ended t choice memory = some piece)
    (hnext : piece.next = .inl (.execute task q)) :
    ∃ p body, call = .execute task p ∧
      ThreadPool.execute size task t choice p memory = some body ∧ body.next = .inl q := by
  cases call <;> obtain ⟨body, hbody, rfl⟩ := Option.map_eq_some_iff.mp hpiece <;>
    rw [Piece.map_next] at hnext <;>
    cases hbodyNext : body.next <;> rw [hbodyNext] at hnext <;> cases hnext
  exact ⟨_, body, rfl, hbody, hbodyNext⟩

/-- All loops of `execute` are at managers of the pool. -/
def Bounded (size : Nat) (state : State) : Prop :=
  ∀ t task p, (state.pc t).call = some (.execute task p) → p.Bounded size

theorem Handles.bounded {ended : ManagerId → Bool} {calls : Method → Prop} {memory : Memory}
    (h : Handles size ended calls memory t p effect q) {task : Option Runnable}
    {after : ThreadPool.ExecutePoint} (hcall : q.call = some (.execute task after))
    (hbefore : ∀ before, p.call = some (.execute task before) → before.Bounded size) :
    after.Bounded size := by
  cases h with
  | stay => exact hbefore after hcall
  | enter method =>
      rw [Tid.call_calling] at hcall
      cases method <;> cases hcall
      trivial
  | @call _ call piece hcode =>
      cases hnext : piece.next with
      | inl reached =>
          rw [hnext] at hcall
          simp only [Sum.elim_inl, Function.comp_apply, Tid.call_calling,
            Option.some.injEq] at hcall
          subst hcall
          obtain ⟨before, body, rfl, hbody, hbodyNext⟩ := Call.code_of_execute hcode hnext
          exact ThreadPool.execute_bounded hbody (hbefore before (Tid.call_calling ..)) hbodyNext
      | inr =>
          rw [hnext] at hcall
          simp at hcall
  | place other m =>
      rw [Tid.call_calling] at hcall
      cases hcall
      exact hbefore (.setTask m .store) (Tid.call_calling ..)
  | work _ hworks =>
      rw [hworks.call_next] at hcall
      cases hcall
  | finish => cases hcall

theorem bounded_of_reaches
    (hguard : ∀ state action, guard state action → OwnerDestroys state action)
    (hrun : Reaches (Pool.step size) guard (initial size) state) : Bounded size state := by
  induction hrun with
  | refl =>
      intro t task p hcall
      cases t with
      | client c => cases hcall
      | worker m =>
          simp only [initial] at hcall
          split at hcall <;> cases hcall
  | @tail middle target action hprior _ hstep ih =>
      have hguarded := guarded_of_reaches hguard hprior
      obtain ⟨piece, hpiece, rfl⟩ := step_eq_some hstep
      have hhandles := handles_of_piece (hguarded.fits action.thread) hpiece
      intro u task p hcall
      by_cases hu : u = action.thread
      · subst hu
        rw [State.advance_pc_self] at hcall
        exact hhandles.bounded hcall (ih action.thread task)
      · rw [State.advance_pc_of_ne _ hu] at hcall
        exact ih u task p hcall

/-- A step of the system, seen by a thread inside a call. -/
theorem call_step (hfits : (state.pc t).Fits t) {call : Call}
    (hcall : (state.pc t).call = some call) (hstep : Pool.step size state action = some next) :
    next.pc t = state.pc t ∨
      ∃ choice body, call.code size state.ended t choice state.memory = some body ∧
        (next.pc t).call = body.next.elim some fun _ => none := by
  obtain ⟨piece, hpiece, rfl⟩ := step_eq_some hstep
  by_cases ht : t = action.thread
  · have hp : state.pc t = t.calling (some call) := by
      generalize state.pc t = p at hfits hcall
      match t, p, hfits with
      | .client c, .client own, _ =>
          cases hcall
          rfl
      | .worker m, .worker (.running own), _ =>
          cases hcall
          rfl
    have hnext : (state.advance action.thread piece).pc t = piece.next := by
      rw [ht]
      exact State.advance_pc_self ..
    rw [hnext]
    cases action with
    | run u choice =>
        change t = u at ht
        subst ht
        simp only [State.piece, hp] at hpiece
        cases t with
        | client c =>
            obtain ⟨body, hbody, rfl⟩ := Option.map_eq_some_iff.mp hpiece
            refine .inr ⟨choice, body, hbody, ?_⟩
            rw [Piece.map_next]
            cases body.next <;> rfl
        | worker m =>
            obtain ⟨outer, houter, rfl⟩ := Option.map_eq_some_iff.mp hpiece
            obtain ⟨body, hbody, rfl⟩ := Option.map_eq_some_iff.mp houter
            refine .inr ⟨choice, body, hbody, ?_⟩
            rw [Piece.map_next, Piece.map_next]
            cases body.next <;> rfl
    | call u method =>
        change t = u at ht
        subst ht
        simp only [State.piece, hp] at hpiece
        cases t <;> cases hpiece
    | finish m =>
        change t = .worker m at ht
        subst ht
        simp only [State.piece, hp] at hpiece
        cases hpiece
    | wakeUp x u =>
        change t = u at ht
        subst ht
        simp only [State.piece] at hpiece
        split at hpiece <;> cases hpiece
        exact .inl rfl
  · exact .inl (State.advance_pc_of_ne _ ht _)

/-! ## A call that never ends -/

/-- The beginning of a call which nobody will ever serve. -/
structure Forlorn (size : Nat) (state : State) (t : Tid) (task : Option Runnable)
    (p : ThreadPool.ExecutePoint) : Prop where
  reachable : Reaches (Pool.step size) Contract (initial size) state
  hopeless : Hopeless size state
  call : (state.pc t).call = some (.execute task p)

theorem hopeless_of_reaches (hhopeless : Hopeless size state)
    (hlater : Reaches (Pool.step size) guard state final) : Hopeless size final :=
  hlater.invariant hhopeless fun _ _ _ h _ hstep => h.step hstep

/-- Its task is not deleted. -/
theorem Forlorn.not_deleted {task : Option Runnable} {p : ThreadPool.ExecutePoint}
    (h : Forlorn size state t task p) (hplaced : ¬ p.Placed)
    (hlater : Reaches (Pool.step size) Contract state final) (htask : task = some x) :
    x ∉ final.memory.log.deleted := by
  have htraced : Traced state := traced_of_reaches (fun _ _ h => h) h.reachable
  have hcarried : (state.pc t).carried = some x := by
    rw [Point.carried, h.call]
    simp [Call.carried, hplaced, htask]
  have hbefore : x ∉ state.memory.log.deleted := fun hdeleted =>
    (htraced.carried t x hcarried).2 (htraced.deleted x hdeleted)
  have hsame : final.memory.log.deleted = state.memory.log.deleted := by
    induction hlater with
    | refl => rfl
    | tail action hprior hallowed hstep ih =>
        have hreach := h.reachable.trans hprior
        have hguarded := guarded_of_reaches (fun _ _ h => ownerDestroys_of_contract h) hreach
        rw [← ih]
        exact (hopeless_of_reaches h.hopeless hprior).deleted_step
          (fun m hm => ended_beyond hreach hm) hguarded hstep
  rw [hsame]
  exact hbefore

/-- A call outside of `set_task` goes on with its loop. -/
theorem Forlorn.searches {task : Option Runnable} {p : ThreadPool.ExecutePoint}
    (h : Forlorn size state t task p) (hsearches : p.Searches)
    (hlater : Reaches (Pool.step size) Contract state final) :
    ∃ q, (final.pc t).call = some (.execute task q) ∧ q.Searches := by
  induction hlater with
  | refl => exact ⟨p, h.call, hsearches⟩
  | @tail middle target action hprior hallowed hstep ih =>
      obtain ⟨q, hcall, hq⟩ := ih
      have hreach := h.reachable.trans hprior
      have howner : ∀ state action, Contract state action → OwnerDestroys state action :=
        fun _ _ h => ownerDestroys_of_contract h
      have hguarded := guarded_of_reaches howner hreach
      rcases call_step (hguarded.fits t) hcall hstep with hsame | ⟨choice, body, hcode, hnext⟩
      · exact ⟨q, hsame ▸ hcall, hq⟩
      · obtain ⟨inner, hinner, rfl⟩ := Option.map_eq_some_iff.mp hcode
        have hstatus : ∀ m < size, (middle.memory.managers m).status ≠ .running := fun m hm =>
          (hopeless_of_reaches h.hopeless hprior m hm).2
        obtain ⟨r, hr, hsearching⟩ := ThreadPool.execute_searches hstatus hinner
          (bounded_of_reaches howner hreach t task q hcall) hq
        refine ⟨r, ?_, hsearching⟩
        rw [hnext, Piece.map_next, hr]
        rfl

/-- A call of `execute` in a pool whose workers have all ended, or that has none, never ends with
its task deleted: the task is not deleted in any continuation, and the loop goes on forever,
unless the call is inside a `set_task` that it has entered before. -/
theorem execute_never_ends
    (hrun : Reaches (Pool.step size) Contract (initial size) state)
    (hfinished : ∀ m < size, state.Left m ∧ (state.memory.managers m).status = .finished)
    {task : Option Runnable} {p : ThreadPool.ExecutePoint}
    (hcall : (state.pc t).call = some (.execute task p)) (hplaced : ¬ p.Placed)
    (hlater : Reaches (Pool.step size) Contract state final) :
    (∀ x, task = some x → x ∉ final.memory.log.deleted) ∧
      (p.Searches → ∃ q, (final.pc t).call = some (.execute task q) ∧ q.Searches) := by
  have hhopeless : Hopeless size state := by
    intro m hm
    obtain ⟨hleft, hstatus⟩ := hfinished m hm
    exact ⟨hleft, hstatus ▸ nofun⟩
  have hforlorn : Forlorn size state t task p := ⟨hrun, hhopeless, hcall⟩
  exact ⟨fun x htask => hforlorn.not_deleted hplaced hlater htask,
    fun hsearches => hforlorn.searches hsearches hlater⟩

/-- The only worker has been terminated before somebody calls `execute`. -/
theorem execute_never_ends_terminated :
    ∃ state : State, (state.pc (.client 1)).call = some (.execute (some 7) (.enter .test)) ∧
      ∀ final, Reaches (Pool.step 1) Contract state final → 7 ∉ final.memory.log.deleted := by
  obtain ⟨state, hrun, hobserved⟩ : ∃ state : State,
      Reaches (Pool.step 1) Contract (initial 1) state ∧
        ((state.pc (.client 1)).call, decide (state.Left 0), (state.memory.managers 0).status) =
          (some (.execute (some 7) (.enter .test)), true, .finished) :=
    Reaches.of_observed (fun state action => decide (Contract state action))
      (.call (.client 0) .terminate :: Action.steps (.client 0) 9 ++ Action.steps (.worker 0) 16 ++
        [.call (.client 1) (.execute (some 7))])
      (fun _ _ => of_decide_eq_true) (by decide +kernel)
  simp only [Prod.mk.injEq, decide_eq_true_eq] at hobserved
  obtain ⟨hcall, hleft, hstatus⟩ := hobserved
  have hfinished : ∀ m < 1, state.Left m ∧ (state.memory.managers m).status = .finished := by
    intro m hm
    obtain rfl : m = 0 := Nat.lt_one_iff.mp hm
    exact ⟨hleft, hstatus⟩
  refine ⟨state, hcall, fun final hlater => ?_⟩
  exact (execute_never_ends hrun hfinished hcall nofun hlater).1 7 rfl

/-- A pool without managers: the call is in its loop in every continuation. -/
theorem execute_loops :
    ∃ state : State, Reaches (Pool.step 0) Contract (initial 0) state ∧
      (state.pc (.client 0)).call = some (.execute (some 7) (.enter .test)) ∧
      ∀ final, Reaches (Pool.step 0) Contract state final →
        7 ∉ final.memory.log.deleted ∧
          ∃ q, (final.pc (.client 0)).call = some (.execute (some 7) q) ∧ q.Searches := by
  obtain ⟨state, hrun, hcall⟩ : ∃ state : State,
      Reaches (Pool.step 0) Contract (initial 0) state ∧
        (state.pc (.client 0)).call = some (.execute (some 7) (.enter .test)) :=
    Reaches.of_observed (fun state action => decide (Contract state action))
      [.call (.client 0) (.execute (some 7))] (fun _ _ => of_decide_eq_true) (by decide +kernel)
  have hforlorn : Forlorn 0 state (.client 0) (some 7) (.enter .test) :=
    ⟨hrun, fun _ hm => absurd hm (Nat.not_lt_zero _), hcall⟩
  refine ⟨state, hrun, hcall, fun final hlater => ⟨?_, ?_⟩⟩
  · exact hforlorn.not_deleted nofun hlater rfl
  · exact hforlorn.searches trivial hlater

end ThreadPools.Boost.Pool
