/-
# What a step of a Boost pool can be

The steps as the invariants of the pool see them: a thread enters a method, goes on in
its call, or puts its task into a slot; a worker learns whether its slot is occupied,
runs, deletes and clears what is in it, or does something else.
-/

import ThreadPools.Boost.System

namespace ThreadPools.Boost.Pool

open ThreadPools.Concurrency

/-- The step moves no task. -/
def Effect.Silent : Effect → Prop
  | .read | .sync _ _ | .close | .stop _ | .finish _ | .join _ | .release => True
  | _ => False

/-- And it belongs neither to the destructor nor to the call of a method. -/
def Effect.Plain : Effect → Prop
  | .read | .sync _ _ | .stop _ | .finish _ => True
  | _ => False

theorem Effect.Plain.silent {effect : Effect} (h : effect.Plain) : effect.Silent := by
  cases effect <;> trivial

/-- A thread in a call, or a client or a running task outside of the pool. -/
def Tid.calling : Tid → Option Call → Point
  | .client _, call => .client call
  | .worker _, call => .worker (.running call)

@[simp] theorem Tid.call_calling (t : Tid) (call : Option Call) : (t.calling call).call = call := by
  cases t <;> rfl

/-- The task has been put into a slot. -/
def ThreadPool.ExecutePoint.Placed : ThreadPool.ExecutePoint → Prop
  | .setTask _ (.notify _) | .setTask _ (.leave _) | .leave _ => True
  | _ => False

instance : DecidablePred ThreadPool.ExecutePoint.Placed := fun p => by
  unfold ThreadPool.ExecutePoint.Placed
  split <;> infer_instance

/-- The task which a call has still to put into a slot. -/
def Call.carried : Call → Option Runnable
  | .execute task p => if p.Placed then none else task
  | _ => none

def Point.carried (p : Point) : Option Runnable := p.call.bind Call.carried

theorem Tid.carried_calling (t : Tid) (call : Option Call) :
    (t.calling call).carried = call.bind Call.carried := by
  rw [Point.carried, call_calling]

/-- What a worker knows about its slot. -/
inductive SlotStatus
  | unknown
  | empty
  /-- it holds a task that has not been started -/
  | waiting
  /-- it holds the task that is being run, or has been run -/
  | started
  /-- it holds a task that has been deleted -/
  | deleted
  deriving DecidableEq

namespace TaskManager

def RunPoint.slot {C : Type} : RunPoint C → SlotStatus
  | .wait .check | .wait .disown | .wait .block => .empty
  | .leave _ | .remove _ | .finish | .removed _ | .exited => .empty
  | .running _ | .delete true => .started
  | .delete false => .waiting
  | .clear _ => .deleted
  | _ => .unknown

/-- The worker has left the loop and its manager's monitor. -/
def RunPoint.Left {C : Type} : RunPoint C → Prop
  | .remove _ | .finish | .removed _ | .exited => True
  | _ => False

instance {C : Type} : DecidablePred (@RunPoint.Left C) := fun p => by
  unfold RunPoint.Left
  split <;> infer_instance

/-- A step of a worker outside of its task. -/
inductive Works (m : ManagerId) (slot : Option Runnable) :
    RunPoint Call → Effect → RunPoint Call → Prop
  | keep {p next : RunPoint Call} {effect : Effect} (hplain : effect.Plain)
      (hslot : next.slot = p.slot) (hleft : next.Left → p.slot = .empty)
      (hcall : ∀ call, next ≠ .running (some call)) : Works m slot p effect next
  | forget {p next : RunPoint Call} {effect : Effect} (hplain : effect.Plain)
      (hslot : next.slot = .unknown) (hp : p.slot = .empty) : Works m slot p effect next
  | vacant {p next : RunPoint Call} (hp : p.slot = .unknown) (hvacant : slot = none)
      (hslot : next.slot = .empty) (hleft : ¬ next.Left) : Works m slot p .read next
  | begin (hfull : slot ≠ none) : Works m slot .take (.begin m) (.running none)
  | discard (hfull : slot ≠ none) : Works m slot .stopped .read (.delete false)
  | delete (looping : Bool) : Works m slot (.delete looping) (.delete m) (.clear looping)
  | clear (looping : Bool) {next : RunPoint Call} (hleft : ¬ next.Left)
      (hslot : next.slot = .unknown ∨ next.slot = .empty) :
      Works m slot (.clear looping) (.clear m) next

end TaskManager

/-- A step between two points outside of the task. -/
theorem TaskManager.Works.keep_outside {m : ManagerId} {slot : Option Runnable}
    {p next : TaskManager.RunPoint Call} {effect : Effect} (hplain : effect.Plain)
    (hslot : next.slot = p.slot) (hp : p.slot ≠ .started) (hleft : next.Left → p.slot = .empty) :
    Works m slot p effect next := by
  refine .keep hplain hslot hleft ?_
  rintro call rfl
  exact hp hslot.symm

/-- A worker outside of its task does not get into a call. -/
theorem TaskManager.Works.call_next {m : ManagerId} {slot : Option Runnable}
    {p next : TaskManager.RunPoint Call} {effect : Effect} (h : Works m slot p effect next) :
    (Point.worker next).call = none := by
  have hoff : (∀ call, next ≠ .running (some call)) → (Point.worker next).call = none :=
    fun hoff => by
      cases next with
      | running call =>
          cases call with
          | none => rfl
          | some call => exact absurd rfl (hoff call)
      | _ => rfl
  cases h with
  | keep _ _ _ hcall => exact hoff hcall
  | forget _ hslot => exact hoff fun call heq => by rw [heq] at hslot; cases hslot
  | vacant _ _ hslot => exact hoff fun call heq => by rw [heq] at hslot; cases hslot
  | clear _ _ hslot =>
      exact hoff fun call heq => by rw [heq] at hslot; cases hslot <;> contradiction
  | begin | discard | delete => rfl

/-- A step of a thread; it may enter the methods in `calls`. -/
inductive Handles (size : Nat) (ended : ManagerId → Bool) (calls : Method → Prop)
    (memory : Memory) (t : Tid) : Point → Effect → Point → Prop
  | stay {p : Point} {effect : Effect} (hplain : effect.Plain) :
      Handles size ended calls memory t p effect p
  | enter (method : Method) (hcalls : calls method) :
      Handles size ended calls memory t (t.calling none) method.entry.effect
        (t.calling (some method.entry.next))
  | call {choice : Choice} {call : Call} {piece : Piece (Call ⊕ Unit)}
      (hcode : call.code size ended t choice memory = some piece) (hsilent : piece.effect.Silent)
      (hplain : piece.effect.Plain ∨ ∃ p, call = .destroy p)
      (hcarried : piece.next.elim Call.carried (fun _ => none) = call.carried) :
      Handles size ended calls memory t (t.calling (some call)) piece.effect
        (piece.next.elim (t.calling ∘ some) fun _ => t.calling none)
  | place (task : Option Runnable) (m : ManagerId) :
      Handles size ended calls memory t (t.calling (some (.execute task (.setTask m .store))))
        (.place task m)
        (t.calling (some (.execute task (.setTask m (.notify .set)))))
  | work {m : ManagerId} (ht : t = .worker m) {p next : TaskManager.RunPoint Call}
      {effect : Effect} (hworks : TaskManager.Works m (memory.managers m).task p effect next) :
      Handles size ended calls memory t (.worker p) effect (.worker next)
  | finish {m : ManagerId} (ht : t = .worker m) :
      Handles size ended calls memory t (.worker (.running none)) .read (.worker (.delete true))

section Code

variable {size : Nat} {ended : ManagerId → Bool} {t : Tid} {choice : Choice} {memory : Memory}
  {m : ManagerId}

/-- A step inside a monitor does nothing else. -/
theorem within_plain {P R X : Type} {x : MonitorId}
    {stepped : Option (Synchronized Tid × (P ⊕ R))} {inside : P → X} {behind : R → X}
    {piece : Piece X} (h : within x stepped inside behind = some piece) :
    piece.effect.Plain ∧ ∃ next : P ⊕ R, piece.next = next.elim inside behind := by
  obtain ⟨s, next, -, rfl⟩ := within_eq_some h
  exact ⟨trivial, next, rfl⟩

/-- Before it has put its task into a slot `execute` carries it. -/
theorem carried_next (task : Option Runnable) (size : Nat) (m : ManagerId) :
    (Call.execute task (.next size m)).carried = task := by
  unfold ThreadPool.ExecutePoint.next
  split <;> rfl

/-- The steps of `execute`. -/
theorem execute_handles {task : Option Runnable} {p : ThreadPool.ExecutePoint}
    {piece : Piece (ThreadPool.ExecutePoint ⊕ Unit)}
    (hpiece : ThreadPool.execute size task t choice p memory = some piece) :
    (piece.effect.Plain ∧ piece.next.elim (fun q => (Call.execute task q).carried)
        (fun _ => none) = (Call.execute task p).carried) ∨
      ∃ m, p = .setTask m .store ∧
        piece = { effect := .place task m, next := .inl (.setTask m (.notify .set)) } := by
  cases p with
  | enter p =>
      obtain ⟨hplain, next, hnext⟩ := within_plain hpiece
      refine .inl ⟨hplain, ?_⟩
      rw [hnext]
      cases next with
      | inl => rfl
      | inr => exact carried_next task size 0
  | isIdle m p =>
      obtain ⟨body, hbody, rfl⟩ := Option.map_eq_some_iff.mp hpiece
      refine .inl ⟨?_, ?_⟩
      · cases p <;> cases hbody <;> trivial
      · rw [Piece.map_next]
        cases body.next with
        | inl => rfl
        | inr idle =>
            cases idle
            · exact carried_next task size (m + 1)
            · rfl
  | setTask m p =>
      obtain ⟨body, hbody, rfl⟩ := Option.map_eq_some_iff.mp hpiece
      cases p with
      | test | again =>
          cases hbody
          refine .inl ⟨trivial, ?_⟩
          simp only [Piece.map_next]
          split
          · rfl
          · first
            | rfl
            | exact carried_next task size (m + 1)
      | tryLock p =>
          obtain ⟨hplain, next, hnext⟩ := within_plain hbody
          refine .inl ⟨hplain, ?_⟩
          rw [Piece.map_next, hnext]
          cases next with
          | inl => rfl
          | inr r =>
              simp only [Sum.elim_inr]
              split
              · exact carried_next task size (m + 1)
              · rfl
      | giveUp p =>
          obtain ⟨hplain, next, hnext⟩ := within_plain hbody
          refine .inl ⟨hplain, ?_⟩
          rw [Piece.map_next, hnext]
          cases next with
          | inl => rfl
          | inr => exact carried_next task size (m + 1)
      | store =>
          cases hbody
          exact .inr ⟨m, rfl, rfl⟩
      | notify p | leave p =>
          obtain ⟨hplain, next, hnext⟩ := within_plain hbody
          refine .inl ⟨hplain, ?_⟩
          rw [Piece.map_next, hnext]
          cases next <;> rfl
  | wait p =>
      obtain ⟨hplain, next, hnext⟩ := within_plain hpiece
      refine .inl ⟨hplain, ?_⟩
      rw [hnext]
      cases next with
      | inl => rfl
      | inr => exact carried_next task size 0
  | leave p =>
      obtain ⟨hplain, next, hnext⟩ := within_plain hpiece
      refine .inl ⟨hplain, ?_⟩
      rw [hnext]
      cases next <;> rfl

theorem check_plain {expected : Bool} {p : ThreadPool.CheckPoint}
    {piece : Piece (ThreadPool.CheckPoint ⊕ Bool)}
    (hpiece : ThreadPool.check size expected t p memory = some piece) : piece.effect.Plain := by
  cases p with
  | enter | leave => exact (within_plain hpiece).1
  | isIdle m p =>
      obtain ⟨body, hbody, rfl⟩ := Option.map_eq_some_iff.mp hpiece
      cases p <;> cases hbody <;> trivial

theorem terminate_plain {p : ThreadPool.TerminatePoint}
    {piece : Piece (ThreadPool.TerminatePoint ⊕ Unit)}
    (hpiece : ThreadPool.terminate size t choice p memory = some piece) :
    piece.effect.Plain := by
  cases p with
  | enter | notify | leave => exact (within_plain hpiece).1
  | stop =>
      cases hpiece
      trivial

theorem idleNotification_plain {p : NotificationPoint}
    {piece : Piece (NotificationPoint ⊕ Unit)}
    (hpiece : idleNotification t choice p memory = some piece) : piece.effect.Plain := by
  cases p <;> exact (within_plain hpiece).1

theorem destroy_silent {p : ThreadPool.DestroyPoint}
    {piece : Piece (ThreadPool.DestroyPoint ⊕ Unit)}
    (hpiece : ThreadPool.destroy size ended t choice p memory = some piece) :
    piece.effect.Silent := by
  cases p with
  | next m =>
      simp only [ThreadPool.destroy] at hpiece
      split at hpiece <;> cases hpiece <;> trivial
  | manager m p =>
      obtain ⟨body, hbody, rfl⟩ := Option.map_eq_some_iff.mp hpiece
      rw [Piece.map_effect]
      cases p with
      | enter | notify | leave => exact (within_plain hbody).1.silent
      | stop =>
          cases hbody
          trivial
      | join =>
          simp only [TaskManager.destroy] at hbody
          split at hbody
          · cases hbody
            trivial
          · split at hbody <;> cases hbody
            trivial

theorem Call.code_handles {call : Call} {piece : Piece (Call ⊕ Unit)}
    (hpiece : call.code size ended t choice memory = some piece) :
    (piece.effect.Silent ∧ (piece.effect.Plain ∨ ∃ p, call = .destroy p) ∧
        piece.next.elim Call.carried (fun _ => none) = call.carried) ∨
      ∃ task m, call = .execute task (.setTask m .store) ∧
        piece = { effect := .place task m
                  next := .inl (.execute task (.setTask m (.notify .set))) } := by
  cases call <;> obtain ⟨body, hbody, rfl⟩ := Option.map_eq_some_iff.mp hpiece
  case execute task p =>
    rcases execute_handles hbody with ⟨hplain, hcarried⟩ | ⟨m, rfl, rfl⟩
    · refine .inl ⟨hplain.silent, .inl hplain, ?_⟩
      rw [← hcarried, Piece.map_next]
      cases body.next <;> rfl
    · exact .inr ⟨task, m, rfl, rfl⟩
  case isIdle | isBusy =>
    have hplain := check_plain hbody
    refine .inl ⟨hplain.silent, .inl hplain, ?_⟩
    rw [Piece.map_next]
    cases body.next <;> rfl
  case terminate =>
    have hplain := terminate_plain hbody
    refine .inl ⟨hplain.silent, .inl hplain, ?_⟩
    rw [Piece.map_next]
    cases body.next <;> rfl
  case idleNotification =>
    have hplain := idleNotification_plain hbody
    refine .inl ⟨hplain.silent, .inl hplain, ?_⟩
    rw [Piece.map_next]
    cases body.next <;> rfl
  case destroy p =>
    refine .inl ⟨destroy_silent hbody, .inr ⟨p, rfl⟩, ?_⟩
    rw [Piece.map_next]
    cases body.next <;> rfl

/-- The steps of a worker outside of its task. -/
theorem TaskManager.run_works {nested : Call → Memory → Option (Piece (Call ⊕ Unit))}
    {p : TaskManager.RunPoint Call} {piece : Piece (TaskManager.RunPoint Call)}
    (hoff : ∀ call, p ≠ .running call)
    (hpiece : TaskManager.run m nested choice p memory = some piece) :
    Works m (memory.managers m).task p piece.effect piece.next := by
  cases p with
  | running call => exact absurd rfl (hoff call)
  | add p | added p | enter p =>
      obtain ⟨hplain, next, hnext⟩ := within_plain hpiece
      rw [hnext]
      cases next <;> exact .keep_outside hplain rfl nofun nofun
  | remove p | removed p | leave p =>
      obtain ⟨hplain, next, hnext⟩ := within_plain hpiece
      rw [hnext]
      cases next <;> exact .keep_outside hplain rfl nofun fun _ => rfl
  | finish =>
      cases hpiece
      exact .keep_outside trivial rfl nofun fun _ => rfl
  | loop =>
      cases hpiece
      dsimp only
      split <;> exact .keep_outside trivial rfl nofun nofun
  | woken =>
      cases hpiece
      dsimp only
      split <;> exact .keep_outside trivial rfl nofun nofun
  | hasTask p =>
      cases p with
      | go =>
          cases hpiece
          dsimp only
          split <;> exact .keep_outside trivial rfl nofun nofun
      | task =>
          cases hpiece
          dsimp only
          split
          · exact .keep_outside trivial rfl nofun nofun
          · next hvacant => exact .vacant rfl (by simpa using hvacant) rfl nofun
  | take =>
      simp only [run] at hpiece
      split at hpiece <;> cases hpiece
      · next hfull => exact .begin (Option.isSome_iff_ne_none.mp hfull)
      · exact .keep_outside trivial rfl nofun nofun
  | delete looping =>
      cases hpiece
      exact .delete looping
  | clear looping =>
      cases hpiece
      cases looping
      · exact .clear false nofun (.inr rfl)
      · exact .clear true nofun (.inl rfl)
  | idle p =>
      obtain ⟨body, hbody, rfl⟩ := Option.map_eq_some_iff.mp hpiece
      rw [Piece.map_effect, Piece.map_next]
      cases body.next <;> exact .keep (idleNotification_plain hbody) rfl nofun nofun
  | stopped =>
      cases hpiece
      dsimp only
      split
      · next hfull => exact .discard (Option.isSome_iff_ne_none.mp hfull)
      · next hvacant => exact .vacant rfl (by simpa using hvacant) rfl nofun
  | wait p =>
      obtain ⟨s, next, hnext, rfl⟩ := within_eq_some hpiece
      cases p with
      | reset | disown =>
          cases hnext
          exact .keep_outside trivial rfl nofun nofun
      | check =>
          cases hnext
          exact .keep_outside trivial rfl nofun nofun
      | block =>
          cases hnext
          exact .forget trivial rfl rfl
      | asleep =>
          simp only [Synchronized.waitUntilCondition, Synchronized.waitLoop] at hnext
          split at hnext <;> cases hnext
          exact .keep_outside trivial rfl nofun nofun
      | own timeout =>
          cases hnext
          cases timeout <;> exact .keep_outside trivial rfl nofun nofun
  | exited => cases hpiece

end Code

/-- Clients are at points of clients, and workers at points of workers. -/
def Point.Fits : Tid → Point → Prop
  | .client _, .client _ => True
  | .worker _, .worker _ => True
  | _, _ => False

theorem Tid.fits_calling (t : Tid) (call : Option Call) : (t.calling call).Fits t := by
  cases t <;> trivial

/-- A step of a call, in a client or in a task. -/
theorem Handles.of_code {size : Nat} {ended : ManagerId → Bool} {calls : Method → Prop} {t : Tid}
    {choice : Choice} {memory : Memory} {call : Call} {body : Piece (Call ⊕ Unit)}
    (hbody : call.code size ended t choice memory = some body) :
    Handles size ended calls memory t (t.calling (some call)) body.effect
      (body.next.elim (t.calling ∘ some) fun _ => t.calling none) := by
  rcases Call.code_handles hbody with ⟨hsilent, hplain, hcarried⟩ | ⟨task, m, rfl, rfl⟩
  · exact .call hbody hsilent hplain hcarried
  · exact .place task m

/-- Every step is one of those. -/
theorem handles_of_piece {size : Nat} {state : State} {action : Action} {piece : Piece Point}
    (hfits : (state.pc action.thread).Fits action.thread)
    (hpiece : state.piece size action = some piece) :
    Handles size state.ended (fun method => action = .call action.thread method) state.memory
      action.thread (state.pc action.thread) piece.effect piece.next := by
  cases action with
  | run t choice =>
      simp only [State.piece, Action.thread] at hpiece hfits ⊢
      generalize state.pc t = p at hpiece hfits ⊢
      match t, p, hfits with
      | .client c, .client none, _ => cases hpiece
      | .client c, .client (some call), _ =>
          obtain ⟨body, hbody, rfl⟩ := Option.map_eq_some_iff.mp hpiece
          exact .of_code hbody
      | .worker m, .worker p, _ =>
          obtain ⟨body, hbody, rfl⟩ := Option.map_eq_some_iff.mp hpiece
          by_cases hrunning : ∃ call, p = .running call
          · obtain ⟨call, rfl⟩ := hrunning
            cases call with
            | none => cases hbody
            | some call =>
                obtain ⟨inner, hinner, rfl⟩ := Option.map_eq_some_iff.mp hbody
                have hhandles : Handles size state.ended
                    (fun method => Action.run (.worker m) choice = .call (.worker m) method)
                    state.memory (.worker m) (.worker (.running (some call))) inner.effect _ :=
                  .of_code hinner
                rw [Piece.map_effect, Piece.map_next, Piece.map_effect, Piece.map_next]
                cases hnext : inner.next <;> rw [hnext] at hhandles <;> exact hhandles
          · exact .work rfl (TaskManager.run_works (fun call h => hrunning ⟨call, h⟩) hbody)
  | call t method =>
      simp only [State.piece, Action.thread] at hpiece hfits ⊢
      generalize state.pc t = p at hpiece hfits ⊢
      match t, p, hfits with
      | .client c, .client none, _ =>
          cases hpiece
          exact .enter method rfl
      | .client c, .client (some call), _ => cases hpiece
      | .worker m, .worker p, _ =>
          unfold enter at hpiece
          split at hpiece
          · next heq => cases heq
          · next heq =>
              cases heq
              cases hpiece
              exact .enter method rfl
          · cases hpiece
  | finish m =>
      simp only [State.piece, Action.thread] at hpiece ⊢
      generalize state.pc (.worker m) = p at hpiece ⊢
      unfold Pool.finish at hpiece
      split at hpiece
      · cases hpiece
        exact .finish rfl
      · cases hpiece
  | wakeUp x t =>
      simp only [State.piece] at hpiece
      split at hpiece <;> cases hpiece
      exact .stay trivial

end ThreadPools.Boost.Pool
