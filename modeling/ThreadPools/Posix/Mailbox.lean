/-
# One `TaskManager` and its clients

A `TaskManager` on its own: any number of threads call `set_task`, and the destructor is
entered when these calls have returned. The bodies of the methods and of the worker are
those of the pools. A task ends by returning or by an exception, which one of the
handlers around `task->run()` catches.
-/

import ThreadPools.Posix.LockDiscipline

namespace ThreadPools.Posix.Mailbox

open ThreadPools.Concurrency

/-- The points of a call of a client. -/
inductive Call
  | setTask (task : Option Runnable) (p : Section)
  | destroy (p : TaskManager.DestroyPoint)
  deriving DecidableEq

/-- The points of the threads around the manager. -/
inductive Point
  /-- a client, with the result of its latest `set_task` -/
  | client (call : Option Call) (accepted : Option Bool)
  | worker (p : TaskManager.RunPoint Empty)
  /-- in the handler of an exception, which may be a `std::exception` -/
  | handler (standard : Bool)
  deriving DecidableEq

/-- What the environment chooses for a thread. -/
inductive Input
  | go
  | setTask (task : Option Runnable)
  | destroy
  /-- `task->run()` returns -/
  | returns
  /-- `task->run()` throws a `std::exception`, or something else -/
  | throws (standard : Bool)
  deriving DecidableEq

abbrev MailboxState := State Tid MonitorId Pool Point

abbrev MailboxAction := Action Tid MonitorId Input

/-- `thread_starter` and `TaskManager::run`; a task calls nothing of the manager. -/
def run (m : ManagerId) (input : TaskManager.Input Empty) (p : TaskManager.RunPoint Empty)
    (pool : Pool) : Option (Piece (TaskManager.RunPoint Empty)) :=
  TaskManager.run .pool (fun _ => none) (fun call _ => call.elim) m input p pool

/-- The code of a client. -/
def client (m : ManagerId) : Input → Option Call → Option Bool → Pool → Option (Piece Point)
  | .setTask task, none, accepted, _ =>
      some { next := .client (some (.setTask task .lock)) accepted }
  | .destroy, none, accepted, _ =>
      some { effect := some .close, next := .client (some (.destroy .lock)) accepted }
  | .go, some (.setTask task p), accepted, pool =>
      some ((TaskManager.setTask m task p pool).map
        (Sum.elim (fun p => .client (some (.setTask task p)) accepted)
          fun result => .client none (some result)))
  | .go, some (.destroy p), accepted, pool =>
      some ((TaskManager.destroy m p pool).map
        (Sum.elim (fun p => .client (some (.destroy p)) accepted)
          fun _ => .client none accepted))
  | _, _, _, _ => none

/-- The code of the worker. -/
def worker (m : ManagerId) : Input → Point → Pool → Option (Piece Point)
  | .go, .worker p, pool => (run m .go p pool).map fun piece => piece.map .worker
  | .returns, .worker p, pool => (run m .finish p pool).map fun piece => piece.map .worker
  | .throws standard, .worker (.running none), _ => some { next := .handler standard }
  -- the handlers are left for the code behind them
  | .go, .handler _, pool =>
      (run m .finish (.running none) pool).map fun piece => piece.map .worker
  | _, _, _ => none

def code (m : ManagerId) : Tid → Input → Point → Pool → Option (Piece Point)
  | .client _, input, .client call accepted, pool => client m input call accepted pool
  | .worker i, input, p, pool => if i = m then worker m input p pool else none
  | _, _, _, _ => none

namespace Point

def held (m : ManagerId) : Point → List MonitorId
  | .client (some (.setTask _ p)) _ => p.held (.manager m)
  | .client (some (.destroy p)) _ => p.held m
  | .client none _ => []
  | .worker p =>
      match p with
      | .add p => p.held .threadList
      | .loop | .running _ | .inner => [.manager m]
      | .remove p => p.held .threadList
      | .enter | .woken | .exited => []
  | .handler _ => [.manager m]

def waitsAt (m : ManagerId) : Point → Option MonitorId
  | .worker .woken => some (.manager m)
  | _ => none

end Point

/-- A manager with its worker and its clients. -/
def program (m : ManagerId) : Program Tid MonitorId Pool Effect Point Input where
  code := code m
  apply := Pool.apply
  held _ := Point.held m
  waitsAt _ := Point.waitsAt m
  handler := id
  exited p := p = .worker .exited

/-- The memory behind the constructor of the manager, whose thread has been started. -/
def initial (m : ManagerId) : MailboxState where
  data := (Config.complete .threadPool (m + 1)).initialPool
  monitor _ := .fresh
  pc
    | .worker i => if i = m then .worker (.add .lock) else .worker .exited
    | _ => .client none none

/-- A client is inside a call of `set_task`. -/
def Point.Submits (p : Point) : Prop :=
  ∃ task q accepted, p = .client (some (.setTask task q)) accepted

/-- The destructor is called once, and all calls of `set_task` have returned by then. -/
def Allowed (state : MailboxState) : MailboxAction → Prop
  | .run (.client _) (.setTask _) _ => state.data.log.closing = false
  | .run (.client _) .destroy _ =>
      state.data.log.closing = false ∧ ∀ c, ¬ (state.pc (.client c)).Submits
  | _ => True

/-! ## The steps -/

variable {m : ManagerId} {pool : Pool} {t : Tid} {input : Input} {p : Point}
  {piece : Piece Point}

/-- The pieces of code of the threads. -/
inductive Moves (m : ManagerId) (pool : Pool) : Tid → Input → Point → Piece Point → Prop
  | submit (c : Nat) (task : Option Runnable) (accepted : Option Bool) :
      Moves m pool (.client c) (.setTask task) (.client none accepted)
        { next := .client (some (.setTask task .lock)) accepted }
  | enter (c : Nat) (task : Option Runnable) (accepted : Option Bool) :
      Moves m pool (.client c) .go (.client (some (.setTask task .lock)) accepted)
        { op := .lock (.manager m), next := .client (some (.setTask task .body)) accepted }
  | place (c : Nat) (task : Option Runnable) (accepted : Option Bool)
      (hslot : (pool.managers m).task = none) :
      Moves m pool (.client c) .go (.client (some (.setTask task .body)) accepted)
        { op := .unlock (.manager m), effect := some (.place task m)
          notify := some (.manager m), next := .client none (some true) }
  | refuse (c : Nat) (task : Option Runnable) (accepted : Option Bool)
      (hslot : (pool.managers m).task ≠ none) :
      Moves m pool (.client c) .go (.client (some (.setTask task .body)) accepted)
        { op := .unlock (.manager m), next := .client none (some false) }
  | close (c : Nat) (accepted : Option Bool) :
      Moves m pool (.client c) .destroy (.client none accepted)
        { effect := some .close, next := .client (some (.destroy .lock)) accepted }
  | destroy (c : Nat) (accepted : Option Bool) :
      Moves m pool (.client c) .go (.client (some (.destroy .lock)) accepted)
        { op := .lock (.manager m), next := .client (some (.destroy .body)) accepted }
  | stop (c : Nat) (accepted : Option Bool) :
      Moves m pool (.client c) .go (.client (some (.destroy .body)) accepted)
        { op := .unlock (.manager m), effect := some (.stopManager m)
          notify := some (.manager m), next := .client (some (.destroy .join)) accepted }
  | join (c : Nat) (accepted : Option Bool) (op : Op Tid MonitorId)
      (hop : op = .join (.worker m) ∨ op = .skip ∧ (pool.managers m).status ≠ .running) :
      Moves m pool (.client c) .go (.client (some (.destroy .join)) accepted)
        { op := op, effect := some (.joinManager m), next := .client none accepted }
  | add :
      Moves m pool (.worker m) .go (.worker (.add .lock))
        { op := .lock .threadList, next := .worker (.add .body) }
  | added :
      Moves m pool (.worker m) .go (.worker (.add .body))
        { op := .unlock .threadList, effect := some (.addThread (.worker m))
          next := .worker .enter }
  | start :
      Moves m pool (.worker m) .go (.worker .enter)
        { op := .lock (.manager m), next := .worker .loop }
  | begin (hgo : (pool.managers m).go = true) (hslot : (pool.managers m).task ≠ none) :
      Moves m pool (.worker m) .go (.worker .loop)
        { effect := some (.begin m), next := .worker (.running none) }
  | look (hgo : (pool.managers m).go = true) (hslot : (pool.managers m).task = none) :
      Moves m pool (.worker m) .go (.worker .loop) { next := .worker .inner }
  | discard (hgo : (pool.managers m).go = false) (hslot : (pool.managers m).task ≠ none) :
      Moves m pool (.worker m) .go (.worker .loop)
        { op := .unlock (.manager m), effect := some (.discard m)
          next := .worker (.remove .lock) }
  | leave (hgo : (pool.managers m).go = false) (hslot : (pool.managers m).task = none) :
      Moves m pool (.worker m) .go (.worker .loop)
        { op := .unlock (.manager m), next := .worker (.remove .lock) }
  | throws (standard : Bool) :
      Moves m pool (.worker m) (.throws standard) (.worker (.running none))
        { next := .handler standard }
  /-- the code behind `task->run()`, after its end or from a handler -/
  | finish (input : Input) (p : Point)
      (hp : input = .returns ∧ p = .worker (.running none) ∨
        input = .go ∧ ∃ standard, p = .handler standard) :
      Moves m pool (.worker m) input p
        { effect := some (.finish m), notify := some .pool, next := .worker .inner }
  | wait (hgo : (pool.managers m).go = true) (hslot : (pool.managers m).task = none) :
      Moves m pool (.worker m) .go (.worker .inner)
        { op := .wait (.manager m), next := .worker .woken }
  | again (h : (pool.managers m).go = false ∨ (pool.managers m).task ≠ none) :
      Moves m pool (.worker m) .go (.worker .inner) { next := .worker .loop }
  | woken :
      Moves m pool (.worker m) .go (.worker .woken)
        { op := .lock (.manager m), next := .worker .inner }
  | remove :
      Moves m pool (.worker m) .go (.worker (.remove .lock))
        { op := .lock .threadList, next := .worker (.remove .body) }
  | removed :
      Moves m pool (.worker m) .go (.worker (.remove .body))
        { op := .unlock .threadList, effect := some (.removeThread (.worker m))
          next := .worker .exited }

theorem client_moves {c : Nat} {call : Option Call} {accepted : Option Bool}
    (hclient : client m input call accepted pool = some piece) :
    Moves m pool (.client c) input (.client call accepted) piece := by
  cases call with
  | none =>
      cases input with
      | setTask task =>
          cases hclient
          exact .submit c task accepted
      | destroy =>
          cases hclient
          exact .close c accepted
      | _ => cases hclient
  | some call =>
      cases input with
      | go =>
          cases call with
          | setTask task q =>
              cases hclient
              cases q with
              | lock => exact .enter c task accepted
              | body =>
                  cases hslot : (pool.managers m).task with
                  | none =>
                      simp only [TaskManager.setTask, hslot]
                      exact .place c task accepted hslot
                  | some x =>
                      simp only [TaskManager.setTask, hslot]
                      exact .refuse c task accepted (by rw [hslot]; rintro ⟨⟩)
          | destroy q =>
              cases hclient
              cases q with
              | lock => exact .destroy c accepted
              | body => exact .stop c accepted
              | join =>
                  simp only [TaskManager.destroy]
                  split
                  · exact .join c accepted _ (.inl rfl)
                  · next halive =>
                      refine .join c accepted _ (.inr ⟨rfl, fun hstatus => halive ?_⟩)
                      exact decide_eq_true hstatus
      | _ => cases hclient

theorem finish_moves (hp : input = .returns ∧ p = .worker (.running none) ∨
      input = .go ∧ ∃ standard, p = .handler standard)
    (hrun : (run m .finish (.running none) pool).map (fun piece => piece.map .worker) =
      some piece) : Moves m pool (.worker m) input p piece := by
  cases hrun
  exact .finish input p hp

theorem run_moves {q : TaskManager.RunPoint Empty}
    (hrun : (run m .go q pool).map (fun piece => piece.map .worker) = some piece) :
    Moves m pool (.worker m) .go (.worker q) piece := by
  obtain ⟨body, hbody, rfl⟩ := Option.map_eq_some_iff.mp hrun
  cases q with
  | add q =>
      cases q with
      | lock =>
          cases hbody
          exact .add
      | body =>
          cases hbody
          exact .added
  | enter =>
      cases hbody
      exact .start
  | loop =>
      simp only [run, TaskManager.run] at hbody
      split at hbody
      · next hgo =>
          split at hbody
          · next hslot =>
              cases hbody
              exact .begin hgo (Option.isSome_iff_ne_none.mp hslot)
          · next hslot =>
              cases hbody
              exact .look hgo (by simpa using hslot)
      · next hgo =>
          split at hbody
          · next hslot =>
              cases hbody
              exact .discard (by simpa using hgo) (Option.isSome_iff_ne_none.mp hslot)
          · next hslot =>
              cases hbody
              exact .leave (by simpa using hgo) (by simpa using hslot)
  | running call =>
      cases call with
      | none => cases hbody
      | some call => exact call.elim
  | inner =>
      simp only [run, TaskManager.run] at hbody
      split at hbody
      · next hidle =>
          cases hbody
          rw [Bool.and_eq_true, Option.isNone_iff_eq_none] at hidle
          exact .wait hidle.1 hidle.2
      · next hbusy =>
          cases hbody
          refine .again ?_
          rw [Bool.and_eq_true, Option.isNone_iff_eq_none] at hbusy
          by_cases hgo : (pool.managers m).go = true
          · exact .inr fun hslot => hbusy ⟨hgo, hslot⟩
          · exact .inl (by simpa using hgo)
  | woken =>
      cases hbody
      exact .woken
  | remove q =>
      cases q with
      | lock =>
          cases hbody
          exact .remove
      | body =>
          cases hbody
          exact .removed
  | exited => cases hbody

theorem worker_moves (hworker : worker m input p pool = some piece) :
    Moves m pool (.worker m) input p piece := by
  cases p with
  | client => cases input <;> cases hworker
  | worker q =>
      cases input with
      | go => exact run_moves hworker
      | returns =>
          cases q with
          | running call =>
              cases call with
              | none => exact finish_moves (.inl ⟨rfl, rfl⟩) hworker
              | some call => exact call.elim
          | _ => cases hworker
      | throws standard =>
          cases q with
          | running call =>
              cases call with
              | none =>
                  cases hworker
                  exact .throws standard
              | some call => exact call.elim
          | _ => cases hworker
      | _ => cases hworker
  | handler standard =>
      cases input with
      | go => exact finish_moves (.inr ⟨rfl, standard, rfl⟩) hworker
      | _ => cases hworker

theorem code_moves (hcode : (program m).code t input p pool = some piece) :
    Moves m pool t input p piece := by
  cases t with
  | client c =>
      cases p with
      | client call accepted => exact client_moves hcode
      | worker => cases hcode
      | handler => cases hcode
  | dispatcher => cases p <;> cases hcode
  | worker i =>
      have hcode : (if i = m then worker m input p pool else none) = some piece := hcode
      split at hcode
      · next hi =>
          subst hi
          exact worker_moves hcode
      · cases hcode

/-! ## Lock discipline -/

theorem wellLocked : (program m).WellLocked where
  balanced hcode := by
    cases code_moves hcode with
    | join c accepted op hop => rcases hop with rfl | ⟨rfl, -⟩ <;> rfl
    | finish input p hp => rcases hp with ⟨-, rfl⟩ | ⟨-, standard, rfl⟩ <;> rfl
    | _ => rfl
  handler _ _ := List.suffix_refl _
  waits hcode hop := by
    cases code_moves hcode with
    | join c accepted op hjoin => rcases hjoin with rfl | ⟨rfl, -⟩ <;> cases hop
    | wait =>
        cases hop
        rfl
    | _ => cases hop
  relocks hcode hwaits := by
    cases code_moves hcode with
    | woken =>
        cases hwaits
        exact ⟨rfl, List.not_mem_nil⟩
    | finish input p hp => rcases hp with ⟨-, rfl⟩ | ⟨-, standard, rfl⟩ <;> cases hwaits
    | _ => cases hwaits

theorem held_initial (t : Tid) : ((initial m).pc t).held m = [] := by
  cases t with
  | client => rfl
  | dispatcher => rfl
  | worker i =>
      simp only [initial]
      split <;> rfl

theorem locked_initial : (program m).Locked (initial m) where
  nodup t := by
    show (((initial m).pc t).held m).Nodup
    rw [held_initial]
    exact List.nodup_nil
  owner monitor t := by
    show none = some t ↔ monitor ∈ ((initial m).pc t).held m
    rw [held_initial]
    exact iff_of_false nofun List.not_mem_nil
  waiters_nodup _ := List.nodup_nil
  waits _ _ hmem := absurd hmem List.not_mem_nil

/-- Nobody enters a monitor which he is inside of. -/
theorem Moves.not_held (hmoves : Moves m pool t input p piece) {monitor : MonitorId}
    (hop : piece.op = .lock monitor) : monitor ∉ p.held m := by
  cases hmoves with
  | join c accepted op hjoin => rcases hjoin with rfl | ⟨rfl, -⟩ <;> cases hop
  | finish => cases hop
  | _ => cases hop <;> simp [Point.held, Section.held, TaskManager.DestroyPoint.held]

end ThreadPools.Posix.Mailbox
