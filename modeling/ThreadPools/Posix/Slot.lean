/-
# The slot of a `TaskManager`

Each accepted task is in the slot until it is deleted, by the worker behind its run or,
if the manager has been stopped before, behind the loop. The worker sleeps on an empty
slot only, and it leaves an empty slot.
-/

import Mathlib.Data.List.ReduceOption
import ThreadPools.Posix.Mailbox

namespace ThreadPools.Posix.Mailbox

open ThreadPools.Concurrency

/-- The tasks that `set_task` has accepted; a null pointer is no task. -/
def accepted (pool : Pool) : List Runnable := (pool.log.placed.map Prod.fst).reduceOption

/-- What the worker knows of the tasks of its manager. -/
def Point.Works (m : ManagerId) (pool : Pool) : Point → Prop
  | .worker (.running _) | .handler _ =>
      pool.log.started = pool.log.finished ++ (pool.managers m).task.toList ∧
        pool.log.discarded = []
  | .worker (.remove _) | .worker .exited =>
      pool.log.started = pool.log.finished ∧ (pool.managers m).task = none ∧
        (pool.managers m).go = false
  | _ => pool.log.started = pool.log.finished ∧ pool.log.discarded = []

/-- The point belongs to the thread; there are no other workers. -/
def Point.Fits (m : ManagerId) : Tid → Point → Prop
  | .client _, .client _ _ => True
  | .worker i, .worker q => i = m ∨ q = .exited
  | .worker i, .handler _ => i = m
  | .dispatcher, .client none none => True
  | _, _ => False

variable {m : ManagerId} {state : MailboxState} {t : Tid} {input : Input} {p : Point}
  {piece : Piece Point} {pool : Pool}

theorem Moves.fits (hmoves : Moves m pool t input p piece) : piece.next.Fits m t := by
  cases hmoves
  case submit | enter | place | refuse | close | destroy | stop | join => exact True.intro
  case throws => exact rfl
  all_goals exact .inl rfl

/-- The memory of a manager in order. -/
structure Books (m : ManagerId) (pool : Pool) : Prop where
  accepted : accepted pool = pool.log.deleted ++ (pool.managers m).task.toList
  deleted : pool.log.deleted = pool.log.finished ++ pool.log.discarded
  closed : (pool.managers m).go = false → pool.log.closing = true

/-- A task has been started if it has ended, or if it is in the slot. -/
theorem Point.Works.started (hworks : p.Works m pool) :
    pool.log.started = pool.log.finished ∨
      pool.log.started = pool.log.finished ++ (pool.managers m).task.toList := by
  cases p with
  | client => exact .inl hworks.1
  | handler => exact .inr hworks.1
  | worker q =>
      cases q with
      | running => exact .inr hworks.1
      | _ => exact .inl hworks.1

/-- What a client knows of the destructor. -/
def Point.Calls (pool : Pool) : Point → Prop
  | .client (some (.setTask _ _)) _ => pool.log.closing = false
  | .client (some (.destroy _)) _ => pool.log.closing = true
  | _ => True

theorem accepted_place (task : Option Runnable) :
    accepted (pool.apply (.place task m)) = accepted pool ++ task.toList := by
  show ((pool.log.placed ++ [(task, m)]).map Prod.fst).reduceOption = _
  rw [List.map_append, List.reduceOption_append]
  cases task <;> rfl

section Managers

variable (m) (pool)

theorem managers_place (task : Option Runnable) :
    (pool.apply (.place task m)).managers m = { pool.managers m with task := task } := by
  simp [Pool.apply]

theorem managers_finish :
    (pool.apply (.finish m)).managers m = { pool.managers m with task := none } := by
  simp [Pool.apply, Pool.deleteTask]

theorem managers_discard :
    (pool.apply (.discard m)).managers m = { pool.managers m with task := none } := by
  simp [Pool.apply, Pool.deleteTask]

theorem managers_stop :
    (pool.apply (.stopManager m)).managers m = { pool.managers m with go := false } := by
  simp [Pool.apply]

theorem managers_join : (pool.apply (.joinManager m)).managers m =
    { pool.managers m with status := .idle, destroyed := true } := by
  simp [Pool.apply]

end Managers

/-- A piece of code keeps the books. -/
theorem Moves.books (hmoves : Moves m pool t input p piece) (hbooks : Books m pool)
    (hworks : t = .worker m → p.Works m pool) (hcalls : p.Calls pool) :
    Books m ((program m).dataAfter piece pool) := by
  obtain ⟨haccepted, hdeleted, hclosed⟩ := hbooks
  cases hmoves
  case place c task result hslot =>
    rw [hslot, Option.toList_none, List.append_nil] at haccepted
    refine ⟨?_, hdeleted, fun hgo => hclosed ?_⟩
    · show accepted (pool.apply (.place task m)) =
        pool.log.deleted ++ ((pool.apply (.place task m)).managers m).task.toList
      rw [accepted_place, managers_place, haccepted]
    · have hgo : ((pool.apply (.place task m)).managers m).go = false := hgo
      rwa [managers_place] at hgo
  case close => exact ⟨haccepted, hdeleted, fun _ => rfl⟩
  case stop =>
    refine ⟨?_, hdeleted, fun _ => hcalls⟩
    show accepted pool =
      pool.log.deleted ++ ((pool.apply (.stopManager m)).managers m).task.toList
    rw [managers_stop, haccepted]
  case join =>
    refine ⟨?_, hdeleted, fun hgo => hclosed ?_⟩
    · show accepted pool =
        pool.log.deleted ++ ((pool.apply (.joinManager m)).managers m).task.toList
      rw [managers_join, haccepted]
    · have hgo : ((pool.apply (.joinManager m)).managers m).go = false := hgo
      rwa [managers_join] at hgo
  case discard hgo hslot =>
    refine ⟨?_, ?_, fun _ => hclosed hgo⟩
    · show accepted pool = (pool.log.deleted ++ (pool.managers m).task.toList) ++
        ((pool.apply (.discard m)).managers m).task.toList
      rw [managers_discard, haccepted, Option.toList_none, List.append_nil]
    · show pool.log.deleted ++ _ = pool.log.finished ++ (pool.log.discarded ++ _)
      rw [hdeleted, List.append_assoc]
  case finish hp =>
    have hnone : pool.log.discarded = [] := by
      have hknown := hworks rfl
      rcases hp with ⟨-, rfl⟩ | ⟨-, standard, rfl⟩ <;> exact hknown.2
    refine ⟨?_, ?_, fun hgo => hclosed ?_⟩
    · show accepted pool = (pool.log.deleted ++ (pool.managers m).task.toList) ++
        ((pool.apply (.finish m)).managers m).task.toList
      rw [managers_finish, haccepted, Option.toList_none, List.append_nil]
    · show pool.log.deleted ++ _ = (pool.log.finished ++ _) ++ pool.log.discarded
      rw [hdeleted, hnone, List.append_nil, List.append_nil]
    · have hgo : ((pool.apply (.finish m)).managers m).go = false := hgo
      rwa [managers_finish] at hgo
  all_goals exact ⟨haccepted, hdeleted, hclosed⟩

/-- The worker knows what its own piece of code has done. -/
theorem Moves.works (hmoves : Moves m pool (.worker m) input p piece)
    (hworks : p.Works m pool) : piece.next.Works m ((program m).dataAfter piece pool) := by
  cases hmoves
  case begin hgo hslot =>
    refine ⟨?_, hworks.2⟩
    show pool.log.started ++ _ = pool.log.finished ++ _
    rw [hworks.1]
    rfl
  case discard hgo hslot =>
    refine ⟨hworks.1, ?_, ?_⟩
    · show ((pool.apply (.discard m)).managers m).task = none
      rw [managers_discard]
    · show ((pool.apply (.discard m)).managers m).go = false
      rw [managers_discard]
      exact hgo
  case leave hgo hslot => exact ⟨hworks.1, hslot, hgo⟩
  case finish hp =>
    rcases hp with ⟨-, rfl⟩ | ⟨-, standard, rfl⟩ <;> exact hworks
  all_goals exact hworks

/-- Nobody else disturbs what the worker knows. -/
theorem Moves.works_other (hmoves : Moves m pool t input p piece) (hother : t ≠ .worker m)
    (hbooks : Books m pool) (hcalls : p.Calls pool) {q : Point} (hfits : q.Fits m (.worker m))
    (houtside : .manager m ∈ p.held m → .manager m ∉ q.held m) (hworks : q.Works m pool) :
    q.Works m ((program m).dataAfter piece pool) := by
  cases hmoves
  case place c task result hslot =>
    have hnot := houtside List.mem_cons_self
    -- the worker has not left, since no destructor has been called
    have hopen : (pool.managers m).go ≠ false := fun hgo =>
      absurd ((hbooks.closed hgo).symm.trans hcalls) nofun
    cases q with
    | client => exact hfits.elim
    | handler => exact absurd List.mem_cons_self hnot
    | worker q =>
        cases q with
        | loop | running | inner => exact absurd List.mem_cons_self hnot
        | remove | exited => exact absurd hworks.2.2 hopen
        | add | enter | woken => exact hworks
  case stop =>
    have hnot := houtside List.mem_cons_self
    cases q with
    | client => exact hfits.elim
    | handler => exact absurd List.mem_cons_self hnot
    | worker q =>
        cases q with
        | loop | running | inner => exact absurd List.mem_cons_self hnot
        | remove | exited =>
            refine ⟨hworks.1, ?_, ?_⟩
            · show ((pool.apply (.stopManager m)).managers m).task = none
              rw [managers_stop]
              exact hworks.2.1
            · show ((pool.apply (.stopManager m)).managers m).go = false
              rw [managers_stop]
        | add | enter | woken => exact hworks
  case join =>
    have htask : ((pool.apply (.joinManager m)).managers m).task = (pool.managers m).task := by
      rw [managers_join]
    have hgo : ((pool.apply (.joinManager m)).managers m).go = (pool.managers m).go := by
      rw [managers_join]
    cases q with
    | client => exact hfits.elim
    | handler => exact ⟨htask.symm ▸ hworks.1, hworks.2⟩
    | worker q =>
        cases q with
        | running => exact ⟨htask.symm ▸ hworks.1, hworks.2⟩
        | remove | exited => exact ⟨hworks.1, htask.trans hworks.2.1, hgo.trans hworks.2.2⟩
        | _ => exact hworks
  case submit | enter | refuse | close | destroy => exact hworks
  all_goals exact absurd rfl hother

/-! ## Runs -/

/-- A manager in order. -/
structure Tidy (m : ManagerId) (state : MailboxState) : Prop where
  fits : ∀ t, (state.pc t).Fits m t
  books : Books m state.data
  works : (state.pc (.worker m)).Works m state.data
  calls : ∀ t, (state.pc t).Calls state.data
  /-- The worker sleeps on an empty slot. -/
  asleep : .worker m ∈ (state.monitor (.manager m)).waiters →
    (state.data.managers m).task = none ∧ (state.data.managers m).go = true
  joined : (state.data.managers m).status ≠ .running → state.pc (.worker m) = .worker .exited

theorem tidy_initial : Tidy m (initial m) where
  fits t := by
    cases t with
    | worker i =>
        simp only [initial]
        split
        · next hi => exact .inl hi
        · exact .inr rfl
    | _ => exact True.intro
  books := ⟨rfl, rfl, nofun⟩
  works := by
    simp only [initial, if_true]
    exact ⟨rfl, rfl⟩
  calls t := by
    cases t with
    | worker i =>
        simp only [initial]
        split <;> exact True.intro
    | _ => exact True.intro
  asleep := nofun
  joined hstatus := by
    refine absurd ?_ hstatus
    simp [initial, Config.initialPool, Config.startStatus, Config.complete]

/-- Nobody is inside `set_task` when the destructor is called. -/
theorem Point.Calls.close (hfits : p.Fits m t) (hreturned : ∀ c, t = .client c → ¬ p.Submits) :
    p.Calls (pool.apply .close) := by
  cases p with
  | client call accepted =>
      cases call with
      | none => exact True.intro
      | some call =>
          cases call with
          | setTask task q =>
              cases t with
              | client c => exact absurd ⟨task, q, accepted, rfl⟩ (hreturned c rfl)
              | dispatcher => exact hfits.elim
              | worker => exact hfits.elim
          | destroy => exact rfl
  | worker => exact True.intro
  | handler => exact True.intro

/-- The calls in progress are those that the usage of the manager allows. -/
theorem Moves.calls (hmoves : Moves m state.data t input (state.pc t) piece) {choice : Nat}
    (hallowed : Allowed state (.run t input choice)) (hfits : ∀ t, (state.pc t).Fits m t)
    (hcalls : ∀ t, (state.pc t).Calls state.data) (other : Tid) :
    (((program m).advance state t piece choice).pc other).Calls
      ((program m).dataAfter piece state.data) := by
  have hself := hcalls t
  by_cases hother : other = t
  · subst hother
    simp only [Program.advance, Function.update_self]
    generalize state.pc other = p at hmoves hself
    cases hmoves
    case submit => exact hallowed
    case enter | destroy | stop => exact hself
    case close => exact rfl
    all_goals exact True.intro
  · simp only [Program.advance, Function.update_of_ne hother]
    have hbefore := hcalls other
    generalize hp : state.pc t = p at hmoves
    cases hmoves
    case close =>
      exact Point.Calls.close (hfits other) fun c hc => hc ▸ hallowed.2 c
    all_goals exact hbefore

/-- The pieces of code that wake the worker. -/
theorem Moves.wakes (hmoves : Moves m pool t input p piece)
    (hnotify : piece.notify ≠ some (.manager m)) (hother : t ≠ .worker m) :
    (((program m).dataAfter piece pool).managers m).task = (pool.managers m).task ∧
      (((program m).dataAfter piece pool).managers m).go = (pool.managers m).go := by
  cases hmoves
  case place => exact absurd rfl hnotify
  case stop => exact absurd rfl hnotify
  case join =>
    show ((pool.apply (.joinManager m)).managers m).task = _ ∧
      ((pool.apply (.joinManager m)).managers m).go = _
    rw [managers_join]
    exact ⟨rfl, rfl⟩
  case submit | enter | refuse | close | destroy => exact ⟨rfl, rfl⟩
  all_goals exact absurd rfl hother

theorem Moves.waits (hmoves : Moves m pool t input p piece)
    (hop : piece.op = .wait (.manager m)) :
    t = .worker m ∧ (pool.managers m).task = none ∧ (pool.managers m).go = true ∧
      (program m).dataAfter piece pool = pool := by
  cases hmoves
  case wait hgo hslot => exact ⟨rfl, hslot, hgo, rfl⟩
  case join hjoin => rcases hjoin with rfl | ⟨rfl, -⟩ <;> cases hop
  all_goals cases hop

/-- A thread changes the status of the manager when its worker has left. -/
theorem Moves.status (hmoves : Moves m pool t input p piece) :
    (((program m).dataAfter piece pool).managers m).status = (pool.managers m).status ∨
      piece.op = .join (.worker m) ∨ (pool.managers m).status ≠ .running := by
  cases hmoves
  case place c task result hslot =>
    refine .inl ?_
    show ((pool.apply (.place task m)).managers m).status = _
    rw [managers_place]
  case stop =>
    refine .inl ?_
    show ((pool.apply (.stopManager m)).managers m).status = _
    rw [managers_stop]
  case discard =>
    refine .inl ?_
    show ((pool.apply (.discard m)).managers m).status = _
    rw [managers_discard]
  case finish =>
    refine .inl ?_
    show ((pool.apply (.finish m)).managers m).status = _
    rw [managers_finish]
  case join hop => exact .inr (hop.imp_right And.right)
  all_goals exact .inl rfl

/-- A worker that has left stays so. -/
theorem Moves.not_exited (hmoves : Moves m pool (.worker m) input p piece) :
    p ≠ .worker .exited := by
  rintro rfl
  cases hmoves with
  | finish input p hp => rcases hp with ⟨-, h⟩ | ⟨-, standard, h⟩ <;> cases h

namespace Tidy

/-- Only the worker sleeps on the condition of its manager. -/
theorem eq_of_waiter (h : Tidy m state) (hlocked : (program m).Locked state)
    (ht : t ∈ (state.monitor (.manager m)).waiters) : t = .worker m := by
  have hwaits : (state.pc t).waitsAt m = some (.manager m) := hlocked.waits _ t ht
  have hfits := h.fits t
  cases hp : state.pc t with
  | client call accepted =>
      rw [hp] at hwaits
      cases hwaits
  | handler =>
      rw [hp] at hwaits
      cases hwaits
  | worker q =>
      rw [hp] at hwaits hfits
      cases q with
      | woken =>
          cases t with
          | worker i =>
              rcases hfits with rfl | hexited
              · rfl
              · cases hexited
          | _ => exact hfits.elim
      | _ => cases hwaits

/-- So a notification wakes it. -/
theorem signal_wakes (h : Tidy m state) (hlocked : (program m).Locked state) (choice : Nat) :
    ((state.monitor (.manager m)).signal choice).waiters = [] :=
  hlocked.signal_waiters_of_alone (fun _ ht => h.eq_of_waiter hlocked ht) choice

theorem asleep_advance (h : Tidy m state) (hlocked : (program m).Locked state)
    (hmoves : Moves m state.data t input (state.pc t) piece)
    (hawake : t ∉ (state.monitor (.manager m)).waiters) (choice : Nat)
    (hasleep : .worker m ∈ (((program m).advance state t piece choice).monitor
      (.manager m)).waiters) :
    (((program m).dataAfter piece state.data).managers m).task = none ∧
      (((program m).dataAfter piece state.data).managers m).go = true := by
  by_cases hop : piece.op = .wait (.manager m)
  · obtain ⟨-, hslot, hgo, hsame⟩ := hmoves.waits hop
    rw [hsame]
    exact ⟨hslot, hgo⟩
  by_cases hnotify : piece.notify = some (.manager m)
  · rcases Program.perform_waiters t (notified state.monitor piece.notify choice) piece.op
      (.manager m) with hsame | ⟨hwait, -⟩
    · simp only [Program.advance, hsame] at hasleep
      rw [hnotify, notified, Function.update_self, h.signal_wakes hlocked] at hasleep
      exact absurd hasleep List.not_mem_nil
    · exact absurd hwait hop
  · rw [Program.advance_waiters choice hnotify hop] at hasleep
    have hother : t ≠ .worker m := fun heq => hawake (heq ▸ hasleep)
    obtain ⟨htask, hgo⟩ := hmoves.wakes hnotify hother
    rw [htask, hgo]
    exact h.asleep hasleep

theorem advance (h : Tidy m state) (hlocked : (program m).Locked state) {choice : Nat}
    (hcode : (program m).code t input (state.pc t) state.data = some piece)
    (henabled : (program m).Enabled state t piece.op)
    (hallowed : Allowed state (.run t input choice)) :
    Tidy m ((program m).advance state t piece choice) := by
  have hmoves := code_moves hcode
  have hworks : t = .worker m → (state.pc t).Works m state.data := fun ht => ht ▸ h.works
  refine ⟨fun other => ?_, hmoves.books h.books hworks (h.calls t), ?_,
    hmoves.calls hallowed h.fits h.calls,
    h.asleep_advance hlocked hmoves (hlocked.awake wellLocked hcode (.inl henabled) _) choice,
    fun hstatus => ?_⟩
  · by_cases hother : other = t
    · subst hother
      simpa [Program.advance] using hmoves.fits
    · simpa [Program.advance, hother] using h.fits other
  · by_cases hself : .worker m = t
    · subst hself
      simpa [Program.advance] using hmoves.works h.works
    · simp only [Program.advance, Function.update_of_ne hself]
      refine hmoves.works_other (Ne.symm hself) h.books (h.calls t) (h.fits _) ?_ h.works
      exact fun hmine htheirs => hself (hlocked.exclusive htheirs hmine)
  · have hexited : state.pc (.worker m) = .worker .exited := by
      rcases hmoves.status with hsame | hjoin | hstatus
      · exact h.joined (hsame ▸ hstatus)
      · rw [hjoin] at henabled
        exact of_decide_eq_true henabled
      · exact h.joined hstatus
    have hself : .worker m ≠ t := by
      rintro rfl
      exact hmoves.not_exited hexited
    simpa [Program.advance, hself] using hexited

end Tidy

theorem locked_reaches (hrun : Reaches (program m).step Allowed (initial m) state) :
    (program m).Locked state :=
  locked_initial.reaches wellLocked hrun

theorem tidy (hrun : Reaches (program m).step Allowed (initial m) state) : Tidy m state := by
  induction hrun with
  | refl => exact tidy_initial
  | tail action hprior hallowed hstep ih =>
      have hlocked := locked_reaches hprior
      rcases Program.step_cases hstep with
        ⟨t, input, choice, piece, rfl, hcode, henabled, rfl⟩ |
        ⟨t, input, choice, piece, rfl, hcode, hraises, rfl⟩ | ⟨monitor, t, rfl, hmem, rfl⟩
      · exact ih.advance hlocked hcode henabled hallowed
      · cases hop : piece.op with
        | lock monitor =>
            rw [hop] at hraises
            exact absurd ((hlocked.owner monitor t).mp hraises) ((code_moves hcode).not_held hop)
        | _ =>
            rw [hop] at hraises
            exact hraises.elim
      · refine ⟨ih.fits, ih.books, ih.works, ih.calls, fun hasleep => ih.asleep ?_, ih.joined⟩
        by_cases hmonitor : monitor = .manager m
        · subst hmonitor
          simp only [Function.update_self, Monitor.wakeSpuriously_waiters] at hasleep
          exact List.mem_of_mem_erase hasleep
        · simpa [Function.update_of_ne (Ne.symm hmonitor)] using hasleep

/-! ## What a manager guarantees -/

/-- The guarantees of a `TaskManager` to its clients. -/
structure Keeps (m : ManagerId) (state : MailboxState) : Prop where
  /-- `set_task` succeeds if and only if it finds the slot empty, and then fills it; it
  leaves the slot as it is otherwise. -/
  setTask : ∀ c task accepted choice next,
    state.pc (.client c) = .client (some (.setTask task .body)) accepted →
    (program m).step state (.run (.client c) .go choice) = some next →
      ∃ result, next.pc (.client c) = .client none (some result) ∧
        (result = true ↔ (state.data.managers m).task = none) ∧
        (result = true → (next.data.managers m).task = task) ∧
        (result = false → (next.data.managers m).task = (state.data.managers m).task)
  /-- A task is run at most as often as it has been accepted. -/
  started : ∀ x, state.data.log.started.count x ≤ (accepted state.data).count x
  /-- An accepted task is in the slot, or it has been deleted. -/
  deleted : ∀ x, state.data.log.deleted.count x + (state.data.managers m).task.toList.count x =
    (accepted state.data).count x
  /-- The worker is not left asleep with a task, or when it has to stop. -/
  asleep : .worker m ∈ (state.monitor (.manager m)).waiters →
    (state.data.managers m).task = none ∧ (state.data.managers m).go = true
  /-- Behind an exception the worker goes on as behind a return. -/
  throws : ∀ standard first second, state.pc (.worker m) = .worker (.running none) →
    ((program m).step state (.run (.worker m) (.throws standard) first)).bind
        (fun caught => (program m).step caught (.run (.worker m) .go second)) =
      (program m).step state (.run (.worker m) .returns second)
  /-- A worker that has left its loop leaves an empty slot and has deleted every task. -/
  left : (∃ q, state.pc (.worker m) = .worker (.remove q)) ∨
      state.pc (.worker m) = .worker .exited →
    (state.data.managers m).task = none ∧ state.data.log.deleted = accepted state.data
  /-- So has the destructor when it has joined the worker. -/
  joined : (state.data.managers m).status ≠ .running →
    (state.data.managers m).task = none ∧ state.data.log.deleted = accepted state.data

theorem setTask_result {c choice : Nat} {task : Option Runnable} {result : Option Bool}
    {next : MailboxState}
    (hpoint : state.pc (.client c) = .client (some (.setTask task .body)) result)
    (hstep : (program m).step state (.run (.client c) .go choice) = some next) :
    ∃ result, next.pc (.client c) = .client none (some result) ∧
      (result = true ↔ (state.data.managers m).task = none) ∧
      (result = true → (next.data.managers m).task = task) ∧
      (result = false → (next.data.managers m).task = (state.data.managers m).task) := by
  rcases Program.step_cases hstep with
    ⟨t, input, chosen, piece, heq, hcode, henabled, rfl⟩ |
    ⟨t, input, chosen, piece, heq, hcode, hraises, rfl⟩ | ⟨monitor, t, heq, -⟩
  · cases heq
    have hmoves := code_moves hcode
    rw [hpoint] at hmoves
    cases hmoves with
    | place c task result hslot =>
        refine ⟨true, by simp [Program.advance], iff_of_true rfl hslot, fun _ => ?_, by rintro ⟨⟩⟩
        show ((state.data.apply (.place task m)).managers m).task = task
        rw [managers_place]
    | refuse c task result hslot =>
        refine ⟨false, by simp [Program.advance], iff_of_false ?_ hslot, ?_, fun _ => rfl⟩
        · rintro ⟨⟩
        · rintro ⟨⟩
  · cases heq
    have hmoves := code_moves hcode
    rw [hpoint] at hmoves
    cases hmoves <;> exact hraises.elim
  · cases heq

/-- The handlers lead to the code behind the run of the task. -/
theorem throws_returns (standard : Bool) (first second : Nat)
    (hpoint : state.pc (.worker m) = .worker (.running none)) :
    ((program m).step state (.run (.worker m) (.throws standard) first)).bind
        (fun caught => (program m).step caught (.run (.worker m) .go second)) =
      (program m).step state (.run (.worker m) .returns second) := by
  simp [Program.step, program, code, hpoint, worker, Program.Enabled, Program.advance, run,
    TaskManager.run, Program.dataAfter, Op.perform, notified]

/-- In every run of a manager, with any number of clients, the slot is kept. -/
theorem run_keeps (hrun : Reaches (program m).step Allowed (initial m) state) :
    Keeps m state := by
  have htidy := tidy hrun
  obtain ⟨haccepted, hdeleted, -⟩ := htidy.books
  have hleft : (∃ q, state.pc (.worker m) = .worker (.remove q)) ∨
      state.pc (.worker m) = .worker .exited →
      (state.data.managers m).task = none ∧ state.data.log.deleted = accepted state.data := by
    intro hpoint
    have hslot : (state.data.managers m).task = none := by
      have hworks := htidy.works
      rcases hpoint with ⟨q, hpoint⟩ | hpoint <;> rw [hpoint] at hworks <;> exact hworks.2.1
    rw [haccepted, hslot, Option.toList_none, List.append_nil]
    exact ⟨rfl, rfl⟩
  refine ⟨fun c task result choice next => setTask_result, fun x => ?_, fun x => ?_,
    htidy.asleep, fun standard first second => throws_returns standard first second, hleft,
    fun hstatus => hleft (.inr (htidy.joined hstatus))⟩
  · rw [haccepted, hdeleted, List.count_append, List.count_append]
    rcases htidy.works.started with h | h <;> rw [h]
    · omega
    · rw [List.count_append]
      omega
  · rw [haccepted, List.count_append]

/-- A check for runs in which the manager is not destroyed. -/
def permitted (state : MailboxState) : MailboxAction → Bool
  | .run (.client _) (.setTask _) _ => state.data.log.closing = false
  | .run (.client _) .destroy _ => false
  | _ => true

/-- For instance: a task throws, and the worker goes on to the next one. -/
theorem run_keeps_throwing : ∃ state : MailboxState, Keeps 0 state ∧
    (state.data.log.finished, state.data.log.started, accepted state.data) =
      ([7], [7, 8], [7, 8]) := by
  let submit (task : Runnable) : List MailboxAction :=
    .run (.client 0) (.setTask (some task)) 0 :: List.replicate 2 (.run (.client 0) .go 0)
  let work (n : Nat) : List MailboxAction := List.replicate n (.run (.worker 0) .go 0)
  obtain ⟨state, hrun, hobserved⟩ : ∃ state : MailboxState,
      Reaches (program 0).step Allowed (initial 0) state ∧
        (state.data.log.finished, state.data.log.started, accepted state.data) =
          ([7], [7, 8], [7, 8]) := by
    refine Reaches.of_observed permitted
      (submit 7 ++ work 4 ++ [.run (.worker 0) (.throws true) 0] ++ work 2 ++ submit 8 ++ work 3)
      (fun state action hpermitted => ?_) (by decide +kernel)
    cases action with
    | run t input choice =>
        cases t with
        | client c =>
            cases input with
            | setTask =>
                show state.data.log.closing = false
                exact of_decide_eq_true hpermitted
            | destroy => cases hpermitted
            | _ => exact True.intro
        | _ => exact True.intro
    | spurious => exact True.intro
  exact ⟨state, run_keeps hrun, hobserved⟩

end ThreadPools.Posix.Mailbox
