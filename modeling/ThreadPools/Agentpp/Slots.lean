/-
# The slot of a manager

A task gets into the slot of a manager only in a critical section of `set_task`, which finds
the slot empty and notifies the worker. Only the worker waits for the condition of its
manager, and only the worker empties the slot. The thread in such a section owns the
manager's monitor; the worker may have lost it.
-/

import ThreadPools.Agentpp.Steps

namespace ThreadPools.Agentpp

open ThreadPools.Concurrency

/-! ## Offering a task -/

/-- Where a thread is that looks at the managers one after another. -/
inductive Place
  /-- in the loop that offers the task `t` -/
  | scan (t : Option Runnable) (p : ScanPoint)
  /-- inside `stop()` of the manager `m` -/
  | stop (m : ManagerId)

/-- The manager whose critical section the thread is in. -/
def Place.critical : Place → Option ManagerId
  | .scan _ (.isIdle m .body) | .scan _ (.setTask m .body) | .stop m => some m
  | .scan _ (.isIdle _ .lock) | .scan _ (.setTask _ .lock) => none

def Call.place : Call → Option Place
  | .execute t (.scan p) => some (.scan t p)
  | .queuedExecute t (.assign (.scan p)) => some (.scan t p)
  | .terminate (.stop m .body) => some (.stop m)
  | _ => none

def Point.place : Point → Option Place
  | .dispatcher (.assign t (.scan p)) => some (.scan (some t) p)
  | .client call | .worker (.running call) => call.bind Call.place
  | _ => none

/-- The effect does not concern the managers, or stops one in `terminate()`. -/
def Effect.Aside (terminates : Prop) : Effect → Prop
  | .enter _ | .add _ | .removeFirst | .stop | .setOneTimeExecution _ => True
  | .stopManager _ => terminates
  | .place _ _ | .begin _ | .delete _ => False

/-- What a piece of code between two places does to the managers. -/
structure Offers {X : Type} (terminates : Prop) (pool : Pool) (piece : Piece X)
    (before after : Option Place) : Prop where
  effect : ∀ e, piece.effect = some e → e.Aside terminates ∨ ∃ t m, e = .place t m ∧
    before = some (.scan t (.setTask m .body)) ∧ (pool.managers m).task = none ∧
      piece.notify = some (.manager m) ∧ piece.op = .unlock (.manager m)
  places : ∀ t m, before = some (.scan t (.setTask m .body)) → (pool.managers m).task = none →
    piece.effect = some (.place t m)
  enters : ∀ t m, after = some (.scan t (.setTask m .body)) → piece.op = .lock (.manager m)
  locks : ∀ m, piece.op = .lock (.manager m) → after.bind Place.critical = some m
  leaves : ∀ m, before.bind Place.critical = some m → piece.op = .unlock (.manager m)

theorem Offers.map {X Y : Type} {pool : Pool} {piece : Piece X} {terminates other : Prop}
    {before after : Option Place} (h : Offers terminates pool piece before after)
    (himp : terminates → other) (f : X → Y) : Offers other pool (piece.map f) before after := by
  refine ⟨fun e he => (h.effect e he).imp_left fun haside => ?_, h.places, h.enters, h.locks,
    h.leaves⟩
  cases e <;> first | exact haside | exact himp haside

/-- A piece of code outside of the loops, which may lead to their beginning. -/
theorem Offers.aside {X : Type} {pool : Pool} {piece : Piece X} {terminates : Prop}
    {after : Option Place} (heffect : ∀ e, piece.effect = some e → e.Aside terminates)
    (hop : ∀ m, piece.op ≠ .lock (.manager m)) (hafter : after.bind Place.critical = none) :
    Offers terminates pool piece none after := by
  refine ⟨fun e he => .inl (heffect e he), nofun, ?_, fun m h => absurd h (hop m), nofun⟩
  rintro t m rfl
  cases hafter

variable (size : Nat) (t : Option Runnable) (pool : Pool)

theorem scan_offers (p : ScanPoint) :
    Offers False pool (scan size t p pool) (some (.scan t p))
      ((scan size t p pool).next.elim (fun q => some (.scan t q)) fun _ => none) := by
  have hscans := scan_scans size t p pool
  generalize scan size t p pool = piece at hscans
  cases hscans with
  | probe m | enter m =>
      refine ⟨nofun, nofun, fun s n h => ?_, fun n h => ?_, nofun⟩
      · cases h <;> rfl
      · cases h
        rfl
  | leave m n p next hp hnext =>
      refine ⟨nofun, fun s k h hempty => ?_, fun s k h => ?_, nofun, fun k h => ?_⟩
      · rcases hp with rfl | ⟨rfl, hfull⟩ <;> cases h
        rw [hempty] at hfull
        cases hfull
      · rcases hnext with rfl | rfl | rfl <;> cases h
      · rcases hp with rfl | ⟨rfl, -⟩ <;> cases h <;> rfl
  | place m hempty =>
      refine ⟨fun e he => ?_, fun s k h _ => ?_, nofun, nofun, fun k h => ?_⟩
      · cases he
        exact .inr ⟨t, m, rfl, rfl, hempty, rfl, rfl⟩
      · cases h
        rfl
      · cases h
        rfl

theorem ThreadPool.execute_offers (p : ThreadPool.ExecutePoint) :
    Offers False pool (execute size t p pool) (Call.place (.execute t p))
      ((execute size t p pool).next.elim (Call.place ∘ .execute t) fun _ => none) := by
  cases p with
  | search =>
      refine .aside nofun nofun ?_
      rcases ScanPoint.start_cases size 0 with hstart | hstart <;> rw [execute, hstart] <;> rfl
  | scan p =>
      have hoffers := scan_offers size t pool p
      simp only [execute, Instr.map_next]
      rcases hnext : (scan size t p pool).next with q | _ | _ <;> rw [hnext] at hoffers <;>
        exact hoffers.map id _
  | _ => exact .aside nofun nofun rfl

namespace QueuedThreadPool

/-- The place inside `assign(t)`. -/
def AssignPoint.place (t : Option Runnable) : AssignPoint → Option Place
  | .scan p => some (.scan t p)
  | _ => none

theorem assign_offers (p : AssignPoint) :
    Offers False pool (assign size t p pool) (p.place t)
      ((assign size t p pool).next.elim (AssignPoint.place t) fun _ => none) := by
  cases p with
  | search =>
      refine .aside nofun nofun ?_
      rcases ScanPoint.start_cases size 0 with hstart | hstart <;> rw [assign, hstart] <;> rfl
  | scan p =>
      have hoffers := scan_offers size t pool p
      simp only [assign, Instr.map_next]
      rcases hnext : (scan size t p pool).next with q | _ | _ <;> rw [hnext] at hoffers <;>
        exact hoffers.map id _
  | add =>
      refine .aside (fun e he => ?_) nofun rfl
      cases he
      trivial

theorem execute_offers (p : ExecutePoint) :
    Offers False pool (execute size t p pool) (Call.place (.queuedExecute t p))
      ((execute size t p pool).next.elim (Call.place ∘ .queuedExecute t) fun _ => none) := by
  cases p with
  | enter | add =>
      refine .aside (fun e he => ?_) nofun rfl
      cases he
      trivial
  | test =>
      refine .aside nofun nofun ?_
      simp only [execute, Sum.elim_inl, Function.comp_apply]
      split <;> rfl
  | assign p =>
      have hoffers := assign_offers size t pool p
      have hbefore : Call.place (.queuedExecute t (.assign p)) = p.place t := by cases p <;> rfl
      rw [hbefore]
      simp only [execute, Instr.map_next]
      rcases hnext : (assign size t p pool).next with q | _ <;> rw [hnext] at hoffers
      · cases q <;> exact hoffers.map id _
      · exact hoffers.map id _
  | notify => exact .aside nofun nofun rfl

variable {size pool} in
theorem run_offers {p : RunPoint} {piece : Piece RunPoint} (hrun : run size p pool = some piece) :
    Offers False pool piece (Point.place (.dispatcher p))
      (Point.place (.dispatcher piece.next)) := by
  cases p with
  | assign x p =>
      cases hrun
      have hoffers := assign_offers size (some x) pool p
      have hbefore : Point.place (.dispatcher (.assign x p)) = p.place (some x) := by
        cases p <;> rfl
      rw [hbefore]
      simp only [Instr.map_next]
      rcases hnext : (assign size (some x) p pool).next with q | _ <;> rw [hnext] at hoffers
      · cases q <;> exact hoffers.map id _
      · exact hoffers.map id _
  | loop =>
      simp only [run] at hrun
      split at hrun <;> cases hrun <;> exact .aside (by rintro _ ⟨⟩) (by rintro _ ⟨⟩) rfl
  | removeFirst =>
      cases hrun
      refine .aside (fun e he => ?_) (by rintro _ ⟨⟩) ?_
      · cases he
        trivial
      · cases pool.queue.head?.getD none <;> rfl
  | exited => cases hrun
  | _ =>
      cases hrun
      exact .aside (by rintro _ ⟨⟩) (by rintro _ ⟨⟩) rfl

end QueuedThreadPool

theorem Call.code_offers (c : Call) :
    Offers (∃ p, c = .terminate p) pool (c.code size pool) c.place
      ((c.code size pool).next.elim Call.place fun _ => none) := by
  cases c with
  | execute s p =>
      have hoffers := ThreadPool.execute_offers size s pool p
      simp only [Call.code, Instr.map_next]
      rcases hnext : (ThreadPool.execute size s p pool).next with q | _ <;>
        rw [hnext] at hoffers <;> exact hoffers.map False.elim _
  | queuedExecute s p =>
      have hoffers := QueuedThreadPool.execute_offers size s pool p
      simp only [Call.code, Instr.map_next]
      rcases hnext : (QueuedThreadPool.execute size s p pool).next with q | _ <;>
        rw [hnext] at hoffers <;> exact hoffers.map False.elim _
  | terminate p =>
      have hnext (m : ManagerId) :
          (Call.terminate (ThreadPool.TerminatePoint.next size m)).place = none := by
        unfold ThreadPool.TerminatePoint.next
        split <;> rfl
      cases p with
      | stop m p =>
          cases p with
          | lock =>
              refine ⟨nofun, nofun, nofun, fun n h => ?_, nofun⟩
              cases h
              rfl
          | body =>
              refine ⟨fun e he => ?_, nofun, nofun, nofun, fun n h => ?_⟩
              · cases he
                exact .inl ⟨_, rfl⟩
              · cases h
                rfl
      | enter => exact .aside nofun nofun (congrArg (Option.bind · Place.critical) (hnext 0))
      | notify m =>
          exact .aside nofun nofun (congrArg (Option.bind · Place.critical) (hnext (m + 1)))
      | leave => exact .aside nofun nofun rfl
  | setOneTimeExecution singleExec | stop =>
      refine .aside (fun e he => ?_) nofun rfl
      cases he
      trivial

variable {pool} {cfg : Config} {thread : Tid} {p : Point} {instr : Piece Point}

@[simp] theorem Point.within_place (t : Tid) (call : Call ⊕ Unit) :
    (Point.within t call).place = call.elim Call.place fun _ => none := by
  cases t <;> cases call <;> rfl

/-- The worker runs a task. -/
def Point.runs : Point → Bool
  | .worker (.running _) => true
  | _ => false

theorem Point.runs_resumed {p : Point} (h : p.runs = true) : p.resumed.runs = true := by
  cases p with
  | worker q =>
      cases q with
      | running call => cases call <;> rfl
      | _ => cases h
  | client | dispatcher => cases h

theorem Point.runs_within (m : ManagerId) (call : Call ⊕ Unit) :
    (Point.within (.worker m) call).runs = true := rfl

/-- A worker makes a step of its own, or a thread a step that offers a task or does not concern
the managers; a worker does that inside its task. -/
theorem Moves.offers (h : Moves cfg thread pool p instr) :
    (Offers (∃ q, p.call = some (.terminate q)) pool instr p.place instr.next.place ∧
      ∀ m, thread = .worker m → p.runs = true ∧ instr.next.runs = true) ∨
      ∃ m q piece, thread = .worker m ∧ p = .worker q ∧ instr = piece.map .worker ∧
        TaskManager.Moves (idleNotification cfg.kind) m pool q piece := by
  cases h with
  | call c =>
      have hoffers := Call.code_offers cfg.size pool c
      refine .inl ⟨?_, ?_⟩
      · rw [Point.within_place, Instr.map_next, Point.within_place]
        refine hoffers.map ?_ _
        rintro ⟨q, rfl⟩
        exact ⟨q, Point.within_call _ _⟩
      · rintro m rfl
        exact ⟨Point.runs_within m _, Point.runs_within m _⟩
  | enter method c hentry =>
      have hplace : c.place = none := by
        cases hkind : cfg.kind <;> rw [hkind] at hentry <;> cases method <;> cases hentry <;> rfl
      refine .inl ⟨?_, ?_⟩
      · rw [Point.within_place, Point.within_place, Sum.elim_inl, hplace]
        exact .aside nofun nofun rfl
      · rintro m rfl
        exact ⟨Point.runs_within m _, Point.runs_within m _⟩
  | dispatcher p piece ht hrun =>
      refine .inl ⟨(QueuedThreadPool.run_offers hrun).map False.elim _, ?_⟩
      rintro m rfl
      cases ht
  | worker m p piece ht hmoves => exact .inr ⟨m, p, piece, ht, rfl, rfl, hmoves⟩

/-! ## The monitor of a manager -/

variable (cfg)

theorem TaskManager.Moves.place {idleNotification : MonitorId} {m : ManagerId}
    {q : TaskManager.RunPoint Call} {piece : Piece (TaskManager.RunPoint Call)}
    (h : TaskManager.Moves idleNotification m pool q piece) :
    (Point.worker piece.next).place = none := by
  cases h with
  | inner p hp =>
      rw [hp]
      split <;> rfl
  | _ => rfl

/-- A thread in the critical section of `set_task` has entered the monitor. -/
theorem manager_enteredBy (m : ManagerId) :
    cfg.program.EnteredBy (.manager m) fun _ p =>
      ∃ t, p.place = some (.scan t (.setTask m .body)) where
  enters := fun {thread input p pool instr} hcode ⟨t, hnext⟩ => by
    rcases (code_moves hcode).offers with ⟨hoffers, -⟩ | ⟨k, q, piece, -, -, rfl, hmoves⟩
    · exact .inl (hoffers.enters t m hnext)
    · cases hmoves.place.symm.trans hnext
  resumes := fun {thread input p pool instr n} hcode hop ⟨t, hnext⟩ => by
    rcases (code_moves hcode).of_wait hop with
      ⟨-, task, -, htarget⟩ | ⟨-, -, htarget⟩ | ⟨k, -, -, -, htarget⟩
    · change instr.next.resumed.place = _ at hnext
      rw [htarget] at hnext
      cases thread <;> cases hnext
    · change instr.next.resumed.place = _ at hnext
      rw [htarget] at hnext
      cases hnext
    · change instr.next.resumed.place = _ at hnext
      rw [htarget] at hnext
      cases hnext

/-- Only the worker waits for the condition of its manager. -/
theorem manager_asleepAt (m : ManagerId) :
    cfg.program.AsleepAt (.manager m) fun t p => t = .worker m ∧ p = .worker .woken where
  waits := fun hcode hop => by
    rcases (code_moves hcode).of_wait hop with ⟨hm, -⟩ | ⟨hm, -⟩ | ⟨k, ht, hm, -, hnext⟩
    · cases hm
    · cases hm
    · cases hm
      exact ⟨ht, hnext⟩
  relocks := fun {thread input p pool instr} hcode ⟨ht, hp⟩ => by
    have hmoves := code_moves hcode
    subst ht
    cases hmoves with
    | call c => cases hp
    | enter method c hentry => cases hp
    | dispatcher p piece ht hrun => cases ht
    | worker k q piece ht hmoves =>
        cases ht
        cases hp
        cases hmoves
        rfl

/-- The owner of the monitor is the worker, or a thread in a critical section. -/
theorem manager_leftBy (m : ManagerId) :
    cfg.program.LeftBy (.manager m) fun t p =>
      t = .worker m ∨ p.place.bind Place.critical = some m where
  locks := fun {thread input p pool instr} hcode hop => by
    rcases (code_moves hcode).offers with ⟨hoffers, -⟩ | ⟨k, q, piece, rfl, -, rfl, hmoves⟩
    · exact .inr (hoffers.locks m hop)
    · left
      cases hmoves <;> cases hop <;> rfl
  keeps := fun {thread input p pool instr} hcode hbefore => by
    rcases hbefore with rfl | hbefore
    · exact .inr (.inr (.inl rfl))
    · rcases (code_moves hcode).offers with ⟨hoffers, -⟩ | ⟨k, q, piece, -, rfl, -, hmoves⟩
      · exact .inl (hoffers.leaves m hbefore)
      · cases hmoves <;> cases hbefore
  resumes := fun {thread input p pool instr n} hcode hop hbefore => by
    rcases hbefore with rfl | hbefore
    · exact .inl rfl
    · rcases (code_moves hcode).offers with ⟨hoffers, -⟩ | ⟨k, q, piece, -, rfl, -, hmoves⟩
      · cases hop.symm.trans (hoffers.leaves m hbefore)
      · cases hmoves <;> cases hbefore

end ThreadPools.Agentpp
