/-
# The order of the monitors

While tasks do not call the pool that runs them, every thread enters the
monitors in one order: the dispatcher's, the pool's, one manager's, and the
`ThreadList`'s last, which is entered by starting and ending threads only. A
worker is joined inside the pool's monitor and needs only the monitors behind
it; the dispatcher is joined outside of all monitors. So no cycle of blocked
threads is reachable.
-/

import ThreadPools.Posix.Usage

namespace ThreadPools.Posix

open ThreadPools.Concurrency

/-- The place of a monitor in the order; the joins of the dispatcher and of the
workers have the places 0 and 3. -/
def MonitorId.level : MonitorId → Nat
  | .dispatcher => 1
  | .pool => 2
  | .manager _ => 4
  | .threadList => 5

/-- The monitors have been entered in their order, the last one in front. -/
def InOrder (held : List MonitorId) : Prop :=
  held.Pairwise fun inner outer => outer.level < inner.level

/-! ## Every point respects the order -/

theorem inOrder_append {held : List MonitorId} {outer : MonitorId} (h : InOrder held)
    (habove : ∀ m ∈ held, outer.level < m.level) : InOrder (held ++ [outer]) := by
  refine List.pairwise_append.mpr ⟨h, List.pairwise_singleton _ _, fun m hm other hother => ?_⟩
  rw [List.mem_singleton.mp hother]
  exact habove m hm

theorem Section.inOrder (m : MonitorId) (p : Section) : InOrder (p.held m) := by
  cases p with
  | lock => exact List.Pairwise.nil
  | body => exact List.pairwise_singleton _ _

theorem Section.eq_of_mem_held {m other : MonitorId} {p : Section} (h : other ∈ p.held m) :
    other = m := by
  cases p with
  | lock => cases h
  | body => exact List.mem_singleton.mp h

/-- What a method of one manager holds. -/
def WithinManager (held : List MonitorId) : Prop :=
  InOrder held ∧ ∀ m ∈ held, 2 < m.level

theorem Section.withinManager (m : ManagerId) (p : Section) :
    WithinManager (p.held (.manager m)) := by
  refine ⟨p.inOrder _, fun other hother => ?_⟩
  rw [eq_of_mem_held hother]
  show 2 < 4
  decide

theorem ScanPoint.withinManager (p : ScanPoint) : WithinManager p.held := by
  cases p with
  | isIdle m rest p => exact p.withinManager m
  | setTask m rest p => exact p.withinManager m

namespace ThreadPool

theorem EmptyPoint.withinManager (p : EmptyPoint) : WithinManager p.held := by
  cases p with
  | destroy m rest p =>
      cases p with
      | body => exact Section.withinManager m .body
      | lock | join => exact ⟨List.Pairwise.nil, nofun⟩
  | clear => exact ⟨List.Pairwise.nil, nofun⟩

/-- What a method of the base class holds. -/
def WithinPool (held : List MonitorId) : Prop :=
  InOrder held ∧ ∀ m ∈ held, 1 < m.level

theorem withinPool_nil : WithinPool [] := ⟨List.Pairwise.nil, nofun⟩

theorem withinPool_append {held : List MonitorId} (h : WithinManager held) :
    WithinPool (held ++ [.pool]) := by
  refine ⟨inOrder_append h.1 h.2, fun m hm => ?_⟩
  rcases List.mem_append.mp hm with hm | hm
  · exact Nat.lt_of_succ_lt (h.2 m hm)
  · rw [List.mem_singleton.mp hm]
    decide

theorem withinPool_pool : WithinPool [.pool] :=
  have hnothing : WithinManager [] := ⟨List.Pairwise.nil, nofun⟩
  withinPool_append hnothing

theorem ExecutePoint.withinPool (p : ExecutePoint) : WithinPool p.held := by
  cases p with
  | enter | woken => exact withinPool_nil
  | scan p => exact withinPool_append p.withinManager
  | test | placed | failed => exact withinPool_pool

theorem CheckPoint.withinPool (p : CheckPoint) : WithinPool p.held := by
  cases p with
  | enter => exact withinPool_nil
  | probe m rest p => exact withinPool_append (p.withinManager m)
  | test | leave => exact withinPool_pool

theorem TerminatePoint.withinPool (p : TerminatePoint) : WithinPool p.held := by
  cases p with
  | enter => exact withinPool_nil
  | stop m rest p => exact withinPool_append (p.withinManager m)
  | empty p => exact withinPool_append p.withinManager
  | finish => exact withinPool_pool

theorem EmptyPoint.withinPool (p : EmptyPoint) : WithinPool p.held :=
  ⟨p.withinManager.1, fun m hm => Nat.lt_of_succ_lt (p.withinManager.2 m hm)⟩

theorem DestroyPoint.withinPool (p : DestroyPoint) : WithinPool p.held := by
  cases p with
  | terminate p => exact p.withinPool
  | empty p => exact p.withinPool
  | release => exact withinPool_nil

end ThreadPool

namespace QueuedThreadPool

theorem RunPoint.inOrder (p : RunPoint) : InOrder p.held := by
  cases p with
  | add p | remove p => exact p.inOrder _
  | assign t p =>
      exact inOrder_append p.withinManager.1
        fun m hm => Nat.lt_of_succ_lt (p.withinManager.2 m hm)
  | enter | wokenInner | wokenIdle | exited => exact List.Pairwise.nil
  | _ => exact List.pairwise_singleton _ _

theorem CheckPoint.inOrder (p : CheckPoint) : InOrder p.held := by
  cases p with
  | enter => exact List.Pairwise.nil
  | base p => exact inOrder_append p.withinPool.1 p.withinPool.2
  | test | leave => exact List.pairwise_singleton _ _

theorem TerminatePoint.inOrder (p : TerminatePoint) : InOrder p.held := by
  cases p with
  | enter => exact List.Pairwise.nil
  | base p => exact inOrder_append p.withinPool.1 p.withinPool.2
  | stop | leave => exact List.pairwise_singleton _ _

theorem DestroyPoint.inOrder (p : DestroyPoint) : InOrder p.held := by
  cases p with
  | terminate p => exact p.inOrder
  | join => exact List.Pairwise.nil
  | emptyQueue p => exact p.inOrder _
  | baseTerminate p => exact p.withinPool.1
  | base p => exact p.withinPool.1

end QueuedThreadPool

theorem Call.inOrder (call : Call) : InOrder call.held := by
  cases call with
  | execute task p => exact p.withinPool.1
  | isIdle p | isBusy p => exact p.withinPool.1
  | terminate p => exact p.withinPool.1
  | destroy p => exact p.withinPool.1
  | queuedExecute task p | queueLength p => exact p.inOrder _
  | queuedIsIdle p | queuedIsBusy p => exact p.inOrder
  | queuedTerminate p => exact p.inOrder
  | queuedDestroy p => exact p.inOrder

/-- While tasks do not call back, every thread has entered its monitors in order. -/
theorem Point.inOrder {kind : Kind} {t : Tid} {p : Point}
    (hfits : p.Fits kind noCallback t) : InOrder (p.held t) := by
  cases t with
  | client c =>
      obtain ⟨call, rfl⟩ := Fits.client hfits
      cases call with
      | none => exact List.Pairwise.nil
      | some call => exact call.inOrder
  | dispatcher =>
      obtain ⟨q, rfl⟩ := Fits.dispatcher hfits
      exact q.inOrder
  | worker m =>
      obtain ⟨q, rfl⟩ := Fits.worker hfits
      cases q with
      | add p | remove p => exact p.inOrder _
      | running call =>
          cases call with
          | none => exact List.pairwise_singleton _ _
          | some call => exact (hfits call rfl).2.elim
      | enter | woken | exited => exact List.Pairwise.nil
      | loop | inner => exact List.pairwise_singleton _ _

/-! ## Joins -/

/-- What a thread holds when it joins another one. -/
def Joinable (held : List MonitorId) (other : Tid) : Prop :=
  (other = .dispatcher ∧ held = []) ∨
    ∃ m, other = .worker m ∧ ∀ outer ∈ held, outer = .pool ∨ outer = .dispatcher

namespace ThreadPool

theorem emptyTaskList_join {p : EmptyPoint} {pool : Pool} {other : Tid}
    (hop : (emptyTaskList p pool).op = .join other) :
    ∃ m, other = .worker m ∧ p.held = [] := by
  cases p with
  | destroy m rest p =>
      cases p with
      | lock | body => cases hop
      | join =>
          simp only [emptyTaskList, TaskManager.destroy] at hop
          split at hop <;> cases hop
          exact ⟨m, rfl, rfl⟩
  | clear => cases hop

theorem terminate_join {p : TerminatePoint} {pool : Pool} {other : Tid}
    (hop : (terminate p pool).op = .join other) :
    ∃ m, other = .worker m ∧ p.held = [.pool] := by
  cases p with
  | stop m rest p => cases p <;> cases hop
  | empty p =>
      obtain ⟨m, rfl, hheld⟩ := emptyTaskList_join hop
      exact ⟨m, rfl, by simp [TerminatePoint.held, hheld]⟩
  | enter | finish => cases hop

theorem destroy_join {p : DestroyPoint} {pool : Pool} {other : Tid}
    (hop : (destroy p pool).op = .join other) :
    ∃ m, other = .worker m ∧ ∀ outer ∈ p.held, outer = .pool ∨ outer = .dispatcher := by
  cases p with
  | terminate p =>
      obtain ⟨m, rfl, hheld⟩ := terminate_join hop
      exact ⟨m, rfl, by simp [DestroyPoint.held, hheld]⟩
  | empty p =>
      obtain ⟨m, rfl, hheld⟩ := emptyTaskList_join hop
      exact ⟨m, rfl, by simp [DestroyPoint.held, hheld]⟩
  | release => cases hop

theorem check_not_join (onEmpty onBusy atEnd : Bool) (p : CheckPoint) (pool : Pool)
    (other : Tid) : (check onEmpty onBusy atEnd p pool).op ≠ .join other := by
  cases p with
  | probe m rest p => cases p <;> rintro ⟨⟩
  | test =>
      simp only [check]
      split <;> rintro ⟨⟩
  | enter | leave => rintro ⟨⟩

end ThreadPool

theorem scan_not_join (t : Option Runnable) (p : ScanPoint) (pool : Pool) (other : Tid) :
    (scan t p pool).op ≠ .join other := by
  have hmoves := scan_moves t p pool
  generalize scan t p pool = piece at hmoves
  cases hmoves <;> nofun

namespace QueuedThreadPool

theorem check_not_join (result : Bool → Bool) (p : CheckPoint) (pool : Pool) (other : Tid) :
    (check result p pool).op ≠ .join other := by
  cases p with
  | base p => exact ThreadPool.check_not_join _ _ _ p pool other
  | test =>
      simp only [check]
      split <;> rintro ⟨⟩
  | enter | leave => rintro ⟨⟩

theorem terminate_join {p : TerminatePoint} {pool : Pool} {other : Tid}
    (hop : (terminate p pool).op = .join other) :
    ∃ m, other = .worker m ∧ ∀ outer ∈ p.held, outer = .pool ∨ outer = .dispatcher := by
  cases p with
  | base p =>
      obtain ⟨m, rfl, hheld⟩ := ThreadPool.terminate_join hop
      exact ⟨m, rfl, by simp [TerminatePoint.held, hheld]⟩
  | enter | stop | leave => cases hop

theorem destroy_join {p : DestroyPoint} {pool : Pool} {other : Tid}
    (hop : (destroy p pool).op = .join other) : Joinable p.held other := by
  cases p with
  | terminate p => exact .inr (terminate_join hop)
  | join =>
      simp only [destroy] at hop
      split at hop <;> cases hop
      exact .inl ⟨rfl, rfl⟩
  | emptyQueue p => cases p <;> cases hop
  | baseTerminate p =>
      obtain ⟨m, rfl, hheld⟩ := ThreadPool.terminate_join hop
      exact .inr ⟨m, rfl, by simp [DestroyPoint.held, hheld]⟩
  | base p => exact .inr (ThreadPool.destroy_join hop)

end QueuedThreadPool

theorem Call.execute_not_join {call : Call} (hexecute : mayExecute call.method) {pool : Pool}
    {other : Tid} : (call.code pool).op ≠ .join other := by
  obtain ⟨task, htask⟩ := hexecute
  cases call with
  | execute task p =>
      cases p with
      | scan p => exact scan_not_join task p pool other
      | test =>
          simp only [code, piece, ThreadPool.execute, Instr.map_op]
          split <;> rintro ⟨⟩
      | _ => rintro ⟨⟩
  | queuedExecute task p =>
      cases p with
      | lock => rintro ⟨⟩
      | body =>
          simp only [code, piece, QueuedThreadPool.execute, Instr.map_op]
          split <;> rintro ⟨⟩
  | _ => cases htask

/-- Threads are joined by `terminate` and the destructors. -/
theorem Call.code_join {call : Call} {pool : Pool} {other : Tid}
    (hop : (call.code pool).op = .join other) : Joinable call.held other := by
  cases call with
  | execute task p | queuedExecute task p => exact absurd hop (execute_not_join ⟨task, rfl⟩)
  | isIdle p | isBusy p => exact absurd hop (ThreadPool.check_not_join _ _ _ p pool other)
  | terminate p =>
      obtain ⟨m, rfl, hheld⟩ := ThreadPool.terminate_join hop
      exact .inr ⟨m, rfl, by simp [held, hheld]⟩
  | destroy p => exact .inr (ThreadPool.destroy_join hop)
  | queueLength p => cases p <;> cases hop
  | queuedIsIdle p | queuedIsBusy p =>
      exact absurd hop (QueuedThreadPool.check_not_join _ p pool other)
  | queuedTerminate p => exact .inr (QueuedThreadPool.terminate_join hop)
  | queuedDestroy p => exact QueuedThreadPool.destroy_join hop

namespace Config

variable {cfg : Config} {pool : Pool} {t other : Tid} {input : Input} {p : Point}
  {piece : Piece Point} {m : MonitorId}

/-- Only clients join while tasks call nothing but `execute`. -/
theorem Moves.join (hmoves : cfg.Moves pool t input p piece)
    (hfits : p.Fits cfg.kind mayExecute t) (hop : piece.op = .join other) :
    (∃ c, t = .client c) ∧ Joinable (p.held t) other := by
  cases hmoves with
  | enter => cases hop
  | call t call ht =>
      have hjoin : Joinable call.held other := Call.code_join hop
      cases t with
      | client c =>
          refine ⟨⟨c, rfl⟩, ?_⟩
          rw [Tid.held_calling ht]
          simpa [Tid.outer] using hjoin
      | dispatcher => exact absurd rfl ht
      | worker m => exact absurd hop (Call.execute_not_join (hfits call rfl).2)
  | dispatcher hmoves =>
      cases hmoves with
      | assign t p => exact absurd hop (scan_not_join (some t) p pool other)
      | add p | remove p => cases p <;> cases hop
      | _ => cases hop
  | worker m input hmoves =>
      cases hmoves with
      | add p | remove p => cases p <;> cases hop
      | _ => cases hop

/-- A worker enters its own monitor and the `ThreadList` only. -/
theorem Moves.lock_of_worker {i : ManagerId} (hmoves : cfg.Moves pool (.worker i) input p piece)
    (hfits : p.Fits cfg.kind noCallback (.worker i)) (hop : piece.op = .lock m) :
    3 < m.level := by
  generalize ht : Tid.worker i = t at hmoves hfits
  cases hmoves with
  | enter => cases hop
  | call t call hcall =>
      subst ht
      exact (hfits call rfl).2.elim
  | dispatcher => cases ht
  | worker i input hmoves =>
      cases hmoves with
      | add p | remove p =>
          cases p with
          | lock => cases hop; exact Nat.lt_succ_of_lt (Nat.lt_succ_self 3)
          | body => cases hop
      | enter | woken => cases hop; exact Nat.lt_succ_self 3
      | _ => cases hop

/-! ## No cycle of blocked threads -/

/-- The edges of the relation `BlockedBy`, with their places in the order. -/
inductive Blocks (cfg : Config) (state : PoolState) : Nat → Tid → Tid → Prop
  | lock {t other : Tid} (m : MonitorId) (hrequests : cfg.program.Requests state t m)
      (howner : (state.monitor m).owner = some other) : Blocks cfg state m.level t other
  | worker {t : Tid} (m : ManagerId) (hjoins : cfg.program.Joins state t (.worker m)) :
      Blocks cfg state 3 t (.worker m)
  | dispatcher {t : Tid} (hjoins : cfg.program.Joins state t .dispatcher) :
      Blocks cfg state 0 t .dispatcher

variable {state : PoolState}

theorem blocks_of_blockedBy (hshape : (cfg.shape mayExecute).Holds state)
    (h : cfg.program.BlockedBy state t other) : ∃ label, cfg.Blocks state label t other := by
  rcases h with ⟨m, hrequests, howner, -⟩ | ⟨hjoins, -⟩
  · exact ⟨_, .lock m hrequests howner⟩
  · obtain ⟨input, piece, hcode, hop⟩ := hjoins
    rcases ((code_moves hcode).join (hshape.assertion t) hop).2 with ⟨rfl, -⟩ | ⟨m, rfl, -⟩
    · exact ⟨0, .dispatcher ⟨input, piece, hcode, hop⟩⟩
    · exact ⟨3, .worker m ⟨input, piece, hcode, hop⟩⟩

/-- No thread enters a method together with a monitor. -/
theorem Moves.fits_of_lock {allowed : Method → Prop}
    (hmoves : cfg.Moves pool t input p piece) (hfits : p.Fits cfg.kind allowed t)
    (hop : piece.op = .lock m) : piece.next.Fits cfg.kind allowed t := by
  have hgo : ∀ t p, TasksCall allowed t .go p pool := fun _ _ _ _ _ => nofun
  cases hmoves with
  | enter => cases hop
  | call t call ht => exact (Moves.call t call ht).fits (hgo _ _) hfits
  | dispatcher hmoves => exact (Moves.dispatcher hmoves).fits (hgo _ _) hfits
  | worker i input hmoves => exact (Moves.worker i .go hmoves).fits (hgo _ _) hfits

/-- A thread that holds a monitor, and is not in a task's call, is blocked at a later
place only. -/
theorem blocks_after_held {label : Nat} (hfits : (state.pc t).Fits cfg.kind noCallback t)
    (hheld : m ∈ (state.pc t).held t) (h : cfg.Blocks state label t other) :
    m.level < label := by
  have hjoin : ∀ {joined}, cfg.program.Joins state t joined →
      Joinable ((state.pc t).held t) joined := by
    rintro joined ⟨input, piece, hcode, hop⟩
    exact ((code_moves hcode).join hfits.mono hop).2
  cases h with
  | lock next hrequests =>
      obtain ⟨input, piece, hcode, hop, -⟩ := hrequests
      have hmoves := code_moves hcode
      have hbalanced := hmoves.balanced
      rw [hop] at hbalanced
      -- behind the lock the monitors are still in order
      have hafter := Point.inOrder (hmoves.fits_of_lock hfits hop)
      rw [hbalanced] at hafter
      exact (List.pairwise_cons.mp hafter).1 m hheld
  | worker i hjoins =>
      rcases hjoin hjoins with ⟨hworker, -⟩ | ⟨_, -, hwithin⟩
      · cases hworker
      · rcases hwithin m hheld with rfl | rfl
        · exact Nat.lt_succ_self 2
        · exact Nat.lt_succ_of_lt (Nat.lt_succ_self 1)
  | dispatcher hjoins =>
      rcases hjoin hjoins with ⟨-, hnone⟩ | ⟨_, hworker, -⟩
      · rw [hnone] at hheld
        cases hheld
      · cases hworker

/-- Along a path of blocked threads the places grow, where it leads through a thread
that is not in a task's call. -/
theorem blocks_grow {label later : Nat} {first second third : Tid}
    (hfits : (state.pc second).Fits cfg.kind noCallback second)
    (hlocked : cfg.program.Locked state) (hfirst : cfg.Blocks state label first second)
    (hsecond : cfg.Blocks state later second third) : label < later := by
  cases hfirst with
  | lock m hrequests howner =>
      exact blocks_after_held hfits ((hlocked.owner m second).mp howner) hsecond
  | worker i hjoins =>
      cases hsecond with
      | lock m hrequests =>
          obtain ⟨input, piece, hcode, hop, -⟩ := hrequests
          exact (code_moves hcode).lock_of_worker hfits hop
      | worker _ hjoins | dispatcher hjoins =>
          obtain ⟨input, piece, hcode, hop⟩ := hjoins
          obtain ⟨⟨c, hclient⟩, -⟩ := (code_moves hcode).join hfits.mono hop
          cases hclient
  | dispatcher hjoins =>
      cases hsecond with
      | lock m => cases m <;> exact Nat.succ_pos _
      | worker => exact Nat.succ_pos 2
      | dispatcher hjoins =>
          obtain ⟨input, piece, hcode, hop⟩ := hjoins
          obtain ⟨⟨c, hclient⟩, -⟩ := (code_moves hcode).join hfits.mono hop
          cases hclient

variable {guard : PoolState → PoolAction → Prop}

/-- While tasks do not call back, no reachable state contains a cycle of threads each
of which is blocked on a monitor of the next one or joins it. -/
theorem not_deadlocked
    (hguard : ∀ state action, guard state action →
      Annotation.Respects (TasksCall noCallback) state action)
    (hrun : Reaches cfg.program.step guard cfg.initial state) :
    ¬ cfg.program.Deadlocked state := by
  rintro ⟨t, hcycle⟩
  have hshape := shape_of_reaches hguard hrun
  have hlocked := locked_of_reaches hrun
  have hedge : ∀ t other, cfg.program.BlockedBy state t other →
      ∃ label, cfg.Blocks state label t other :=
    fun _ _ => blocks_of_blockedBy ⟨fun t => (hshape.assertion t).mono, hshape.resource, trivial⟩
  exact not_transGen_self_of_labels (cfg.Blocks state)
    (fun hfirst hsecond => blocks_grow (hshape.assertion _) hlocked hfirst hsecond) t
    (Relation.TransGen.mono hedge _ _ hcycle)

/-- The dispatcher is blocked by a client that terminates the pool, but not in a
cycle. -/
theorem not_deadlocked_terminating : ∃ state : PoolState,
    (Config.complete .queuedThreadPool 1).program.BlockedBy state .dispatcher (.client 0) ∧
      ¬ (Config.complete .queuedThreadPool 1).program.Deadlocked state := by
  let cfg := Config.complete .queuedThreadPool 1
  obtain ⟨state, hrun, hobserved⟩ : ∃ state : PoolState,
      Reaches cfg.program.step Contract cfg.initial state ∧
        (state.pc .dispatcher, (state.monitor .dispatcher).owner,
          (state.monitor .dispatcher).waiters) =
        (.dispatcher .enter, some (.client 0), []) :=
    Reaches.of_observed (fun state action => decide (Contract state action))
      (PoolAction.call (.client 0) .terminate :: PoolAction.steps (.client 0) 2 ++
        PoolAction.steps .dispatcher 2)
      (fun _ _ => of_decide_eq_true) (by decide +kernel)
  simp only [Prod.mk.injEq] at hobserved
  obtain ⟨hpoint, howner, hwaiters⟩ := hobserved
  have hrequests : cfg.program.Requests state .dispatcher .dispatcher := by
    refine ⟨.go, { op := .lock .dispatcher, next := .dispatcher .outer }, ?_, rfl, ?_⟩
    · rw [hpoint]
      rfl
    · simp [hwaiters]
  exact ⟨state, .inl ⟨.dispatcher, hrequests, howner, nofun⟩,
    not_deadlocked (fun _ _ h => h.1) hrun⟩

end Config

end ThreadPools.Posix
