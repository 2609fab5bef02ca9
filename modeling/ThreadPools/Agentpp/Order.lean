/-
# The order in which the dispatcher hands the tasks over

Between `entered` and `handed` the tasks of a `QueuedThreadPool` are in its queue, in the hand
of a client inside `execute`, or in the hand of the dispatcher. Only the thread inside the
dispatcher's monitor has a task in its hand, and a client that offers its task to the managers
has found the queue empty. A task in the hand of the dispatcher was the front of the queue;
`assign` adds it to the end when no manager accepts it.
-/

import Mathlib.Data.List.ReduceOption
import ThreadPools.Agentpp.Steps

namespace ThreadPools.Agentpp

open ThreadPools.Concurrency

/-! ## What is in a hand -/

/-- What a thread inside the dispatcher's monitor does with a task. -/
inductive Hand
  | empty
  /-- a client is about to add its task to the queue, or to find the queue empty -/
  | entering (t : Option Runnable)
  /-- a client offers its task to the managers -/
  | offering (t : Option Runnable)
  /-- the dispatcher offers the former front of the queue to the managers -/
  | dispatching (t : Runnable)

/-- The tasks that have been handed over, the ones in the hand and the queue are in order. -/
def Hand.Orders (pool : Pool) : Hand → Prop
  | .empty => pool.log.entered = pool.log.handed.map Prod.fst ++ pool.queue.reduceOption
  | .entering t =>
      pool.log.entered =
        pool.log.handed.map Prod.fst ++ pool.queue.reduceOption ++ t.toList
  | .offering t =>
      pool.queue = [] ∧ pool.log.entered = pool.log.handed.map Prod.fst ++ t.toList
  | .dispatching t =>
      pool.log.entered = pool.log.handed.map Prod.fst ++ t :: pool.queue.reduceOption

/-- The hand of a client inside `execute(t)`. -/
def QueuedThreadPool.ExecutePoint.hand (t : Option Runnable) :
    QueuedThreadPool.ExecutePoint → Option Hand
  | .enter => none
  | .test | .add => some (.entering t)
  | .assign _ => some (.offering t)
  | .notify => some .empty

/-- The hand of the dispatcher. -/
def QueuedThreadPool.RunPoint.hand : QueuedThreadPool.RunPoint → Option Hand
  | .enter | .woken | .exited => none
  | .loop | .removeFirst | .wait => some .empty
  | .assign t _ => some (.dispatching t)

def Call.hand : Call → Option Hand
  | .queuedExecute t p => p.hand t
  | _ => none

/-- The hand of a thread, if it is inside the dispatcher's monitor. -/
def Point.hand : Point → Option Hand
  | .dispatcher p => p.hand
  | .client call | .worker (.running call) => call.bind Call.hand
  | .worker _ => none

/-- The operation is not one of the dispatcher's monitor. -/
def Elsewhere (op : Op Tid MonitorId) : Prop :=
  op ≠ .lock .dispatcher ∧ op ≠ .unlock .dispatcher ∧ op ≠ .wait .dispatcher

/-- The queue and the tasks that have entered or have been handed over are the same. -/
structure Pool.SameTasks (pool after : Pool) : Prop where
  entered : after.log.entered = pool.log.entered
  handed : after.log.handed = pool.log.handed
  queue : after.queue = pool.queue

theorem Pool.SameTasks.orders {pool after : Pool} (h : pool.SameTasks after) {hand : Hand}
    (horders : hand.Orders pool) : hand.Orders after := by
  cases hand <;> simpa only [Hand.Orders, h.entered, h.handed, h.queue] using horders

/-- What a piece of code between two points with the given hands does to the order, when it is
`allowed`. -/
inductive Queues {X : Type} (allowed : Prop) (pool : Pool) (piece : Piece X) :
    Option Hand → Option Hand → Prop
  | outside (hop : Elsewhere piece.op) (hsame : allowed → pool.SameTasks (pool.behind piece)) :
      Queues allowed pool piece none none
  | enter (hand : Hand) (hop : piece.op = .lock .dispatcher)
      (horders : Hand.empty.Orders pool → hand.Orders (pool.behind piece)) :
      Queues allowed pool piece none (some hand)
  | inside (hand next : Hand) (hop : Elsewhere piece.op)
      (horders : allowed → hand.Orders pool → next.Orders (pool.behind piece)) :
      Queues allowed pool piece (some hand) (some next)
  | leave (hand : Hand) (hop : piece.op = .unlock .dispatcher ∨ piece.op = .wait .dispatcher)
      (horders : hand.Orders pool → Hand.empty.Orders (pool.behind piece)) :
      Queues allowed pool piece (some hand) none

theorem Queues.map {X Y : Type} {allowed weaker : Prop} {pool : Pool} {piece : Piece X}
    {before after : Option Hand} (h : Queues allowed pool piece before after)
    (himp : weaker → allowed) (f : X → Y) : Queues weaker pool (piece.map f) before after := by
  cases h with
  | outside hop hsame => exact .outside hop fun h => hsame (himp h)
  | enter hand hop horders => exact .enter hand hop horders
  | inside hand next hop horders => exact .inside hand next hop fun h => horders (himp h)
  | leave hand hop horders => exact .leave hand hop horders

/-! ## The code of the queue -/

/-- The task `t` in the hand is offered to the managers. -/
def Hand.Offers (t : Option Runnable) : Hand → Prop
  | .offering s => s = t
  | .dispatching x => some x = t
  | _ => False

variable {size : Nat} {t : Option Runnable} {pool : Pool}

theorem Scans.elsewhere {p : ScanPoint} {piece : Piece (ScanPoint ⊕ Bool)}
    (h : Scans t pool p piece) : Elsewhere piece.op := by
  cases h <;> exact ⟨nofun, nofun, nofun⟩

/-- The loop over the managers hands the task over, or keeps it. -/
theorem Scans.orders {p : ScanPoint} {piece : Piece (ScanPoint ⊕ Bool)}
    (h : Scans t pool p piece) {hand : Hand} (hoffers : hand.Offers t)
    (horders : hand.Orders pool) :
    (if piece.next = .inr true then Hand.empty else hand).Orders (pool.behind piece) := by
  cases h with
  | probe | enter => exact horders
  | leave m n p next hp hnext =>
      rcases hnext with rfl | rfl | rfl <;> exact horders
  | place m =>
      have hhanded : (t.toList.map fun x => (x, m)).map Prod.fst = t.toList := by
        cases t <;> rfl
      simp only [Hand.Orders, if_true, Pool.behind, Option.elim_some, Pool.apply, Pool.update,
        List.map_append, hhanded]
      cases hand with
      | offering s =>
          cases hoffers
          simpa [horders.1] using horders.2
      | dispatching x =>
          cases hoffers
          simpa [Hand.Orders] using horders
      | empty | entering => cases hoffers

variable (size t pool)

namespace QueuedThreadPool

theorem assign_elsewhere (p : AssignPoint) : Elsewhere (assign size t p pool).op := by
  cases p with
  | search | add => exact ⟨nofun, nofun, nofun⟩
  | scan p => exact (scan_scans size t p pool).elsewhere

/-- `assign` hands the task over, keeps it, or adds it to the queue; the dispatcher may do that
only when there is no other task. -/
theorem assign_orders (p : AssignPoint) {hand : Hand} (hoffers : hand.Offers t)
    (halone : ∀ x, hand = .dispatching x → p = .add → pool.queue.reduceOption = [])
    (horders : hand.Orders pool) :
    ((assign size t p pool).next.elim (fun _ => hand) fun _ => .empty).Orders
      (pool.behind (assign size t p pool)) := by
  cases p with
  | search =>
      rcases ScanPoint.start_cases size 0 with hstart | hstart <;>
        simp only [assign, hstart] <;> exact horders
  | scan p =>
      have hscan := (scan_scans size t p pool).orders hoffers horders
      simp only [assign, Instr.map_next, Pool.behind_map]
      rcases hnext : (scan size t p pool).next with q | _ | _ <;> rw [hnext] at hscan <;>
        exact hscan
  | add =>
      cases hand with
      | offering =>
          cases hoffers
          obtain ⟨hqueue, hentered⟩ := horders
          simpa [assign, Hand.Orders, Pool.behind, Pool.apply, hqueue,
            List.reduceOption_singleton] using hentered
      | dispatching x =>
          cases hoffers
          have hqueue := halone x rfl rfl
          simpa [assign, Hand.Orders, Pool.behind, Pool.apply, hqueue,
            List.reduceOption_append, List.reduceOption_singleton] using horders
      | empty | entering => cases hoffers

theorem execute_queues (p : ExecutePoint) :
    Queues True pool (execute size t p pool) (p.hand t)
      ((execute size t p pool).next.elim (ExecutePoint.hand t) fun _ => none) := by
  cases p with
  | enter =>
      exact .enter _ rfl fun horders => congrArg (· ++ t.toList) horders
  | test =>
      cases hqueue : pool.queue with
      | nil =>
          simp only [execute, hqueue]
          refine .inside _ _ ⟨nofun, nofun, nofun⟩ fun _ horders => ⟨hqueue, ?_⟩
          simpa [Hand.Orders, hqueue, Pool.behind] using horders
      | cons front rest =>
          simp only [execute, hqueue]
          exact .inside _ _ ⟨nofun, nofun, nofun⟩ fun _ => id
  | assign p =>
      have hoffers : (Hand.offering t).Offers t := rfl
      have hassign := assign_orders size t pool p hoffers nofun
      have hop := assign_elsewhere size t pool p
      simp only [execute, Instr.map_next]
      rcases hnext : (assign size t p pool).next with q | _ <;> rw [hnext] at hassign <;>
        exact .inside _ _ hop fun _ => hassign
  | add =>
      refine .inside _ _ ⟨nofun, nofun, nofun⟩ fun _ horders => ?_
      simpa [Hand.Orders, execute, Pool.behind, Pool.apply, List.reduceOption_append,
        List.reduceOption_singleton] using horders
  | notify => exact .leave _ (.inl rfl) id

variable {size t pool} in
/-- The dispatcher takes the front of the queue, and offers it to the managers. -/
theorem run_queues {p : RunPoint} {piece : Piece RunPoint}
    (hrun : run size p pool = some piece) :
    Queues (∀ x, p = .assign x .add → pool.queue.reduceOption = []) pool piece p.hand
      piece.next.hand := by
  cases p with
  | enter | woken =>
      cases hrun
      exact .enter _ rfl id
  | loop =>
      simp only [run] at hrun
      split at hrun <;> cases hrun
      · exact .inside _ _ ⟨by rintro ⟨⟩, by rintro ⟨⟩, by rintro ⟨⟩⟩ fun _ => id
      · exact .leave _ (.inl rfl) id
  | removeFirst =>
      cases hrun
      rcases hqueue : pool.queue with _ | ⟨_ | x, rest⟩
      · refine .inside _ .empty ⟨by rintro ⟨⟩, by rintro ⟨⟩, by rintro ⟨⟩⟩ fun _ horders => ?_
        simpa [Hand.Orders, Pool.behind, Pool.apply, hqueue] using horders
      · refine .inside _ .empty ⟨by rintro ⟨⟩, by rintro ⟨⟩, by rintro ⟨⟩⟩ fun _ horders => ?_
        simpa [Hand.Orders, Pool.behind, Pool.apply, hqueue] using horders
      · refine .inside _ (.dispatching x) ⟨by rintro ⟨⟩, by rintro ⟨⟩, by rintro ⟨⟩⟩
          fun _ horders => ?_
        simpa [Hand.Orders, Pool.behind, Pool.apply, hqueue,
          List.reduceOption_cons_of_some] using horders
  | assign x p =>
      cases hrun
      have hoffers : (Hand.dispatching x).Offers (some x) := rfl
      have hassign (halone : p = .add → pool.queue.reduceOption = []) :=
        assign_orders size (some x) pool p hoffers fun _ _ => halone
      have hop := assign_elsewhere size (some x) pool p
      simp only [Instr.map_next]
      rcases hnext : (assign size (some x) p pool).next with q | _ <;> rw [hnext] at hassign <;>
        exact .inside _ _ hop fun halone => hassign fun hadd => halone x (congrArg _ hadd)
  | wait =>
      cases hrun
      exact .leave _ (.inr rfl) id
  | exited => cases hrun

end QueuedThreadPool

/-- The call is not one of `ThreadPool::execute`. -/
def Call.Queued : Call → Prop
  | .execute _ _ => False
  | _ => True

theorem ThreadPool.terminate_queues (p : ThreadPool.TerminatePoint) :
    Elsewhere (ThreadPool.terminate size p pool).op ∧
      pool.SameTasks (pool.behind (ThreadPool.terminate size p pool)) := by
  cases p with
  | enter | notify m | leave => exact ⟨⟨nofun, nofun, nofun⟩, ⟨rfl, rfl, rfl⟩⟩
  | stop m p => cases p <;> exact ⟨⟨nofun, nofun, nofun⟩, ⟨rfl, rfl, rfl⟩⟩

theorem ThreadPool.execute_elsewhere (p : ThreadPool.ExecutePoint) :
    Elsewhere (ThreadPool.execute size t p pool).op := by
  cases p with
  | scan p => exact (scan_scans size t p pool).elsewhere
  | _ => exact ⟨nofun, nofun, nofun⟩

theorem Call.code_queues (c : Call) :
    Queues c.Queued pool (c.code size pool) c.hand
      ((c.code size pool).next.elim Call.hand fun _ => none) := by
  cases c with
  | execute task p =>
      have hop := ThreadPool.execute_elsewhere size task pool p
      simp only [Call.code, Instr.map_next]
      rcases (ThreadPool.execute size task p pool).next with q | _ <;> exact .outside hop nofun
  | queuedExecute task p =>
      have hqueues := QueuedThreadPool.execute_queues size task pool p
      simp only [Call.code, Instr.map_next]
      rcases hnext : (QueuedThreadPool.execute size task p pool).next with q | _ <;>
        rw [hnext] at hqueues <;> exact hqueues.map id _
  | terminate p =>
      obtain ⟨hop, hsame⟩ := ThreadPool.terminate_queues size pool p
      simp only [Call.code, Instr.map_next]
      rcases (ThreadPool.terminate size p pool).next with q | _ <;>
        exact .outside hop fun _ => hsame
  | setOneTimeExecution singleExec | stop =>
      exact .outside ⟨nofun, nofun, nofun⟩ fun _ => ⟨rfl, rfl, rfl⟩

variable {size t pool}

@[simp] theorem Point.within_hand (t : Tid) (call : Call ⊕ Unit) :
    (Point.within t call).hand = call.elim Call.hand fun _ => none := by
  cases t <;> cases call <;> rfl

/-- The steps of a worker in its own loop leave the queue alone. -/
theorem TaskManager.Moves.queues {idleNotification : MonitorId} {m : ManagerId}
    {p : TaskManager.RunPoint Call} {piece : Piece (TaskManager.RunPoint Call)}
    (h : TaskManager.Moves idleNotification m pool p piece) :
    (Point.worker p).hand = none ∧ (Point.worker piece.next).hand = none ∧
      Elsewhere piece.op ∧ pool.SameTasks (pool.behind piece) := by
  cases h with
  | inner p hp =>
      refine ⟨rfl, ?_, ⟨nofun, nofun, nofun⟩, ⟨rfl, rfl, rfl⟩⟩
      rw [hp]
      split <;> rfl
  | discard effect heffect =>
      refine ⟨rfl, rfl, ⟨nofun, nofun, nofun⟩, ?_⟩
      rw [heffect]
      split <;> exact ⟨rfl, rfl, rfl⟩
  | _ => exact ⟨rfl, rfl, ⟨nofun, nofun, nofun⟩, ⟨rfl, rfl, rfl⟩⟩

variable {cfg : Config} {thread : Tid} {p : Point} {instr : Piece Point}

/-- The dispatcher is about to add a task that no manager has accepted. -/
def Point.requeues : Point → Bool
  | .dispatcher (.assign _ .add) => true
  | _ => false

/-- The step does not belong to a `ThreadPool`, and the dispatcher adds a task to the end of
the queue only when there is no other. -/
def Point.Keeps (p : Point) (pool : Pool) : Prop :=
  (∀ c, p.call = some c → c.Queued) ∧ (p.requeues = true → pool.queue.reduceOption = [])

/-- What a step of a thread does to the order. -/
theorem Moves.queues (h : Moves cfg thread pool p instr) :
    Queues (p.Keeps pool) pool instr p.hand instr.next.hand := by
  cases h with
  | call c =>
      have hqueues := Call.code_queues cfg.size pool c
      rw [Point.within_hand, Instr.map_next, Point.within_hand]
      exact hqueues.map (fun hkeeps => hkeeps.1 c (by simp)) _
  | enter method c hentry =>
      have hhand : c.hand = none := by
        cases hkind : cfg.kind <;> rw [hkind] at hentry <;> cases method <;> cases hentry <;> rfl
      rw [Point.within_hand, Point.within_hand, Sum.elim_inl, hhand]
      exact .outside ⟨nofun, nofun, nofun⟩ fun _ => ⟨rfl, rfl, rfl⟩
  | dispatcher p piece ht hrun =>
      exact (QueuedThreadPool.run_queues hrun).map
        (fun hkeeps x hx => hkeeps.2 (by rw [hx]; rfl)) _
  | worker m p piece ht hmoves =>
      obtain ⟨hbefore, hafter, hop, hsame⟩ := hmoves.queues
      rw [hbefore, Instr.map_next, hafter]
      exact .outside hop fun _ => hsame

/-! ## The thread inside the monitor -/

variable (cfg : Config)

/-- A thread that waits has a hand behind the wait exactly if it had one before. -/
theorem Moves.resumed_hand {n : MonitorId} (h : Moves cfg thread pool p instr)
    (hop : instr.op = .wait n) :
    instr.next.resumed.hand.isSome = p.hand.isSome := by
  rcases h.of_wait hop with ⟨-, task, rfl, hnext⟩ | ⟨-, rfl, hnext⟩ | ⟨m, -, -, rfl, hnext⟩
  · rw [hnext]
    cases thread <;> rfl
  · rw [hnext]
    rfl
  · rw [hnext]
    rfl

/-- The points inside the dispatcher's monitor are entered through it. -/
theorem dispatcher_enteredBy :
    cfg.program.EnteredBy .dispatcher fun _ p => p.hand.isSome = true where
  enters := fun {thread input p pool instr} hcode hnext => by
    have hqueues := (code_moves hcode).queues
    generalize p.hand = before, instr.next.hand = after at hqueues hnext
    cases hqueues with
    | outside | leave => cases hnext
    | enter hand hop => exact .inl hop
    | inside hand next hop => exact .inr ⟨rfl, hop.2⟩
  resumes := fun hcode hop hnext => ((code_moves hcode).resumed_hand cfg hop).symm.trans hnext

theorem dispatcher_leftBy :
    cfg.program.LeftBy .dispatcher fun _ p => p.hand.isSome = true where
  locks := fun {thread input p pool instr} hcode hop => by
    have hqueues := (code_moves hcode).queues
    generalize p.hand = before, instr.next.hand = after at hqueues
    cases hqueues with
    | outside hother => exact absurd hop hother.1
    | enter | inside => rfl
    | leave hand hleave => rcases hleave with hleave | hleave <;> cases hop.symm.trans hleave
  keeps := fun {thread input p pool instr} hcode hbefore => by
    have hqueues := (code_moves hcode).queues
    generalize p.hand = before, instr.next.hand = after at hqueues hbefore
    cases hqueues with
    | outside | enter => cases hbefore
    | inside => exact .inr (.inr rfl)
    | leave hand hop => exact hop.imp_right .inl
  resumes := fun hcode hop hbefore => ((code_moves hcode).resumed_hand cfg hop).trans hbefore

/-! ## The order -/

variable {cfg} {state after : PoolState} {action : PoolAction}

/-- No call is one of a `ThreadPool`. -/
def AllQueued (state : PoolState) : Prop :=
  ∀ t c, (state.pc t).call = some c → c.Queued

/-- The hand of the thread inside the dispatcher's monitor. -/
def handOf (state : PoolState) : Hand :=
  ((state.monitor .dispatcher).owner.bind fun t => (state.pc t).hand).getD .empty

theorem handOf_of_free (hfree : (state.monitor .dispatcher).owner = none) :
    handOf state = .empty := by
  simp [handOf, hfree]

theorem handOf_of_owner {t : Tid} {h : Hand}
    (howner : (state.monitor .dispatcher).owner = some t) (hhand : (state.pc t).hand = some h) :
    handOf state = h := by
  simp [handOf, howner, hhand]

/-- The owner of the dispatcher's monitor is the thread with a hand, and the order is kept. -/
structure InOrder (state : PoolState) : Prop where
  inside : ∀ t, (state.pc t).hand.isSome = true → (state.monitor .dispatcher).owner = some t
  owner : ∀ t, (state.monitor .dispatcher).owner = some t → (state.pc t).hand.isSome = true
  orders : (handOf state).Orders state.data

/-- When the dispatcher adds the task that no manager has accepted to the end of the queue,
there is no other task in the queue. -/
def RequeuesAlone (state : PoolState) (action : PoolAction) : Prop :=
  action.mover = some .dispatcher → (state.pc .dispatcher).requeues = true →
    state.data.queue.reduceOption = []

theorem Moves.dispatcher_of_requeues (h : Moves cfg thread pool p instr)
    (hp : p.requeues = true) : thread = .dispatcher := by
  cases h with
  | call c => cases thread <;> cases hp
  | enter method c hentry => cases thread <;> cases hp
  | dispatcher p piece ht => exact ht
  | worker m p piece ht => cases hp

/-- A step of a thread keeps the order. -/
theorem InOrder.run (h : InOrder state) {choice : Nat} {op : Op Tid MonitorId} {next : Point}
    (hmoves : Moves cfg thread state.data (state.pc thread) instr)
    (houtcome : cfg.program.Outcome state thread instr op next)
    (hkeeps : (state.pc thread).Keeps state.data) :
    (handOf (cfg.program.advance state thread instr op next choice)).Orders
      (state.data.behind instr) := by
  have horders := h.orders
  have hself : (cfg.program.advance state thread instr op next choice).pc thread = next :=
    TolerantProgram.advance_pc_self
  have hothers (t : Tid) (ht : t ≠ thread) :
      (cfg.program.advance state thread instr op next choice).pc t = state.pc t :=
    TolerantProgram.advance_pc_of_ne ht
  have hqueues := hmoves.queues
  generalize hbefore : (state.pc thread).hand = before, hbehind : instr.next.hand = behind
    at hqueues
  cases hqueues with
  | outside hop hsame =>
      have hkept := houtcome.kept choice hop
      have hhand : handOf (cfg.program.advance state thread instr op next choice) =
          handOf state := by
        rw [handOf, handOf, hkept]
        cases howner : (state.monitor .dispatcher).owner with
        | none => rfl
        | some t =>
            have hne : t ≠ thread := by
              rintro rfl
              cases hbefore ▸ h.owner t howner
            rw [Option.bind_some, Option.bind_some, hothers t hne]
      rw [hhand]
      exact (hsame hkeeps).orders horders
  | enter held hop hmore =>
      have hother : (state.monitor .dispatcher).owner ≠ some thread := fun howner => by
        cases hbefore ▸ h.owner thread howner
      obtain ⟨hfree, rfl, howner⟩ := houtcome.entered choice hop hother
      rw [handOf_of_free hfree] at horders
      rw [handOf_of_owner howner (hself ▸ hbehind)]
      exact hmore horders
  | inside held target hop hmore =>
      have howner := h.inside thread (by rw [hbefore]; rfl)
      rw [handOf_of_owner howner hbefore] at horders
      -- the thread does not wait: in this monitor it could wait on no other
      have hnext : next = instr.next := by
        rcases houtcome.next_cases with hnext | ⟨n, hwait, -, -⟩
        · exact hnext
        · rcases hmoves.of_wait hwait with
            ⟨-, task, hpoint, -⟩ | ⟨rfl, -, -⟩ | ⟨m, -, -, hpoint, -⟩
          · rw [hpoint, Point.within_hand] at hbefore
            cases hbefore
          · exact absurd hwait hop.2.2
          · rw [hpoint] at hbefore
            cases hbefore
      have howned := (houtcome.kept choice hop).trans howner
      rw [handOf_of_owner howned (by rw [hself, hnext, hbehind])]
      exact hmore hkeeps horders
  | leave held hop hmore =>
      have howner := h.inside thread (by rw [hbefore]; rfl)
      rw [handOf_of_owner howner hbefore] at horders
      rw [handOf_of_free (houtcome.left choice hop howner).2]
      exact hmore horders

theorem InOrder.step (h : InOrder state) (hqueued : AllQueued state)
    (hguard : RequeuesAlone state action) (hsteps : cfg.program.Steps state action after) :
    InOrder after := by
  refine ⟨(dispatcher_enteredBy cfg).owner h.inside hsteps,
    (dispatcher_leftBy cfg).inside h.owner hsteps, ?_⟩
  cases hsteps with
  | run thread input choice instr op next hcode houtcome =>
      refine h.run (code_moves hcode) houtcome ⟨hqueued thread, fun hrequeues => ?_⟩
      obtain rfl := (code_moves hcode).dispatcher_of_requeues hrequeues
      exact hguard rfl hrequeues
  | spurious m sleeper hwaiting =>
      have hsame : handOf { state with
          monitor := Function.update state.monitor m
            ((state.monitor m).wakeSpuriously sleeper) } = handOf state := by
        simp only [handOf, TolerantProgram.wakeSpuriously_owner]
      rw [hsame]
      exact h.orders

/-! ## The calls of a `QueuedThreadPool` -/

theorem Call.queued_of_code {c target : Call} (h : c.Queued)
    (hnext : (c.code size pool).next = .inl target) : target.Queued := by
  cases c with
  | execute task p => cases h
  | queuedExecute task p =>
      simp only [Call.code, Instr.map_next] at hnext
      generalize (QueuedThreadPool.execute size task p pool).next = result at hnext
      cases result <;> cases hnext
      trivial
  | terminate p =>
      simp only [Call.code, Instr.map_next] at hnext
      generalize (ThreadPool.terminate size p pool).next = result at hnext
      cases result <;> cases hnext
      trivial
  | setOneTimeExecution | stop => cases hnext

theorem Moves.queued (h : Moves cfg thread pool p instr) (hkind : cfg.kind = .queuedThreadPool)
    (hqueued : ∀ c, p.call = some c → c.Queued) : ∀ c, instr.next.call = some c → c.Queued := by
  intro target htarget
  cases h with
  | call c =>
      rw [Instr.map_next, Point.within_call] at htarget
      cases hnext : (c.code cfg.size pool).next with
      | inl q =>
          rw [hnext] at htarget
          cases htarget
          exact Call.queued_of_code (hqueued c (by simp)) hnext
      | inr => rw [hnext] at htarget; cases htarget
  | enter method c hentry =>
      rw [Point.within_call] at htarget
      cases htarget
      rw [hkind] at hentry
      cases method <;> cases hentry <;> trivial
  | dispatcher => cases htarget
  | worker m p piece ht hmoves =>
      cases hmoves with
      | inner p hp =>
          rw [Instr.map_next, hp] at htarget
          split at htarget <;> cases htarget
      | _ => cases htarget

theorem Moves.resumed_queued {n : MonitorId} (h : Moves cfg thread pool p instr)
    (hop : instr.op = .wait n) (hqueued : ∀ c, p.call = some c → c.Queued) :
    ∀ c, instr.next.resumed.call = some c → c.Queued := by
  intro c hc
  rcases h.of_wait hop with ⟨-, task, rfl, -⟩ | ⟨-, -, hnext⟩ | ⟨m, -, -, -, hnext⟩
  · cases hqueued (.execute task .failed) (by simp)
  · rw [hnext] at hc
    cases hc
  · rw [hnext] at hc
    cases hc

theorem AllQueued.step (h : AllQueued state) (hkind : cfg.kind = .queuedThreadPool)
    (hsteps : cfg.program.Steps state action after) : AllQueued after := by
  cases hsteps with
  | spurious => exact h
  | run thread input choice instr op next hcode houtcome =>
      intro t c hc
      by_cases hself : t = thread
      · subst hself
        replace hc : next.call = some c := by simpa [TolerantProgram.advance] using hc
        rcases houtcome.next_cases with rfl | ⟨n, hop, -, rfl⟩
        · exact (code_moves hcode).queued hkind (h t) c hc
        · exact (code_moves hcode).resumed_queued hop (h t) c hc
      · exact h t c (by simpa [TolerantProgram.advance, hself] using hc)

/-! ## First in, first out -/

variable {guard : PoolState → PoolAction → Prop}

theorem initialPoint_outside (t : Tid) :
    (cfg.initialPoint t).hand = none ∧ (cfg.initialPoint t).call = none := by
  cases t with
  | client => exact ⟨rfl, rfl⟩
  | dispatcher | worker =>
      simp only [Config.initialPoint]
      split <;> exact ⟨rfl, rfl⟩

theorem allQueued_initial : AllQueued cfg.initial := by
  intro t c hc
  rw [Config.initial, (initialPoint_outside t).2] at hc
  cases hc

theorem inOrder_initial : InOrder cfg.initial := by
  refine ⟨fun t ht => ?_, nofun, rfl⟩
  rw [Config.initial, (initialPoint_outside t).1] at ht
  cases ht

theorem allQueued_of_reaches (hkind : cfg.kind = .queuedThreadPool)
    (hrun : Reaches cfg.program.step guard cfg.initial state) : AllQueued state :=
  hrun.invariant allQueued_initial fun _ _ _ h _ hstep =>
    h.step hkind (TolerantProgram.step_cases hstep)

theorem inOrder_of_reaches (hkind : cfg.kind = .queuedThreadPool)
    (hguard : ∀ state action, guard state action → RequeuesAlone state action)
    (hrun : Reaches cfg.program.step guard cfg.initial state) : InOrder state :=
  hrun.invariant_of AllQueued (fun _ => allQueued_of_reaches hkind) inOrder_initial
    fun _ _ _ hqueued h hallowed hstep =>
      h.step hqueued (hguard _ _ hallowed) (TolerantProgram.step_cases hstep)

theorem Hand.Orders.handed {hand : Hand} (h : hand.Orders pool) :
    pool.log.handed.map Prod.fst <+: pool.log.entered := by
  cases hand with
  | empty => exact ⟨_, h.symm⟩
  | entering t => exact ⟨_, (h.trans (List.append_assoc _ _ _)).symm⟩
  | offering t => exact ⟨_, h.2.symm⟩
  | dispatching t => exact ⟨_, h.symm⟩

/-- The tasks are handed to the managers in the order in which their calls of `execute` have
entered the monitor, in every run in which the dispatcher finds the queue empty whenever it
adds a task again. -/
theorem handed_in_order (hkind : cfg.kind = .queuedThreadPool)
    (hguard : ∀ state action, guard state action → RequeuesAlone state action)
    (hrun : Reaches cfg.program.step guard cfg.initial state) :
    state.data.log.handed.map Prod.fst <+: state.data.log.entered :=
  (inOrder_of_reaches hkind hguard hrun).orders.handed

instance (state : PoolState) (action : PoolAction) : Decidable (RequeuesAlone state action) := by
  unfold RequeuesAlone
  infer_instance

/-- The worker has not yet looked into its slot when the second task arrives; the dispatcher
takes that and adds it again before the third one arrives. -/
theorem handed_in_order_requeued : ∃ state : PoolState,
    state.data.log.entered = [1, 2, 3] ∧ state.data.log.handed = [(1, 0), (2, 0)] ∧
      [(1, 0), (2, 0)].map Prod.fst <+: state.data.log.entered := by
  let cfg := Config.complete .queuedThreadPool 1
  let actions : List PoolAction :=
    PoolAction.call (.client 0) (.execute (some 1)) :: PoolAction.steps (.client 0) 8 ++
    PoolAction.call (.client 0) (.execute (some 2)) :: PoolAction.steps (.client 0) 7 ++
    PoolAction.steps .dispatcher 8 ++
    PoolAction.call (.client 0) (.execute (some 3)) :: PoolAction.steps (.client 0) 4 ++
    PoolAction.steps (.worker 0) 3 ++ PoolAction.finish 0 :: PoolAction.steps (.worker 0) 5 ++
    PoolAction.steps .dispatcher 8
  obtain ⟨state, hrun, hobserved⟩ : ∃ state : PoolState,
      Reaches cfg.program.step RequeuesAlone cfg.initial state ∧
        (state.data.log.entered, state.data.log.handed) = ([1, 2, 3], [(1, 0), (2, 0)]) :=
    Reaches.of_observed (fun state action => decide (RequeuesAlone state action)) actions
      (fun _ _ => of_decide_eq_true) (by decide +kernel)
  obtain ⟨hentered, hhanded⟩ := Prod.mk.inj hobserved
  exact ⟨state, hentered, hhanded, hhanded ▸ handed_in_order rfl (fun _ _ h => h) hrun⟩

/-- The third task arrives before the dispatcher takes the second one and adds it again. -/
theorem handed_out_of_order : ∃ state : PoolState,
    Reaches (Config.complete .queuedThreadPool 1).program.step (fun _ _ => True)
      (Config.complete .queuedThreadPool 1).initial state ∧
      ¬ state.data.log.handed.map Prod.fst <+: state.data.log.entered := by
  let actions : List PoolAction :=
    PoolAction.call (.client 0) (.execute (some 1)) :: PoolAction.steps (.client 0) 8 ++
    PoolAction.call (.client 0) (.execute (some 2)) :: PoolAction.steps (.client 0) 7 ++
    PoolAction.call (.client 0) (.execute (some 3)) :: PoolAction.steps (.client 0) 4 ++
    PoolAction.steps .dispatcher 8 ++
    PoolAction.steps (.worker 0) 3 ++ PoolAction.finish 0 :: PoolAction.steps (.worker 0) 5 ++
    PoolAction.steps .dispatcher 8
  obtain ⟨state, hrun, hobserved⟩ : ∃ state : PoolState,
      Reaches (Config.complete .queuedThreadPool 1).program.step (fun _ _ => True)
        (Config.complete .queuedThreadPool 1).initial state ∧
        (state.data.log.entered, state.data.log.handed) = ([1, 2, 3], [(1, 0), (3, 0)]) :=
    Reaches.of_observed (fun _ _ => true) actions (fun _ _ _ => trivial) (by decide +kernel)
  obtain ⟨hentered, hhanded⟩ := Prod.mk.inj hobserved
  refine ⟨state, hrun, ?_⟩
  rw [hentered, hhanded]
  decide

end ThreadPools.Agentpp
