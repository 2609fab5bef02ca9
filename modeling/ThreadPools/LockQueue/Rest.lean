/-
# The queue rests when nothing can be done

The thread of the queue falls asleep at the end of a pass, and whoever changes the lists
behind it notifies it. So while it sleeps every pending request waits for a target that is
held, and every client that sleeps has its request among these. While the queue is awake it is
not caught in a cycle: a client that waits for the monitor of the queue holds no monitor the
queue wants to enter.
-/

import ThreadPools.Concurrency.Deadlock
import ThreadPools.LockQueue.Answers

namespace ThreadPools.LockQueue

open ThreadPools.Concurrency

variable {recursive : Bool} {shared : Shared} {t : ThreadId} {order : Order} {p : Point}
  {piece : Piece Point} {state : QueueState} {r : LockRequest}

/-! ## Sleep -/

/-- Nothing is left to do for the thread of the queue. -/
def Shared.Idle (shared : Shared) : Prop :=
  shared.pendingRelease = [] ∧
    ∀ r ∈ shared.pendingLock, r.waitForLock = true ∧ shared.isLocked r.target = true

theorem Shared.SameLists.idle {first second : Shared} (h : first.SameLists second)
    (hidle : second.Idle) : first.Idle := by
  unfold Shared.Idle
  rw [h.pendingRelease, h.pendingLock, h.isLocked]
  exact hidle

/-- Whoever changes the lists behind the back of the queue notifies it. -/
theorem Moves.notifies (hmoves : Moves shared t order p piece) (ht : t ≠ .queue)
    (hheld : .queue ∈ p.held) : piece.notify = some .queue := by
  cases hmoves
  case add => rfl
  case ownerNotify => rfl
  all_goals first | exact absurd rfl ht | simp [Point.held] at hheld

/-- Only the thread of the queue waits on its condition. -/
theorem eq_queue_of_waiter (hlocked : (program recursive).Locked state)
    (hplaces : places.Holds state) (ht : t ∈ (state.monitor .queue).waiters) : t = .queue := by
  have hwaits : (state.pc t).waitsAt = some .queue := hlocked.waits _ t ht
  have hknows : (state.pc t).Knows state.data t := hplaces.assertion t
  generalize state.pc t = p at hwaits hknows
  cases t with
  | queue => rfl
  | client c =>
      cases p with
      | client p => cases p <;> cases hwaits
      | queue => exact hknows.elim
      | owner => exact hknows.elim
  | owner =>
      cases p with
      | owner p => cases hwaits
      | client => exact hknows.elim
      | queue => exact hknows.elim

theorem Moves.sleeps_queue (hmoves : Moves shared t order p piece) (hop : piece.op = .wait .queue) :
    p = .queue (.pass (.locks 0)) ∧ piece.effect = none := by
  cases hmoves <;> cases hop
  exact ⟨rfl, rfl⟩

/-- A sleeping queue has nothing to do. -/
theorem idle_of_asleep (hrun : Reaches (program recursive).step Allowed initial state)
    (hasleep : .queue ∈ (state.monitor .queue).waiters) : state.data.Idle := by
  induction hrun with
  | refl => exact absurd hasleep List.not_mem_nil
  | @tail before after action hprior hallowed hstep ih =>
      have hlocked := locked_reaches hprior
      have hplaces := places_holds hprior
      rcases Program.step_cases hstep with
        ⟨t, order, choice, piece, rfl, hcode, henabled, rfl⟩ |
        ⟨t, order, choice, piece, rfl, hcode, hraises, rfl⟩ | ⟨m, t, rfl, hmem, rfl⟩
      · have hmoves := code_moves hcode
        by_cases hop : piece.op = .wait .queue
        · obtain ⟨hpoint, heffect⟩ := hmoves.sleeps_queue hop
          have horders : (before.pc t).Orders before.data := (ordering_holds hprior).assertion t
          rw [hpoint] at horders
          show ((program recursive).dataAfter piece before.data).Idle
          rw [Program.dataAfter_none _ heffect]
          exact ⟨horders.2.released, horders.2.waits⟩
        by_cases hnotify : piece.notify = some .queue
        · -- the notification has reached the queue
          have hwaiters : (((program recursive).advance before t piece choice).monitor
              .queue).waiters = [] := by
            refine ((Program.perform_waiters t _ piece.op .queue).resolve_right
              fun hwait => hop hwait.1).trans ?_
            simpa [hnotify, notified] using hlocked.signal_waiters_of_alone
              (fun _ ht => eq_queue_of_waiter hlocked hplaces ht) choice
          rw [hwaiters] at hasleep
          exact absurd hasleep List.not_mem_nil
        rw [Program.advance_waiters choice hnotify hop] at hasleep
        have ht : t ≠ .queue := by
          rintro rfl
          exact hlocked.awake wellLocked hcode (.inl henabled) _ hasleep
        show ((program recursive).dataAfter piece before.data).Idle
        cases heffect : piece.effect with
        | none =>
            rw [Program.dataAfter_none _ heffect]
            exact ih hasleep
        | some effect =>
            rw [Program.dataAfter_some _ heffect]
            exact (hmoves.sameLists heffect (hplaces.assertion t)
              fun hheld => hnotify (hmoves.notifies ht hheld)).idle (ih hasleep)
      · cases hop : piece.op with
        | lock m =>
            rw [hop] at hraises
            exact absurd ((hlocked.owner m t).mp hraises) ((code_moves hcode).not_held hop)
        | _ =>
            rw [hop] at hraises
            exact hraises.elim
      · cases hallowed
        simp only [Function.update_self, Monitor.wakeSpuriously_waiters] at hasleep
        exact ih (List.mem_of_mem_erase hasleep)

/-- What is true while the thread of the queue sleeps. -/
structure Rests (state : QueueState) : Prop where
  /-- no target waits to be unlocked -/
  released : state.data.pendingRelease = []
  /-- no request waits for a target that is free, or waits without having asked for it -/
  held : ∀ r ∈ state.data.pendingLock, r.waitForLock = true ∧
    ∃ granted ∈ state.data.unreleased, granted.target = r.target
  /-- every request that has been answered has been notified -/
  notified : state.data.notified = state.data.answered
  /-- a client inside the wait for its request has been notified or has its request pending -/
  asleep : ∀ c r, state.pc (.client c) = .client (.woken r) →
    (.client c ∈ (state.monitor (.request r.id)).waiters ↔ r ∈ state.data.pendingLock)

/-- In every run, while the thread of the queue sleeps nobody waits for something it could
do. -/
theorem queue_rests (hrun : Reaches (program recursive).step Allowed initial state)
    (hasleep : .queue ∈ (state.monitor .queue).waiters) : Rests state := by
  have hplaces := places_holds hrun
  have hgrants := grants_holds hrun
  obtain ⟨hreleased, hwaits⟩ := idle_of_asleep hrun hasleep
  obtain ⟨p, hp, hnotified, -⟩ := exists_queuePoint hplaces
  have hpoint : state.pc .queue = .queue .woken := by
    have hwoken : (state.pc .queue).waitsAt = some .queue :=
      (locked_reaches hrun).waits _ _ hasleep
    rw [hp] at hwoken ⊢
    cases p <;> first | rfl | cases hwoken
  have hanswered : state.data.notified = state.data.answered := by
    cases hp.symm.trans hpoint
    exact (List.append_nil _).symm.trans hnotified
  refine ⟨hreleased, fun r hr => ?_, hanswered, fun c r hclient => ?_⟩
  · obtain ⟨hwait, hlock⟩ := hwaits r hr
    obtain ⟨granted, hgranted, htarget⟩ :=
      List.mem_map.mp ((hgrants.invariant.locked r.target).mp hlock)
    exact ⟨hwait, granted, hgrants.invariant.holders ▸ hgranted, htarget⟩
  · rw [(delivered hrun).asleep c r hclient, hanswered]
    have hissued : r ∈ state.data.issued := by
      have hknows : (state.pc (.client c)).Knows state.data (.client c) := hplaces.assertion _
      rw [hclient] at hknows
      exact hknows.1
    have hall := hplaces.invariant.issued
    have hnodup := hall.nodup_iff.mp hplaces.invariant.issued_nodup
    rw [hreleased, List.append_nil] at hall hnodup
    constructor
    · intro hnot
      exact (List.mem_append.mp (hall.mem_iff.mp hissued)).resolve_right hnot
    · intro hpending hmem
      exact (List.nodup_append.mp hnodup).2.2 r hpending r hmem rfl

/-- A second client waits for a target while the queue sleeps. -/
theorem queue_rests_second : ∃ state : QueueState,
    Rests state ∧ state.data.pendingLock.map (fun r => r.id.client) = [1] := by
  let lock : Order := .acquire 5 true
  let go (t : ThreadId) (n : Nat) : List QueueAction := List.replicate n (.run t lock 0)
  obtain ⟨state, hrun, hobserved⟩ : ∃ state : QueueState,
      Reaches (program false).step Allowed initial state ∧
        ((state.monitor .queue).waiters, state.data.pendingLock.map fun r => r.id.client) =
          ([.queue], [1]) :=
    Reaches.of_observed (fun state action => decide (Allowed state action))
      (go (.client 0) 4 ++ go .queue 7 ++ go (.client 0) 2 ++ go (.client 1) 4 ++ go .queue 5)
      (fun _ _ => of_decide_eq_true) (by decide +kernel)
  obtain ⟨hwaiters, hpending⟩ := Prod.mk.inj hobserved
  exact ⟨state, queue_rests hrun (by rw [hwaiters]; exact List.mem_cons_self), hpending⟩

/-! ## Blocked threads -/

/-- Who is about to enter the monitor of a request. -/
theorem Moves.locks_request (hmoves : Moves shared t order p piece) {id : RequestId}
    (hop : piece.op = .lock (.request id)) (hknows : p.Knows shared t)
    (hplaces : shared.Places) :
    id.number = shared.created id.client ∨ ∃ r ∈ shared.issued, r.id = id := by
  cases hmoves
  case create c r hr =>
    have hid : r.id = ⟨c, shared.created c⟩ := by
      rw [hr]
      cases order <;> rfl
    cases hop
    exact .inl (by rw [hid])
  case woken c r =>
    cases hop
    exact .inr ⟨r, hknows.1, rfl⟩
  case answer r rest =>
    cases hop
    refine .inr ⟨r, hplaces.issued.mem_iff.mpr (List.mem_append_right _ ?_), rfl⟩
    rw [← hknows.1]
    exact List.mem_append_right _ List.mem_cons_self
  all_goals cases hop

/-- While a client waits for the monitor of the queue nobody waits for its request. -/
theorem draft_not_requested (hplaces : places.Holds state) (hr : r ∈ state.data.drafts)
    (hmoves : Moves state.data t order (state.pc t) piece) :
    piece.op ≠ .lock (.request r.id) := by
  intro hop
  have hrequest : r ∈ state.data.requests := List.mem_append_left _ hr
  rcases hmoves.locks_request hop (hplaces.assertion t) hplaces.invariant with
    hnumber | ⟨other, hother, hid⟩
  · exact absurd hnumber (hplaces.invariant.numbered r hrequest).ne
  · have heq := hplaces.invariant.eq_of_id (List.mem_append_right _ hother) hrequest hid
    exact (List.nodup_append.mp hplaces.invariant.ids.of_map).2.2 r hr other hother heq.symm

theorem exists_blocking {other : ThreadId} (h : (program recursive).BlockedBy state t other) :
    ∃ order piece, Moves state.data t order (state.pc t) piece ∧
      ((∃ m, piece.op = .lock m ∧ (state.monitor m).owner = some other ∧ other ≠ t) ∨
        piece.op = .join other ∧ t = .owner ∧ other = .queue) := by
  rcases h with ⟨m, ⟨order, piece, hcode, hop, -⟩, howner, hne⟩ | ⟨⟨order, piece, hcode, hop⟩, -⟩
  · exact ⟨order, piece, code_moves hcode, .inl ⟨m, hop, howner, hne⟩⟩
  · have hmoves := code_moves hcode
    refine ⟨order, piece, hmoves, .inr ⟨hop, ?_⟩⟩
    generalize state.pc t = p at hmoves
    cases hmoves <;> cases hop
    exact ⟨rfl, rfl⟩

/-- Only the thread of the queue is blocked while it blocks another thread. -/
theorem eq_queue_of_blocked (hplaces : places.Holds state)
    (hlocked : (program recursive).Locked state) {first second third : ThreadId}
    (hfirst : (program recursive).BlockedBy state first second)
    (hsecond : (program recursive).BlockedBy state second third) :
    second = .queue ∧ first ≠ .queue := by
  obtain ⟨order, piece, hmoves, hblocked⟩ := exists_blocking hfirst
  obtain ⟨later, next, hnext, hblocking⟩ := exists_blocking hsecond
  rcases hblocked with ⟨m, hop, howner, hne⟩ | ⟨-, rfl, rfl⟩
  swap
  · exact ⟨rfl, nofun⟩
  have hheld : m ∈ (state.pc second).held := (hlocked.owner m second).mp howner
  have hknows : (state.pc second).Knows state.data second := hplaces.assertion second
  have hop' : (∃ m, next.op = .lock m) ∨ ∃ t, next.op = .join t := by
    rcases hblocking with ⟨m, hop, -⟩ | ⟨hop, -⟩
    · exact .inl ⟨m, hop⟩
    · exact .inr ⟨third, hop⟩
  by_cases hqueue : second = .queue
  · exact ⟨hqueue, fun heq => hne (hqueue.trans heq.symm)⟩
  · exfalso
    generalize hp : state.pc second = p at hheld hknows hnext
    cases hnext
    case enter c r =>
      cases List.mem_singleton.mp hheld
      exact draft_not_requested hplaces hknows.1 hmoves hop
    all_goals first
      | exact absurd rfl hqueue
      | exact absurd hheld List.not_mem_nil
      | rcases hop' with ⟨m, hop'⟩ | ⟨t, hop'⟩ <;> cases hop'

/-- In no run of a lock queue, whatever its clients ask for, is there a cycle of threads each
of which is blocked by the next one. -/
theorem clients_not_deadlocked (hrun : Reaches (program recursive).step Allowed initial state) :
    ¬ (program recursive).Deadlocked state := by
  rintro ⟨t, hcycle⟩
  have hplaces := places_holds hrun
  have hlocked := locked_reaches hrun
  refine not_transGen_self_of_labels
    (fun label first second => label = (if first = .queue then 1 else 0) ∧
      (program recursive).BlockedBy state first second) ?_ t
    (Relation.TransGen.mono (fun _ _ hblocked => ⟨_, rfl, hblocked⟩) _ _ hcycle)
  rintro _ _ first second third ⟨rfl, hfirst⟩ ⟨rfl, hsecond⟩
  obtain ⟨rfl, hne⟩ := eq_queue_of_blocked hplaces hlocked hfirst hsecond
  simp [hne]

/-- A client waits for the queue, and the queue waits for another client. -/
theorem clients_not_deadlocked_chain : ∃ state : QueueState,
    (program false).BlockedBy state (.client 1) .queue ∧
      (program false).BlockedBy state .queue (.client 0) ∧
      ¬ (program false).Deadlocked state := by
  let lock : Order := .acquire 5 true
  let go (t : ThreadId) (n : Nat) : List QueueAction := List.replicate n (.run t lock 0)
  let first : LockRequest := { id := ⟨0, 0⟩, target := 5 }
  let second : LockRequest := { id := ⟨1, 0⟩, target := 5 }
  obtain ⟨state, hrun, hobserved⟩ : ∃ state : QueueState,
      Reaches (program false).step Allowed initial state ∧
        ((state.pc (.client 1), (state.monitor .queue).owner, (state.monitor .queue).waiters),
          state.pc .queue, (state.monitor (.request ⟨0, 0⟩)).owner,
          (state.monitor (.request ⟨0, 0⟩)).waiters) =
        ((.client (.enter second), some .queue, []),
          .queue (.answer first (.locks 0)), some (.client 0), []) :=
    Reaches.of_observed (fun state action => decide (Allowed state action))
      (go (.client 0) 3 ++ go (.client 1) 1 ++ go .queue 4)
      (fun _ _ => of_decide_eq_true) (by decide +kernel)
  simp only [Prod.mk.injEq] at hobserved
  obtain ⟨⟨hclient, howner, hwaiters⟩, hqueue, hrequest, hasleep⟩ := hobserved
  have hfirst : (program false).Requests state (.client 1) .queue := by
    refine ⟨lock, { op := .lock .queue, next := .client (.add second) }, ?_, rfl, ?_⟩
    · rw [hclient]
      rfl
    · simp [hwaiters]
  have hsecond : (program false).Requests state .queue (.request first.id) := by
    refine ⟨lock,
      { op := .lock (.request first.id), next := .queue (.notify first (.locks 0)) }, ?_, rfl, ?_⟩
    · rw [hqueue]
      rfl
    · simp [first, hasleep]
  exact ⟨state, .inl ⟨.queue, hfirst, howner, nofun⟩,
    .inl ⟨.request first.id, hsecond, hrequest, nofun⟩, clients_not_deadlocked hrun⟩

end ThreadPools.LockQueue
