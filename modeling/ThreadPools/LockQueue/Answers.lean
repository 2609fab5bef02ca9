/-
# Every request is answered

A client sleeps on its request from the wait until the notification, and the thread of
the queue cannot enter the monitor of the request before, so no notification is lost.
Together with the places of requests, the grants and their order this is what a lock
queue guarantees to its clients.
-/

import Mathlib.Data.List.Perm.Subperm
import ThreadPools.LockQueue.Order

namespace ThreadPools.LockQueue

open ThreadPools.Concurrency

/-! ## Notifications of requests -/

section Moves

variable {recursive : Bool} {shared : Shared} {t : ThreadId} {order : Order} {p : Point}
  {piece : Piece Point} {r : LockRequest} {id : RequestId}

/-- A request is noted as notified when it is. -/
theorem Moves.notified (hmoves : Moves shared t order p piece) :
    ((program recursive).dataAfter piece shared).notified = shared.notified ∨
      t = .queue ∧ ∃ r rest, p = .queue (.notify r rest) ∧ piece.notify = some (.request r.id) ∧
        ((program recursive).dataAfter piece shared).notified = shared.notified ++ [r] := by
  cases hmoves
  case add =>
    refine .inl ?_
    show (shared.add _).notified = shared.notified
    unfold Shared.add
    split <;> rfl
  case leave =>
    refine .inl ?_
    show (shared.read _).notified = shared.notified
    unfold Shared.read
    split <;> rfl
  case notify r rest => exact .inr ⟨rfl, r, rest, rfl, rfl, rfl⟩
  all_goals exact .inl rfl

theorem Moves.signals (recursive : Bool) (hmoves : Moves shared t order p piece)
    (hnotify : piece.notify = some (.request id)) :
    t = .queue ∧ ∃ r rest, p = .queue (.notify r rest) ∧ r.id = id ∧
      piece.op = .unlock (.request r.id) ∧
      ((program recursive).dataAfter piece shared).notified = shared.notified ++ [r] := by
  cases hmoves <;> cases hnotify
  exact ⟨rfl, _, _, rfl, rfl, rfl, rfl⟩

theorem Moves.sleeps (hmoves : Moves shared t order p piece)
    (hop : piece.op = .wait (.request id)) : ∃ r, p = .client (.wait r) ∧ r.id = id := by
  cases hmoves <;> cases hop
  exact ⟨_, rfl, rfl⟩

theorem Moves.issued (hmoves : Moves shared t order p piece)
    (hr : r ∈ ((program recursive).dataAfter piece shared).issued) :
    r ∈ shared.issued ∨ p = .client (.add r) := by
  cases hmoves
  case add draft =>
    rcases List.mem_cons.mp (Shared.Places.issued_add.mem_iff.mp hr) with rfl | hr
    · exact .inr rfl
    · exact .inl hr
  case leave draft =>
    refine .inl ?_
    have hsame : (shared.read draft).issued = shared.issued := by
      unfold Shared.read
      split <;> rfl
    rw [← hsame]
    exact hr
  all_goals exact .inl hr

end Moves

/-- A client waits until its request has been answered. -/
structure Delivered (state : QueueState) : Prop where
  waits : ∀ c r, state.pc (.client c) = .client (.wait r) → r ∉ state.data.notified
  asleep : ∀ c r, state.pc (.client c) = .client (.woken r) →
    (.client c ∈ (state.monitor (.request r.id)).waiters ↔ r ∉ state.data.notified)
  leaves : ∀ c r, state.pc (.client c) = .client (.leave r) → r ∈ state.data.notified
  stays : ∀ r ∈ state.data.issued, r ∉ state.data.notified →
    state.pc (.client r.id.client) = .client (.wait r) ∨
      state.pc (.client r.id.client) = .client (.woken r)

variable {recursive : Bool} {state : QueueState} {r : LockRequest} {c : ClientId}

/-- What has been notified has been answered. -/
theorem notified_subset (hplaces : places.Holds state) (hr : r ∈ state.data.notified) :
    r ∈ state.data.answered := by
  have hknows : (state.pc .queue).Knows state.data .queue := hplaces.assertion .queue
  cases hqueue : state.pc .queue with
  | queue p =>
      rw [hqueue] at hknows
      rw [← hknows.1]
      exact List.mem_append_left _ hr
  | client =>
      rw [hqueue] at hknows
      exact hknows.elim
  | owner =>
      rw [hqueue] at hknows
      exact hknows.elim

/-- A request that has not been passed to the queue has not been notified. -/
theorem draft_not_notified (hplaces : places.Holds state) (hr : r ∈ state.data.drafts) :
    r ∉ state.data.notified := by
  intro hnotified
  have hissued : r ∈ state.data.issued :=
    hplaces.invariant.issued.mem_iff.mpr
      (List.mem_append_right _ (notified_subset hplaces hnotified))
  exact (List.nodup_append.mp hplaces.invariant.ids.of_map).2.2 r hr r hissued rfl

/-- Only its client sleeps on a request. -/
theorem eq_of_waiter (hplaces : places.Holds state) (hlocked : (program recursive).Locked state)
    {id : RequestId} {t : ThreadId} (ht : t ∈ (state.monitor (.request id)).waiters) :
    t = .client id.client := by
  have hwaits : (state.pc t).waitsAt = some (.request id) := hlocked.waits _ t ht
  have hknows : (state.pc t).Knows state.data t := hplaces.assertion t
  cases hp : state.pc t with
  | client p =>
      rw [hp] at hwaits hknows
      cases p with
      | woken r =>
          cases hwaits
          exact (hknows.request rfl).1
      | _ => cases hwaits
  | queue p =>
      rw [hp] at hwaits
      cases p <;> cases hwaits
  | owner p =>
      rw [hp] at hwaits
      cases hwaits

/-- So a notification reaches it. -/
theorem signal_wakes (hplaces : places.Holds state) (hlocked : (program recursive).Locked state)
    (id : RequestId) (choice : Nat) :
    ((state.monitor (.request id)).signal choice).waiters = [] :=
  hlocked.signal_waiters_of_alone (fun _ ht => eq_of_waiter hplaces hlocked ht) choice

/-- While a client is awake with its request, the queue does not notify it. -/
theorem not_notifying (hlocked : (program recursive).Locked state) {rest : Pass}
    (hqueue : state.pc .queue = .queue (.notify r rest)) :
    state.pc (.client c) ≠ .client (.wait r) := by
  intro hclient
  have hfirst : .request r.id ∈ (state.pc .queue).held := by
    rw [hqueue]
    exact List.mem_cons_self
  have hsecond : .request r.id ∈ (state.pc (.client c)).held := by
    rw [hclient]
    exact List.mem_cons_self
  exact absurd (hlocked.exclusive hfirst hsecond) nofun

namespace Delivered

/-- What a client that moves knows of the answer to its request. -/
theorem self (h : Delivered state) (hplaces : places.Holds state) {order : Order}
    {piece : Piece Point} (choice : Nat)
    (hmoves : Moves state.data (.client c) order (state.pc (.client c)) piece)
    (henabled : (program recursive).Enabled state (.client c) piece.op) :
    (piece.next = .client (.wait r) → r ∉ state.data.notified) ∧
      (piece.next = .client (.woken r) → r ∉ state.data.notified ∧
        .client c ∈ (((program recursive).advance state (.client c) piece choice).monitor
          (.request r.id)).waiters) ∧
      (piece.next = .client (.leave r) → r ∈ state.data.notified) := by
  generalize hp : state.pc (.client c) = p at hmoves
  have hknows : (state.pc (.client c)).Knows state.data (.client c) := hplaces.assertion _
  rw [hp] at hknows
  cases hmoves
  case add draft =>
    refine ⟨?_, by rintro ⟨⟩, by rintro ⟨⟩⟩
    rintro ⟨⟩
    exact draft_not_notified hplaces hknows.1
  case wait draft =>
    refine ⟨by rintro ⟨⟩, ?_, by rintro ⟨⟩⟩
    rintro ⟨⟩
    refine ⟨h.waits c r hp, ?_⟩
    simp [Program.advance, Op.perform, notified]
  case woken draft =>
    refine ⟨by rintro ⟨⟩, by rintro ⟨⟩, ?_⟩
    rintro ⟨⟩
    by_contra hnot
    exact henabled.2 ((h.asleep c r hp).mpr hnot)
  all_goals exact ⟨by rintro ⟨⟩, by rintro ⟨⟩, by rintro ⟨⟩⟩

/-- Nobody else interferes before the client waits. -/
theorem waits_other (h : Delivered state) (hlocked : (program recursive).Locked state)
    {t : ThreadId} {order : Order} {piece : Piece Point}
    (hmoves : Moves state.data t order (state.pc t) piece)
    (hwait : state.pc (.client c) = .client (.wait r)) :
    r ∉ ((program recursive).dataAfter piece state.data).notified := by
  rcases hmoves.notified with hsame | ⟨rfl, answered, rest, hp, -, hmore⟩
  · rw [hsame]
    exact h.waits c r hwait
  · rw [hmore, List.mem_append, List.mem_singleton]
    rintro (hnotified | rfl)
    · exact h.waits c r hwait hnotified
    · exact not_notifying hlocked hp hwait

/-- A sleeping client is woken by its answer and by nothing else. -/
theorem asleep_other (h : Delivered state) (hplaces : places.Holds state)
    (hlocked : (program recursive).Locked state) {t : ThreadId} {order : Order}
    {piece : Piece Point} (choice : Nat) (hmoves : Moves state.data t order (state.pc t) piece)
    (hother : .client c ≠ t) (hwoken : state.pc (.client c) = .client (.woken r)) :
    .client c ∈ (((program recursive).advance state t piece choice).monitor
        (.request r.id)).waiters ↔
      r ∉ ((program recursive).dataAfter piece state.data).notified := by
  have hknows : (state.pc (.client c)).Knows state.data (.client c) := hplaces.assertion _
  rw [hwoken] at hknows
  by_cases hnotify : piece.notify = some (.request r.id)
  · obtain ⟨rfl, answered, rest, hp, hid, hop, hmore⟩ := hmoves.signals recursive hnotify
    have hsame : answered = r := by
      have hqueue : (state.pc .queue).Knows state.data .queue := hplaces.assertion _
      rw [hp] at hqueue
      have hanswered : answered ∈ state.data.answered := by
        rw [← hqueue.1]
        exact List.mem_append_right _ List.mem_cons_self
      exact hplaces.invariant.eq_of_id
        (hplaces.invariant.mem_requests (List.mem_append_right _ hanswered))
        (List.mem_append_right _ hknows.1) hid
    subst hsame
    have hwaiters : (((program recursive).advance state .queue piece choice).monitor
        (.request answered.id)).waiters = [] := by
      simp only [Program.advance, hop, hnotify, Op.perform, notified, Function.update_self,
        Monitor.release_waiters]
      exact signal_wakes hplaces hlocked answered.id choice
    rw [hwaiters, hmore]
    exact iff_of_false List.not_mem_nil
      (not_not.mpr (List.mem_append_right _ List.mem_cons_self))
  · have hop : piece.op ≠ .wait (.request r.id) := by
      intro hop
      obtain ⟨asleep, hp, hid⟩ := hmoves.sleeps hop
      have hmover : (state.pc t).Knows state.data t := hplaces.assertion _
      rw [hp] at hmover
      refine hother ((congrArg ThreadId.client hknows.2.symm).trans ?_)
      rw [← hid]
      exact (hmover.request rfl).1.symm
    rw [Program.advance_waiters choice hnotify hop, h.asleep c r hwoken]
    rcases hmoves.notified with hsame | ⟨-, answered, rest, -, hanswered, hmore⟩
    · rw [hsame]
    · have hne : r ≠ answered := by
        rintro rfl
        exact hnotify hanswered
      rw [hmore, List.mem_append, List.mem_singleton, or_iff_left hne]

/-- A request stays with its client until it has been answered. -/
theorem stays_after (h : Delivered state) (hplaces : places.Holds state) {t : ThreadId}
    {order : Order} {piece : Piece Point} (choice : Nat)
    (hmoves : Moves state.data t order (state.pc t) piece)
    (henabled : (program recursive).Enabled state t piece.op)
    (hr : r ∈ ((program recursive).dataAfter piece state.data).issued)
    (hnot : r ∉ state.data.notified) :
    ((program recursive).advance state t piece choice).pc (.client r.id.client) =
        .client (.wait r) ∨
      ((program recursive).advance state t piece choice).pc (.client r.id.client) =
        .client (.woken r) := by
  by_cases hself : .client r.id.client = t
  · subst hself
    simp only [Program.advance, Function.update_self]
    rcases hmoves.issued hr with hissued | hadd
    · rcases h.stays r hissued hnot with hp | hp
      · rw [hp] at hmoves
        cases hmoves
        exact .inr rfl
      · rw [hp] at hmoves
        cases hmoves
        exact absurd ((h.asleep _ r hp).mpr hnot) henabled.2
    · rw [hadd] at hmoves
      cases hmoves
      exact .inl rfl
  · simp only [Program.advance, Function.update_of_ne hself]
    rcases hmoves.issued hr with hissued | hadd
    · exact h.stays r hissued hnot
    · have hmover : (state.pc t).Knows state.data t := hplaces.assertion _
      rw [hadd] at hmover
      exact absurd (hmover.request rfl).1.symm hself

theorem advance (h : Delivered state) (hplaces : places.Holds state)
    (hlocked : (program recursive).Locked state) {t : ThreadId} {order : Order}
    {piece : Piece Point} (choice : Nat) (hmoves : Moves state.data t order (state.pc t) piece)
    (henabled : (program recursive).Enabled state t piece.op) :
    Delivered ((program recursive).advance state t piece choice) := by
  have hgrows : ∀ r ∈ state.data.notified,
      r ∈ ((program recursive).dataAfter piece state.data).notified := by
    intro r hr
    rcases hmoves.notified with hsame | ⟨-, answered, rest, -, -, hmore⟩
    · rwa [hsame]
    · rw [hmore]
      exact List.mem_append_left _ hr
  -- a client that moves is not the queue
  have hkept : ∀ c, .client c = t →
      ((program recursive).dataAfter piece state.data).notified = state.data.notified := by
    rintro c rfl
    exact hmoves.notified.resolve_right fun hqueue => nomatch hqueue.1
  refine ⟨fun c r hp => ?_, fun c r hp => ?_, fun c r hp => ?_, fun r hr hnot =>
    h.stays_after hplaces choice hmoves henabled hr fun hnotified => hnot (hgrows r hnotified)⟩
  · by_cases hself : .client c = t
    · subst hself
      simp only [Program.advance, Function.update_self] at hp
      exact hkept c rfl ▸ (h.self hplaces choice hmoves henabled).1 hp
    · simp only [Program.advance, Function.update_of_ne hself] at hp
      exact h.waits_other hlocked hmoves hp
  · by_cases hself : .client c = t
    · subst hself
      simp only [Program.advance, Function.update_self] at hp
      obtain ⟨hnot, hasleep⟩ := (h.self hplaces choice hmoves henabled).2.1 hp
      exact iff_of_true hasleep (hkept c rfl ▸ hnot)
    · simp only [Program.advance, Function.update_of_ne hself] at hp
      exact h.asleep_other hplaces hlocked choice hmoves hself hp
  · by_cases hself : .client c = t
    · subst hself
      simp only [Program.advance, Function.update_self] at hp
      exact hgrows r ((h.self hplaces choice hmoves henabled).2.2 hp)
    · simp only [Program.advance, Function.update_of_ne hself] at hp
      exact hgrows r (h.leaves c r hp)

end Delivered

theorem locked_reaches (hrun : Reaches (program recursive).step Allowed initial state) :
    (program recursive).Locked state :=
  locked_initial.reaches wellLocked hrun

/-- In every run the clients wait for their answers. -/
theorem delivered (hrun : Reaches (program recursive).step Allowed initial state) :
    Delivered state := by
  induction hrun with
  | refl => exact ⟨nofun, nofun, nofun, nofun⟩
  | tail action hprior hallowed hstep ih =>
      have hlocked := locked_reaches hprior
      rcases Program.step_cases hstep with
        ⟨t, order, choice, piece, rfl, hcode, henabled, rfl⟩ |
        ⟨t, order, choice, piece, rfl, hcode, hraises, rfl⟩ | ⟨m, t, rfl, hmem, rfl⟩
      · exact ih.advance (places_holds hprior) hlocked choice (code_moves hcode) henabled
      · cases hop : piece.op with
        | lock m =>
            rw [hop] at hraises
            exact absurd ((hlocked.owner m t).mp hraises) ((code_moves hcode).not_held hop)
        | _ =>
            rw [hop] at hraises
            exact hraises.elim
      · cases m with
        | queue => exact ⟨ih.waits, ih.asleep, ih.leaves, ih.stays⟩
        | request id => cases hallowed

/-! ## What a lock queue guarantees -/

/-- The guarantees of a lock queue to its clients. -/
structure Serves (state : QueueState) : Prop where
  /-- At most one request is granted and not released for a target. -/
  exclusive : ∀ target, (state.data.unreleased.filter fun r => r.target = target).length ≤ 1
  /-- A request is passed to the queue once, -/
  once : state.data.issued.Nodup
  /-- and it is in exactly one place from then on. -/
  place : ∀ r ∈ state.data.issued,
    (state.data.pendingLock.count r, state.data.pendingRelease.count r,
      state.data.answered.count r) ∈ [(1, 0, 0), (0, 1, 0), (0, 0, 1)]
  /-- Nothing else is in these places. -/
  issued : ∀ r, r ∈ state.data.pendingLock ∨ r ∈ state.data.pendingRelease ∨
    r ∈ state.data.answered → r ∈ state.data.issued
  /-- An answer is followed by one notification, -/
  notified : ∃ p, state.pc .queue = .queue p ∧
    state.data.notified ++ p.hand = state.data.answered
  /-- for which the queue waits no longer than its client takes to the wait, -/
  answers : ∀ r rest, state.pc .queue = .queue (.answer r rest) →
    state.pc (.client r.id.client) = .client (.wait r) ∨
      state.pc (.client r.id.client) = .client (.woken r)
  /-- and which the client is waiting for; -/
  received : ∀ r rest, state.pc .queue = .queue (.notify r rest) →
    .client r.id.client ∈ (state.monitor (.request r.id)).waiters
  /-- the client goes on only then. -/
  returns : ∀ c r, state.pc (.client c) = .client (.leave r) → r ∈ state.data.notified
  /-- At the end of a pass no request is pending that could be answered. -/
  pass : state.pc .queue = .queue (.pass (.locks 0)) → state.data.pendingRelease = [] ∧
    ∀ r ∈ state.data.pendingLock, r.waitForLock = true ∧
      ∃ granted ∈ state.data.unreleased, granted.target = r.target
  /-- When the thread of the queue has ended every request has been answered. -/
  ended : state.pc .queue = .queue .exited → ∀ r ∈ state.data.issued, r ∈ state.data.notified
  /-- Requests that wait for a target are granted in the order in which they were acquired. -/
  order : ∀ target, state.data.granted.filter (LockRequest.Waits target) <+:
    state.data.acquired.filter (LockRequest.Waits target)

/-- The thread of the queue is at a point of `run`. -/
theorem exists_queuePoint (hplaces : places.Holds state) :
    ∃ p, state.pc .queue = .queue p ∧ state.data.notified ++ p.hand = state.data.answered ∧
      (p = .exited → state.data.Finished) := by
  have hknows : (state.pc .queue).Knows state.data .queue := hplaces.assertion .queue
  cases hp : state.pc .queue with
  | queue p =>
      rw [hp] at hknows
      exact ⟨p, rfl, hknows⟩
  | client =>
      rw [hp] at hknows
      exact hknows.elim
  | owner =>
      rw [hp] at hknows
      exact hknows.elim

/-- The lists are in order at every moment of a pass. -/
theorem exists_ordered (hlocked : (program recursive).Locked state)
    (hordering : ordering.Holds state) : ∃ left, state.data.Ordered left := by
  cases howner : (state.monitor .queue).owner with
  | none => exact ⟨0, hordering.resource .queue howner rfl⟩
  | some t =>
      have hheld : .queue ∈ (state.pc t).held := (hlocked.owner .queue t).mp howner
      have horders : (state.pc t).Orders state.data := hordering.assertion t
      cases hp : state.pc t with
      | client p =>
          rw [hp] at hheld horders
          cases p with
          | add => exact ⟨0, horders⟩
          | _ => simp [Point.held] at hheld
      | queue p =>
          rw [hp] at hheld horders
          have hpass : ∀ rest : Pass, rest.Knows state.data → ∃ left, state.data.Ordered left := by
            intro rest hrest
            cases rest with
            | releases => exact ⟨0, hrest⟩
            | locks left => exact ⟨left, hrest.1⟩
          cases p with
          | loop => exact ⟨0, horders⟩
          | pass rest => exact hpass rest horders
          | answer r rest => exact hpass rest horders
          | notify r rest => exact hpass rest horders
          | enter | woken | exited => simp [Point.held] at hheld
      | owner p =>
          rw [hp] at hheld horders
          cases p with
          | notify => exact ⟨0, horders⟩
          | _ => simp [Point.held] at hheld

/-- An element of a list without duplicates is in one of its three parts. -/
theorem count_parts {α : Type*} [DecidableEq α] {first second third : List α} {x : α}
    (hone : (first ++ second ++ third).count x = 1) :
    (first.count x, second.count x, third.count x) ∈
      [(1, 0, 0), (0, 1, 0), (0, 0, 1)] := by
  rw [List.count_append, List.count_append] at hone
  simp only [List.mem_cons, Prod.mk.injEq, List.not_mem_nil, or_false]
  omega

/-- A target is granted to one request at a time. -/
theorem unreleased_exclusive (hgrants : grants.Holds state) (target : Target) :
    (state.data.unreleased.filter fun r => r.target = target).length ≤ 1 := by
  obtain hholders := hgrants.invariant.holders
  rw [← hholders]
  have hsubset : (state.data.holders.filter fun r => r.target = target).map
      LockRequest.target ⊆ [target] := by
    intro x hx
    obtain ⟨r, hr, rfl⟩ := List.mem_map.mp hx
    exact List.mem_singleton.mpr (of_decide_eq_true (List.mem_filter.mp hr).2)
  have hnodup := hgrants.invariant.targets.sublist
    ((List.filter_sublist (p := fun r => r.target = target)).map LockRequest.target)
  have hle := (List.subperm_of_subset hnodup hsubset).length_le
  rwa [List.length_map] at hle

/-- The client of a request that is being answered has come to its wait. -/
theorem hand_stays (hplaces : places.Holds state) (hdelivered : Delivered state) {p : QueuePoint}
    (hpoint : state.pc .queue = .queue p) (hhand : p.hand = [r]) :
    r ∉ state.data.notified ∧ (state.pc (.client r.id.client) = .client (.wait r) ∨
      state.pc (.client r.id.client) = .client (.woken r)) := by
  obtain ⟨q, hq, hnotified, -⟩ := exists_queuePoint hplaces
  cases hq.symm.trans hpoint
  rw [hhand] at hnotified
  have hnodup : (state.data.notified ++ [r]).Nodup := by
    have hall := hplaces.invariant.issued.nodup_iff.mp hplaces.invariant.issued_nodup
    exact hnotified ▸ (List.nodup_append.mp hall).2.1
  have hnot : r ∉ state.data.notified := fun hmem =>
    (List.nodup_append.mp hnodup).2.2 r hmem r List.mem_cons_self rfl
  have hissued : r ∈ state.data.issued := by
    refine hplaces.invariant.issued.mem_iff.mpr (List.mem_append_right _ ?_)
    rw [← hnotified]
    exact List.mem_append_right _ List.mem_cons_self
  exact ⟨hnot, hdelivered.stays r hissued hnot⟩

/-- A notification finds the client of the request asleep. -/
theorem notify_received (hplaces : places.Holds state)
    (hlocked : (program recursive).Locked state) (hdelivered : Delivered state) {rest : Pass}
    (hpoint : state.pc .queue = .queue (.notify r rest)) :
    .client r.id.client ∈ (state.monitor (.request r.id)).waiters := by
  obtain ⟨hnot, hwait | hwoken⟩ := hand_stays hplaces hdelivered hpoint rfl
  · exact absurd hwait (not_notifying hlocked hpoint)
  · exact (hdelivered.asleep _ r hwoken).mpr hnot

/-- In every run of a lock queue, with any number of clients and targets and in any order
of their requests, the queue serves its clients. -/
theorem run_serves (hrun : Reaches (program recursive).step Allowed initial state) :
    Serves state := by
  have hplaces := places_holds hrun
  have hgrants := grants_holds hrun
  have hordering := ordering_holds hrun
  have hlocked := locked_reaches hrun
  have hdelivered := delivered hrun
  have hissued := hplaces.invariant.issued
  obtain ⟨p, hp, hnotified, hfinished⟩ := exists_queuePoint hplaces
  refine ⟨unreleased_exclusive hgrants, hplaces.invariant.issued_nodup, fun r hr => ?_,
    fun r hr => ?_, ⟨p, hp, hnotified⟩,
    fun r rest hpoint => (hand_stays hplaces hdelivered hpoint rfl).2,
    fun r rest => notify_received hplaces hlocked hdelivered, hdelivered.leaves,
    fun hpoint => ?_, fun hpoint r hr => ?_, fun target => ?_⟩
  · refine count_parts ?_
    rw [← hissued.count_eq]
    exact List.count_eq_one_of_mem hplaces.invariant.issued_nodup hr
  · refine hissued.mem_iff.mpr ?_
    rw [List.mem_append, List.mem_append, or_assoc]
    exact hr
  · have horders : (state.pc .queue).Orders state.data := hordering.assertion .queue
    rw [hpoint] at horders
    refine ⟨horders.2.released, fun r hr => ?_⟩
    obtain ⟨hwait, hlock⟩ := horders.2.waits r hr
    obtain ⟨granted, hgranted, htarget⟩ :=
      List.mem_map.mp ((hgrants.invariant.locked r.target).mp hlock)
    exact ⟨hwait, granted, hgrants.invariant.holders ▸ hgranted, htarget⟩
  · cases hp.symm.trans hpoint
    obtain ⟨hlock, hrelease, -⟩ := hfinished rfl
    have hanswered := hissued.mem_iff.mp hr
    rw [hlock, hrelease, ← hnotified] at hanswered
    simpa [QueuePoint.hand] using hanswered
  · obtain ⟨left, hleft⟩ := exists_ordered hlocked hordering
    rw [← hleft target]
    exact List.prefix_append _ _

/-- For instance: a lock is granted to a second client once the first one has given it back. -/
theorem run_serves_second : ∃ state : QueueState, Serves state ∧
    (state.data.acquired.map fun r => r.id.client, state.data.granted.map fun r => r.id.client,
      state.data.unreleased.map fun r => r.id.client) = ([0, 1], [0, 1], [1]) := by
  let lock : Order := .acquire 5 true
  let go (t : ThreadId) (n : Nat) : List QueueAction := List.replicate n (.run t lock 0)
  obtain ⟨state, hrun, hobserved⟩ : ∃ state : QueueState,
      Reaches (program false).step Allowed initial state ∧
        (state.data.acquired.map fun r => r.id.client,
          state.data.granted.map fun r => r.id.client,
          state.data.unreleased.map fun r => r.id.client) = ([0, 1], [0, 1], [1]) :=
    Reaches.of_observed (fun state action => decide (Allowed state action))
      (go (.client 0) 4 ++ go .queue 7 ++ go (.client 0) 2 ++ go (.client 1) 4 ++
        go .queue 5 ++ [.run (.client 0) (.release { id := ⟨0, 0⟩, target := 5 }) 0] ++
        go (.client 0) 3 ++ go .queue 9)
      (fun _ _ => of_decide_eq_true) (by decide +kernel)
  exact ⟨state, run_serves hrun, hobserved⟩

end ThreadPools.LockQueue
