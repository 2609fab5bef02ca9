/-
# Where a request is

A request that has been passed to the queue is pending or answered, and nothing else
is. The proof needs that requests can be told apart by their numbers, and that the lists
of the queue are empty by the time its destructor clears them.
-/

import Mathlib.Data.List.Nodup
import ThreadPools.LockQueue.Steps

namespace ThreadPools.LockQueue

open ThreadPools.Concurrency

namespace Shared

/-- The requests that have been passed to the queue. -/
def issued (shared : Shared) : List LockRequest := shared.acquired ++ shared.returned

/-- The requests that have been created. -/
def requests (shared : Shared) : List LockRequest := shared.drafts ++ shared.issued

/-- The queue will not be used any more, and has nothing left to do. -/
def Finished (shared : Shared) : Prop :=
  shared.pendingLock = [] ∧ shared.pendingRelease = [] ∧ shared.go = false

/-- Every request is in its place. -/
structure Places (shared : Shared) : Prop where
  numbered : ∀ r ∈ shared.requests, r.id.number < shared.created r.id.client
  ids : (shared.requests.map LockRequest.id).Nodup
  issued : shared.issued.Perm
    (shared.pendingLock ++ shared.pendingRelease ++ shared.answered)
  locks : ∀ r ∈ shared.pendingLock, r.releases = none
  releases : ∀ r ∈ shared.pendingRelease, r.releases ≠ none
  closed : shared.go = false → shared.drafts = []

variable {shared : Shared} {r : LockRequest} {rest : List LockRequest}

namespace Places

theorem issued_nodup (h : shared.Places) : shared.issued.Nodup :=
  (List.nodup_append.mp h.ids.of_map).2.1

/-- A created request is known by its identity. -/
theorem eq_of_id (h : shared.Places) {other : LockRequest} (hr : r ∈ shared.requests)
    (hother : other ∈ shared.requests) (hid : r.id = other.id) : r = other :=
  List.inj_on_of_nodup_map h.ids hr hother hid

/-- The lists of the queue hold requests that have been created. -/
theorem mem_requests (h : shared.Places)
    (hr : r ∈ shared.pendingLock ++ shared.pendingRelease ++ shared.answered) :
    r ∈ shared.requests :=
  List.mem_append_right _ (h.issued.mem_iff.mpr hr)

theorem create (h : shared.Places) (hnumber : r.id.number = shared.created r.id.client)
    (hgo : shared.go = true) : (shared.create r).Places := by
  have hperm : (shared.create r).requests.Perm (r :: shared.requests) := by
    show ((shared.drafts ++ [r]) ++ shared.issued).Perm _
    rw [List.append_assoc]
    exact List.perm_middle
  refine ⟨fun other hother => ?_, ?_, h.issued, h.locks, h.releases, fun hstopped => ?_⟩
  · show other.id.number < Function.update shared.created r.id.client (r.id.number + 1) _
    rcases List.mem_cons.mp (hperm.mem_iff.mp hother) with rfl | hother
    · simp
    · have hlt := h.numbered other hother
      by_cases hclient : other.id.client = r.id.client
      · rw [hclient] at hlt ⊢
        rw [Function.update_self]
        omega
      · rwa [Function.update_of_ne hclient]
  · refine (hperm.map LockRequest.id).nodup_iff.mpr (List.nodup_cons.mpr ⟨fun hmem => ?_, h.ids⟩)
    obtain ⟨other, hother, hid⟩ := List.mem_map.mp hmem
    have hlt := h.numbered other hother
    rw [hid] at hlt
    omega
  · exact absurd (hgo.symm.trans hstopped) nofun

/-- Passing a request to the queue makes no new request. -/
theorem requests_add (hr : r ∈ shared.drafts) :
    (shared.add r).requests.Perm shared.requests := by
  have hdrafts : shared.drafts.Perm (r :: shared.drafts.erase r) := List.perm_cons_erase hr
  unfold Shared.add
  split
  · show (shared.drafts.erase r ++ ((shared.acquired ++ [r]) ++ shared.returned)).Perm _
    refine .trans ?_ (hdrafts.append_right shared.issued).symm
    rw [List.append_assoc]
    exact (List.perm_middle.append_left _).trans List.perm_middle
  · show (shared.drafts.erase r ++ (shared.acquired ++ (shared.returned ++ [r]))).Perm _
    refine .trans ?_ (hdrafts.append_right shared.issued).symm
    rw [← List.append_assoc shared.acquired]
    exact (List.perm_append_comm.append_left _).trans List.perm_middle

theorem issued_add : (shared.add r).issued.Perm (r :: shared.issued) := by
  unfold Shared.add
  split
  · show ((shared.acquired ++ [r]) ++ shared.returned).Perm _
    rw [List.append_assoc]
    exact List.perm_middle
  · show (shared.acquired ++ (shared.returned ++ [r])).Perm _
    rw [← List.append_assoc]
    exact List.perm_append_comm

theorem add (h : shared.Places) (hr : r ∈ shared.drafts) : (shared.add r).Places := by
  have hperm := requests_add hr
  have hcreated : (shared.add r).created = shared.created := by
    unfold Shared.add
    split <;> rfl
  refine ⟨fun other hother => ?_, (hperm.map _).nodup_iff.mpr h.ids, ?_, ?_, ?_, fun hgo => ?_⟩
  · rw [hcreated]
    exact h.numbered other (hperm.mem_iff.mp hother)
  · refine issued_add.trans ((h.issued.cons r).trans ?_)
    unfold Shared.add
    split
    · show List.Perm _ ((shared.pendingLock ++ [r]) ++ shared.pendingRelease ++ shared.answered)
      simp only [List.append_assoc]
      exact List.perm_middle.symm
    · show List.Perm _ (shared.pendingLock ++ (shared.pendingRelease ++ [r]) ++ shared.answered)
      simp only [← List.append_assoc]
      rw [List.append_assoc _ [r]]
      exact List.perm_middle.symm
  · unfold Shared.add
    split
    · next hreleases =>
        intro other hother
        rcases List.mem_append.mp hother with hother | hother
        · exact h.locks other hother
        · rw [List.mem_singleton.mp hother, hreleases]
    · exact h.locks
  · unfold Shared.add
    split
    · exact h.releases
    · next hreleases =>
        intro other hother
        rcases List.mem_append.mp hother with hother | hother
        · exact h.releases other hother
        · rw [List.mem_singleton.mp hother, hreleases]
          nofun
  · have hgo : shared.go = false := by
      unfold Shared.add at hgo
      split at hgo <;> exact hgo
    exact absurd (h.closed hgo ▸ hr) List.not_mem_nil

theorem unlock (h : shared.Places) (hpending : shared.pendingRelease = r :: rest) :
    (shared.unlock r).Places := by
  refine ⟨h.numbered, h.ids, h.issued.trans ?_, h.locks, fun other hother => ?_, h.closed⟩
  · show List.Perm _ (shared.pendingLock ++ shared.pendingRelease.tail ++ (shared.answered ++ [r]))
    rw [hpending, List.tail_cons, ← List.append_assoc]
    refine (List.perm_middle.append_right _).trans ?_
    exact (List.perm_append_singleton r _).symm
  · exact h.releases other (List.mem_of_mem_tail hother)

/-- A pending request is answered. -/
theorem answer (h : shared.Places) (hpending : shared.pendingLock = r :: rest) :
    shared.issued.Perm
      (shared.pendingLock.tail ++ shared.pendingRelease ++ (shared.answered ++ [r])) := by
  refine h.issued.trans ?_
  rw [hpending, List.tail_cons, ← List.append_assoc]
  exact (List.perm_append_singleton r _).symm

theorem grant (h : shared.Places) (hpending : shared.pendingLock = r :: rest) :
    (shared.grant r).Places :=
  ⟨h.numbered, h.ids, h.answer hpending, fun other hother => h.locks other
    (List.mem_of_mem_tail hother), h.releases, h.closed⟩

theorem refuse (h : shared.Places) (hpending : shared.pendingLock = r :: rest)
    (result : TryLockResult) : (shared.refuse r result).Places :=
  ⟨h.numbered, h.ids, h.answer hpending, fun other hother => h.locks other
    (List.mem_of_mem_tail hother), h.releases, h.closed⟩

theorem requeue (h : shared.Places) (hpending : shared.pendingLock = r :: rest) :
    (shared.requeue r).Places := by
  have hperm : shared.pendingLock.Perm (shared.pendingLock.tail ++ [r]) := by
    rw [hpending, List.tail_cons]
    exact (List.perm_append_singleton r rest).symm
  exact ⟨h.numbered, h.ids, h.issued.trans ((hperm.append_right _).append_right _),
    fun other hother => h.locks other (hperm.mem_iff.mpr hother), h.releases, h.closed⟩

theorem read (h : shared.Places) : (shared.read r).Places := by
  unfold Shared.read
  split
  · exact ⟨h.numbered, h.ids, h.issued, h.locks, h.releases, h.closed⟩
  · exact h

end Places

end Shared

/-! ## What the threads know -/

/-- The request a client has created is in its hands, or it has been passed to the queue. -/
def ClientPoint.Knows (c : ClientId) (shared : Shared) : ClientPoint → Prop
  | .idle => True
  | .enter r | .add r => r ∈ shared.drafts ∧ r.id.client = c
  | .wait r | .woken r | .leave r => r ∈ shared.issued ∧ r.id.client = c

/-- The request which has been answered and whose client has to be notified. -/
def QueuePoint.hand : QueuePoint → List LockRequest
  | .answer r _ | .notify r _ => [r]
  | _ => []

def Point.Knows (shared : Shared) : ThreadId → Point → Prop
  | .client c, .client p => p.Knows c shared
  | .queue, .queue p =>
      shared.notified ++ p.hand = shared.answered ∧ (p = .exited → shared.Finished)
  | .owner, .owner p => p = .clear → shared.Finished
  | _, _ => False

/-- Each request is in its place. -/
def places : Annotation ThreadId MonitorId Shared Point where
  assertion t p shared := p.Knows shared t
  resource _ _ := True
  invariant := Shared.Places

variable {recursive : Bool} {shared : Shared} {t other : ThreadId} {order : Order}
  {p place : Point} {piece : Piece Point} {e : Effect} {r : LockRequest}

/-- Requests do not come back from the queue. -/
theorem Shared.issued_apply (hr : r ∈ shared.issued) : r ∈ (shared.apply e).issued := by
  cases e with
  | add draft => exact Places.issued_add.mem_iff.mpr (List.mem_cons_of_mem draft hr)
  | read draft =>
      simp only [Shared.apply, Shared.read]
      split <;> exact hr
  | _ => exact hr

/-- A request in the hands of its client stays there while others move. -/
theorem Moves.drafts (hmoves : Moves shared t order p piece) (heffect : piece.effect = some e)
    (hknows : p.Knows shared t) (hr : r ∈ shared.drafts) (hother : t ≠ .client r.id.client) :
    r ∈ (shared.apply e).drafts := by
  cases hmoves <;> cases heffect
  case create => exact List.mem_append_left _ hr
  case add c draft =>
    have hne : r ≠ draft := by
      rintro rfl
      exact hother (congrArg ThreadId.client hknows.2.symm)
    simp only [Shared.apply, Shared.add]
    split <;> exact (List.mem_erase_of_ne hne).mpr hr
  case leave c =>
    simp only [Shared.apply, Shared.read]
    split <;> exact hr
  all_goals exact hr

/-- A finished queue stays finished. -/
theorem Moves.finished (hmoves : Moves shared t order p piece)
    (heffect : piece.effect = some e) (hplaces : shared.Places) (hknows : p.Knows shared t)
    (husage : Usage t order p shared) (h : shared.Finished) : (shared.apply e).Finished := by
  obtain ⟨hlock, hrelease, hgo⟩ := h
  cases hmoves <;> cases heffect
  case add c draft => exact absurd (hplaces.closed hgo ▸ hknows.1) List.not_mem_nil
  case leave c =>
    simp only [Shared.apply, Shared.read]
    split <;> exact ⟨hlock, hrelease, hgo⟩
  case unlock rest hpending => exact absurd (hrelease.symm.trans hpending) nofun
  case grant rest hpending hfree => exact absurd (hlock.symm.trans hpending) nofun
  case refuse rest result hpending hwait hresult =>
    exact absurd (hlock.symm.trans hpending) nofun
  case requeue rest hpending hlocked hwait => exact absurd (hlock.symm.trans hpending) nofun
  case stop => exact ⟨hlock, hrelease, rfl⟩
  case clear => exact ⟨rfl, rfl, hgo⟩
  all_goals exact ⟨hlock, hrelease, hgo⟩

/-- Only the thread of the queue answers. -/
theorem Moves.answered (hmoves : Moves shared t order p piece)
    (heffect : piece.effect = some e) (ht : t ≠ .queue) :
    (shared.apply e).answered = shared.answered ∧
      (shared.apply e).notified = shared.notified := by
  cases hmoves <;> cases heffect
  case create => exact ⟨rfl, rfl⟩
  case add =>
    simp only [Shared.apply, Shared.add]
    split <;> exact ⟨rfl, rfl⟩
  case leave =>
    simp only [Shared.apply, Shared.read]
    split <;> exact ⟨rfl, rfl⟩
  case stop => exact ⟨rfl, rfl⟩
  case clear => exact ⟨rfl, rfl⟩
  all_goals exact absurd rfl ht

/-- The requests stay in their places. -/
theorem Moves.places (hmoves : Moves shared t order p piece) (heffect : piece.effect = some e)
    (hplaces : shared.Places) (hknows : p.Knows shared t) (husage : Usage t order p shared) :
    (shared.apply e).Places := by
  cases hmoves <;> cases heffect
  case create c r hr =>
    have hid : r.id = ⟨c, shared.created c⟩ := by
      cases order <;> rw [hr] <;> rfl
    refine hplaces.create (by rw [hid]) ?_
    cases order with
    | acquire => exact husage
    | release => exact husage.1
  case add => exact hplaces.add hknows.1
  case leave => exact hplaces.read
  case unlock rest hpending => exact hplaces.unlock hpending
  case grant rest hpending hfree => exact hplaces.grant hpending
  case refuse rest result hpending hwait hresult => exact hplaces.refuse hpending result
  case requeue rest hpending hlocked hwait => exact hplaces.requeue hpending
  case notify =>
    exact ⟨hplaces.numbered, hplaces.ids, hplaces.issued, hplaces.locks, hplaces.releases,
      hplaces.closed⟩
  case stop =>
    exact ⟨hplaces.numbered, hplaces.ids, hplaces.issued, hplaces.locks, hplaces.releases,
      fun _ => husage⟩
  case clear =>
    obtain ⟨hlock, hrelease, -⟩ := hknows rfl
    have hissued := hplaces.issued
    rw [hlock, hrelease] at hissued
    exact ⟨hplaces.numbered, hplaces.ids, hissued, nofun, nofun, hplaces.closed⟩

/-- What a thread knows is not disturbed by the others. -/
theorem Moves.frame (hmoves : Moves shared t order p piece) (heffect : piece.effect = some e)
    (hplaces : shared.Places) (hknows : p.Knows shared t) (husage : Usage t order p shared)
    (hother : other ≠ t) (hplace : place.Knows shared other) :
    place.Knows (shared.apply e) other := by
  cases other with
  | client c =>
      cases place with
      | client q =>
          have hdrafts : ∀ r, r ∈ shared.drafts ∧ r.id.client = c →
              r ∈ (shared.apply e).drafts ∧ r.id.client = c := by
            rintro r ⟨hr, rfl⟩
            exact ⟨hmoves.drafts heffect hknows hr hother.symm, rfl⟩
          cases q with
          | idle => exact True.intro
          | enter r | add r => exact hdrafts r hplace
          | wait r | woken r | leave r =>
              exact ⟨Shared.issued_apply hplace.1, hplace.2⟩
      | queue => exact hplace
      | owner => exact hplace
  | queue =>
      cases place with
      | client => exact hplace
      | queue q =>
          obtain ⟨hanswered, hnotified⟩ := hmoves.answered heffect hother.symm
          refine ⟨?_, fun hexited => hmoves.finished heffect hplaces hknows husage
            (hplace.2 hexited)⟩
          rw [hanswered, hnotified]
          exact hplace.1
      | owner => exact hplace
  | owner =>
      cases place with
      | client => exact hplace
      | queue => exact hplace
      | owner q =>
          exact fun hclear => hmoves.finished heffect hplaces hknows husage (hplace hclear)

/-- A thread knows what its own piece of code has done. -/
theorem Moves.knows (hmoves : Moves shared t order p piece) (hknows : p.Knows shared t)
    (hjoin : piece.op = .join .queue → shared.Finished) :
    piece.next.Knows ((program recursive).dataAfter piece shared) t := by
  cases hmoves
  case create c r hr =>
    refine ⟨List.mem_append_right _ List.mem_cons_self, ?_⟩
    cases order <;> rw [hr] <;> rfl
  case enter | wait | woken => exact hknows
  case add =>
    exact ⟨Shared.Places.issued_add.mem_iff.mpr List.mem_cons_self, hknows.2⟩
  case leave => exact True.intro
  case exit hlock hrelease hgo => exact ⟨hknows.1, fun _ => ⟨hlock, hrelease, hgo⟩⟩
  case unlock r rest hpending =>
    exact ⟨congrArg (· ++ [r]) ((List.append_nil _).symm.trans hknows.1), nofun⟩
  case grant left r rest hpending hfree =>
    exact ⟨congrArg (· ++ [r]) ((List.append_nil _).symm.trans hknows.1), nofun⟩
  case refuse left r rest result hpending hwait hresult =>
    exact ⟨congrArg (· ++ [r]) ((List.append_nil _).symm.trans hknows.1), nofun⟩
  case notify r rest =>
    exact ⟨(List.append_nil _).trans hknows.1, nofun⟩
  case requeue | start | loop | released | sleep | answer | wake => exact ⟨hknows.1, nofun⟩
  case stop | ownerLock | ownerNotify | clear => nofun
  case join => exact fun _ => hjoin rfl

theorem places_valid : Annotation.Valid (program recursive) .trivial places Usage where
  assertion := by
    intro t order p shared piece hbefore husage
    refine (code_moves hbefore.code).knows hbefore.assertion.2 fun hop => ?_
    have hne : ThreadId.queue ≠ t := by
      rintro rfl
      have hmoves := code_moves hbefore.code
      cases hmoves <;> cases hop
    obtain ⟨place, hplace, -, hexited⟩ := hbefore.others .queue hne
    have hexited : place = .queue .exited := of_decide_eq_true (hexited hop)
    subst hexited
    exact hplace.2.2 rfl
  release _ _ _ _ := True.intro
  invariant := by
    intro t order p shared piece e hbefore husage heffect
    exact (code_moves hbefore.code).places heffect hbefore.invariant.2 hbefore.assertion.2 husage
  frame := by
    intro t order p shared piece e other place hbefore husage heffect hother hplace _ _
    exact (code_moves hbefore.code).frame heffect hbefore.invariant.2 hbefore.assertion.2 husage
      hother hplace.2
  frame_resource _ _ _ _ _ _ _ := True.intro
  raise _ hcode _ _ hop hheld := absurd hheld ((code_moves hcode).not_held hop)

theorem places_initial : places.Holds initial where
  assertion t := by
    cases t with
    | client => exact True.intro
    | queue => exact ⟨rfl, nofun⟩
    | owner => nofun
  resource _ _ := True.intro
  invariant := ⟨nofun, List.nodup_nil, .refl _, nofun, nofun, fun _ => rfl⟩

/-- In every run each request is in its place. -/
theorem places_holds {state : QueueState}
    (hrun : Reaches (program recursive).step Allowed initial state) : places.Holds state :=
  places_valid.holds wellLocked (fun _ _ _ => Allowed.respects) locked_initial
    (fun _ _ => Annotation.holds_trivial _) places_initial hrun

end ThreadPools.LockQueue
