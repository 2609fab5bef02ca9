/-
# The order of the grants

A pass over the pending locks takes the list apart from its head and appends again what
it cannot grant, so the list begins with the requests still to be tried and ends with
those that have been tried: read from the second part, it is in the order of arrival. A
request which has been appended again waits for a locked target; no later request for
that target overtakes it, because targets are unlocked between passes only.
-/

import ThreadPools.LockQueue.Grants

namespace ThreadPools.LockQueue

open ThreadPools.Concurrency

/-! ## Rotated lists -/

section Rotation

variable {α : Type*} {x : α} {rest : List α} {left : Nat}

/-- The order of arrival in a list whose first `left` elements have not been rotated. -/
def arrival (left : Nat) (pending : List α) : List α := pending.drop left ++ pending.take left

@[simp] theorem arrival_zero (pending : List α) : arrival 0 pending = pending := by
  simp [arrival]

@[simp] theorem arrival_length (pending : List α) : arrival pending.length pending = pending := by
  simp [arrival]

/-- Taking the head away. -/
theorem arrival_cons (left : Nat) (x : α) (rest : List α) :
    arrival (left + 1) (x :: rest) = rest.drop left ++ x :: rest.take left := rfl

/-- Rotating the head does not change the order of arrival. -/
theorem arrival_rotate (hleft : left ≤ rest.length) :
    arrival left (rest ++ [x]) = arrival (left + 1) (x :: rest) := by
  rw [arrival_cons, arrival, List.drop_append_of_le_length hleft,
    List.take_append_of_le_length hleft, List.append_assoc, List.singleton_append]

/-- An append at the end of an unrotated list is an arrival. -/
theorem arrival_append (pending : List α) :
    arrival 0 (pending ++ [x]) = arrival 0 pending ++ [x] := by
  simp

end Rotation

/-! ## The order of the grants -/

/-- The request waits until its target is free. -/
def LockRequest.Waits (target : Target) (r : LockRequest) : Bool :=
  r.waitForLock && r.target = target

namespace Shared

/-- The waiting requests have arrived in the order in which they have been granted or are
pending; `left` of the pending ones are still to be tried in a pass. -/
def Ordered (left : Nat) (shared : Shared) : Prop :=
  ∀ target, shared.granted.filter (LockRequest.Waits target) ++
    (arrival left shared.pendingLock).filter (LockRequest.Waits target) =
      shared.acquired.filter (LockRequest.Waits target)

/-- The requests that have been appended again wait for locked targets. -/
structure Passed (left : Nat) (shared : Shared) : Prop where
  released : shared.pendingRelease = []
  le_length : left ≤ shared.pendingLock.length
  waits : ∀ r ∈ shared.pendingLock.drop left,
    r.waitForLock = true ∧ shared.isLocked r.target = true

variable {shared : Shared} {r : LockRequest} {rest : List LockRequest} {left : Nat}

theorem Ordered.add (h : shared.Ordered 0) : (shared.add r).Ordered 0 := by
  intro target
  unfold Shared.add
  split
  · show shared.granted.filter _ ++ (arrival 0 (shared.pendingLock ++ [r])).filter _ =
      (shared.acquired ++ [r]).filter _
    rw [arrival_append, List.filter_append, List.filter_append, ← h target, List.append_assoc]
  · exact h target

/-- A request is granted before those for the same target that arrived later. -/
theorem Ordered.grant (h : shared.Ordered (left + 1)) (hpassed : shared.Passed (left + 1))
    (hpending : shared.pendingLock = r :: rest) (hfree : shared.isLocked r.target = false) :
    (shared.grant r).Ordered left := by
  intro target
  have hbefore := h target
  have hwaits := hpassed.waits
  rw [hpending, List.drop_succ_cons] at hwaits
  rw [hpending, arrival_cons] at hbefore
  show (shared.granted ++ [r]).filter _ ++ (arrival left shared.pendingLock.tail).filter _ =
    shared.acquired.filter _
  rw [← hbefore, hpending, List.tail_cons, arrival, List.filter_append, List.filter_append,
    List.filter_append]
  by_cases hr : r.Waits target
  · -- none of the requests that have been tried is for this target
    have hnone : (rest.drop left).filter (LockRequest.Waits target) = [] := by
      refine List.filter_eq_nil_iff.mpr fun other hother hsame => ?_
      have htarget : other.target = r.target := by
        simp only [LockRequest.Waits, Bool.and_eq_true, decide_eq_true_eq] at hr hsame
        rw [hr.2, hsame.2]
      have hlocked := (hwaits other hother).2
      rw [htarget, hfree] at hlocked
      cases hlocked
    rw [hnone, List.nil_append, List.nil_append, List.filter_cons_of_pos hr,
      List.filter_cons_of_pos hr, List.filter_nil, List.append_assoc, List.singleton_append]
  · rw [List.filter_cons_of_neg hr, List.filter_cons_of_neg hr, List.filter_nil,
      List.append_nil]

theorem Ordered.refuse (h : shared.Ordered (left + 1)) (hpending : shared.pendingLock = r :: rest)
    (hwait : r.waitForLock = false) (result : TryLockResult) :
    (shared.refuse r result).Ordered left := by
  intro target
  have hr : ¬ r.Waits target := by simp [LockRequest.Waits, hwait]
  have hbefore := h target
  rw [hpending, arrival_cons, List.filter_append, List.filter_cons_of_neg hr] at hbefore
  show shared.granted.filter _ ++ (arrival left shared.pendingLock.tail).filter _ = _
  rw [hpending, List.tail_cons, arrival, List.filter_append]
  exact hbefore

theorem Ordered.requeue (h : shared.Ordered (left + 1)) (hpassed : shared.Passed (left + 1))
    (hpending : shared.pendingLock = r :: rest) : (shared.requeue r).Ordered left := by
  intro target
  have hlength := hpassed.le_length
  rw [hpending, List.length_cons, Nat.add_le_add_iff_right] at hlength
  have hbefore := h target
  rw [hpending, ← arrival_rotate hlength] at hbefore
  show shared.granted.filter _ ++ (arrival left (shared.pendingLock.tail ++ [r])).filter _ = _
  rw [hpending, List.tail_cons]
  exact hbefore

theorem Passed.grant (h : shared.Passed (left + 1)) (hpending : shared.pendingLock = r :: rest) :
    (shared.grant r).Passed left := by
  obtain ⟨hreleased, hlength, hwaits⟩ := h
  rw [hpending] at hlength hwaits
  refine ⟨hreleased, ?_, fun other hother => ?_⟩
  · show left ≤ shared.pendingLock.tail.length
    rw [hpending, List.tail_cons]
    exact Nat.le_of_succ_le_succ hlength
  · have hother : other ∈ rest.drop left := by
      have hother : other ∈ shared.pendingLock.tail.drop left := hother
      rwa [hpending, List.tail_cons] at hother
    obtain ⟨hwait, hlocked⟩ := hwaits other hother
    refine ⟨hwait, ?_⟩
    show Function.update shared.isLocked r.target true other.target = true
    by_cases htarget : other.target = r.target
    · rw [htarget, Function.update_self]
    · rwa [Function.update_of_ne htarget]

theorem Passed.refuse (h : shared.Passed (left + 1)) (hpending : shared.pendingLock = r :: rest)
    (result : TryLockResult) : (shared.refuse r result).Passed left := by
  obtain ⟨hreleased, hlength, hwaits⟩ := h
  rw [hpending] at hlength hwaits
  refine ⟨hreleased, ?_, fun other hother => hwaits other ?_⟩
  · show left ≤ shared.pendingLock.tail.length
    rw [hpending, List.tail_cons]
    exact Nat.le_of_succ_le_succ hlength
  · have hother : other ∈ shared.pendingLock.tail.drop left := hother
    rwa [hpending, List.tail_cons] at hother

theorem Passed.requeue (h : shared.Passed (left + 1)) (hpending : shared.pendingLock = r :: rest)
    (hwait : r.waitForLock = true) (hlocked : shared.isLocked r.target = true) :
    (shared.requeue r).Passed left := by
  obtain ⟨hreleased, hlength, hwaits⟩ := h
  rw [hpending] at hlength hwaits
  have hleft : left ≤ rest.length := Nat.le_of_succ_le_succ hlength
  have hlist : (shared.requeue r).pendingLock = rest ++ [r] := by
    show shared.pendingLock.tail ++ [r] = rest ++ [r]
    rw [hpending, List.tail_cons]
  refine ⟨hreleased, ?_, fun other hother => ?_⟩
  · rw [hlist, List.length_append]
    exact Nat.le_add_right_of_le hleft
  · rw [hlist, List.drop_append_of_le_length hleft] at hother
    rcases List.mem_append.mp hother with hother | hother
    · exact hwaits other hother
    · rw [List.mem_singleton.mp hother]
      exact ⟨hwait, hlocked⟩

end Shared

/-- What is left of a pass. -/
def Pass.Knows (shared : Shared) : Pass → Prop
  | .releases => shared.Ordered 0
  | .locks left => shared.Ordered left ∧ shared.Passed left

/-- What the thread of the queue knows inside its monitor. -/
def QueuePoint.Orders (shared : Shared) : QueuePoint → Prop
  | .loop => shared.Ordered 0
  | .pass rest | .answer _ rest | .notify _ rest => rest.Knows shared
  | .enter | .woken | .exited => True

/-- Inside the monitor of the queue the others know the lists to be in order. -/
def Point.Orders (shared : Shared) : Point → Prop
  | .client (.add _) | .owner .notify => shared.Ordered 0
  | .queue p => p.Orders shared
  | _ => True

/-- Locks are granted in the order of their requests. -/
def ordering : Annotation ThreadId MonitorId Shared Point where
  assertion _ p shared := p.Orders shared
  resource m shared := m = .queue → shared.Ordered 0
  invariant _ := True

/-- The lists of the queue, and the marks of the targets, are the same. -/
structure Shared.SameLists (first second : Shared) : Prop where
  pendingLock : first.pendingLock = second.pendingLock
  pendingRelease : first.pendingRelease = second.pendingRelease
  isLocked : first.isLocked = second.isLocked
  granted : first.granted = second.granted
  acquired : first.acquired = second.acquired

namespace Shared.SameLists

variable {first second : Shared} {left : Nat}

theorem ordered (h : first.SameLists second) (hordered : second.Ordered left) :
    first.Ordered left := by
  intro target
  rw [h.granted, h.pendingLock, h.acquired]
  exact hordered target

theorem passed (h : first.SameLists second) (hpassed : second.Passed left) :
    first.Passed left := by
  refine ⟨h.pendingRelease.trans hpassed.released, ?_, ?_⟩
  · rw [h.pendingLock]
    exact hpassed.le_length
  · rw [h.pendingLock, h.isLocked]
    exact hpassed.waits

theorem knows (h : first.SameLists second) {rest : Pass} (hknows : rest.Knows second) :
    rest.Knows first := by
  cases rest with
  | releases => exact h.ordered hknows
  | locks => exact ⟨h.ordered hknows.1, h.passed hknows.2⟩

theorem orders (h : first.SameLists second) {p : Point} (horders : p.Orders second) :
    p.Orders first := by
  cases p with
  | client p =>
      cases p with
      | add => exact h.ordered horders
      | _ => exact True.intro
  | queue p =>
      cases p with
      | loop => exact h.ordered horders
      | pass | answer | notify => exact h.knows horders
      | enter | woken | exited => exact True.intro
  | owner p =>
      cases p with
      | notify => exact h.ordered horders
      | _ => exact True.intro

end Shared.SameLists

variable {recursive : Bool} {shared : Shared} {t : ThreadId} {order : Order} {p : Point}
  {piece : Piece Point} {e : Effect}

/-- Outside of the monitor of the queue its lists are not changed. -/
theorem Moves.sameLists (hmoves : Moves shared t order p piece) (heffect : piece.effect = some e)
    (hknows : p.Knows shared t) (hheld : .queue ∉ p.held) : (shared.apply e).SameLists shared := by
  cases hmoves <;> cases heffect
  case create => exact ⟨rfl, rfl, rfl, rfl, rfl⟩
  case leave =>
    simp only [Shared.apply, Shared.read]
    split <;> exact ⟨rfl, rfl, rfl, rfl, rfl⟩
  case stop => exact ⟨rfl, rfl, rfl, rfl, rfl⟩
  case clear =>
    obtain ⟨hlock, hrelease, -⟩ := hknows rfl
    exact ⟨hlock.symm, hrelease.symm, rfl, rfl, rfl⟩
  all_goals exact absurd (by simp [Point.held]) hheld

/-- The lists stay in order for the thread that works on them. -/
theorem Moves.orders (hmoves : Moves shared t order p piece)
    (hlock : piece.op = .lock .queue → shared.Ordered 0) (horders : p.Orders shared) :
    piece.next.Orders ((program recursive).dataAfter piece shared) := by
  cases hmoves
  case enter => exact hlock rfl
  case start => exact hlock rfl
  case wake => exact hlock rfl
  case ownerLock => exact hlock rfl
  case released hpending =>
    have hordered : shared.Ordered shared.pendingLock.length := fun target => by
      have hbefore := horders target
      rwa [arrival_zero, ← arrival_length shared.pendingLock] at hbefore
    refine ⟨hordered, hpending, le_rfl, fun r hr => ?_⟩
    have hr : r ∈ shared.pendingLock.drop shared.pendingLock.length := hr
    rw [List.drop_length] at hr
    cases hr
  case grant left r rest hpending hfree =>
    exact ⟨horders.1.grant horders.2 hpending hfree, horders.2.grant hpending⟩
  case refuse left r rest result hpending hwait hresult =>
    exact ⟨horders.1.refuse hpending hwait result, horders.2.refuse hpending result⟩
  case requeue left r rest hpending hlocked hwait =>
    exact ⟨horders.1.requeue horders.2 hpending, horders.2.requeue hpending hwait hlocked⟩
  case unlock => exact horders
  case loop => exact horders
  case answer => exact horders
  case notify r rest =>
    have hsame : (shared.apply (.notify r)).SameLists shared := ⟨rfl, rfl, rfl, rfl, rfl⟩
    exact hsame.knows horders
  all_goals exact True.intro

/-- The monitor of the queue is left with the lists in order. -/
theorem Moves.leaves (hmoves : Moves shared t order p piece) (horders : p.Orders shared)
    (hleft : piece.op = .unlock .queue ∨ piece.op = .wait .queue) :
    ((program recursive).dataAfter piece shared).Ordered 0 := by
  cases hmoves <;> rcases hleft with hop | hop <;> cases hop
  case add => exact Shared.Ordered.add horders
  case exit => exact horders
  case sleep => exact horders.1
  case ownerNotify => exact horders

theorem ordering_valid : Annotation.Valid (program recursive) places ordering Usage where
  assertion := by
    intro t order p shared piece hbefore husage
    exact (code_moves hbefore.code).orders (fun hop => (hbefore.lock .queue hop).2 rfl)
      hbefore.assertion.2
  release := by
    rintro t order p shared piece _ hbefore husage hleft rfl
    exact (code_moves hbefore.code).leaves hbefore.assertion.2 hleft
  invariant _ _ _ := True.intro
  frame := by
    intro t order p shared piece e other place hbefore husage heffect hother hplace hheld _
    have hmoves := code_moves hbefore.code
    by_cases hinside : .queue ∈ p.held
    · -- nobody else is inside the monitor
      have houtside : .queue ∉ place.held := hheld .queue hinside
      show place.Orders (shared.apply e)
      cases place with
      | client q =>
          cases q with
          | add => exact absurd (by simp [Point.held]) houtside
          | _ => exact True.intro
      | queue q =>
          cases q with
          | enter | woken | exited => exact True.intro
          | _ => exact absurd (by simp [Point.held]) houtside
      | owner q =>
          cases q with
          | notify => exact absurd (by simp [Point.held]) houtside
          | _ => exact True.intro
    · exact (hmoves.sameLists heffect hbefore.assertion.1 hinside).orders hplace.2
  frame_resource := by
    rintro t order p shared piece e _ hbefore husage heffect hheld hop hresource rfl
    exact ((code_moves hbefore.code).sameLists heffect hbefore.assertion.1 hheld).ordered
      (hresource.2 rfl)
  raise _ hcode _ _ hop hheld := absurd hheld ((code_moves hcode).not_held hop)

theorem ordering_initial : ordering.Holds initial where
  assertion t := by
    cases t <;> exact True.intro
  resource _ _ _ _ := rfl
  invariant := True.intro

/-- In every run the locks are granted in the order of their requests. -/
theorem ordering_holds {state : QueueState}
    (hrun : Reaches (program recursive).step Allowed initial state) : ordering.Holds state :=
  ordering_valid.holds wellLocked (fun _ _ _ => Allowed.respects) locked_initial
    (fun _ => places_holds) ordering_initial hrun

end ThreadPools.LockQueue
