/-
# The steps of a lock queue

What a piece of code can be, case by case, and the lock discipline of the program: the
monitor of a request is entered inside the monitor of the queue by the thread of the
queue, and the other way round by the client that passes the request to the queue.
-/

import ThreadPools.LockQueue.Program

namespace ThreadPools.LockQueue

open ThreadPools.Concurrency

/-- The pieces of code of the threads. -/
inductive Moves (shared : Shared) : ThreadId → Order → Point → Piece Point → Prop
  | create (c : ClientId) (order : Order) (r : LockRequest)
      (hr : r = order.request ⟨c, shared.created c⟩) :
      Moves shared (.client c) order (.client .idle)
        { op := .lock (.request r.id), effect := some (.create r), next := .client (.enter r) }
  | enter (c : ClientId) (order : Order) (r : LockRequest) :
      Moves shared (.client c) order (.client (.enter r))
        { op := .lock .queue, next := .client (.add r) }
  | add (c : ClientId) (order : Order) (r : LockRequest) :
      Moves shared (.client c) order (.client (.add r))
        { op := .unlock .queue, effect := some (.add r), notify := some .queue
          next := .client (.wait r) }
  | wait (c : ClientId) (order : Order) (r : LockRequest) :
      Moves shared (.client c) order (.client (.wait r))
        { op := .wait (.request r.id), next := .client (.woken r) }
  | woken (c : ClientId) (order : Order) (r : LockRequest) :
      Moves shared (.client c) order (.client (.woken r))
        { op := .lock (.request r.id), next := .client (.leave r) }
  | leave (c : ClientId) (order : Order) (r : LockRequest) :
      Moves shared (.client c) order (.client (.leave r))
        { op := .unlock (.request r.id), effect := some (.read r), next := .client .idle }
  | start (order : Order) :
      Moves shared .queue order (.queue .enter) { op := .lock .queue, next := .queue .loop }
  | loop (order : Order) :
      Moves shared .queue order (.queue .loop) { next := .queue (.pass .releases) }
  | exit (order : Order) (hlock : shared.pendingLock = [])
      (hrelease : shared.pendingRelease = []) (hgo : shared.go = false) :
      Moves shared .queue order (.queue .loop) { op := .unlock .queue, next := .queue .exited }
  | unlock (order : Order) (r : LockRequest) (rest : List LockRequest)
      (hpending : shared.pendingRelease = r :: rest) :
      Moves shared .queue order (.queue (.pass .releases))
        { effect := some (.unlock r), next := .queue (.answer r .releases) }
  | released (order : Order) (hpending : shared.pendingRelease = []) :
      Moves shared .queue order (.queue (.pass .releases))
        { next := .queue (.pass (.locks shared.pendingLock.length)) }
  | grant (order : Order) (left : Nat) (r : LockRequest) (rest : List LockRequest)
      (hpending : shared.pendingLock = r :: rest) (hfree : shared.isLocked r.target = false) :
      Moves shared .queue order (.queue (.pass (.locks (left + 1))))
        { effect := some (.grant r), next := .queue (.answer r (.locks left)) }
  | refuse (order : Order) (left : Nat) (r : LockRequest) (rest : List LockRequest)
      (result : TryLockResult) (hpending : shared.pendingLock = r :: rest)
      (hwait : r.waitForLock = false) (hresult : result ≠ .locked) :
      Moves shared .queue order (.queue (.pass (.locks (left + 1))))
        { effect := some (.refuse r result), next := .queue (.answer r (.locks left)) }
  | requeue (order : Order) (left : Nat) (r : LockRequest) (rest : List LockRequest)
      (hpending : shared.pendingLock = r :: rest) (hlocked : shared.isLocked r.target = true)
      (hwait : r.waitForLock = true) :
      Moves shared .queue order (.queue (.pass (.locks (left + 1))))
        { effect := some (.requeue r), next := .queue (.pass (.locks left)) }
  | sleep (order : Order) :
      Moves shared .queue order (.queue (.pass (.locks 0)))
        { op := .wait .queue, next := .queue .woken }
  | answer (order : Order) (r : LockRequest) (rest : Pass) :
      Moves shared .queue order (.queue (.answer r rest))
        { op := .lock (.request r.id), next := .queue (.notify r rest) }
  | notify (order : Order) (r : LockRequest) (rest : Pass) :
      Moves shared .queue order (.queue (.notify r rest))
        { op := .unlock (.request r.id), effect := some (.notify r)
          notify := some (.request r.id), next := .queue (.pass rest) }
  | wake (order : Order) :
      Moves shared .queue order (.queue .woken) { op := .lock .queue, next := .queue .loop }
  | stop (order : Order) :
      Moves shared .owner order (.owner .stop) { effect := some .stop, next := .owner .lock }
  | ownerLock (order : Order) :
      Moves shared .owner order (.owner .lock) { op := .lock .queue, next := .owner .notify }
  | ownerNotify (order : Order) :
      Moves shared .owner order (.owner .notify)
        { op := .unlock .queue, notify := some .queue, next := .owner .join }
  | join (order : Order) :
      Moves shared .owner order (.owner .join) { op := .join .queue, next := .owner .clear }
  | clear (order : Order) :
      Moves shared .owner order (.owner .clear) { effect := some .clear, next := .owner .exited }

theorem Shared.trylock_eq_locked {recursive : Bool} {shared : Shared} {target : Target} :
    shared.trylock recursive target = .locked ↔ shared.isLocked target = false := by
  unfold Shared.trylock
  cases shared.isLocked target <;> cases recursive <;> simp

variable {recursive : Bool} {shared : Shared} {t : ThreadId} {order : Order} {p : Point}
  {piece : Piece Point}

theorem run_moves {q : QueuePoint} {body : Piece QueuePoint}
    (hrun : run recursive q shared = some body) :
    Moves shared .queue order (.queue q) (body.map .queue) := by
  cases q with
  | enter =>
      cases hrun
      exact .start order
  | loop =>
      simp only [run] at hrun
      split at hrun
      · cases hrun
        exact .loop order
      · next hidle =>
          cases hrun
          simp only [not_or, not_not, Bool.not_eq_true] at hidle
          exact .exit order hidle.1 hidle.2.1 hidle.2.2
  | pass rest =>
      cases rest with
      | releases =>
          simp only [run] at hrun
          split at hrun
          · next hpending =>
              cases hrun
              exact .released order hpending
          · next r rest hpending =>
              cases hrun
              exact .unlock order r rest hpending
      | locks left =>
          cases left with
          | zero =>
              cases hrun
              exact .sleep order
          | succ left =>
              simp only [run] at hrun
              split at hrun
              · cases hrun
              · next r rest hpending =>
                  split at hrun
                  · next hresult =>
                      cases hrun
                      exact .grant order left r rest hpending
                        (Shared.trylock_eq_locked.mp hresult)
                  · next hresult =>
                      split at hrun
                      · next hwait =>
                          cases hrun
                          exact .refuse order left r rest _ hpending
                            (Bool.not_eq_true _ ▸ hwait) hresult
                      · next hwait =>
                          cases hrun
                          have hlocked : shared.isLocked r.target ≠ false := fun hfree =>
                            hresult (Shared.trylock_eq_locked.mpr hfree)
                          exact .requeue order left r rest hpending
                            (Bool.not_eq_false _ ▸ hlocked) (not_not.mp hwait)
  | answer r rest =>
      cases hrun
      exact .answer order r rest
  | notify r rest =>
      cases hrun
      exact .notify order r rest
  | woken =>
      cases hrun
      exact .wake order
  | exited => cases hrun

theorem destroy_moves {q : OwnerPoint} {body : Piece OwnerPoint}
    (hdestroy : destroy q = some body) :
    Moves shared .owner order (.owner q) (body.map .owner) := by
  cases q with
  | stop =>
      cases hdestroy
      exact .stop order
  | lock =>
      cases hdestroy
      exact .ownerLock order
  | notify =>
      cases hdestroy
      exact .ownerNotify order
  | join =>
      cases hdestroy
      exact .join order
  | clear =>
      cases hdestroy
      exact .clear order
  | exited => cases hdestroy

theorem client_moves {c : ClientId} {q : ClientPoint} :
    Moves shared (.client c) order (.client q) ((client c order q shared).map .client) := by
  cases q with
  | idle => exact .create c order _ rfl
  | enter r => exact .enter c order r
  | add r => exact .add c order r
  | wait r => exact .wait c order r
  | woken r => exact .woken c order r
  | leave r => exact .leave c order r

theorem code_moves (hcode : (program recursive).code t order p shared = some piece) :
    Moves shared t order p piece := by
  cases t with
  | client c =>
      cases p with
      | client q =>
          cases hcode
          exact client_moves
      | queue => cases hcode
      | owner => cases hcode
  | queue =>
      cases p with
      | client => cases hcode
      | queue q =>
          obtain ⟨body, hrun, rfl⟩ := Option.map_eq_some_iff.mp hcode
          exact run_moves hrun
      | owner => cases hcode
  | owner =>
      cases p with
      | client => cases hcode
      | queue => cases hcode
      | owner q =>
          obtain ⟨body, hdestroy, rfl⟩ := Option.map_eq_some_iff.mp hcode
          exact destroy_moves hdestroy

/-! ## Lock discipline -/

theorem wellLocked : (program recursive).WellLocked where
  balanced hcode := by
    cases code_moves hcode <;> rfl
  handler _ _ := List.suffix_refl _
  waits hcode hop := by
    cases code_moves hcode <;> cases hop <;> rfl
  relocks hcode hwaits := by
    cases code_moves hcode <;> cases hwaits <;> exact ⟨rfl, List.not_mem_nil⟩

theorem locked_initial : (program recursive).Locked initial where
  nodup t := by
    cases t <;> exact List.nodup_nil
  owner m t := by
    cases t <;> exact iff_of_false nofun List.not_mem_nil
  waiters_nodup _ := List.nodup_nil
  waits _ _ hmem := absurd hmem List.not_mem_nil

/-- Nobody enters a monitor which he is inside of. -/
theorem Moves.not_held (hmoves : Moves shared t order p piece) {m : MonitorId}
    (hop : piece.op = .lock m) : m ∉ p.held := by
  cases hmoves <;> cases hop <;> simp [Point.held]

end ThreadPools.LockQueue
