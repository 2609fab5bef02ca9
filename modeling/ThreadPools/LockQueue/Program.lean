/-
# `LockQueue` and its clients

A `LockQueue` locks and unlocks mutexes for other threads. A client creates a
`LockRequest`, whose monitor it enters on the way, passes it to `acquire` or `release`
and waits on it; the thread of the queue answers by a notification of the request. The
targets are locked by nobody else, so of a target only its mark `isLocked` matters. A
request is on the stack of its client: the queue handles a pointer to it.
-/

import ThreadPools.Concurrency.Annotation

namespace ThreadPools.LockQueue

open ThreadPools.Concurrency

/-- The address of a `Synchronized` that is locked through the queue. -/
abbrev Target := Nat

abbrev ClientId := Nat

/-- The requests of a client are numbered. -/
structure RequestId where
  client : ClientId
  number : Nat
  deriving DecidableEq

/-- `Synchronized::TryLockResult` -/
inductive TryLockResult
  | locked
  | busy
  | owned
  deriving DecidableEq

/-- A `LockRequest` with the fields that stay as they are once it has been passed to the
queue. -/
structure LockRequest where
  id : RequestId
  target : Target
  waitForLock : Bool := true
  /-- the granted request whose lock is to be given back, if this is a call of `release` -/
  releases : Option RequestId := none
  deriving DecidableEq

/-- What a client asks for. -/
inductive Order
  | acquire (target : Target) (waitForLock : Bool)
  /-- give back the lock that has been granted to a request -/
  | release (granted : LockRequest)

/-- The request that is created for an order. -/
def Order.request (id : RequestId) : Order → LockRequest
  | .acquire target waitForLock => { id := id, target := target, waitForLock := waitForLock }
  | .release granted => { id := id, target := granted.target, releases := some granted.id }

inductive ThreadId
  | client (c : ClientId)
  | queue
  /-- the thread that destroys the queue -/
  | owner
  deriving DecidableEq

inductive MonitorId
  | queue
  | request (id : RequestId)
  deriving DecidableEq

/-- The shared memory, and what has happened to requests. -/
structure Shared where
  pendingLock : List LockRequest
  pendingRelease : List LockRequest
  go : Bool
  isLocked : Target → Bool
  tryLockResult : RequestId → TryLockResult
  /-- the requests a client has created -/
  created : ClientId → Nat
  /-- created requests whose call of `acquire` or `release` has not come to an end -/
  drafts : List LockRequest
  /-- the requests passed to `acquire` -/
  acquired : List LockRequest
  /-- the requests passed to `release` -/
  returned : List LockRequest
  /-- the requests the queue has decided on -/
  answered : List LockRequest
  /-- the requests whose client has been notified -/
  notified : List LockRequest
  /-- the requests that have been answered by `LOCKED` -/
  granted : List LockRequest
  /-- the granted requests whose target has not been unlocked since -/
  holders : List LockRequest
  /-- granted requests whose client has not read the result yet -/
  unread : List LockRequest
  /-- granted requests a client knows of and nobody has asked to release -/
  outstanding : List LockRequest

/-- The changes of the shared memory. -/
inductive Effect
  /-- the constructor of a request -/
  | create (r : LockRequest)
  /-- `addLast` -/
  | add (r : LockRequest)
  /-- the client reads `tryLockResult` -/
  | read (r : LockRequest)
  /-- `removeFirst` of the pending releases, and `unlock` of the target -/
  | unlock (r : LockRequest)
  /-- `removeFirst` of the pending locks, and what `trylock` of the target results in -/
  | grant (r : LockRequest)
  | refuse (r : LockRequest) (result : TryLockResult)
  | requeue (r : LockRequest)
  /-- the notification of a request -/
  | notify (r : LockRequest)
  /-- `go = false` -/
  | stop
  /-- the destructor clears the lists -/
  | clear

namespace Shared

/-- `Synchronized::trylock` of a target, called by the thread of the queue; a mutex which
the thread owns is refused in a different way by recursive mutexes. -/
def trylock (recursive : Bool) (shared : Shared) (target : Target) : TryLockResult :=
  if shared.isLocked target then if recursive then .owned else .busy else .locked

def create (r : LockRequest) (shared : Shared) : Shared :=
  { shared with
    tryLockResult := Function.update shared.tryLockResult r.id .busy
    created := Function.update shared.created r.id.client (r.id.number + 1)
    drafts := shared.drafts ++ [r]
    outstanding := shared.outstanding.filter fun granted => r.releases ≠ some granted.id }

def add (r : LockRequest) (shared : Shared) : Shared :=
  match r.releases with
  | none =>
      { shared with
        drafts := shared.drafts.erase r
        pendingLock := shared.pendingLock ++ [r]
        acquired := shared.acquired ++ [r] }
  | some _ =>
      { shared with
        drafts := shared.drafts.erase r
        pendingRelease := shared.pendingRelease ++ [r]
        returned := shared.returned ++ [r] }

def read (r : LockRequest) (shared : Shared) : Shared :=
  if shared.tryLockResult r.id = .locked then
    { shared with
      unread := shared.unread.erase r
      outstanding := shared.outstanding ++ [r] }
  else shared

def unlock (r : LockRequest) (shared : Shared) : Shared :=
  { shared with
    pendingRelease := shared.pendingRelease.tail
    isLocked := Function.update shared.isLocked r.target false
    answered := shared.answered ++ [r]
    holders := shared.holders.filter fun granted => r.releases ≠ some granted.id }

def grant (r : LockRequest) (shared : Shared) : Shared :=
  { shared with
    pendingLock := shared.pendingLock.tail
    isLocked := Function.update shared.isLocked r.target true
    tryLockResult := Function.update shared.tryLockResult r.id .locked
    answered := shared.answered ++ [r]
    granted := shared.granted ++ [r]
    holders := shared.holders ++ [r]
    unread := shared.unread ++ [r] }

def refuse (r : LockRequest) (result : TryLockResult) (shared : Shared) : Shared :=
  { shared with
    pendingLock := shared.pendingLock.tail
    tryLockResult := Function.update shared.tryLockResult r.id result
    answered := shared.answered ++ [r] }

def requeue (r : LockRequest) (shared : Shared) : Shared :=
  { shared with pendingLock := shared.pendingLock.tail ++ [r] }

def apply : Effect → Shared → Shared
  | .create r => create r
  | .add r => add r
  | .read r => read r
  | .unlock r => unlock r
  | .grant r => grant r
  | .refuse r result => refuse r result
  | .requeue r => requeue r
  | .notify r => fun shared => { shared with notified := shared.notified ++ [r] }
  | .stop => fun shared => { shared with go := false }
  | .clear => fun shared => { shared with pendingLock := [], pendingRelease := [] }

end Shared

/-- The points of a client. -/
inductive ClientPoint
  | idle
  /-- at the `lock()` of `acquire` or `release` -/
  | enter (r : LockRequest)
  /-- behind it -/
  | add (r : LockRequest)
  /-- at the `wait()` of the request -/
  | wait (r : LockRequest)
  /-- inside that wait -/
  | woken (r : LockRequest)
  /-- at the destructor of the request -/
  | leave (r : LockRequest)
  deriving DecidableEq

/-- The loops inside the loop of `run`. -/
inductive Pass
  /-- at the loop over the pending releases -/
  | releases
  /-- at the loop over the pending locks, `left` of which are to be tried -/
  | locks (left : Nat)
  deriving DecidableEq

/-- The points of `LockQueue::run`. -/
inductive QueuePoint
  | enter
  | loop
  | pass (rest : Pass)
  /-- at the `lock()` of a request that is being answered -/
  | answer (r : LockRequest) (rest : Pass)
  /-- behind it -/
  | notify (r : LockRequest) (rest : Pass)
  /-- inside `wait(5000)` -/
  | woken
  | exited
  deriving DecidableEq

/-- The points of `LockQueue::~LockQueue`. -/
inductive OwnerPoint
  | stop
  | lock
  | notify
  | join
  | clear
  | exited
  deriving DecidableEq

/-- A piece of code whose control points are of type `X`. -/
abbrev Piece (X : Type) := Instr ThreadId MonitorId Effect X

/-- A client: the constructor of a request, `acquire` or `release`, `wait()` and the
destructor. -/
def client (c : ClientId) (order : Order) : ClientPoint → Shared → Piece ClientPoint
  | .idle, shared =>
      let r := order.request ⟨c, shared.created c⟩
      { op := .lock (.request r.id), effect := some (.create r), next := .enter r }
  | .enter r, _ => { op := .lock .queue, next := .add r }
  | .add r, _ =>
      { op := .unlock .queue, effect := some (.add r), notify := some .queue, next := .wait r }
  | .wait r, _ => { op := .wait (.request r.id), next := .woken r }
  | .woken r, _ => { op := .lock (.request r.id), next := .leave r }
  | .leave r, _ => { op := .unlock (.request r.id), effect := some (.read r), next := .idle }

/-- `LockQueue::run`; the first element of an empty list cannot be removed. -/
def run (recursive : Bool) : QueuePoint → Shared → Option (Piece QueuePoint)
  | .enter, _ => some { op := .lock .queue, next := .loop }
  | .loop, shared =>
      if shared.pendingLock ≠ [] ∨ shared.pendingRelease ≠ [] ∨ shared.go then
        some { next := .pass .releases }
      else some { op := .unlock .queue, next := .exited }
  | .pass .releases, shared =>
      match shared.pendingRelease with
      | [] => some { next := .pass (.locks shared.pendingLock.length) }
      | r :: _ => some { effect := some (.unlock r), next := .answer r .releases }
  | .pass (.locks 0), _ => some { op := .wait .queue, next := .woken }
  | .pass (.locks (left + 1)), shared =>
      match shared.pendingLock with
      | [] => none
      | r :: _ =>
          let tryLockResult := shared.trylock recursive r.target
          if tryLockResult = .locked then
            some { effect := some (.grant r), next := .answer r (.locks left) }
          else if ¬ r.waitForLock then
            some { effect := some (.refuse r tryLockResult), next := .answer r (.locks left) }
          else some { effect := some (.requeue r), next := .pass (.locks left) }
  | .answer r rest, _ => some { op := .lock (.request r.id), next := .notify r rest }
  | .notify r rest, _ =>
      some
        { op := .unlock (.request r.id), effect := some (.notify r)
          notify := some (.request r.id), next := .pass rest }
  | .woken, _ => some { op := .lock .queue, next := .loop }
  | .exited, _ => none

/-- `LockQueue::~LockQueue` -/
def destroy : OwnerPoint → Option (Piece OwnerPoint)
  | .stop => some { effect := some .stop, next := .lock }
  | .lock => some { op := .lock .queue, next := .notify }
  | .notify => some { op := .unlock .queue, notify := some .queue, next := .join }
  | .join => some { op := .join .queue, next := .clear }
  | .clear => some { effect := some .clear, next := .exited }
  | .exited => none

/-- The control points of all threads. -/
inductive Point
  | client (p : ClientPoint)
  | queue (p : QueuePoint)
  | owner (p : OwnerPoint)
  deriving DecidableEq

namespace Point

/-- The monitors entered at a point. -/
def held : Point → List MonitorId
  | .client .idle | .client (.woken _) => []
  | .client (.enter r) | .client (.wait r) | .client (.leave r) => [.request r.id]
  | .client (.add r) => [.queue, .request r.id]
  | .queue .enter | .queue .woken | .queue .exited => []
  | .queue .loop | .queue (.pass _) | .queue (.answer _ _) => [.queue]
  | .queue (.notify r _) => [.request r.id, .queue]
  | .owner .notify => [.queue]
  | .owner _ => []

def waitsAt : Point → Option MonitorId
  | .client (.woken r) => some (.request r.id)
  | .queue .woken => some .queue
  | _ => none

end Point

/-- The code of all threads. -/
def code (recursive : Bool) : ThreadId → Order → Point → Shared → Option (Piece Point)
  | .client c, order, .client p, shared => some ((client c order p shared).map .client)
  | .queue, _, .queue p, shared => (run recursive p shared).map fun piece => piece.map .queue
  | .owner, _, .owner p, _ => (destroy p).map fun piece => piece.map .owner
  | _, _, _, _ => none

/-- A lock queue as a program; `recursive` tells the kind of the mutexes. -/
def program (recursive : Bool) : Program ThreadId MonitorId Shared Effect Point Order where
  code := code recursive
  apply := Shared.apply
  held _ := Point.held
  waitsAt _ := Point.waitsAt
  handler := id
  exited p := p = .queue .exited

abbrev QueueState := State ThreadId MonitorId Shared Point

abbrev QueueAction := Action ThreadId MonitorId Order

/-- The clients follow the protocol: they release what they were granted, and no call is
made or still in progress when the queue is destroyed. -/
def Usage : ThreadId → Order → Point → Shared → Prop
  | .client _, .acquire _ _, .client .idle, shared => shared.go = true
  | .client c, .release granted, .client .idle, shared =>
      shared.go = true ∧ granted ∈ shared.outstanding ∧ granted.id.client = c
  | .owner, _, .owner .stop, shared => shared.drafts = []
  | _, _, _, _ => True

instance (t : ThreadId) (order : Order) (p : Point) (shared : Shared) :
    Decidable (Usage t order p shared) := by
  unfold Usage
  split <;> infer_instance

/-- The steps of a run: the usage is respected, and no client wakes up without a
notification. -/
def Allowed (state : QueueState) : QueueAction → Prop
  | .run t order _ => Usage t order (state.pc t) state.data
  | .spurious m _ => m = .queue

instance (state : QueueState) (action : QueueAction) : Decidable (Allowed state action) := by
  cases action <;> simp only [Allowed] <;> infer_instance

theorem Allowed.respects {state : QueueState} {action : QueueAction}
    (h : Allowed state action) : Annotation.Respects Usage state action := by
  cases action with
  | run => exact h
  | spurious => exact True.intro

/-- Behind the constructor. -/
def initial : QueueState where
  data :=
    { pendingLock := [], pendingRelease := [], go := true
      isLocked := fun _ => false, tryLockResult := fun _ => .busy, created := fun _ => 0
      drafts := [], acquired := [], returned := [], answered := [], notified := []
      granted := [], holders := [], unread := [], outstanding := [] }
  monitor _ := .fresh
  pc
    | .client _ => .client .idle
    | .queue => .queue .enter
    | .owner => .owner .stop

end ThreadPools.LockQueue
