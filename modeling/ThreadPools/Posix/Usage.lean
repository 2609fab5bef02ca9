/-
# How a pool is used

Restrictions on the environment are stated for single steps: which methods the
tasks may call on the pool that runs them, and that a task object is submitted
only once. Every point of a run then belongs to its thread: calls are those of
the object's kind, and a worker is inside a call only if tasks may make it.
-/

import ThreadPools.Posix.LockDiscipline

namespace ThreadPools.Posix

open ThreadPools.Concurrency

/-- Tasks call no other methods of the pool than the `allowed` ones. -/
def TasksCall (allowed : Method → Prop) (t : Tid) (input : Input) (_ : Point) (_ : Pool) :
    Prop :=
  ∀ m method, t = .worker m → input = .call method → allowed method

/-- A task is submitted at most once. -/
def SubmitsFresh (_ : Tid) (input : Input) (_ : Point) (pool : Pool) : Prop :=
  ∀ x, input = .call (.execute (some x)) → ∀ t, (x, t) ∉ pool.log.submitted

/-- Tasks do not call back into the pool. -/
def noCallback (_ : Method) : Prop := False

/-- Tasks may submit other tasks. -/
def mayExecute (method : Method) : Prop := ∃ task, method = .execute task

instance (t : Tid) (input : Input) (p : Point) (pool : Pool) :
    Decidable (TasksCall noCallback t input p pool) :=
  match t, input with
  | .worker m, .call method => .isFalse fun h => h m method rfl rfl
  | .worker _, .go => .isTrue nofun
  | .worker _, .finish => .isTrue nofun
  | .client _, _ => .isTrue nofun
  | .dispatcher, _ => .isTrue nofun

instance (t : Tid) (input : Input) (p : Point) (pool : Pool) :
    Decidable (SubmitsFresh t input p pool) :=
  match input with
  | .call (.execute (some x)) =>
      decidable_of_iff (∀ entry ∈ pool.log.submitted, entry.1 ≠ x)
        ⟨fun h _ heq t hmem => h (_, t) hmem (by cases heq; rfl),
          fun h entry hmem heq => h x rfl entry.2 (heq ▸ hmem)⟩
  | .call (.execute none) => .isTrue nofun
  | .call .isIdle => .isTrue nofun
  | .call .isBusy => .isTrue nofun
  | .call .queueLength => .isTrue nofun
  | .call .terminate => .isTrue nofun
  | .call .destroy => .isTrue nofun
  | .go => .isTrue nofun
  | .finish => .isTrue nofun

/-- The contract of the pools: tasks do not call back, and no task is submitted
twice. -/
def Contract (state : PoolState) (action : PoolAction) : Prop :=
  Annotation.Respects (TasksCall noCallback) state action ∧
    Annotation.Respects SubmitsFresh state action

instance (state : PoolState) (action : PoolAction) : Decidable (Contract state action) :=
  inferInstanceAs (Decidable (_ ∧ _))

/-! ## The points of a thread -/

/-- The monitor which every method of a pool enters first. -/
def Kind.entrance : Kind → MonitorId
  | .threadPool => .pool
  | .queuedThreadPool => .dispatcher

namespace Call

/-- The class whose method is called. -/
def kind : Call → Kind
  | .execute _ _ | .isIdle _ | .isBusy _ | .terminate _ | .destroy _ => .threadPool
  | .queuedExecute _ _ | .queuedIsIdle _ | .queuedIsBusy _ | .queueLength _
  | .queuedTerminate _ | .queuedDestroy _ => .queuedThreadPool

def method : Call → Method
  | .execute task _ | .queuedExecute task _ => .execute task
  | .isIdle _ | .queuedIsIdle _ => .isIdle
  | .isBusy _ | .queuedIsBusy _ => .isBusy
  | .queueLength _ => .queueLength
  | .terminate _ | .queuedTerminate _ => .terminate
  | .destroy _ | .queuedDestroy _ => .destroy

theorem entry_spec {kind : Kind} {method : Method} {call : Call}
    (h : entry kind method = some call) : call.kind = kind ∧ call.method = method := by
  cases kind <;> cases method <;> cases h <;> exact ⟨rfl, rfl⟩

theorem next_of_piece {Q R : Type} {embed : Q → Call} {body : Piece (Q ⊕ R)} {call : Call}
    (h : (piece embed body).next = .inl call) : ∃ q, body.next = .inl q ∧ call = embed q := by
  cases hnext : body.next with
  | inl q =>
      simp only [piece, Instr.map_next, hnext] at h
      exact ⟨q, rfl, (Sum.inl.inj h).symm⟩
  | inr r =>
      simp only [piece, Instr.map_next, hnext] at h
      cases h

/-- A call stays a call of the same method. -/
theorem method_of_next {call next : Call} {pool : Pool}
    (h : (call.code pool).next = .inl next) :
    next.kind = call.kind ∧ next.method = call.method := by
  cases call <;> obtain ⟨q, -, rfl⟩ := next_of_piece h <;> exact ⟨rfl, rfl⟩

/-- What calls of `execute` do. -/
theorem execute_effect {call : Call} (hexecute : mayExecute call.method) {pool : Pool}
    {effect : Effect} (heffect : (call.code pool).effect = some effect) :
    (∃ task, effect = .reject task) ∨ (∃ task m, effect = .place task m) ∨
      ∃ task, effect = .push task := by
  obtain ⟨task, htask⟩ := hexecute
  cases call with
  | execute task p =>
      cases p with
      | test =>
          simp only [code, piece, ThreadPool.execute, Instr.map_effect] at heffect
          split at heffect <;> cases heffect
          exact .inl ⟨task, rfl⟩
      | scan p =>
          have hmoves := scan_moves task p pool
          have heffect : (scan task p pool).effect = some effect := heffect
          generalize scan task p pool = piece at hmoves heffect
          cases hmoves <;> cases heffect
          exact .inr (.inl ⟨task, _, rfl⟩)
      | _ => cases heffect
  | queuedExecute task p =>
      cases p with
      | lock => cases heffect
      | body =>
          simp only [code, piece, QueuedThreadPool.execute, Instr.map_effect] at heffect
          split at heffect <;> cases heffect
          · exact .inr (.inr ⟨task, rfl⟩)
          · exact .inl ⟨task, rfl⟩
  | _ => cases htask

end Call

/-- The point belongs to the thread. -/
def Point.Fits (kind : Kind) (allowed : Method → Prop) : Tid → Point → Prop
  | .client _, .client call => ∀ c ∈ call, c.kind = kind
  | .dispatcher, .dispatcher p => p ≠ .exited → kind = .queuedThreadPool
  | .worker _, .worker p => ∀ c, p = .running (some c) → c.kind = kind ∧ allowed c.method
  | _, _ => False

namespace Point.Fits

variable {kind : Kind} {allowed : Method → Prop} {place : Point}

theorem client {c : Nat} (h : place.Fits kind allowed (.client c)) :
    ∃ call, place = .client call := by
  cases place with
  | client call => exact ⟨call, rfl⟩
  | dispatcher => exact h.elim
  | worker => exact h.elim

theorem dispatcher (h : place.Fits kind allowed .dispatcher) : ∃ q, place = .dispatcher q := by
  cases place with
  | client => exact h.elim
  | dispatcher q => exact ⟨q, rfl⟩
  | worker => exact h.elim

theorem worker {m : ManagerId} (h : place.Fits kind allowed (.worker m)) :
    ∃ q, place = .worker q := by
  cases place with
  | client => exact h.elim
  | dispatcher => exact h.elim
  | worker q => exact ⟨q, rfl⟩

/-- Tasks that do not call back submit no other tasks. -/
theorem mono {t : Tid} (h : place.Fits kind noCallback t) : place.Fits kind mayExecute t := by
  cases t with
  | client =>
      obtain ⟨call, rfl⟩ := h.client
      exact h
  | dispatcher =>
      obtain ⟨q, rfl⟩ := h.dispatcher
      exact h
  | worker =>
      obtain ⟨q, rfl⟩ := h.worker
      exact fun c hc => (h c hc).2.elim

/-- A task that is in no call has not called back. -/
theorem noCallback_of_not_calling {t : Tid} (h : place.Fits kind allowed t)
    (hcalling : ∀ call, place ≠ .worker (.running (some call))) :
    place.Fits kind noCallback t := by
  cases t with
  | client =>
      obtain ⟨call, rfl⟩ := h.client
      exact h
  | dispatcher =>
      obtain ⟨q, rfl⟩ := h.dispatcher
      exact h
  | worker =>
      obtain ⟨q, rfl⟩ := h.worker
      exact fun c hc => absurd (congrArg Point.worker hc) (hcalling c)

/-- The dispatcher is in no call. -/
theorem ne_dispatcher {t : Tid} {call : Option Call}
    (h : (t.calling call).Fits kind allowed t) : t ≠ .dispatcher := by
  rintro rfl
  exact h.elim

/-- A dispatcher that has not ended belongs to a `QueuedThreadPool`. -/
theorem kind_of_dispatcher {t : Tid} {q : QueuedThreadPool.RunPoint}
    (h : (Point.dispatcher q).Fits kind allowed t) : t = .dispatcher ∧
      (q ≠ .exited → kind = .queuedThreadPool) := by
  cases t with
  | client => exact h.elim
  | dispatcher => exact ⟨rfl, h⟩
  | worker => exact h.elim

end Point.Fits

namespace Config

variable (cfg : Config) (allowed : Method → Prop)

/-- Threads stay at points of their own. -/
def shape : Annotation Tid MonitorId Pool Point where
  assertion t p _ := p.Fits cfg.kind allowed t
  resource _ _ := True
  invariant _ := True

variable {cfg allowed}

theorem fits_calling {t : Tid} (ht : t ≠ .dispatcher) {call : Option Call} :
    (t.calling call).Fits cfg.kind allowed t ↔
      ∀ c ∈ call, c.kind = cfg.kind ∧ (∀ m, t = .worker m → allowed c.method) := by
  cases t with
  | client => simp [Point.Fits]
  | dispatcher => exact (ht rfl).elim
  | worker m => cases call <;> simp [Point.Fits]

theorem Moves.fits {pool : Pool} {t : Tid} {input : Input} {p : Point} {piece : Piece Point}
    (hmoves : cfg.Moves pool t input p piece) (husage : TasksCall allowed t input p pool)
    (hfits : p.Fits cfg.kind allowed t) : piece.next.Fits cfg.kind allowed t := by
  cases hmoves with
  | enter t method call ht hentry =>
      obtain ⟨hkind, rfl⟩ := Call.entry_spec hentry
      refine (fits_calling ht).mpr ?_
      rintro _ ⟨⟩
      exact ⟨hkind, fun m hm => husage m _ hm rfl⟩
  | call t call ht =>
      obtain ⟨hkind, hallowed⟩ := (fits_calling ht).mp hfits call rfl
      cases hnext : (call.code pool).next with
      | inl next =>
          obtain ⟨hsameKind, hsameMethod⟩ := Call.method_of_next hnext
          simp only [Instr.map_next, hnext]
          refine (fits_calling ht).mpr ?_
          rintro _ ⟨⟩
          exact ⟨hsameKind.trans hkind, hsameMethod ▸ hallowed⟩
      | inr =>
          simp only [Instr.map_next, hnext]
          exact (fits_calling ht).mpr nofun
  | dispatcher hmoves => exact fun _ => hfits hmoves.not_exited
  | worker m input hmoves => exact fun c hc => absurd hc (hmoves.next_not_running c)

theorem shape_valid :
    Annotation.Valid cfg.program .trivial (cfg.shape allowed) (TasksCall allowed) where
  assertion hbefore husage := (code_moves hbefore.code).fits husage hbefore.assertion.2
  release _ _ _ _ := trivial
  invariant _ _ _ := trivial
  frame _ _ _ _ hother _ _ := hother.2
  frame_resource _ _ _ _ _ _ _ := trivial
  raise {t _ p _ _} _ _ _ hassertion _ _ := by
    refine ⟨?_, fun _ _ _ => trivial⟩
    have hfits : p.Fits cfg.kind allowed t := hassertion.2
    show p.handler.Fits cfg.kind allowed t
    rcases p.handler_cases with hsame | ⟨call, rfl, hcaught⟩
    · rwa [hsame]
    · rw [hcaught]
      cases t with
      | client | dispatcher => exact hfits.elim
      | worker => nofun

theorem shape_initial : (cfg.shape allowed).Holds cfg.initial where
  assertion t := by
    show (cfg.initialPoint t).Fits cfg.kind allowed t
    cases t with
    | client => rintro _ ⟨⟩
    | dispatcher =>
        simp only [initialPoint]
        split
        · next h => exact fun _ => h.1
        · exact fun h => absurd rfl h
    | worker => simp only [initialPoint]; split <;> rintro _ ⟨⟩
  resource _ _ := trivial
  invariant := trivial

variable {guard : PoolState → PoolAction → Prop} {state : PoolState}

theorem shape_of_reaches
    (hguard : ∀ state action, guard state action →
      Annotation.Respects (TasksCall allowed) state action)
    (hrun : Reaches cfg.program.step guard cfg.initial state) :
    (cfg.shape allowed).Holds state :=
  shape_valid.holds cfg.wellLocked (fun _ _ _ h => hguard _ _ h) cfg.locked_initial
    (fun _ _ => Annotation.holds_trivial _) shape_initial hrun

theorem shape_of_reaches_any (hrun : Reaches cfg.program.step guard cfg.initial state) :
    (cfg.shape fun _ => True).Holds state :=
  shape_of_reaches (fun _ action _ => by
    cases action with
    | run => exact fun _ _ _ _ => trivial
    | spurious => trivial) hrun

theorem ne_dispatcher_of_calling (hrun : Reaches cfg.program.step guard cfg.initial state)
    {t : Tid} {call : Option Call} (hcall : state.pc t = t.calling call) : t ≠ .dispatcher := by
  have hfits : (state.pc t).Fits cfg.kind (fun _ => True) t :=
    (shape_of_reaches_any hrun).assertion t
  rw [hcall] at hfits
  exact hfits.ne_dispatcher

theorem kind_of_calling (hrun : Reaches cfg.program.step guard cfg.initial state) {t : Tid}
    {call : Call} (hcall : state.pc t = t.calling (some call)) : call.kind = cfg.kind := by
  have hfits : (state.pc t).Fits cfg.kind (fun _ => True) t :=
    (shape_of_reaches_any hrun).assertion t
  rw [hcall] at hfits
  exact ((fits_calling (ne_dispatcher_of_calling hrun hcall)).mp hfits call rfl).1

theorem dispatcher_point (h : (cfg.shape allowed).Holds state) :
    ∃ q, state.pc .dispatcher = .dispatcher q :=
  Point.Fits.dispatcher (h.assertion .dispatcher)

theorem worker_point (h : (cfg.shape allowed).Holds state) (m : ManagerId) :
    ∃ q, state.pc (.worker m) = .worker q :=
  Point.Fits.worker (h.assertion (.worker m))

/-! ## What calls know by themselves -/

/-- Every call knows `K`. -/
def calls (K : Call → Pool → Prop) : Annotation Tid MonitorId Pool Point where
  assertion t p pool := ∀ call, p = t.calling (some call) → K call pool
  resource _ _ := True
  invariant _ := True

section Calls

variable {K : Call → Pool → Prop}
  (hentry : ∀ {kind method call} pool, Call.entry kind method = some call → K call pool)
  (hnext : ∀ {call next pool}, K call pool → (call.code pool).next = .inl next →
    K next (Piece.after (call.code pool) pool))
  (happly : ∀ {call pool} effect, K call pool → K call (pool.apply effect))

include hentry hnext happly

/-- Knowledge that no effect destroys is known to all calls if the first point of a call has
it and the code of the calls keeps it. -/
theorem calls_valid {usage : Tid → Input → Point → Pool → Prop} :
    Annotation.Valid cfg.program .trivial (calls K) usage where
  assertion {_ _ _ pool piece} hbefore _ call hcall := by
    rw [dataAfter_eq]
    rcases (code_moves hbefore.code).next_calling hcall with
      ⟨method, -, -, hmethod⟩ | ⟨prior, hprior, hcode, hafter⟩
    · exact hentry _ hmethod
    · rw [hafter]
      exact hnext (hbefore.assertion.2 prior hprior) hcode
  release _ _ _ _ := trivial
  invariant _ _ _ := trivial
  frame _ _ _ _ hother _ _ call hcall := happly _ (hother.2 call hcall)
  frame_resource _ _ _ _ _ _ _ := trivial
  raise _ _ _ hassertion _ _ :=
    ⟨fun call hcall => hassertion.2 call (Point.eq_of_handler hcall), fun _ _ _ => trivial⟩

theorem calls_of_reaches (hrun : Reaches cfg.program.step guard cfg.initial state) :
    (calls K).Holds state := by
  have hvalid : Annotation.Valid cfg.program .trivial (calls K) fun _ _ _ _ => True :=
    calls_valid hentry hnext happly
  have hinitial : (calls K).Holds cfg.initial :=
    ⟨fun t call h => absurd h (cfg.initialPoint_ne_calling t call), fun _ _ => trivial, trivial⟩
  exact hvalid.holds cfg.wellLocked (fun _ action _ _ => by cases action <;> trivial)
    cfg.locked_initial (fun _ _ => Annotation.holds_trivial _) hinitial hrun

end Calls

end Config

end ThreadPools.Posix
