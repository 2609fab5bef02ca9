/-
# What `ThreadPool::is_idle` and `ThreadPool::is_busy` find

Both functions ask one manager after another and stop at the first one that is not idle;
they differ in nothing but their results. `is_idle` of a manager enters the monitor which
the worker keeps until its task has ended. So a call waits for every task that a worker has
taken up, finds the manager idle then, and stops only at a task that no worker has begun
with. Nobody else fills a slot meanwhile, since the call is inside the pool.
-/

import ThreadPools.Posix.Blocking

namespace ThreadPools.Posix

open ThreadPools.Concurrency
open Annotation (Respects)

/-! ## Managers with a task -/

/-- The worker has taken up the task in its slot. -/
def Executes (state : PoolState) (m : ManagerId) : Prop :=
  (state.data.managers m).task ≠ none ∧ (state.monitor (.manager m)).owner = some (.worker m)

/-- The worker has not begun with the task in its slot. -/
def Handed (state : PoolState) (m : ManagerId) : Prop :=
  (state.data.managers m).task ≠ none ∧ (state.monitor (.manager m)).owner ≠ some (.worker m)

/-- The task of the worker is in a call of the pool. -/
def CallsBack (state : PoolState) (m : ManagerId) : Prop :=
  ∃ call, state.pc (.worker m) = .worker (.running (some call))

theorem not_handed_iff {state : PoolState} {m : ManagerId} :
    ¬ Handed state m ↔ (state.data.managers m).task = none ∨
      (state.monitor (.manager m)).owner = some (.worker m) := by
  rw [Handed, not_and_or, not_not, not_not]

/-! ## Who is inside a manager -/

/-- A call that is not at its beginning is inside the pool, and so it is when it is inside a
manager. -/
theorem Call.held_cases {call : Call} (hkind : call.kind = .threadPool) (h : call.Harmless) :
    call.held = [] ∧ (∀ pool, (call.code pool).op = .lock .pool) ∨ .pool ∈ call.held := by
  cases call with
  | execute task p =>
      cases p with
      | enter | woken => exact .inl ⟨rfl, fun _ => rfl⟩
      | _ => exact .inr (by simp [Call.held, ThreadPool.ExecutePoint.held])
  | isIdle p | isBusy p =>
      cases p with
      | enter => exact .inl ⟨rfl, fun _ => rfl⟩
      | _ => exact .inr (by simp [Call.held, ThreadPool.CheckPoint.held])
  | terminate => exact absurd rfl h.1
  | destroy => exact absurd rfl h.2
  | _ => cases hkind

/-! ## The two functions -/

/-- A function of the pool that asks every manager. -/
structure Survey where
  method : Method
  embed : ThreadPool.CheckPoint → Call
  onEmpty : Bool
  onBusy : Bool
  atEnd : Bool
  entry : Call.entry .threadPool method = some (embed .enter)
  code : ∀ p pool, (embed p).code pool =
    Call.piece embed (ThreadPool.check onEmpty onBusy atEnd p pool)
  held : ∀ p, (embed p).held = p.held
  waitsAt : ∀ p, (embed p).waitsAt = none
  entered : ∀ t, (embed .enter).entered t = none
  quiet : method ≠ .terminate ∧ method ≠ .destroy
  injective : Function.Injective embed

namespace Survey

def isIdle : Survey where
  method := .isIdle
  embed := .isIdle
  onEmpty := false
  onBusy := false
  atEnd := true
  entry := rfl
  code _ _ := rfl
  held _ := rfl
  waitsAt _ := rfl
  entered _ := rfl
  quiet := ⟨nofun, nofun⟩
  injective _ _ := Call.isIdle.inj

def isBusy : Survey where
  method := .isBusy
  embed := .isBusy
  onEmpty := true
  onBusy := true
  atEnd := false
  entry := rfl
  code _ _ := rfl
  held _ := rfl
  waitsAt _ := rfl
  entered _ := rfl
  quiet := ⟨nofun, nofun⟩
  injective _ _ := Call.isBusy.inj

end Survey

namespace Config

variable (cfg : Config) (c : Nat)

/-- The pool is used, but nobody shuts it down. -/
def Used : PoolState → Prop :=
  Reaches cfg.program.step (Respects NoShutdown) cfg.initial

/-- The steps while the client `c` is inside the pool. -/
def Inside (state : PoolState) (action : PoolAction) : Prop :=
  (state.monitor .pool).owner = some (.client c) ∧ Respects NoShutdown state action

/-- The client `c` calls the function and gets the lock of the pool at once. -/
def Begins (survey : Survey) (state begun : PoolState) : Prop :=
  ∃ called, cfg.program.step state (PoolAction.call (.client c) survey.method) = some called ∧
    cfg.program.step called (PoolAction.go (.client c)) = some begun

/-- The call of the client `c` that gets the lock of the pool in `state` can return
`result`. -/
def Returns (survey : Survey) (state : PoolState) (result : Bool) : Prop :=
  ∃ begun target, cfg.Begins c survey state begun ∧
    Reaches cfg.program.step (Inside c) begun target ∧
    target.pc (.client c) = .client (some (survey.embed (.leave result)))

variable {cfg : Config} {c : Nat} {state next : PoolState} {action : PoolAction} {m : ManagerId}

namespace Used

theorem locked (hused : cfg.Used state) : cfg.program.Locked state := locked_of_reaches hused

theorem fits (hused : cfg.Used state) (t : Tid) :
    (state.pc t).Fits cfg.kind (fun _ => True) t :=
  (shape_of_reaches_any hused).assertion t

theorem harmless (hused : cfg.Used state) (t : Tid) : Observes t (state.pc t) :=
  (undisturbed_of_reaches (fun _ _ h => h) hused).assertion t

theorem life (hused : cfg.Used state) : state.data.life = cfg.initialPool.life :=
  (undisturbed_of_reaches (fun _ _ h => h) hused).invariant

theorem inside (hused : cfg.Used state) (hrun : Reaches cfg.program.step (Inside c) state next) :
    cfg.Used next :=
  Reaches.trans hused (hrun.mono fun _ _ h => h.2)

theorem go (hused : cfg.Used state) (m : ManagerId) : (state.data.managers m).go = true :=
  manager_go (undisturbed_of_reaches (fun _ _ h => h) hused) m

/-- What a thread knows of its monitors it knows behind a step of somebody else. -/
theorem owner_step (hused : cfg.Used state) (hstep : cfg.program.step state action = some next)
    {t : Tid} (hmover : action.mover ≠ some t) {x : MonitorId} :
    (next.monitor x).owner = some t ↔ (state.monitor x).owner = some t := by
  have hlocked := hused.locked.step cfg.wellLocked hstep
  rw [hlocked.owner, Program.step_pc hstep hmover, hused.locked.owner]

end Used

/-- A worker that has taken up a task leaves its manager only behind the end of the task. -/
theorem Moves.held_of_taken {pool : Pool} {input : Input} {p : Point} {piece : Piece Point}
    (hmoves : cfg.Moves pool (.worker m) input p piece) (hgo : (pool.managers m).go = true)
    (hheld : .manager m ∈ p.held (.worker m)) (htask : (pool.managers m).task ≠ none) :
    .manager m ∈ piece.next.held (.worker m) ∨ piece.effect = some (.finish m) := by
  generalize hworker : Tid.worker m = t at hmoves hheld
  cases hmoves with
  | enter t method call ht =>
      subst hworker
      exact .inl (by simp [Point.held])
  | call t call ht =>
      subst hworker
      rw [Instr.map_next]
      cases (call.code pool).next <;> exact .inl (by simp [Point.held])
  | dispatcher => cases hworker
  | worker i input hmoves =>
      cases hworker
      cases hmoves with
      | discard hstopped | leave hstopped => cases hgo.symm.trans hstopped
      | wait _ hnone => exact absurd hnone htask
      | finish => exact .inr rfl
      | add p | remove p => cases p <;> simp [Point.held, Section.held] at hheld
      | enter | woken => cases hheld
      | begin | skip | again => exact .inl (by simp [Point.held])

section Inside

variable (hkind : cfg.kind = .threadPool) (hused : cfg.Used state)
  (howner : (state.monitor .pool).owner = some (.client c))
  (hclient : ∀ input piece, cfg.code (.client c) input (state.pc (.client c)) state.data =
    some piece → piece.effect = none)
  (hstep : cfg.program.step state action = some next)

include hkind hused howner hclient hstep

/-- While a client is inside the pool and fills no slot, no slot is filled. -/
theorem Used.task_step (h : (state.data.managers m).task = none) :
    (next.data.managers m).task = none := by
  rcases Program.step_cases hstep with
    ⟨t, input, choice, piece, -, hcode, -, rfl⟩ | ⟨t, input, choice, piece, -, -, -, rfl⟩ |
    ⟨x, t, -, -, rfl⟩
  · change ((cfg.program.dataAfter piece state.data).managers m).task = none
    cases heffect : piece.effect with
    | none => rwa [cfg.program.dataAfter_none heffect]
    | some effect =>
        have ht : t ≠ .client c := by
          rintro rfl
          cases heffect.symm.trans (hclient input piece hcode)
        have hentered : cfg.kind.entrance ∉ (state.pc t).held t := by
          rw [hkind]
          intro hheld
          have hinside := (hused.locked.owner .pool t).mpr hheld
          exact ht (Option.some.inj (hinside.symm.trans howner))
        rw [cfg.program.dataAfter_some heffect]
        exact (code_moves hcode).slot_empty (hused.fits t) heffect (.inl hentered) h
  · exact h
  · exact h

/-- A manager that has no task, or a task its worker has taken up, stays so. -/
theorem Used.not_handed_step (h : ¬ Handed state m) : ¬ Handed next m := by
  have hnextLocked := hused.locked.step cfg.wellLocked hstep
  rw [not_handed_iff] at h ⊢
  by_cases hempty : (state.data.managers m).task = none
  · exact .inl (hused.task_step hkind howner hclient hstep hempty)
  · have htaken := h.resolve_left hempty
    by_cases hmover : action.mover = some (.worker m)
    · have hheld := (hused.locked.owner (.manager m) (.worker m)).mp htaken
      rcases Program.step_cases hstep with
        ⟨t, input, choice, piece, rfl, hcode, -, rfl⟩ | ⟨t, input, choice, piece, rfl, -, -, rfl⟩ |
        ⟨x, t, rfl, -, rfl⟩
      · cases hmover
        rcases (code_moves hcode).held_of_taken (hused.go m) hheld hempty with hnext | hfinish
        · refine .inr ((hnextLocked.owner (.manager m) (.worker m)).mpr ?_)
          simpa [Program.advance, program] using hnext
        · refine .inl ?_
          change ((cfg.program.dataAfter piece state.data).managers m).task = none
          rw [cfg.program.dataAfter_some hfinish]
          simp [program, Pool.apply, Pool.deleteTask]
      · cases hmover
        refine .inr ((hnextLocked.owner (.manager m) (.worker m)).mpr ?_)
        rcases (state.pc (.worker m)).handler_cases with hsame | ⟨call, hcall, hcaught⟩
        · simpa [Program.raise, program, hsame] using hheld
        · simp [Program.raise, program, hcaught, Point.held]
      · cases hmover
    · exact .inr ((hused.owner_step hstep hmover).mpr htaken)

end Inside

/-- While a client is inside the pool no call of a task goes on. -/
theorem Used.callsBack_step (hkind : cfg.kind = .threadPool) (hused : cfg.Used state)
    (howner : (state.monitor .pool).owner = some (.client c))
    (hstep : cfg.program.step state action = some next) (h : CallsBack state m) :
    CallsBack next m := by
  obtain ⟨call, hcall⟩ := h
  have hcalling : state.pc (.worker m) = (Tid.worker m).calling (some call) := hcall
  by_cases hmover : action.mover = some (.worker m)
  · have hcallKind : call.kind = .threadPool := (kind_of_calling hused hcalling).trans hkind
    have hblocked : ∀ piece input,
        cfg.code (.worker m) input (state.pc (.worker m)) state.data = some piece →
        piece.op = .lock .pool := by
      intro piece input hcode
      rw [hcalling] at hcode
      have ht : Tid.worker m ≠ .dispatcher := by rintro ⟨⟩
      rw [(code_moves hcode).of_call ht]
      rcases Call.held_cases hcallKind (hused.harmless _ call hcalling) with ⟨-, hop⟩ | hheld
      · exact hop state.data
      · have hinside : (state.monitor .pool).owner = some (.worker m) := by
          refine (hused.locked.owner .pool (.worker m)).mpr ?_
          change .pool ∈ (state.pc (.worker m)).held (.worker m)
          rw [hcall]
          simp [Point.held, hheld]
        cases hinside.symm.trans howner
    rcases Program.step_cases hstep with
      ⟨t, input, choice, piece, rfl, hcode, henabled, -⟩ |
      ⟨t, input, choice, piece, rfl, hcode, hraises, -⟩ | ⟨x, t, rfl, -, -⟩
    · cases hmover
      rw [hblocked piece input hcode] at henabled
      cases howner.symm.trans henabled.1
    · cases hmover
      rw [hblocked piece input hcode] at hraises
      cases howner.symm.trans hraises
    · cases hmover
  · exact ⟨call, (Program.step_pc hstep hmover).trans hcall⟩

/-- The manager of a task that calls the pool belongs to its worker. -/
theorem Used.owner_of_callsBack (hused : cfg.Used state) (h : CallsBack state m) :
    (state.monitor (.manager m)).owner = some (.worker m) := by
  obtain ⟨call, hcall⟩ := h
  refine (hused.locked.owner (.manager m) (.worker m)).mpr ?_
  change .manager m ∈ (state.pc (.worker m)).held (.worker m)
  rw [hcall]
  simp [Point.held]

end Config

/-! ## What a call can return -/

/-- The call has asked managers of `front` only, and comes to the ones `behind` next. -/
def ThreadPool.CheckPoint.Before (atEnd : Bool) (front behind : List ManagerId) :
    ThreadPool.CheckPoint → Prop
  | .enter | .test => True
  | .probe m rest .lock => ∃ ahead ⊆ front, m :: rest = ahead ++ behind
  | .probe m rest .body => m ∈ front ∧ ∃ ahead ⊆ front, rest = ahead ++ behind
  | .leave result => behind = [] ∧ result = atEnd

theorem ThreadPool.CheckPoint.before_next {atEnd : Bool} {front behind ahead : List ManagerId}
    (h : ahead ⊆ front) :
    (CheckPoint.next atEnd (ahead ++ behind)).Before atEnd front behind := by
  cases hrest : ahead ++ behind with
  | nil => exact ⟨(List.append_eq_nil_iff.mp hrest).2, rfl⟩
  | cons m rest => exact ⟨ahead, h, hrest.symm⟩

section Complete

variable {size : Nat} {state : PoolState}

theorem Config.Used.isAlive (hused : (Config.complete .threadPool size).Used state)
    (m : ManagerId) : (state.data.managers m).isAlive = true := by
  have hstatus : (state.data.life.manager m).status = .running := by
    rw [hused.life]
    rfl
  exact decide_eq_true hstatus

theorem Config.Used.taskList (hused : (Config.complete .threadPool size).Used state) :
    state.data.taskList = List.range size := by
  have htaskList : state.data.life.taskList = List.range size := by
    rw [hused.life]
    rfl
  exact htaskList

end Complete

namespace Survey

open Config

variable {cfg : Config} {size c : Nat} {survey : Survey} {state next : PoolState}
  {action : PoolAction} {m : ManagerId} {front behind : List ManagerId}
  {p : ThreadPool.CheckPoint}

theorem effect_none (p : ThreadPool.CheckPoint) {pool : Pool} {input : Input}
    {piece : Piece Point}
    (hcode : cfg.code (.client c) input (.client (some (survey.embed p))) pool = some piece) :
    piece.effect = none := by
  have ht : Tid.client c ≠ .dispatcher := by rintro ⟨⟩
  have hmoves : cfg.Moves pool (.client c) input
    ((Tid.client c).calling (some (survey.embed p))) piece := code_moves hcode
  rw [hmoves.of_call ht, survey.code]
  exact ThreadPool.check_effect _ _ _ p pool

/-- A client in a call owns what its point says. -/
theorem owner_iff (hused : cfg.Used state)
    (hp : state.pc (.client c) = .client (some (survey.embed p))) {x : MonitorId} :
    (state.monitor x).owner = some (.client c) ↔ x ∈ p.held := by
  rw [hused.locked.owner, hp, ← survey.held p]
  rfl

/-- A step of the call. -/
theorem step_cases (hp : state.pc (.client c) = .client (some (survey.embed p)))
    (hstep : cfg.program.step state action = some next) :
    next.pc (.client c) = .client (some (survey.embed p)) ∨
      (ThreadPool.check survey.onEmpty survey.onBusy survey.atEnd p state.data).next.elim
        (fun q => next.pc (.client c) = .client (some (survey.embed q)))
        fun _ => next.pc (.client c) = .client none := by
  by_cases hmover : action.mover = some (.client c)
  · obtain ⟨input, choice, rfl⟩ : ∃ input choice, action = .run (.client c) input choice := by
      cases action with
      | run t input choice => exact ⟨input, choice, by cases hmover; rfl⟩
      | spurious => cases hmover
    rcases step_of_client hp hstep with ⟨-, hpc⟩ | ⟨-, hpc, -⟩
    · refine .inr ?_
      rw [survey.code] at hpc
      cases hnext : (ThreadPool.check survey.onEmpty survey.onBusy survey.atEnd p
        state.data).next with
      | inl | inr => simpa [Call.piece, hnext] using hpc
    · exact .inl hpc
  · exact .inl ((Program.step_pc hstep hmover).trans hp)

section Before

variable (hused : (Config.complete .threadPool size).Used state)
  (hsize : 0 < size) (hmanagers : List.range size = front ++ behind)
  (hfront : ∀ m ∈ front, ¬ Handed state m) (hbehind : ∀ k ∈ behind.head?, CallsBack state k)

include hused hsize hmanagers hfront hbehind

/-- The call asks all managers of `front` before it stops. -/
theorem before_step (hp : state.pc (.client c) = .client (some (survey.embed p)))
    (hbefore : p.Before survey.atEnd front behind) (hinside : .pool ∈ p.held)
    (hguard : Respects NoShutdown state action)
    (hstep : (Config.complete .threadPool size).program.step state action = some next) :
    next.pc (.client c) = .client none ∨
      ∃ q, next.pc (.client c) = .client (some (survey.embed q)) ∧
        q.Before survey.atEnd front behind := by
  have howner : (state.monitor .pool).owner = some (.client c) := (owner_iff hused hp).mpr hinside
  rcases step_cases hp hstep with hsame | hnext
  · exact .inr ⟨p, hsame, hbefore⟩
  · cases p with
    | enter => cases hinside
    | test =>
        have hsome : (front ++ behind).isEmpty = false := by
          rw [← hmanagers]
          simpa using hsize.ne'
        simp only [ThreadPool.check, hused.taskList, hmanagers, hsome] at hnext
        exact .inr ⟨_, hnext, ThreadPool.CheckPoint.before_next (List.Subset.refl front)⟩
    | probe m rest p =>
        cases p with
        | lock =>
            obtain ⟨ahead, hahead, hrest⟩ := hbefore
            have hnextUsed : (Config.complete .threadPool size).Used next :=
              Reaches.tail action hused hguard hstep
            have hinner : (next.monitor (.manager m)).owner = some (.client c) :=
              (owner_iff hnextUsed hnext).mpr List.mem_cons_self
            refine .inr ⟨_, hnext, ?_⟩
            cases ahead with
            | nil =>
                -- the worker would be inside the manager
                rw [List.nil_append] at hrest
                have hcalls : CallsBack state m := hbehind m (by rw [← hrest]; rfl)
                have hworker := hnextUsed.owner_of_callsBack
                  (hused.callsBack_step rfl howner hstep hcalls)
                cases hinner.symm.trans hworker
            | cons first ahead =>
                obtain ⟨rfl, rfl⟩ := List.cons.inj hrest
                exact ⟨hahead List.mem_cons_self, ahead, List.subset_of_cons_subset hahead, rfl⟩
        | body =>
            obtain ⟨hm, ahead, hahead, rfl⟩ := hbefore
            have hinner : (state.monitor (.manager m)).owner = some (.client c) :=
              (owner_iff hused hp).mpr List.mem_cons_self
            have htask : (state.data.managers m).task = none := by
              refine (not_handed_iff.mp (hfront m hm)).resolve_right fun hworker => ?_
              cases hinner.symm.trans hworker
            simp only [ThreadPool.check, TaskManager.isIdle, Instr.map_next, Sum.elim_inr, htask,
              hused.isAlive m] at hnext
            exact .inr ⟨_, hnext, ThreadPool.CheckPoint.before_next hahead⟩
    | leave => exact .inl hnext

end Before

/-- A call returns its last result when no worker has a task before itself that it has not
begun with, and none when it comes to a task that waits for the pool. -/
theorem result_of_before {begun target : PoolState}
    (hused : (Config.complete .threadPool size).Used begun)
    (hsize : 0 < size) (hmanagers : List.range size = front ++ behind)
    (hfront : ∀ m ∈ front, ¬ Handed begun m) (hbehind : ∀ k ∈ behind.head?, CallsBack begun k)
    (hbegun : begun.pc (.client c) = .client (some (survey.embed .test)))
    (hrun : Reaches (Config.complete .threadPool size).program.step (Inside c) begun target)
    {result : Bool}
    (hresult : target.pc (.client c) = .client (some (survey.embed (.leave result)))) :
    behind = [] ∧ result = survey.atEnd := by
  have hinv : ((∀ m ∈ front, ¬ Handed target m) ∧ ∀ k ∈ behind.head?, CallsBack target k) ∧
      (target.pc (.client c) = .client none ∨
        ∃ p, target.pc (.client c) = .client (some (survey.embed p)) ∧
          p.Before survey.atEnd front behind) := by
    clear hresult
    induction hrun with
    | refl => exact ⟨⟨hfront, hbehind⟩, .inr ⟨_, hbegun, trivial⟩⟩
    | tail action hprior hallowed hstep ih =>
        have hknown := hused.inside hprior
        obtain ⟨howner, hguard⟩ := hallowed
        obtain ⟨⟨hfront, hbehind⟩, houtside | ⟨p, hp, hbefore⟩⟩ := ih
        · have hheld := (hknown.locked.owner .pool (.client c)).mp howner
          rw [houtside] at hheld
          cases hheld
        · refine ⟨⟨?_, ?_⟩, ?_⟩
          · intro m hm
            refine hknown.not_handed_step rfl howner (fun input piece hcode => ?_) hstep
              (hfront m hm)
            rw [hp] at hcode
            exact effect_none p hcode
          · intro k hk
            exact hknown.callsBack_step rfl howner hstep (hbehind k hk)
          · exact before_step hknown hsize hmanagers hfront hbehind hp hbefore
              ((owner_iff hknown hp).mp howner) hguard hstep
  rcases hinv.2 with houtside | ⟨p, hp, hbefore⟩
  · rw [hresult] at houtside
    cases houtside
  · rw [hresult] at hp
    cases survey.injective (Option.some.inj (Point.client.inj hp))
    exact hbefore

end Survey

end ThreadPools.Posix
