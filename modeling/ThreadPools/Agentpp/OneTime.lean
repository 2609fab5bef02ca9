/-
# Workers that leave after one task

With one-time execution a worker leaves `run()` behind a task. Neither its status nor its slot
shows that, so that `is_idle` and `set_task` still accept a task for it. While no task is put
into the slot of a worker that has left, and no worker leaves with a task in its slot, every
task that a manager has accepted is running, has been run and deleted, or is in the slot of a
worker that is on its way to it.
-/

import ThreadPools.Agentpp.Worker
import ThreadPools.Concurrency.Progress

namespace ThreadPools.Agentpp

open ThreadPools.Concurrency

variable {m : ManagerId} {pool : Pool} {cfg : Config} {state after : PoolState} {thread : Tid}
  {input : Input} {choice : Nat} {instr : Piece Point} {op : Op Tid MonitorId} {next : Point}

/-! ## The way to the task -/

/-- How many steps the worker is away from a task in its slot. -/
def Point.distance : Point → Nat
  | .worker q =>
      match q with
      | .oneTime => 7
      | .idle => 6
      | .wait | .woken => 5
      | .inner => 4
      | .enter | .empty => 3
      | .loop => 2
      | .test => 1
      | .running _ | .stopped | .leave | .exited => 0
  | _ => 0

/-- A worker with a task in its slot gets nearer to it. -/
theorem Known.nearer (h : Known state m) {q : TaskManager.RunPoint Call}
    {piece : Piece (TaskManager.RunPoint Call)} {n : MonitorId}
    (hserving : Serving state (.run (.worker m) input choice))
    (hfull : (slotOf state m).isSome = true) (hruns : (state.pc (.worker m)).runs = false)
    (hpoint : state.pc (.worker m) = .worker q)
    (hmoves : TaskManager.Moves n m state.data q piece)
    (houtcome : cfg.program.Outcome state (.worker m) (piece.map .worker) op next) :
    next.distance < (Point.worker q).distance ∧
      slotOf (cfg.program.advance state (.worker m) (piece.map .worker) op next choice) m =
        slotOf state m := by
  have hvacant {p : Prop} (hempty : slotOf state m = none) : p := by
    rw [hempty] at hfull
    cases hfull
  cases hmoves with
  | enter | loop | goOn | idle | full | woken =>
      obtain rfl := houtcome.next_eq nofun
      exact ⟨by simp [Point.distance], rfl⟩
  | inner p hp =>
      obtain rfl := houtcome.next_eq nofun
      rw [h.go, if_pos rfl] at hp
      subst hp
      exact ⟨by simp [Point.distance], rfl⟩
  | begin =>
      obtain rfl := houtcome.next_eq nofun
      exact ⟨by simp [Point.distance], rfl⟩
  | wait =>
      refine ⟨?_, rfl⟩
      cases houtcome with
      | wait _ hop howner =>
          cases hop
          exact hvacant (h.waits hpoint howner)
      | refused => exact Nat.lt_succ_self 4
      | done hop => rcases hop with hop | ⟨other, hop⟩ <;> cases hop
      | enter _ hop | reenter _ hop | leave _ hop | stranger _ hop => cases hop
  | stop hgo => cases h.go.symm.trans hgo
  | vacant hempty | empty hempty => exact hvacant hempty
  | retire honce => exact hvacant (hserving.leaves _ rfl m rfl hpoint honce)
  | finish => cases hruns.symm.trans (congrArg Point.runs hpoint)
  | discard => exact absurd hpoint h.loops
  | leave => exact hvacant (h.left (by rw [hpoint]; rfl))

/-- While the worker has not begun the task in its slot, the task stays there, and only the
worker moves on the way to it, with every step. -/
theorem Known.approach (h : Known state m) {action : PoolAction}
    (hserving : Serving state action) (hfull : (slotOf state m).isSome = true)
    (hruns : (state.pc (.worker m)).runs = false) (hsteps : cfg.program.Steps state action after) :
    slotOf after m = slotOf state m ∧
      (after.pc (.worker m)).distance ≤ (state.pc (.worker m)).distance ∧
      (action.mover = some (.worker m) →
        (after.pc (.worker m)).distance < (state.pc (.worker m)).distance) := by
  cases hsteps with
  | spurious n sleeper hwaiting => exact ⟨rfl, le_rfl, nofun⟩
  | run thread input choice instr op next hcode houtcome =>
      have hmoves := code_moves hcode
      have hother (hne : thread ≠ .worker m)
          (hsame : state.data.SameSlot m (state.data.behind instr)) :
          slotOf (cfg.program.advance state thread instr op next choice) m = slotOf state m ∧
            ((cfg.program.advance state thread instr op next choice).pc (.worker m)).distance ≤
              (state.pc (.worker m)).distance ∧
            ((Action.run thread input choice : PoolAction).mover = some (.worker m) →
              ((cfg.program.advance state thread instr op next choice).pc (.worker m)).distance <
                (state.pc (.worker m)).distance) := by
        have hpc : (cfg.program.advance state thread instr op next choice).pc (.worker m) =
            state.pc (.worker m) :=
          TolerantProgram.advance_pc_of_ne (Ne.symm hne)
        exact ⟨congrArg TaskManager.task hsame.manager, by rw [hpc],
          fun heq => absurd (Option.some.inj heq) hne⟩
      rcases hmoves.offers with ⟨hoffers, hinside⟩ | ⟨k, q, piece, rfl, hpoint, rfl, hown⟩
      · have hterminates := hserving.not_terminates rfl
        have hne : thread ≠ .worker m := by
          rintro rfl
          cases hruns.symm.trans (hinside m rfl).1
        rcases hoffers.cases (m := m) hterminates with hsame | ⟨task, -, -, hempty, -⟩
        · exact hother hne hsame
        · rw [slotOf, hempty] at hfull
          cases hfull
      · by_cases hm : k = m
        · subst hm
          obtain ⟨hnearer, hslot⟩ := h.nearer hserving hfull hruns hpoint hown houtcome
          have hpc : (cfg.program.advance state (.worker k) (piece.map .worker) op next
              choice).pc (.worker k) = next :=
            TolerantProgram.advance_pc_self
          rw [hpc, hpoint]
          exact ⟨hslot, hnearer.le, fun _ => hnearer⟩
        · exact hother (fun heq => hm (Tid.worker.inj heq)) (hown.sameSlot hm)

/-! ## Every run -/

variable {guard : PoolState → PoolAction → Prop}

theorem known_initial (m : ManagerId) : Known cfg.initial m := by
  have hruns : (cfg.initialPoint (.worker m)).runs = false := by
    simp only [Config.initialPoint]
    split <;> rfl
  refine ⟨rfl, rfl, ?_, ?_, fun _ => rfl, fun _ _ => rfl, fun _ => rfl, ?_⟩
  · simp only [Config.initial, hruns]
    rfl
  · rw [Config.initial, hruns]
    nofun
  · simp only [Config.initial, Config.initialPoint]
    split <;> nofun

theorem initialPoint_place (t : Tid) : (cfg.initialPoint t).place = none := by
  cases t with
  | client => rfl
  | dispatcher | worker =>
      simp only [Config.initialPoint]
      split <;> rfl

theorem setters_own (m : ManagerId) (hrun : Reaches cfg.program.step guard cfg.initial state) :
    ∀ t, (∃ task, (state.pc t).place = some (.scan task (.setTask m .body))) →
      (state.monitor (.manager m)).owner = some t := by
  refine hrun.invariant (fun t ⟨task, ht⟩ => ?_) fun _ _ _ h _ hstep =>
    (manager_enteredBy cfg m).owner h (TolerantProgram.step_cases hstep)
  cases (initialPoint_place t).symm.trans ht

theorem sleeping_of_reaches (m : ManagerId)
    (hrun : Reaches cfg.program.step guard cfg.initial state) :
    TolerantProgram.Sleeping state (.manager m) fun t p =>
      t = .worker m ∧ p = .worker .woken :=
  hrun.invariant ⟨List.nodup_nil, nofun⟩ fun _ _ _ h _ hstep =>
    (manager_asleepAt cfg m).step h (TolerantProgram.step_cases hstep)

theorem owner_critical (m : ManagerId)
    (hrun : Reaches cfg.program.step guard cfg.initial state) :
    ∀ t, (state.monitor (.manager m)).owner = some t →
      t = .worker m ∨ (state.pc t).place.bind Place.critical = some m :=
  hrun.invariant nofun fun _ _ _ h _ hstep =>
    (manager_leftBy cfg m).inside h (TolerantProgram.step_cases hstep)

theorem known_of_reaches (m : ManagerId)
    (hguard : ∀ state action, guard state action → Serving state action)
    (hrun : Reaches cfg.program.step guard cfg.initial state) : Known state m :=
  hrun.invariant_of
    (fun state => Reaches cfg.program.step guard cfg.initial state) (fun _ h => h)
    (known_initial m) fun _ _ _ hprior (h : Known _ m) hallowed hstep =>
      h.step (hguard _ _ hallowed) (setters_own m hprior) (sleeping_of_reaches m hprior)
        (TolerantProgram.step_cases hstep)

/-- In every run in which the worker makes infinitely many steps, it begins the task. -/
def WillTake (cfg : Config) (state : PoolState) (m : ManagerId) : Prop :=
  ∀ run : Endless cfg.program.step state, (∀ n, Serving (run.state n) (run.action n)) →
    (∀ n, ∃ later, n ≤ later ∧ (run.action later).mover = some (.worker m)) →
    ∃ n, ((run.state n).pc (.worker m)).runs = true ∧
      slotOf (run.state n) m = slotOf state m

theorem willTake (m : ManagerId) (hrun : Reaches cfg.program.step Serving cfg.initial state)
    (hfull : (slotOf state m).isSome = true) : WillTake cfg state m := by
  intro run hserving hmoves
  by_contra hnever
  have hknown (n : Nat) : Known (run.state n) m :=
    known_of_reaches m (fun _ _ h => h) (hrun.trans (run.reaches hserving n))
  have hstep (n : Nat) := TolerantProgram.step_cases (run.next n)
  have hwaiting (n : Nat) (hslot : slotOf (run.state n) m = slotOf state m) :
      ((run.state n).pc (.worker m)).runs = false :=
    Bool.eq_false_iff.mpr fun hruns => hnever ⟨n, hruns, hslot⟩
  have hslot (n : Nat) : slotOf (run.state n) m = slotOf state m := by
    induction n with
    | zero => rw [run.start]
    | succ n ih =>
        have happroach := (hknown n).approach (hserving n) (by rwa [ih]) (hwaiting n ih) (hstep n)
        exact happroach.1.trans ih
  have happroach (n : Nat) := (hknown n).approach (hserving n) (by rwa [hslot n])
    (hwaiting n (hslot n)) (hstep n)
  let rank (state : PoolState) : Nat := (state.pc (.worker m)).distance
  have hkeeps (n : Nat) : rank (run.state (n + 1)) ≤ rank (run.state n) := (happroach n).2.1
  obtain ⟨bound, hbound⟩ := run.finitely_often (fun action => action.mover = some (.worker m))
    hkeeps fun n => (happroach n).2.2
  obtain ⟨later, hle, hmove⟩ := hmoves bound
  exact hbound later hle hmove

/-! ## The threads in the way -/

inductive Role
  | client
  | dispatcher
  | worker
  deriving DecidableEq

def Tid.role : Tid → Role
  | .client _ => .client
  | .dispatcher => .dispatcher
  | .worker _ => .worker

def Point.role : Point → Role
  | .client _ => .client
  | .dispatcher _ => .dispatcher
  | .worker _ => .worker

theorem Point.resumed_role (p : Point) : p.resumed.role = p.role := by
  unfold resumed
  split <;> rfl

theorem Moves.role {p : Point} (h : Moves cfg thread pool p instr) : instr.next.role = p.role := by
  cases h with
  | call | enter => cases thread <;> rfl
  | dispatcher | worker => rfl

/-- Every thread is at a point of its own code. -/
def Placed (state : PoolState) : Prop := ∀ t, (state.pc t).role = t.role

theorem placed_of_reaches (hrun : Reaches cfg.program.step guard cfg.initial state) :
    Placed state := by
  refine hrun.invariant (fun t => by cases t <;> rfl) fun state action after h _ hstep => ?_
  cases TolerantProgram.step_cases hstep with
  | spurious => exact h
  | run thread input choice instr op next hcode houtcome =>
      intro t
      by_cases hself : t = thread
      · subst hself
        have hnext := (code_moves hcode).role.trans (h t)
        suffices next.role = t.role by simpa [TolerantProgram.advance]
        rcases houtcome.next_cases with rfl | ⟨n, -, -, rfl⟩
        · exact hnext
        · exact (Point.resumed_role _).trans hnext
      · simpa [TolerantProgram.advance, hself] using h t

/-- A thread in a critical section can make its next step. -/
theorem code_of_place {t : Tid} {p : Point} {place : Place} (hrole : p.role = t.role)
    (hplace : p.place = some place) : ∃ instr, cfg.code t .go p pool = some instr := by
  cases p with
  | client call =>
      cases call with
      | none => cases hplace
      | some call => cases t <;> first | exact ⟨_, rfl⟩ | cases hrole
  | dispatcher q =>
      cases q with
      | assign x q => cases t <;> first | exact ⟨_, rfl⟩ | cases hrole
      | _ => cases hplace
  | worker q =>
      cases q with
      | running call =>
          cases call with
          | none => cases hplace
          | some call => cases t <;> first | exact ⟨_, rfl⟩ | cases hrole
      | _ => cases hplace

/-- The worker runs its task, can make its next step, or waits for a thread that can leave the
monitor of the manager with its next step. -/
def Unblocked (cfg : Config) (state : PoolState) (m : ManagerId) : Prop :=
  (state.pc (.worker m)).runs = true ∨
    (∃ after, cfg.program.step state (PoolAction.go (.worker m)) = some after) ∨
    ∃ t after, (state.monitor (.manager m)).owner = some t ∧
      cfg.program.step state (PoolAction.go t) = some after ∧
      (after.monitor (.manager m)).owner = none

/-- A thread in a critical section of the manager leaves it with its next step. -/
theorem leaves_next (m : ManagerId) {t : Tid} (hrole : (state.pc t).role = t.role)
    (howner : (state.monitor (.manager m)).owner = some t)
    (hcritical : (state.pc t).place.bind Place.critical = some m) :
    ∃ after, cfg.program.step state (PoolAction.go t) = some after ∧
      (after.monitor (.manager m)).owner = none := by
  obtain ⟨place, hplace, -⟩ := Option.bind_eq_some_iff.mp hcritical
  obtain ⟨instr, hcode⟩ : ∃ instr, cfg.program.code t .go (state.pc t) state.data = some instr :=
    code_of_place hrole hplace
  have hop : instr.op = .unlock (.manager m) := by
    rcases (code_moves hcode).offers with ⟨hoffers, -⟩ | ⟨k, q, piece, -, hpoint, -, hown⟩
    · exact hoffers.leaves m hcritical
    · rw [hpoint] at hcritical
      cases hown <;> cases hcritical
  have houtcome : cfg.program.outcome state t instr = some (.unlock (.manager m), instr.next) := by
    simp [TolerantProgram.outcome, hop, howner]
  exact ⟨_, TolerantProgram.step_of_outcome hcode houtcome,
    ((TolerantProgram.outcome_cases houtcome).left 0 (.inl hop) howner).2⟩

/-- The next step of a worker with a task in its slot. -/
theorem worker_next (cfg : Config) (pool : Pool) (m : ManagerId) {q : TaskManager.RunPoint Call}
    (hruns : (Point.worker q).runs = false) (hleft : (Point.worker q).left = false) :
    ∃ instr, cfg.program.code (.worker m) .go (.worker q) pool = some instr ∧
      (instr.op = .lock (.manager m) ∨
        (∀ n, instr.op ≠ .lock n) ∧ ∀ t, instr.op ≠ .join t) := by
  cases q with
  | enter | woken => exact ⟨_, rfl, .inl rfl⟩
  | loop | oneTime | idle | inner | empty | wait =>
      exact ⟨_, rfl, .inr ⟨by rintro _ ⟨⟩, by rintro _ ⟨⟩⟩⟩
  | test | stopped =>
      simp only [Config.program, Config.code, Config.workerCode, TaskManager.run]
      split <;> exact ⟨_, rfl, .inr ⟨by rintro _ ⟨⟩, by rintro _ ⟨⟩⟩⟩
  | running => cases hruns
  | leave | exited => cases hleft

theorem unblocked (m : ManagerId) (hrun : Reaches cfg.program.step Serving cfg.initial state)
    (hfull : (slotOf state m).isSome = true) : Unblocked cfg state m := by
  have hknown : Known state m := known_of_reaches m (fun _ _ h => h) hrun
  have hplaced := placed_of_reaches hrun
  have hvacant (hempty : slotOf state m = none) : False := by
    rw [hempty] at hfull
    cases hfull
  obtain ⟨q, hpoint⟩ : ∃ q, state.pc (.worker m) = .worker q := by
    have hrole := hplaced (.worker m)
    cases hpoint : state.pc (.worker m) with
    | worker q => exact ⟨q, rfl⟩
    | client | dispatcher => rw [hpoint] at hrole; cases hrole
  by_cases hruns : (state.pc (.worker m)).runs = true
  · exact .inl hruns
  have hleft : (state.pc (.worker m)).left = false :=
    Bool.eq_false_iff.mpr fun hleft => hvacant (hknown.left hleft)
  rw [Bool.not_eq_true] at hruns
  rw [hpoint] at hruns hleft
  obtain ⟨instr, hcode, hop⟩ := worker_next cfg state.data m hruns hleft
  rw [← hpoint] at hcode
  rcases hop with hlock | ⟨hlock, hjoin⟩
  · rcases TolerantProgram.exists_outcome_of_lock (π := cfg.program) hlock
      (fun hasleep => hvacant (hknown.asleep hasleep)) with ⟨result, houtcome⟩ | ⟨t, hne, howner⟩
    · exact .inr (.inl ⟨_, TolerantProgram.step_of_outcome hcode houtcome⟩)
    · have hcritical := (owner_critical m hrun t howner).resolve_left hne
      obtain ⟨after, hstep, hfree⟩ := leaves_next m (hplaced t) howner hcritical
      exact .inr (.inr ⟨t, after, howner, hstep, hfree⟩)
  · obtain ⟨result, houtcome⟩ :=
      TolerantProgram.exists_outcome (π := cfg.program) hlock hjoin
    exact .inr (.inl ⟨_, TolerantProgram.step_of_outcome hcode houtcome⟩)

/-! ## Accepted tasks -/

/-- Every task the manager has accepted has been run and deleted, is running, or will be taken
by its worker, which has not left and is not about to leave. -/
structure Serves (cfg : Config) (state : PoolState) (m : ManagerId) : Prop where
  handed : tasksOf m state.data.log.handed =
    tasksOf m state.data.log.deleted ++ (slotOf state m).toList
  started : tasksOf m state.data.log.started =
    tasksOf m state.data.log.deleted ++
      if (state.pc (.worker m)).runs then (slotOf state m).toList else []
  stays : (slotOf state m).isSome = true → (state.pc (.worker m)).left = false
  taken : (slotOf state m).isSome = true → WillTake cfg state m
  free : (slotOf state m).isSome = true → Unblocked cfg state m

theorem serves_of_reaches (m : ManagerId)
    (hrun : Reaches cfg.program.step Serving cfg.initial state) : Serves cfg state m := by
  have hknown : Known state m := known_of_reaches m (fun _ _ h => h) hrun
  refine ⟨hknown.handed, hknown.started, fun hfull => ?_, willTake m hrun, unblocked m hrun⟩
  refine Bool.eq_false_iff.mpr fun hleft => ?_
  rw [hknown.left hleft] at hfull
  cases hfull

/-- A step that puts a task into the slot of a worker which has left strands it there. -/
theorem left_of_placing {action : PoolAction} {t : Tid} (hmover : action.mover = some t)
    (hplacing : (state.pc t).placing = some m) (hempty : slotOf state m = none)
    (hsteps : cfg.program.Steps state action after)
    (hstays : (slotOf after m).isSome = true → (after.pc (.worker m)).left = false) :
    (state.pc (.worker m)).left = false := by
  cases hsteps with
  | spurious => cases hmover
  | run thread input choice instr op next hcode houtcome =>
      cases hmover
      obtain ⟨x, hplace⟩ := Point.place_of_placing hplacing
      rcases (code_moves hcode).offers with ⟨hoffers, hinside⟩ | ⟨k, q, piece, -, hpoint, -, hown⟩
      · have heffect := hoffers.places (some x) m hplace hempty
        by_cases hthread : t = .worker m
        · subst hthread
          exact Point.left_of_runs (hinside m rfl).1
        · have hpc : (cfg.program.advance state t instr op next choice).pc (.worker m) =
              state.pc (.worker m) :=
            TolerantProgram.advance_pc_of_ne (Ne.symm hthread)
          have hslot : slotOf (cfg.program.advance state t instr op next choice) m =
              some x := by
            simp [slotOf, TolerantProgram.advance, Config.program, heffect, Pool.apply, Pool.update]
          rw [← hpc]
          exact hstays (by rw [hslot]; rfl)
      · rw [hpoint] at hplace
        cases hown <;> cases hplace

/-- A worker that leaves with a task in its slot strands it there. -/
theorem empty_of_leaving {action : PoolAction} (hmover : action.mover = some (.worker m))
    (hpoint : state.pc (.worker m) = .worker .oneTime)
    (honce : state.data.oneTimeExecution = true) (hsteps : cfg.program.Steps state action after)
    (hstays : (slotOf after m).isSome = true → (after.pc (.worker m)).left = false) :
    slotOf state m = none := by
  cases hsteps with
  | spurious => cases hmover
  | run thread input choice instr op next hcode houtcome =>
      cases hmover
      rcases (code_moves hcode).offers with ⟨-, hinside⟩ | ⟨k, q, piece, hk, hq, rfl, hown⟩
      · have hruns := (hinside m rfl).1
        rw [hpoint] at hruns
        cases hruns
      · cases hk
        rw [hpoint] at hq
        cases hq
        cases hown with
        | goOn hnot => cases honce.symm.trans hnot
        | retire =>
            obtain rfl := houtcome.next_eq nofun
            refine Option.not_isSome_iff_eq_none.mp fun hfull => ?_
            have hleft := hstays hfull
            simp [TolerantProgram.advance, Instr.map, Point.left] at hleft

/-- Every manager serves the tasks it has accepted in every run whose steps put no task into the
slot of a worker that has left, and in which no worker leaves with a task in its slot. A step
from there outside of `terminate()` keeps that exactly if it meets the same condition. -/
theorem accepted_served (hguard : ∀ state action, guard state action → Serving state action)
    (hrun : Reaches cfg.program.step guard cfg.initial state) :
    (∀ m, Serves cfg state m) ∧ ∀ action after, cfg.program.step state action = some after →
      (∀ t ∈ action.mover, (state.pc t).terminates = false) →
      ((∀ m, Serves cfg after m) ↔ Serving state action) := by
  have hserving := hrun.mono hguard
  refine ⟨fun m => serves_of_reaches m hserving, fun action after hstep hterminate => ?_⟩
  have hsteps := TolerantProgram.step_cases hstep
  refine ⟨fun hserves => ⟨hterminate, ?_, ?_⟩, fun hallowed m => ?_⟩
  · intro t hmover m hplacing hempty
    exact left_of_placing hmover hplacing hempty hsteps (hserves m).stays
  · rintro (c | _ | k) hmover m hm hpoint honce <;> cases hm
    exact empty_of_leaving hmover hpoint honce hsteps (hserves k).stays
  · exact serves_of_reaches m (hserving.tail action hallowed hstep)

/-- The worker has run one task, and has been woken for another one when one-time execution is
switched on. -/
theorem accepted_served_pending : ∃ state : PoolState,
    (state.data.log.handed, state.data.log.deleted) = ([(1, 0), (2, 0)], [(1, 0)]) ∧
      slotOf state 0 = some 2 ∧ state.pc (.worker 0) = .worker .woken ∧
      state.data.oneTimeExecution = true ∧ Serves (Config.complete .threadPool 1) state 0 := by
  let actions : List PoolAction :=
    PoolAction.call (.client 0) (.execute (some 1)) :: PoolAction.steps (.client 0) 7 ++
    PoolAction.steps (.worker 0) 3 ++ PoolAction.finish 0 :: PoolAction.steps (.worker 0) 5 ++
    PoolAction.call (.client 0) (.execute (some 2)) :: PoolAction.steps (.client 0) 7 ++
    [PoolAction.call (.client 0) (.setOneTimeExecution true), PoolAction.go (.client 0)]
  obtain ⟨state, hrun, hobserved⟩ : ∃ state : PoolState,
      Reaches (Config.complete .threadPool 1).program.step Serving
        (Config.complete .threadPool 1).initial state ∧
        ((state.data.log.handed, state.data.log.deleted), slotOf state 0, state.pc (.worker 0),
          state.data.oneTimeExecution) =
          (([(1, 0), (2, 0)], [(1, 0)]), some 2, .worker .woken, true) :=
    Reaches.of_observed (fun state action => decide (Serving state action)) actions
      (fun _ _ => of_decide_eq_true) (by decide +kernel)
  obtain ⟨hlog, hobserved⟩ := Prod.mk.inj hobserved
  obtain ⟨hslot, hobserved⟩ := Prod.mk.inj hobserved
  obtain ⟨hpoint, honce⟩ := Prod.mk.inj hobserved
  exact ⟨state, hlog, hslot, hpoint, honce, (accepted_served (fun _ _ h => h) hrun).1 0⟩

/-- One-time execution is switched on while the worker runs its first task, and a second one
arrives behind that: it is accepted and stays in the slot. -/
theorem accepted_stranded : ∃ state : PoolState,
    Reaches (Config.complete .threadPool 1).program.step
      (fun state action => ∀ t ∈ action.mover, (state.pc t).terminates = false)
      (Config.complete .threadPool 1).initial state ∧
      (2, 0) ∈ state.data.log.handed ∧ slotOf state 0 = some 2 ∧
      state.pc (.worker 0) = .worker .exited ∧
      ¬ Serves (Config.complete .threadPool 1) state 0 := by
  let actions : List PoolAction :=
    PoolAction.call (.client 0) (.execute (some 1)) :: PoolAction.steps (.client 0) 7 ++
    PoolAction.steps (.worker 0) 3 ++
    PoolAction.call (.client 0) (.setOneTimeExecution true) :: PoolAction.go (.client 0) ::
    PoolAction.finish 0 :: PoolAction.steps (.worker 0) 2 ++
    PoolAction.call (.client 0) (.execute (some 2)) :: PoolAction.steps (.client 0) 7
  obtain ⟨state, hrun, hobserved⟩ : ∃ state : PoolState,
      Reaches (Config.complete .threadPool 1).program.step
        (fun state action => ∀ t ∈ action.mover, (state.pc t).terminates = false)
        (Config.complete .threadPool 1).initial state ∧
        (state.data.log.handed, slotOf state 0, state.pc (.worker 0)) =
          ([(1, 0), (2, 0)], some 2, .worker .exited) :=
    Reaches.of_observed
      (fun state action => decide (∀ t ∈ action.mover, (state.pc t).terminates = false)) actions
      (fun _ _ => of_decide_eq_true) (by decide +kernel)
  obtain ⟨hhanded, hobserved⟩ := Prod.mk.inj hobserved
  obtain ⟨hslot, hexited⟩ := Prod.mk.inj hobserved
  refine ⟨state, hrun, by simp [hhanded], hslot, hexited, fun hserves => ?_⟩
  have hleft := hserves.stays (by rw [hslot]; rfl)
  rw [hexited] at hleft
  cases hleft

end ThreadPools.Agentpp
