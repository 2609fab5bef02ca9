/-
# A worker and its slot

What is known about a manager and its worker while `terminate()` is not called, no task is put
into the slot of a worker that has left `run()`, and no worker leaves with a task in its slot:
every accepted task has been deleted or is in the slot, and a worker that waits has an empty
slot.
-/

import ThreadPools.Agentpp.Slots

namespace ThreadPools.Agentpp

open ThreadPools.Concurrency

/-! ## What concerns one manager -/

/-- The tasks which the log notes for the manager. -/
def tasksOf (m : ManagerId) (log : List (Runnable × ManagerId)) : List Runnable :=
  (log.filter fun entry => entry.2 = m).map Prod.fst

@[simp] theorem tasksOf_append (m : ManagerId) (log more : List (Runnable × ManagerId)) :
    tasksOf m (log ++ more) = tasksOf m log ++ tasksOf m more := by
  simp [tasksOf]

@[simp] theorem tasksOf_self (m : ManagerId) (task : Option Runnable) :
    tasksOf m (task.toList.map (·, m)) = task.toList := by
  cases task <;> simp [tasksOf]

theorem tasksOf_of_ne {m n : ManagerId} (hne : n ≠ m) (task : Option Runnable) :
    tasksOf m (task.toList.map (·, n)) = [] := by
  cases task <;> simp [tasksOf, hne]

/-- The manager and what the log notes for it are the same. -/
structure Pool.SameSlot (m : ManagerId) (pool after : Pool) : Prop where
  manager : after.managers m = pool.managers m
  handed : tasksOf m after.log.handed = tasksOf m pool.log.handed
  started : tasksOf m after.log.started = tasksOf m pool.log.started
  deleted : tasksOf m after.log.deleted = tasksOf m pool.log.deleted

/-- The manager an effect concerns. -/
def Effect.manager : Effect → Option ManagerId
  | .place _ m | .begin m | .delete m | .stopManager m => some m
  | _ => none

variable {m : ManagerId} {pool : Pool}

theorem Pool.apply_sameSlot {e : Effect} (h : e.manager ≠ some m) :
    pool.SameSlot m (pool.apply e) := by
  have hupdate (n : ManagerId) (manager : TaskManager) (hne : n ≠ m) :
      Function.update pool.managers n manager m = pool.managers m :=
    Function.update_of_ne hne.symm _ _
  cases e with
  | place task n =>
      have hne : n ≠ m := fun heq => h (congrArg some heq)
      exact ⟨hupdate n _ hne, by simp [Pool.apply, tasksOf_of_ne hne], rfl, rfl⟩
  | begin n =>
      have hne : n ≠ m := fun heq => h (congrArg some heq)
      exact ⟨rfl, rfl, by simp [Pool.apply, Pool.held, tasksOf_of_ne hne], rfl⟩
  | delete n =>
      have hne : n ≠ m := fun heq => h (congrArg some heq)
      exact ⟨hupdate n _ hne, rfl, rfl, by simp [Pool.apply, Pool.held, tasksOf_of_ne hne]⟩
  | stopManager n => exact ⟨hupdate n _ fun heq => h (congrArg some heq), rfl, rfl, rfl⟩
  | enter | add | removeFirst | stop | setOneTimeExecution => exact ⟨rfl, rfl, rfl, rfl⟩

theorem Pool.behind_sameSlot {X : Type} {piece : Piece X}
    (h : ∀ e, piece.effect = some e → e.manager ≠ some m) :
    pool.SameSlot m (pool.behind piece) := by
  unfold Pool.behind
  cases heffect : piece.effect with
  | none => exact ⟨rfl, rfl, rfl, rfl⟩
  | some e => exact Pool.apply_sameSlot (h e heffect)

/-- The effects of a worker concern its own manager. -/
theorem TaskManager.Moves.sameSlot {idleNotification : MonitorId} {k : ManagerId}
    {q : TaskManager.RunPoint Call} {piece : Piece (TaskManager.RunPoint Call)}
    (h : TaskManager.Moves idleNotification k pool q piece) (hne : k ≠ m) :
    pool.SameSlot m (pool.behind piece) := by
  refine Pool.behind_sameSlot fun e he => ?_
  have hmanager : Effect.manager e = some k := by
    cases h with
    | begin | finish => cases he; rfl
    | discard effect heffect =>
        simp only at he
        rw [heffect] at he
        split at he <;> cases he
        rfl
    | _ => cases he
  rw [hmanager]
  exact fun heq => hne (Option.some.inj heq)

/-- A piece of code in a call does not concern the manager, or puts a task into its slot. -/
theorem Offers.cases {terminates : Prop} {piece : Piece Point}
    {before behind : Option Place}
    (h : Offers terminates pool piece before behind) (hterminates : ¬ terminates) :
    pool.SameSlot m (pool.behind piece) ∨ ∃ task, piece.effect = some (.place task m) ∧
      before = some (.scan task (.setTask m .body)) ∧ (pool.managers m).task = none ∧
      piece.notify = some (.manager m) ∧ piece.op = .unlock (.manager m) := by
  cases heffect : piece.effect with
  | none => exact .inl (Pool.behind_sameSlot fun e he => by cases heffect.symm.trans he)
  | some e =>
      have hother (hne : e.manager ≠ some m) : pool.SameSlot m (pool.behind piece) :=
        Pool.behind_sameSlot fun f hf => Option.some.inj (heffect.symm.trans hf) ▸ hne
      rcases h.effect e heffect with haside | ⟨task, n, rfl, hbefore, hempty, hnotify, hop⟩
      · cases e with
        | stopManager => exact absurd haside hterminates
        | place | begin | delete => cases haside
        | _ => exact .inl (hother nofun)
      · by_cases hm : n = m
        · subst hm
          exact .inr ⟨task, rfl, hbefore, hempty, hnotify, hop⟩
        · exact .inl (hother fun heq => hm (Option.some.inj heq))

/-! ## The worker and its slot -/

/-- The worker has left its loop, or is about to leave it. -/
def Point.left : Point → Bool
  | .worker .leave | .worker .exited => true
  | _ => false

theorem Point.left_of_runs {p : Point} (h : p.runs = true) : p.left = false := by
  cases p with
  | worker q => cases q <;> first | rfl | cases h
  | client | dispatcher => rfl

/-- The thread is about to put a task into the slot of the manager, if that is empty. -/
def Point.placing (p : Point) : Option ManagerId :=
  match p.place with
  | some (.scan (some _) (.setTask m .body)) => some m
  | _ => none

theorem Point.place_of_placing {p : Point} (h : p.placing = some m) :
    ∃ task, p.place = some (.scan (some task) (.setTask m .body)) := by
  unfold placing at h
  split at h
  · next task k hplace =>
      cases h
      exact ⟨task, hplace⟩
  · cases h

/-- The thread is inside `terminate()`. -/
def Point.terminates (p : Point) : Bool :=
  match p.call with
  | some (.terminate _) => true
  | _ => false

/-- The manager of a worker. -/
def Tid.manager : Tid → Option ManagerId
  | .worker m => some m
  | _ => none

/-- The slot of a manager. -/
def slotOf (state : PoolState) (m : ManagerId) : Option Runnable := (state.data.managers m).task

/-- `terminate()` makes no step, no task is put into the slot of a manager whose worker has
left, and no worker leaves with a task in its slot. -/
structure Serving (state : PoolState) (action : PoolAction) : Prop where
  terminate : ∀ t ∈ action.mover, (state.pc t).terminates = false
  places : ∀ t ∈ action.mover, ∀ m ∈ (state.pc t).placing, slotOf state m = none →
    (state.pc (.worker m)).left = false
  leaves : ∀ t ∈ action.mover, ∀ m ∈ t.manager, state.pc t = .worker .oneTime →
    state.data.oneTimeExecution = true → slotOf state m = none

instance (state : PoolState) (action : PoolAction) : Decidable (Serving state action) :=
  decidable_of_iff
    ((∀ t ∈ action.mover, (state.pc t).terminates = false) ∧
      (∀ t ∈ action.mover, ∀ m ∈ (state.pc t).placing, slotOf state m = none →
        (state.pc (.worker m)).left = false) ∧
      ∀ t ∈ action.mover, ∀ m ∈ t.manager, state.pc t = .worker .oneTime →
        state.data.oneTimeExecution = true → slotOf state m = none)
    ⟨fun ⟨hterminate, hplaces, hleaves⟩ => ⟨hterminate, hplaces, hleaves⟩,
      fun h => ⟨h.terminate, h.places, h.leaves⟩⟩

theorem Serving.not_terminates {state : PoolState} {action : PoolAction} {t : Tid}
    (h : Serving state action) (hmover : action.mover = some t) :
    ¬ ∃ q, (state.pc t).call = some (.terminate q) := by
  rintro ⟨q, hq⟩
  have hnot := h.terminate t hmover
  rw [Point.terminates, hq] at hnot
  cases hnot

/-- What is known about a manager and its worker. -/
structure Known (state : PoolState) (m : ManagerId) : Prop where
  go : (state.data.managers m).go = true
  handed : tasksOf m state.data.log.handed =
    tasksOf m state.data.log.deleted ++ (slotOf state m).toList
  started : tasksOf m state.data.log.started =
    tasksOf m state.data.log.deleted ++
      if (state.pc (.worker m)).runs then (slotOf state m).toList else []
  runs : (state.pc (.worker m)).runs = true → (slotOf state m).isSome = true
  left : (state.pc (.worker m)).left = true → slotOf state m = none
  waits : state.pc (.worker m) = .worker .wait →
    (state.monitor (.manager m)).owner = some (.worker m) → slotOf state m = none
  asleep : .worker m ∈ (state.monitor (.manager m)).waiters → slotOf state m = none
  loops : state.pc (.worker m) ≠ .worker .stopped

variable {cfg : Config} {state after : PoolState} {thread : Tid} {input : Input} {choice : Nat}
  {instr : Piece Point} {op : Op Tid MonitorId} {next : Point}

/-- The manager and its log stay the same, and the worker does not end or begin a task. -/
theorem Known.keep (h : Known state m) (hsame : state.data.SameSlot m after.data)
    (hruns : (after.pc (.worker m)).runs = (state.pc (.worker m)).runs)
    (hleft : (after.pc (.worker m)).left = true → slotOf state m = none)
    (hwaits : after.pc (.worker m) = .worker .wait →
      (after.monitor (.manager m)).owner = some (.worker m) → slotOf state m = none)
    (hasleep : .worker m ∈ (after.monitor (.manager m)).waiters → slotOf state m = none)
    (hloops : after.pc (.worker m) ≠ .worker .stopped) : Known after m := by
  have hslot : slotOf after m = slotOf state m := congrArg TaskManager.task hsame.manager
  refine ⟨?_, ?_, ?_, ?_, ?_, ?_, ?_, hloops⟩
  · rw [hsame.manager]
    exact h.go
  · rw [hsame.handed, hsame.deleted, hslot]
    exact h.handed
  · rw [hsame.started, hsame.deleted, hruns, hslot]
    exact h.started
  · rw [hruns, hslot]
    exact h.runs
  · rw [hslot]
    exact hleft
  · rw [hslot]
    exact hwaits
  · rw [hslot]
    exact hasleep

/-- A thread that does not begin to wait leaves the worker asleep or awake. -/
theorem Known.asleep_of (h : Known state m) (hwait : thread ≠ .worker m ∨ op ≠ .wait (.manager m))
    (hmem : .worker m ∈
      ((cfg.program.advance state thread instr op next choice).monitor (.manager m)).waiters) :
    slotOf state m = none := by
  rcases TolerantProgram.mem_waiters_advance hmem with hwaiting | ⟨heq, hop⟩
  · exact h.asleep ((Program.notified_waiters_sublist _ _ _ _).mem hwaiting)
  · rcases hwait with hne | hne
    · exact absurd heq.symm hne
    · exact absurd hop hne

/-- A step of another thread that does not concern the manager. -/
theorem Known.other (h : Known state m) (houtcome : cfg.program.Outcome state thread instr op next)
    (hne : thread ≠ .worker m) (hsame : state.data.SameSlot m (state.data.behind instr)) :
    Known (cfg.program.advance state thread instr op next choice) m := by
  have hpc : (cfg.program.advance state thread instr op next choice).pc (.worker m) =
      state.pc (.worker m) :=
    TolerantProgram.advance_pc_of_ne (Ne.symm hne)
  refine h.keep hsame (by rw [hpc]) (by rw [hpc]; exact h.left) ?_ (h.asleep_of (.inl hne))
    (by rw [hpc]; exact h.loops)
  rw [hpc]
  intro hwait howner
  have hpasses := houtcome.passes (.manager m) choice
  rw [howner] at hpasses
  generalize hbefore : (state.monitor (.manager m)).owner = owner at hpasses
  cases hpasses with
  | taken => exact absurd rfl hne
  | kept => exact h.waits hwait hbefore

/-- A thread puts a task into the slot. -/
theorem Known.placed (h : Known state m) {task : Option Runnable}
    (houtcome : cfg.program.Outcome state thread instr op next)
    (hinside : ∀ n, thread = .worker n → (state.pc thread).runs = true)
    (hplace : (state.pc thread).place = some (.scan task (.setTask m .body)))
    (hempty : slotOf state m = none) (heffect : instr.effect = some (.place task m))
    (hnotify : instr.notify = some (.manager m)) (hop : instr.op = .unlock (.manager m))
    (howner : (state.monitor (.manager m)).owner = some thread)
    (hsleeping : TolerantProgram.Sleeping state (.manager m) fun t p =>
      t = .worker m ∧ p = .worker .woken)
    (hserving : task.isSome = true → (state.pc (.worker m)).left = false) :
    Known (cfg.program.advance state thread instr op next choice) m := by
  have hruns : (state.pc (.worker m)).runs = false := by
    refine Bool.eq_false_iff.mpr fun hruns => ?_
    have hfull := h.runs hruns
    rw [hempty] at hfull
    cases hfull
  have hne : thread ≠ .worker m := by
    rintro rfl
    cases hruns.symm.trans (hinside m rfl)
  have hpc : (cfg.program.advance state thread instr op next choice).pc (.worker m) =
      state.pc (.worker m) :=
    TolerantProgram.advance_pc_of_ne (Ne.symm hne)
  have hdata : (cfg.program.advance state thread instr op next choice).data =
      state.data.apply (.place task m) := by
    simp only [TolerantProgram.advance, heffect]
    rfl
  have hslot : slotOf (cfg.program.advance state thread instr op next choice) m = task := by
    simp [slotOf, hdata, Pool.apply, Pool.update]
  have hfree := (houtcome.left choice (.inl hop) howner).2
  have hawake : .worker m ∉ ((cfg.program.advance state thread instr op next choice).monitor
      (.manager m)).waiters := fun hmem => by
    rcases TolerantProgram.mem_waiters_advance hmem with hwaiting | ⟨-, hwait⟩
    · have hsignal := hsleeping.notified (fun t p hasleep => hasleep.1) choice
      simp [notified, hnotify, hsignal] at hwaiting
    · rcases houtcome.op_cases with heq | heq
      · cases hop.symm.trans (heq.symm.trans hwait)
      · cases heq.symm.trans hwait
  have hhanded := h.handed
  have hstarted := h.started
  rw [hempty, Option.toList_none, List.append_nil] at hhanded
  rw [hruns] at hstarted
  refine ⟨?_, ?_, ?_, ?_, fun hleft => ?_, ?_, ?_, ?_⟩
  · simpa [hdata, Pool.apply, Pool.update] using h.go
  · rw [hslot, hdata]
    simpa [Pool.apply] using hhanded
  · rw [hpc, hruns, hdata]
    exact hstarted
  · rw [hpc, hruns]
    rintro ⟨⟩
  · rw [hpc] at hleft
    rw [hslot]
    cases task with
    | none => rfl
    | some x => cases hleft.symm.trans (hserving rfl)
  · rw [hfree]
    rintro _ ⟨⟩
  · exact fun hmem => absurd hmem hawake
  · rw [hpc]
    exact h.loops

/-- The worker walks through its loop. -/
theorem Known.walk (h : Known state m) {q : TaskManager.RunPoint Call}
    {piece : Piece (TaskManager.RunPoint Call)} (hpoint : state.pc (.worker m) = .worker q)
    (houtcome : cfg.program.Outcome state (.worker m) (piece.map .worker) op next)
    (heffect : piece.effect = none) (hop : ∀ n, piece.op ≠ .wait n)
    (hruns : (Point.worker q).runs = false ∧ (Point.worker piece.next).runs = false)
    (hleft : (Point.worker piece.next).left = true → slotOf state m = none)
    (hwaits : piece.next = .wait → slotOf state m = none) (hloops : piece.next ≠ .stopped) :
    Known (cfg.program.advance state (.worker m) (piece.map .worker) op next choice) m := by
  obtain rfl := houtcome.next_eq hop
  have hpc : (cfg.program.advance state (.worker m) (piece.map .worker) op (.worker piece.next)
      choice).pc (.worker m) = .worker piece.next :=
    TolerantProgram.advance_pc_self
  have hasleep : op ≠ .wait (.manager m) := by
    rcases houtcome.op_cases with heq | heq
    · exact heq ▸ hop _
    · rw [heq]
      rintro ⟨⟩
  have hsame : state.data.SameSlot m (state.data.behind piece) :=
    Pool.behind_sameSlot fun e he => by cases heffect.symm.trans he
  refine h.keep hsame ?_ ?_ ?_ (h.asleep_of (.inr hasleep)) ?_
  · exact (congrArg Point.runs hpc).trans (hruns.2.trans (hpoint ▸ hruns.1).symm)
  · exact fun h => hleft (hpc ▸ h)
  · exact fun h _ => hwaits (Point.worker.inj (hpc.symm.trans h))
  · exact fun h => hloops (Point.worker.inj (hpc.symm.trans h))

/-- The worker waits only when its slot is empty, or not at all. -/
theorem Known.wait (h : Known state m) (hpoint : state.pc (.worker m) = .worker .wait)
    (hnext : instr.next = .worker .woken) (heffect : instr.effect = none)
    (houtcome : cfg.program.Outcome state (.worker m) instr op next) :
    Known (cfg.program.advance state (.worker m) instr op next choice) m := by
  have hpc : (cfg.program.advance state (.worker m) instr op next choice).pc (.worker m) =
      next :=
    TolerantProgram.advance_pc_self
  have hbehind : next = .worker .woken ∨ next = .worker .inner := by
    rcases houtcome.next_cases with rfl | ⟨n, -, -, rfl⟩
    · exact .inl hnext
    · rw [hnext]
      exact .inr rfl
  have hsame : state.data.SameSlot m (state.data.behind instr) :=
    Pool.behind_sameSlot fun e he => by cases heffect.symm.trans he
  refine h.keep hsame ?_ ?_ ?_ (fun hmem => ?_) ?_
  · rw [hpc, hpoint]
    rcases hbehind with rfl | rfl <;> rfl
  · rw [hpc]
    rcases hbehind with rfl | rfl <;> rintro ⟨⟩
  · rw [hpc]
    rcases hbehind with rfl | rfl <;> rintro ⟨⟩
  · rcases TolerantProgram.mem_waiters_advance hmem with hwaiting | ⟨-, rfl⟩
    · exact h.asleep ((Program.notified_waiters_sublist _ _ _ _).mem hwaiting)
    · cases houtcome with
      | wait _ _ howner => exact h.waits hpoint howner
  · rw [hpc]
    rcases hbehind with rfl | rfl <;> rintro ⟨⟩

/-- The worker begins to run the task in its slot. -/
theorem Known.begin (h : Known state m) (hpoint : state.pc (.worker m) = .worker .test)
    (hfull : (slotOf state m).isSome = true) :
    Known (cfg.program.advance state (.worker m)
      { effect := some (.begin m), next := .worker (.running none) } .skip
      (.worker (.running none)) choice) m := by
  have hstarted : tasksOf m state.data.log.started = tasksOf m state.data.log.deleted := by
    simpa [hpoint, Point.runs] using h.started
  have hpc : (cfg.program.advance state (.worker m)
      { effect := some (.begin m), next := .worker (.running none) } .skip
      (.worker (.running none)) choice).pc (.worker m) = .worker (.running none) :=
    TolerantProgram.advance_pc_self
  refine ⟨h.go, h.handed, ?_, fun _ => hfull, ?_, ?_, ?_, ?_⟩
  · rw [hpc]
    simp [TolerantProgram.advance, Config.program, Pool.apply, Pool.held, Point.runs, slotOf,
      hstarted]
  · rw [hpc]
    rintro ⟨⟩
  · rw [hpc]
    rintro ⟨⟩
  · exact h.asleep
  · rw [hpc]
    rintro ⟨⟩

/-- The worker deletes the task that it has run. -/
theorem Known.finish (h : Known state m) (hpoint : state.pc (.worker m) = .worker (.running none)) :
    Known (cfg.program.advance state (.worker m)
      { effect := some (.delete m), next := .worker .oneTime } .skip (.worker .oneTime)
      choice) m := by
  have hstarted := h.started
  rw [hpoint] at hstarted
  have hpc : (cfg.program.advance state (.worker m)
      { effect := some (.delete m), next := .worker .oneTime } .skip (.worker .oneTime)
      choice).pc (.worker m) = .worker .oneTime :=
    TolerantProgram.advance_pc_self
  have hslot : slotOf (cfg.program.advance state (.worker m)
      { effect := some (.delete m), next := .worker .oneTime } .skip (.worker .oneTime)
      choice) m = none := by
    simp [slotOf, TolerantProgram.advance, Config.program, Pool.apply, Pool.update]
  refine ⟨?_, ?_, ?_, ?_, fun _ => hslot, fun _ _ => hslot, fun _ => hslot, ?_⟩
  · simpa [TolerantProgram.advance, Config.program, Pool.apply, Pool.update] using h.go
  · rw [hslot]
    simpa [TolerantProgram.advance, Config.program, Pool.apply, Pool.held, slotOf]
      using h.handed
  · rw [hpc]
    simpa [TolerantProgram.advance, Config.program, Pool.apply, Pool.held, Point.runs, slotOf]
      using hstarted
  · rw [hpc]
    rintro ⟨⟩
  · rw [hpc]
    rintro ⟨⟩

/-- A step of the worker in its own loop. -/
theorem Known.own (h : Known state m) {q : TaskManager.RunPoint Call}
    {piece : Piece (TaskManager.RunPoint Call)} {n : MonitorId}
    (hserving : Serving state (.run (.worker m) input choice))
    (hpoint : state.pc (.worker m) = .worker q)
    (hmoves : TaskManager.Moves n m state.data q piece)
    (houtcome : cfg.program.Outcome state (.worker m) (piece.map .worker) op next) :
    Known (cfg.program.advance state (.worker m) (piece.map .worker) op next choice) m := by
  cases hmoves with
  | enter | loop | vacant | goOn | idle | full | woken =>
      exact h.walk hpoint houtcome rfl nofun ⟨rfl, rfl⟩ nofun nofun nofun
  | stop hgo => cases h.go.symm.trans hgo
  | begin hfull =>
      obtain rfl := houtcome.next_eq nofun
      obtain rfl : op = .skip := houtcome.op_cases.elim id id
      exact h.begin hpoint hfull
  | finish =>
      obtain rfl := houtcome.next_eq nofun
      obtain rfl : op = .skip := houtcome.op_cases.elim id id
      exact h.finish hpoint
  | retire honce =>
      have hempty := hserving.leaves _ rfl m rfl hpoint honce
      exact h.walk hpoint houtcome rfl nofun ⟨rfl, rfl⟩ (fun _ => hempty) nofun nofun
  | inner p hp =>
      rw [h.go, if_pos rfl] at hp
      subst hp
      exact h.walk hpoint houtcome rfl nofun ⟨rfl, rfl⟩ nofun nofun nofun
  | empty hempty =>
      exact h.walk hpoint houtcome rfl nofun ⟨rfl, rfl⟩ nofun (fun _ => hempty) nofun
  | wait => exact h.wait hpoint rfl rfl houtcome
  | discard => exact absurd hpoint h.loops
  | leave =>
      have hempty := h.left (by rw [hpoint]; rfl)
      exact h.walk hpoint houtcome rfl nofun ⟨rfl, rfl⟩ (fun _ => hempty) nofun nofun

/-- A step of the worker in a method that its task has called. -/
theorem Known.nested (h : Known state m)
    (houtcome : cfg.program.Outcome state (.worker m) instr op next)
    (hruns : (state.pc (.worker m)).runs = true ∧ instr.next.runs = true)
    (hsame : state.data.SameSlot m (state.data.behind instr))
    (hop : instr.op ≠ .wait (.manager m)) :
    Known (cfg.program.advance state (.worker m) instr op next choice) m := by
  have hnext : next.runs = true := by
    rcases houtcome.next_cases with rfl | ⟨n, -, -, rfl⟩
    · exact hruns.2
    · exact Point.runs_resumed hruns.2
  have hpc : (cfg.program.advance state (.worker m) instr op next choice).pc (.worker m) =
      next :=
    TolerantProgram.advance_pc_self
  have hwait : op ≠ .wait (.manager m) := by
    rcases houtcome.op_cases with heq | heq
    · exact heq ▸ hop
    · rw [heq]
      rintro ⟨⟩
  refine h.keep hsame ?_ ?_ ?_ (h.asleep_of (.inr hwait)) ?_
  · rw [hpc, hnext, hruns.1]
  · rw [hpc, Point.left_of_runs hnext]
    rintro ⟨⟩
  · rw [hpc]
    rintro rfl
    cases hnext
  · rw [hpc]
    rintro rfl
    cases hnext

theorem Known.step (h : Known state m) {action : PoolAction} (hserving : Serving state action)
    (howner : ∀ t, (∃ task, (state.pc t).place = some (.scan task (.setTask m .body))) →
      (state.monitor (.manager m)).owner = some t)
    (hsleeping : TolerantProgram.Sleeping state (.manager m) fun t p =>
      t = .worker m ∧ p = .worker .woken)
    (hsteps : cfg.program.Steps state action after) : Known after m := by
  cases hsteps with
  | spurious n sleeper hwaiting =>
      refine h.keep ⟨rfl, rfl, rfl, rfl⟩ rfl h.left (fun hwait => ?_) (fun hmem => h.asleep ?_)
        h.loops
      · rw [TolerantProgram.wakeSpuriously_owner]
        exact h.waits hwait
      · exact (TolerantProgram.wakeSpuriously_waiters_sublist _ _ _ _).mem hmem
  | run thread input choice instr op next hcode houtcome =>
      have hmoves := code_moves hcode
      rcases hmoves.offers with ⟨hoffers, hinside⟩ | ⟨k, q, piece, rfl, hpoint, rfl, hown⟩
      · have hterminates := hserving.not_terminates rfl
        rcases hoffers.cases (m := m) hterminates with
          hsame | ⟨task, heffect, hplace, hempty, hnotify, hop⟩
        · by_cases hthread : thread = .worker m
          · subst hthread
            refine h.nested houtcome (hinside m rfl) hsame fun hop => ?_
            rcases hmoves.of_wait hop with ⟨hm, -⟩ | ⟨hm, -⟩ | ⟨k, -, -, hpoint, -⟩
            · cases hm
            · cases hm
            · have hruns := (hinside m rfl).1
              rw [hpoint] at hruns
              cases hruns
          · exact h.other houtcome hthread hsame
        · refine h.placed houtcome (fun n hn => (hinside n hn).1) hplace hempty heffect hnotify hop
            (howner thread ⟨task, hplace⟩) hsleeping fun htask => ?_
          obtain ⟨x, rfl⟩ := Option.isSome_iff_exists.mp htask
          exact hserving.places thread rfl m (by rw [Point.placing, hplace]; rfl) hempty
      · by_cases hm : k = m
        · subst hm
          exact h.own hserving hpoint hown houtcome
        · exact h.other houtcome (fun heq => hm (Tid.worker.inj heq)) (hown.sameSlot hm)

end ThreadPools.Agentpp
