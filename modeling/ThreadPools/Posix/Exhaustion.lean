/-
# How long a pool works

A pool that is not shut down, and whose tasks end and do not call back, does not work for ever
on what it has been given. The threads pay for their steps, and a step that wakes another thread
is paid for by the task it is about; so each call adds a bounded number of steps, and so does
each spurious wake-up.
-/

import ThreadPools.Concurrency.Potential
import ThreadPools.Posix.Completion
import ThreadPools.Posix.Costs

namespace ThreadPools.Posix

open ThreadPools.Concurrency

/-! ## Null pointers -/

/-- Nobody submits a null pointer, which would keep the dispatcher busy for ever. -/
def SubmitsTasks (_ : Tid) (input : Input) (_ : Point) (_ : Pool) : Prop :=
  input ≠ .call (.execute none)

instance (t : Tid) (input : Input) (p : Point) (pool : Pool) :
    Decidable (SubmitsTasks t input p pool) :=
  inferInstanceAs (Decidable (_ ≠ _))

namespace Config

variable {cfg : Config} {pool : Pool} {t : Tid} {input : Input} {p : Point}
  {piece : Piece Point} {guard : PoolState → PoolAction → Prop} {state : PoolState}

/-- There are no null pointers in the queue, nor on their way to it. -/
def tasksOnly : Annotation Tid MonitorId Pool Point where
  assertion t p _ := ∀ call, p = t.calling (some call) → call.method ≠ .execute none
  resource _ _ := True
  invariant pool := none ∉ pool.queue

theorem Moves.tasks_queue (hmoves : cfg.Moves pool t input p piece)
    (h : ∀ call, p = t.calling (some call) → call.method ≠ .execute none)
    (htasks : none ∉ pool.queue) : none ∉ (piece.after pool).queue := by
  cases hmoves with
  | enter t method call =>
      show none ∉ (Piece.after { effect := call.entered t, next := _ } pool).queue
      unfold Call.entered
      split <;> exact htasks
  | call t call ht =>
      have hhandles := Call.code_handles call pool
      rw [Piece.after_map]
      cases heffect : (call.code pool).effect with
      | none => rwa [Piece.after_of_none heffect]
      | some effect =>
          rw [Piece.after_of_some heffect]
          show none ∉ (pool.apply effect).custody.queue
          rw [Pool.custody_apply]
          rw [heffect] at hhandles
          cases hhandles with
          | silent _ hsilent => rwa [(hsilent effect rfl).1]
          | push _ hcall =>
              have hmethod := h call rfl
              rw [hcall] at hmethod
              intro hmem
              rcases List.mem_append.mp hmem with hmem | hmem
              · exact htasks hmem
              · exact hmethod (congrArg Method.execute (List.mem_singleton.mp hmem).symm)
          | emptyQueue => exact List.not_mem_nil
          | reject | place => exact htasks
  | dispatcher hmoves =>
      rw [Piece.after_map]
      exact fun hmem => htasks (hmoves.queue_subset hmem)
  | worker m input hmoves =>
      rw [Piece.after_map]
      cases hmoves with
      | add p | remove p => cases p <;> exact htasks
      | _ => exact htasks

theorem tasksOnly_valid :
    Annotation.Valid cfg.program .trivial tasksOnly SubmitsTasks where
  assertion {t input p pool piece} hbefore husage call hnext := by
    rcases (code_moves hbefore.code).next_calling hnext with
      ⟨method, rfl, -, hentry⟩ | ⟨prior, hprior, hcode, -⟩
    · rw [(Call.entry_spec hentry).2]
      exact fun heq => husage (congrArg _ heq)
    · rw [(Call.method_of_next hcode).2]
      exact hbefore.assertion.2 prior hprior
  release _ _ _ _ := trivial
  invariant {t input p pool piece effect} hbefore _ heffect := by
    have htasks := (code_moves hbefore.code).tasks_queue hbefore.assertion.2 hbefore.invariant.2
    rwa [Piece.after_of_some heffect] at htasks
  frame _ _ _ _ hother _ _ := hother.2
  frame_resource _ _ _ _ _ _ _ := trivial
  raise {t _ p _ _} _ _ _ hassertion _ _ := by
    refine ⟨fun call hcall => ?_, fun _ _ _ => trivial⟩
    change p.handler = t.calling (some call) at hcall
    exact hassertion.2 call (Point.eq_of_handler hcall)

theorem tasksOnly_initial : tasksOnly.Holds cfg.initial where
  assertion t call hcall := absurd hcall (cfg.initialPoint_ne_calling t call)
  resource _ _ := trivial
  invariant := List.not_mem_nil

theorem tasksOnly_of_reaches
    (hguard : ∀ state action, guard state action → Annotation.Respects SubmitsTasks state action)
    (hrun : Reaches cfg.program.step guard cfg.initial state) : tasksOnly.Holds state :=
  tasksOnly_valid.holds cfg.wellLocked (fun _ _ _ h => hguard _ _ h) cfg.locked_initial
    (fun _ _ => Annotation.holds_trivial _) tasksOnly_initial hrun

/-- In a run without a shutdown and without null pointers every thread can pay. -/
theorem funded_of_reaches (hguard : cfg.Quietly guard)
    (htasks : ∀ state action, guard state action → Annotation.Respects SubmitsTasks state action)
    (hrun : Reaches cfg.program.step guard cfg.initial state) (t : Tid) :
    cfg.Funded t (state.pc t) state.data := by
  have hundisturbed := hguard.undisturbed hrun
  have hlife : state.data.life = cfg.initialPool.life := hundisturbed.invariant
  have hfits : (state.pc t).Fits cfg.kind noCallback t := (hguard.shape hrun).assertion t
  refine ⟨hfits, hundisturbed.assertion t, ?_, ?_, manager_go hundisturbed,
    (tasksOnly_of_reaches htasks hrun).invariant, ?_, ?_⟩
  · show state.data.life.taskList.length = cfg.size
    rw [hlife]
    exact List.length_range
  · show state.data.life.go = true
    rw [hlife]
    rfl
  · intro q hq x hx
    rw [hq] at hfits
    obtain ⟨rfl, hkind⟩ := Point.Fits.kind_of_dispatcher hfits
    have hexited : q ≠ .exited := by
      rintro rfl
      cases hx
    exact (((dispatching_of_reaches hrun).assertion .dispatcher (hkind hexited)).dispatches q
      hq).front x hx
  · rintro m rfl hpoint hnone
    have hm : m < cfg.size := by
      by_contra hm
      have hcontrol :=
        (lifecycle_of_reaches hguard.disciplined.tasksCall hrun).assertion (.worker m)
      rw [hpoint] at hcontrol
      cases hcontrol.2.1 (Nat.le_of_not_lt hm)
    obtain ⟨x, hx, -⟩ := (work_of_reaches hguard.disciplined hguard.fresh hrun).assertion
      (.worker m) m (.running none) rfl hpoint hm
    cases hnone.symm.trans hx

end Config

/-! ## The effort -/

/-- Where a thread sleeps. -/
def Tid.bed : Tid → MonitorId
  | .client _ => .pool
  | .dispatcher => .dispatcher
  | .worker m => .manager m

/-- The thread is asleep. -/
def asleep (state : PoolState) (t : Tid) : Bool := decide (t ∈ (state.monitor t.bed).waiters)

/-- What a thread still costs. -/
def weigh (size : Nat) (state : PoolState) (t : Tid) : Nat :=
  (state.pc t).cost size (asleep state t) state.data t

/-- The threads of a pool and its first clients. -/
def threads (size clients : Nat) : Finset Tid :=
  insert .dispatcher ((Finset.range size).image .worker ∪ (Finset.range clients).image .client)

/-- The steps which are left, but for those that new calls and spurious wake-ups add. -/
def effort (size clients : Nat) (state : PoolState) : Nat :=
  ∑ t ∈ threads size clients, weigh size state t

theorem asleep_iff {state : PoolState} {t : Tid} :
    asleep state t = true ↔ t ∈ (state.monitor t.bed).waiters :=
  decide_eq_true_iff

theorem weigh_le {size : Nat} {state after : PoolState} {t : Tid}
    (hpc : after.pc t = state.pc t)
    (hcost : (state.pc t).cost size (asleep state t) after.data t ≤ weigh size state t)
    (hasleep : t ∈ (state.monitor t.bed).waiters → t ∈ (after.monitor t.bed).waiters) :
    weigh size after t ≤ weigh size state t := by
  refine le_trans ?_ hcost
  unfold weigh
  rw [hpc]
  exact Point.cost_le.2 fun h => asleep_iff.mpr (hasleep (asleep_iff.mp h))

theorem bed_of_waitsAt {kind : Kind} {t : Tid} {p : Point} {m : MonitorId}
    (hfits : p.Fits kind noCallback t) (hwaits : p.waitsAt t = some m) : m = t.bed := by
  rcases Point.waitsAt_cases hfits hwaits with ⟨rfl, rfl, -⟩ | ⟨rfl, task, rfl⟩ | ⟨i, rfl, rfl, -⟩
  · rfl
  · cases t with
    | client => rfl
    | dispatcher => exact hfits.elim
    | worker m => exact (hfits _ rfl).2.elim
  · rfl

namespace Config

variable {cfg : Config} {guard : PoolState → PoolAction → Prop} {state next : PoolState}

/-- The thread that makes a step pays for it and for what it gives away. -/
theorem weigh_advance_self (hlocked : cfg.program.Locked state) {t : Tid} {input : Input}
    (choice : Nat) {piece : Piece Point}
    (husage : TasksCall noCallback t input (state.pc t) state.data)
    (hfunded : cfg.Funded t (state.pc t) state.data)
    (hcode : cfg.code t input (state.pc t) state.data = some piece)
    (henabled : cfg.program.Enabled state t piece.op) :
    weigh cfg.size (cfg.program.advance state t piece choice) t +
      Effect.gain cfg.size piece.effect + input.paid ≤
      weigh cfg.size state t + input.charge cfg.size := by
  have hmoves := code_moves hcode
  have hawake : asleep state t = false :=
    decide_eq_false (hlocked.awake cfg.wellLocked hcode (.inl henabled) t.bed)
  have hpays := hmoves.cost_le husage hfunded
  have hfits : piece.next.Fits cfg.kind noCallback t := hmoves.fits husage hfunded.fits
  have hpc : (cfg.program.advance state t piece choice).pc t = piece.next := by
    simp [Program.advance]
  have hdata : (cfg.program.advance state t piece choice).data = piece.after state.data :=
    cfg.dataAfter_eq piece state.data
  unfold weigh
  rw [hpc, hdata, hawake]
  have hle : piece.next.cost cfg.size (asleep (cfg.program.advance state t piece choice) t)
      (piece.after state.data) t ≤
      piece.next.cost cfg.size (sleeps piece.op) (piece.after state.data) t := by
    refine Point.cost_le.2 fun hsleeps => ?_
    obtain ⟨m, hop⟩ : ∃ m, piece.op = .wait m := by
      cases hop : piece.op with
      | wait m => exact ⟨m, rfl⟩
      | _ => rw [hop] at hsleeps; cases hsleeps
    refine asleep_iff.mpr ?_
    have hbed := bed_of_waitsAt hfits (hmoves.waits hop)
    rw [← hbed]
    simp [Program.advance, hop, Op.perform]
  omega

/-- A step gives to one other thread at most, and not more than it pays for. -/
theorem weigh_advance_other {t : Tid} {input : Input} (choice : Nat) {piece : Piece Point}
    (hharmless : ∀ call, state.pc t = t.calling (some call) → call.Harmless)
    (hcode : cfg.code t input (state.pc t) state.data = some piece) :
    ∃ affected : Option Tid, ∀ u, u ≠ t →
      weigh cfg.size (cfg.program.advance state t piece choice) u ≤ weigh cfg.size state u +
        if some u = affected then Effect.gain cfg.size piece.effect else 0 := by
  obtain ⟨woken, hwoken⟩ := cfg.program.exists_woken_advance state t piece choice
  have hpc : ∀ u, u ≠ t → (cfg.program.advance state t piece choice).pc u = state.pc u :=
    fun u hu => by simp [Program.advance, hu]
  have hdata : (cfg.program.advance state t piece choice).data = piece.after state.data :=
    cfg.dataAfter_eq piece state.data
  -- whoever is not notified sleeps on
  have hkeeps : ∀ u, piece.notify ≠ some u.bed → u ∈ (state.monitor u.bed).waiters →
      u ∈ ((cfg.program.advance state t piece choice).monitor u.bed).waiters :=
    fun u hnot hmem => (hwoken u.bed u hmem).resolve_right fun h => hnot h.1
  have houtlay := (code_moves hcode).outlay hharmless
  cases houtlay with
  | none hnotify hleaves =>
      refine ⟨none, fun u hu => ?_⟩
      rw [if_neg (Option.some_ne_none u)]
      refine weigh_le (hpc u hu) (le_of_eq ?_) (hkeeps u (by rw [hnotify]; rintro ⟨⟩))
      rw [hdata]
      exact Point.cost_congr (fun heq => hleaves.queue fun ht => hu (heq.trans ht.symm))
        fun m heq => hleaves.slot m fun ht => hu (heq.trans ht.symm)
  | push task heffect hnotify =>
      refine ⟨some .dispatcher, fun u hu => ?_⟩
      rw [heffect]
      by_cases hdispatcher : u = .dispatcher
      · subst hdispatcher
        rw [if_pos rfl, weigh, hpc _ hu, hdata, Piece.after_of_some heffect]
        exact Point.cost_push task
      · rw [if_neg (fun heq => hdispatcher (Option.some.inj heq))]
        refine weigh_le (hpc u hu) (le_of_eq ?_) (hkeeps u ?_)
        · rw [hdata, Piece.after_of_some heffect]
          exact Point.cost_congr (fun heq => absurd heq hdispatcher) fun _ _ => rfl
        · rw [hnotify]
          cases u with
          | dispatcher => exact absurd rfl hdispatcher
          | _ => rintro ⟨⟩
  | place task m heffect hnotify =>
      refine ⟨some (.worker m), fun u hu => ?_⟩
      rw [heffect]
      by_cases hworker : u = .worker m
      · subst hworker
        rw [if_pos rfl, weigh, hpc _ hu, hdata, Piece.after_of_some heffect]
        exact Point.cost_place task m
      · rw [if_neg (fun heq => hworker (Option.some.inj heq))]
        refine weigh_le (hpc u hu) (le_of_eq ?_) (hkeeps u ?_)
        · rw [hdata, Piece.after_of_some heffect]
          refine Point.cost_congr (fun _ => rfl) ?_
          rintro i rfl
          have hne : i ≠ m := fun heq => hworker (congrArg _ heq)
          simp [Pool.apply, Pool.update, hne]
        · rw [hnotify]
          cases u with
          | worker i =>
              intro heq
              cases heq
              exact hworker rfl
          | _ => rintro ⟨⟩
  | finish m ht heffect =>
      subst ht
      refine ⟨woken, fun u hu => ?_⟩
      have hcost : ∀ before, (state.pc u).cost cfg.size before (piece.after state.data) u =
          (state.pc u).cost cfg.size before state.data u := by
        intro before
        rw [Piece.after_of_some heffect]
        refine Point.cost_congr (fun _ => rfl) ?_
        rintro i rfl
        have hne : i ≠ m := fun heq => hu (congrArg _ heq)
        show ((state.data.deleteTask m).managers i).task = _
        simp [Pool.deleteTask, Pool.update, hne]
      by_cases haffected : some u = woken
      · rw [if_pos haffected, heffect, weigh, hpc u hu, hdata, hcost]
        exact Point.cost_le.1
      · rw [if_neg haffected]
        refine weigh_le (hpc u hu) (le_of_eq ?_) fun hmem => ?_
        · rw [hdata]
          exact hcost _
        · exact (hwoken u.bed u hmem).resolve_right fun h => haffected h.2

/-- Nobody enters a monitor twice while tasks do not call back. -/
theorem not_raises_of_locked (hlocked : cfg.program.Locked state) {t : Tid} {input : Input}
    {piece : Piece Point} (hfits : (state.pc t).Fits cfg.kind noCallback t)
    (hcode : cfg.code t input (state.pc t) state.data = some piece) :
    ¬ Program.Raises state t piece.op := by
  intro hraises
  cases hop : piece.op with
  | lock m =>
      rw [hop] at hraises
      exact lt_irrefl _ ((code_moves hcode).level_lt hfits ((hlocked.owner m t).mp hraises) hop)
  | _ => rw [hop] at hraises; exact hraises

/-- The threads that move are among those that are counted. -/
theorem mem_threads (hshape : (cfg.shape noCallback).Holds state)
    (hlifecycle : cfg.lifecycle.Holds state) {t : Tid} {input : Input}
    {piece : Piece Point} {clients : Nat}
    (hcode : cfg.code t input (state.pc t) state.data = some piece)
    (hclient : ∀ c, t = .client c → c < clients) : t ∈ threads cfg.size clients := by
  unfold threads
  cases t with
  | dispatcher => exact Finset.mem_insert_self _ _
  | client c => simp [hclient c rfl]
  | worker m =>
      have hm : m < cfg.size := by
        by_contra hm
        have hcontrol := hlifecycle.assertion (.worker m)
        obtain ⟨q, hq⟩ := worker_point hshape m
        rw [hq] at hcontrol hcode
        rw [hcontrol.2.1 (Nat.le_of_not_lt hm)] at hcode
        cases input <;> cases hcode
      simp [hm]

end Config

/-- What an action brings in. -/
def charge (size : Nat) : PoolAction → Nat
  | .run _ input _ => input.charge size
  | .spurious _ _ => Config.limit size

/-- A thread makes a step of its own. -/
def isOwn : PoolAction → Bool
  | .run _ (.call _) _ => false
  | .run _ _ _ => true
  | .spurious _ _ => false

namespace Config

variable {cfg : Config} {guard : PoolState → PoolAction → Prop} {state next : PoolState}

/-- Every step is paid for. -/
theorem effort_step (hguard : cfg.Quietly guard)
    (htasks : ∀ state action, guard state action → Annotation.Respects SubmitsTasks state action)
    (hrun : Reaches cfg.program.step guard cfg.initial state) {action : PoolAction}
    {clients : Nat} (hclient : ∀ c, action.mover = some (.client c) → c < clients)
    (hallowed : guard state action) (hstep : cfg.program.step state action = some next) :
    (isOwn action).toNat + effort cfg.size clients next ≤
      effort cfg.size clients state + charge cfg.size action := by
  have hlocked := locked_of_reaches hrun
  have hfits : ∀ t, (state.pc t).Fits cfg.kind noCallback t := (hguard.shape hrun).assertion
  rcases Program.step_cases hstep with
    ⟨t, input, choice, piece, rfl, hcode, henabled, rfl⟩ |
    ⟨t, input, choice, piece, rfl, hcode, hraises, rfl⟩ | ⟨m, t, rfl, hasleep, rfl⟩
  · have hmem : t ∈ threads cfg.size clients :=
      mem_threads (hguard.shape hrun) (lifecycle_of_reaches hguard.disciplined.tasksCall hrun) hcode
        fun c hc => hclient c (congrArg some hc)
    have hself := weigh_advance_self hlocked choice
      (hguard.tasksCall _ _ hallowed) (funded_of_reaches hguard htasks hrun t) hcode henabled
    obtain ⟨affected, hothers⟩ := weigh_advance_other choice
      ((hguard.undisturbed hrun).assertion t) hcode
    have hsum := sum_add_le_of_gain hmem hself fun u _ hu => hothers u hu
    have hpaid : (isOwn (.run t input choice)).toNat = input.paid := by
      cases input <;> rfl
    rw [hpaid, Nat.add_comm]
    exact hsum
  · exact absurd hraises (not_raises_of_locked hlocked (hfits t) hcode)
  · show 0 + effort cfg.size clients _ ≤ effort cfg.size clients state + limit cfg.size
    rw [Nat.zero_add]
    -- only the thread that wakes up costs more
    have hothers : ∀ u, u ≠ t → weigh cfg.size { state with
        monitor := Function.update state.monitor m
          ((state.monitor m).wakeSpuriously t) } u ≤ weigh cfg.size state u +
          if some u = none then 0 else 0 := by
      intro u hu
      rw [if_neg nofun]
      refine weigh_le rfl le_rfl fun hmem => ?_
      by_cases hbed : u.bed = m
      · subst hbed
        simpa using (List.mem_erase_of_ne hu).mpr hmem
      · simpa [hbed] using hmem
    by_cases hmem : t ∈ threads cfg.size clients
    · have hself : weigh cfg.size { state with
          monitor := Function.update state.monitor m
            ((state.monitor m).wakeSpuriously t) } t + 0 + 0 ≤
          weigh cfg.size state t + limit cfg.size := Point.cost_le.1
      exact sum_add_le_of_gain hmem hself fun u _ hu => hothers u hu
    · refine (Finset.sum_le_sum fun u hu => hothers u ?_).trans (Nat.le_add_right _ _)
      rintro rfl
      exact hmem hu

/-- What is left to do at the beginning. -/
theorem effort_initial (cfg : Config) (clients : Nat) :
    effort cfg.size clients cfg.initial ≤ (cfg.size + 1) * limit cfg.size := by
  have hdispatcher : weigh cfg.size cfg.initial .dispatcher ≤ limit cfg.size := by
    show (cfg.initialPoint .dispatcher).cost cfg.size false cfg.initialPool .dispatcher ≤ _
    simp only [initialPoint]
    split
    · exact le_rfl
    · exact Nat.zero_le _
  have hworker : ∀ m ∈ Finset.range cfg.size,
      weigh cfg.size cfg.initial (.worker m) ≤ limit cfg.size := by
    intro m _
    show (cfg.initialPoint (.worker m)).cost cfg.size false cfg.initialPool (.worker m) ≤ _
    simp only [initialPoint]
    split
    · show 5 + 0 ≤ 4 * cfg.size + 6
      omega
    · exact Nat.zero_le _
  have hclient : ∀ c ∈ Finset.range clients, weigh cfg.size cfg.initial (.client c) = 0 :=
    fun _ _ => rfl
  have hnot : Tid.dispatcher ∉
      (Finset.range cfg.size).image Tid.worker ∪ (Finset.range clients).image Tid.client := by
    simp
  have hdisjoint : Disjoint ((Finset.range cfg.size).image Tid.worker)
      ((Finset.range clients).image Tid.client) := by
    simp [Finset.disjoint_left]
  have hworkers : ∑ m ∈ Finset.range cfg.size, weigh cfg.size cfg.initial (.worker m) ≤
      cfg.size * limit cfg.size := by
    refine (Finset.sum_le_card_nsmul _ _ _ hworker).trans (le_of_eq ?_)
    rw [Finset.card_range, Nat.nsmul_eq_mul]
  rw [effort, threads, Finset.sum_insert hnot, Finset.sum_union hdisjoint,
    Finset.sum_image fun _ _ _ _ h => Tid.worker.inj h,
    Finset.sum_image fun _ _ _ _ h => Tid.client.inj h, Finset.sum_eq_zero hclient,
    Nat.add_zero, Nat.add_mul, Nat.one_mul, Nat.add_comm (cfg.size * limit cfg.size)]
  exact Nat.add_le_add hdispatcher hworkers

/-- The list of the clients that take part in a run ends. -/
theorem exists_clients (history : List PoolAction) :
    ∃ clients, ∀ action ∈ history, ∀ c, action.mover = some (.client c) → c < clients := by
  induction history with
  | nil => exact ⟨0, nofun⟩
  | cons action history ih =>
      obtain ⟨clients, hclients⟩ := ih
      obtain ⟨first, hfirst⟩ : ∃ first, ∀ c, action.mover = some (.client c) → c < first := by
        cases hmover : action.mover with
        | none => exact ⟨0, nofun⟩
        | some t =>
            cases t with
            | client c =>
                refine ⟨c + 1, fun d hd => ?_⟩
                cases hd
                exact Nat.lt_succ_self c
            | _ => exact ⟨0, nofun⟩
      refine ⟨max first clients, fun other hmem c hc => ?_⟩
      rcases List.mem_cons.mp hmem with rfl | hmem
      · exact (hfirst c hc).trans_le (le_max_left _ _)
      · exact (hclients other hmem c hc).trans_le (le_max_right _ _)

/-- The steps which the threads of a pool make of their own are bounded by the calls and the
spurious wake-ups, whatever the order of the steps. -/
theorem own_steps_bounded (hguard : cfg.Quietly guard)
    (htasks : ∀ state action, guard state action → Annotation.Respects SubmitsTasks state action)
    {history : List PoolAction}
    (hrun : Emits cfg.program.step guard (fun _ action => [action]) cfg.initial history state) :
    history.countP isOwn ≤
      (cfg.size + 1) * limit cfg.size + (history.map (charge cfg.size)).sum := by
  obtain ⟨clients, hclients⟩ := exists_clients history
  have hcount : history.countP isOwn + effort cfg.size clients state ≤
      effort cfg.size clients cfg.initial + (history.map (charge cfg.size)).sum :=
    hrun.countP_add_le fun state action next hmem hprior hallowed hstep =>
      effort_step hguard htasks hprior (hclients action hmem) hallowed hstep
  have hinitial := effort_initial cfg clients
  omega

/-- A pool with one manager runs two tasks and has nothing left to do. -/
theorem own_steps_bounded_two : ∃ (history : List PoolAction) (state : PoolState),
    Emits (Config.complete .queuedThreadPool 1).program.step
      (fun state action => Contract state action ∧ Annotation.Respects NoShutdown state action ∧
        Annotation.Respects SubmitsTasks state action)
      (fun _ action => [action]) (Config.complete .queuedThreadPool 1).initial history state ∧
      state.data.log.finished = [1, 2] ∧
      history.countP isOwn ≤ 2 * limit 1 + (history.map (charge 1)).sum := by
  let cfg := Config.complete .queuedThreadPool 1
  let task (x : Runnable) : List PoolAction :=
    PoolAction.call (.client 0) (.execute (some x)) :: PoolAction.steps (.client 0) 2 ++
      PoolAction.steps .dispatcher 12 ++ PoolAction.steps (.worker 0) 3 ++
      [PoolAction.finish 0, PoolAction.go (.worker 0)] ++ PoolAction.steps .dispatcher 2
  obtain ⟨state, hrun, hfinished⟩ : ∃ state : PoolState,
      Reaches cfg.program.step (fun state action => Contract state action ∧
        Annotation.Respects NoShutdown state action ∧
        Annotation.Respects SubmitsTasks state action) cfg.initial state ∧
        state.data.log.finished = [1, 2] :=
    Reaches.of_observed (fun state action => decide (Contract state action ∧
        Annotation.Respects NoShutdown state action ∧
        Annotation.Respects SubmitsTasks state action))
      (PoolAction.steps .dispatcher 5 ++ PoolAction.steps (.worker 0) 5 ++ task 1 ++ task 2)
      (fun _ _ => of_decide_eq_true) (by decide +kernel)
  obtain ⟨history, hemits⟩ := hrun.emits fun _ action => [action]
  exact ⟨history, state, hemits, hfinished,
    own_steps_bounded ⟨fun _ _ h => h.1, fun _ _ h => h.2.1⟩ (fun _ _ h => h.2.2) hemits⟩

end Config

end ThreadPools.Posix
