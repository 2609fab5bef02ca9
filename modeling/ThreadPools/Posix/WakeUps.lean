/-
# Who wakes whom

A dispatcher or a submitter that finds no idle manager waits until a worker has
run its task to the end and calls `idle_notification()`. The worker does so
without the monitor in which the managers were inspected, so the notification
may come between the inspection of its manager and the `wait()`, and is lost.
While some slot is occupied at the moment of the `wait()`, another notification
is still to come. This is the exact condition under which nobody is left asleep
next to idle managers.
-/

import ThreadPools.Concurrency.WakeUps
import ThreadPools.Posix.Dispatching

namespace ThreadPools.Posix

open ThreadPools.Concurrency

/-! ## Pools that are not shut down -/

/-- Nobody calls `terminate` or the destructor. -/
def NoShutdown (_ : Tid) (input : Input) (_ : Point) (_ : Pool) : Prop :=
  input ≠ .call .terminate ∧ input ≠ .call .destroy

instance (t : Tid) (input : Input) (p : Point) (pool : Pool) :
    Decidable (NoShutdown t input p pool) :=
  inferInstanceAs (Decidable (_ ∧ _))

/-- A call that does not shut the pool down. -/
def Call.Harmless (call : Call) : Prop :=
  call.method ≠ .terminate ∧ call.method ≠ .destroy

theorem Call.Harmless.life_apply {call : Call} (h : call.Harmless) {pool : Pool}
    {effect : Effect} (heffect : (call.code pool).effect = some effect) (life : Life) :
    life.apply effect = life := by
  cases call with
  | execute task p | queuedExecute task p =>
      exact life_apply_of_execute ⟨task, rfl⟩ heffect life
  | isIdle p | isBusy p =>
      exact absurd (heffect.symm.trans (ThreadPool.check_effect _ _ _ p pool)) nofun
  | queuedIsIdle p | queuedIsBusy p =>
      exact absurd (heffect.symm.trans (QueuedThreadPool.check_effect _ p pool)) nofun
  | queueLength p => cases p <;> cases heffect
  | terminate | queuedTerminate => exact absurd rfl h.1
  | destroy | queuedDestroy => exact absurd rfl h.2

namespace Config

variable (cfg : Config)

/-- Without a shutdown the life of the pool does not change. -/
def undisturbed : Annotation Tid MonitorId Pool Point where
  assertion t p _ := ∀ call, p = t.calling (some call) → call.Harmless
  resource _ _ := True
  invariant pool := pool.life = cfg.initialPool.life

variable {cfg} {pool : Pool} {t : Tid} {input : Input} {p : Point} {piece : Piece Point}

theorem Moves.harmless (hmoves : cfg.Moves pool t input p piece)
    (husage : NoShutdown t input p pool)
    (h : ∀ call, p = t.calling (some call) → call.Harmless) (call : Call)
    (hnext : piece.next = t.calling (some call)) : call.Harmless := by
  rcases hmoves.next_calling hnext with ⟨method, rfl, -, hentry⟩ | ⟨prior, hp, hcode, -⟩
  · have hmethod := (Call.entry_spec hentry).2
    exact ⟨fun heq => husage.1 (by rw [← hmethod, heq]),
      fun heq => husage.2 (by rw [← hmethod, heq])⟩
  · have hmethod := (Call.method_of_next hcode).2
    have hprior := h prior hp
    exact ⟨hmethod ▸ hprior.1, hmethod ▸ hprior.2⟩

theorem Moves.life_apply_of_harmless (hmoves : cfg.Moves pool t input p piece)
    (h : ∀ call, p = t.calling (some call) → call.Harmless) {effect : Effect}
    (heffect : piece.effect = some effect) : pool.life.apply effect = pool.life := by
  cases hmoves with
  | enter => exact Call.life_apply_entered heffect _
  | call t call ht => exact (h call rfl).life_apply heffect _
  | dispatcher hmoves =>
      have hsame := hmoves.life_after
      rwa [Life.after_of_some (by exact heffect)] at hsame
  | worker m input hmoves =>
      have hsame := hmoves.life_after
      rwa [Life.after_of_some (by exact heffect)] at hsame

theorem undisturbed_valid :
    Annotation.Valid cfg.program .trivial cfg.undisturbed NoShutdown where
  assertion hbefore husage := (code_moves hbefore.code).harmless husage hbefore.assertion.2
  release _ _ _ _ := trivial
  invariant {_ _ _ data _ effect} hbefore _ heffect := by
    show (data.apply effect).life = cfg.initialPool.life
    rw [Pool.life_apply, (code_moves hbefore.code).life_apply_of_harmless hbefore.assertion.2
      heffect]
    exact hbefore.invariant.2
  frame _ _ _ _ hother _ _ := hother.2
  frame_resource _ _ _ _ _ _ _ := trivial
  raise {t _ p _ _} _ _ _ hassertion _ _ := by
    refine ⟨fun call hcall => ?_, fun _ _ _ => trivial⟩
    change p.handler = t.calling (some call) at hcall
    exact hassertion.2 call (Point.eq_of_handler hcall)

theorem undisturbed_initial : cfg.undisturbed.Holds cfg.initial where
  assertion t call hcall := absurd hcall (cfg.initialPoint_ne_calling t call)
  resource _ _ := trivial
  invariant := rfl

variable {guard : PoolState → PoolAction → Prop} {state : PoolState}

theorem undisturbed_of_reaches
    (hguard : ∀ state action, guard state action →
      Annotation.Respects NoShutdown state action)
    (hrun : Reaches cfg.program.step guard cfg.initial state) : cfg.undisturbed.Holds state :=
  undisturbed_valid.holds cfg.wellLocked (fun _ _ _ h => hguard _ _ h) cfg.locked_initial
    (fun _ _ => Annotation.holds_trivial _) undisturbed_initial hrun

/-- Then no manager has been stopped. -/
theorem manager_go (h : cfg.undisturbed.Holds state) (m : ManagerId) :
    (state.data.managers m).go = true := by
  show (state.data.life.manager m).go = true
  rw [h.invariant]
  rfl

end Config

/-! ## Notifications -/

/-- Whom a piece of code notifies of what it does to the queue and the slots. -/
structure Config.Announces (cfg : Config) (pool : Pool) (effect : Effect)
    (notify : Option MonitorId) : Prop where
  push : ∀ task, effect = .push task → notify = some .dispatcher
  finish : ∀ m, effect = .finish m → notify = some (idleNotification cfg.kind)
  discard : ∀ m, effect = .discard m → (pool.managers m).go = false
  place : ∀ task m, effect = .place task m → (pool.managers m).task = none

theorem Config.Announces.of_silent {cfg : Config} {pool : Pool} {effect : Effect}
    (h : effect.Silent) (notify : Option MonitorId) : cfg.Announces pool effect notify := by
  refine ⟨?_, ?_, ?_, ?_⟩
  · rintro task rfl
    exact absurd h Effect.not_silent_push
  · rintro m rfl
    exact absurd (.inr (.inl rfl)) (h.not_own m)
  · rintro m rfl
    exact absurd (.inr (.inr rfl)) (h.not_own m)
  · rintro task m rfl
    exact absurd h Effect.not_silent_place

/-- An announcement is about one effect. -/
theorem Config.Announces.of_effect {cfg : Config} {pool : Pool} {effect : Effect}
    {notify : Option MonitorId}
    (h : match effect with
      | .push _ => notify = some .dispatcher
      | .finish _ => notify = some (idleNotification cfg.kind)
      | .discard m => (pool.managers m).go = false
      | .place _ m => (pool.managers m).task = none
      | _ => True) : cfg.Announces pool effect notify := by
  refine ⟨?_, ?_, ?_, ?_⟩
  · rintro task rfl
    exact h
  · rintro m rfl
    exact h
  · rintro m rfl
    exact h
  · rintro task m rfl
    exact h

theorem Config.Moves.announces {cfg : Config} {pool : Pool} {t : Tid} {input : Input}
    {p : Point} {piece : Piece Point} (hmoves : cfg.Moves pool t input p piece)
    {effect : Effect} (heffect : piece.effect = some effect) :
    cfg.Announces pool effect piece.notify := by
  cases hmoves with
  | enter t method call _ hentry =>
      rcases Call.entered_cases hentry t with ⟨task, -, hentered, -⟩ | ⟨-, hsilent⟩
      · cases hentered.symm.trans heffect
        exact .of_effect trivial
      · exact .of_silent (hsilent effect heffect) _
  | call t call ht =>
      have hhandles := Call.code_handles call pool
      rw [Instr.map_effect] at heffect
      rw [heffect] at hhandles
      rw [Instr.map_notify]
      cases hhandles with
      | silent _ hsilent => exact .of_silent (hsilent effect rfl) _
      | reject | emptyQueue => exact .of_effect trivial
      | push _ hcall hgo =>
          refine .of_effect ?_
          rw [hcall]
          simp [Call.code, Call.piece, QueuedThreadPool.execute, hgo]
      | place m rest _ _ hslot => exact .of_effect hslot
  | dispatcher hmoves =>
      rcases hmoves.effect_cases heffect with hsilent | rfl | ⟨task, m, rest, rfl, -, hslot⟩
      · exact .of_silent hsilent _
      · exact .of_effect trivial
      · exact .of_effect hslot
  | worker m input hmoves =>
      cases hmoves with
      | add p | remove p =>
          cases p with
          | lock => cases heffect
          | body =>
              cases heffect
              refine .of_silent ?_ _
              exact ⟨fun _ => rfl, by rintro _ ⟨⟩⟩
      | begin => cases heffect; exact .of_effect trivial
      | finish => cases heffect; exact .of_effect rfl
      | discard hgo => cases heffect; exact .of_effect hgo
      | _ => cases heffect

/-! ## Occupied slots -/

/-- Some manager has a task. -/
def Pool.Occupied (size : Nat) (pool : Pool) : Prop :=
  ∃ m < size, (pool.managers m).task ≠ none

instance (size : Nat) (pool : Pool) : Decidable (pool.Occupied size) :=
  inferInstanceAs (Decidable (∃ m < size, _))

/-- An inspection of the managers has found none that is idle. -/
def Point.unplaced : Point → Bool
  | .client (some (.execute _ .failed)) => true
  | .worker (.running (some (.execute _ .failed))) => true
  | .dispatcher (.unassigned _) => true
  | _ => false

/-- A thread that has found no idle manager goes to sleep only while some slot is
still occupied. -/
def SleepsOccupied (size : Nat) (_ : Tid) (_ : Input) (p : Point) (pool : Pool) : Prop :=
  p.unplaced = true → pool.Occupied size

instance (size : Nat) (t : Tid) (input : Input) (p : Point) (pool : Pool) :
    Decidable (SleepsOccupied size t input p pool) :=
  inferInstanceAs (Decidable (_ → _))

/-- Slots become empty only when a task has been run or a manager is stopped. -/
theorem Pool.Occupied.apply {size : Nat} {pool : Pool} (h : pool.Occupied size)
    {effect : Effect} (hplace : ∀ task m, effect = .place task m → (pool.managers m).task = none)
    (hfinish : ∀ m, effect ≠ .finish m) (hdiscard : ∀ m, effect ≠ .discard m) :
    (pool.apply effect).Occupied size := by
  obtain ⟨m, hm, htask⟩ := h
  refine ⟨m, hm, ?_⟩
  rw [Pool.task_apply]
  cases effect with
  | place task i =>
      have hi : m ≠ i := fun heq => htask (heq ▸ hplace task i rfl)
      simpa [Custody.apply, hi] using htask
  | finish i => exact absurd rfl (hfinish i)
  | discard i => exact absurd rfl (hdiscard i)
  | _ => exact htask

/-- A worker asleep beside an empty slot. -/
def ManagerIdle (state : PoolState) (m : ManagerId) : Prop :=
  (state.data.managers m).task = none ∧
    .worker m ∈ (state.monitor (.manager m)).waiters

theorem not_idle_of_occupied {size : Nat} {state : PoolState}
    (h : state.data.Occupied size) : ¬ ∀ m < size, ManagerIdle state m := by
  obtain ⟨m, hm, htask⟩ := h
  exact fun hidle => htask (hidle m hm).1

/-! ## Who sleeps where -/

/-- The points inside a `wait`. -/
theorem Point.waitsAt_cases {kind : Kind} {allowed : Method → Prop} {t : Tid} {p : Point}
    {m : MonitorId} (hfits : p.Fits kind allowed t) (hwaits : p.waitsAt t = some m) :
    (m = .dispatcher ∧ t = .dispatcher ∧ kind = .queuedThreadPool) ∨
    (m = .pool ∧ ∃ task, p = t.calling (some (.execute task .woken))) ∨
    ∃ i, m = .manager i ∧ t = .worker i ∧ p = .worker .woken := by
  have hcall : ∀ {call : Call}, call.waitsAt = some m →
      m = .pool ∧ ∃ task, call = .execute task .woken := by
    intro call h
    unfold Call.waitsAt at h
    split at h
    · next task => exact ⟨(Option.some.inj h).symm, task, rfl⟩
    · cases h
  cases t with
  | client c =>
      obtain ⟨call, rfl⟩ := Fits.client hfits
      cases call with
      | none => cases hwaits
      | some call =>
          obtain ⟨rfl, task, rfl⟩ := hcall hwaits
          exact .inr (.inl ⟨rfl, task, rfl⟩)
  | dispatcher =>
      obtain ⟨q, rfl⟩ := Fits.dispatcher hfits
      cases q with
      | wokenInner | wokenIdle => cases hwaits; exact .inl ⟨rfl, rfl, hfits nofun⟩
      | _ => cases hwaits
  | worker i =>
      obtain ⟨q, rfl⟩ := Fits.worker hfits
      cases q with
      | woken => cases hwaits; exact .inr (.inr ⟨i, rfl, rfl, rfl⟩)
      | running call =>
          cases call with
          | none => cases hwaits
          | some call =>
              obtain ⟨rfl, task, rfl⟩ := hcall hwaits
              exact .inr (.inl ⟨rfl, task, rfl⟩)
      | _ => cases hwaits

namespace Config

variable {cfg : Config} {pool : Pool} {t : Tid} {input : Input} {p : Point}
  {piece : Piece Point}

theorem Moves.wait_cases (hmoves : cfg.Moves pool t input p piece) {m : MonitorId}
    (hop : piece.op = .wait m) : piece.effect = none ∧
      ((m = .dispatcher ∧ ((∃ x, p = .dispatcher (.unassigned x)) ∨ pool.queue = [])) ∨
        (m = .pool ∧ ∃ task, p = t.calling (some (.execute task .failed))) ∨
        ∃ i, m = .manager i) := by
  cases hmoves with
  | enter => cases hop
  | call t call ht =>
      obtain ⟨task, rfl, rfl⟩ := Call.code_wait hop
      exact ⟨rfl, .inr (.inl ⟨rfl, task, rfl⟩)⟩
  | dispatcher hmoves =>
      cases hmoves with
      | waitInner x => cases hop; exact ⟨rfl, .inl ⟨rfl, .inl ⟨x, rfl⟩⟩⟩
      | waitIdle _ hqueue => cases hop; exact ⟨rfl, .inl ⟨rfl, .inr hqueue⟩⟩
      | assign t p => exact absurd hop (scan_not_wait (some t) p pool m)
      | add p | remove p => cases p <;> cases hop
      | _ => cases hop
  | worker i input hmoves =>
      cases hmoves with
      | wait => cases hop; exact ⟨rfl, .inr (.inr ⟨i, rfl⟩)⟩
      | add p | remove p => cases p <;> cases hop
      | _ => cases hop

/-- The dispatcher is awake, or it is about to sleep. -/
theorem Moves.awake_of_dispatcher (hmoves : cfg.Moves pool .dispatcher input p piece)
    (hfits : p.Fits cfg.kind (fun _ => True) .dispatcher) :
    piece.next.waitsAt .dispatcher = none ∨ piece.op = .wait .dispatcher := by
  obtain ⟨q, rfl⟩ := Point.Fits.dispatcher hfits
  generalize ht : Tid.dispatcher = t at hmoves
  generalize hq : Point.dispatcher q = place at hmoves
  cases hmoves with
  | enter | call => exact absurd hq.symm (Tid.calling_ne_dispatcher _ _ _)
  | worker => cases ht
  | dispatcher hmoves =>
      cases hmoves with
      | waitInner | waitIdle => exact .inr rfl
      | assign x p =>
          rcases hscan : scan (some x) p pool with ⟨op, effect, notify, next⟩
          refine .inl ?_
          simp only [Instr.map_next, QueuedThreadPool.assign, hscan]
          rcases next with q | taken
          · rfl
          · cases taken <;> rfl
      | offer x =>
          refine .inl ?_
          simp only [Instr.map_next]
          cases pool.taskList <;> rfl
      | add p | remove p => cases p <;> exact .inl rfl
      | _ => exact .inl rfl

/-- Slots become empty with an `idle_notification` only. -/
theorem Moves.occupied_after (hmoves : cfg.Moves pool t input p piece)
    (hgo : ∀ m, (pool.managers m).go = true) {size : Nat}
    (hnotify : piece.notify ≠ some (idleNotification cfg.kind)) (h : pool.Occupied size) :
    (piece.after pool).Occupied size := by
  cases heffect : piece.effect with
  | none => rwa [Piece.after_of_none heffect]
  | some effect =>
      rw [Piece.after_of_some heffect]
      have hannounces := hmoves.announces heffect
      refine h.apply hannounces.place (fun m heq => hnotify (hannounces.finish m heq))
        fun m heq => ?_
      exact absurd ((hgo m).symm.trans (hannounces.discard m heq)) nofun

/-- The queue is filled with a notification of the dispatcher only. -/
theorem Moves.queue_after_nil (hmoves : cfg.Moves pool t input p piece)
    (hnotify : piece.notify ≠ some .dispatcher) (h : pool.queue = []) :
    (piece.after pool).queue = [] := by
  cases heffect : piece.effect with
  | none => rwa [Piece.after_of_none heffect]
  | some effect =>
      rw [Piece.after_of_some heffect]
      show (pool.apply effect).custody.queue = []
      rw [Pool.custody_apply]
      exact Custody.queue_apply_nil h fun task heq =>
        hnotify ((hmoves.announces heffect).push task heq)

end Config

/-! ## The dispatcher -/

/-- The queue is not empty, but the dispatcher is asleep with no wake-up pending,
and so is every manager. -/
structure QueuedThreadPool.Stranded (cfg : Config) (state : PoolState) : Prop where
  queued : state.data.queue ≠ []
  asleep : .dispatcher ∈ (state.monitor .dispatcher).waiters
  idle : ∀ m < cfg.size, ManagerIdle state m

namespace Config

variable {cfg : Config} {guard : PoolState → PoolAction → Prop} {state : PoolState}

/-- The dispatcher sleeps beside an empty queue or an occupied slot. -/
theorem attends_dispatcher (hkind : cfg.kind = .queuedThreadPool)
    (hgo : ∀ state, Reaches cfg.program.step guard cfg.initial state →
      ∀ m, (state.data.managers m).go = true)
    (hsleep : ∀ state action, guard state action →
      Annotation.Respects (SleepsOccupied cfg.size) state action) :
    cfg.program.Attends .dispatcher
      (fun pool => pool.queue = [] ∨ pool.Occupied cfg.size)
      (fun t p => t = .dispatcher ∧ p.waitsAt t = none) guard cfg.initial := by
  have hserved : ∀ {state : PoolState} {t input choice piece},
      guard state (.run t input choice) →
      cfg.code t input (state.pc t) state.data = some piece → piece.op = .wait .dispatcher →
      (piece.after state.data).queue = [] ∨ (piece.after state.data).Occupied cfg.size := by
    intro state t input choice piece hallowed hcode hop
    obtain ⟨heffect, hsleeps⟩ := (code_moves hcode).wait_cases hop
    rw [Piece.after_of_none heffect]
    rcases hsleeps with ⟨-, ⟨x, hpoint⟩ | hqueue⟩ | ⟨hm, -⟩ | ⟨i, hm⟩
    · exact .inr (hsleep _ _ hallowed (by rw [hpoint]; rfl))
    · exact .inl hqueue
    · cases hm
    · cases hm
  have hawake : ∀ {state : PoolState} {input choice piece},
      Reaches cfg.program.step guard cfg.initial state →
      guard state (.run .dispatcher input choice) →
      cfg.code .dispatcher input (state.pc .dispatcher) state.data = some piece →
      (Tid.dispatcher = .dispatcher ∧ piece.next.waitsAt .dispatcher = none) ∨
        ((piece.after state.data).queue = [] ∨ (piece.after state.data).Occupied cfg.size) := by
    intro state input choice piece hrun hallowed hcode
    have hfits := (shape_of_reaches_any hrun).assertion .dispatcher
    rcases (code_moves hcode).awake_of_dispatcher hfits with hnext | hop
    · exact .inl ⟨rfl, hnext⟩
    · exact .inr (hserved hallowed hcode hop)
  refine ⟨fun {_ _ _ _ piece} _ hallowed hcode hop => ?_, ?_, ?_, ?_, ?_⟩
  · rw [dataAfter_eq]
    exact hserved hallowed hcode hop
  · intro state t input choice piece hrun hallowed hcode hawakened
    have hfits : (state.pc t).Fits cfg.kind (fun _ => True) t :=
      (shape_of_reaches_any hrun).assertion t
    rcases Point.waitsAt_cases hfits hawakened.1 with ⟨-, rfl, -⟩ | ⟨hm, -⟩ | ⟨i, hm, -⟩
    · obtain ⟨hop, -⟩ := (code_moves hcode).relocks hawakened.1
      rcases (code_moves hcode).awake_of_dispatcher hfits with hnext | hwait
      · exact .inl ⟨rfl, hnext⟩
      · cases hop.symm.trans hwait
    · cases hm
    · cases hm
  · rintro state t input choice piece hrun hallowed hcode ⟨rfl, -⟩
    rw [dataAfter_eq]
    exact hawake hrun hallowed hcode
  · intro state t input choice piece hrun hallowed hcode hnotify hserved
    rw [dataAfter_eq]
    rcases hserved with hqueue | hoccupied
    · exact .inl ((code_moves hcode).queue_after_nil hnotify hqueue)
    · refine .inr ((code_moves hcode).occupied_after (hgo _ hrun) ?_ hoccupied)
      rwa [hkind]
  · rintro state t hrun ⟨rfl, hnext⟩
    obtain ⟨q, hq⟩ := dispatcher_point (shape_of_reaches_any hrun)
    have hhandler : cfg.program.handler (state.pc .dispatcher) = state.pc .dispatcher := by
      rw [hq]
      rfl
    exact ⟨rfl, by rwa [hhandler]⟩

/-- No task is stranded: while the dispatcher falls asleep behind a failed `assign`
only beside an occupied slot, it is never left asleep with tasks in the queue and
nothing but idle managers. -/
theorem dispatcher_not_stranded (hkind : cfg.kind = .queuedThreadPool)
    (hshutdown : ∀ state action, guard state action →
      Annotation.Respects NoShutdown state action)
    (hsleep : ∀ state action, guard state action →
      Annotation.Respects (SleepsOccupied cfg.size) state action)
    (hrun : Reaches cfg.program.step guard cfg.initial state) :
    ¬ QueuedThreadPool.Stranded cfg state := by
  intro hstranded
  have hgo : ∀ state, Reaches cfg.program.step guard cfg.initial state →
      ∀ m, (state.data.managers m).go = true :=
    fun _ hprior => manager_go (undisturbed_of_reaches hshutdown hprior)
  have hlocked := locked_of_reaches hrun
  have hwaits := hlocked.waits .dispatcher .dispatcher hstranded.asleep
  rcases (attends_dispatcher hkind hgo hsleep).attended cfg.wellLocked cfg.locked_initial
    (.inl rfl) hrun with hnil | hserved | ⟨t, hwoken, hawake⟩ | ⟨t, rfl, hnone⟩
  · exact absurd (hnil ▸ hstranded.asleep) List.not_mem_nil
  · rcases hserved with hqueue | hoccupied
    · exact hstranded.queued hqueue
    · exact not_idle_of_occupied hoccupied hstranded.idle
  · have hfits : (state.pc t).Fits cfg.kind (fun _ => True) t :=
      (shape_of_reaches_any hrun).assertion t
    rcases Point.waitsAt_cases hfits hwoken with ⟨-, rfl, -⟩ | ⟨hm, -⟩ | ⟨i, hm, -⟩
    · exact hawake hstranded.asleep
    · cases hm
    · cases hm
  · exact absurd (hwaits.symm.trans hnone) nofun

/-- The rule applies when the dispatcher waits for the end of the task that occupies
the only slot. -/
theorem dispatcher_not_stranded_waiting : ∃ state : PoolState,
    .dispatcher ∈ (state.monitor .dispatcher).waiters ∧ state.data.queue = [some 2] ∧
      ¬ QueuedThreadPool.Stranded (Config.complete .queuedThreadPool 1) state := by
  let cfg := Config.complete .queuedThreadPool 1
  let guard (state : PoolState) (action : PoolAction) : Prop :=
    Annotation.Respects NoShutdown state action ∧
      Annotation.Respects (SleepsOccupied 1) state action
  obtain ⟨state, hrun, hobserved⟩ : ∃ state : PoolState,
      Reaches cfg.program.step guard cfg.initial state ∧
        ((state.monitor .dispatcher).waiters, state.data.queue) = ([.dispatcher], [some 2]) :=
    Reaches.of_observed
      (fun state action => decide <| Annotation.Respects NoShutdown state action ∧
        Annotation.Respects (SleepsOccupied 1) state action)
      (PoolAction.call (.client 0) (.execute (some 1)) :: PoolAction.steps (.client 0) 2 ++
        PoolAction.call (.client 0) (.execute (some 2)) :: PoolAction.steps (.client 0) 2 ++
        PoolAction.steps .dispatcher 15)
      (fun _ _ => of_decide_eq_true) (by decide +kernel)
  simp only [Prod.mk.injEq] at hobserved
  exact ⟨state, by simp [hobserved.1], hobserved.2,
    dispatcher_not_stranded rfl (fun _ _ h => h.1) (fun _ _ h => h.2) hrun⟩

/-- The notification of the only worker comes between the failed `assign` of the
dispatcher and its `wait()`: the second task stays in the queue of an idle pool. -/
theorem dispatcher_stranded :
    ∃ state : PoolState,
      Reaches (Config.complete .queuedThreadPool 1).program.step
        (fun state action => Contract state action ∧
          Annotation.Respects NoShutdown state action)
        (Config.complete .queuedThreadPool 1).initial state ∧
      QueuedThreadPool.Stranded (Config.complete .queuedThreadPool 1) state := by
  let cfg := Config.complete .queuedThreadPool 1
  obtain ⟨state, hrun, hobserved⟩ : ∃ state : PoolState,
      Reaches cfg.program.step (fun state action => Contract state action ∧
        Annotation.Respects NoShutdown state action) cfg.initial state ∧
        (state.data.queue, (state.monitor .dispatcher).waiters,
          (state.data.managers 0).task, (state.monitor (.manager 0)).waiters) =
        ([some 2], [.dispatcher], none, [.worker 0]) :=
    Reaches.of_observed
      (fun state action => decide (Contract state action ∧
        Annotation.Respects NoShutdown state action))
      (PoolAction.call (.client 0) (.execute (some 1)) :: PoolAction.steps (.client 0) 2 ++
        PoolAction.call (.client 0) (.execute (some 2)) :: PoolAction.steps (.client 0) 2 ++
        PoolAction.steps .dispatcher 14 ++ PoolAction.steps (.worker 0) 4 ++
        [PoolAction.finish 0, PoolAction.go (.worker 0), PoolAction.go .dispatcher])
      (fun _ _ => of_decide_eq_true) (by decide +kernel)
  simp only [Prod.mk.injEq] at hobserved
  obtain ⟨hqueue, hasleep, hslot, hworker⟩ := hobserved
  refine ⟨state, hrun, by simp [hqueue], by simp [hasleep], fun m hm => ?_⟩
  obtain rfl : m = 0 := Nat.lt_one_iff.mp hm
  exact ⟨hslot, by simp [hworker]⟩

end Config

end ThreadPools.Posix
