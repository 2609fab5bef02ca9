/-
# The work on tasks

What a worker knows of the task in its slot. A task in a slot has not been
started until its worker enters `run()`, and it leaves the slot when `run()` has
ended; a worker that has left its loop leaves an empty slot behind, because
nobody hands a task to a stopped manager. So a task is started at most once, and
only while it is in a slot.
-/

import ThreadPools.Posix.Ledger

namespace ThreadPools.Posix

open ThreadPools.Concurrency

/-- What the worker knows of the task in its slot. -/
def TaskManager.RunPoint.Works : TaskManager.RunPoint Call → Option Runnable →
    List Runnable → Prop
  | .running _, slot, started => ∃ x, slot = some x ∧ started.count x = 1
  | .remove _, slot, _ => slot = none
  | .exited, slot, _ => slot = none
  | _, slot, started => ∀ x, slot = some x → started.count x = 0

namespace TaskManager.RunPoint

variable {q : TaskManager.RunPoint Call} {slot : Option Runnable} {started next : List Runnable}

/-- Only the count of the task in the slot matters. -/
theorem Works.congr (h : q.Works slot started)
    (hcount : ∀ x, slot = some x → next.count x = started.count x) : q.Works slot next := by
  cases q with
  | running call =>
      obtain ⟨x, hslot, hone⟩ := h
      exact ⟨x, hslot, (hcount x hslot).trans hone⟩
  | remove | exited => exact h
  | _ => exact fun x hslot => (hcount x hslot).trans (h x hslot)

/-- A worker that may still look into its slot finds there what it is given. -/
theorem Works.filled (h : q.Works none started) {manager : ManagerLife}
    (hcontrol : q.Control manager) (hgo : manager.go = true)
    (hstatus : manager.status = .running)
    (hfresh : ∀ x, slot = some x → started.count x = 0) : q.Works slot started := by
  cases q with
  | running call =>
      obtain ⟨x, hslot, -⟩ := h
      cases hslot
  | remove => exact absurd (hgo.symm.trans hcontrol.2) nofun
  | exited => exact absurd (hgo.symm.trans (hcontrol hstatus)) nofun
  | _ => exact hfresh

end TaskManager.RunPoint

namespace Config

variable {cfg : Config} {pool : Pool} {t other : Tid} {p next : Point} {e : Effect}

/-- A task goes for the first time into a slot, and the slot is empty. -/
theorem Handles.places {task : Option Runnable} {m : ManagerId}
    (hhandles : cfg.Handles pool t p next (some (.place task m)))
    (hcarries : pool.custody.Carries cfg.kind t p.carried)
    (hbalanced : pool.custody.Balanced cfg.kind cfg.size)
    (hordered : cfg.kind = .queuedThreadPool → p.Ordered cfg.size t pool) :
    pool.Serves cfg.size m ∧ (pool.managers m).task = none ∧
      ∀ x, task = some x → pool.custody.placed.count (some x) = 0 := by
  cases hhandles with
  | silent _ hsilent => exact absurd (hsilent _ rfl) Effect.not_silent_place
  | place _ _ _ hkind hserves _ _ hslot =>
      refine ⟨hserves, hslot, fun x hx => ?_⟩
      have htaken := (hcarries.takes x hx).1
      simp only [Custody.taken, Custody.accepted, hkind] at htaken
      omega
  | dispatch x _ rest _ hkind hserves hp _ hslot =>
      refine ⟨hserves, hslot, ?_⟩
      rintro _ ⟨⟩
      have hq := (hordered hkind).dispatches _ hp
      obtain ⟨tail, hqueue⟩ := hq.cons rfl
      have horder := hq.order
      have hone := hbalanced.taken_le_one x
      rw [QueuedThreadPool.RunPoint.waiting_eq (p := .assign _ _) (by rintro _ ⟨⟩),
        hqueue] at horder
      simp only [Custody.taken, Custody.accepted, hkind, horder, List.count_append,
        List.count_cons_self] at hone
      omega

variable (cfg)

/-- What the workers know of their tasks. -/
def work : Annotation Tid MonitorId Pool Point where
  assertion t p pool := ∀ m q, t = .worker m → p = .worker q → m < cfg.size →
    q.Works (pool.managers m).task pool.log.started
  resource _ _ := True
  invariant pool := ∀ x, pool.log.started.count x ≤ pool.custody.placed.count (some x) ∧
    pool.log.finished.count x ≤ pool.log.started.count x

/-- What is established before the work on tasks. -/
def accounting : Annotation Tid MonitorId Pool Point := cfg.discipline.and cfg.ledger

variable {cfg}

/-- Only the worker handles the task in its slot. -/
theorem Handles.own {i : ManagerId} (hhandles : cfg.Handles pool t p next (some e))
    (hown : e.Own i) : t = .worker i ∧
      (p = .worker .loop ∨ p = .worker (.running none) ∧ next = .worker .inner) := by
  cases hhandles with
  | silent _ hsilent => exact absurd hown ((hsilent e rfl).not_own i)
  | begin m ht hm hp =>
      rcases hown with h | h | h <;> cases h
      exact ⟨ht, .inl hp⟩
  | finish m ht hm hp hnext =>
      rcases hown with h | h | h <;> cases h
      exact ⟨ht, .inr ⟨hp, hnext⟩⟩
  | discard m ht hm hp =>
      rcases hown with h | h | h <;> cases h
      exact ⟨ht, .inl hp⟩
  | _ => rcases hown with h | h | h <;> cases h

/-- What a worker knows is not disturbed while it does not handle its task. -/
theorem Handles.works (hhandles : cfg.Handles pool t p next (some e))
    (hcarries : pool.custody.Carries cfg.kind t p.carried)
    (hbalanced : pool.custody.Balanced cfg.kind cfg.size)
    (hordered : cfg.kind = .queuedThreadPool → p.Ordered cfg.size t pool)
    (hstarted : ∀ x, pool.log.started.count x ≤ pool.custody.placed.count (some x))
    {i : ManagerId} (hi : i < cfg.size) (hown : ¬ e.Own i) {q : TaskManager.RunPoint Call}
    (hcontrol : q.Control (pool.life.manager i))
    (hworks : q.Works (pool.managers i).task pool.log.started) :
    q.Works ((pool.apply e).managers i).task (pool.apply e).log.started := by
  have hplace : ∀ task m, e = .place task m →
      q.Works ((pool.custody.apply e).slot i) (pool.apply e).log.started := by
    rintro task m rfl
    obtain ⟨⟨-, hgo, hstatus⟩, hslot, hfresh⟩ :=
      hhandles.places hcarries hbalanced hordered
    by_cases hm : i = m
    · subst hm
      show q.Works (Function.update pool.custody.slot i task i) pool.log.started
      rw [Function.update_self]
      rw [hslot] at hworks
      exact hworks.filled hcontrol hgo hstatus fun x hx =>
        Nat.le_zero.mp (hfresh x hx ▸ hstarted x)
    · show q.Works (Function.update pool.custody.slot m task i) pool.log.started
      rw [Function.update_of_ne hm]
      exact hworks
  have hclear : ∀ m, i ≠ m →
      q.Works (Function.update pool.custody.slot m none i) pool.log.started := by
    intro m hm
    rw [Function.update_of_ne hm]
    exact hworks
  rw [Pool.task_apply]
  cases hhandles with
  | silent _ hsilent =>
      obtain ⟨hcustody, hbegin⟩ := hsilent e rfl
      rw [hcustody, Pool.started_apply hbegin]
      exact hworks
  | place m | dispatch task m => exact hplace _ m rfl
  | begin m ht hm hp hnext hslot =>
      obtain ⟨x, hx⟩ := Option.ne_none_iff_exists'.mp hslot
      refine hworks.congr fun y hy => ?_
      have hxy : x ≠ y := by
        rintro rfl
        exact hown (.inl (congrArg Effect.begin (hbalanced.slot_unique hm hi hx hy)))
      show (pool.log.started ++ (pool.managers m).task.toList).count y = _
      rw [hx, List.count_append, count_toList, if_neg (by simpa using hxy), Nat.add_zero]
  | finish m => exact hclear m fun heq => hown (.inr (.inl (congrArg Effect.finish heq.symm)))
  | discard m => exact hclear m fun heq => hown (.inr (.inr (congrArg Effect.discard heq.symm)))
  | _ => exact hworks

/-- A worker keeps an account of its own task. -/
theorem Moves.works {input : Input} {piece : Piece Point} {i : ManagerId}
    (hmoves : cfg.Moves pool (.worker i) input p piece)
    (hhandles : cfg.Handles pool (.worker i) p piece.next piece.effect)
    (hcarries : pool.custody.Carries cfg.kind (.worker i) p.carried)
    (hbalanced : pool.custody.Balanced cfg.kind cfg.size)
    (hordered : cfg.kind = .queuedThreadPool → p.Ordered cfg.size (.worker i) pool)
    (hstarted : ∀ x, pool.log.started.count x ≤ pool.custody.placed.count (some x))
    (hi : i < cfg.size) (hcontrol : p.Control cfg.size (.worker i) pool.life)
    (hworks : ∀ q, p = .worker q → q.Works (pool.managers i).task pool.log.started)
    {q : TaskManager.RunPoint Call} (hq : piece.next = .worker q) :
    q.Works ((piece.after pool).managers i).task (piece.after pool).log.started := by
  -- in a call the worker goes on running its task
  have hcalls : ∀ call next : Option Call, p = .worker (.running call) →
      piece.next = .worker (.running next) → (∀ e, piece.effect = some e → ¬ e.Own i) →
      q.Works ((piece.after pool).managers i).task (piece.after pool).log.started := by
    rintro call next rfl hnext hown
    cases hq.symm.trans hnext
    have hrunning := hworks (.running call) rfl
    cases heffect : piece.effect with
    | none =>
        rw [Piece.after_of_none heffect]
        exact hrunning
    | some e =>
        rw [Piece.after_of_some heffect]
        rw [heffect] at hhandles
        exact hhandles.works (q := .running call) hcarries hbalanced hordered hstarted hi
          (hown e heffect) (hcontrol.1 hi) hrunning
  generalize ht : Tid.worker i = t at hmoves
  cases hmoves with
  | enter t method call hne hentry =>
      subst ht
      refine hcalls none (some call) rfl rfl fun e heffect hown => ?_
      rw [heffect] at hhandles
      rcases (hhandles.own hown).2 with h | ⟨-, h⟩ <;> cases h
  | call t call hne =>
      subst ht
      have hown : ∀ e, (call.code pool).effect = some e → ¬ e.Own i := by
        intro e heffect hown
        rw [Instr.map_effect, heffect] at hhandles
        rcases (hhandles.own hown).2 with h | ⟨h, -⟩ <;> cases h
      cases hnext : (call.code pool).next with
      | inl next =>
          exact hcalls (some call) (some next) rfl
            (by rw [Instr.map_next, hnext]; rfl) hown
      | inr => exact hcalls (some call) none rfl (by rw [Instr.map_next, hnext]; rfl) hown
  | dispatcher => cases ht
  | worker m input hmoves =>
      cases ht
      cases hq
      have hemptied : ((pool.deleteTask i).managers i).task = none := by
        simp [Pool.deleteTask]
      have hbefore := hworks _ rfl
      cases hmoves with
      | add p => cases p <;> exact hbefore
      | remove p => cases p <;> exact hbefore
      | begin hgo htask =>
          obtain ⟨x, hx⟩ := Option.ne_none_iff_exists'.mp htask
          refine ⟨x, hx, ?_⟩
          show (pool.log.started ++ (pool.managers i).task.toList).count x = 1
          rw [hx, List.count_append, hbefore x hx, count_toList, if_pos rfl]
      | discard => exact hemptied
      | finish =>
          intro x hx
          cases hemptied.symm.trans hx
      | leave hgo htask => exact htask
      | enter | skip | wait | again | woken => exact hbefore

/-- No task is started which has not been placed, nor ends before it is started. -/
theorem Handles.started_le (hhandles : cfg.Handles pool t p next (some e))
    (hbalanced : pool.custody.Balanced cfg.kind cfg.size)
    (hworks : ∀ m q, t = .worker m → p = .worker q → m < cfg.size →
      q.Works (pool.managers m).task pool.log.started)
    (hle : ∀ x, pool.log.started.count x ≤ pool.custody.placed.count (some x) ∧
      pool.log.finished.count x ≤ pool.log.started.count x) (x : Runnable) :
    (pool.apply e).log.started.count x ≤ (pool.custody.apply e).placed.count (some x) ∧
      (pool.custody.apply e).finished.count x ≤ (pool.apply e).log.started.count x := by
  have hplaced : ∀ m y, m < cfg.size → (pool.managers m).task = some y →
      pool.custody.placed.count (some y) = 1 ∧ pool.log.finished.count y = 0 := by
    intro m y hm hslot
    have hpos : 0 < pool.custody.slots cfg.size y := occurrences_pos hm hslot
    have hone := hbalanced.taken_le_one y
    have hbooks := hbalanced.placed y
    have hdispatched := hbalanced.dispatched y
    show _ ∧ pool.custody.finished.count y = 0
    unfold Custody.taken at hone
    omega
  have hx := hle x
  cases hhandles with
  | silent _ hsilent =>
      obtain ⟨hcustody, hbegin⟩ := hsilent e rfl
      rw [hcustody, Pool.started_apply hbegin]
      exact hx
  | place m | dispatch task m =>
      refine ⟨Nat.le_trans hx.1 ?_, hx.2⟩
      exact (List.sublist_append_left _ _).count_le _
  | begin m ht hm hp hnext hslot =>
      obtain ⟨y, hy⟩ := Option.ne_none_iff_exists'.mp hslot
      have hzero := hworks m _ ht hp hm y hy
      have hone := (hplaced m y hm hy).1
      show (pool.log.started ++ (pool.managers m).task.toList).count x ≤ _ ∧
        _ ≤ (pool.log.started ++ (pool.managers m).task.toList).count x
      rw [hy, List.count_append, count_toList]
      refine ⟨?_, Nat.le_trans hx.2 (Nat.le_add_right _ _)⟩
      split
      · next heq =>
          cases heq
          show _ ≤ pool.custody.placed.count _
          omega
      · exact hx.1
  | finish m ht hm hp =>
      obtain ⟨y, hy, hone⟩ := hworks m _ ht hp hm
      have hzero := (hplaced m y hm hy).2
      refine ⟨hx.1, ?_⟩
      show (pool.log.finished ++ (pool.managers m).task.toList).count x ≤ pool.log.started.count x
      rw [hy, List.count_append, count_toList]
      split
      · next heq =>
          cases heq
          omega
      · exact hx.2
  | _ => exact hx

theorem work_valid :
    Annotation.Valid cfg.program cfg.accounting cfg.work SubmitsFresh where
  assertion {t input p pool piece} hbefore husage := by
    obtain ⟨⟨⟨⟨hfits, hcontrol⟩, -, hordered⟩, hcarries⟩, hworks⟩ := hbefore.assertion
    obtain ⟨⟨⟨⟨-, hwell⟩, -⟩, hbalanced⟩, hle⟩ := hbefore.invariant
    have hmoves := code_moves hbefore.code
    have hhandles := hmoves.handles hfits hcontrol hwell husage
    rw [dataAfter_eq]
    rintro m q rfl hq hm
    exact hmoves.works hhandles hcarries hbalanced hordered (fun x => (hle x).1) hm hcontrol
      (fun q hp => hworks m q rfl hp hm) hq
  release _ _ _ _ := trivial
  invariant {t input p pool piece e} hbefore husage heffect := by
    obtain ⟨⟨⟨⟨hfits, hcontrol⟩, -, hordered⟩, hcarries⟩, hworks⟩ := hbefore.assertion
    obtain ⟨⟨⟨⟨-, hwell⟩, -⟩, hbalanced⟩, hle⟩ := hbefore.invariant
    have hhandles := (code_moves hbefore.code).handles hfits hcontrol hwell husage
    rw [heffect] at hhandles
    intro x
    show (pool.apply e).log.started.count x ≤ (pool.apply e).custody.placed.count (some x) ∧
      (pool.apply e).custody.finished.count x ≤ (pool.apply e).log.started.count x
    rw [Pool.custody_apply]
    exact hhandles.started_le hbalanced hworks hle x
  frame {t input p pool piece e other place} hbefore husage heffect hne hother hdisjoint _ := by
    obtain ⟨⟨⟨⟨hfits, hcontrol⟩, -, hordered⟩, hcarries⟩, -⟩ := hbefore.assertion
    obtain ⟨⟨⟨⟨-, hwell⟩, -⟩, hbalanced⟩, hle⟩ := hbefore.invariant
    have hhandles := (code_moves hbefore.code).handles hfits hcontrol hwell husage
    rw [heffect] at hhandles
    rintro m q rfl rfl hm
    refine hhandles.works hcarries hbalanced hordered (fun x => (hle x).1) hm
      (fun hown => ?_) (hother.1.1.1.2.1 hm) (hother.2 m q rfl rfl hm)
    exact hne (hhandles.own hown).1.symm
  frame_resource _ _ _ _ _ _ _ := trivial
  raise {t input p pool piece} m hcode _ hassertion hop hheld := by
    obtain ⟨⟨⟨⟨hfits, -⟩, havoids, -⟩, -⟩, hworks⟩ := hassertion
    have hsame : cfg.program.handler p = p :=
      handler_eq_of_avoiding hcode hfits havoids hop hheld
    exact ⟨hsame.symm ▸ hworks, fun _ _ _ => trivial⟩

theorem work_initial : cfg.work.Holds cfg.initial where
  assertion t := by
    rintro m q rfl hq hm
    change cfg.initialPoint (.worker m) = .worker q at hq
    simp only [initialPoint] at hq
    split at hq <;> cases hq
    · rintro _ ⟨⟩
    · rfl
  resource _ _ := trivial
  invariant := fun x => ⟨Nat.le_refl 0, Nat.le_refl 0⟩

variable {guard : PoolState → PoolAction → Prop} {state : PoolState}

theorem accounting_of_reaches (hguard : cfg.Disciplined guard)
    (hfresh : ∀ state action, guard state action →
      Annotation.Respects SubmitsFresh state action)
    (hrun : Reaches cfg.program.step guard cfg.initial state) :
    cfg.accounting.Holds state :=
  (discipline_of_reaches hguard hrun).and (ledger_of_reaches hguard hfresh hrun)

/-- The workers' accounts are right in every state of every run. -/
theorem work_of_reaches (hguard : cfg.Disciplined guard)
    (hfresh : ∀ state action, guard state action →
      Annotation.Respects SubmitsFresh state action)
    (hrun : Reaches cfg.program.step guard cfg.initial state) :
    cfg.work.Holds state :=
  work_valid.holds cfg.wellLocked (fun _ _ _ h => hfresh _ _ h) cfg.locked_initial
    (fun _ hprior => accounting_of_reaches hguard hfresh hprior) work_initial hrun

end Config

end ThreadPools.Posix
