/-
# The ledger of tasks

What the threads know of the custody of tasks. A caller of `execute` knows that
its task has not been taken until the piece of code that takes it; only empty
slots of managers which take tasks are filled, and the dispatcher fills them
with tasks that still wait. With this every piece of code keeps the books
balanced.
-/

import ThreadPools.Posix.Dispatching
import ThreadPools.Posix.Reaching

namespace ThreadPools.Posix

open ThreadPools.Concurrency

/-! ## What a thread does with tasks -/

/-- The manager takes tasks: its worker will look into the slot. -/
def Pool.Serves (size : Nat) (pool : Pool) (m : ManagerId) : Prop :=
  m < size ∧ (pool.managers m).go = true ∧ (pool.managers m).status = .running

/-- A piece of code of a thread, seen from the tasks. -/
inductive Config.Handles (cfg : Config) (pool : Pool) (t : Tid) (p next : Point) :
    Option Effect → Prop
  | silent (effect) (hsilent : ∀ e ∈ effect, e.Silent)
      (hcarried : next.carried = p.carried) : Handles cfg pool t p next effect
  | submit (task) (ht : t ≠ .dispatcher) (hp : p.carried = none)
      (hnext : next.carried = some task)
      (hfresh : task ∉ pool.custody.submitted.map Prod.fst) :
      Handles cfg pool t p next (some (.submit task t))
  | reject (ht : t ≠ .dispatcher) (hnext : next.carried = none)
      (hempty : pool.taskList = []) :
      Handles cfg pool t p next (some (.reject p.carried))
  | push (ht : t ≠ .dispatcher) (hnext : next.carried = none)
      (hkind : cfg.kind = .queuedThreadPool) (hgo : pool.go = true)
      (hheld : .dispatcher ∈ p.held t) :
      Handles cfg pool t p next (some (.push p.carried))
  | place (m) (ht : t ≠ .dispatcher) (hnext : next.carried = none)
      (hkind : cfg.kind = .threadPool) (hserves : pool.Serves cfg.size m)
      (hpool : .pool ∈ p.held t) (hheld : .manager m ∈ p.held t)
      (hslot : (pool.managers m).task = none) :
      Handles cfg pool t p next (some (.place p.carried m))
  | dispatch (task m rest) (ht : t = .dispatcher)
      (hkind : cfg.kind = .queuedThreadPool) (hserves : pool.Serves cfg.size m)
      (hp : p = .dispatcher (.assign task (.setTask m rest .body)))
      (hnext : next = .dispatcher (.assigned task))
      (hslot : (pool.managers m).task = none) :
      Handles cfg pool t p next (some (.place (some task) m))
  | pop (task) (ht : t = .dispatcher) (hp : p = .dispatcher (.assigned task))
      (hnext : next = .dispatcher .outer) : Handles cfg pool t p next (some .pop)
  | begin (m) (ht : t = .worker m) (hm : m < cfg.size) (hp : p = .worker .loop)
      (hnext : next = .worker (.running none)) (hslot : (pool.managers m).task ≠ none) :
      Handles cfg pool t p next (some (.begin m))
  | finish (m) (ht : t = .worker m) (hm : m < cfg.size)
      (hp : p = .worker (.running none)) (hnext : next = .worker .inner) :
      Handles cfg pool t p next (some (.finish m))
  | discard (m) (ht : t = .worker m) (hm : m < cfg.size) (hp : p = .worker .loop)
      (hgo : (pool.managers m).go = false) (hnext : next = .worker (.remove .lock)) :
      Handles cfg pool t p next (some (.discard m))
  | emptyQueue (ht : t ≠ .dispatcher) (hkind : cfg.kind = .queuedThreadPool)
      (hclosed : pool.life.Closed) (hstatus : pool.status ≠ .running)
      (hp : p.carried = none) (hnext : next.carried = none) :
      Handles cfg pool t p next (some .emptyQueue)

namespace Config.Handles

variable {cfg : Config} {pool : Pool} {t : Tid} {p next : Point}

/-- A piece of code without an effect. -/
theorem still (hcarried : next.carried = p.carried) : cfg.Handles pool t p next none :=
  .silent none nofun hcarried

theorem of_silent {effect : Effect} (hsilent : effect.Silent)
    (hcarried : next.carried = p.carried) : cfg.Handles pool t p next (some effect) :=
  .silent _ (fun _ he => Option.some.inj he ▸ hsilent) hcarried

end Config.Handles

namespace Life

/-- A manager under inspection takes tasks. -/
theorem serves {size : Nat} {pool : Pool} {m : ManagerId} {rest : List ManagerId}
    (hwell : pool.life.WellFormed size) (hintact : pool.life.Intact)
    (hsuffix : m :: rest <:+ pool.life.taskList)
    (hstatus : (pool.life.manager m).status = .running) : pool.Serves size m := by
  have hm : m ∈ pool.life.taskList := hsuffix.mem List.mem_cons_self
  exact ⟨hwell.lt_size hm, (hintact m hm).1, hstatus⟩

end Life

namespace Config

variable {cfg : Config}

theorem Moves.handles {pool : Pool} {t : Tid} {input : Input} {p : Point}
    {piece : Piece Point} (hmoves : cfg.Moves pool t input p piece)
    (hfits : p.Fits cfg.kind mayExecute t) (hcontrol : p.Control cfg.size t pool.life)
    (hwell : pool.life.WellFormed cfg.size) (husage : SubmitsFresh t input p pool) :
    cfg.Handles pool t p piece.next piece.effect := by
  cases hmoves with
  | enter t method call ht hentry =>
      rcases Call.entered_cases hentry t with
        ⟨task, rfl, heffect, hcarried⟩ | ⟨hcarried, hsilent⟩
      · have hfresh : task ∉ pool.custody.submitted.map Prod.fst := by
          intro hmem
          obtain ⟨⟨x, submitter⟩, hprior, rfl⟩ := List.mem_map.mp hmem
          exact husage x rfl submitter hprior
        simp only [heffect]
        exact .submit task ht (t.carried_calling none)
          ((t.carried_calling (some call)).trans hcarried) hfresh
      · exact .silent _ hsilent (((t.carried_calling (some call)).trans hcarried).trans
          (t.carried_calling none).symm)
  | call t call ht =>
      obtain ⟨hkind, -⟩ := (fits_calling ht).mp hfits call rfl
      have hcall := ((Tid.control_calling ht).mp hcontrol).1 call rfl
      have hbody := Call.code_handles call pool
      have hbefore : (t.calling (some call)).carried = call.carried := t.carried_calling _
      have hheld : ∀ m ∈ call.held, m ∈ (t.calling (some call)).held t := fun m hm => by
        rw [Tid.held_calling ht]
        exact List.mem_append_left _ hm
      have hnext : ((call.code pool).next.elim (t.calling ∘ some) fun _ => t.calling none).carried =
          (call.code pool).next.elim Call.carried fun _ => none := by
        cases (call.code pool).next with
        | inl next => exact t.carried_calling _
        | inr => exact t.carried_calling _
      simp only [Instr.map_next, Instr.map_effect]
      generalize (call.code pool).effect = effect at hbody
      generalize ((call.code pool).next.elim Call.carried fun _ => none) = carried at hbody hnext
      cases hbody with
      | silent effect hsilent hcarried =>
          exact .silent _ hsilent ((hnext.trans hcarried).trans hbefore.symm)
      | reject hcarried hempty hstopped =>
          rw [← hbefore]
          refine .reject ht (hnext.trans hcarried) ?_
          cases hcallKind : call.kind with
          | threadPool => exact hempty hcallKind
          | queuedThreadPool =>
              obtain ⟨hgo, hpoint⟩ := hstopped hcallKind
              rw [hpoint] at hcall
              exact (hcall rfl).2.resolve_left (by simp [hgo])
      | push hcarried hpoint hgo =>
          have hqueued : call.kind = .queuedThreadPool := by rw [hpoint]; rfl
          have hmem : .dispatcher ∈ call.held := by rw [hpoint]; exact List.mem_cons_self
          rw [← hbefore]
          exact .push ht (hnext.trans hcarried) (hkind.symm.trans hqueued) hgo (hheld _ hmem)
      | place m rest hcarried hpoint hslot =>
          have hplain : cfg.kind = .threadPool := by
            rw [hpoint] at hkind
            exact hkind.symm
          have hmem : .manager m ∈ call.held ∧ .pool ∈ call.held := by
            rw [hpoint]
            simp [Call.held, ThreadPool.ExecutePoint.held, ScanPoint.held, Section.held]
          rw [hpoint] at hcall
          rw [← hbefore]
          exact .place m ht (hnext.trans hcarried) hplain
            (Life.serves hwell hcall.1 hcall.2.1 hcall.2.2) (hheld _ hmem.2) (hheld _ hmem.1) hslot
      | emptyQueue hcarried hpoint =>
          subst hpoint
          exact .emptyQueue ht hkind.symm hcall.1 hcall.2 hbefore (hnext.trans hcarried)
  | dispatcher hmoves =>
      have hkind : cfg.kind = .queuedThreadPool := hfits hmoves.not_exited
      cases hmoves with
      | assign task p =>
          have hscan := scan_moves (some task) p pool
          show cfg.Handles pool .dispatcher (.dispatcher (.assign task p))
            (.dispatcher (.scanned task (scan (some task) p pool).next))
            (scan (some task) p pool).effect
          generalize scan (some task) p pool = piece at hscan
          cases hscan with
          | taken m rest htask =>
              exact .dispatch task m rest rfl hkind
                (Life.serves hwell hcontrol.2.1.1 hcontrol.2.2.2.1 hcontrol.2.2.2.2)
                rfl rfl htask
          | _ => exact .still rfl
      | pop task => exact .pop task rfl rfl rfl
      | add p | remove p =>
          cases p with
          | lock => exact .still rfl
          | body => exact .of_silent ⟨fun _ => rfl, by rintro _ ⟨⟩⟩ rfl
      | _ => exact .still rfl
  | worker m input hmoves =>
      have hm : m < cfg.size :=
        Nat.not_le.mp fun hle => hmoves.not_exited (hcontrol.2.1 hle)
      cases hmoves with
      | finish => exact .finish m rfl hm rfl rfl
      | discard hgo => exact .discard m rfl hm rfl hgo rfl
      | begin hgo htask => exact .begin m rfl hm rfl rfl htask
      | add p | remove p =>
          cases p with
          | lock => exact .still rfl
          | body => exact .of_silent ⟨fun _ => rfl, by rintro _ ⟨⟩⟩ rfl
      | _ => exact .still rfl

end Config

/-! ## What a thread knows of the tasks -/

/-- A caller still holds its task as long as `execute` has not taken it, and its
earlier tasks have been taken. -/
structure Custody.Carries (kind : Kind) (custody : Custody) (t : Tid)
    (carried : Option Runnable) : Prop where
  submitted : ∀ x, carried = some x → (x, t) ∈ custody.submitted
  taken : ∀ x, (x, t) ∈ custody.submitted →
    custody.taken kind x = if carried = some x then 0 else 1

namespace Custody

variable {kind : Kind} {custody : Custody} {t other : Tid} {carried : Option Runnable}

theorem Carries.takes (h : custody.Carries kind t carried) :
    Balanced.Takes kind custody carried := by
  intro x hx
  have hmem := h.submitted x hx
  refine ⟨?_, List.mem_map_of_mem hmem⟩
  rw [h.taken x hmem, if_pos hx]

/-- Two threads do not submit the same task. -/
theorem submitter_unique (h : (custody.submitted.map Prod.fst).Nodup) {x : Runnable}
    (hfirst : (x, t) ∈ custody.submitted) (hsecond : (x, other) ∈ custody.submitted) :
    t = other := by
  have heq := List.inj_on_of_nodup_map h hfirst hsecond rfl
  exact congrArg Prod.snd heq

/-- Taking a task from one caller is no matter of the others. -/
theorem Carries.of_other {next : Custody} {task : Option Runnable}
    (h : custody.Carries kind other carried) (hne : other ≠ t)
    (hnodup : (custody.submitted.map Prod.fst).Nodup)
    (htask : ∀ x, task = some x → (x, t) ∈ custody.submitted)
    (hsubmitted : next.submitted = custody.submitted)
    (htaken : ∀ x, next.taken kind x = custody.taken kind x + task.toList.count x) :
    next.Carries kind other carried where
  submitted x hx := hsubmitted ▸ h.submitted x hx
  taken x hx := by
    rw [hsubmitted] at hx
    have hother : task ≠ some x := fun heq =>
      hne (submitter_unique hnodup hx (htask x heq))
    rw [htaken, h.taken x hx, count_toList, if_neg hother, Nat.add_zero]

/-- Behind the piece of code that takes it the caller's task has been taken. -/
theorem Carries.hand_over {next : Custody} (h : custody.Carries kind t carried)
    (hsubmitted : next.submitted = custody.submitted)
    (htaken : ∀ x, next.taken kind x = custody.taken kind x + carried.toList.count x) :
    next.Carries kind t none where
  submitted _ := nofun
  taken x hx := by
    rw [hsubmitted] at hx
    rw [htaken, h.taken x hx, count_toList]
    split <;> rfl

/-- Nothing changes for a caller while no task is taken. -/
theorem Carries.congr {next : Custody} (h : custody.Carries kind t carried)
    (hsubmitted : next.submitted = custody.submitted)
    (htaken : ∀ x, next.taken kind x = custody.taken kind x) : next.Carries kind t carried where
  submitted x hx := hsubmitted ▸ h.submitted x hx
  taken x hx := by
    rw [hsubmitted] at hx
    rw [htaken, h.taken x hx]

end Custody

namespace Config

variable {cfg : Config} {pool : Pool} {t other : Tid} {p next : Point}
  {effect : Option Effect} {e : Effect}

/-- Every piece of code establishes what its thread knows as a caller. -/
theorem Handles.carries (hhandles : cfg.Handles pool t p next effect)
    (h : pool.custody.Carries cfg.kind t p.carried)
    (hbalanced : pool.custody.Balanced cfg.kind cfg.size) {custody : Custody}
    (hcustody : custody = effect.elim pool.custody (Custody.apply · pool.custody)) :
    custody.Carries cfg.kind t next.carried := by
  subst hcustody
  cases hhandles with
  | silent effect hsilent hcarried =>
      rw [hcarried]
      cases effect with
      | none => exact h
      | some e =>
          rw [Option.elim_some, (hsilent e rfl).1]
          exact h
  | submit task ht hp hnext hfresh =>
      have hzero : pool.custody.taken cfg.kind task = 0 :=
        Nat.le_zero.mp (List.count_eq_zero.mpr hfresh ▸ hbalanced.taken task)
      rw [hnext]
      refine ⟨fun x hx => ?_, fun x hx => ?_⟩
      · cases hx
        exact List.mem_append_right _ (List.mem_singleton.mpr rfl)
      · rcases List.mem_append.mp hx with hx | hx
        · have hne : task ≠ x := fun heq => hfresh (heq ▸ List.mem_map_of_mem hx)
          have htaken := h.taken x hx
          rw [hp, if_neg nofun] at htaken
          rw [if_neg (by simpa using hne)]
          exact htaken
        · cases List.mem_singleton.mp hx
          rw [if_pos rfl]
          exact hzero
  | reject ht hnext =>
      rw [hnext]
      exact h.hand_over rfl (Custody.Balanced.taken_reject _ _ _)
  | push ht hnext hkind =>
      rw [hnext]
      rw [hkind] at h ⊢
      exact h.hand_over rfl (Custody.Balanced.taken_push _ _)
  | place m ht hnext hkind =>
      rw [hnext]
      rw [hkind] at h ⊢
      exact h.hand_over rfl (Custody.Balanced.taken_place _ _ m)
  | dispatch task m rest ht hkind hserves hp hnext =>
      subst hp hnext
      rw [hkind] at h ⊢
      exact h.congr rfl fun _ => rfl
  | pop task ht hp hnext =>
      subst hp hnext
      exact h.congr rfl fun _ => by cases cfg.kind <;> rfl
  | begin m ht hm hp hnext =>
      subst hp hnext
      exact h.congr rfl fun _ => by cases cfg.kind <;> rfl
  | finish m ht hm hp hnext =>
      subst hp hnext
      exact h.congr rfl fun _ => by cases cfg.kind <;> rfl
  | discard m ht hm hp hgo hnext =>
      subst hp hnext
      exact h.congr rfl fun _ => by cases cfg.kind <;> rfl
  | emptyQueue ht hkind hclosed hstatus hp hnext =>
      rw [hnext, ← hp]
      exact h.congr rfl fun _ => by cases cfg.kind <;> rfl

/-- No step disturbs what another thread knows as a caller. -/
theorem Handles.carries_other (hhandles : cfg.Handles pool t p next (some e))
    (h : pool.custody.Carries cfg.kind t p.carried)
    (hbalanced : pool.custody.Balanced cfg.kind cfg.size) (hne : other ≠ t)
    {carried : Option Runnable} (hother : pool.custody.Carries cfg.kind other carried) :
    (pool.custody.apply e).Carries cfg.kind other carried := by
  cases hhandles with
  | silent effect hsilent =>
      rw [(hsilent e rfl).1]
      exact hother
  | submit task =>
      refine ⟨fun x hx => List.mem_append_left _ (hother.submitted x hx), fun x hx => ?_⟩
      rcases List.mem_append.mp hx with hx | hx
      · exact hother.taken x hx
      · cases List.mem_singleton.mp hx
        exact absurd rfl hne
  | reject =>
      exact hother.of_other hne hbalanced.submitted h.submitted rfl
        (Custody.Balanced.taken_reject _ _ _)
  | push ht hnext hkind =>
      rw [hkind] at hother ⊢
      exact hother.of_other hne hbalanced.submitted h.submitted rfl
        (Custody.Balanced.taken_push _ _)
  | place m ht hnext hkind =>
      rw [hkind] at hother ⊢
      exact hother.of_other hne hbalanced.submitted h.submitted rfl
        (Custody.Balanced.taken_place _ _ m)
  | dispatch task m rest ht hkind =>
      rw [hkind] at hother ⊢
      exact hother.congr rfl fun _ => rfl
  | pop => exact hother.congr rfl fun _ => by cases cfg.kind <;> rfl
  | begin m => exact hother
  | finish m => exact hother.congr rfl fun _ => by cases cfg.kind <;> rfl
  | discard m => exact hother.congr rfl fun _ => by cases cfg.kind <;> rfl
  | emptyQueue => exact hother.congr rfl fun _ => by cases cfg.kind <;> rfl

/-- Every piece of code keeps the books balanced. -/
theorem Handles.balanced (hhandles : cfg.Handles pool t p next (some e))
    (h : pool.custody.Carries cfg.kind t p.carried)
    (hbalanced : pool.custody.Balanced cfg.kind cfg.size)
    (hordered : cfg.kind = .queuedThreadPool → p.Ordered cfg.size t pool)
    (hexited : cfg.kind = .queuedThreadPool → t ≠ .dispatcher → pool.status ≠ .running →
      QueuedThreadPool.RunPoint.Dispatches .exited pool.custody) :
    (pool.custody.apply e).Balanced cfg.kind cfg.size := by
  cases hhandles with
  | silent effect hsilent =>
      rw [(hsilent e rfl).1]
      exact hbalanced
  | submit task ht hp hnext hfresh => exact hbalanced.submit hfresh
  | reject => exact hbalanced.reject h.takes
  | push ht hnext hkind =>
      rw [hkind] at h hbalanced ⊢
      exact hbalanced.push h.takes
  | place m ht hnext hkind hserves hpool hheld hslot =>
      rw [hkind] at h hbalanced ⊢
      exact hbalanced.place h.takes hserves.1 hslot
  | dispatch task m rest ht hkind hserves hp hnext hslot =>
      have hq := (hordered hkind).dispatches _ hp
      obtain ⟨tail, hqueue⟩ := hq.cons rfl
      have horder := hq.order
      rw [hkind] at hbalanced ⊢
      refine hbalanced.dispatch ?_ hserves.1 hslot
      rw [horder, QueuedThreadPool.RunPoint.waiting_eq (p := .assign _ _) nofun, hqueue]
      simp only [List.count_append, List.count_cons_self]
      omega
  | pop => exact hbalanced.pop
  | begin m => exact hbalanced
  | finish m ht hm => exact hbalanced.finish hm
  | discard m ht hm => exact hbalanced.discard hm
  | emptyQueue ht hkind hclosed hstatus =>
      have horder := (hexited hkind ht hstatus).order
      rw [hkind] at hbalanced ⊢
      refine hbalanced.emptyQueue fun x => ?_
      rw [horder]
      simp only [QueuedThreadPool.RunPoint.waiting, List.count_append]
      omega

variable (cfg)

/-- What the threads know of the tasks. -/
def ledger : Annotation Tid MonitorId Pool Point where
  assertion t p pool := pool.custody.Carries cfg.kind t p.carried
  resource _ _ := True
  invariant pool := pool.custody.Balanced cfg.kind cfg.size

/-- What is established before the ledger. -/
def discipline : Annotation Tid MonitorId Pool Point :=
  ((cfg.shape mayExecute).and cfg.lifecycle).and (avoiding.and cfg.dispatching)

variable {cfg}

theorem ledger_valid :
    Annotation.Valid cfg.program cfg.discipline cfg.ledger SubmitsFresh where
  assertion {t input p pool piece} hbefore husage := by
    obtain ⟨⟨⟨hfits, hcontrol⟩, -⟩, hcarries⟩ := hbefore.assertion
    obtain ⟨⟨⟨-, hwell⟩, -⟩, hbalanced⟩ := hbefore.invariant
    have hmoves := code_moves hbefore.code
    rw [dataAfter_eq]
    refine (hmoves.handles hfits hcontrol hwell husage).carries hcarries hbalanced ?_
    cases heffect : piece.effect with
    | none => rw [Piece.after_of_none heffect, Option.elim_none]
    | some e => rw [Piece.after_of_some heffect, Option.elim_some, Pool.custody_apply]
  release _ _ _ _ := trivial
  invariant {t input p pool piece e} hbefore husage heffect := by
    obtain ⟨⟨⟨hfits, hcontrol⟩, -, hordered⟩, hcarries⟩ := hbefore.assertion
    obtain ⟨⟨⟨-, hwell⟩, -⟩, hbalanced⟩ := hbefore.invariant
    have hhandles := (code_moves hbefore.code).handles hfits hcontrol hwell husage
    rw [heffect] at hhandles
    show (pool.apply e).custody.Balanced cfg.kind cfg.size
    rw [Pool.custody_apply]
    refine hhandles.balanced hcarries hbalanced hordered ?_
    intro hkind ht hstatus
    obtain ⟨place, ⟨⟨⟨hplace, hother⟩, -, hq⟩, -⟩, -, -⟩ := hbefore.others .dispatcher ht.symm
    obtain ⟨q, rfl⟩ := Point.Fits.dispatcher hplace
    obtain rfl := QueuedThreadPool.RunPoint.Control.exited hother hstatus
    exact (hq hkind).dispatches _ rfl
  frame {t input p pool piece e other place} hbefore husage heffect hne hother hdisjoint _ := by
    obtain ⟨⟨⟨hfits, hcontrol⟩, -⟩, hcarries⟩ := hbefore.assertion
    obtain ⟨⟨⟨-, hwell⟩, -⟩, hbalanced⟩ := hbefore.invariant
    have hhandles := (code_moves hbefore.code).handles hfits hcontrol hwell husage
    rw [heffect] at hhandles
    show (pool.apply e).custody.Carries cfg.kind other place.carried
    rw [Pool.custody_apply]
    exact hhandles.carries_other hcarries hbalanced hne hother.2
  frame_resource _ _ _ _ _ _ _ := trivial
  raise {t input p pool piece} m hcode _ hassertion hop hheld := by
    obtain ⟨⟨⟨hfits, -⟩, havoids, -⟩, hledger⟩ := hassertion
    have hsame : cfg.program.handler p = p :=
      handler_eq_of_avoiding hcode hfits havoids hop hheld
    exact ⟨hsame.symm ▸ hledger, fun _ _ _ => trivial⟩

theorem ledger_initial : cfg.ledger.Holds cfg.initial where
  assertion t := by
    have hnone : (cfg.initialPoint t).carried = none := by
      cases t with
      | client => rfl
      | dispatcher => simp only [initialPoint]; split <;> rfl
      | worker => simp only [initialPoint]; split <;> rfl
    exact ⟨fun x hx => absurd (hnone.symm.trans hx) (by rintro ⟨⟩), by rintro _ ⟨⟩⟩
  resource _ _ := trivial
  invariant := by
    refine ⟨List.nodup_nil, fun x => ?_, fun x => ?_, fun x => ?_, fun x => rfl⟩
    · cases cfg.kind <;> exact Nat.le_refl 0
    · cases cfg.kind <;> exact Nat.le_refl 0
    · refine (List.countP_eq_zero.mpr fun m _ => ?_).symm
      simp [initial, initialPool, Pool.custody]

variable {guard : PoolState → PoolAction → Prop} {state : PoolState}

/-- Tasks call at most `execute`, and stay away from their managers. -/
structure Disciplined (cfg : Config) (guard : PoolState → PoolAction → Prop) : Prop where
  tasksCall : ∀ state action, guard state action →
    Annotation.Respects (TasksCall mayExecute) state action
  avoidsOwn : ∀ state action, Reaches cfg.program.step guard cfg.initial state →
    guard state action → Annotation.Respects (AvoidsOwn cfg) state action

/-- In particular when tasks do not call back. -/
theorem disciplined_of_noCallback
    (hguard : ∀ state action, guard state action →
      Annotation.Respects (TasksCall noCallback) state action) :
    cfg.Disciplined guard where
  tasksCall state action hallowed := by
    cases action with
    | run => exact fun m method ht hinput => (hguard _ _ hallowed m method ht hinput).elim
    | spurious => trivial
  avoidsOwn state action hrun hallowed := by
    cases action with
    | run t input choice =>
        exact avoidsOwn_of_noCallback ((shape_of_reaches hguard hrun).assertion t)
          (hguard _ _ hallowed)
    | spurious => trivial

theorem Disciplined.of_contract
    (hguard : ∀ state action, guard state action → Contract state action) :
    cfg.Disciplined guard :=
  disciplined_of_noCallback fun state action h => (hguard state action h).1

theorem discipline_of_reaches (hguard : cfg.Disciplined guard)
    (hrun : Reaches cfg.program.step guard cfg.initial state) :
    cfg.discipline.Holds state :=
  ((shape_of_reaches hguard.tasksCall hrun).and
    (lifecycle_of_reaches hguard.tasksCall hrun)).and
    ((avoiding_valid.holds cfg.wellLocked hguard.avoidsOwn cfg.locked_initial
      (fun _ _ => Annotation.holds_trivial _) avoiding_initial hrun).and
      (dispatching_of_reaches hrun))

/-- The ledger is right in every state of every run. -/
theorem ledger_of_reaches (hguard : cfg.Disciplined guard)
    (hfresh : ∀ state action, guard state action →
      Annotation.Respects SubmitsFresh state action)
    (hrun : Reaches cfg.program.step guard cfg.initial state) : cfg.ledger.Holds state :=
  ledger_valid.holds cfg.wellLocked (fun _ _ _ h => hfresh _ _ h) cfg.locked_initial
    (fun _ hprior => discipline_of_reaches hguard hprior) ledger_initial hrun

/-- A step of a disciplined run, seen from the tasks. -/
theorem handles_of_step (hguard : cfg.Disciplined guard)
    (hfresh : ∀ state action, guard state action →
      Annotation.Respects SubmitsFresh state action)
    (hrun : Reaches cfg.program.step guard cfg.initial state) {action : PoolAction}
    {next : PoolState} (hallowed : guard state action)
    (hstep : cfg.program.step state action = some next) :
    next.data = state.data ∨ ∃ t p e, next.data = state.data.apply e ∧
      cfg.Handles state.data t (state.pc t) p (some e) := by
  have hdiscipline := discipline_of_reaches hguard hrun
  rcases Program.step_cases hstep with
    ⟨t, input, choice, piece, rfl, hcode, -, rfl⟩ | ⟨t, input, choice, piece, -, -, -, rfl⟩ |
    ⟨m, t, -, -, rfl⟩
  · cases heffect : piece.effect with
    | none => exact .inl (cfg.program.dataAfter_none heffect state.data)
    | some e =>
        obtain ⟨⟨hfits, hcontrol⟩, -⟩ := hdiscipline.assertion t
        have hhandles := (code_moves hcode).handles hfits hcontrol hdiscipline.invariant.1.2
          (hfresh _ _ hallowed)
        rw [heffect] at hhandles
        exact .inr ⟨t, piece.next, e, cfg.program.dataAfter_some heffect state.data, hhandles⟩
  · exact .inl rfl
  · exact .inl rfl

end Config

end ThreadPools.Posix
