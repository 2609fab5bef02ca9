/-
# The dispatcher makes progress

Between two waits the dispatcher of a queued pool does not leave its monitor. Nobody else
changes the queue or the flag `go` meanwhile, so that the loops of `run` can be followed by a
rank: the length of the queue, then the stage of a pass, then the managers that have not been
asked. The rank decreases with every step, unless the front of the queue is a null pointer,
which the inner loop neither assigns nor removes.
-/

import Mathlib.Data.Prod.Lex
import ThreadPools.Concurrency.Progress
import ThreadPools.Posix.Dispatching

namespace ThreadPools.Posix

open ThreadPools.Concurrency

/-- The queue and the flag `go` are the same. -/
def Pool.SameQueue (pool after : Pool) : Prop :=
  after.queue = pool.queue ∧ after.go = pool.go

/-! ## The rank of the dispatcher -/

/-- What is left of the loop over the managers. -/
def ScanPoint.left : ScanPoint → Nat
  | .isIdle _ rest .lock => 4 * rest.length + 4
  | .isIdle _ rest .body => 4 * rest.length + 3
  | .setTask _ rest .lock => 4 * rest.length + 2
  | .setTask _ rest .body => 4 * rest.length + 1

namespace QueuedThreadPool

/-- The stage of a pass; the larger numbers at the end are for the loops around it. -/
def RunPoint.stage (pool : Pool) : RunPoint → Nat
  | .assigned _ | .unassigned _ => 3
  | .assign _ _ => 4
  | .inner _ => if pool.go then 5 else 7
  | .outer => 6
  | .idle => if pool.go && !pool.queue.isEmpty then 8 else 2
  | .again => if pool.go then 7 else 1
  | _ => 0

def RunPoint.left : RunPoint → Nat
  | .assign _ p => p.left
  | _ => 0

def RunPoint.rank (p : RunPoint) (pool : Pool) : ℕ ×ₗ ℕ ×ₗ ℕ :=
  toLex (pool.queue.length, toLex (p.stage pool, p.left))

variable {p q : RunPoint} {pool after : Pool}

theorem rank_lt_of_queue (h : after.queue.length < pool.queue.length) :
    q.rank after < p.rank pool :=
  Prod.Lex.toLex_lt_toLex.mpr (.inl h)

theorem rank_lt_of_stage (hqueue : after.queue = pool.queue) (h : q.stage after < p.stage pool) :
    q.rank after < p.rank pool :=
  Prod.Lex.toLex_lt_toLex.mpr
    (.inr ⟨congrArg List.length hqueue, Prod.Lex.toLex_lt_toLex.mpr (.inl h)⟩)

theorem rank_lt_of_left (hqueue : after.queue = pool.queue) (hstage : q.stage after = p.stage pool)
    (h : q.left < p.left) : q.rank after < p.rank pool :=
  Prod.Lex.toLex_lt_toLex.mpr
    (.inr ⟨congrArg List.length hqueue, Prod.Lex.toLex_lt_toLex.mpr (.inr ⟨hstage, h⟩)⟩)

/-- The rank depends on the queue and on `go` only. -/
theorem RunPoint.rank_congr (p : RunPoint) (hqueue : after.queue = pool.queue)
    (hgo : after.go = pool.go) : p.rank after = p.rank pool := by
  cases p <;> simp [rank, stage, hqueue, hgo]

theorem ScanPoint.left_start {rest : List ManagerId} {p : ScanPoint}
    (h : ScanPoint.start rest = .inl p) : p.left ≤ 4 * rest.length := by
  cases rest with
  | nil => cases h
  | cons m rest =>
      cases h
      simp only [ScanPoint.left, List.length_cons]
      omega

/-- A step of the loop over the managers leaves less of it. -/
theorem scan_left {t : Option Runnable} {p next : ScanPoint}
    (hnext : (scan t p pool).next = .inl next) : next.left < p.left := by
  have hmoves := scan_moves t p pool
  generalize scan t p pool = piece at hmoves hnext
  cases hmoves with
  | probe | idle | offer =>
      cases hnext
      simp [ScanPoint.left]
  | busy m rest =>
      have hle := ScanPoint.left_start hnext
      change next.left < 4 * rest.length + 3
      omega
  | refused m rest =>
      have hle := ScanPoint.left_start hnext
      change next.left < 4 * rest.length + 1
      omega
  | taken => cases hnext

/-- The loop over the managers leaves the queue and `go` alone. -/
theorem scan_after (t : Option Runnable) (p : ScanPoint) (pool : Pool) :
    ((scan t p pool).after pool).queue = pool.queue ∧
      ((scan t p pool).after pool).go = pool.go := by
  have hmoves := scan_moves t p pool
  generalize scan t p pool = piece at hmoves
  cases hmoves <;> exact ⟨rfl, rfl⟩

/-- The dispatcher puts nothing into the queue. -/
theorem Moves.queue_subset {piece : Piece RunPoint} (hmoves : Moves pool p piece) :
    (piece.after pool).queue ⊆ pool.queue := by
  cases hmoves with
  | add p | remove p => cases p <;> exact List.Subset.refl _
  | assign t scan =>
      rw [Piece.after_map]
      intro x hx
      exact (scan_after (some t) scan pool).1 ▸ hx
  | pop => exact List.tail_subset pool.queue
  | _ => exact List.Subset.refl _

/-- A step of the dispatcher inside its monitor decreases the rank when the front of the queue
is a task. -/
theorem Moves.rank_lt {piece : Piece RunPoint} (hmoves : Moves pool p piece)
    (hhead : pool.queue.head? ≠ some none)
    (hfront : ∀ t, p.front = some t → pool.queue.head? = some t)
    (hbefore : .dispatcher ∈ p.held) (hbehind : .dispatcher ∈ piece.next.held) :
    piece.next.rank (piece.after pool) < p.rank pool := by
  cases hmoves with
  | add p | remove p => cases p <;> simp [RunPoint.held, Section.held] at hbefore
  | enter | wokenInner | wokenIdle => cases hbefore
  | waitInner | waitIdle | leave => cases hbehind
  | front hgo hqueue => exact rank_lt_of_stage rfl (by simp [RunPoint.stage, Piece.after, hgo])
  | drained h =>
      refine rank_lt_of_stage rfl ?_
      rcases h with hgo | hqueue
      · simp [RunPoint.stage, Piece.after, hgo]
      · simp [RunPoint.stage, Piece.after, hqueue]
  | offer t hgo =>
      refine rank_lt_of_stage rfl ?_
      rcases hstart : ScanPoint.start pool.taskList with first | taken
      · simp [RunPoint.stage, RunPoint.scanned, hgo]
      · cases taken <;> simp [RunPoint.stage, RunPoint.scanned, hgo]
  | withdraw t h =>
      refine rank_lt_of_stage rfl ?_
      rcases h with hgo | rfl
      · simp [RunPoint.stage, hgo]
      · exact absurd (hfront none rfl) hhead
  | assign t scan =>
      obtain ⟨hqueue, -⟩ := scan_after (some t) scan pool
      rcases hnext : (QueuedThreadPool.assign t scan pool).next with next | taken
      · refine rank_lt_of_left hqueue ?_ ?_
        · simp [RunPoint.stage, RunPoint.scanned, hnext]
        · simpa [RunPoint.left, RunPoint.scanned, hnext] using scan_left hnext
      · refine rank_lt_of_stage hqueue ?_
        cases taken <;> simp [RunPoint.stage, RunPoint.scanned, hnext]
  | pop t =>
      have hhead := hfront (some t) rfl
      refine rank_lt_of_queue ?_
      change pool.queue.tail.length < pool.queue.length
      cases hqueue : pool.queue with
      | nil => rw [hqueue] at hhead; cases hhead
      | cons => simp
  | busy h =>
      refine rank_lt_of_stage rfl ?_
      cases hgo : pool.go with
      | false => simp [RunPoint.stage, Piece.after, hgo]
      | true =>
          have hqueue : pool.queue ≠ [] := by
            rcases h with hnot | hqueue
            · rw [hgo] at hnot
              cases hnot
            · exact hqueue
          simp [RunPoint.stage, Piece.after, hgo, hqueue]
  | again hgo => exact rank_lt_of_stage rfl (by simp [RunPoint.stage, hgo])

/-- Inside the pass over the task `x`. -/
def RunPoint.Within (x : Runnable) (p : RunPoint) : Prop :=
  p.front = some (some x) ∧ .dispatcher ∈ p.held

theorem RunPoint.within_scanned {x : Runnable} {place : ScanPoint ⊕ Bool} :
    (scanned x place).Within x := by
  refine ⟨front_scanned place, ?_⟩
  rcases place with scan | taken
  · exact List.mem_append_right _ List.mem_cons_self
  · cases taken <;> exact List.mem_cons_self

/-- A pass over a task goes on until the task is removed or the dispatcher waits. -/
theorem Moves.within {piece : Piece RunPoint} (hmoves : Moves pool p piece) {x : Runnable}
    (hgo : pool.go = true) (hhead : pool.queue.head? = some (some x))
    (hpoint : p = .outer ∨ p.Within x) (hpass : ∀ t, p ≠ .assigned t ∧ p ≠ .unassigned t) :
    piece.next.Within x ∧ pool.SameQueue (piece.after pool) := by
  rcases hpoint with rfl | ⟨hfront, hheld⟩
  · cases hmoves with
    | front _ hqueue =>
        rw [hqueue] at hhead
        cases hhead
        exact ⟨⟨rfl, List.mem_cons_self⟩, rfl, rfl⟩
    | drained h =>
        rcases h with hnot | hqueue
        · rw [hgo] at hnot
          cases hnot
        · rw [hqueue] at hhead
          cases hhead
  · cases hmoves with
    | offer t =>
        cases hfront
        exact ⟨RunPoint.within_scanned, rfl, rfl⟩
    | withdraw t h =>
        rcases h with hnot | rfl
        · rw [hgo] at hnot
          cases hnot
        · cases hfront
    | assign t scan =>
        cases hfront
        refine ⟨RunPoint.within_scanned, ?_⟩
        rw [Piece.after_map]
        exact scan_after (some x) scan pool
    | pop t => exact absurd rfl (hpass t).1
    | waitInner t => exact absurd rfl (hpass t).2
    | wokenInner t => cases hheld
    | _ => cases hfront

theorem RunPoint.held_nodup (p : RunPoint) : p.held.Nodup := by
  cases p with
  | add p | remove p => cases p <;> simp [held, Section.held]
  | assign t p =>
      cases p with
      | isIdle m rest p | setTask m rest p => cases p <;> simp [held, ScanPoint.held, Section.held]
  | _ => simp [held]

end QueuedThreadPool

/-! ## What the other threads leave alone -/

theorem ThreadPool.terminate_sameQueue (p : TerminatePoint) (pool : Pool) :
    pool.SameQueue ((terminate p pool).after pool) := by
  cases p with
  | enter | finish => exact ⟨rfl, rfl⟩
  | stop m rest p => cases p <;> exact ⟨rfl, rfl⟩
  | empty p =>
      cases p with
      | destroy m rest p =>
          cases p with
          | lock | body => exact ⟨rfl, rfl⟩
          | join =>
              simp only [terminate, emptyTaskList, TaskManager.destroy, Piece.after_map]
              split <;> exact ⟨rfl, rfl⟩
      | clear => exact ⟨rfl, rfl⟩

theorem ThreadPool.destroy_sameQueue (p : DestroyPoint) (pool : Pool) :
    pool.SameQueue ((destroy p pool).after pool) := by
  cases p with
  | terminate p => exact terminate_sameQueue p pool
  | empty p => exact terminate_sameQueue (.empty p) pool
  | release => exact ⟨rfl, rfl⟩

theorem QueuedThreadPool.terminate_sameQueue {p : TerminatePoint} (hheld : .dispatcher ∉ p.held)
    (pool : Pool) : pool.SameQueue ((terminate p pool).after pool) := by
  cases p with
  | enter => exact ⟨rfl, rfl⟩
  | base p => exact ThreadPool.terminate_sameQueue p pool
  | stop | leave => exact absurd List.mem_cons_self hheld

/-- Only inside the dispatcher's monitor calls change the queue or `go`. -/
theorem Call.code_sameQueue {call : Call} (hheld : .dispatcher ∉ call.held) (pool : Pool) :
    pool.SameQueue ((call.code pool).after pool) := by
  have hnone : (call.code pool).effect = none → pool.SameQueue ((call.code pool).after pool) := by
    intro heffect
    rw [Piece.after_of_none heffect]
    exact ⟨rfl, rfl⟩
  cases call with
  | execute task p =>
      cases p with
      | scan p => exact QueuedThreadPool.scan_after task p pool
      | test =>
          simp only [code, piece, ThreadPool.execute, Piece.after_map]
          split <;> exact ⟨rfl, rfl⟩
      | enter | placed | failed | woken => exact ⟨rfl, rfl⟩
  | isIdle p | isBusy p => exact hnone (ThreadPool.check_effect _ _ _ p pool)
  | terminate p => exact ThreadPool.terminate_sameQueue p pool
  | destroy p => exact ThreadPool.destroy_sameQueue p pool
  | queuedExecute task p =>
      cases p with
      | lock => exact ⟨rfl, rfl⟩
      | body => exact absurd List.mem_cons_self hheld
  | queuedIsIdle p | queuedIsBusy p => exact hnone (QueuedThreadPool.check_effect _ p pool)
  | queueLength p => cases p <;> exact ⟨rfl, rfl⟩
  | queuedTerminate p => exact QueuedThreadPool.terminate_sameQueue hheld pool
  | queuedDestroy p =>
      cases p with
      | terminate p => exact QueuedThreadPool.terminate_sameQueue hheld pool
      | join =>
          simp only [code, piece, QueuedThreadPool.destroy, Piece.after_map]
          split <;> exact ⟨rfl, rfl⟩
      | emptyQueue p =>
          cases p with
          | lock => exact ⟨rfl, rfl⟩
          | body => exact absurd List.mem_cons_self hheld
      | baseTerminate p => exact ThreadPool.terminate_sameQueue p pool
      | base p => exact ThreadPool.destroy_sameQueue p pool

namespace Config

variable {cfg : Config}

/-- A thread outside of the dispatcher's monitor leaves the queue and `go` alone. -/
theorem Moves.sameQueue {pool : Pool} {t : Tid} {input : Input} {p : Point} {piece : Piece Point}
    (hmoves : cfg.Moves pool t input p piece) (ht : t ≠ .dispatcher)
    (hheld : .dispatcher ∉ p.held t) : pool.SameQueue (piece.after pool) := by
  cases hmoves with
  | enter t method call =>
      have heffect : ∀ effect, call.entered t = some effect →
          pool.SameQueue (pool.apply effect) := by
        intro effect hentered
        unfold Call.entered at hentered
        split at hentered <;> cases hentered <;> exact ⟨rfl, rfl⟩
      cases hentered : call.entered t with
      | none => exact ⟨rfl, rfl⟩
      | some effect => exact heffect effect hentered
  | call t call ht =>
      rw [Tid.held_calling ht] at hheld
      exact Call.code_sameQueue (fun hmem => hheld (List.mem_append_left _ hmem)) pool
  | dispatcher => exact absurd rfl ht
  | worker m input hmoves =>
      cases hmoves with
      | add p | remove p => cases p <;> exact ⟨rfl, rfl⟩
      | _ => exact ⟨rfl, rfl⟩

variable {guard : PoolState → PoolAction → Prop} {state next : PoolState} {action : PoolAction}
  {p : QueuedThreadPool.RunPoint}

/-- While the dispatcher is inside its monitor, the others leave the queue and `go` alone. -/
theorem sameQueue_of_step (hlocked : cfg.program.Locked state)
    (hp : state.pc .dispatcher = .dispatcher p) (hinside : .dispatcher ∈ p.held)
    (hstep : cfg.program.step state action = some next)
    (hmover : action.mover ≠ some .dispatcher) : state.data.SameQueue next.data := by
  rcases Program.step_cases hstep with
    ⟨t, input, choice, piece, rfl, hcode, -, rfl⟩ | ⟨t, input, choice, piece, rfl, -, -, rfl⟩ |
    ⟨m, t, -, -, rfl⟩
  · have ht : t ≠ .dispatcher := fun heq => hmover (congrArg some heq)
    have hheld : .dispatcher ∉ (state.pc t).held t := by
      intro hmem
      have hown : .dispatcher ∈ (state.pc .dispatcher).held .dispatcher := by
        rw [hp]
        exact hinside
      exact ht (hlocked.exclusive hmem hown)
    change state.data.SameQueue (cfg.program.dataAfter piece state.data)
    rw [cfg.dataAfter_eq]
    exact (code_moves hcode).sameQueue ht hheld
  · exact ⟨rfl, rfl⟩
  · exact ⟨rfl, rfl⟩

/-- The dispatcher enters no monitor twice. -/
theorem dispatcher_step (hlocked : cfg.program.Locked state)
    (hp : state.pc .dispatcher = .dispatcher p)
    (hstep : cfg.program.step state action = some next)
    (hmover : action.mover = some .dispatcher) :
    ∃ piece, QueuedThreadPool.Moves state.data p piece ∧
      next.pc .dispatcher = .dispatcher piece.next ∧ next.data = piece.after state.data := by
  have hmoves : ∀ {input : Input} {piece : Piece Point},
      cfg.code .dispatcher input (state.pc .dispatcher) state.data = some piece →
      ∃ body, QueuedThreadPool.Moves state.data p body ∧ piece = body.map .dispatcher := by
    intro input piece hcode
    rw [hp] at hcode
    generalize hpoint : Point.dispatcher p = point at hcode
    cases code_moves hcode with
    | enter t => exact absurd hpoint.symm (Tid.calling_ne_dispatcher _ _ _)
    | call t => exact absurd hpoint.symm (Tid.calling_ne_dispatcher _ _ _)
    | dispatcher hmoves =>
        cases hpoint
        exact ⟨_, hmoves, rfl⟩
  rcases Program.step_cases hstep with
    ⟨t, input, choice, piece, rfl, hcode, -, rfl⟩ |
    ⟨t, input, choice, piece, rfl, hcode, hraises, rfl⟩ | ⟨m, t, rfl, -, -⟩
  · cases hmover
    obtain ⟨body, hbody, rfl⟩ := hmoves hcode
    refine ⟨body, hbody, ?_, ?_⟩
    · simp [Program.advance]
    · exact (cfg.dataAfter_eq _ _).trans (Piece.after_map _ _ _)
  · cases hmover
    obtain ⟨body, hbody, rfl⟩ := hmoves hcode
    cases hop : body.op with
    | lock m =>
        rw [Instr.map_op, hop] at hraises
        have hheld : m ∈ (state.pc .dispatcher).held .dispatcher :=
          (hlocked.owner m .dispatcher).mp hraises
        rw [hp] at hheld
        have hbalanced := hbody.balanced
        rw [hop] at hbalanced
        have hnodup := QueuedThreadPool.RunPoint.held_nodup body.next
        rw [hbalanced] at hnodup
        exact absurd hheld (List.nodup_cons.mp hnodup).1
    | skip | unlock | wait | join =>
        rw [Instr.map_op, hop] at hraises
        exact hraises.elim
  · cases hmover

/-! ## The loop -/

/-- The rank of the dispatcher where it is. -/
def rank (state : PoolState) : ℕ ×ₗ ℕ ×ₗ ℕ :=
  match state.pc .dispatcher with
  | .dispatcher p => p.rank state.data
  | _ => toLex (0, toLex (0, 0))

theorem rank_eq (hp : state.pc .dispatcher = .dispatcher p) : rank state = p.rank state.data := by
  simp only [rank, hp]

/-- The rank of the dispatcher decreases while it stays inside its monitor and the front of the
queue is a task. -/
theorem rank_of_step (hrun : Reaches cfg.program.step guard cfg.initial state)
    (hp : state.pc .dispatcher = .dispatcher p) (hinside : .dispatcher ∈ p.held)
    (hhead : state.data.queue.head? ≠ some none)
    (hstep : cfg.program.step state action = some next) {q : QueuedThreadPool.RunPoint}
    (hq : next.pc .dispatcher = .dispatcher q) (hstill : .dispatcher ∈ q.held) :
    rank next ≤ rank state ∧ (action.mover = some .dispatcher → rank next < rank state) := by
  have hlocked := locked_of_reaches hrun
  by_cases hmover : action.mover = some .dispatcher
  · obtain ⟨piece, hmoves, hpc, hdata⟩ := dispatcher_step hlocked hp hstep hmover
    have hfits : (Point.dispatcher p).Fits cfg.kind (fun _ => True) .dispatcher :=
      hp ▸ (shape_of_reaches_any hrun).assertion .dispatcher
    have hexited : p ≠ .exited := by
      rintro rfl
      cases hinside
    have hkind := (Point.Fits.kind_of_dispatcher hfits).2 hexited
    have hdispatching := (dispatching_of_reaches hrun).assertion .dispatcher hkind
    have hfront := (hdispatching.dispatches p hp).front
    cases Point.dispatcher.inj (hq.symm.trans hpc)
    have hlt : rank next < rank state := by
      rw [rank_eq hp, rank_eq hq, hdata]
      exact hmoves.rank_lt hhead hfront hinside hstill
    exact ⟨hlt.le, fun _ => hlt⟩
  · obtain ⟨hqueue, hgo⟩ := sameQueue_of_step hlocked hp hinside hstep hmover
    have hsame : p = q := by
      rw [Program.step_pc hstep hmover, hp] at hq
      exact Point.dispatcher.inj hq
    subst hsame
    refine ⟨?_, fun h => absurd h hmover⟩
    rw [rank_eq hp, rank_eq hq, p.rank_congr hqueue hgo]

/-- A run of the system that begins in a reachable state. -/
theorem reaches_of_endless (hrun : Reaches cfg.program.step guard cfg.initial state)
    (run : Endless cfg.program.step state) (n : Nat) :
    Reaches cfg.program.step (fun _ _ => True) cfg.initial (run.state n) :=
  (hrun.mono fun _ _ _ => trivial).trans (run.reaches (fun _ => trivial) n)

/-- The dispatcher makes finitely many steps inside its monitor while the front of the queue is
a task. -/
theorem finitely_often_inside (hrun : Reaches cfg.program.step guard cfg.initial state)
    (run : Endless cfg.program.step state)
    (hinside : ∀ n, ∃ p, (run.state n).pc .dispatcher = .dispatcher p ∧ .dispatcher ∈ p.held)
    (hhead : ∀ n, (run.state n).data.queue.head? ≠ some none) :
    ∃ bound, ∀ n, bound ≤ n → (run.action n).mover ≠ some .dispatcher := by
  have hrank : ∀ n, rank (run.state (n + 1)) ≤ rank (run.state n) ∧
      ((run.action n).mover = some .dispatcher →
        rank (run.state (n + 1)) < rank (run.state n)) := by
    intro n
    obtain ⟨p, hp, hheld⟩ := hinside n
    obtain ⟨q, hq, hstill⟩ := hinside (n + 1)
    exact rank_of_step (reaches_of_endless hrun run n) hp hheld (hhead n) (run.next n) hq hstill
  exact run.finitely_often (fun action => action.mover = some .dispatcher) (fun n => (hrank n).1)
    fun n => (hrank n).2

/-- The dispatcher does not make infinitely many steps inside its monitor. -/
def NeverSpins (cfg : Config) (source : PoolState) : Prop :=
  ∀ run : Endless cfg.program.step source,
    (∀ n, ∃ p, (run.state n).pc .dispatcher = .dispatcher p ∧ .dispatcher ∈ p.held) →
      ∃ bound, ∀ n, bound ≤ n → (run.action n).mover ≠ some .dispatcher

/-- Without null pointers in the queue the dispatcher never spins. -/
theorem neverSpins_of_tasks (hrun : Reaches cfg.program.step guard cfg.initial state)
    (htasks : ∀ t ∈ state.data.queue, t ≠ none) : cfg.NeverSpins state := by
  intro run hinside
  have hqueue : ∀ n, ∀ t ∈ (run.state n).data.queue, t ≠ none := by
    intro n
    induction n with
    | zero =>
        rw [run.start]
        exact htasks
    | succ n ih =>
        obtain ⟨p, hp, hheld⟩ := hinside n
        have hlocked := locked_of_reaches (reaches_of_endless hrun run n)
        by_cases hmover : (run.action n).mover = some .dispatcher
        · obtain ⟨piece, hmoves, -, hdata⟩ := dispatcher_step hlocked hp (run.next n) hmover
          rw [hdata]
          intro t ht
          exact ih t (hmoves.queue_subset ht)
        · rw [(sameQueue_of_step hlocked hp hheld (run.next n) hmover).1]
          exact ih
  refine finitely_often_inside hrun run hinside ?_
  intro n hnull
  exact hqueue n none (List.mem_of_head? hnull) rfl

/-! ## The passes of the loop -/

/-- The dispatcher neither removes the front of the queue nor waits. -/
def Idles (state : PoolState) (action : PoolAction) : Prop :=
  action.mover = some .dispatcher →
    ∀ t, state.pc .dispatcher ≠ .dispatcher (.assigned t) ∧
      state.pc .dispatcher ≠ .dispatcher (.unassigned t)

/-- The pass of the loop that begins here removes the front of the queue or waits. -/
structure PassProgresses (cfg : Config) (source : PoolState) : Prop where
  /-- The pass does not come back to the loop without having done so. -/
  ends : ∀ action first last, action.mover = some .dispatcher →
    cfg.program.step source action = some first → Reaches cfg.program.step Idles first last →
    last.pc .dispatcher ≠ .dispatcher .outer
  /-- The dispatcher has finitely many steps to do so. -/
  finite : ∀ run : Endless cfg.program.step source,
    (∀ n, Idles (run.state n) (run.action n)) →
      ∃ bound, ∀ n, bound ≤ n → (run.action n).mover ≠ some .dispatcher

/-- The pass over the task `x` has begun or is about to begin. -/
structure InPass (x : Runnable) (state : PoolState) : Prop where
  go : state.data.go = true
  head : state.data.queue.head? = some (some x)
  point : ∃ p, state.pc .dispatcher = .dispatcher p ∧ (p = .outer ∨ p.Within x)

theorem InPass.inside {x : Runnable} (h : InPass x state) :
    ∃ p, state.pc .dispatcher = .dispatcher p ∧ .dispatcher ∈ p.held := by
  obtain ⟨p, hp, rfl | hwithin⟩ := h.point
  · exact ⟨_, hp, List.mem_cons_self⟩
  · exact ⟨p, hp, hwithin.2⟩

/-- Until it removes the front or waits, the dispatcher stays in its pass. -/
theorem InPass.of_step (hlocked : cfg.program.Locked state) {x : Runnable} (h : InPass x state)
    (hidles : Idles state action) (hstep : cfg.program.step state action = some next) :
    InPass x next ∧ (action.mover = some .dispatcher → ∃ p, next.pc .dispatcher = .dispatcher p ∧
      p.Within x) := by
  obtain ⟨p, hp, hinside⟩ := h.inside
  by_cases hmover : action.mover = some .dispatcher
  · obtain ⟨piece, hmoves, hpc, hdata⟩ := dispatcher_step hlocked hp hstep hmover
    have hpoint : p = .outer ∨ p.Within x := by
      obtain ⟨q, hq, hcases⟩ := h.point
      cases Point.dispatcher.inj (hp.symm.trans hq)
      exact hcases
    have hassigned : ∀ t, p ≠ .assigned t ∧ p ≠ .unassigned t := by
      intro t
      obtain ⟨hassigned, hunassigned⟩ := hidles hmover t
      rw [hp] at hassigned hunassigned
      exact ⟨fun heq => hassigned (congrArg _ heq), fun heq => hunassigned (congrArg _ heq)⟩
    obtain ⟨hwithin, hqueue, hgo⟩ := hmoves.within h.go h.head hpoint hassigned
    refine ⟨⟨?_, ?_, piece.next, hpc, .inr hwithin⟩, fun _ => ⟨_, hpc, hwithin⟩⟩
    · exact (congrArg Pool.go hdata).trans (hgo.trans h.go)
    · exact (congrArg (fun pool => pool.queue.head?) hdata).trans (hqueue.symm ▸ h.head)
  · obtain ⟨hqueue, hgo⟩ := sameQueue_of_step hlocked hp hinside hstep hmover
    refine ⟨⟨hgo.trans h.go, hqueue.symm ▸ h.head, ?_⟩, fun heq => absurd heq hmover⟩
    rw [Program.step_pc hstep hmover]
    exact h.point

/-- A pass over a task removes it or waits. -/
theorem passProgresses_of_task (hrun : Reaches cfg.program.step guard cfg.initial state)
    {x : Runnable} (h : InPass x state) (houter : state.pc .dispatcher = .dispatcher .outer) :
    cfg.PassProgresses state where
  ends action first last hmover hstep hpass := by
    have hany : Reaches cfg.program.step (fun _ _ => True) cfg.initial state :=
      hrun.mono fun _ _ _ => trivial
    have hfirst : Reaches cfg.program.step (fun _ _ => True) cfg.initial first :=
      hany.tail action trivial hstep
    have hstart : Idles state action := by
      intro _ t
      rw [houter]
      exact ⟨nofun, nofun⟩
    have hwithin : InPass x last ∧ ∃ p, last.pc .dispatcher = .dispatcher p ∧ p.Within x := by
      induction hpass with
      | refl =>
          obtain ⟨hin, hpoint⟩ := h.of_step (locked_of_reaches hany) hstart hstep
          exact ⟨hin, hpoint hmover⟩
      | tail action hprior hidles hnext ih =>
          have hlocked := locked_of_reaches (hfirst.trans (hprior.mono fun _ _ _ => trivial))
          obtain ⟨hin, p, hp, hwithin⟩ := ih
          obtain ⟨hinNext, hpoint⟩ := hin.of_step hlocked hidles hnext
          by_cases hmover : action.mover = some .dispatcher
          · exact ⟨hinNext, hpoint hmover⟩
          · exact ⟨hinNext, p, (Program.step_pc hnext hmover).trans hp, hwithin⟩
    obtain ⟨-, p, hp, hfront, -⟩ := hwithin
    intro hnot
    cases Point.dispatcher.inj (hp.symm.trans hnot)
    cases hfront
  finite run hpass := by
    have hin : ∀ n, InPass x (run.state n) := by
      intro n
      induction n with
      | zero => exact run.start.symm ▸ h
      | succ n ih =>
          have hlocked := locked_of_reaches (reaches_of_endless hrun run n)
          exact (ih.of_step hlocked (hpass n) (run.next n)).1
    refine finitely_often_inside hrun run (fun n => (hin n).inside) ?_
    intro n
    rw [(hin n).head]
    nofun

/-! ## A null pointer at the front -/

/-- The dispatcher at another point of its loop. -/
def atPoint (state : PoolState) (p : QueuedThreadPool.RunPoint) : PoolState :=
  { state with pc := Function.update state.pc .dispatcher (.dispatcher p) }

theorem step_of_null (hgo : state.data.go = true) (hhead : state.data.queue.head? = some none) :
    cfg.program.step (atPoint state .outer) (.run .dispatcher .go 0) =
        some (atPoint state (.inner none)) ∧
      cfg.program.step (atPoint state (.inner none)) (.run .dispatcher .go 0) =
        some (atPoint state .outer) := by
  obtain ⟨rest, hqueue⟩ := List.head?_eq_some_iff.mp hhead
  have hmove : ∀ (p q : QueuedThreadPool.RunPoint),
      QueuedThreadPool.run p state.data = some { next := q } →
      cfg.program.step (atPoint state p) (.run .dispatcher .go 0) = some (atPoint state q) := by
    intro p q hcode
    simp [Program.step, program, code, atPoint, hcode, Program.Enabled, Program.advance,
      Program.dataAfter, Op.perform, notified, Instr.map]
  refine ⟨hmove _ _ ?_, hmove _ _ ?_⟩
  · simp [QueuedThreadPool.run, hgo, hqueue]
  · simp [QueuedThreadPool.run, hgo]

/-- The dispatcher alone goes around the loop forever. -/
def spinning (hgo : state.data.go = true) (hhead : state.data.queue.head? = some none)
    (houter : state.pc .dispatcher = .dispatcher .outer) :
    Endless cfg.program.step state where
  state n := atPoint state (if n % 2 = 0 then .outer else .inner none)
  action _ := .run .dispatcher .go 0
  start := by
    simp [atPoint, ← houter]
  next n := by
    obtain ⟨hinner, hback⟩ : cfg.program.step (atPoint state .outer) _ = _ ∧ _ :=
      step_of_null hgo hhead
    rcases Nat.mod_two_eq_zero_or_one n with heven | hodd
    · rw [if_pos heven, if_neg (by omega)]
      exact hinner
    · rw [if_neg (by omega), if_pos (by omega)]
      exact hback

theorem not_neverSpins_of_null (hgo : state.data.go = true)
    (hhead : state.data.queue.head? = some none)
    (houter : state.pc .dispatcher = .dispatcher .outer) : ¬ cfg.NeverSpins state := by
  intro hnever
  obtain ⟨bound, hbound⟩ := hnever (spinning hgo hhead houter) (by
    intro n
    refine ⟨if n % 2 = 0 then .outer else .inner none, by simp [spinning, atPoint], ?_⟩
    split <;> exact List.mem_cons_self)
  exact hbound bound le_rfl rfl

theorem not_passProgresses_of_null (hgo : state.data.go = true)
    (hhead : state.data.queue.head? = some none)
    (houter : state.pc .dispatcher = .dispatcher .outer) : ¬ cfg.PassProgresses state := by
  intro hpass
  obtain ⟨hinner, hback⟩ : cfg.program.step (atPoint state .outer) _ = _ ∧ _ :=
    step_of_null hgo hhead
  have hsame : atPoint state .outer = state := by simp [atPoint, ← houter]
  have hidles : Idles (atPoint state (.inner none)) (.run .dispatcher .go 0) := by
    intro _ t
    simp [atPoint]
  rw [hsame] at hinner
  refine hpass.ends _ _ _ rfl hinner (Reaches.refl.tail _ hidles hback) ?_
  simp [atPoint]

/-- A pass of the loop makes progress exactly when the front of the queue is not a null pointer,
and the dispatcher does not spin when no entry of the queue is one. -/
theorem dispatcher_progresses (hrun : Reaches cfg.program.step guard cfg.initial state) :
    (∀ t rest, state.pc .dispatcher = .dispatcher .outer → state.data.go = true →
      state.data.queue = t :: rest →
        (cfg.PassProgresses state ↔ t ≠ none) ∧ (cfg.NeverSpins state → t ≠ none)) ∧
      ((∀ t ∈ state.data.queue, t ≠ none) → cfg.NeverSpins state) := by
  refine ⟨?_, neverSpins_of_tasks hrun⟩
  intro t rest houter hgo hqueue
  have hhead : state.data.queue.head? = some t := by rw [hqueue]; rfl
  cases t with
  | none =>
      have hpass : ¬ cfg.PassProgresses state := not_passProgresses_of_null hgo hhead houter
      have hspins : ¬ cfg.NeverSpins state := not_neverSpins_of_null hgo hhead houter
      simp [hpass, hspins]
  | some x =>
      have hin : InPass x state := ⟨hgo, hhead, _, houter, .inl rfl⟩
      simp [passProgresses_of_task hrun hin houter]

/-- A client has called `execute` once, and the dispatcher looks at the queue. -/
theorem reaches_outer {t : Option Runnable} (ht : t = none ∨ t = some 7) :
    ∃ state : PoolState,
      Reaches (Config.complete .queuedThreadPool 1).program.step (fun _ _ => True)
        (Config.complete .queuedThreadPool 1).initial state ∧
        state.pc .dispatcher = .dispatcher .outer ∧ state.data.go = true ∧
        state.data.queue = [t] := by
  let actions : List PoolAction :=
    PoolAction.call (.client 0) (.execute t) ::
      (PoolAction.steps (.client 0) 2 ++ PoolAction.steps .dispatcher 3)
  let observe (state : PoolState) : Point × Bool × List (Option Runnable) :=
    (state.pc .dispatcher, state.data.go, state.data.queue)
  obtain ⟨state, hrun, hstate⟩ : ∃ state : PoolState,
      Reaches (Config.complete .queuedThreadPool 1).program.step (fun _ _ => True)
        (Config.complete .queuedThreadPool 1).initial state ∧
        observe state = (.dispatcher .outer, true, [t]) := by
    rcases ht with rfl | rfl <;>
      exact Reaches.of_observed (fun _ _ => true) actions (fun _ _ _ => trivial) (by decide +kernel)
  simp only [observe, Prod.mk.injEq] at hstate
  exact ⟨state, hrun, hstate⟩

/-- The dispatcher has the only task of the queue before it. -/
theorem dispatcher_progresses_task :
    ∃ state : PoolState, state.data.queue = [some 7] ∧
      (Config.complete .queuedThreadPool 1).PassProgresses state ∧
      (Config.complete .queuedThreadPool 1).NeverSpins state := by
  obtain ⟨state, hrun, houter, hgo, hqueue⟩ := reaches_outer (.inr rfl)
  obtain ⟨hpass, hnever⟩ := dispatcher_progresses hrun
  refine ⟨state, hqueue, (hpass _ _ houter hgo hqueue).1.mpr nofun, hnever ?_⟩
  simp [hqueue]

/-- A null pointer at the front of the queue keeps the dispatcher inside its monitor forever. -/
theorem dispatcher_spins :
    ∃ state : PoolState,
      Reaches (Config.complete .queuedThreadPool 1).program.step (fun _ _ => True)
        (Config.complete .queuedThreadPool 1).initial state ∧
        state.pc .dispatcher = .dispatcher .outer ∧ state.data.go = true ∧
        state.data.queue = [none] ∧
        ¬ (Config.complete .queuedThreadPool 1).PassProgresses state ∧
        ¬ (Config.complete .queuedThreadPool 1).NeverSpins state := by
  obtain ⟨state, hrun, houter, hgo, hqueue⟩ := reaches_outer (.inl rfl)
  have hhead : state.data.queue.head? = some none := by rw [hqueue]; rfl
  exact ⟨state, hrun, houter, hgo, hqueue, not_passProgresses_of_null hgo hhead houter,
    not_neverSpins_of_null hgo hhead houter⟩

end Config

end ThreadPools.Posix
