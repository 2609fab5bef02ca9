/-
# The order of dispatch

The dispatcher of a queued pool hands the tasks to the managers in the order in
which they have been pushed: its local variable is the front of the queue
whenever it looks at it again, and only the dispatcher removes the front until it
has ended. A pool with a single manager also starts the tasks in this order.
Nothing is assumed about the use of the pool.
-/

import ThreadPools.Posix.Handling
import ThreadPools.Posix.Shutdown

namespace ThreadPools.Posix

open ThreadPools.Concurrency

/-! ## What the dispatcher knows -/

namespace QueuedThreadPool.RunPoint

/-- The local variable of the dispatcher. -/
def front : RunPoint → Option (Option Runnable)
  | .inner t => some t
  | .assign t _ => some (some t)
  | .assigned t => some (some t)
  | .unassigned t => some (some t)
  | .wokenInner t => some (some t)
  | _ => none

/-- The tasks which have not been dispatched: inside the section between
`assign` and `pop` the front of the queue has been. -/
def waiting : RunPoint → List (Option Runnable) → List (Option Runnable)
  | .assigned _, queue => queue.tail
  | _, queue => queue

/-- What the dispatcher knows of the tasks. -/
structure Dispatches (p : RunPoint) (custody : Custody) : Prop where
  order : custody.pushed = custody.placed ++ custody.dropped ++ p.waiting custody.queue
  dropped : p ≠ .exited → custody.dropped = []
  front : ∀ t, p.front = some t → custody.queue.head? = some t
  dispatched : ∀ t, p = .assigned t → some t ∈ custody.placed

theorem waiting_eq {p : RunPoint} (h : ∀ t, p ≠ .assigned t) (queue : List (Option Runnable)) :
    p.waiting queue = queue := by
  cases p with
  | assigned t => exact absurd rfl (h t)
  | _ => rfl

variable {p q : RunPoint} {custody : Custody}

theorem Dispatches.move (h : p.Dispatches custody) (hp : ∀ t, p ≠ .assigned t)
    (hq : ∀ t, q ≠ .assigned t) (hexited : p ≠ .exited)
    (hfront : ∀ t, q.front = some t → custody.queue.head? = some t) :
    q.Dispatches custody where
  order := by
    rw [waiting_eq hq]
    exact waiting_eq hp custody.queue ▸ h.order
  dropped _ := h.dropped hexited
  front := hfront
  dispatched t ht := absurd ht (hq t)

theorem front_scanned {t : Runnable} (place : ScanPoint ⊕ Bool) :
    (scanned t place).front = some (some t) := by
  rcases place with p | taken
  · rfl
  · cases taken <;> rfl

theorem scanned_ne_assigned {t : Runnable} {place : ScanPoint ⊕ Bool}
    (h : place ≠ .inr true) (x : Runnable) : scanned t place ≠ .assigned x := by
  rcases place with p | taken
  · nofun
  · cases taken with
    | true => exact absurd rfl h
    | false => nofun

theorem start_ne_taken (rest : List ManagerId) : ScanPoint.start rest ≠ .inr true := by
  cases rest <;> nofun

/-- The front of the queue, as long as it has not been dispatched. -/
theorem Dispatches.cons (h : p.Dispatches custody) {t : Option Runnable}
    (hfront : p.front = some t) : ∃ rest, custody.queue = t :: rest :=
  List.head?_eq_some_iff.mp (h.front t hfront)

/-- Between `assign` and `pop` the front of the queue has been dispatched. -/
theorem Dispatches.place {t : Runnable} {scan : ScanPoint}
    (h : (assign t scan).Dispatches custody) (m : ManagerId) :
    (assigned t).Dispatches (custody.apply (.place (some t) m)) := by
  obtain ⟨tail, hqueue⟩ := h.cons rfl
  have hdropped := h.dropped nofun
  have horder := h.order
  rw [waiting_eq (p := .assign t scan) nofun, hdropped, hqueue] at horder
  refine ⟨?_, fun _ => hdropped, fun task htask => htask ▸ h.front _ rfl, ?_⟩
  swap
  · rintro _ ⟨⟩
    exact List.mem_append_right _ (List.mem_singleton.mpr rfl)
  show custody.pushed = custody.placed ++ [some t] ++ custody.dropped ++ custody.queue.tail
  rw [horder, hdropped, hqueue]
  simp

theorem Dispatches.pop {t : Runnable} (h : (assigned t).Dispatches custody) :
    outer.Dispatches (custody.apply .pop) :=
  ⟨h.order, fun _ => h.dropped nofun, nofun, nofun⟩

/-- Clients append to the queue. -/
theorem Dispatches.push (h : p.Dispatches custody) (task : Option Runnable) :
    p.Dispatches (custody.apply (.push task)) where
  order := by
    have hwaiting : p.waiting (custody.queue ++ [task]) = p.waiting custody.queue ++ [task] := by
      cases p with
      | assigned t =>
          obtain ⟨rest, hqueue⟩ := h.cons rfl
          simp [waiting, hqueue]
      | _ => rfl
    show custody.pushed ++ [task] = _ ++ p.waiting (custody.queue ++ [task])
    rw [hwaiting, h.order]
    simp [Custody.apply]
  dropped := h.dropped
  front x hx := by
    obtain ⟨rest, hqueue⟩ := h.cons hx
    show (custody.queue ++ [task]).head? = some x
    rw [hqueue]
    rfl
  dispatched := h.dispatched

/-- Behind the end of the dispatcher the rest of the queue is dropped. -/
theorem Dispatches.emptyQueue (h : exited.Dispatches custody) :
    exited.Dispatches (custody.apply .emptyQueue) where
  order := by
    show custody.pushed = custody.placed ++ (custody.dropped ++ custody.queue) ++ []
    rw [h.order]
    simp [waiting]
  dropped hnot := absurd rfl hnot
  front := nofun
  dispatched := nofun

end QueuedThreadPool.RunPoint

/-- The dispatcher keeps to the order of the queue. -/
theorem QueuedThreadPool.Moves.dispatches {p : RunPoint} {pool : Pool} {piece : Piece RunPoint}
    (hmoves : Moves pool p piece) (h : p.Dispatches pool.custody) :
    piece.next.Dispatches (piece.after pool).custody := by
  cases hmoves with
  | add p =>
      cases p with
      | lock => exact h.move nofun nofun nofun nofun
      | body => exact h.move nofun nofun nofun nofun
  | front hgo hqueue =>
      refine h.move nofun nofun nofun ?_
      rintro _ ⟨⟩
      exact congrArg List.head? hqueue
  | offer t =>
      refine h.move nofun (RunPoint.scanned_ne_assigned (RunPoint.start_ne_taken _)) nofun ?_
      intro task htask
      rw [RunPoint.front_scanned] at htask
      exact htask ▸ h.front _ rfl
  | assign t p =>
      have hscan := scan_moves (some t) p pool
      show (RunPoint.scanned t (scan (some t) p pool).next).Dispatches
        (Piece.after (scan (some t) p pool) pool).custody
      generalize scan (some t) p pool = piece at hscan
      cases hscan with
      | taken m rest =>
          show (RunPoint.assigned t).Dispatches (pool.apply (.place (some t) m)).custody
          rw [Pool.custody_apply]
          exact h.place m
      | probe | idle | offer =>
          exact h.move nofun nofun nofun fun task htask => htask ▸ h.front _ rfl
      | busy m rest | refused m rest =>
          refine h.move nofun (RunPoint.scanned_ne_assigned (RunPoint.start_ne_taken _)) nofun ?_
          intro task htask
          rw [RunPoint.front_scanned] at htask
          exact htask ▸ h.front _ rfl
  | pop t =>
      show RunPoint.outer.Dispatches (pool.apply .pop).custody
      rw [Pool.custody_apply]
      exact h.pop
  | waitInner t => exact h.move nofun nofun nofun fun task htask => htask ▸ h.front _ rfl
  | wokenInner t => exact h.move nofun nofun nofun fun task htask => htask ▸ h.front _ rfl
  | remove p =>
      cases p with
      | lock => exact h.move nofun nofun nofun nofun
      | body => exact h.move nofun nofun nofun nofun
  | enter | drained | withdraw | waitIdle | busy | wokenIdle | again | leave =>
      exact h.move nofun nofun nofun nofun

/-! ## What the other threads do -/

namespace Config

variable {cfg : Config} {pool : Pool} {t : Tid} {input : Input} {p : Point}
  {piece : Piece Point} {effect : Effect} {allowed : Method → Prop}

/-- What the other threads of a queued pool do to the queue and the slots. -/
theorem Moves.queue_cases (hmoves : cfg.Moves pool t input p piece) (ht : t ≠ .dispatcher)
    (hkind : cfg.kind = .queuedThreadPool) (hfits : p.Fits cfg.kind allowed t)
    (heffect : piece.effect = some effect) :
    effect.Quiet ∨ (∃ task, effect = .push task) ∨
    (effect = .emptyQueue ∧ p = t.calling (some (.queuedDestroy (.emptyQueue .body)))) ∨
    ∃ m, t = .worker m ∧ effect.Own m ∧ (p = .worker .loop ∨ p = .worker (.running none)) := by
  cases hmoves with
  | enter t method call _ hentry =>
      rcases Call.entered_cases hentry t with ⟨task, -, hentered, -⟩ | ⟨-, hsilent⟩
      · cases hentered.symm.trans heffect
        exact .inl (Effect.quiet_submit task t)
      · exact .inl (hsilent effect heffect).quiet
  | call t call ht =>
      obtain ⟨hcall, -⟩ := (fits_calling ht).mp hfits call rfl
      have hhandles := Call.code_handles call pool
      rw [Instr.map_effect] at heffect
      rw [heffect] at hhandles
      cases hhandles with
      | silent _ hsilent => exact .inl (hsilent effect rfl).quiet
      | reject => exact .inl (Effect.quiet_reject _)
      | push => exact .inr (.inl ⟨_, rfl⟩)
      | place m rest _ hpoint =>
          rw [hpoint] at hcall
          exact absurd (hcall.trans hkind) nofun
      | emptyQueue _ hpoint => exact .inr (.inr (.inl ⟨rfl, congrArg _ (congrArg _ hpoint)⟩))
  | dispatcher => exact absurd rfl ht
  | worker m input hmoves =>
      cases hmoves with
      | add p | remove p =>
          cases p with
          | lock => cases heffect
          | body => cases heffect; exact .inl (Effect.Silent.quiet ⟨fun _ => rfl, nofun⟩)
      | begin => cases heffect; exact .inr (.inr (.inr ⟨m, rfl, .inl rfl, .inl rfl⟩))
      | finish => cases heffect; exact .inr (.inr (.inr ⟨m, rfl, .inr (.inl rfl), .inr rfl⟩))
      | discard => cases heffect; exact .inr (.inr (.inr ⟨m, rfl, .inr (.inr rfl), .inl rfl⟩))
      | _ => cases heffect

end Config

/-! ## What the destructor and the workers know -/

/-- What the destructor knows of the dispatcher. -/
def QueuedThreadPool.DestroyPoint.Closes (p : DestroyPoint) (pool : Pool) : Prop :=
  pool.log.closing = true ∧ ∀ s, p = .emptyQueue s → pool.status ≠ .running

/-- The manager under inspection and those to come. -/
def ScanPoint.targets : ScanPoint → List ManagerId
  | .isIdle m rest _ => m :: rest
  | .setTask m rest _ => m :: rest

/-- A single worker starts the tasks in the order in which they are placed. -/
def TaskManager.RunPoint.Succeeds : TaskManager.RunPoint Call → Option Runnable →
    List (Option Runnable) → List Runnable → Prop
  | .running _, _, placed, started => placed = started.map some
  | .remove _, _, placed, started => started.map some <+: placed
  | .exited, _, placed, started => started.map some <+: placed
  | _, slot, placed, started => placed = started.map some ++ slot.toList.map some

theorem Pool.closing_apply {pool : Pool} (h : pool.log.closing = true) (effect : Effect) :
    (pool.apply effect).log.closing = true := by
  cases effect with
  | close => rfl
  | _ => exact h

namespace QueuedThreadPool

theorem DestroyPoint.Closes.apply {p : DestroyPoint} {pool : Pool} (h : p.Closes pool)
    (effect : Effect) : p.Closes (pool.apply effect) := by
  refine ⟨Pool.closing_apply h.1 effect, fun s hs => ?_⟩
  show (pool.apply effect).life.status ≠ .running
  rw [Pool.life_apply]
  exact Life.status_apply (h.2 s hs) effect

theorem DestroyPoint.Closes.after {X : Type} {p : DestroyPoint} {pool : Pool}
    (h : p.Closes pool) (piece : Piece X) : p.Closes (piece.after pool) := by
  unfold Piece.after
  split
  · exact h
  · exact h.apply _

/-- The destructor drops the queue only behind the end of the dispatcher. -/
theorem destroy_closes {p q : DestroyPoint} {pool : Pool} (h : p.Closes pool)
    (hnext : (destroy p pool).next = .inl q) : q.Closes ((destroy p pool).after pool) := by
  have hclosing : ((destroy p pool).after pool).log.closing = true := (h.after _).1
  refine ⟨hclosing, ?_⟩
  rintro s rfl
  cases p with
  | terminate p =>
      simp only [destroy, Instr.map_next] at hnext
      cases hbody : (terminate p pool).next with
      | inl next => rw [hbody] at hnext; cases hnext
      | inr => rw [hbody] at hnext; cases hnext
  | join =>
      have heffect : (destroy .join pool).effect = some .joinDispatcher := by
        simp only [destroy]
        split <;> rfl
      rw [Piece.after_of_some heffect]
      rintro ⟨⟩
  | emptyQueue p => exact (h.after _).2 p rfl
  | baseTerminate p =>
      simp only [destroy, Instr.map_next] at hnext
      cases hbody : (ThreadPool.terminate p pool).next with
      | inl next => rw [hbody] at hnext; cases hnext
      | inr => rw [hbody] at hnext; cases hnext
  | base p =>
      simp only [destroy, Instr.map_next] at hnext
      cases hbody : (ThreadPool.destroy p pool).next with
      | inl next => rw [hbody] at hnext; cases hnext
      | inr => rw [hbody] at hnext; cases hnext

end QueuedThreadPool

theorem ScanPoint.targets_start {rest : List ManagerId} {p : ScanPoint}
    (h : ScanPoint.start rest = .inl p) : p.targets = rest := by
  cases rest with
  | nil => cases h
  | cons m rest => cases h; rfl

theorem scan_targets {t : Option Runnable} {p q : ScanPoint} {pool : Pool}
    (hnext : (scan t p pool).next = .inl q) : q.targets ⊆ p.targets := by
  have hmoves := scan_moves t p pool
  generalize scan t p pool = piece at hmoves hnext
  cases hmoves with
  | probe m rest | idle m rest | offer m rest =>
      cases hnext
      exact List.Subset.refl _
  | busy m rest | refused m rest =>
      rw [ScanPoint.targets_start hnext]
      exact List.subset_cons_self m rest
  | taken => cases hnext

/-- What a thread of a queued pool knows of the tasks on their way. -/
structure Point.Ordered (size : Nat) (t : Tid) (p : Point) (pool : Pool) : Prop where
  alive : ∀ q, p = .dispatcher q → q ≠ .exited → pool.status = .running
  dispatches : ∀ q, p = .dispatcher q → q.Dispatches pool.custody
  targets : ∀ x q, p = .dispatcher (.assign x q) → ∀ m ∈ q.targets, m < size
  closes : ∀ q, p = t.calling (some (.queuedDestroy q)) → q.Closes pool
  ended : ∀ m, t = .worker m → size ≤ m → p = .worker .exited
  succeeds : size = 1 → ∀ q, t = .worker 0 → p = .worker q →
    q.Succeeds (pool.managers 0).task pool.custody.placed pool.log.started

/-- What the dispatcher does to the queue and the slots. -/
theorem QueuedThreadPool.Moves.effect_cases {p : RunPoint} {pool : Pool}
    {piece : Piece RunPoint} {effect : Effect} (hmoves : Moves pool p piece)
    (heffect : piece.effect = some effect) :
    effect.Silent ∨ effect = .pop ∨
    ∃ t m rest, effect = .place (some t) m ∧ p = .assign t (.setTask m rest .body) ∧
      (pool.managers m).task = none := by
  cases hmoves with
  | add p | remove p =>
      cases p with
      | lock => cases heffect
      | body => cases heffect; exact .inl ⟨fun _ => rfl, nofun⟩
  | assign t p =>
      have hscan := scan_moves (some t) p pool
      change (scan (some t) p pool).effect = some effect at heffect
      generalize scan (some t) p pool = piece at hscan heffect
      cases hscan with
      | taken m rest htask =>
          cases heffect
          exact .inr (.inr ⟨t, m, rest, rfl, rfl, htask⟩)
      | _ => cases heffect
  | pop => cases heffect; exact .inr (.inl rfl)
  | _ => cases heffect

namespace TaskManager.RunPoint

variable {q : TaskManager.RunPoint Call} {slot : Option Runnable}
  {placed : List (Option Runnable)} {started : List Runnable}

/-- The started tasks are the first of the placed ones. -/
theorem Succeeds.isPrefix (h : q.Succeeds slot placed started) : started.map some <+: placed := by
  cases q with
  | running => exact ⟨[], (List.append_nil _).trans (Eq.symm h)⟩
  | remove | exited => exact h
  | _ => exact ⟨_, Eq.symm h⟩

/-- The single worker is handed a task while it is outside of its monitor. -/
theorem Succeeds.place (h : q.Succeeds none placed started)
    (houtside : .manager 0 ∉ Point.held (.worker 0) (.worker q)) (t : Runnable) :
    q.Succeeds (some t) (placed ++ [some t]) started := by
  cases q with
  | add | enter | woken =>
      have hplaced : placed = started.map some ++ [] := h
      rw [List.append_nil] at hplaced
      rw [hplaced]
      rfl
  | remove | exited => exact h.trans (List.prefix_append _ _)
  | loop | inner => exact absurd List.mem_cons_self houtside
  | running call => cases call <;> simp [Point.held] at houtside

end TaskManager.RunPoint

/-- The single worker starts and ends the task in its slot. -/
theorem TaskManager.Moves.succeeds {note : MonitorId} {pool : Pool}
    {q : TaskManager.RunPoint Call} {piece : Piece (TaskManager.RunPoint Call)}
    (hmoves : TaskManager.Moves note 0 pool q piece)
    (h : q.Succeeds (pool.managers 0).task pool.custody.placed pool.log.started) :
    piece.next.Succeeds ((piece.after pool).managers 0).task (piece.after pool).custody.placed
      (piece.after pool).log.started := by
  have hemptied : ((pool.deleteTask 0).managers 0).task = none := by
    simp [Pool.deleteTask]
  cases hmoves with
  | add p => cases p <;> exact h
  | remove p => cases p <;> exact h
  | begin hgo htask =>
      obtain ⟨x, hx⟩ := Option.ne_none_iff_exists'.mp htask
      have hplaced : pool.custody.placed =
        pool.log.started.map some ++ (pool.managers 0).task.toList.map some := h
      show pool.custody.placed =
        (pool.log.started ++ (pool.managers 0).task.toList).map some
      rw [hplaced, List.map_append]
  | discard hgo => exact ⟨_, Eq.symm h⟩
  | leave hgo htask => exact ⟨_, Eq.symm h⟩
  | finish =>
      show pool.custody.placed =
        pool.log.started.map some ++ ((pool.deleteTask 0).managers 0).task.toList.map some
      rw [hemptied]
      exact h.trans (List.append_nil _).symm
  | enter | skip | wait | again | woken => exact h

theorem Pool.status_apply {effect : Effect} (h : effect ≠ .joinDispatcher) (pool : Pool) :
    (pool.apply effect).status = pool.status := by
  cases effect with
  | joinDispatcher => exact absurd rfl h
  | _ => rfl

/-- The dispatcher is joined only when it has ended. -/
theorem Call.code_joinDispatcher {call : Call} {pool : Pool}
    (heffect : (call.code pool).effect = some .joinDispatcher) :
    (call.code pool).op = .join .dispatcher ∨ pool.status ≠ .running := by
  by_cases hexecute : mayExecute call.method
  · rcases execute_effect hexecute heffect with ⟨_, h⟩ | ⟨_, _, h⟩ | ⟨_, h⟩ <;> cases h
  · cases code_ends hexecute heffect with
    | stops _ h => cases h
    | joinDispatcher hcall =>
        subst hcall
        simp only [code, piece, QueuedThreadPool.destroy]
        split
        · exact .inl rfl
        · next halive => exact .inr (by simpa [Pool.isAlive] using halive)

namespace Point.Ordered

variable {size : Nat} {t : Tid} {pool : Pool}

/-- A thread in a call of the pool, or outside. -/
theorem of_calling {call : Option Call} (hsize : ∀ m, t = .worker m → m < size)
    (hcloses : ∀ q, call = some (.queuedDestroy q) → q.Closes pool)
    (hsucceeds : size = 1 → t = .worker 0 → pool.custody.placed = pool.log.started.map some) :
    (t.calling call).Ordered size t pool where
  alive q hq := absurd hq (t.calling_ne_dispatcher _ q)
  dispatches q hq := absurd hq (t.calling_ne_dispatcher _ q)
  targets x q hq := absurd hq (t.calling_ne_dispatcher _ _)
  closes q hq := hcloses q (t.calling_injective hq)
  ended m hm hle := absurd (hsize m hm) (Nat.not_lt.mpr hle)
  succeeds hone q h0 hq := by
    subst h0
    cases hq
    exact hsucceeds hone rfl

theorem size_of_calling {call : Option Call} (h : (t.calling call).Ordered size t pool)
    (m : ManagerId) (ht : t = .worker m) : m < size := by
  subst ht
  exact Nat.not_le.mp fun hle => absurd (h.ended m rfl hle) nofun

end Point.Ordered

namespace Config

variable {cfg : Config} {pool : Pool} {t other : Tid} {input : Input} {p place : Point}
  {piece : Piece Point} {effect : Effect} {allowed : Method → Prop}

theorem Moves.joinDispatcher (hmoves : cfg.Moves pool t input p piece)
    (heffect : piece.effect = some .joinDispatcher) :
    piece.op = .join .dispatcher ∨ pool.status ≠ .running := by
  cases hmoves with
  | enter t method call ht hentry =>
      have hnone := Call.life_apply_entered heffect
        ⟨[], fun _ => ⟨true, .idle, false⟩, true, .running⟩
      cases hnone
  | call t call ht => exact Call.code_joinDispatcher heffect
  | dispatcher hmoves =>
      have hsame := hmoves.life_after
      rw [Life.after_of_some (by exact heffect)] at hsame
      exact .inr fun hrunning =>
        absurd ((congrArg Life.status hsame).trans hrunning) nofun
  | worker m input hmoves =>
      have hsame := hmoves.life_after
      rw [Life.after_of_some (by exact heffect)] at hsame
      exact .inr fun hrunning =>
        absurd ((congrArg Life.status hsame).trans hrunning) nofun

/-- In a call of the pool a thread neither places nor starts a task. -/
theorem Moves.placed_after (hmoves : cfg.Moves pool t input p piece) (ht : t ≠ .dispatcher)
    (hkind : cfg.kind = .queuedThreadPool) (hfits : p.Fits cfg.kind allowed t)
    (hown : ∀ m e, piece.effect = some e → ¬ e.Own m) :
    (piece.after pool).custody.placed = pool.custody.placed ∧
      (piece.after pool).log.started = pool.log.started := by
  cases heffect : piece.effect with
  | none => rw [Piece.after_of_none heffect]; exact ⟨rfl, rfl⟩
  | some e =>
      rw [Piece.after_of_some heffect, Pool.custody_apply]
      rcases hmoves.queue_cases ht hkind hfits heffect with
        hquiet | ⟨task, rfl⟩ | ⟨rfl, -⟩ | ⟨m, -, h, -⟩
      · exact ⟨hquiet.placed _, Pool.started_apply hquiet.started pool⟩
      · exact ⟨rfl, rfl⟩
      · exact ⟨rfl, rfl⟩
      · exact absurd h (hown m e heffect)

/-- Every piece of code keeps to the order of dispatch. -/
theorem Moves.ordered (hmoves : cfg.Moves pool t input p piece)
    (hkind : cfg.kind = .queuedThreadPool) (hfits : p.Fits cfg.kind allowed t)
    (htasks : ∀ m ∈ pool.taskList, m < cfg.size) (h : p.Ordered cfg.size t pool) :
    piece.next.Ordered cfg.size t (piece.after pool) := by
  cases hmoves with
  | enter t method call ht hentry =>
      refine .of_calling h.size_of_calling ?_ fun hone h0 => ?_
      · rintro q ⟨⟩
        rw [hkind] at hentry
        cases method <;> cases hentry
        exact ⟨rfl, nofun⟩
      · have hplaced : pool.custody.placed = pool.log.started.map some :=
          h.succeeds hone (.running none) h0 (by rw [h0]; rfl)
        have henter : cfg.Moves pool t (.call method) _ _ := .enter t method call ht hentry
        have hkept := henter.placed_after ht hkind hfits ?_
        · rw [hkept.1, hkept.2]
          exact hplaced
        · intro m e heffect hown
          rcases Call.entered_cases hentry t with ⟨task, -, hentered, -⟩ | ⟨-, hsilent⟩
          · cases hentered.symm.trans heffect
            rcases hown with hown | hown | hown <;> cases hown
          · exact (hsilent e heffect).not_own m hown
  | call t call ht =>
      have hcall : cfg.Moves pool t .go _ _ := .call t call ht
      have hkept := hcall.placed_after ht hkind hfits
      have hown : ∀ m e, (call.code pool).effect = some e → ¬ e.Own m := by
        intro m e heffect hown
        have hhandles := Call.code_handles call pool
        rw [heffect] at hhandles
        cases hhandles with
        | silent _ hsilent => exact (hsilent e rfl).not_own m hown
        | _ => rcases hown with hown | hown | hown <;> cases hown
      have hsucceeds : cfg.size = 1 → t = .worker 0 →
          ((call.code pool).after pool).custody.placed =
            ((call.code pool).after pool).log.started.map some := by
        intro hone h0
        have hplaced : pool.custody.placed = pool.log.started.map some :=
          h.succeeds hone (.running (some call)) h0 (by rw [h0]; rfl)
        obtain ⟨hsame, hstarted⟩ := hkept hown
        rw [Piece.after_map] at hsame hstarted
        rw [hsame, hstarted]
        exact hplaced
      cases hnext : (call.code pool).next with
      | inl next =>
          simp only [Instr.map_next, hnext]
          refine .of_calling h.size_of_calling ?_ hsucceeds
          rintro q hq
          cases Option.some.inj hq
          cases call with
          | queuedDestroy first =>
              obtain ⟨second, hsecond, heq⟩ := Call.next_of_piece hnext
              cases heq
              exact QueuedThreadPool.destroy_closes (h.closes first rfl) hsecond
          | _ => cases (Call.next_of_piece hnext).choose_spec.2
      | inr =>
          simp only [Instr.map_next, hnext]
          exact .of_calling h.size_of_calling nofun hsucceeds
  | dispatcher hmoves =>
      rename_i q body
      have hexited : q ≠ .exited := hmoves.not_exited
      refine ⟨?_, ?_, ?_, nofun, nofun, nofun⟩
      · rintro _ - -
        show (body.after pool).life.status = .running
        rw [Piece.life_after, hmoves.life_after]
        exact h.alive _ rfl hexited
      · rintro _ ⟨⟩
        exact hmoves.dispatches (h.dispatches _ rfl)
      · rintro task scan hnext
        have hnext : body.next = .assign task scan := Point.dispatcher.inj hnext
        cases hmoves with
        | offer t =>
            cases hstart : ScanPoint.start pool.taskList with
            | inl first =>
                rw [hstart] at hnext
                cases hnext
                exact ScanPoint.targets_start hstart ▸ htasks
            | inr taken => rw [hstart] at hnext; cases taken <;> cases hnext
        | assign t first =>
            cases hscan : (QueuedThreadPool.assign t first pool).next with
            | inl second =>
                rw [Instr.map_next, hscan] at hnext
                cases hnext
                exact fun m hm => h.targets _ first rfl m (scan_targets hscan hm)
            | inr taken =>
                rw [Instr.map_next, hscan] at hnext
                cases taken <;> cases hnext
        | add p | remove p => cases p <;> cases hnext
        | _ => cases hnext
  | worker m input hmoves =>
      rename_i q body
      refine ⟨nofun, nofun, nofun, ?_, ?_, ?_⟩
      · rintro destroy hnext
        exact absurd (Point.worker.inj hnext) (hmoves.next_not_running _)
      · rintro _ ⟨⟩ hle
        exact absurd (Point.worker.inj (h.ended m rfl hle)) hmoves.not_exited
      · rintro hone _ ⟨⟩ ⟨⟩
        exact hmoves.succeeds (h.succeeds hone _ rfl rfl)

/-- What a thread of a queued pool knows is not disturbed by the others. -/
theorem Moves.ordered_other (hmoves : cfg.Moves pool t input p piece)
    (hkind : cfg.kind = .queuedThreadPool) (hfits : p.Fits cfg.kind allowed t)
    (h : p.Ordered cfg.size t pool) (heffect : piece.effect = some effect) (hne : other ≠ t)
    (hplace : place.Fits cfg.kind allowed other) (hother : place.Ordered cfg.size other pool)
    (hdisjoint : ∀ m, m ∈ p.held t → m ∉ place.held other)
    (hjoin : piece.op = .join other → place.exited = true) :
    place.Ordered cfg.size other (pool.apply effect) := by
  have halive : ∀ q, place = .dispatcher q → q ≠ .exited →
      (pool.apply effect).status = .running := by
    rintro q rfl hexited
    obtain ⟨rfl, -⟩ := Point.Fits.kind_of_dispatcher hplace
    by_cases hjoined : effect = .joinDispatcher
    · subst hjoined
      rcases hmoves.joinDispatcher heffect with hop | hstatus
      · have hend := hjoin hop
        cases q <;> first | exact absurd rfl hexited | cases hend
      · exact absurd (hother.alive q rfl hexited) hstatus
    · rw [Pool.status_apply hjoined]
      exact hother.alive q rfl hexited
  refine ⟨halive, ?_, hother.targets, fun q hq => (hother.closes q hq).apply effect,
    hother.ended, ?_⟩
  · rintro q rfl
    obtain ⟨rfl, -⟩ := Point.Fits.kind_of_dispatcher hplace
    have hq := hother.dispatches q rfl
    rw [Pool.custody_apply]
    rcases hmoves.queue_cases hne.symm hkind hfits heffect with
      hquiet | ⟨task, rfl⟩ | ⟨rfl, rfl⟩ | ⟨m, -, hown, -⟩
    · refine ⟨?_, fun hexited => (hquiet.dropped _).trans (hq.dropped hexited), fun x hx => ?_,
        fun x hx => ?_⟩
      · rw [hquiet.pushed, hquiet.placed, hquiet.dropped, hquiet.queue]
        exact hq.order
      · rw [hquiet.queue]
        exact hq.front x hx
      · rw [hquiet.placed]
        exact hq.dispatched x hx
    · exact hq.push task
    · have hstatus := (h.closes _ rfl).2 _ rfl
      obtain rfl : q = .exited := by
        by_contra hexited
        exact hstatus (hother.alive q rfl hexited)
      exact hq.emptyQueue
    · rcases hown with rfl | rfl | rfl <;> 
        exact ⟨hq.order, hq.dropped, hq.front, hq.dispatched⟩
  · rintro hone q rfl rfl
    have hq := hother.succeeds hone q rfl rfl
    have hkept : effect.Quiet ∨ (∃ task, effect = .push task) ∨ effect = .emptyQueue ∨
        effect = .pop → q.Succeeds ((pool.apply effect).managers 0).task
          (pool.apply effect).custody.placed (pool.apply effect).log.started := by
      rw [Pool.task_apply, Pool.custody_apply]
      rintro (hquiet | ⟨task, rfl⟩ | rfl | rfl)
      · rw [hquiet.slot, hquiet.placed, Pool.started_apply hquiet.started]
        exact hq
      · exact hq
      · exact hq
      · exact hq
    by_cases ht : t = .dispatcher
    · subst ht
      obtain ⟨scan, rfl⟩ := Point.Fits.dispatcher hfits
      generalize hp : Point.dispatcher scan = start at hmoves
      cases hmoves with
      | enter t => exact absurd hp.symm (Tid.calling_ne_dispatcher _ _ _)
      | call t => exact absurd hp.symm (Tid.calling_ne_dispatcher _ _ _)
      | dispatcher hmoves =>
          cases hp
          rcases hmoves.effect_cases heffect with
            hsilent | rfl | ⟨x, m, rest, rfl, rfl, hslot⟩
          · exact hkept (.inl hsilent.quiet)
          · exact hkept (.inr (.inr (.inr rfl)))
          · have hm : m < cfg.size := h.targets x _ rfl m List.mem_cons_self
            obtain rfl : m = 0 := Nat.lt_one_iff.mp (hone ▸ hm)
            rw [hslot] at hq
            rw [Pool.task_apply, Pool.custody_apply]
            show q.Succeeds (Function.update pool.custody.slot 0 (some x) 0) _ _
            rw [Function.update_self]
            exact hq.place (hdisjoint _ List.mem_cons_self) x
    · rcases hmoves.queue_cases ht hkind hfits heffect with
        hquiet | hpush | ⟨rfl, -⟩ | ⟨m, rfl, -, hp⟩
      · exact hkept (.inl hquiet)
      · exact hkept (.inr (.inl hpush))
      · exact hkept (.inr (.inr (.inl rfl)))
      · have hm : m ≠ 0 := fun h0 => hne (h0 ▸ rfl)
        have hexited := h.ended m rfl (hone ▸ Nat.one_le_iff_ne_zero.mpr hm)
        rcases hp with rfl | rfl <;> cases hexited

variable (cfg)

/-- The order of dispatch in a queued pool. -/
def dispatching : Annotation Tid MonitorId Pool Point where
  assertion t p pool := cfg.kind = .queuedThreadPool → p.Ordered cfg.size t pool
  resource _ _ := True
  invariant pool := cfg.kind = .queuedThreadPool →
    (∀ m ∈ pool.taskList, m < cfg.size) ∧ (pool.log.closing = false → pool.log.dropped = [])

variable {cfg}

/-- Only the destructor drops tasks. -/
theorem Moves.dropped (hmoves : cfg.Moves pool t input p piece)
    (hkind : cfg.kind = .queuedThreadPool) (hfits : p.Fits cfg.kind allowed t)
    (h : p.Ordered cfg.size t pool) (heffect : piece.effect = some effect)
    (hdropped : pool.log.closing = false → pool.log.dropped = [])
    (hclosing : (pool.apply effect).log.closing = false) :
    (pool.apply effect).log.dropped = [] := by
  have hopen : pool.log.closing = false :=
    Bool.eq_false_iff.mpr fun h => Bool.eq_false_iff.mp hclosing (Pool.closing_apply h effect)
  have hbefore : pool.custody.dropped = [] := hdropped hopen
  show (pool.apply effect).custody.dropped = []
  rw [Pool.custody_apply]
  by_cases ht : t = .dispatcher
  · subst ht
    obtain ⟨q, rfl⟩ := Point.Fits.dispatcher hfits
    generalize hp : Point.dispatcher q = start at hmoves
    cases hmoves with
    | enter t => exact absurd hp.symm (Tid.calling_ne_dispatcher _ _ _)
    | call t => exact absurd hp.symm (Tid.calling_ne_dispatcher _ _ _)
    | dispatcher hmoves =>
        rcases hmoves.effect_cases heffect with hsilent | rfl | ⟨x, m, rest, rfl, -, -⟩
        · exact (hsilent.quiet.dropped _).trans hbefore
        · exact hbefore
        · exact hbefore
  · rcases hmoves.queue_cases ht hkind hfits heffect with
      hquiet | ⟨task, rfl⟩ | ⟨rfl, rfl⟩ | ⟨m, -, hown, -⟩
    · exact (hquiet.dropped _).trans hbefore
    · exact hbefore
    · exact absurd hopen (Bool.eq_false_iff.not.mpr (not_not.mpr (h.closes _ rfl).1))
    · rcases hown with rfl | rfl | rfl <;> exact hbefore

theorem dispatching_valid :
    Annotation.Valid cfg.program (cfg.shape fun _ => True) cfg.dispatching
      (fun _ _ _ _ => True) where
  assertion {t input p pool piece} hbefore _ hkind := by
    have hfits : p.Fits cfg.kind (fun _ => True) t := hbefore.assertion.1
    rw [dataAfter_eq]
    exact (code_moves hbefore.code).ordered hkind hfits (hbefore.invariant.2 hkind).1
      (hbefore.assertion.2 hkind)
  release _ _ _ _ := trivial
  invariant {t input p pool piece effect} hbefore _ heffect hkind := by
    have hfits : p.Fits cfg.kind (fun _ => True) t := hbefore.assertion.1
    obtain ⟨htasks, hdropped⟩ := hbefore.invariant.2 hkind
    refine ⟨fun m hm => ?_, (code_moves hbefore.code).dropped hkind hfits
      (hbefore.assertion.2 hkind) heffect hdropped⟩
    change m ∈ (pool.apply effect).life.taskList at hm
    rw [Pool.life_apply] at hm
    cases effect with
    | clear => cases hm
    | _ => exact htasks m hm
  frame {t input p pool piece effect other place} hbefore _ heffect hne hother hdisjoint hjoin
      hkind := by
    have hfits : p.Fits cfg.kind (fun _ => True) t := hbefore.assertion.1
    exact (code_moves hbefore.code).ordered_other hkind hfits (hbefore.assertion.2 hkind) heffect
      hne hother.1 (hother.2 hkind) hdisjoint hjoin
  frame_resource _ _ _ _ _ _ _ := trivial
  raise {t input p pool piece} m hcode _ hassertion hop hheld := by
    refine ⟨fun hkind => ?_, fun _ _ _ => trivial⟩
    have h := hassertion.2 hkind
    show p.handler.Ordered cfg.size t pool
    rcases p.handler_cases with hsame | ⟨call, rfl, hcaught⟩
    · rwa [hsame]
    · rw [hcaught]
      refine ⟨nofun, nofun, nofun, ?_, fun m ht hle => ?_, ?_⟩
      · cases t <;> nofun
      · cases h.ended m ht hle
      · rintro hone _ h0 ⟨⟩
        exact h.succeeds hone (.running (some call)) h0 rfl

theorem dispatching_initial : cfg.dispatching.Holds cfg.initial where
  assertion t hkind := by
    show (cfg.initialPoint t).Ordered cfg.size t cfg.initialPool
    cases t with
    | client c => exact .of_calling (by rintro _ ⟨⟩) (by rintro _ ⟨⟩) (by rintro _ ⟨⟩)
    | dispatcher =>
        have hpoint : ∃ q : QueuedThreadPool.RunPoint,
            cfg.initialPoint .dispatcher = .dispatcher q ∧
            (q = .add .lock ∧ cfg.dispatcherCreated = true ∨ q = .exited) := by
          simp only [initialPoint]
          split
          · next h => exact ⟨_, rfl, .inl ⟨rfl, h.2⟩⟩
          · exact ⟨_, rfl, .inr rfl⟩
        obtain ⟨q, hq, hcases⟩ := hpoint
        rw [hq]
        refine ⟨?_, ?_, ?_, by rintro _ ⟨⟩, by rintro _ ⟨⟩, by rintro _ _ ⟨⟩⟩
        · rintro _ ⟨⟩ hexited
          obtain ⟨-, hcreated⟩ := hcases.resolve_right hexited
          simp [initialPool, startStatus, hcreated]
        · rintro _ ⟨⟩
          rcases hcases with ⟨rfl, -⟩ | rfl
          · exact ⟨rfl, fun _ => rfl, by rintro _ ⟨⟩, by rintro _ ⟨⟩⟩
          · exact ⟨rfl, fun _ => rfl, by rintro _ ⟨⟩, by rintro _ ⟨⟩⟩
        · rintro x scan ⟨⟩
          rcases hcases with ⟨h, -⟩ | h <;> cases h
    | worker m =>
        have hpoint : ∃ q : TaskManager.RunPoint Call,
            cfg.initialPoint (.worker m) = .worker q ∧
            (q = .add .lock ∧ m < cfg.size ∨ q = .exited) := by
          simp only [initialPoint]
          split
          · next h => exact ⟨_, rfl, .inl ⟨rfl, h.1⟩⟩
          · exact ⟨_, rfl, .inr rfl⟩
        obtain ⟨q, hq, hcases⟩ := hpoint
        rw [hq]
        refine ⟨by rintro _ ⟨⟩, by rintro _ ⟨⟩, by rintro _ _ ⟨⟩, ?_, ?_, ?_⟩
        · rintro _ ⟨⟩
          rcases hcases with ⟨h, -⟩ | h <;> cases h
        · rintro _ ⟨⟩ hle
          rcases hcases with ⟨-, hm⟩ | rfl
          · exact absurd hm (Nat.not_lt.mpr hle)
          · rfl
        · rintro - _ - ⟨⟩
          rcases hcases with ⟨rfl, -⟩ | rfl
          · rfl
          · exact List.prefix_refl _
  resource _ _ := trivial
  invariant _ := ⟨fun _ hm => List.mem_range.mp hm, fun _ => rfl⟩

variable {guard : PoolState → PoolAction → Prop} {state : PoolState}

/-- The order of dispatch is kept in every state of every run. -/
theorem dispatching_of_reaches
    (hrun : Reaches cfg.program.step guard cfg.initial state) :
    cfg.dispatching.Holds state :=
  dispatching_valid.holds cfg.wellLocked (fun _ action _ _ => by cases action <;> trivial)
    cfg.locked_initial (fun _ hprior => shape_of_reaches_any hprior) dispatching_initial hrun

/-- First in, first out: the tasks handed to managers are a prefix of the tasks
pushed by `execute`, and with a single manager so are the started tasks. -/
theorem fifo (hkind : cfg.kind = .queuedThreadPool)
    (hrun : Reaches cfg.program.step guard cfg.initial state) :
    state.data.log.placed.map Prod.fst <+: state.data.log.pushed ∧
      (cfg.size = 1 → state.data.log.started.map some <+: state.data.log.pushed) := by
  have hholds := dispatching_of_reaches hrun
  have hplaced : state.data.custody.placed <+: state.data.custody.pushed := by
    obtain ⟨q, hq⟩ := dispatcher_point (shape_of_reaches_any hrun)
    have hdispatches := (hholds.assertion .dispatcher hkind).dispatches q hq
    rw [hdispatches.order, List.append_assoc]
    exact List.prefix_append _ _
  refine ⟨hplaced, fun hone => List.IsPrefix.trans ?_ hplaced⟩
  obtain ⟨q, hq⟩ := worker_point (shape_of_reaches_any hrun) 0
  exact ((hholds.assertion (.worker 0) hkind).succeeds hone q rfl hq).isPrefix

/-- The single worker runs its first task while a second one waits in the queue. -/
theorem fifo_running :
    ∃ state : PoolState, [some 7] <+: state.data.log.pushed ∧ state.data.log.started = [7] := by
  let cfg := Config.complete .queuedThreadPool 1
  let submit (x : Runnable) : List PoolAction :=
    .call (.client 0) (.execute (some x)) :: PoolAction.steps (.client 0) 2
  obtain ⟨state, hrun, hstarted⟩ : ∃ state : PoolState,
      Reaches cfg.program.step (fun _ _ => True) cfg.initial state ∧
        state.data.log.started = [7] :=
    Reaches.of_observed (fun _ _ => true)
      (submit 7 ++ submit 8 ++ PoolAction.steps .dispatcher 10 ++ PoolAction.steps (.worker 0) 4)
      (fun _ _ _ => trivial) (by decide +kernel)
  refine ⟨state, ?_, hstarted⟩
  have hfirst := (fifo rfl hrun).2 rfl
  rwa [hstarted] at hfirst

end Config

end ThreadPools.Posix
