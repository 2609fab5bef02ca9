/-
# What a step can be

The code of the threads read backwards: for every thread the pieces it can
perform, with the tests that lead to them. The proofs about runs split a step
by these relations and do not unfold the code. Calls of clients and calls of
tasks are the same code at different points, and are one case here.
-/

import ThreadPools.Posix.System

namespace ThreadPools.Posix

open ThreadPools.Concurrency

/-- The point of a thread in a call, or outside of the pool; a task that is not
in a call is outside. -/
def Tid.calling : Tid → Option Call → Point
  | .worker _, call => .worker (.running call)
  | _, call => .client call

@[simp] theorem Tid.calling_client (c : Nat) (call : Option Call) :
    (Tid.client c).calling call = .client call := rfl
@[simp] theorem Tid.calling_worker (m : ManagerId) (call : Option Call) :
    (Tid.worker m).calling call = .worker (.running call) := rfl

theorem Tid.calling_injective (t : Tid) : Function.Injective t.calling := by
  intro first second h
  cases t with
  | client => exact Point.client.inj h
  | dispatcher => exact Point.client.inj h
  | worker => exact TaskManager.RunPoint.running.inj (Point.worker.inj h)

theorem Tid.calling_ne_dispatcher (t : Tid) (call : Option Call)
    (q : QueuedThreadPool.RunPoint) : t.calling call ≠ .dispatcher q := by
  cases t <;> nofun

/-- The memory behind a piece of code. -/
def Piece.after {X : Type} (piece : Piece X) (pool : Pool) : Pool :=
  match piece.effect with
  | none => pool
  | some effect => pool.apply effect

@[simp] theorem Piece.after_map {X Y : Type} (f : X → Y) (piece : Piece X) (pool : Pool) :
    Piece.after (Instr.map f piece) pool = piece.after pool := rfl

theorem Piece.after_of_none {X : Type} {piece : Piece X} (h : piece.effect = none)
    (pool : Pool) : piece.after pool = pool := by
  simp [after, h]

theorem Piece.after_of_some {X : Type} {piece : Piece X} {effect : Effect}
    (h : piece.effect = some effect) (pool : Pool) : piece.after pool = pool.apply effect := by
  simp [after, h]

theorem Config.dataAfter_eq (cfg : Config) (piece : Piece Point) (pool : Pool) :
    cfg.program.dataAfter piece pool = piece.after pool := by
  simp only [Program.dataAfter, Piece.after]
  cases piece.effect <;> rfl

/-! ## Managers under inspection -/

/-- The steps of the loop which offers the task `t`. -/
inductive ScanPoint.Moves (t : Option Runnable) (pool : Pool) :
    ScanPoint → Piece (ScanPoint ⊕ Bool) → Prop
  | probe (m rest) :
      Moves t pool (.isIdle m rest .lock)
        { op := .lock (.manager m), next := .inl (.isIdle m rest .body) }
  | idle (m rest) (htask : (pool.managers m).task = none)
      (halive : (pool.managers m).status = .running) :
      Moves t pool (.isIdle m rest .body)
        { op := .unlock (.manager m), next := .inl (.setTask m rest .lock) }
  | busy (m rest) (hbusy : (pool.managers m).task ≠ none ∨
      (pool.managers m).status ≠ .running) :
      Moves t pool (.isIdle m rest .body)
        { op := .unlock (.manager m), next := ScanPoint.start rest }
  | offer (m rest) :
      Moves t pool (.setTask m rest .lock)
        { op := .lock (.manager m), next := .inl (.setTask m rest .body) }
  | taken (m rest) (htask : (pool.managers m).task = none) :
      Moves t pool (.setTask m rest .body)
        { op := .unlock (.manager m), effect := some (.place t m)
          notify := some (.manager m), next := .inr true }
  | refused (m rest) (htask : (pool.managers m).task ≠ none) :
      Moves t pool (.setTask m rest .body)
        { op := .unlock (.manager m), next := ScanPoint.start rest }

theorem scan_moves (t : Option Runnable) (p : ScanPoint) (pool : Pool) :
    p.Moves t pool (scan t p pool) := by
  cases p with
  | isIdle m rest p =>
      cases p with
      | lock => exact .probe m rest
      | body =>
          by_cases hidle : (pool.managers m).task = none ∧
              (pool.managers m).status = .running
          · have hscan : scan t (.isIdle m rest .body) pool =
                { op := .unlock (.manager m), next := .inl (.setTask m rest .lock) } := by
              simp [scan, TaskManager.isIdle, TaskManager.isAlive, Instr.map, hidle]
            rw [hscan]
            exact .idle m rest hidle.1 hidle.2
          · have hscan : scan t (.isIdle m rest .body) pool =
                { op := .unlock (.manager m), next := ScanPoint.start rest } := by
              have hresult : ((pool.managers m).task.isNone &&
                  (pool.managers m).isAlive) = false := by
                simpa [TaskManager.isAlive] using hidle
              simp [scan, TaskManager.isIdle, Instr.map, hresult]
            rw [hscan]
            exact .busy m rest (not_and_or.mp hidle)
  | setTask m rest p =>
      cases p with
      | lock => exact .offer m rest
      | body =>
          by_cases htask : (pool.managers m).task = none
          · have hscan : scan t (.setTask m rest .body) pool =
                { op := .unlock (.manager m), effect := some (.place t m)
                  notify := some (.manager m), next := .inr true } := by
              simp [scan, TaskManager.setTask, Instr.map, htask]
            rw [hscan]
            exact .taken m rest htask
          · have hscan : scan t (.setTask m rest .body) pool =
                { op := .unlock (.manager m), next := ScanPoint.start rest } := by
              simp [scan, TaskManager.setTask, Instr.map, htask]
            rw [hscan]
            exact .refused m rest htask

/-! ## The dispatcher and the workers -/

/-- The steps of the dispatcher. -/
inductive QueuedThreadPool.Moves (pool : Pool) : RunPoint → Piece RunPoint → Prop
  | add (p) :
      Moves pool (.add p)
        ((ThreadList.add .dispatcher p pool).map (Sum.elim .add fun _ => .enter))
  | enter : Moves pool .enter { op := .lock .dispatcher, next := .outer }
  | front {t rest} (hgo : pool.go = true) (hqueue : pool.queue = t :: rest) :
      Moves pool .outer { next := .inner t }
  | drained (h : pool.go = false ∨ pool.queue = []) : Moves pool .outer { next := .idle }
  | offer (t) (hgo : pool.go = true) :
      Moves pool (.inner (some t)) { next := .scanned t (ScanPoint.start pool.taskList) }
  | withdraw (t) (h : pool.go = false ∨ t = none) : Moves pool (.inner t) { next := .outer }
  | assign (t p) :
      Moves pool (.assign t p) ((QueuedThreadPool.assign t p pool).map (.scanned t))
  | pop (t) : Moves pool (.assigned t) { effect := some .pop, next := .outer }
  | waitInner (t) :
      Moves pool (.unassigned t) { op := .wait .dispatcher, next := .wokenInner t }
  | wokenInner (t) :
      Moves pool (.wokenInner t) { op := .lock .dispatcher, next := .inner (some t) }
  | waitIdle (hgo : pool.go = true) (hqueue : pool.queue = []) :
      Moves pool .idle { op := .wait .dispatcher, next := .wokenIdle }
  | busy (h : pool.go = false ∨ pool.queue ≠ []) : Moves pool .idle { next := .again }
  | wokenIdle : Moves pool .wokenIdle { op := .lock .dispatcher, next := .idle }
  | again (hgo : pool.go = true) : Moves pool .again { next := .outer }
  | leave (hgo : pool.go = false) :
      Moves pool .again { op := .unlock .dispatcher, next := .remove .lock }
  | remove (p) :
      Moves pool (.remove p)
        ((ThreadList.remove .dispatcher p pool).map (Sum.elim .remove fun _ => .exited))

theorem QueuedThreadPool.run_moves {p : RunPoint} {pool : Pool} {piece : Piece RunPoint}
    (hrun : run p pool = some piece) : Moves pool p piece := by
  cases p with
  | add p => cases hrun; exact .add p
  | enter => cases hrun; exact .enter
  | outer =>
      simp only [run] at hrun
      split at hrun
      · next hgo hqueue => cases hrun; exact .front hgo hqueue
      · next hnot =>
          cases hrun
          refine .drained ?_
          cases hgo : pool.go with
          | false => exact .inl rfl
          | true =>
              cases hqueue : pool.queue with
              | nil => exact .inr rfl
              | cons t rest => exact (hnot t rest hgo hqueue).elim
  | inner t =>
      cases t with
      | none =>
          cases hgo : pool.go <;> simp only [run, hgo] at hrun <;> cases hrun <;>
            exact .withdraw none (.inr rfl)
      | some task =>
          cases hgo : pool.go with
          | false =>
              simp only [run, hgo] at hrun
              cases hrun
              exact .withdraw (some task) (.inl hgo)
          | true =>
              simp only [run, hgo] at hrun
              cases hrun
              exact .offer task hgo
  | assign t p => cases hrun; exact .assign t p
  | assigned t => cases hrun; exact .pop t
  | unassigned t => cases hrun; exact .waitInner t
  | wokenInner t => cases hrun; exact .wokenInner t
  | idle =>
      simp only [run] at hrun
      split at hrun
      · next h =>
          cases hrun
          rw [Bool.and_eq_true, List.isEmpty_iff] at h
          exact .waitIdle h.1 h.2
      · next h =>
          cases hrun
          rw [Bool.and_eq_true, List.isEmpty_iff, not_and_or, Bool.not_eq_true] at h
          exact .busy h
  | wokenIdle => cases hrun; exact .wokenIdle
  | again =>
      simp only [run] at hrun
      split at hrun
      · next hgo => cases hrun; exact .again hgo
      · next hgo => cases hrun; exact .leave (Bool.eq_false_iff.mpr hgo)
  | remove p => cases hrun; exact .remove p
  | exited => cases hrun

theorem QueuedThreadPool.Moves.not_exited {pool : Pool} {p : RunPoint} {piece : Piece RunPoint}
    (hmoves : Moves pool p piece) : p ≠ .exited := by
  cases hmoves <;> nofun

/-- The steps of a worker outside of calls its task makes. -/
inductive TaskManager.Moves {C : Type} (note : MonitorId) (m : ManagerId) (pool : Pool) :
    RunPoint C → Piece (RunPoint C) → Prop
  | add (p) :
      Moves note m pool (.add p)
        ((ThreadList.add (.worker m) p pool).map (Sum.elim .add fun _ => .enter))
  | enter : Moves note m pool .enter { op := .lock (.manager m), next := .loop }
  | begin (hgo : (pool.managers m).go = true) (htask : (pool.managers m).task ≠ none) :
      Moves note m pool .loop { effect := some (.begin m), next := .running none }
  | skip (hgo : (pool.managers m).go = true) (htask : (pool.managers m).task = none) :
      Moves note m pool .loop { next := .inner }
  | discard (hgo : (pool.managers m).go = false) (htask : (pool.managers m).task ≠ none) :
      Moves note m pool .loop
        { op := .unlock (.manager m), effect := some (.discard m), next := .remove .lock }
  | leave (hgo : (pool.managers m).go = false) (htask : (pool.managers m).task = none) :
      Moves note m pool .loop { op := .unlock (.manager m), next := .remove .lock }
  | finish :
      Moves note m pool (.running none)
        { effect := some (.finish m), notify := some note, next := .inner }
  | wait (hgo : (pool.managers m).go = true) (htask : (pool.managers m).task = none) :
      Moves note m pool .inner { op := .wait (.manager m), next := .woken }
  | again (h : (pool.managers m).go = false ∨ (pool.managers m).task ≠ none) :
      Moves note m pool .inner { next := .loop }
  | woken : Moves note m pool .woken { op := .lock (.manager m), next := .inner }
  | remove (p) :
      Moves note m pool (.remove p)
        ((ThreadList.remove (.worker m) p pool).map (Sum.elim .remove fun _ => .exited))

/-- A worker makes a step of its own, or its task calls a method or goes on
with the one it has called. -/
theorem TaskManager.run_moves {N C : Type} {note : MonitorId} {enter : N → Option (Piece C)}
    {nested : C → Pool → Piece (C ⊕ Unit)} {m : ManagerId} {input : Input N}
    {p : RunPoint C} {pool : Pool} {piece : Piece (RunPoint C)}
    (hrun : run note enter nested m input p pool = some piece) :
    Moves note m pool p piece ∨
    (∃ method inner, input = .call method ∧ p = .running none ∧
      enter method = some inner ∧ piece = inner.map (.running ∘ some)) ∨
    (∃ c, input = .go ∧ p = .running (some c) ∧
      piece = (nested c pool).map (Sum.elim (.running ∘ some) fun _ => .running none)) := by
  cases p with
  | add p => cases input <;> cases hrun; exact .inl (.add p)
  | enter => cases input <;> cases hrun; exact .inl .enter
  | loop =>
      cases input with
      | go =>
          simp only [run] at hrun
          split at hrun
          · next hgo =>
              split at hrun <;> cases hrun
              · next htask => exact .inl (.begin hgo (Option.isSome_iff_ne_none.mp htask))
              · next htask => exact .inl (.skip hgo (by simpa using htask))
          · next hgo =>
              rw [Bool.not_eq_true] at hgo
              split at hrun <;> cases hrun
              · next htask => exact .inl (.discard hgo (Option.isSome_iff_ne_none.mp htask))
              · next htask => exact .inl (.leave hgo (by simpa using htask))
      | call => cases hrun
      | finish => cases hrun
  | running nested =>
      cases nested with
      | none =>
          cases input with
          | go => cases hrun
          | call method =>
              obtain ⟨inner, henter, rfl⟩ := Option.map_eq_some_iff.mp hrun
              exact .inr (.inl ⟨method, inner, rfl, rfl, henter, rfl⟩)
          | finish => cases hrun; exact .inl .finish
      | some c =>
          cases input <;> cases hrun
          exact .inr (.inr ⟨c, rfl, rfl, rfl⟩)
  | inner =>
      cases input with
      | go =>
          simp only [run] at hrun
          split at hrun <;> cases hrun
          · next h =>
              rw [Bool.and_eq_true, Option.isNone_iff_eq_none] at h
              exact .inl (.wait h.1 h.2)
          · next h =>
              rw [Bool.and_eq_true, Option.isNone_iff_eq_none, not_and_or,
                Bool.not_eq_true] at h
              exact .inl (.again h)
      | call => cases hrun
      | finish => cases hrun
  | woken => cases input <;> cases hrun; exact .inl .woken
  | remove p => cases input <;> cases hrun; exact .inl (.remove p)
  | exited => cases input <;> cases hrun

namespace TaskManager

/-- A worker does not leave the methods its task calls by itself. -/
theorem Moves.next_not_running {note : MonitorId} {m : ManagerId} {pool : Pool}
    {C : Type} {p : RunPoint C} {piece : Piece (RunPoint C)}
    (hmoves : Moves note m pool p piece) (c : C) : piece.next ≠ .running (some c) := by
  cases hmoves with
  | add p => cases p <;> nofun
  | remove p => cases p <;> nofun
  | _ => nofun

theorem Moves.not_exited {note : MonitorId} {m : ManagerId} {pool : Pool} {C : Type}
    {p : RunPoint C} {piece : Piece (RunPoint C)} (hmoves : Moves note m pool p piece) :
    p ≠ .exited := by
  cases hmoves <;> nofun

end TaskManager

/-! ## All threads -/

/-- The steps of the threads of a pool. -/
inductive Config.Moves (cfg : Config) (pool : Pool) : Tid → Input → Point → Piece Point → Prop
  /-- a client or a task calls a method -/
  | enter (t method call) (ht : t ≠ .dispatcher)
      (hentry : Call.entry cfg.kind method = some call) :
      Moves cfg pool t (.call method) (t.calling none)
        { effect := call.entered t, next := t.calling (some call) }
  /-- a call goes on, and returns when its body does -/
  | call (t call) (ht : t ≠ .dispatcher) :
      Moves cfg pool t .go (t.calling (some call))
        ((call.code pool).map (Sum.elim (t.calling ∘ some) fun _ => t.calling none))
  | dispatcher {p piece} (hmoves : QueuedThreadPool.Moves pool p piece) :
      Moves cfg pool .dispatcher .go (.dispatcher p) (piece.map .dispatcher)
  | worker (m input) {p piece}
      (hmoves : TaskManager.Moves (idleNotification cfg.kind) m pool p piece) :
      Moves cfg pool (.worker m) input (.worker p) (piece.map .worker)

theorem Config.enter_eq_some {cfg : Config} {t : Tid} {method : Method} {piece : Piece Call}
    (h : cfg.enter t method = some piece) :
    ∃ call, Call.entry cfg.kind method = some call ∧
      piece = { effect := call.entered t, next := call } := by
  obtain ⟨call, hentry, rfl⟩ := Option.map_eq_some_iff.mp h
  exact ⟨call, hentry, rfl⟩

theorem Config.code_moves {cfg : Config} {t : Tid} {input : Input} {p : Point} {pool : Pool}
    {piece : Piece Point} (hcode : cfg.code t input p pool = some piece) :
    cfg.Moves pool t input p piece := by
  cases t with
  | client c =>
      cases p with
      | client call =>
          obtain ⟨inner, hinner, rfl⟩ := Option.map_eq_some_iff.mp hcode
          cases call with
          | none =>
              cases input with
              | call method =>
                  obtain ⟨_, henter, rfl⟩ := Option.map_eq_some_iff.mp hinner
                  obtain ⟨call, hentry, rfl⟩ := enter_eq_some henter
                  exact .enter (.client c) method call nofun hentry
              | go => cases hinner
              | finish => cases hinner
          | some call =>
              cases input with
              | go =>
                  cases hinner
                  have hmoves : cfg.Moves pool (.client c) .go _ _ := .call (.client c) call nofun
                  cases hnext : (call.code pool).next with
                  | inl => simpa [Instr.map, hnext] using hmoves
                  | inr => simpa [Instr.map, hnext] using hmoves
              | call => cases hinner
              | finish => cases hinner
      | dispatcher => simp [code] at hcode
      | worker => simp [code] at hcode
  | dispatcher =>
      cases p with
      | dispatcher p =>
          cases input with
          | go =>
              obtain ⟨inner, hinner, rfl⟩ := Option.map_eq_some_iff.mp hcode
              exact .dispatcher (QueuedThreadPool.run_moves hinner)
          | call => simp [code] at hcode
          | finish => simp [code] at hcode
      | client => simp [code] at hcode
      | worker => simp [code] at hcode
  | worker m =>
      cases p with
      | worker p =>
          obtain ⟨inner, hinner, rfl⟩ := Option.map_eq_some_iff.mp hcode
          rcases TaskManager.run_moves hinner with
            hmoves | ⟨method, _, rfl, rfl, henter, rfl⟩ | ⟨call, rfl, rfl, rfl⟩
          · exact .worker m input hmoves
          · obtain ⟨call, hentry, rfl⟩ := enter_eq_some henter
            exact .enter (.worker m) method call nofun hentry
          · have hmoves : cfg.Moves pool (.worker m) .go _ _ := .call (.worker m) call nofun
            cases hnext : (call.code pool).next with
            | inl => simpa [Instr.map, hnext] using hmoves
            | inr => simpa [Instr.map, hnext] using hmoves
      | client => simp [code] at hcode
      | dispatcher => simp [code] at hcode

/-- A thread in a call goes on with it. -/
theorem Config.Moves.of_call {cfg : Config} {pool : Pool} {t : Tid} {input : Input}
    {call : Call} {piece : Piece Point} (ht : t ≠ .dispatcher)
    (hmoves : cfg.Moves pool t input (t.calling (some call)) piece) :
    piece = (call.code pool).map (Sum.elim (t.calling ∘ some) fun _ => t.calling none) := by
  generalize hp : t.calling (some call) = p at hmoves
  cases hmoves with
  | enter => exact absurd (t.calling_injective hp) nofun
  | call t other =>
      cases t.calling_injective hp
      rfl
  | dispatcher => exact absurd rfl ht
  | worker m input hmoves =>
      cases hp
      cases hmoves

/-- A thread that ends up in a call has just entered it or has gone on with it. -/
theorem Config.Moves.next_calling {cfg : Config} {pool : Pool} {t : Tid} {input : Input}
    {p : Point} {piece : Piece Point} (hmoves : cfg.Moves pool t input p piece) {call : Call}
    (hnext : piece.next = t.calling (some call)) :
    (∃ method, input = .call method ∧ p = t.calling none ∧
      Call.entry cfg.kind method = some call) ∨
    ∃ prior, p = t.calling (some prior) ∧ (prior.code pool).next = .inl call ∧
      Piece.after piece pool = Piece.after (prior.code pool) pool := by
  cases hmoves with
  | enter t method entered ht hentry =>
      cases t.calling_injective hnext
      exact .inl ⟨method, rfl, rfl, hentry⟩
  | call t prior ht =>
      cases hcode : (prior.code pool).next with
      | inl next =>
          simp only [Instr.map_next, hcode] at hnext
          cases t.calling_injective hnext
          exact .inr ⟨prior, rfl, hcode, rfl⟩
      | inr =>
          simp only [Instr.map_next, hcode] at hnext
          cases t.calling_injective hnext
  | dispatcher => exact absurd hnext.symm (Tid.calling_ne_dispatcher _ _ _)
  | worker m input hmoves => exact absurd (Point.worker.inj hnext) (hmoves.next_not_running call)

theorem Config.initialPoint_ne_calling (cfg : Config) (t : Tid) (call : Call) :
    cfg.initialPoint t ≠ t.calling (some call) := by
  cases t with
  | client => nofun
  | dispatcher => simp only [initialPoint]; split <;> nofun
  | worker => simp only [initialPoint]; split <;> nofun

/-- An exception is caught where it is raised, or in the task whose call has raised it. -/
theorem Point.handler_cases (p : Point) :
    p.handler = p ∨ ∃ call, p = .worker (.running (some call)) ∧
      p.handler = .worker (.running none) := by
  cases p with
  | client | dispatcher => exact .inl rfl
  | worker p =>
      cases p with
      | running nested =>
          cases nested with
          | none => exact .inl rfl
          | some call => exact .inr ⟨call, rfl, rfl⟩
      | _ => exact .inl rfl

/-- No exception leads into a call. -/
theorem Point.eq_of_handler {t : Tid} {p : Point} {call : Call}
    (h : p.handler = t.calling (some call)) : p = t.calling (some call) := by
  rcases p.handler_cases with hsame | ⟨nested, -, hcaught⟩
  · rwa [hsame] at h
  · rw [hcaught] at h
    cases t <;> cases h

/-- A step changes the memory by an effect, if at all. -/
theorem Config.data_step {cfg : Config} {state next : PoolState} {action : PoolAction}
    (hstep : cfg.program.step state action = some next) :
    next.data = state.data ∨ ∃ effect, next.data = state.data.apply effect := by
  rcases Program.step_cases hstep with
    ⟨t, input, choice, piece, -, hcode, -, rfl⟩ | ⟨t, input, choice, piece, -, -, -, rfl⟩ |
    ⟨m, t, -, -, rfl⟩
  · cases heffect : piece.effect with
    | none => exact .inl (cfg.program.dataAfter_none heffect state.data)
    | some effect => exact .inr ⟨effect, cfg.program.dataAfter_some heffect state.data⟩
  · exact .inl rfl
  · exact .inl rfl

/-- A step of a client in a call; an exception leaves it where it is. -/
theorem Config.step_of_client {cfg : Config} {state next : PoolState} {c : Nat} {call : Call}
    {input : Input} {choice : Nat} (hp : state.pc (.client c) = .client (some call))
    (hstep : cfg.program.step state (.run (.client c) input choice) = some next) :
    next.data = (call.code state.data).after state.data ∧
        next.pc (.client c) =
          (call.code state.data).next.elim (.client ∘ some) (fun _ => .client none) ∨
      next.data = state.data ∧ next.pc (.client c) = .client (some call) ∧
        Program.Raises state (.client c) (call.code state.data).op := by
  have hcode : ∀ piece, cfg.code (.client c) input (state.pc (.client c)) state.data = some piece →
      piece = (call.code state.data).map (Sum.elim (.client ∘ some) fun _ => .client none) := by
    intro piece hpiece
    rw [hp] at hpiece
    have ht : Tid.client c ≠ .dispatcher := nofun
    exact Moves.of_call ht (code_moves hpiece)
  rcases Program.step_cases hstep with
    ⟨t, input, choice, piece, haction, hpiece, -, rfl⟩ |
    ⟨t, input, choice, piece, haction, hpiece, hraises, rfl⟩ | ⟨m, t, haction, -, -⟩
  · cases haction
    obtain rfl := hcode piece hpiece
    refine .inl ⟨?_, ?_⟩
    · exact (cfg.dataAfter_eq _ _).trans (Piece.after_map _ _ _)
    · simp [Program.advance]
  · cases haction
    obtain rfl := hcode piece hpiece
    refine .inr ⟨rfl, ?_, hraises⟩
    simp only [Program.raise, Function.update_self, hp]
    rfl
  · cases haction

end ThreadPools.Posix
