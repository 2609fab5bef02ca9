/-
# What a step of an Agent++ pool can be

A thread is in a call, enters one, or is the dispatcher or a worker in its own loop. A call is
made by a client or by the task of a worker, and is the same code at other points.
-/

import ThreadPools.Agentpp.System

namespace ThreadPools.Agentpp

open ThreadPools.Concurrency

/-- The point of a client or a running task, inside a call or outside. -/
def Point.within (t : Tid) (call : Call ⊕ Unit) : Point :=
  match t with
  | .worker _ => .worker (.running (call.elim some fun _ => none))
  | _ => .client (call.elim some fun _ => none)

@[simp] theorem Point.within_call (t : Tid) (call : Call ⊕ Unit) :
    (Point.within t call).call = call.elim some fun _ => none := by
  cases t <;> cases call <;> rfl

/-- The memory behind a piece of code. -/
def Pool.behind {X : Type} (pool : Pool) (piece : Piece X) : Pool :=
  piece.effect.elim pool fun effect => pool.apply effect

@[simp] theorem Pool.behind_map {X Y : Type} (pool : Pool) (f : X → Y) (piece : Piece X) :
    pool.behind (piece.map f) = pool.behind piece := rfl

/-! ## The worker -/

namespace TaskManager

/-- The steps of a worker in its own loop. -/
inductive Moves {C : Type} (idleNotification : MonitorId) (m : ManagerId) (pool : Pool) :
    RunPoint C → Piece (RunPoint C) → Prop
  | enter : Moves idleNotification m pool .enter { op := .lock (.manager m), next := .loop }
  | loop (hgo : (pool.managers m).go = true) :
      Moves idleNotification m pool .loop { next := .test }
  | stop (hgo : (pool.managers m).go = false) :
      Moves idleNotification m pool .loop { next := .stopped }
  | begin (hfull : (pool.managers m).task.isSome = true) :
      Moves idleNotification m pool .test { effect := some (.begin m), next := .running none }
  | vacant (hempty : (pool.managers m).task = none) :
      Moves idleNotification m pool .test { next := .inner }
  | finish :
      Moves idleNotification m pool (.running none)
        { effect := some (.delete m), next := .oneTime }
  | retire (honce : pool.oneTimeExecution = true) :
      Moves idleNotification m pool .oneTime { next := .leave }
  | goOn (honce : pool.oneTimeExecution = false) :
      Moves idleNotification m pool .oneTime { next := .idle }
  | idle : Moves idleNotification m pool .idle { notify := some idleNotification, next := .inner }
  | inner (p : RunPoint C) (hp : p = if (pool.managers m).go then .empty else .loop) :
      Moves idleNotification m pool .inner { next := p }
  | empty (hempty : (pool.managers m).task = none) :
      Moves idleNotification m pool .empty { next := .wait }
  | full (hfull : (pool.managers m).task.isSome = true) :
      Moves idleNotification m pool .empty { next := .loop }
  | wait : Moves idleNotification m pool .wait { op := .wait (.manager m), next := .woken }
  | woken : Moves idleNotification m pool .woken { op := .lock (.manager m), next := .inner }
  | discard (effect : Option Effect)
      (heffect : effect = if (pool.managers m).task.isSome then some (.delete m) else none) :
      Moves idleNotification m pool .stopped { effect := effect, next := .leave }
  | leave : Moves idleNotification m pool .leave { op := .unlock (.manager m), next := .exited }

/-- A worker makes a step of its own, or is inside a method that its task has called. -/
theorem run_cases {N C : Type} {idleNotification : MonitorId} {enter : N → Option C}
    {nested : C → Pool → Piece (C ⊕ Unit)} {m : ManagerId} {input : Input N} {p : RunPoint C}
    {pool : Pool} {piece : Piece (RunPoint C)}
    (h : run idleNotification enter nested m input p pool = some piece) :
    Moves idleNotification m pool p piece ∨
      (∃ c, p = .running (some c) ∧
        piece = (nested c pool).map (Sum.elim (.running ∘ some) fun _ => .running none)) ∨
      ∃ method c, p = .running none ∧ enter method = some c ∧
        piece = { next := .running (some c) } := by
  cases input with
  | go =>
      cases p with
      | running nested =>
          cases nested with
          | none => cases h
          | some c =>
              cases h
              exact .inr (.inl ⟨c, rfl, rfl⟩)
      | enter => cases h; exact .inl .enter
      | loop =>
          cases h
          split
          · next hgo => exact .inl (.loop hgo)
          · next hgo => exact .inl (.stop (Bool.eq_false_iff.mpr hgo))
      | test =>
          simp only [run] at h
          split at h
          · next hfull => cases h; exact .inl (.begin hfull)
          · next hempty => cases h; exact .inl (.vacant (by simpa using hempty))
      | oneTime =>
          cases h
          split
          · next honce => exact .inl (.retire honce)
          · next honce => exact .inl (.goOn (Bool.eq_false_iff.mpr honce))
      | idle => cases h; exact .inl .idle
      | inner => cases h; exact .inl (.inner _ rfl)
      | empty =>
          cases h
          split
          · next hempty => exact .inl (.empty (by simpa using hempty))
          · next hfull => exact .inl (.full (by simpa [Option.isSome_iff_ne_none] using hfull))
      | wait => cases h; exact .inl .wait
      | woken => cases h; exact .inl .woken
      | stopped =>
          simp only [run] at h
          split at h
          · next hfull => cases h; exact .inl (.discard _ (by rw [if_pos hfull]))
          · next hempty => cases h; exact .inl (.discard _ (by rw [if_neg hempty]))
      | leave => cases h; exact .inl .leave
      | exited => cases h
  | call method =>
      cases p with
      | running nested =>
          cases nested with
          | none =>
              obtain ⟨c, hc, ⟨⟩⟩ := Option.map_eq_some_iff.mp h
              exact .inr (.inr ⟨method, c, rfl, hc, rfl⟩)
          | some c => cases h
      | _ => cases h
  | finish =>
      cases p with
      | running nested =>
          cases nested with
          | none => cases h; exact .inl .finish
          | some c => cases h
      | _ => cases h

end TaskManager

/-! ## The loop over the managers -/

/-- The steps of the loop that offers the task `t` to the managers. -/
inductive Scans (t : Option Runnable) (pool : Pool) :
    ScanPoint → Piece (ScanPoint ⊕ Bool) → Prop
  | probe (m : ManagerId) :
      Scans t pool (.isIdle m .lock)
        { op := .lock (.manager m), next := .inl (.isIdle m .body) }
  | enter (m : ManagerId) :
      Scans t pool (.setTask m .lock)
        { op := .lock (.manager m), next := .inl (.setTask m .body) }
  | leave (m n : ManagerId) (p : ScanPoint) (next : ScanPoint ⊕ Bool)
      (hp : p = .isIdle m .body ∨
        p = .setTask m .body ∧ (pool.managers m).task.isSome = true)
      (hnext : next = .inl (.isIdle n .lock) ∨ next = .inl (.setTask n .lock) ∨
        next = .inr false) :
      Scans t pool p { op := .unlock (.manager m), next := next }
  | place (m : ManagerId) (hempty : (pool.managers m).task = none) :
      Scans t pool (.setTask m .body)
        { op := .unlock (.manager m), effect := some (.place t m)
          notify := some (.manager m), next := .inr true }

theorem ScanPoint.start_cases (size : Nat) (m : ManagerId) :
    start size m = .inl (.isIdle m .lock) ∨ start size m = .inr false := by
  unfold start
  split
  · exact .inl rfl
  · exact .inr rfl

theorem scan_scans (size : Nat) (t : Option Runnable) (p : ScanPoint) (pool : Pool) :
    Scans t pool p (scan size t p pool) := by
  have hstart (m n : ManagerId) (p : ScanPoint)
      (hp : p = .isIdle m .body ∨
        p = .setTask m .body ∧ (pool.managers m).task.isSome = true) :
      Scans t pool p { op := .unlock (.manager m), next := ScanPoint.start size n } :=
    .leave m n _ _ hp ((ScanPoint.start_cases size n).imp_right .inr)
  cases p with
  | isIdle m p =>
      cases p with
      | lock => exact .probe m
      | body =>
          simp only [scan, TaskManager.isIdle, Instr.map, Sum.elim_inr]
          split
          · exact .leave m m _ _ (.inl rfl) (.inr (.inl rfl))
          · exact hstart m (m + 1) _ (.inl rfl)
  | setTask m p =>
      cases p with
      | lock => exact .enter m
      | body =>
          simp only [scan, TaskManager.setTask]
          split
          · next hempty => exact .place m (by simpa using hempty)
          · next hfull =>
              have hsome : (pool.managers m).task.isSome = true := by
                simpa [Option.isSome_iff_ne_none] using hfull
              exact hstart m (m + 1) _ (.inr ⟨rfl, hsome⟩)

theorem Scans.ne_wait {t : Option Runnable} {pool : Pool} {p : ScanPoint}
    {piece : Piece (ScanPoint ⊕ Bool)} (h : Scans t pool p piece) (n : MonitorId) :
    piece.op ≠ .wait n := by
  cases h <;> nofun

/-- A call waits only for an idle manager. -/
theorem Call.of_wait {size : Nat} {pool : Pool} {c : Call} {n : MonitorId}
    (h : (c.code size pool).op = .wait n) : n = .pool ∧ ∃ t, c = .execute t .failed := by
  cases c with
  | execute t p =>
      cases p with
      | failed =>
          cases h
          exact ⟨rfl, t, rfl⟩
      | scan p => exact absurd h ((scan_scans size t p pool).ne_wait n)
      | _ => cases h
  | queuedExecute t p =>
      cases p with
      | assign p =>
          cases p with
          | scan p => exact absurd h ((scan_scans size t p pool).ne_wait n)
          | _ => cases h
      | _ => cases h
  | terminate p =>
      cases p with
      | stop m p => cases p <;> cases h
      | _ => cases h
  | setOneTimeExecution | stop => cases h

/-! ## All threads -/

/-- The steps of a thread. -/
inductive Moves (cfg : Config) (t : Tid) (pool : Pool) : Point → Piece Point → Prop
  | call (c : Call) :
      Moves cfg t pool (.within t (.inl c)) ((c.code cfg.size pool).map (.within t))
  | enter (method : Method) (c : Call) (hentry : Call.entry cfg.kind method = some c) :
      Moves cfg t pool (.within t (.inr ())) { next := .within t (.inl c) }
  | dispatcher (p : QueuedThreadPool.RunPoint) (piece : Piece QueuedThreadPool.RunPoint)
      (ht : t = .dispatcher) (hrun : QueuedThreadPool.run cfg.size p pool = some piece) :
      Moves cfg t pool (.dispatcher p) (piece.map .dispatcher)
  | worker (m : ManagerId) (p : TaskManager.RunPoint Call)
      (piece : Piece (TaskManager.RunPoint Call)) (ht : t = .worker m)
      (hmoves : TaskManager.Moves (idleNotification cfg.kind) m pool p piece) :
      Moves cfg t pool (.worker p) (piece.map .worker)

theorem within_worker (m : ManagerId) (piece : Piece (Call ⊕ Unit)) :
    (piece.map (Sum.elim (TaskManager.RunPoint.running ∘ some) fun _ => .running none)).map
        Point.worker =
      piece.map (Point.within (.worker m)) := by
  obtain ⟨op, effect, notify, next⟩ := piece
  cases next <;> rfl

theorem within_client (c : Nat) (piece : Piece (Call ⊕ Unit)) :
    (piece.map (Sum.elim some fun _ => none)).map Point.client =
      piece.map (Point.within (.client c)) := by
  obtain ⟨op, effect, notify, next⟩ := piece
  cases next <;> rfl

theorem client_moves {cfg : Config} {c : Nat} {input : Input} {call : Option Call} {pool : Pool}
    {piece : Piece (Option Call)} (h : cfg.clientCode input call pool = some piece) :
    Moves cfg (.client c) pool (.client call) (piece.map .client) := by
  cases input with
  | go =>
      cases call with
      | none => cases h
      | some call =>
          cases h
          exact within_client c _ ▸ .call call
  | call method =>
      cases call with
      | none =>
          obtain ⟨call, hentry, ⟨⟩⟩ := Option.map_eq_some_iff.mp h
          exact .enter method call hentry
      | some call => cases h
  | finish => cases h

theorem code_moves {cfg : Config} {t : Tid} {input : Input} {p : Point} {pool : Pool}
    {instr : Piece Point} (h : cfg.code t input p pool = some instr) :
    Moves cfg t pool p instr := by
  cases t with
  | client c =>
      cases p with
      | client call =>
          obtain ⟨piece, hpiece, rfl⟩ := Option.map_eq_some_iff.mp h
          exact client_moves hpiece
      | dispatcher p | worker p => cases h
  | dispatcher =>
      cases p with
      | dispatcher p =>
          cases input with
          | go =>
              obtain ⟨piece, hpiece, rfl⟩ := Option.map_eq_some_iff.mp h
              exact .dispatcher p piece rfl hpiece
          | call method | finish => cases h
      | client call | worker p => cases input <;> cases h
  | worker m =>
      cases p with
      | worker p =>
          obtain ⟨piece, hpiece, rfl⟩ := Option.map_eq_some_iff.mp h
          rcases TaskManager.run_cases hpiece with
            hmoves | ⟨c, rfl, rfl⟩ | ⟨method, c, rfl, hentry, rfl⟩
          · exact .worker m p piece rfl hmoves
          · exact within_worker m _ ▸ .call c
          · exact .enter method c hentry
      | client call | dispatcher p => cases h

/-- The three waits: for an idle manager, of the dispatcher, and of a worker. -/
theorem Moves.of_wait {cfg : Config} {t : Tid} {pool : Pool} {p : Point} {instr : Piece Point}
    {n : MonitorId} (h : Moves cfg t pool p instr) (hop : instr.op = .wait n) :
    (n = .pool ∧ ∃ task, p = .within t (.inl (.execute task .failed)) ∧
      instr.next = .within t (.inl (.execute task .woken))) ∨
    (n = .dispatcher ∧ p = .dispatcher .wait ∧ instr.next = .dispatcher .woken) ∨
    ∃ m, t = .worker m ∧ n = .manager m ∧ p = .worker .wait ∧ instr.next = .worker .woken := by
  cases h with
  | call c =>
      obtain ⟨rfl, task, rfl⟩ := Call.of_wait hop
      exact .inl ⟨rfl, task, rfl, rfl⟩
  | enter method c hentry => cases hop
  | dispatcher p piece ht hrun =>
      cases p with
      | wait =>
          cases hrun
          cases hop
          exact .inr (.inl ⟨rfl, rfl, rfl⟩)
      | assign x p =>
          cases hrun
          cases p with
          | scan p => exact absurd hop ((scan_scans cfg.size (some x) p pool).ne_wait n)
          | _ => cases hop
      | loop =>
          simp only [QueuedThreadPool.run] at hrun
          split at hrun <;> cases hrun <;> cases hop
      | exited => cases hrun
      | _ =>
          cases hrun
          cases hop
  | worker m p piece ht hmoves =>
      cases hmoves with
      | wait =>
          cases hop
          exact .inr (.inr ⟨m, ht, rfl, rfl, rfl⟩)
      | _ => cases hop

end ThreadPools.Agentpp
