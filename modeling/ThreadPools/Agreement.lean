/-
# The two implementations of `is_idle` and `is_busy` and their documentation

The documentation of `ThreadPool::is_idle` promises true when no manager is executing, and
that of `is_busy` when all of them are. The Boost implementation of `is_busy` looks for an
idle manager and returns false when there is one; the POSIX implementation looks for a
manager that is not idle and returns true when there is one. It waits for the managers that
are executing, and finds them idle.
-/

import ThreadPools.Posix.Busy
import ThreadPools.Boost.Busy

namespace ThreadPools

open Concurrency
open Annotation (Respects)
open Posix (Executes Handed Survey)
open Boost.Pool (ReturnsBusy)

/-- What the documentation says about the calls of the client `c` that get the lock of a POSIX
pool of `size` managers in `state`, and about a Boost pool with tasks in the same slots. -/
structure Documented (size c : Nat) (state : Posix.PoolState) : Prop where
  busyReturns : ∃ result, (Posix.Config.complete .threadPool size).Returns c .isBusy state result
  idleReturns : ∃ result, (Posix.Config.complete .threadPool size).Returns c .isIdle state result
  busy : ∀ result, (Posix.Config.complete .threadPool size).Returns c .isBusy state result →
    (result = true ↔ ∀ m < size, Executes state m)
  idle : ∀ result, (Posix.Config.complete .threadPool size).Returns c .isIdle state result →
    (result = true ↔ ∀ m < size, ¬ Executes state m)
  agree : ∀ first second,
    (Posix.Config.complete .threadPool size).Returns c .isBusy state first →
    ReturnsBusy size (fun m => (state.data.managers m).task.isSome) second → first = second
  neither : (∃ m < size, Executes state m) → (∃ m < size, ¬ Executes state m) →
    ∀ busy idle, (Posix.Config.complete .threadPool size).Returns c .isBusy state busy →
      (Posix.Config.complete .threadPool size).Returns c .isIdle state idle →
      busy = false ∧ idle = false

section

variable {size c : Nat} {state : Posix.PoolState}
  (hused : (Posix.Config.complete .threadPool size).Used state)
  (houtside : state.pc (.client c) = .client none)
  (hfree : (state.monitor .pool).owner = none)

include hused houtside hfree

/-- A call that comes to taken-up tasks only returns its last result. -/
theorem result_of_not_handed {survey : Survey} (hsize : 0 < size)
    (hquiet : ∀ m < size, ¬ Handed state m) {result : Bool}
    (h : (Posix.Config.complete .threadPool size).Returns c survey state result) :
    result = survey.atEnd :=
  (Survey.result_of_returns hused houtside hfree hsize (List.append_nil _).symm
    (fun m hm => hquiet m (List.mem_range.mp hm)) (by rintro _ ⟨⟩) h).2

/-- The documentation is right about a pool without a task. -/
theorem documented_of_vacant (hsize : 0 < size)
    (hvacant : ∀ m < size, (state.data.managers m).task = none) : Documented size c state := by
  have hquiet : ∀ m < size, ¬ Handed state m := fun m hm hhanded => hhanded.1 (hvacant m hm)
  have hnone : ∀ m < size, ¬ Executes state m := fun m hm hexecutes =>
    hexecutes.1 (hvacant m hm)
  have hclear : Survey.Clear state (List.range size) := by
    refine Survey.clear_of_forall fun m hm hcalls => ?_
    obtain ⟨call, hcall⟩ := hcalls
    exact Posix.Config.slot_of_executing hused ⟨some call, hcall⟩
      (hvacant m (List.mem_range.mp hm))
  have hbusy : ∀ result,
      (Posix.Config.complete .threadPool size).Returns c .isBusy state result → result = false :=
    fun result h => result_of_not_handed hused houtside hfree hsize hquiet h
  refine ⟨?_, ?_, ?_, ?_, ?_, ?_⟩
  · obtain ⟨result, h, -⟩ := Survey.exists_returns hused houtside hfree .isBusy hsize hclear
    exact ⟨result, h⟩
  · obtain ⟨result, h, -⟩ := Survey.exists_returns hused houtside hfree .isIdle hsize hclear
    exact ⟨result, h⟩
  · intro result h
    rw [hbusy result h]
    exact ⟨by rintro ⟨⟩, fun hall => absurd (hall 0 hsize) (hnone 0 hsize)⟩
  · intro result h
    have hidle : result = true := result_of_not_handed hused houtside hfree hsize hquiet h
    exact ⟨fun _ => hnone, fun _ => hidle⟩
  · intro first second hfirst hsecond
    refine (hbusy first hfirst).trans (Boost.Pool.not_busy_of_vacant hsize ?_ hsecond).symm
    intro m hm
    rw [hvacant m hm]
    rfl
  · rintro ⟨m, hm, hexecutes⟩
    exact absurd hexecutes (hnone m hm)

/-- It is wrong about a pool with a task. -/
theorem not_documented_of_task (hsize : 0 < size) {m : Posix.ManagerId} (hm : m < size)
    (htask : (state.data.managers m).task ≠ none) : ¬ Documented size c state := by
  intro hdocumented
  by_cases hhanded : ∃ k < size, Handed state k
  · by_cases hclear : Survey.Clear state (List.range size)
    · -- the call stops at a task nobody has begun with
      obtain ⟨result, h, hresult⟩ :=
        Survey.exists_returns hused houtside hfree .isBusy hsize hclear
      have hall := (hdocumented.busy result h).mp (hresult hhanded)
      obtain ⟨k, hk, hnot⟩ := hhanded
      exact hnot.2 (hall k hk).2
    · -- the call does not come to its end
      obtain ⟨front, k, behind, hsplit, hfront, hcalls⟩ := Survey.exists_blocked hclear
      obtain ⟨result, h⟩ := hdocumented.busyReturns
      have hnone := (Survey.result_of_returns hused houtside hfree hsize hsplit hfront
        (by rintro _ ⟨⟩; exact hcalls) h).1
      cases hnone
  · -- the call finds every manager idle in the end
    have hquiet : ∀ k < size, ¬ Handed state k := fun k hk h => hhanded ⟨k, hk, h⟩
    obtain ⟨result, h⟩ := hdocumented.idleReturns
    have hidle : result = true := result_of_not_handed hused houtside hfree hsize hquiet h
    have htaken := (Posix.not_handed_iff.mp (hquiet m hm)).resolve_left htask
    exact (hdocumented.idle result h).mp hidle m hm ⟨htask, htaken⟩

end

/-- The documentation is right about a call if no manager has a task when the call gets the
lock of the pool. -/
theorem documented_iff {size c : Nat} {state : Posix.PoolState} (hsize : 0 < size)
    (hrun : Reaches (Posix.Config.complete .threadPool size).program.step
      (Respects Posix.NoShutdown) (Posix.Config.complete .threadPool size).initial state)
    (houtside : state.pc (.client c) = .client none)
    (hfree : (state.monitor .pool).owner = none) :
    Documented size c state ↔ ∀ m < size, (state.data.managers m).task = none := by
  constructor
  · intro hdocumented m hm
    by_contra htask
    exact not_documented_of_task hrun houtside hfree hsize hm htask hdocumented
  · exact documented_of_vacant hrun houtside hfree hsize

/-- One of two workers has finished its task, the other one has never had any. -/
theorem documented_iff_two : ∃ state : Posix.PoolState,
    state.data.log.finished = [1] ∧ Documented 2 1 state := by
  let cfg := Posix.Config.complete .threadPool 2
  obtain ⟨state, hrun, hobserved⟩ : ∃ state : Posix.PoolState,
      Reaches cfg.program.step (Respects Posix.NoShutdown) cfg.initial state ∧
        (state.data.log.finished, [0, 1].map fun m => (state.data.managers m).task,
          state.pc (.client 1), (state.monitor .pool).owner) =
        ([1], [none, none], .client none, none) :=
    Reaches.of_observed
      (fun state action => decide (Respects Posix.NoShutdown state action))
      (Posix.PoolAction.call (.client 0) (.execute (some 1)) ::
        Posix.PoolAction.steps (.client 0) 7 ++ Posix.PoolAction.steps (.worker 0) 4 ++
        [Posix.PoolAction.finish 0])
      (fun _ _ => of_decide_eq_true) (by decide +kernel)
  simp only [Prod.mk.injEq, List.map_cons, List.cons.injEq] at hobserved
  obtain ⟨hfinished, ⟨hfirst, hsecond, -⟩, houtside, hfree⟩ := hobserved
  refine ⟨state, hfinished, (documented_iff (by decide) hrun houtside hfree).mpr ?_⟩
  intro m hm
  match m, hm with
  | 0, _ => exact hfirst
  | 1, _ => exact hsecond

/-- Both workers of a pool of two are executing a task: `is_busy` waits for their ends and
returns false, and `is_idle` returns true. -/
theorem isBusy_undocumented : ∃ state : Posix.PoolState,
    Reaches (Posix.Config.complete .threadPool 2).program.step
      (Respects Posix.NoShutdown) (Posix.Config.complete .threadPool 2).initial state ∧
    (∀ m < 2, Posix.Executing state m ∧ Executes state m) ∧
    (Posix.Config.complete .threadPool 2).Returns 1 .isBusy state false ∧
    (Posix.Config.complete .threadPool 2).Returns 1 .isIdle state true ∧
    ¬ Documented 2 1 state := by
  let cfg := Posix.Config.complete .threadPool 2
  obtain ⟨state, hrun, hobserved⟩ : ∃ state : Posix.PoolState,
      Reaches cfg.program.step (Respects Posix.NoShutdown) cfg.initial state ∧
        ([0, 1].map fun m => (state.data.managers m).task,
          [.worker 0, .worker 1, .client 1].map state.pc,
          [.manager 0, .manager 1, .pool].map fun x => (state.monitor x).owner) =
        ([some 1, some 2], [.worker (.running none), .worker (.running none), .client none],
          [some (.worker 0), some (.worker 1), none]) :=
    Reaches.of_observed
      (fun state action => decide (Respects Posix.NoShutdown state action))
      (Posix.PoolAction.call (.client 0) (.execute (some 1)) ::
        Posix.PoolAction.steps (.client 0) 7 ++
        Posix.PoolAction.call (.client 0) (.execute (some 2)) ::
        Posix.PoolAction.steps (.client 0) 9 ++
        Posix.PoolAction.steps (.worker 0) 4 ++ Posix.PoolAction.steps (.worker 1) 4)
      (fun _ _ => of_decide_eq_true) (by decide +kernel)
  simp only [Prod.mk.injEq, List.map_cons, List.cons.injEq] at hobserved
  obtain ⟨⟨htask, htask', -⟩, ⟨hpc, hpc', houtside, -⟩, howner, howner', hfree, -⟩ := hobserved
  have hexecuting : ∀ m < 2, Posix.Executing state m ∧ Executes state m := by
    intro m hm
    match m, hm with
    | 0, _ => exact ⟨⟨none, hpc⟩, by rw [htask]; exact Option.some_ne_none 1, howner⟩
    | 1, _ => exact ⟨⟨none, hpc'⟩, by rw [htask']; exact Option.some_ne_none 2, howner'⟩
  have hquiet : ∀ m < 2, ¬ Handed state m := fun m hm h => h.2 (hexecuting m hm).2.2
  have hclear : Survey.Clear state (List.range 2) := by
    refine Survey.clear_of_forall fun m hm hcalls => ?_
    obtain ⟨call, hcall⟩ := hcalls
    match m, List.mem_range.mp hm with
    | 0, _ => cases hpc.symm.trans hcall
    | 1, _ => cases hpc'.symm.trans hcall
  obtain ⟨busy, hbusy, -⟩ :=
    Survey.exists_returns hrun houtside hfree .isBusy (by decide) hclear
  obtain rfl : busy = false := result_of_not_handed hrun houtside hfree (by decide) hquiet hbusy
  obtain ⟨idle, hidle, -⟩ :=
    Survey.exists_returns hrun houtside hfree .isIdle (by decide) hclear
  obtain rfl : idle = true := result_of_not_handed hrun houtside hfree (by decide) hquiet hidle
  refine ⟨state, hrun, hexecuting, hbusy, hidle, fun hdocumented => ?_⟩
  have hall := (hdocumented.busy false hbusy).mpr fun m hm => (hexecuting m hm).2
  cases hall

end ThreadPools
