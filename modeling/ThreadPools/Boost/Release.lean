/-
# The end of a Boost pool

The destructor joins one worker after the other. A worker that has been joined has ended,
so behind the destructor all workers have left their loops.
-/

import ThreadPools.Boost.Guarded

namespace ThreadPools.Boost.Pool

open ThreadPools.Concurrency

/-- The worker of `m` has ended. -/
def State.Ended (state : State) (m : ManagerId) : Prop :=
  state.pc (.worker m) = .worker .exited

/-- The manager the destructor has got to. -/
def ThreadPool.DestroyPoint.position : ThreadPool.DestroyPoint → ManagerId
  | .next m => m
  | .manager m _ => m

/-- Whoever has been joined has ended. -/
structure Joined (size : Nat) (state : State) : Prop where
  idle : ∀ m, (state.memory.managers m).status = .idle → state.Ended m
  passed : ∀ t p, (state.pc t).call = some (.destroy p) → ∀ m, m < p.position → state.Ended m
  released : state.memory.log.released = true → ∀ m, m < size → state.Ended m

variable {size : Nat} {state next : State} {action : Action} {t : Tid} {m : ManagerId}
  {memory : Memory} {choice : Choice} {ended : ManagerId → Bool}

/-- How the destructor goes on. -/
theorem destroy_next {p : ThreadPool.DestroyPoint} {piece : Piece (ThreadPool.DestroyPoint ⊕ Unit)}
    (hpiece : ThreadPool.destroy size ended t choice p memory = some piece) :
    (∀ q, piece.next = .inl q → q.position = p.position ∨
        q.position = p.position + 1 ∧
          ((memory.managers p.position).status = .idle ∨ ended p.position = true)) ∧
      (∀ m, piece.effect = .join m → ended m = true) ∧
      (piece.effect = .release → size ≤ p.position) := by
  cases p with
  | next m =>
      simp only [ThreadPool.destroy] at hpiece
      split at hpiece <;> cases hpiece
      · refine ⟨fun q hq => ?_, by rintro _ ⟨⟩, by rintro ⟨⟩⟩
        cases hq
        exact .inl rfl
      · next hm => exact ⟨by rintro _ ⟨⟩, by rintro _ ⟨⟩, fun _ => Nat.le_of_not_lt hm⟩
  | manager m p =>
      obtain ⟨body, hbody, rfl⟩ := Option.map_eq_some_iff.mp hpiece
      simp only [Piece.map_effect, Piece.map_next]
      cases p with
      | enter p | notify p | leave p =>
          obtain ⟨s, next, -, rfl⟩ := within_eq_some hbody
          refine ⟨fun q hq => ?_, by rintro _ ⟨⟩, by rintro ⟨⟩⟩
          cases next <;> cases hq <;> exact .inl rfl
      | stop =>
          cases hbody
          refine ⟨fun q hq => ?_, by rintro _ ⟨⟩, by rintro ⟨⟩⟩
          cases hq
          exact .inl rfl
      | join =>
          simp only [TaskManager.destroy] at hbody
          split at hbody
          · next hidle =>
              cases hbody
              refine ⟨fun q hq => ?_, by rintro _ ⟨⟩, by rintro ⟨⟩⟩
              cases hq
              exact .inr ⟨rfl, .inl hidle⟩
          · split at hbody <;> cases hbody
            next hended =>
              refine ⟨fun q hq => ?_, fun k hk => ?_, by rintro ⟨⟩⟩
              · cases hq
                exact .inr ⟨rfl, .inr hended⟩
              · cases hk
                exact hended

/-- What a call that joins a thread or ends the pool knows. -/
theorem Call.code_join {call : Call} {piece : Piece (Call ⊕ Unit)}
    (hpiece : call.code size ended t choice memory = some piece)
    (hplain : piece.effect.Plain ∨ ∃ p, call = .destroy p) :
    (∀ m, piece.effect = .join m → ended m = true) ∧
      (piece.effect = .release → ∃ p, call = .destroy p ∧ size ≤ p.position) := by
  rcases hplain with hplain | ⟨p, rfl⟩
  · refine ⟨fun m hm => ?_, fun hrelease => ?_⟩
    · rw [hm] at hplain
      exact hplain.elim
    · rw [hrelease] at hplain
      exact hplain.elim
  · obtain ⟨body, hbody, rfl⟩ := Option.map_eq_some_iff.mp hpiece
    obtain ⟨-, hjoin, hrelease⟩ := destroy_next hbody
    exact ⟨hjoin, fun heffect => ⟨p, rfl, hrelease heffect⟩⟩

/-- How a call goes on in the destructor. -/
theorem Call.code_passed {call : Call} {piece : Piece (Call ⊕ Unit)}
    (hpiece : call.code size ended t choice memory = some piece) {q : ThreadPool.DestroyPoint}
    (hnext : piece.next = .inl (.destroy q)) :
    ∃ p, call = .destroy p ∧ (q.position = p.position ∨ q.position = p.position + 1 ∧
      ((memory.managers p.position).status = .idle ∨ ended p.position = true)) := by
  obtain ⟨p, rfl⟩ := (Call.code_next hpiece hnext).2.1 q rfl
  obtain ⟨body, hbody, rfl⟩ := Option.map_eq_some_iff.mp hpiece
  rw [Piece.map_next] at hnext
  cases hbodyNext : body.next with
  | inl r =>
      rw [hbodyNext] at hnext
      cases hnext
      exact ⟨p, rfl, (destroy_next hbody).1 q hbodyNext⟩
  | inr =>
      rw [hbodyNext] at hnext
      cases hnext

theorem Memory.status_apply {effect : Effect} (hjoin : effect ≠ .join m)
    (hidle : ((memory.apply effect).managers m).status = .idle) :
    (memory.managers m).status = .idle := by
  have hother : ∀ k (f : TaskManager → TaskManager),
      ((memory.update k f).managers m).status = .idle →
      (k = m → (f (memory.managers m)).status = .idle → (memory.managers m).status = .idle) →
      (memory.managers m).status = .idle := fun k f hidle hself => by
    by_cases hm : m = k
    · subst hm
      rw [memory.update_managers_self] at hidle
      exact hself rfl hidle
    · rwa [memory.update_managers_of_ne hm] at hidle
  cases effect with
  | place task k => exact hother k (fun manager => { manager with task := task }) hidle fun _ => id
  | clear k => exact hother k (fun manager => { manager with task := none }) hidle fun _ => id
  | stop k => exact hother k (fun manager => { manager with go := false }) hidle fun _ => id
  | finish k =>
      exact hother k (fun manager => { manager with status := .finished }) hidle fun _ => nofun
  | join k =>
      refine hother k (fun manager => { manager with status := .idle }) hidle fun hk => ?_
      exact absurd (congrArg Effect.join hk) hjoin
  | _ => exact hidle

theorem Memory.released_apply {effect : Effect} (hrelease : effect ≠ .release)
    (h : (memory.apply effect).log.released = true) : memory.log.released = true := by
  cases effect with
  | release => exact absurd rfl hrelease
  | _ => exact h

/-- A worker that has ended stays so. -/
theorem State.Ended.step (h : state.Ended m) (hstep : step size state action = some next) :
    next.Ended m := by
  obtain ⟨piece, hpiece, rfl⟩ := step_eq_some hstep
  by_cases ht : Tid.worker m = action.thread
  · rw [State.Ended, ht, State.advance_pc_self]
    rw [State.Ended, ht] at h
    cases action with
    | run t choice =>
        simp only [Action.thread] at ht h
        subst ht
        simp only [State.piece, h] at hpiece
        cases hpiece
    | call t method =>
        simp only [Action.thread] at h
        simp only [State.piece, h] at hpiece
        cases hpiece
    | finish k =>
        simp only [Action.thread] at h
        simp only [State.piece, h] at hpiece
        cases hpiece
    | wakeUp x t =>
        simp only [State.piece] at hpiece
        split at hpiece <;> cases hpiece
        exact h
  · rw [State.Ended, State.advance_pc_of_ne _ ht]
    exact h

/-- Which steps join a thread or end the pool. -/
theorem Handles.joins {calls : Method → Prop} {p q : Point} {effect : Effect}
    (h : Handles size ended calls memory t p effect q) :
    (∀ m, effect = .join m → ended m = true) ∧
      (effect = .release → ∃ p', p.call = some (.destroy p') ∧ size ≤ p'.position) := by
  have hquiet : effect.Plain → (∀ m, effect = .join m → ended m = true) ∧
      (effect = .release → ∃ p', p.call = some (.destroy p') ∧ size ≤ p'.position) := fun hplain =>
    ⟨fun m hm => by rw [hm] at hplain; exact hplain.elim,
      fun hrelease => by rw [hrelease] at hplain; exact hplain.elim⟩
  cases h with
  | stay hplain => exact hquiet hplain
  | enter method => cases method <;> exact ⟨nofun, nofun⟩
  | call hcode _ hplain =>
      obtain ⟨hjoin, hrelease⟩ := Call.code_join hcode hplain
      refine ⟨hjoin, fun heffect => ?_⟩
      obtain ⟨p', hcall, hsize⟩ := hrelease heffect
      exact ⟨p', by rw [Tid.call_calling, hcall], hsize⟩
  | place => exact ⟨nofun, nofun⟩
  | work ht hworks =>
      cases hworks with
      | keep hplain | forget hplain => exact hquiet hplain
      | vacant | begin | discard | delete | clear => exact ⟨nofun, nofun⟩
  | finish => exact ⟨nofun, nofun⟩

/-- How a thread gets to a point of the destructor. -/
theorem Handles.passed {calls : Method → Prop} {p q : Point} {effect : Effect}
    (h : Handles size ended calls memory t p effect q) {r : ThreadPool.DestroyPoint}
    (hcall : q.call = some (.destroy r)) :
    r.position = 0 ∨ ∃ p', p.call = some (.destroy p') ∧ (r.position = p'.position ∨
      r.position = p'.position + 1 ∧
        ((memory.managers p'.position).status = .idle ∨ ended p'.position = true)) := by
  cases h with
  | stay => exact .inr ⟨r, hcall, .inl rfl⟩
  | enter method =>
      rw [Tid.call_calling] at hcall
      cases method <;> cases hcall
      exact .inl rfl
  | @call _ call piece hcode =>
      cases hnext : piece.next with
      | inr =>
          rw [hnext] at hcall
          simp at hcall
      | inl after =>
          rw [hnext] at hcall
          simp only [Sum.elim_inl, Function.comp_apply, Tid.call_calling,
            Option.some.injEq] at hcall
          subst hcall
          obtain ⟨p', rfl, hposition⟩ := Call.code_passed hcode hnext
          exact .inr ⟨p', Tid.call_calling .., hposition⟩
  | place =>
      rw [Tid.call_calling] at hcall
      cases hcall
  | work ht hworks =>
      rw [hworks.call_next] at hcall
      cases hcall
  | finish => cases hcall

theorem Joined.step (h : Joined size state) (hguarded : Guarded state)
    (hstep : Pool.step size state action = some next) : Joined size next := by
  have hstays : ∀ {m}, state.Ended m → next.Ended m := fun hended => hended.step hstep
  have hended : ∀ {m}, state.ended m = true → next.Ended m := fun hended =>
    hstays (by simpa only [State.ended, State.Ended, decide_eq_true_eq] using hended)
  obtain ⟨piece, hpiece, rfl⟩ := step_eq_some hstep
  have hhandles := handles_of_piece (hguarded.fits action.thread) hpiece
  obtain ⟨hjoins, hreleases⟩ := hhandles.joins
  refine ⟨fun m hidle => ?_, fun u p hcall m hm => ?_, fun hreleased m hm => ?_⟩
  · by_cases hjoin : piece.effect = .join m
    · exact hended (hjoins m hjoin)
    · exact hstays (h.idle m (Memory.status_apply hjoin hidle))
  · by_cases hu : u = action.thread
    · subst hu
      rw [State.advance_pc_self] at hcall
      rcases hhandles.passed hcall with hzero | ⟨p', hbefore, hsame | ⟨hnext, hpassed⟩⟩
      · exact absurd (hzero ▸ hm) (Nat.not_lt_zero m)
      · exact hstays (h.passed _ p' hbefore m (hsame ▸ hm))
      · rcases Nat.lt_succ_iff_lt_or_eq.mp (hnext ▸ hm) with hlt | rfl
        · exact hstays (h.passed _ p' hbefore m hlt)
        · rcases hpassed with hidle | hexited
          · exact hstays (h.idle _ hidle)
          · exact hended hexited
    · rw [State.advance_pc_of_ne _ hu] at hcall
      exact hstays (h.passed u p hcall m hm)
  · by_cases hrelease : piece.effect = .release
    · obtain ⟨p', hbefore, hsize⟩ := hreleases hrelease
      exact hstays (h.passed _ p' hbefore m (Nat.lt_of_lt_of_le hm hsize))
    · exact hstays (h.released (Memory.released_apply hrelease hreleased) m hm)

theorem joined_initial (size : Nat) : Joined size (initial size) where
  idle := nofun
  passed t p hcall := by
    cases t with
    | client c => cases hcall
    | worker m =>
        simp only [initial] at hcall
        split at hcall <;> cases hcall
  released := nofun

theorem joined_of_reaches {guard : State → Action → Prop}
    (hguard : ∀ state action, guard state action → OwnerDestroys state action)
    (hrun : Reaches (Pool.step size) guard (initial size) state) : Joined size state := by
  induction hrun with
  | refl => exact joined_initial size
  | tail action hprior _ hstep ih => exact ih.step (guarded_of_reaches hguard hprior) hstep

/-- No worker is there beyond the pool. -/
theorem ended_beyond {guard : State → Action → Prop}
    (hrun : Reaches (Pool.step size) guard (initial size) state) (hm : size ≤ m) :
    state.Ended m := by
  induction hrun with
  | refl => simp [State.Ended, initial, Nat.not_lt.mpr hm]
  | tail action _ _ hstep ih => exact ih.step hstep

end ThreadPools.Boost.Pool
