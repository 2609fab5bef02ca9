/-
# Refinement of an abstract machine

What the steps of a system do is reported as events, and an abstract machine says which
events are possible. A system refines the machine when the events of each of its steps lead
the machine from the view of one state to the view of the next one. Then the history of
every run is a history of the machine, and what is proved of the machine holds of the system.
-/

import ThreadPools.Concurrency.Runs

namespace ThreadPools.Concurrency

universe u v w x

variable {σ : Type u} {α : Type v} {τ : Type w} {β : Type x}

/-- The machine performs the events one after another. -/
def Traces (machine : τ → β → Option τ) (source : τ) (events : List β) (target : τ) : Prop :=
  events.foldlM machine source = some target

namespace Traces

variable {machine : τ → β → Option τ} {first second third : τ} {events later : List β}

theorem nil : Traces machine first [] first := rfl

theorem single {event : β} : Traces machine first [event] second ↔
    machine first event = some second := by
  simp [Traces]

theorem append_iff : Traces machine first (events ++ later) third ↔
    ∃ middle, Traces machine first events middle ∧ Traces machine middle later third := by
  unfold Traces
  rw [List.foldlM_append]
  exact Option.bind_eq_some_iff

theorem append (hleft : Traces machine first events second)
    (hright : Traces machine second later third) :
    Traces machine first (events ++ later) third :=
  append_iff.mpr ⟨second, hleft, hright⟩

theorem cons_iff {event : β} : Traces machine first (event :: later) third ↔
    ∃ second, machine first event = some second ∧ Traces machine second later third := by
  unfold Traces
  rw [List.foldlM_cons]
  exact Option.bind_eq_some_iff

end Traces

/-- A run with its history: `emits` says which events a step reports. -/
inductive Emits (step : σ → α → Option σ) (guard : σ → α → Prop) (emits : σ → α → List β)
    (source : σ) : List β → σ → Prop
  | refl : Emits step guard emits source [] source
  | tail {events : List β} {middle target : σ} (action : α) :
      Emits step guard emits source events middle → guard middle action →
      step middle action = some target →
      Emits step guard emits source (events ++ emits middle action) target

section

variable {step : σ → α → Option σ} {guard : σ → α → Prop} {source state : σ}

theorem Emits.reaches {emits : σ → α → List β} {history : List β}
    (h : Emits step guard emits source history state) :
    Reaches step guard source state := by
  induction h with
  | refl => exact .refl
  | tail action _ hguard hstep ih => exact ih.tail action hguard hstep

/-- Every run has a history. -/
theorem Reaches.emits (hrun : Reaches step guard source state) (emits : σ → α → List β) :
    ∃ history, Emits step guard emits source history state := by
  induction hrun with
  | refl => exact ⟨[], .refl⟩
  | tail action _ hguard hstep ih =>
      obtain ⟨history, h⟩ := ih
      exact ⟨_, h.tail action hguard hstep⟩

end

/-- The steps of the runs from `source` are steps of the machine, seen through `view`. -/
def Refines (step : σ → α → Option σ) (guard : σ → α → Prop) (source : σ)
    (machine : τ → β → Option τ) (view : σ → τ) (emits : σ → α → List β) : Prop :=
  ∀ state action next, Reaches step guard source state → guard state action →
    step state action = some next →
      Traces machine (view state) (emits state action) (view next)

/-- The history of a run is a history of the machine. -/
theorem Refines.traces {step : σ → α → Option σ} {guard : σ → α → Prop} {source state : σ}
    {machine : τ → β → Option τ} {view : σ → τ} {emits : σ → α → List β} {history : List β}
    (h : Refines step guard source machine view emits)
    (hrun : Emits step guard emits source history state) :
    Traces machine (view source) history (view state) := by
  induction hrun with
  | refl => exact .nil
  | tail action hprior hguard hstep ih =>
      exact ih.append (h _ _ _ hprior.reaches hguard hstep)

end ThreadPools.Concurrency
