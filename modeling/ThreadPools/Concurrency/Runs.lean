/-
# Runs of a labelled transition function

A system is a partial transition function `step : σ → α → Option σ`; an action
that is not enabled has no successor. A run may be confined by a guard on its
steps, so that a usage contract ("tasks do not call back") and a condition on
the schedule ("this race window is not hit") are stated in the same way.
Everything here is about arbitrary states and actions.
-/

import Mathlib.Logic.Function.Basic

namespace ThreadPools.Concurrency

universe u v

variable {σ : Type u} {α : Type v} (step : σ → α → Option σ)

/-- `target` is reached from `source` by steps which all meet `guard`. -/
inductive Reaches (guard : σ → α → Prop) (source : σ) : σ → Prop
  | refl : Reaches guard source source
  | tail {middle target : σ} (action : α) :
      Reaches guard source middle → guard middle action →
      step middle action = some target → Reaches guard source target

namespace Reaches

variable {step} {guard weaker : σ → α → Prop} {first second third : σ}

theorem trans (hleft : Reaches step guard first second)
    (hright : Reaches step guard second third) : Reaches step guard first third := by
  induction hright with
  | refl => exact hleft
  | tail action _ hguard hstep ih => exact ih.tail action hguard hstep

/-- A run that meets a guard meets every weaker one. -/
theorem mono (himp : ∀ state action, guard state action → weaker state action)
    (hrun : Reaches step guard first second) : Reaches step weaker first second := by
  induction hrun with
  | refl => exact .refl
  | tail action _ hguard hstep ih =>
      exact ih.tail action (himp _ _ hguard) hstep

/-- The induction principle of safety proofs: what holds at the start and is
preserved by every guarded step holds at the end of every guarded run. -/
theorem invariant {Inv : σ → Prop} (hrun : Reaches step guard first second)
    (hinit : Inv first)
    (hstep : ∀ state action next, Inv state → guard state action →
      step state action = some next → Inv next) : Inv second := by
  induction hrun with
  | refl => exact hinit
  | tail action _ hguard htaken ih => exact hstep _ _ _ ih hguard htaken

/-- The same principle with an invariant that is already known. -/
theorem invariant_of {Inv : σ → Prop} (hrun : Reaches step guard first second)
    (Known : σ → Prop) (hknown : ∀ state, Reaches step guard first state → Known state)
    (hinit : Inv first)
    (hstep : ∀ state action next, Known state → Inv state → guard state action →
      step state action = some next → Inv next) : Inv second := by
  induction hrun with
  | refl => exact hinit
  | tail action hprior hguard htaken ih =>
      exact hstep _ _ _ (hknown _ hprior) ih hguard htaken

/-- An end can be reached if every other state has a way to a state of a lower rank. -/
theorem exists_ended (Ended : σ → Prop) (rank : σ → Nat)
    (hnext : ∀ state, Reaches step guard first state → ¬ Ended state →
      ∃ next, Reaches step guard state next ∧ rank next < rank state) :
    ∃ last, Reaches step guard first last ∧ Ended last := by
  induction hrank : rank first using Nat.strongRecOn generalizing first with
  | _ left ih =>
      by_cases hended : Ended first
      · exact ⟨first, .refl, hended⟩
      · obtain ⟨next, hway, hlt⟩ := hnext first .refl hended
        obtain ⟨last, hlast, hended⟩ :=
          ih _ (hrank ▸ hlt) (fun state hrun => hnext state (hway.trans hrun)) rfl
        exact ⟨last, hway.trans hlast, hended⟩

end Reaches

/-- Run a list of actions, checking a decidable guard before each of them. -/
def execute (check : σ → α → Bool) : List α → σ → Option σ
  | [], state => some state
  | action :: actions, state =>
      if check state action then (step state action).bind (execute check actions)
      else none

variable {step}

/-- A successful execution is a run: concrete schedules are checked by evaluating
them. The check may rely on what stays true along the execution. -/
theorem Reaches.of_execute_keeping {guard : σ → α → Prop} {check : σ → α → Bool}
    {Kept : σ → Prop}
    (hsound : ∀ state action next, Kept state → check state action = true →
      step state action = some next → guard state action ∧ Kept next)
    {actions : List α} {source target : σ} (hkept : Kept source)
    (hexecute : execute step check actions source = some target) :
    Reaches step guard source target := by
  induction actions generalizing source with
  | nil =>
      cases hexecute
      exact .refl
  | cons action actions ih =>
      simp only [execute] at hexecute
      split at hexecute
      · next hcheck =>
          obtain ⟨middle, hmiddle, hrest⟩ := Option.bind_eq_some_iff.mp hexecute
          obtain ⟨hguard, hnext⟩ := hsound _ _ _ hkept hcheck hmiddle
          have hone : Reaches step guard source middle := Reaches.refl.tail action hguard hmiddle
          exact hone.trans (ih hnext hrest)
      · cases hexecute

/-- In particular a check of the guard itself. -/
theorem Reaches.of_execute {guard : σ → α → Prop} {check : σ → α → Bool}
    (hsound : ∀ state action, check state action = true → guard state action)
    {actions : List α} {source target : σ}
    (hexecute : execute step check actions source = some target) :
    Reaches step guard source target :=
  have hkept : (fun _ : σ => True) source := trivial
  of_execute_keeping (fun _ _ _ _ hcheck _ => ⟨hsound _ _ hcheck, trivial⟩) hkept hexecute

/-- What is observed at the end of an execution is observed in a reachable state. -/
theorem Reaches.of_observed {guard : σ → α → Prop} (check : σ → α → Bool) (actions : List α)
    (hsound : ∀ state action, check state action = true → guard state action)
    {β : Type*} {observe : σ → β} {source : σ} {value : β}
    (hexecute : (execute step check actions source).map observe = some value) :
    ∃ target, Reaches step guard source target ∧ observe target = value := by
  obtain ⟨target, htarget, hvalue⟩ := Option.map_eq_some_iff.mp hexecute
  exact ⟨target, .of_execute hsound htarget, hvalue⟩

end ThreadPools.Concurrency
