/-
# Infinite runs

What a loop does in finitely many steps is stated about infinite runs: a thread which
decreases a rank whenever it moves, while the others leave the rank alone, moves only
finitely often. Everything here is about arbitrary states and actions.
-/

import Mathlib.Order.WellFounded
import ThreadPools.Concurrency.Runs

namespace ThreadPools.Concurrency

universe u v w

variable {σ : Type u} {α : Type v} {step : σ → α → Option σ}

/-- A run that never ends. -/
structure Endless (step : σ → α → Option σ) (source : σ) where
  state : Nat → σ
  action : Nat → α
  start : state 0 = source
  next : ∀ n, step (state n) (action n) = some (state (n + 1))

namespace Endless

variable {source : σ} (run : Endless step source)

/-- The beginning of a run whose steps meet a guard. -/
theorem reaches {guard : σ → α → Prop} (hguard : ∀ n, guard (run.state n) (run.action n))
    (n : Nat) : Reaches step guard source (run.state n) := by
  induction n with
  | zero =>
      rw [run.start]
      exact .refl
  | succ n ih => exact ih.tail (run.action n) (hguard n) (run.next n)

/-- A rank that never grows is bounded by each of its values from then on. -/
theorem rank_le {β : Type w} [Preorder β] {rank : σ → β}
    (hkeeps : ∀ n, rank (run.state (n + 1)) ≤ rank (run.state n)) {first last : Nat}
    (hle : first ≤ last) : rank (run.state last) ≤ rank (run.state first) := by
  induction hle with
  | refl => exact le_refl _
  | step _ ih => exact (hkeeps _).trans ih

/-- Actions that decrease a rank which never grows are performed finitely often. -/
theorem finitely_often {β : Type w} [Preorder β] [WellFoundedLT β] {rank : σ → β}
    (moves : α → Prop) (hkeeps : ∀ n, rank (run.state (n + 1)) ≤ rank (run.state n))
    (hmoves : ∀ n, moves (run.action n) → rank (run.state (n + 1)) < rank (run.state n)) :
    ∃ bound, ∀ n, bound ≤ n → ¬ moves (run.action n) := by
  have hfrom : ∀ (value : β) (first : Nat), rank (run.state first) = value →
      ∃ bound, ∀ n, bound ≤ n → ¬ moves (run.action n) := by
    intro value
    induction value using WellFoundedLT.induction with
    | ind value ih =>
        intro first hfirst
        by_cases hmore : ∃ n, first ≤ n ∧ moves (run.action n)
        · obtain ⟨n, hle, hmove⟩ := hmore
          have hlt : rank (run.state (n + 1)) < value :=
            hfirst ▸ (hmoves n hmove).trans_le (run.rank_le hkeeps hle)
          exact ih _ hlt (n + 1) rfl
        · exact ⟨first, fun n hle hmove => hmore ⟨n, hle, hmove⟩⟩
  exact hfrom _ 0 rfl

/-- Where every step decreases a rank, or leaves it alone together with the one action that is
urgent, without being this action, an urgent action is put off forever. -/
theorem puts_off (rank : σ → Nat) (urgent : σ → α)
    (hstep : ∀ n, rank (run.state (n + 1)) < rank (run.state n) ∨
      rank (run.state (n + 1)) = rank (run.state n) ∧ run.action n ≠ urgent (run.state n) ∧
        urgent (run.state (n + 1)) = urgent (run.state n)) :
    ∃ bound, ∀ n, bound ≤ n → urgent (run.state n) = urgent (run.state bound) ∧
      run.action n ≠ urgent (run.state bound) := by
  have hkeeps : ∀ n, rank (run.state (n + 1)) ≤ rank (run.state n) := fun n =>
    (hstep n).elim le_of_lt fun h => h.1.le
  -- from its least value on the rank is left alone
  let bound := Function.argmin fun n => rank (run.state n)
  have hrests : ∀ n, bound ≤ n → ¬ rank (run.state (n + 1)) < rank (run.state n) := fun n hle hlt =>
    absurd (Function.argmin_le (fun n => rank (run.state n)) (n + 1))
      (not_le.mpr (hlt.trans_le (run.rank_le hkeeps hle)))
  have hsame : ∀ n, bound ≤ n → urgent (run.state n) = urgent (run.state bound) := by
    intro n hle
    induction hle with
    | refl => rfl
    | step hle ih => exact ((hstep _).resolve_left (hrests _ hle)).2.2.trans ih
  refine ⟨bound, fun n hle => ⟨hsame n hle, ?_⟩⟩
  rw [← hsame n hle]
  exact ((hstep n).resolve_left (hrests n hle)).2.1

end Endless

end ThreadPools.Concurrency
