/-
# Counting steps by a potential

Some steps of a system are paid for by what is left of its work, others bring new work in.
When every step that counts lowers a rank by one, and every action raises it by no more than its
charge, then the number of steps that count in a run is bounded by the rank at its beginning and
the charges of its actions.

The rank is a sum over the threads. A step lowers the part of the thread that makes it, by
enough to pay for what it gives to one other thread; a notification wakes one thread at most.
-/

import Mathlib.Algebra.BigOperators.Group.Finset.Piecewise
import Mathlib.Algebra.GroupWithZero.Nat
import Mathlib.Algebra.Order.BigOperators.Group.Finset
import ThreadPools.Concurrency.Locking
import ThreadPools.Concurrency.Refinement

namespace ThreadPools.Concurrency

section Runs

variable {σ α : Type*} {step : σ → α → Option σ} {guard : σ → α → Prop} {source target : σ}
  {history : List α}

/-- The rule of amortization. -/
theorem Emits.countP_add_le {rank : σ → Nat} {moves : α → Bool} {charge : α → Nat}
    (hrun : Emits step guard (fun _ action => [action]) source history target)
    (hstep : ∀ state action next, action ∈ history → Reaches step guard source state →
      guard state action → step state action = some next →
        (moves action).toNat + rank next ≤ rank state + charge action) :
    history.countP moves + rank target ≤ rank source + (history.map charge).sum := by
  induction hrun with
  | refl => simp
  | @tail events middle target action hprior hguard htaken ih =>
      have hsum := ih fun state earlier next hmem =>
        hstep state earlier next (List.mem_append_left _ hmem)
      have hlast := hstep _ _ _ (List.mem_append_right _ List.mem_cons_self) hprior.reaches hguard
        htaken
      have hmoves : [action].countP moves = (moves action).toNat := by
        cases hmove : moves action <;> simp [hmove]
      rw [List.countP_append, List.map_append, List.sum_append, hmoves, List.map_singleton,
        List.sum_singleton]
      omega

end Runs

section Sums

variable {ι : Type*} [DecidableEq ι] {s : Finset ι} {before after : ι → Nat}

/-- One thread moves and pays for what it gives to at most one other. -/
theorem sum_add_le_of_gain {t : ι} (ht : t ∈ s) {affected : Option ι} {gain paid charge : Nat}
    (hself : after t + gain + paid ≤ before t + charge)
    (hothers : ∀ u ∈ s, u ≠ t → after u ≤ before u + if some u = affected then gain else 0) :
    ∑ u ∈ s, after u + paid ≤ ∑ u ∈ s, before u + charge := by
  have hrest : ∑ u ∈ s.erase t, after u ≤ ∑ u ∈ s.erase t, before u + gain := by
    have hle : ∑ u ∈ s.erase t, after u ≤
        ∑ u ∈ s.erase t, (before u + if some u = affected then gain else 0) :=
      Finset.sum_le_sum fun u hu =>
        hothers u (Finset.mem_of_mem_erase hu) (Finset.ne_of_mem_erase hu)
    have hone : (∑ u ∈ s.erase t, if some u = affected then gain else 0) ≤ gain := by
      cases affected with
      | none => simp
      | some a =>
          simp only [Option.some.injEq]
          rw [Finset.sum_ite_eq']
          split <;> omega
    rw [Finset.sum_add_distrib] at hle
    omega
  rw [← Finset.add_sum_erase s after ht, ← Finset.add_sum_erase s before ht]
  omega

end Sums

section Notifications

variable {T M D E P I : Type*}

/-- A notification wakes at most one of the sleepers. -/
theorem Monitor.exists_signalled (monitor : Monitor T) (choice : Nat) :
    ∃ woken : Option T, ∀ thread ∈ monitor.waiters, some thread ≠ woken →
      thread ∈ (monitor.signal choice).waiters := by
  refine ⟨monitor.waiters[choice % monitor.waiters.length]?, fun thread hmem hne => ?_⟩
  obtain ⟨i, hi⟩ := List.mem_iff_getElem?.mp hmem
  refine List.mem_eraseIdx_iff_getElem?.mpr ⟨i, fun heq => hne ?_, hi⟩
  rw [← heq, hi]

variable [DecidableEq T] [DecidableEq M] {π : Program T M D E P I}

/-- A step wakes at most one thread, and only through the condition it notifies. -/
theorem Program.exists_woken_advance (state : State T M D P) (thread : T)
    (instr : Instr T M E P) (choice : Nat) :
    ∃ woken : Option T, ∀ m sleeper, sleeper ∈ (state.monitor m).waiters →
      sleeper ∈ ((π.advance state thread instr choice).monitor m).waiters ∨
        instr.notify = some m ∧ some sleeper = woken := by
  have hkept : ∀ {m sleeper},
      sleeper ∈ (notified state.monitor instr.notify choice m).waiters →
      sleeper ∈ ((π.advance state thread instr choice).monitor m).waiters := by
    intro m sleeper hmem
    rcases perform_waiters thread (notified state.monitor instr.notify choice) instr.op m with
      hsame | ⟨-, hmore⟩
    · simpa only [advance, hsame] using hmem
    · simp only [advance, hmore]
      exact List.mem_append_left _ hmem
  cases hnotify : instr.notify with
  | none =>
      refine ⟨none, fun m sleeper hmem => .inl (hkept ?_)⟩
      rwa [hnotify]
  | some other =>
      obtain ⟨woken, hwoken⟩ := (state.monitor other).exists_signalled choice
      refine ⟨woken, fun m sleeper hmem => ?_⟩
      by_cases hm : m = other
      · subst hm
        by_cases hsleeper : some sleeper = woken
        · exact .inr ⟨rfl, hsleeper⟩
        · refine .inl (hkept ?_)
          simpa [hnotify, notified] using hwoken sleeper hmem hsleeper
      · refine .inl (hkept ?_)
        simpa [hnotify, notified, hm] using hmem

end Notifications

end ThreadPools.Concurrency
