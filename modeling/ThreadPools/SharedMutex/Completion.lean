/-
# All methods can come to their end

A method that waits for its exclusive lock waits for methods that share the object and may wait
for an exclusive lock themselves. They have begun before it, since the first operand of
`average` is held alone until it is written. So the method that has begun first goes on, and
nobody waits in a circle. A method that locks an object against itself takes locks and gives
them back for ever.
-/

import Mathlib.Algebra.GroupWithZero.Nat
import Mathlib.Algebra.Order.BigOperators.Group.Finset
import Mathlib.Algebra.Order.BigOperators.Group.List
import Mathlib.Data.Finset.Max
import ThreadPools.SharedMutex.Undisturbed

namespace ThreadPools.SharedMutex

open ThreadPools.Concurrency ThreadPools.Machines

variable {O T D : Type*}

namespace Method

/-- The operands of `average` before it holds the second one alone. -/
def pending : Option (Method O × Stage) → Option (O × O)
  | some (average this a, .body) | some (average this a, .shares)
  | some (average this a, .upgrades) => some (this, a)
  | _ => none

/-- The locks of the method are complete. -/
def begun : Option (Method O × Stage) → Bool
  | none | some (_, .asserts) | some (_, .locks) => false
  | _ => true

theorem eq_of_pending {point : Option (Method O × Stage)} {this a : O}
    (h : pending point = some (this, a)) :
    ∃ stage, point = some (average this a, stage) ∧
      (stage = .body ∨ stage = .shares ∨ stage = .upgrades) := by
  unfold pending at h
  split at h <;> cases h
  · exact ⟨.body, rfl, .inl rfl⟩
  · exact ⟨.shares, rfl, .inr (.inl rfl)⟩
  · exact ⟨.upgrades, rfl, .inr (.inr rfl)⟩

theorem begun_of_pending {point : Option (Method O × Stage)} {operands : O × O}
    (h : pending point = some operands) : begun point = true := by
  obtain ⟨stage, rfl, rfl | rfl | rfl⟩ := eq_of_pending h <;> rfl

/-- A method begins without locks. -/
theorem begun_entry [DecidableEq O] (method : Method O) : begun method.entry = false := by
  cases method with
  | assign this a => by_cases hthis : this = a <;> simp [entry, begun, hthis]
  | _ => rfl

theorem pending_entry [DecidableEq O] (method : Method O) : pending method.entry = none :=
  Option.eq_none_iff_forall_ne_some.mpr fun _ h =>
    Bool.false_ne_true (method.begun_entry.symm.trans (begun_of_pending h))

end Method

namespace Objects

variable [DecidableEq T] {mean : D → D → D} {state after : Objects O T D} {move : Move O T} {t : T}

/-- Who waits for the exclusive lock of an object waits for threads that have begun earlier. -/
structure Aged (state : Objects O T D) : Prop where
  earlier : ∀ t, Method.begun (state.point t) = true → state.since t < state.begun
  order : ∀ t other this a b, Method.pending (state.point t) = some (this, a) →
    Method.pending (state.point other) = some (a, b) → state.since other < state.since t

omit [DecidableEq T] in
/-- The second operand of `average` is held for upgrade until it is held alone. -/
theorem Held.of_pending [DecidableEq O] (h : Held state) {this a : O}
    (hpending : Method.pending (state.point t) = some (this, a)) :
    this ≠ a ∧ state.hold a t = .upgrade := by
  obtain ⟨stage, hpoint, hstage⟩ := Method.eq_of_pending hpending
  have hfits := h.fits_of_point hpoint
  have hne : this ≠ a := by
    refine hfits.distinct ?_ ?_ <;> rintro rfl <;> simp at hstage
  refine ⟨hne, ?_⟩
  rcases hstage with rfl | rfl | rfl <;> rw [h.hold_eq hpoint (by decide) (by decide)] <;>
    simp [Method.mode, Method.locks, Method.lockMode, hne.symm]

namespace Aged

theorem moves (h : Aged state) {target : Option (Method O × Stage)}
    (hpoint : after.point = Function.update state.point t target)
    (hsince : after.since = state.since) (hcount : after.begun = state.begun)
    (hbegun : Method.begun target = true → Method.begun (state.point t) = true)
    (hpending : ∀ operands, Method.pending target = some operands →
      Method.pending (state.point t) = some operands) : Aged after := by
  have hearlier : ∀ s, Method.begun (after.point s) = true →
      Method.begun (state.point s) = true := by
    rw [hpoint]
    exact (Function.forall_update_iff state.point fun s x =>
      Method.begun x = true → Method.begun (state.point s) = true).mpr ⟨hbegun, fun _ _ => id⟩
  have hsame : ∀ s operands, Method.pending (after.point s) = some operands →
      Method.pending (state.point s) = some operands := by
    rw [hpoint]
    exact (Function.forall_update_iff state.point fun s x => ∀ operands,
      Method.pending x = some operands → Method.pending (state.point s) = some operands).mpr
        ⟨hpending, fun _ _ _ => id⟩
  constructor
  · intro s hs
    rw [hsince, hcount]
    exact h.earlier s (hearlier s hs)
  · intro s other this a b hs hother
    rw [hsince]
    exact h.order s other this a b (hsame s _ hs) (hsame other _ hother)

variable [DecidableEq O]

theorem step [Fintype T] (h : Aged state) (hheld : Held state)
    (hstep : Steps mean state move after) : Aged after := by
  cases hstep with
  | calls t method hpoint =>
      refine h.moves rfl rfl rfl (fun hbegun => ?_) fun operands htarget => ?_
      · cases method.begun_entry.symm.trans hbegun
      · cases method.pending_entry.symm.trans htarget
  | asserts t this a hpoint hne =>
      exact h.moves rfl rfl rfl (fun hbegun => by cases hbegun) fun _ htarget => by cases htarget
  | takes t o method hpoint hgrants =>
      exact h.moves (t := t) (Function.update_eq_self t state.point).symm rfl rfl id fun _ => id
  | givesBack t o method stage hpoint hstage =>
      exact h.moves (t := t) (Function.update_eq_self t state.point).symm rfl rfl id fun _ => id
  | begins t method hpoint hdistinct hall =>
      have hearlier : ∀ s, s ≠ t → Method.begun (state.point s) = true →
          Function.update state.since t state.begun s < state.begun := by
        intro s hs hbegun
        rw [Function.update_of_ne hs]
        exact h.earlier s hbegun
      refine ⟨fun s hs => ?_, fun s other this a b hs hother => ?_⟩
      · change Method.begun (Function.update state.point t _ s) = true at hs
        change Function.update state.since t state.begun s < state.begun + 1
        by_cases heq : s = t
        · rw [heq, Function.update_self]
          exact Nat.lt_succ_self _
        · rw [Function.update_of_ne heq] at hs
          exact Nat.lt_succ_of_lt (hearlier s heq hs)
      · change Method.pending (Function.update state.point t _ s) = _ at hs
        change Method.pending (Function.update state.point t _ other) = _ at hother
        change Function.update state.since t state.begun other <
          Function.update state.since t state.begun s
        by_cases hother' : other = t
        · subst hother'
          rw [Function.update_self] at hother
          obtain ⟨stage, hstage, -⟩ := Method.eq_of_pending hother
          cases hstage
          have ha : state.hold a other = .exclusive :=
            (hall (a, .exclusive) (by simp [Method.locks])).trans
              (by simp [Method.mode, Method.locks, Method.lockMode])
          by_cases heq : s = other
          · rw [heq, Function.update_self] at hs
            cases hs
            exact absurd rfl hdistinct
          · rw [Function.update_of_ne heq] at hs
            have hupgrade := (hheld.of_pending hs).2
            cases hupgrade.symm.trans ((hheld.coherent a).exclusive ha heq)
        · rw [Function.update_of_ne hother'] at hother ⊢
          by_cases heq : s = t
          · subst heq
            rw [Function.update_self]
            exact h.earlier other (Method.begun_of_pending hother)
          · rw [Function.update_of_ne heq] at hs ⊢
            exact h.order s other this a b hs hother
  | acts t method hpoint =>
      refine h.moves rfl rfl rfl (fun _ => by rw [hpoint]; rfl) fun operands htarget => ?_
      rw [hpoint]
      cases method with
      | average => exact htarget
      | _ => cases htarget
  | shares t this a hpoint =>
      exact h.moves rfl rfl rfl (fun _ => by rw [hpoint]; rfl) fun operands htarget =>
        hpoint ▸ htarget
  | upgrades t this a hpoint hgrants =>
      exact h.moves rfl rfl rfl (fun _ => by rw [hpoint]; rfl)
        fun _ htarget => by cases htarget
  | writes t this a hpoint =>
      exact h.moves rfl rfl rfl (fun _ => by rw [hpoint]; rfl)
        fun _ htarget => by cases htarget
  | ends t method hpoint hfree =>
      exact h.moves rfl rfl rfl (fun hbegun => by cases hbegun) fun _ htarget => by cases htarget

end Aged

/-! ## What the threads have still to do -/

/-- No method under execution has been called for an object to be locked against itself. -/
def DistinctOperands (state : Objects O T D) : Prop :=
  ∀ t method stage, state.point t = some (method, stage) → method.Distinct

/-- No method is called any more. -/
def Finishes (_ : Objects O T D) (move : Move O T) : Prop :=
  ∀ t method, move ≠ .call t method

theorem DistinctOperands.step [DecidableEq O] (h : DistinctOperands state)
    (hfinishes : Finishes state move) (hstep : Steps mean state move after) :
    DistinctOperands after := by
  intro s method stage hs
  obtain ⟨t, target, hafter, hcase⟩ := hstep.moved
  rw [hafter] at hs
  by_cases heq : s = t
  · subst heq
    rw [Function.update_self] at hs
    rcases hcase with ⟨-, called, rfl⟩ | ⟨method', before, hpoint, ⟨stage', rfl⟩ | ⟨-, rfl⟩⟩
    · exact absurd rfl (hfinishes s called)
    · cases hs
      exact h s method before hpoint
    · cases hs
  · rw [Function.update_of_ne heq] at hs
    exact h s method stage hs

/-- A thread leaves its method behind all locks only. -/
theorem Steps.method [DecidableEq O] (hstep : Steps mean state move after) {method : Method O}
    {stage : Stage} (hpoint : state.point t = some (method, stage)) (hleaves : stage ≠ .leaves) :
    ∃ stage', after.point t = some (method, stage') := by
  obtain ⟨s, target, hafter, hcase⟩ := hstep.moved
  rw [hafter]
  by_cases heq : t = s
  · subst heq
    rw [Function.update_self]
    rcases hcase with ⟨hnone, -⟩ | ⟨method', before, hbefore, ⟨stage', rfl⟩ | ⟨rfl, -⟩⟩ <;>
      cases hpoint.symm.trans ‹state.point t = _›
    · exact ⟨stage', rfl⟩
    · exact absurd rfl hleaves
  · rw [Function.update_of_ne heq]
    exact ⟨stage, hpoint⟩

end Objects

def Stage.left : Stage → Nat
  | .asserts => 6
  | .locks => 5
  | .body => 4
  | .shares => 3
  | .upgrades => 2
  | .writes => 1
  | .leaves => 0

namespace Objects

variable {state after : Objects O T D} {t : T}

/-- The stages that are left to a method, and what it has to give back. -/
def left (holds : O → Mode) : Option (Method O × Stage) → Nat
  | none => 0
  | some (method, stage) =>
      stage.left * 10 + 1 + ((method.locks stage).map fun lock => (holds lock.1).strength).sum

def work [Fintype T] (state : Objects O T D) : Nat :=
  ∑ t, left (state.holds t) (state.point t)

theorem strengths_le (method : Method O) (stage : Stage) (holds : O → Mode) :
    ((method.locks stage).map fun lock => (holds lock.1).strength).sum ≤ 9 := by
  have hlength : (method.locks stage).length ≤ 3 := by
    cases method <;> cases stage <;> simp [Method.locks]
  have hstrength : ∀ n ∈ (method.locks stage).map fun lock => (holds lock.1).strength, n ≤ 3 := by
    intro n hn
    obtain ⟨lock, -, rfl⟩ := List.mem_map.mp hn
    cases holds lock.1 <;> decide
  have hsum := List.sum_le_card_nsmul _ 3 hstrength
  rw [List.length_map, Nat.nsmul_eq_mul] at hsum
  omega

theorem left_lt_of_stage {holds holds' : O → Mode} {method method' : Method O}
    {stage stage' : Stage} (h : stage'.left < stage.left) :
    left holds' (some (method', stage')) < left holds (some (method, stage)) := by
  have := strengths_le method' stage' holds'
  simp only [left]
  omega

/-- A mutex is given back, or held less strongly. -/
theorem left_lt_of_holds {holds holds' : O → Mode} {method : Method O} {stage : Stage}
    (hle : ∀ o, (holds' o).strength ≤ (holds o).strength) {lock : O × Mode}
    (hlock : lock ∈ method.locks stage)
    (hlt : (holds' lock.1).strength < (holds lock.1).strength) :
    left holds' (some (method, stage)) < left holds (some (method, stage)) := by
  have hsum := List.sum_lt_sum (l := method.locks stage) (fun lock => (holds' lock.1).strength)
    (fun lock => (holds lock.1).strength) (fun lock _ => hle lock.1) ⟨lock, hlock, hlt⟩
  simp only [left]
  omega

variable [Fintype T]

theorem work_lt (hothers : ∀ s, s ≠ t → after.point s = state.point s ∧
      ∀ o, (after.holds s o) = (state.holds s o))
    (ht : left (after.holds t) (after.point t) < left (state.holds t) (state.point t)) :
    after.work < state.work := by
  refine Finset.sum_lt_sum (fun s _ => ?_) ⟨t, Finset.mem_univ t, ht⟩
  by_cases hs : s = t
  · exact hs ▸ ht.le
  · rw [(hothers s hs).1, funext (hothers s hs).2]

/-! ## Somebody can go on -/

variable [DecidableEq T]

/-- A thread moves to another stage, whatever it holds there. -/
theorem work_lt_of_moves {method method' : Method O} {stage stage' : Stage}
    (hbefore : state.point t = some (method, stage))
    (hpoint : after.point = Function.update state.point t (some (method', stage')))
    (hothers : ∀ s, s ≠ t → ∀ o, after.holds s o = state.holds s o)
    (hstage : stage'.left < stage.left) : after.work < state.work := by
  refine work_lt (t := t) (fun s hs => ⟨?_, hothers s hs⟩) ?_
  · rw [hpoint, Function.update_of_ne hs]
  · rw [hpoint, Function.update_self, hbefore]
    exact left_lt_of_stage hstage

variable [DecidableEq O] {mean : D → D → D}

/-- A thread that holds something at the beginning or the end of its method gives it back. -/
theorem exists_giveBack {method : Method O} {stage : Stage}
    (hpoint : state.point t = some (method, stage)) (hstage : stage = .locks ∨ stage = .leaves)
    {lock : O × Mode} (hlock : lock ∈ method.locks stage) (hheld : state.hold lock.1 t ≠ .free) :
    ∃ move after, Finishes state move ∧ step mean state move = some after ∧
      after.work < state.work := by
  refine ⟨.giveBack t lock.1, state.setMode t lock.1 .free, by rintro _ _ ⟨⟩, ?_,
    work_lt (t := t) (fun s hs => ⟨rfl, fun o => ?_⟩) ?_⟩
  · rcases hstage with rfl | rfl <;> simp [step, hpoint]
  · exact congrFun (holds_setMode_of_ne state hs lock.1 .free) o
  · have hsame : (state.setMode t lock.1 .free).point t = some (method, stage) := hpoint
    rw [hsame, hpoint, holds_setMode]
    have hpositive : 0 < (state.hold lock.1 t).strength := by
      cases hmode : state.hold lock.1 t <;> first | exact absurd hmode hheld | decide
    refine left_lt_of_holds (fun o => ?_) hlock ?_
    · by_cases heq : o = lock.1
      · rw [heq, Function.update_self]
        exact Nat.zero_le _
      · rw [Function.update_of_ne heq]
    · rw [Function.update_self]
      exact hpositive

/-- Once it is not inside `boost::lock` a thread waits for an exclusive lock only. -/
theorem exists_go (hheld : Held state) {method : Method O} {stage : Stage}
    (hpoint : state.point t = some (method, stage)) (hdistinct : method.Distinct)
    (hlocks : stage ≠ .locks)
    (hgrants : stage = .upgrades → ∀ this a, method = .average this a →
      Grants (state.hold a) t .exclusive)
    (hfree : stage = .leaves → ∀ lock ∈ method.locks .leaves, state.hold lock.1 t = .free) :
    ∃ move after, Finishes state move ∧ step mean state move = some after ∧
      after.work < state.work := by
  have hfits := hheld.fits_of_point hpoint
  suffices hgo : ∃ after, step mean state (.go t) = some after ∧ after.work < state.work by
    obtain ⟨after, hstep, hlt⟩ := hgo
    exact ⟨.go t, after, by rintro _ _ ⟨⟩, hstep, hlt⟩
  cases stage with
  | asserts =>
      obtain ⟨this, a, rfl⟩ := hfits.2.2 (.inl rfl)
      have hgo : step mean state (.go t) =
          some (state.moveTo t (some (.average this a, .locks))) := by
        simp only [step, go, hpoint]
        exact if_pos hdistinct
      exact ⟨_, hgo, work_lt_of_moves hpoint rfl (fun _ _ _ => rfl) (by decide)⟩
  | locks => exact absurd rfl hlocks
  | body =>
      have hgo : step mean state (.go t) = some
          { state.moveTo t (some (method, method.behind)) with
            data := method.act mean state.data
            operands := Function.update state.operands t state.data } := by
        simp [step, go, hpoint]
      refine ⟨_, hgo, work_lt_of_moves hpoint rfl (fun _ _ _ => rfl) ?_⟩
      cases method <;> simp [Method.behind, Stage.left]
  | leaves =>
      have hgo : step mean state (.go t) = some (state.moveTo t none) := by
        simp only [step, go, hpoint]
        exact if_pos (hfree rfl)
      refine ⟨_, hgo, work_lt (t := t) (fun s hs => ⟨moveTo_point_of_ne _ hs _, fun _ => rfl⟩) ?_⟩
      rw [moveTo_point_self, hpoint]
      simp [left]
  | shares =>
      obtain ⟨this, a, rfl⟩ := hfits.2.2 (.inr (.inl rfl))
      have hgo : step mean state (.go t) = some
          ((state.moveTo t (some (.average this a, .upgrades))).setMode t this .shared) := by
        simp [step, go, hpoint]
      exact ⟨_, hgo, work_lt_of_moves hpoint rfl
        (fun s hs o => congrFun (holds_setMode_of_ne _ hs this .shared) o) (by decide)⟩
  | upgrades =>
      obtain ⟨this, a, rfl⟩ := hfits.2.2 (.inr (.inr (.inl rfl)))
      have hgo : step mean state (.go t) = some
          ((state.moveTo t (some (.average this a, .writes))).setMode t a .exclusive) := by
        simp [step, go, hpoint, hgrants rfl this a rfl]
      exact ⟨_, hgo, work_lt_of_moves hpoint rfl
        (fun s hs o => congrFun (holds_setMode_of_ne _ hs a .exclusive) o) (by decide)⟩
  | writes =>
      obtain ⟨this, a, rfl⟩ := hfits.2.2 (.inr (.inr (.inr rfl)))
      have hgo : step mean state (.go t) = some
          { state.moveTo t (some (.average this a, .leaves)) with
            data := Function.update state.data a (state.data this) } := by
        simp [step, go, hpoint]
      exact ⟨_, hgo, work_lt_of_moves hpoint rfl (fun _ _ _ => rfl) (by decide)⟩

omit [DecidableEq T] in
/-- The method that has begun first among those that wait for an exclusive lock gets it, when
nobody holds anything at the beginning of a method. -/
theorem exists_granted (hheld : Held state) (haged : Aged state)
    (hat : ∀ t method stage, state.point t = some (method, stage) →
      stage = .locks ∧ (∀ o, state.hold o t = .free) ∨ stage = .upgrades)
    {method : Method O} (ht : state.point t = some (method, .upgrades)) :
    ∃ s this a, state.point s = some (.average this a, .upgrades) ∧
      Grants (state.hold a) s .exclusive := by
  classical
  obtain ⟨s, hs, hfirst⟩ := Finset.exists_min_image
    {s | ∃ method, state.point s = some (method, .upgrades)} state.since
    ⟨t, Finset.mem_filter.mpr ⟨Finset.mem_univ t, method, ht⟩⟩
  obtain ⟨method, hpoint⟩ := (Finset.mem_filter.mp hs).2
  have hfits := hheld.fits_of_point hpoint
  obtain ⟨this, a, rfl⟩ := hfits.2.2 (.inr (.inr (.inl rfl)))
  have hpending : Method.pending (state.point s) = some (this, a) := by rw [hpoint]; rfl
  refine ⟨s, this, a, hpoint, fun other hother => ?_⟩
  have hfree : state.hold a other = .free := by
    cases hpoint' : state.point other with
    | none =>
        have hfits := hheld.fits_of_point hpoint'
        exact hfits a
    | some point =>
        obtain ⟨method, stage⟩ := point
        rcases hat other method stage hpoint' with ⟨-, hfree⟩ | rfl
        · exact hfree a
        · have hfits := hheld.fits_of_point hpoint'
          obtain ⟨this', a', rfl⟩ := hfits.2.2 (.inr (.inr (.inl rfl)))
          have hhold : state.hold a other =
              if a = this' then .shared else if a = a' then .upgrade else .free :=
            hheld.hold_eq hpoint' (by decide) (by decide) a
          by_cases hthis : a = this'
          · -- `other` shares the object, and has begun earlier
            subst hthis
            have hpending' : Method.pending (state.point other) = some (a, a') := by
              rw [hpoint']; rfl
            exact absurd (haged.order s other this a a' hpending hpending')
              (Nat.not_lt.mpr (hfirst other
                (Finset.mem_filter.mpr ⟨Finset.mem_univ other, _, hpoint'⟩)))
          · rw [if_neg hthis] at hhold
            split at hhold
            · rcases (hheld.coherent a).upgrade (hheld.of_pending hpending).2 hother with h | h <;>
                cases hhold.symm.trans h
            · exact hhold
  rw [hfree, Mode.compatible_comm, Mode.free_compatible]

/-- A thread takes all its locks while the others hold nothing. -/
theorem exists_taken (mean : D → D → D) {method : Method O}
    (hpoint : state.point t = some (method, .locks))
    (hfree : ∀ o s, state.hold o s = .free) (objects : List O) :
    ∃ after, Reaches (step mean) Finishes state after ∧ after.point = state.point ∧
      (∀ o s, s ≠ t → after.hold o s = .free) ∧
      (∀ o, after.hold o t = .free ∨ after.hold o t = method.mode .locks o) ∧
      ∀ o ∈ objects, after.hold o t = method.mode .locks o := by
  induction objects with
  | nil => exact ⟨state, .refl, rfl, fun o s _ => hfree o s, fun o => .inl (hfree o t), nofun⟩
  | cons o objects ih =>
      obtain ⟨middle, hrun, hsame, hothers, hself, htaken⟩ := ih
      rcases hself o with ho | ho
      · have hgrants : Grants (middle.hold o) t (method.mode .locks o) := fun s hs => by
          rw [hothers o s hs, Mode.compatible_comm, Mode.free_compatible]
        have htake : step mean middle (.take t o) =
            some (middle.setMode t o (method.mode .locks o)) := by
          simp [step, hsame, hpoint, ho, hgrants]
        have hholds : ∀ o', (middle.setMode t o (method.mode .locks o)).hold o' t =
            Function.update (middle.holds t) o (method.mode .locks o) o' :=
          fun o' => congrFun (holds_setMode middle t o _) o'
        refine ⟨_, hrun.tail (.take t o) (by rintro _ _ ⟨⟩) htake, hsame, fun o' s hs => ?_, fun o' => ?_,
          fun o' ho' => ?_⟩
        · exact (congrFun (holds_setMode_of_ne middle hs o _) o').trans (hothers o' s hs)
        · rw [hholds]
          by_cases heq : o' = o
          · rw [heq, Function.update_self]
            exact .inr rfl
          · rw [Function.update_of_ne heq]
            exact hself o'
        · rw [hholds]
          by_cases heq : o' = o
          · rw [heq, Function.update_self]
          · rw [Function.update_of_ne heq]
            exact htaken o' ((List.mem_cons.mp ho').resolve_left heq)
      · exact ⟨middle, hrun, hsame, hothers, hself, List.forall_mem_cons.mpr ⟨ho, htaken⟩⟩

/-- As long as a thread is in a method, a run leads to a state with less work. -/
theorem exists_less (mean : D → D → D) (hheld : Held state) (haged : Aged state)
    (hdistinct : DistinctOperands state) (hactive : state.point t ≠ none) :
    ∃ after, Reaches (step mean) Finishes state after ∧ after.work < state.work := by
  by_contra hstuck
  have hstep : ¬ ∃ move after, Finishes state move ∧ step mean state move = some after ∧
      after.work < state.work :=
    fun ⟨move, after, hfinishes, hstep, hlt⟩ =>
      hstuck ⟨after, Reaches.refl.tail move hfinishes hstep, hlt⟩
  have hfree : ∀ t method stage, state.point t = some (method, stage) →
      stage = .locks ∨ stage = .leaves → ∀ lock ∈ method.locks stage, state.hold lock.1 t = .free :=
    fun t method stage hpoint hstage lock hlock =>
      not_not.mp fun hheld => hstep (exists_giveBack hpoint hstage hlock hheld)
  have hat : ∀ t method stage, state.point t = some (method, stage) →
      stage = .locks ∧ (∀ o, state.hold o t = .free) ∨ stage = .upgrades := by
    intro t method stage hpoint
    by_cases hlocks : stage = .locks
    · subst hlocks
      have hfits := hheld.fits_of_point hpoint
      exact .inl ⟨rfl, hfits.free (hfree t method .locks hpoint (.inl rfl))⟩
    · refine .inr (not_not.mp fun hupgrades => hstep ?_)
      refine exists_go hheld hpoint (hdistinct t method stage hpoint) hlocks
        (fun h => absurd h hupgrades) fun hleaves => ?_
      subst hleaves
      exact hfree t method .leaves hpoint (.inr rfl)
  by_cases hupgrades : ∃ t method, state.point t = some (method, .upgrades)
  · obtain ⟨t, method, ht⟩ := hupgrades
    obtain ⟨s, this, a, hpoint, hgrants⟩ := exists_granted hheld haged hat ht
    refine hstep (exists_go hheld hpoint (hdistinct s _ _ hpoint) (by decide)
      (fun _ this' a' heq => ?_) fun heq => ?_)
    · cases heq
      exact hgrants
    · cases heq
  · obtain ⟨⟨method, stage⟩, hpoint⟩ := Option.ne_none_iff_exists'.mp hactive
    have hidle : ∀ o s, state.hold o s = .free := by
      intro o s
      cases hs : state.point s with
      | none => exact hheld.fits_of_point hs o
      | some point =>
          obtain ⟨-, hfree⟩ := (hat s point.1 point.2 hs).resolve_right fun heq =>
            hupgrades ⟨s, point.1, heq ▸ hs⟩
          exact hfree o
    obtain ⟨rfl, -⟩ := (hat t method stage hpoint).resolve_right fun heq =>
      hupgrades ⟨t, method, heq ▸ hpoint⟩
    obtain ⟨middle, hrun, hsame, hothers, -, htaken⟩ :=
      exists_taken mean hpoint hidle ((method.locks .locks).map Prod.fst)
    have hall : ∀ lock ∈ method.locks .locks,
        middle.hold lock.1 t = method.mode .locks lock.1 :=
      fun lock hlock => htaken lock.1 (List.mem_map_of_mem hlock)
    have hlockable := method.lockable_iff_distinct.mpr (hdistinct t method .locks hpoint)
    have hgo : step mean middle (.go t) = some
        { middle.moveTo t (some (method, .body)) with
          since := Function.update middle.since t middle.begun
          begun := middle.begun + 1 } := by
      simp only [step, go, hsame, hpoint]
      exact if_pos ⟨hlockable, hall⟩
    have hmoved : Function.update middle.point t (some (method, Stage.body)) =
        Function.update state.point t (some (method, .body)) := by rw [hsame]
    exact hstuck ⟨_, hrun.tail (.go t) (by rintro _ _ ⟨⟩) hgo, work_lt_of_moves hpoint hmoved
      (fun s hs o => (hothers o s hs).trans (hidle o s).symm) (by decide)⟩

/-! ## Every run -/

variable {data : O → D} {guard : Objects O T D → Move O T → Prop}

theorem aged_of_reaches (hrun : Reaches (step mean) guard (initial T data) state) : Aged state :=
  hrun.invariant_of Held (fun _ => held_of_reaches) ⟨nofun, nofun⟩
    fun _ _ _ hheld h _ hstep => h.step hheld (step_cases hstep)

/-- From wherever a run has come, methods of distinct operands can all come to their end: no
threads block each other for good, though `boost::lock` knows nothing of the exclusive locks
that `average` waits for later on. A method that has been called for an object to be locked
against itself never comes to its end. -/
theorem methods_end (hrun : Reaches (step mean) guard (initial T data) state) :
    (DistinctOperands state →
      ∃ after, Reaches (step mean) Finishes state after ∧ ∀ t, after.point t = none) ∧
    ∀ t method stage, state.point t = some (method, stage) → ¬ method.Distinct →
      ∀ after, Reaches (step mean) (fun _ _ => True) state after →
        ∃ stage', after.point t = some (method, stage') := by
  replace hrun : Reaches (step mean) (fun _ _ => True) (initial T data) state :=
    hrun.mono fun _ _ _ => trivial
  refine ⟨fun hdistinct => ?_, fun t method stage hpoint hnot after hafter => ?_⟩
  · refine Reaches.exists_ended (fun other : Objects O T D => ∀ t, other.point t = none)
      (fun other => other.work) fun other hother hactive => ?_
    obtain ⟨t, ht⟩ := not_forall.mp hactive
    have hreached := hrun.trans (hother.mono fun _ _ _ => trivial)
    have hoperands : DistinctOperands other :=
      hother.invariant hdistinct fun _ _ _ h hfinishes hstep => h.step hfinishes (step_cases hstep)
    exact exists_less mean (held_of_reaches hreached) (aged_of_reaches hreached) hoperands ht
  · induction hafter with
    | refl => exact ⟨stage, hpoint⟩
    | tail move hway _ hstep ih =>
        obtain ⟨before, hbefore⟩ := ih
        have hfits := (held_of_reaches (hrun.trans hway)).fits t
        rw [hbefore] at hfits
        refine (step_cases hstep).method hbefore fun hleaves => hnot ?_
        exact hfits.distinct (by simp [hleaves]) (by simp [hleaves])

/-- A thread waits for an object which another one shares while it waits itself, for a third
thread that copies its second operand. Elsewhere a thread swaps an object with itself. -/
theorem methods_end_chain :
    (∃ state : Objects (Fin 3) (Fin 3) ℕ,
      (¬ Grants (state.hold 0) 1 .exclusive ∧ ¬ Grants (state.hold 1) 0 .exclusive) ∧
        ∃ after, Reaches (step fun x y => (x + y) / 2) Finishes state after ∧
          ∀ t, after.point t = none) ∧
    ∃ state : Objects (Fin 3) (Fin 3) ℕ, state.hold 0 1 = .exclusive ∧
      ∀ after, Reaches (step fun x y => (x + y) / 2) (fun _ _ => True) state after →
        ∃ stage, after.point 1 = some (.swap 0 0, stage) := by
  constructor
  · obtain ⟨state, hrun, hobserved⟩ : ∃ state : Objects (Fin 3) (Fin 3) ℕ,
        Reaches (step fun x y => (x + y) / 2) (fun _ _ => True) (initial (Fin 3) ![2, 6, 4])
          state ∧
          (decide (Grants (state.hold 0) 1 .exclusive),
            decide (Grants (state.hold 1) 0 .exclusive),
            decide (∀ t, ∀ point ∈ state.point t, point.1.Distinct)) = (false, false, true) :=
      Reaches.of_observed (fun _ _ => true)
        [.call 0 (.average 0 1), .go 0, .take 0 0, .take 0 1, .go 0, .go 0, .go 0,
          .call 1 (.average 2 0), .go 1, .take 1 2, .take 1 0, .go 1, .go 1, .go 1,
          .call 2 (.copy 1), .take 2 1, .go 2]
        (fun _ _ _ => trivial) (by decide +kernel)
    obtain ⟨hfirst, hobserved⟩ := Prod.mk.inj hobserved
    obtain ⟨hsecond, hthird⟩ := Prod.mk.inj hobserved
    have hdistinct : DistinctOperands state := fun t method stage hpoint =>
      of_decide_eq_true hthird t (method, stage) hpoint
    exact ⟨state, ⟨of_decide_eq_false hfirst, of_decide_eq_false hsecond⟩,
      (methods_end hrun).1 hdistinct⟩
  · obtain ⟨state, hrun, hobserved⟩ : ∃ state : Objects (Fin 3) (Fin 3) ℕ,
        Reaches (step fun x y => (x + y) / 2) (fun _ _ => True) (initial (Fin 3) ![2, 6, 4])
          state ∧ (state.hold 0 1, state.point 1) = (.exclusive, some (.swap 0 0, .locks)) :=
      Reaches.of_observed (fun _ _ => true) [.call 1 (.swap 0 0), .take 1 0]
        (fun _ _ _ => trivial) (by decide +kernel)
    obtain ⟨hhold, hpoint⟩ := Prod.mk.inj hobserved
    exact ⟨state, hhold, (methods_end hrun).2 1 _ _ hpoint (by decide)⟩

end Objects

end ThreadPools.SharedMutex
