/-
# Annotated programs

An annotation says what a thread knows about the shared data at each of its
control points, what is true of the data whenever nobody is inside a monitor,
and what is true always. It is valid when every piece of code establishes the
knowledge of the point behind it and returns every monitor it leaves with that
monitor's resource assertion, and when its effects disturb the knowledge of no
other thread. Mutual exclusion enters here once and for all: interference has
to be excluded only between control points that hold no common monitor.

Annotations are proved one after another: a later one may use all that the
earlier ones say about the threads taking part in a step.
-/

import ThreadPools.Concurrency.Locking

namespace ThreadPools.Concurrency

structure Annotation (T M D P : Type*) where
  /-- What a thread knows at a control point. -/
  assertion : T → P → D → Prop
  /-- What holds while nobody is inside the monitor. -/
  resource : M → D → Prop
  /-- What holds always. -/
  invariant : D → Prop

namespace Annotation

variable {T M D E P I : Type*}

/-- The annotation that says nothing. -/
def trivial : Annotation T M D P where
  assertion _ _ _ := True
  resource _ _ := True
  invariant _ := True

/-- Both annotations. -/
def and (first second : Annotation T M D P) : Annotation T M D P where
  assertion thread point data :=
    first.assertion thread point data ∧ second.assertion thread point data
  resource m data := first.resource m data ∧ second.resource m data
  invariant data := first.invariant data ∧ second.invariant data

/-- The annotation is true in a state. -/
structure Holds (A : Annotation T M D P) (state : State T M D P) : Prop where
  assertion : ∀ thread, A.assertion thread (state.pc thread) state.data
  resource : ∀ m, (state.monitor m).owner = none → A.resource m state.data
  invariant : A.invariant state.data

theorem holds_trivial (state : State T M D P) :
    (trivial : Annotation T M D P).Holds state :=
  ⟨fun _ => True.intro, fun _ _ => True.intro, True.intro⟩

theorem Holds.and {A B : Annotation T M D P} {state : State T M D P}
    (hA : A.Holds state) (hB : B.Holds state) : (A.and B).Holds state :=
  ⟨fun thread => ⟨hA.assertion thread, hB.assertion thread⟩,
    fun m hfree => ⟨hA.resource m hfree, hB.resource m hfree⟩,
    ⟨hA.invariant, hB.invariant⟩⟩

/-- What is known when `thread` performs `instr` at `point`. -/
structure Before (π : Program T M D E P I) (A : Annotation T M D P) (thread : T)
    (input : I) (point : P) (data : D) (instr : Instr T M E P) : Prop where
  code : π.code thread input point data = some instr
  assertion : A.assertion thread point data
  invariant : A.invariant data
  lock : ∀ m, instr.op = .lock m → A.resource m data
  /-- Every other thread is at some control point that excludes none of this. -/
  others : ∀ other, other ≠ thread → ∃ place, A.assertion other place data ∧
    (∀ m, m ∈ π.held thread point → m ∉ π.held other place) ∧
    (instr.op = .join other → π.exited place = true)

/-- The proof obligations of the annotation `A`, when `known` is established
and the environment respects `usage`. -/
structure Valid (π : Program T M D E P I) (known A : Annotation T M D P)
    (usage : T → I → P → D → Prop) : Prop where
  /-- A piece of code establishes what is known behind it. -/
  assertion : ∀ {thread input point data instr},
    Before π (known.and A) thread input point data instr → usage thread input point data →
      A.assertion thread instr.next (π.dataAfter instr data)
  /-- A monitor is left in order. -/
  release : ∀ {thread input point data instr} (m : M),
    Before π (known.and A) thread input point data instr → usage thread input point data →
      instr.op = .unlock m ∨ instr.op = .wait m →
        A.resource m (π.dataAfter instr data)
  invariant : ∀ {thread input point data instr effect},
    Before π (known.and A) thread input point data instr → usage thread input point data →
      instr.effect = some effect → A.invariant (π.apply effect data)
  /-- The knowledge of other threads is not disturbed. -/
  frame : ∀ {thread input point data instr effect other place},
    Before π (known.and A) thread input point data instr → usage thread input point data →
      instr.effect = some effect → other ≠ thread →
      (known.and A).assertion other place data →
      (∀ m, m ∈ π.held thread point → m ∉ π.held other place) →
      (instr.op = .join other → π.exited place = true) →
        A.assertion other place (π.apply effect data)
  /-- Nor are the monitors nobody is inside of. -/
  frame_resource : ∀ {thread input point data instr effect} (m : M),
    Before π (known.and A) thread input point data instr → usage thread input point data →
      instr.effect = some effect → m ∉ π.held thread point → instr.op ≠ .lock m →
      (known.and A).resource m data → A.resource m (π.apply effect data)
  raise : ∀ {thread input point data instr} (m : M),
    π.code thread input point data = some instr → usage thread input point data →
      (known.and A).assertion thread point data → instr.op = .lock m →
      m ∈ π.held thread point →
        A.assertion thread (π.handler point) data ∧
        ∀ released ∈ π.held thread point,
          released ∉ π.held thread (π.handler point) → A.resource released data

/-- The steps of threads that respect a usage. -/
def Respects (usage : T → I → P → D → Prop) (state : State T M D P) :
    Action T M I → Prop
  | .run thread input _ => usage thread input (state.pc thread) state.data
  | .spurious _ _ => True

instance (usage : T → I → P → D → Prop) [∀ t i p d, Decidable (usage t i p d)]
    (state : State T M D P) (action : Action T M I) : Decidable (Respects usage state action) :=
  match action with
  | .run thread input _ => inferInstanceAs (Decidable (usage thread input _ _))
  | .spurious _ _ => .isTrue True.intro

variable [DecidableEq T] [DecidableEq M]

variable {π : Program T M D E P I} {known A : Annotation T M D P}
  {usage : T → I → P → D → Prop}

/-- A valid annotation stays true when a thread performs a piece of code. -/
theorem Valid.advance (hvalid : Valid π known A usage) (hwell : π.WellLocked)
    {state : State T M D P} (hlocked : π.Locked state) (hknown : known.Holds state)
    (hholds : A.Holds state) {thread : T} {input : I} {instr : Instr T M E P}
    {choice : Nat} (husage : usage thread input (state.pc thread) state.data)
    (hcode : π.code thread input (state.pc thread) state.data = some instr)
    (henabled : π.Enabled state thread instr.op) :
    A.Holds (π.advance state thread instr choice) := by
  have hboth := hknown.and hholds
  have hbefore : Before π (known.and A) thread input (state.pc thread) state.data instr := by
    refine ⟨hcode, hboth.assertion thread, hboth.invariant, fun m hop => ?_,
      fun other hother => ⟨state.pc other, hboth.assertion other,
        fun m hmine htheirs => hother (hlocked.exclusive htheirs hmine), fun hop => ?_⟩⟩
    · rw [hop] at henabled
      exact hboth.resource m henabled.1
    · rw [hop] at henabled
      exact henabled
  have hlockedNext := hlocked.advance hwell hcode henabled choice
  refine ⟨fun other => ?_, fun m hfree => ?_, ?_⟩
  · by_cases hother : other = thread
    · subst hother
      simpa [Program.advance] using hvalid.assertion hbefore husage
    · simp only [Program.advance, Function.update_of_ne hother]
      cases heffect : instr.effect with
      | none =>
          rw [π.dataAfter_none heffect]
          exact hholds.assertion other
      | some effect =>
          rw [π.dataAfter_some heffect]
          refine hvalid.frame hbefore husage heffect hother (hboth.assertion other)
            (fun m hmine htheirs => hother (hlocked.exclusive htheirs hmine))
            (fun hop => ?_)
          rw [hop] at henabled
          exact henabled
  · -- a monitor that is free afterwards was left just now or was free before
    have hnotHeld : m ∉ π.held thread instr.next := by
      simpa [Program.advance] using hlockedNext.not_held hfree thread
    have hbalanced := hwell.balanced hcode
    by_cases hleft : instr.op = .unlock m ∨ instr.op = .wait m
    · exact hvalid.release m hbefore husage hleft
    · have hnotLock : instr.op ≠ .lock m := fun hop => by
        rw [hop] at hbalanced
        exact hnotHeld (hbalanced ▸ List.mem_cons_self)
      have hbefore' : m ∉ π.held thread (state.pc thread) := fun hmem => by
        cases hop : instr.op with
        | skip =>
            rw [hop] at hbalanced
            exact hnotHeld (hbalanced ▸ hmem)
        | join =>
            rw [hop] at hbalanced
            exact hnotHeld (hbalanced ▸ hmem)
        | lock other =>
            rw [hop] at hbalanced
            exact hnotHeld (hbalanced ▸ List.mem_cons_of_mem _ hmem)
        | unlock other =>
            rw [hop] at hbalanced
            rcases List.mem_cons.mp (hbalanced ▸ hmem) with rfl | hmem
            · exact hleft (.inl hop)
            · exact hnotHeld hmem
        | wait other =>
            rw [hop] at hbalanced
            rcases List.mem_cons.mp (hbalanced ▸ hmem) with rfl | hmem
            · exact hleft (.inr hop)
            · exact hnotHeld hmem
      have hfreeBefore : (state.monitor m).owner = none := by
        cases howner : (state.monitor m).owner with
        | none => rfl
        | some other =>
            have hheld := (hlocked.owner m other).mp howner
            have hother : other ≠ thread := fun heq => hbefore' (heq ▸ hheld)
            have hstill := hlockedNext.not_held hfree other
            simp only [Program.advance, Function.update_of_ne hother] at hstill
            exact absurd hheld hstill
      show A.resource m (π.dataAfter instr state.data)
      cases heffect : instr.effect with
      | none =>
          rw [π.dataAfter_none heffect]
          exact hholds.resource m hfreeBefore
      | some effect =>
          rw [π.dataAfter_some heffect]
          exact hvalid.frame_resource m hbefore husage heffect hbefore' hnotLock
            (hboth.resource m hfreeBefore)
  · show A.invariant (π.dataAfter instr state.data)
    cases heffect : instr.effect with
    | none =>
        rw [π.dataAfter_none heffect]
        exact hholds.invariant
    | some effect =>
        rw [π.dataAfter_some heffect]
        exact hvalid.invariant hbefore husage heffect

/-- A valid annotation stays true when an exception is caught. -/
theorem Valid.raised (hvalid : Valid π known A usage) {state : State T M D P}
    (hlocked : π.Locked state) (hknown : known.Holds state) (hholds : A.Holds state)
    {thread : T} {input : I} {instr : Instr T M E P}
    (husage : usage thread input (state.pc thread) state.data)
    (hcode : π.code thread input (state.pc thread) state.data = some instr)
    (hraises : Program.Raises state thread instr.op) :
    A.Holds (π.raise state thread) := by
  obtain ⟨m, hop⟩ : ∃ m, instr.op = .lock m := by
    cases hop : instr.op with
    | lock m => exact ⟨m, rfl⟩
    | skip => rw [hop] at hraises; exact hraises.elim
    | unlock => rw [hop] at hraises; exact hraises.elim
    | wait => rw [hop] at hraises; exact hraises.elim
    | join => rw [hop] at hraises; exact hraises.elim
  rw [hop] at hraises
  obtain ⟨hassertion, hreleased⟩ := hvalid.raise m hcode husage
    ((hknown.and hholds).assertion thread) hop ((hlocked.owner m thread).mp hraises)
  refine ⟨fun other => ?_, fun m hfree => ?_, hholds.invariant⟩
  · by_cases hother : other = thread
    · subst hother
      simpa [Program.raise] using hassertion
    · simpa [Program.raise, hother] using hholds.assertion other
  · show A.resource m state.data
    simp only [Program.raise] at hfree
    split at hfree
    · next h => exact hreleased m h.1 h.2
    · exact hholds.resource m hfree

/-- The rule for annotated programs: a valid annotation that is true initially
is true in every state of every run whose steps respect the usage. -/
theorem Valid.holds (hvalid : Valid π known A usage) (hwell : π.WellLocked)
    {guard : State T M D P → Action T M I → Prop} {initial state : State T M D P}
    (hguard : ∀ state action, Reaches π.step guard initial state → guard state action →
      Respects usage state action)
    (hlocked : π.Locked initial)
    (hknown : ∀ state, Reaches π.step guard initial state → known.Holds state)
    (hinit : A.Holds initial) (hrun : Reaches π.step guard initial state) :
    A.Holds state := by
  refine hrun.invariant_of
    (fun state => Reaches π.step guard initial state ∧ π.Locked state ∧ known.Holds state)
    (fun state hprior => ⟨hprior, hlocked.reaches hwell hprior, hknown state hprior⟩) hinit ?_
  rintro state action next ⟨hprior, hlocked, hknown⟩ hholds hallowed hstep
  rcases Program.step_cases hstep with
    ⟨thread, input, choice, instr, rfl, hcode, henabled, rfl⟩ |
    ⟨thread, input, choice, instr, rfl, hcode, hraises, rfl⟩ | ⟨m, thread, -, -, rfl⟩
  · exact hvalid.advance hwell hlocked hknown hholds (hguard _ _ hprior hallowed) hcode henabled
  · exact hvalid.raised hlocked hknown hholds (hguard _ _ hprior hallowed) hcode hraises
  · refine ⟨hholds.assertion, fun other hfree => hholds.resource other ?_, hholds.invariant⟩
    by_cases hother : other = m
    · subst hother
      simpa using hfree
    · simpa [hother] using hfree

end Annotation

end ThreadPools.Concurrency
