/-
# Code that uses a variable under a mutex

Threads execute pieces of code again and again. A piece takes the mutex in some mode, tries to
take it, assigns the variable and asserts what its value is. `Code.fits` checks a piece by
itself: it assigns under the exclusive mode only, leaves that mode only when the variable has
its resting value, and waits only where no other thread may wait in turn. When all pieces fit,
no assertion of any thread can fail, and no threads can block each other for good.
-/

import Mathlib.Algebra.Order.BigOperators.Group.Finset
import ThreadPools.Concurrency.Runs
import ThreadPools.Machines.UpgradeMutex

namespace ThreadPools.Machines

open ThreadPools.Concurrency

universe u v

inductive Code (V : Type v)
  | ends
  /-- wait until the mutex can be held in this mode, and hold it -/
  | takes (mode : Mode) (rest : Code V)
  | tries (mode : Mode) (taken failed : Code V)
  | asserts (value : V) (rest : Code V)
  | assigns (value : V) (rest : Code V)
  deriving DecidableEq

/-- A thread that holds the mutex in the first mode may wait for the second one. -/
def Mode.mayAwait : Mode → Mode → Bool
  | .free, _ | .upgrade, .exclusive => true
  | m, n => decide (n.strength < m.strength)

namespace Code

variable {V : Type v}

def size : Code V → Nat
  | ends => 1
  | takes _ rest | asserts _ rest | assigns _ rest => rest.size + 1
  | tries _ taken failed => taken.size + failed.size + 1

/-- The code may be executed by a thread that holds the mutex in `mode` and knows that the
value of the variable is `known`. -/
def fits [DecidableEq V] (resting : V) : Mode → V → Code V → Bool
  | mode, _, ends => mode = .free
  | mode, known, takes next rest =>
      mode.mayAwait next && (mode ≠ .exclusive || known = resting) && rest.fits resting next known
  | mode, known, tries next taken failed =>
      mode ≠ .exclusive && taken.fits resting next known && failed.fits resting mode known
  | mode, known, asserts value rest =>
      mode ≠ .free && value = known && rest.fits resting mode known
  | mode, _, assigns value rest => mode = .exclusive && rest.fits resting mode value

end Code

/-- The mutex, the variable, and what the threads have still to do in their round. -/
structure System (T : Type u) (V : Type v) where
  hold : T → Mode
  value : V
  code : T → Option (Code V)

namespace System

inductive Action (T : Type u)
  | go (t : T)
  /-- a call that tries to take the mutex fails, which it may also do while nobody holds the
  mutex against it -/
  | fail (t : T)
  /-- the thread begins no other round -/
  | stop (t : T)

variable {T : Type u} {V : Type v} [DecidableEq T] [Fintype T] [DecidableEq V]

def goOn (state : System T V) (t : T) (rest : Option (Code V)) : System T V :=
  { state with code := Function.update state.code t rest }

omit [Fintype T] [DecidableEq V] in
@[simp] theorem goOn_code_self (state : System T V) (t : T) (rest : Option (Code V)) :
    (state.goOn t rest).code t = rest := by
  simp [goOn]

omit [Fintype T] [DecidableEq V] in
theorem goOn_code_of_ne (state : System T V) {t s : T} (hs : s ≠ t) (rest : Option (Code V)) :
    (state.goOn t rest).code s = state.code s := by
  simp [goOn, hs]

def take (state : System T V) (t : T) (mode : Mode) (rest : Code V) : Option (System T V) :=
  if Grants state.hold t mode then
    some { state.goOn t (some rest) with hold := Function.update state.hold t mode }
  else none

/-- One atomic step of threads that execute the code `body`. -/
def step (body : T → Code V) (state : System T V) : Action T → Option (System T V)
  | .go t =>
      match state.code t with
      | none => none
      | some .ends => some (state.goOn t (some (body t)))
      | some (.takes mode rest) => state.take t mode rest
      | some (.tries mode taken _) => state.take t mode taken
      | some (.asserts value rest) =>
          if state.value = value then some (state.goOn t (some rest)) else none
      | some (.assigns value rest) => some { state.goOn t (some rest) with value := value }
  | .fail t =>
      match state.code t with
      | some (.tries _ _ failed) => some (state.goOn t (some failed))
      | _ => none
  | .stop t =>
      match state.code t with
      | some .ends => some (state.goOn t none)
      | _ => none

/-- A call that tries to take the mutex fails only when the mutex cannot be given to it. -/
def Genuine (state : System T V) : Action T → Prop
  | .fail t => ∀ mode taken failed, state.code t = some (.tries mode taken failed) →
      ¬ Grants state.hold t mode
  | _ => True

/-- Nobody holds the mutex, and all threads are at the beginning of a round. -/
def initial (T : Type u) (resting : V) : System T V where
  hold _ := .free
  value := resting
  code _ := some .ends

/-! ## What a step can be -/

inductive Steps (body : T → Code V) (state : System T V) : System T V → Prop
  | begins (t : T) (hcode : state.code t = some .ends) :
      Steps body state (state.goOn t (some (body t)))
  | stops (t : T) (hcode : state.code t = some .ends) : Steps body state (state.goOn t none)
  | takes (t : T) (mode : Mode) (rest : Code V)
      (hcode : state.code t = some (.takes mode rest) ∨
        ∃ failed, state.code t = some (.tries mode rest failed))
      (hgrants : Grants state.hold t mode) :
      Steps body state
        { state.goOn t (some rest) with hold := Function.update state.hold t mode }
  | fails (t : T) (mode : Mode) (taken failed : Code V)
      (hcode : state.code t = some (.tries mode taken failed)) :
      Steps body state (state.goOn t (some failed))
  | asserts (t : T) (rest : Code V) (hcode : state.code t = some (.asserts state.value rest)) :
      Steps body state (state.goOn t (some rest))
  | assigns (t : T) (value : V) (rest : Code V) (hcode : state.code t = some (.assigns value rest)) :
      Steps body state { state.goOn t (some rest) with value := value }

variable {body : T → Code V} {state after : System T V} {action : Action T}

theorem step_cases (h : step body state action = some after) : Steps body state after := by
  cases action with
  | go t =>
      simp only [step] at h
      split at h
      · cases h
      · next hcode =>
          cases h
          exact .begins t hcode
      · next mode rest hcode =>
          obtain ⟨hgrants, ⟨⟩⟩ := Option.ite_none_right_eq_some.mp h
          exact .takes t mode rest (.inl hcode) hgrants
      · next mode taken failed hcode =>
          obtain ⟨hgrants, ⟨⟩⟩ := Option.ite_none_right_eq_some.mp h
          exact .takes t mode taken (.inr ⟨failed, hcode⟩) hgrants
      · next value rest hcode =>
          obtain ⟨rfl, ⟨⟩⟩ := Option.ite_none_right_eq_some.mp h
          exact .asserts t rest hcode
      · next value rest hcode =>
          cases h
          exact .assigns t value rest hcode
  | fail t =>
      simp only [step] at h
      split at h
      · next mode taken failed hcode =>
          cases h
          exact .fails t mode taken failed hcode
      · cases h
  | stop t =>
      simp only [step] at h
      split at h
      · next hcode =>
          cases h
          exact .stops t hcode
      · cases h

/-! ## Assertions -/

/-- The value that a thread may rely on: only under the exclusive mode may it be another one
than the resting value. -/
def known (resting : V) (state : System T V) (t : T) : V :=
  if state.hold t = .exclusive then state.value else resting

/-- All threads are at code that fits to how they hold the mutex. -/
structure Fitting (resting : V) (state : System T V) : Prop where
  coherent : Coherent state.hold
  code : ∀ t c, state.code t = some c →
    c.fits resting (state.hold t) (state.known resting t) = true
  ended : ∀ t, state.code t = none → state.hold t = .free
  resting : (∀ t, state.hold t ≠ .exclusive) → state.value = resting

namespace Fitting

variable {resting : V} {t : T}

omit [Fintype T] in
/-- Who holds the mutex knows the value of the variable. -/
theorem known_eq (h : Fitting resting state) (ht : state.hold t ≠ .free) :
    state.known resting t = state.value := by
  unfold known
  split
  · rfl
  · next hnot =>
      refine (h.resting fun other hother => ?_).symm
      by_cases heq : other = t
      · exact hnot (heq ▸ hother)
      · exact ht (h.coherent.exclusive hother fun h => heq h.symm)

omit [Fintype T] in
theorem goOn (h : Fitting resting state) {rest : Option (Code V)}
    (hrest : ∀ c, rest = some c → c.fits resting (state.hold t) (state.known resting t) = true)
    (hended : rest = none → state.hold t = .free) : Fitting resting (state.goOn t rest) :=
  ⟨h.coherent,
    (Function.forall_update_iff state.code fun s x => ∀ c, x = some c →
      c.fits resting (state.hold s) (state.known resting s) = true).mpr
        ⟨hrest, fun s _ => h.code s⟩,
    (Function.forall_update_iff state.code fun s x => x = none → state.hold s = .free).mpr
      ⟨hended, fun s _ => h.ended s⟩,
    h.resting⟩

omit [Fintype T] in
theorem take (h : Fitting resting state) {mode : Mode} {rest : Code V}
    (hrest : rest.fits resting mode (state.known resting t) = true)
    (hgrants : Grants state.hold t mode)
    (hleaves : state.hold t = .exclusive → state.value = resting) :
    Fitting resting
      { state.goOn t (some rest) with hold := Function.update state.hold t mode } := by
  set after : System T V :=
    { state.goOn t (some rest) with hold := Function.update state.hold t mode } with hafter
  have hself : after.hold t = mode := Function.update_self t mode state.hold
  have hothers : ∀ s, s ≠ t → after.hold s = state.hold s := fun s hs =>
    Function.update_of_ne hs mode state.hold
  have hresting : mode = .exclusive ∨ state.hold t = .exclusive → state.value = resting := by
    rintro (rfl | ht)
    · by_cases ht : state.hold t = .exclusive
      · exact hleaves ht
      · refine h.resting fun s hs => ?_
        by_cases heq : s = t
        · exact ht (heq ▸ hs)
        · have hfree := Mode.eq_free_of_exclusive (hgrants s heq)
          cases hfree.symm.trans hs
    · exact hleaves ht
  have hknown : after.known resting t = state.known resting t := by
    unfold known
    rw [hself]
    split <;> split
    · rfl
    · next hmode _ => exact hresting (.inl hmode)
    · next ht => exact (hresting (.inr ht)).symm
    · rfl
  have hcode : ∀ s, s ≠ t → after.code s = state.code s := fun s hs =>
    state.goOn_code_of_ne hs (some rest)
  refine ⟨h.coherent.update hgrants, fun s c hc => ?_, fun s hs => ?_, fun hnot => ?_⟩
  · by_cases heq : s = t
    · subst heq
      obtain rfl := Option.some.inj ((state.goOn_code_self s (some rest)).symm.trans hc)
      rw [hknown, hself]
      exact hrest
    · rw [hcode s heq] at hc
      have hsame : after.known resting s = state.known resting s := by
        unfold known
        rw [hothers s heq]
        rfl
      rw [hsame, hothers s heq]
      exact h.code s c hc
  · by_cases heq : s = t
    · subst heq
      cases (state.goOn_code_self s (some rest)).symm.trans hs
    · rw [hcode s heq] at hs
      exact (hothers s heq).trans (h.ended s hs)
  · by_cases ht : state.hold t = .exclusive
    · exact hresting (.inr ht)
    · refine h.resting fun s hs => ?_
      by_cases heq : s = t
      · exact ht (heq ▸ hs)
      · exact hnot s ((hothers s heq).trans hs)

omit [Fintype T] in
/-- Only a thread that holds the mutex alone assigns the variable, and nobody else relies on
its value. -/
theorem assign (h : Fitting resting state) (ht : state.hold t = .exclusive) {value : V}
    {rest : Code V} (hrest : rest.fits resting .exclusive value = true) :
    Fitting resting { state.goOn t (some rest) with value := value } := by
  refine ⟨h.coherent, fun s c hc => ?_, fun s hs => ?_, fun hnot => absurd ht (hnot t)⟩
  · by_cases heq : s = t
    · subst heq
      obtain rfl := Option.some.inj ((state.goOn_code_self s (some rest)).symm.trans hc)
      have hknown : known resting { state.goOn s (some rest) with value := value } s = value :=
        if_pos ht
      rw [hknown]
      exact ht ▸ hrest
    · have hs : state.hold s ≠ .exclusive := fun hs => by
        cases hs.symm.trans (h.coherent.exclusive ht heq)
      have hknown : known resting { state.goOn t (some rest) with value := value } s =
          state.known resting s := (if_neg hs).trans (if_neg hs).symm
      rw [hknown]
      exact h.code s c ((state.goOn_code_of_ne heq (some rest)).symm.trans hc)
  · by_cases heq : s = t
    · subst heq
      cases (state.goOn_code_self s (some rest)).symm.trans hs
    · exact h.ended s ((state.goOn_code_of_ne heq (some rest)).symm.trans hs)

omit [Fintype T] in
theorem step (h : Fitting resting state)
    (hbody : ∀ t, (body t).fits resting .free resting = true) (hstep : Steps body state after) :
    Fitting resting after := by
  cases hstep with
  | begins t hcode =>
      have hfree : state.hold t = .free := by simpa [Code.fits] using h.code t _ hcode
      refine h.goOn (fun c hc => ?_) nofun
      cases hc
      have hknown : state.known resting t = resting := if_neg (by simp [hfree])
      rw [hfree, hknown]
      exact hbody t
  | stops t hcode =>
      have hfree : state.hold t = .free := by simpa [Code.fits] using h.code t _ hcode
      exact h.goOn nofun fun _ => hfree
  | takes t mode rest hcode hgrants =>
      rcases hcode with hcode | ⟨failed, hcode⟩
      · have hfits := h.code t _ hcode
        simp only [Code.fits, Bool.and_eq_true, Bool.or_eq_true, decide_eq_true_eq] at hfits
        obtain ⟨⟨-, hleaves⟩, hrest⟩ := hfits
        refine h.take hrest hgrants fun ht => ?_
        exact (h.known_eq (by simp [ht])).symm.trans (hleaves.resolve_left fun hnot => hnot ht)
      · have hfits := h.code t _ hcode
        simp only [Code.fits, Bool.and_eq_true, decide_eq_true_eq] at hfits
        obtain ⟨⟨hnot, hrest⟩, -⟩ := hfits
        exact h.take hrest hgrants fun ht => absurd ht hnot
  | fails t mode taken failed hcode =>
      have hfits := h.code t _ hcode
      simp only [Code.fits, Bool.and_eq_true] at hfits
      refine h.goOn (fun c hc => ?_) nofun
      cases hc
      exact hfits.2
  | asserts t rest hcode =>
      have hfits := h.code t _ hcode
      simp only [Code.fits, Bool.and_eq_true] at hfits
      refine h.goOn (fun c hc => ?_) nofun
      cases hc
      exact hfits.2
  | assigns t value rest hcode =>
      have hfits := h.code t _ hcode
      simp only [Code.fits, Bool.and_eq_true, decide_eq_true_eq] at hfits
      exact h.assign hfits.1 (hfits.1 ▸ hfits.2)

end Fitting

variable {resting : V} {guard : System T V → Action T → Prop}

omit [DecidableEq T] [Fintype T] in
theorem fitting_initial (resting : V) : Fitting resting (initial T resting) where
  coherent := coherent_free
  code := fun t c hc => by
    cases hc
    rfl
  ended := nofun
  resting := fun _ => rfl

theorem fitting_of_reaches (hbody : ∀ t, (body t).fits resting .free resting = true)
    (hrun : Reaches (step body) guard (initial T resting) state) : Fitting resting state :=
  hrun.invariant (fitting_initial resting) fun _ _ _ h _ hstep => h.step hbody (step_cases hstep)

omit [Fintype T] in
/-- An assertion that a thread is about to make is true. -/
theorem Fitting.asserted (h : Fitting resting state) {t : T} {value : V} {rest : Code V}
    (hcode : state.code t = some (.asserts value rest)) : state.value = value := by
  have hfits := h.code t _ hcode
  simp only [Code.fits, Bool.and_eq_true, decide_eq_true_eq] at hfits
  exact (h.known_eq hfits.1.1).symm.trans hfits.1.2.symm

omit [Fintype T] [DecidableEq T] in
/-- Nobody reads or writes the variable while a thread is about to assign it. -/
theorem Fitting.alone (h : Fitting resting state) {t other : T} {value : V} {rest : Code V}
    (hcode : state.code t = some (.assigns value rest)) (hother : other ≠ t) :
    state.hold other = .free := by
  have hfits := h.code t _ hcode
  simp only [Code.fits, Bool.and_eq_true, decide_eq_true_eq] at hfits
  exact h.coherent.exclusive hfits.1 hother

/-! ## No thread is blocked for good -/

/-- What the threads have to do until they have ended. -/
def work (state : System T V) : Nat := ∑ t, (state.code t).elim 0 Code.size

omit [DecidableEq V] in
theorem work_lt {t : T} {c : Code V} {rest : Option (Code V)} (hcode : state.code t = some c)
    (hafter : after.code = (state.goOn t rest).code) (hsize : rest.elim 0 Code.size < c.size) :
    after.work < state.work := by
  have hself : (after.code t).elim 0 Code.size < (state.code t).elim 0 Code.size := by
    rwa [hafter, goOn_code_self, hcode]
  refine Finset.sum_lt_sum (fun s _ => ?_) ⟨t, Finset.mem_univ t, hself⟩
  by_cases heq : s = t
  · exact heq ▸ hself.le
  · rw [hafter, goOn_code_of_ne state heq]

/-- A request of the mutex that has to wait is the only reason why a thread does not come
nearer to its end. -/
theorem exists_of_not_takes (h : Fitting resting state) {t : T} {c : Code V}
    (hcode : state.code t = some c)
    (hfree : ∀ mode rest, c = .takes mode rest → Grants state.hold t mode) :
    ∃ action after, Genuine state action ∧ step body state action = some after ∧
      after.work < state.work := by
  cases c with
  | ends =>
      exact ⟨.stop t, state.goOn t none, trivial, by simp [step, hcode],
        work_lt hcode rfl (by simp [Code.size])⟩
  | takes mode rest =>
      have hgrants := hfree mode rest rfl
      exact ⟨.go t, { state.goOn t (some rest) with hold := Function.update state.hold t mode },
        trivial, by simp [step, hcode, take, hgrants], work_lt hcode rfl (by simp [Code.size])⟩
  | tries mode taken failed =>
      by_cases hgrants : Grants state.hold t mode
      · exact ⟨.go t, { state.goOn t (some taken) with hold := Function.update state.hold t mode },
          trivial, by simp [step, hcode, take, hgrants],
          work_lt hcode rfl (by simp only [Option.elim_some, Code.size]; omega)⟩
      · refine ⟨.fail t, state.goOn t (some failed), fun mode' _ _ hcode' => ?_,
          by simp [step, hcode],
          work_lt hcode rfl (by simp only [Option.elim_some, Code.size]; omega)⟩
        cases hcode.symm.trans hcode'
        exact hgrants
  | asserts value rest =>
      exact ⟨.go t, state.goOn t (some rest), trivial, by simp [step, hcode, h.asserted hcode],
        work_lt hcode rfl (by simp [Code.size])⟩
  | assigns value rest =>
      exact ⟨.go t, { state.goOn t (some rest) with value := value }, trivial,
        by simp [step, hcode], work_lt hcode rfl (by simp [Code.size])⟩

theorem exists_step (body : T → Code V) (h : Fitting resting state) {t : T}
    (hactive : state.code t ≠ none) :
    ∃ action after, Genuine state action ∧ step body state action = some after ∧
      after.work < state.work := by
  by_contra hstuck
  have hwaits : ∀ t c, state.code t = some c →
      ∃ mode rest, c = .takes mode rest ∧ ¬ Grants state.hold t mode := by
    intro t c hcode
    by_contra hnot
    refine hstuck (exists_of_not_takes h hcode fun mode rest hc => ?_)
    exact not_not.mp fun hgrants => hnot ⟨mode, rest, hc, hgrants⟩
  -- whoever holds the mutex may wait for the exclusive mode only, and only under the upgrade mode
  have hheld : ∀ t, state.hold t ≠ .free →
      state.hold t = .upgrade ∧ ¬ Grants state.hold t .exclusive := by
    intro t ht
    cases hcode : state.code t with
    | none => exact absurd (h.ended t hcode) ht
    | some c =>
        obtain ⟨mode, rest, rfl, hnot⟩ := hwaits t c hcode
        have hfits := h.code t _ hcode
        simp only [Code.fits, Bool.and_eq_true] at hfits
        have hmay := hfits.1.1
        have hstronger : ¬ mode.strength ≤ (state.hold t).strength := fun hle =>
          hnot (h.coherent.grants hle)
        cases hmode : state.hold t <;> rw [hmode] at hmay hstronger ht <;> cases mode <;>
          first | exact ⟨rfl, hnot⟩ | exact absurd rfl ht |
            exact absurd (by decide) hstronger | cases hmay
  have hfree : ∀ t, state.hold t = .free := by
    intro t
    by_contra ht
    obtain ⟨hupgrade, hnot⟩ := hheld t ht
    refine hnot fun other hother => ?_
    rcases h.coherent.upgrade hupgrade hother with hother | hother
    · rw [hother, Mode.compatible_comm, Mode.free_compatible]
    · have hupgrade' := (hheld other (by simp [hother])).1
      cases hother.symm.trans hupgrade'
  obtain ⟨c, hcode⟩ := Option.ne_none_iff_exists'.mp hactive
  obtain ⟨mode, rest, -, hnot⟩ := hwaits t c hcode
  refine hnot fun other _ => ?_
  rw [hfree other, Mode.compatible_comm, Mode.free_compatible]

/-- From wherever a run has come, all threads can come to their end though no call fails without
need, and then the variable has its resting value. -/
theorem can_end (h : Fitting resting state)
    (hbody : ∀ t, (body t).fits resting .free resting = true) :
    ∃ after, Reaches (step body) Genuine state after ∧
      (∀ t, after.code t = none) ∧ after.value = resting := by
  have hfitting : ∀ other, Reaches (step body) Genuine state other →
      Fitting resting other :=
    fun other hrun => hrun.invariant h fun _ _ _ h _ hstep => h.step hbody (step_cases hstep)
  obtain ⟨after, hrun, hended⟩ :=
    Reaches.exists_ended (fun other => ∀ t, other.code t = none) work fun other hrun hactive => by
      obtain ⟨t, ht⟩ := not_forall.mp hactive
      obtain ⟨action, next, hgenuine, hstep, hlt⟩ := exists_step body (hfitting other hrun) ht
      exact ⟨next, Reaches.refl.tail action hgenuine hstep, hlt⟩
  have h := hfitting after hrun
  exact ⟨after, hrun, hended, h.resting fun t => by simp [h.ended t (hended t)]⟩

end System

end ThreadPools.Machines
