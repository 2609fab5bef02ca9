/-
# Nobody disturbs the operands

What a thread holds follows from the point it is at, so nobody writes an object while another
thread reads or writes it. For `average` this says more: between the two writes it holds one
operand shared and the other one for upgrade, and still finds both as it left them.
-/

import Mathlib.Data.Fin.VecNotation
import ThreadPools.SharedMutex.Assignment

namespace ThreadPools.SharedMutex

open ThreadPools.Concurrency ThreadPools.Machines

namespace Method

variable {O : Type*} [DecidableEq O]

/-- What a thread holds at a point. Some locks may be missing while they are being taken or
given back, and who has had all of them has been called for distinct objects. -/
def Fits : Option (Method O × Stage) → (O → Mode) → Prop
  | none, holds => ∀ o, holds o = .free
  | some (method, stage), holds =>
      (stage = .asserts ∨ stage = .locks ∨ method.Distinct) ∧
        (∀ o, holds o = method.mode stage o ∨
          (stage = .locks ∨ stage = .leaves) ∧ holds o = .free) ∧
        (stage = .asserts ∨ stage = .shares ∨ stage = .upgrades ∨ stage = .writes →
          ∃ this a, method = .average this a)

/-- The objects that a method writes when it goes on. -/
def written : Method O → Stage → List O
  | assign this _, .body | average this _, .body | compute this _ _, .body => [this]
  | swap this a, .body => [this, a]
  | average _ a, .writes => [a]
  | _, _ => []

/-- The objects that a method reads when it goes on. -/
def read : Method O → Stage → List O
  | average this a, .asserts => [this, a]
  | copy a, .body | assign _ a, .body => [a]
  | swap this a, .body | average this a, .body => [this, a]
  | compute _ x y, .body => [x, y]
  | average this _, .writes => [this]
  | _, _ => []

theorem mode_locks (method : Method O) : method.mode .body = method.mode .locks := by
  cases method <;> rfl

theorem mode_behind (method : Method O) : method.mode method.behind = method.mode .body := by
  cases method <;> rfl

/-- The mutexes that a method does not lock stay free. -/
theorem lockMode_of_not_mem {locks : List (O × Mode)} {o : O} (h : ∀ lock ∈ locks, o ≠ lock.1) :
    lockMode locks o = .free := by
  induction locks with
  | nil => rfl
  | cons lock locks ih =>
      rw [lockMode, if_neg (h lock List.mem_cons_self)]
      exact ih fun lock hlock => h lock (List.mem_cons_of_mem _ hlock)

/-- A method begins without any lock. -/
theorem Fits.entry {holds : O → Mode} (hfree : ∀ o, holds o = .free) (method : Method O) :
    Fits method.entry holds := by
  cases method with
  | assign this a =>
      by_cases hthis : this = a
      · have hentry : (assign this a).entry = none := if_pos hthis
        rw [hentry]
        exact hfree
      · have hentry : (assign this a).entry = some (assign this a, .locks) := if_neg hthis
        rw [hentry]
        exact ⟨.inr (.inl rfl), fun o => .inr ⟨.inl rfl, hfree o⟩, by simp⟩
  | average this a => exact ⟨.inl rfl, fun o => .inl (hfree o), fun _ => ⟨this, a, rfl⟩⟩
  | _ => exact ⟨.inr (.inl rfl), fun o => .inr ⟨.inl rfl, hfree o⟩, by simp⟩

theorem Fits.distinct {method : Method O} {stage : Stage} {holds : O → Mode}
    (h : Fits (some (method, stage)) holds) (hasserts : stage ≠ .asserts)
    (hlocks : stage ≠ .locks) : method.Distinct :=
  (h.1.resolve_left hasserts).resolve_left hlocks

/-- While locks are neither taken nor given back, the stage tells what a thread holds. -/
theorem Fits.eq_mode {method : Method O} {stage : Stage} {holds : O → Mode}
    (h : Fits (some (method, stage)) holds) (hlocks : stage ≠ .locks) (hleaves : stage ≠ .leaves)
    (o : O) : holds o = method.mode stage o :=
  (h.2.1 o).resolve_right fun hfree => hfree.1.elim hlocks hleaves

/-- A thread that has given back all locks of its method holds nothing. -/
theorem Fits.free {method : Method O} {stage : Stage} {holds : O → Mode}
    (h : Fits (some (method, stage)) holds) (hfree : ∀ lock ∈ method.locks stage,
      holds lock.1 = .free) (o : O) : holds o = .free := by
  rcases h.2.1 o with hmode | ⟨-, ho⟩
  · by_cases hlock : ∃ lock ∈ method.locks stage, o = lock.1
    · obtain ⟨lock, hlock, rfl⟩ := hlock
      exact hfree lock hlock
    · exact hmode.trans (lockMode_of_not_mem fun lock hmem heq => hlock ⟨lock, hmem, heq⟩)
  · exact ho

/-- The first operand of `average` is shared from now on. -/
theorem mode_shares (this a : O) :
    Function.update ((average this a).mode .shares) this .shared =
      (average this a).mode .upgrades := by
  funext o
  by_cases hthis : o = this <;> simp [mode, locks, lockMode, hthis]

/-- The second operand of `average` is held alone from now on. -/
theorem mode_upgrades {this a : O} (hne : this ≠ a) :
    Function.update ((average this a).mode .upgrades) a .exclusive =
      (average this a).mode .writes := by
  funext o
  by_cases ha : o = a
  · subst ha
    simp [mode, locks, lockMode, hne.symm]
  · simp [mode, locks, lockMode, ha]

/-- What is written is held alone. -/
theorem mode_written {method : Method O} {stage : Stage} {o : O} (hdistinct : method.Distinct)
    (ho : o ∈ method.written stage) : method.mode stage o = .exclusive := by
  cases method <;> cases stage <;>
    simp only [written, List.not_mem_nil, List.mem_cons, or_false] at ho <;>
    first
      | (subst ho; simp [mode, locks, lockMode])
      | (rcases ho with rfl | rfl <;> simp [mode, locks, lockMode])
  exact fun heq => hdistinct heq.symm

/-- What is read behind the assertions is held. -/
theorem mode_read {method : Method O} {stage : Stage} {o : O} (hasserts : stage ≠ .asserts)
    (ho : o ∈ method.read stage) : method.mode stage o ≠ .free := by
  cases method <;> cases stage <;>
    simp only [read, List.not_mem_nil, List.mem_cons, or_false] at ho <;>
    first
      | exact absurd rfl hasserts
      | (subst ho; simp [mode, locks, lockMode]; try split <;> simp)
      | (rcases ho with rfl | rfl <;> simp [mode, locks, lockMode] <;> split <;> simp)

end Method

namespace Objects

variable {O T D : Type*} {state after : Objects O T D} {move : Move O T} {mean : D → D → D}

/-- How a thread holds the mutexes. -/
def holds (state : Objects O T D) (t : T) : O → Mode := fun o => state.hold o t

variable [DecidableEq O]

structure Held (state : Objects O T D) : Prop where
  coherent : ∀ o, Coherent (state.hold o)
  fits : ∀ t, Method.Fits (state.point t) (state.holds t)

theorem Held.fits_of_point (h : Held state) {t : T} {point : Option (Method O × Stage)}
    (hpoint : state.point t = point) : Method.Fits point (state.holds t) :=
  hpoint ▸ h.fits t

variable [DecidableEq T]

theorem holds_setMode (state : Objects O T D) (t : T) (o : O) (mode : Mode) :
    (state.setMode t o mode).holds t = Function.update (state.holds t) o mode := by
  funext o'
  by_cases ho : o' = o
  · subst ho
    simp [holds, setMode]
  · simp [holds, setMode, ho]

theorem holds_setMode_of_ne (state : Objects O T D) {t s : T} (hs : s ≠ t) (o : O) (mode : Mode) :
    (state.setMode t o mode).holds s = state.holds s := by
  funext o'
  by_cases ho : o' = o
  · subst ho
    simp [holds, setMode, hs]
  · simp [holds, setMode, ho]

omit [DecidableEq O] in
@[simp] theorem moveTo_point_self (state : Objects O T D) (t : T)
    (target : Option (Method O × Stage)) : (state.moveTo t target).point t = target := by
  simp [moveTo]

omit [DecidableEq O] in
theorem moveTo_point_of_ne (state : Objects O T D) {t s : T} (hs : s ≠ t)
    (target : Option (Method O × Stage)) : (state.moveTo t target).point s = state.point s := by
  simp [moveTo, hs]

namespace Held

variable {t : T}

theorem coherent_setMode (h : Held state) {o : O} {mode : Mode}
    (hgrants : Grants (state.hold o) t mode) (o' : O) :
    Coherent ((state.setMode t o mode).hold o') := by
  by_cases ho : o' = o
  · subst ho
    have hupdate : (state.setMode t o' mode).hold o' =
        Function.update (state.hold o') t mode := by simp [setMode]
    rw [hupdate]
    exact (h.coherent o').update hgrants
  · have hsame : (state.setMode t o mode).hold o' = state.hold o' := by simp [setMode, ho]
    rw [hsame]
    exact h.coherent o'

/-- A thread moves; the others stay and hold what they held. -/
theorem moves (h : Held state) {target : Option (Method O × Stage)}
    (hhold : after.hold = state.hold)
    (hpoint : after.point = Function.update state.point t target)
    (hself : Method.Fits target (state.holds t)) : Held after := by
  have hholds : ∀ s, after.holds s = state.holds s := fun s =>
    funext fun o => congrFun (congrFun hhold o) s
  refine ⟨fun o => hhold ▸ h.coherent o, fun s => ?_⟩
  rw [hholds, hpoint]
  by_cases hs : s = t
  · subst hs
    rwa [Function.update_self]
  · rw [Function.update_of_ne hs]
    exact h.fits s

/-- A thread holds a mutex in another mode. -/
theorem changes (h : Held state) {o : O} {mode : Mode} {target : Option (Method O × Stage)}
    (hgrants : Grants (state.hold o) t mode)
    (hself : Method.Fits target (Function.update (state.holds t) o mode)) :
    Held ((state.moveTo t target).setMode t o mode) := by
  refine ⟨fun o' => h.coherent_setMode hgrants o', fun s => ?_⟩
  by_cases hs : s = t
  · subst hs
    rw [holds_setMode]
    have hpoint : ((state.moveTo s target).setMode s o mode).point s = target :=
      state.moveTo_point_self s target
    rw [hpoint]
    exact hself
  · rw [holds_setMode_of_ne _ hs]
    have hpoint : ((state.moveTo t target).setMode t o mode).point s = state.point s :=
      state.moveTo_point_of_ne hs target
    rw [hpoint]
    exact h.fits s

/-- A thread takes a lock, or gives one back, and stays where it is. -/
theorem stays (h : Held state) {o : O} {mode : Mode} {method : Method O} {stage : Stage}
    (hpoint : state.point t = some (method, stage)) (hstage : stage = .locks ∨ stage = .leaves)
    (hgrants : Grants (state.hold o) t mode) (hmode : mode = method.mode stage o ∨ mode = .free) :
    Held (state.setMode t o mode) := by
  have hsame : state.setMode t o mode = (state.moveTo t (state.point t)).setMode t o mode := by
    unfold moveTo
    rw [Function.update_eq_self]
  rw [hsame]
  refine h.changes hgrants ?_
  have hfits := h.fits_of_point hpoint
  rw [hpoint]
  refine ⟨hfits.1, (Function.forall_update_iff (state.holds t) fun o x =>
    x = method.mode stage o ∨ (stage = .locks ∨ stage = .leaves) ∧ x = .free).mpr
      ⟨hmode.imp_right fun h => ⟨hstage, h⟩, fun o _ => hfits.2.1 o⟩, hfits.2.2⟩

theorem step (h : Held state) (hstep : Steps mean state move after) : Held after := by
  cases hstep with
  | calls t method hpoint =>
      exact h.moves rfl rfl (Method.Fits.entry (h.fits_of_point hpoint) method)
  | asserts t this a hpoint hne =>
      have hfits := h.fits_of_point hpoint
      refine h.moves rfl rfl ⟨.inr (.inl rfl), fun o => .inr ⟨.inl rfl, ?_⟩, by simp⟩
      exact hfits.eq_mode (by decide) (by decide) o
  | takes t o method hpoint hgrants => exact h.stays hpoint (.inl rfl) hgrants (.inl rfl)
  | givesBack t o method stage hpoint hstage =>
      exact h.stays hpoint hstage (fun _ _ => Mode.free_compatible _) (.inr rfl)
  | begins t method hpoint hdistinct hheld =>
      have hfits := h.fits_of_point hpoint
      refine h.moves rfl rfl ⟨.inr (.inr hdistinct), fun o => .inl ?_, by simp⟩
      rw [Method.mode_locks]
      rcases hfits.2.1 o with hmode | ⟨-, hfree⟩
      · exact hmode
      · by_cases hlock : ∃ lock ∈ method.locks .locks, o = lock.1
        · obtain ⟨lock, hlock, rfl⟩ := hlock
          exact hheld lock hlock
        · have hnot : method.mode .locks o = .free :=
            Method.lockMode_of_not_mem fun lock hmem heq => hlock ⟨lock, hmem, heq⟩
          exact hfree.trans hnot.symm
  | acts t method hpoint =>
      have hfits := h.fits_of_point hpoint
      have hdistinct := hfits.distinct (by decide) (by decide)
      refine h.moves rfl rfl ⟨.inr (.inr hdistinct), fun o => .inl ?_, fun hstage => ?_⟩
      · rw [Method.mode_behind]
        exact hfits.eq_mode (by decide) (by decide) o
      · cases method with
        | average this a => exact ⟨this, a, rfl⟩
        | _ => simp [Method.behind] at hstage
  | shares t this a hpoint =>
      have hfits := h.fits_of_point hpoint
      have hmode : state.holds t = (Method.average this a).mode .shares :=
        funext (hfits.eq_mode (by decide) (by decide))
      have hdistinct := hfits.distinct (by decide) (by decide)
      refine h.changes ((h.coherent this).grants ?_)
        ⟨.inr (.inr hdistinct), fun o => .inl ?_, fun _ => ⟨_, _, rfl⟩⟩
      · have hthis : state.hold this t = .exclusive :=
          (congrFun hmode this).trans (by simp [Method.mode, Method.locks, Method.lockMode])
        rw [hthis]
        decide
      · rw [hmode, Method.mode_shares]
  | upgrades t this a hpoint hgrants =>
      have hfits := h.fits_of_point hpoint
      have hmode : state.holds t = (Method.average this a).mode .upgrades :=
        funext (hfits.eq_mode (by decide) (by decide))
      have hne : this ≠ a := hfits.distinct (by decide) (by decide)
      refine h.changes hgrants ⟨.inr (.inr hne), fun o => .inl ?_, fun _ => ⟨_, _, rfl⟩⟩
      rw [hmode, Method.mode_upgrades hne]
  | writes t this a hpoint =>
      have hfits := h.fits_of_point hpoint
      have hdistinct := hfits.distinct (by decide) (by decide)
      exact h.moves rfl rfl
        ⟨.inr (.inr hdistinct), fun o => (hfits.2.1 o).imp_right (by simp), by simp⟩
  | ends t method hpoint hfree =>
      exact h.moves rfl rfl ((h.fits_of_point hpoint).free hfree)

end Held

omit [DecidableEq T] in
theorem held_initial (data : O → D) : Held (initial T data) :=
  ⟨fun _ => coherent_free, fun _ _ => rfl⟩

/-! ## What is written -/

omit [DecidableEq T] in
theorem Held.hold_eq (h : Held state) {t : T} {method : Method O} {stage : Stage}
    (hpoint : state.point t = some (method, stage)) (hlocks : stage ≠ .locks)
    (hleaves : stage ≠ .leaves) (o : O) : state.hold o t = method.mode stage o :=
  (h.fits_of_point hpoint).eq_mode hlocks hleaves o

omit [DecidableEq T] in
theorem Held.holds_written (h : Held state) {t : T} {method : Method O} {stage : Stage} {o : O}
    (hpoint : state.point t = some (method, stage)) (ho : o ∈ method.written stage) :
    state.hold o t = .exclusive := by
  have hfits := h.fits_of_point hpoint
  have hmode : state.hold o t = method.mode stage o := by
    refine h.hold_eq hpoint ?_ ?_ o <;> rintro rfl <;> cases method <;> cases ho
  have hdistinct : method.Distinct := by
    refine hfits.distinct ?_ ?_ <;> rintro rfl <;> cases method <;> cases ho
  exact hmode.trans (Method.mode_written hdistinct ho)

omit [DecidableEq T] in
theorem Held.alone (h : Held state) {t other : T} {method : Method O} {stage : Stage} {o : O}
    (hpoint : state.point t = some (method, stage)) (ho : o ∈ method.written stage)
    (hother : other ≠ t) : state.hold o other = .free :=
  (h.coherent o).exclusive (h.holds_written hpoint ho) hother

omit [DecidableEq T] in
theorem Held.holds_read (h : Held state) {t : T} {method : Method O} {stage : Stage} {o : O}
    (hpoint : state.point t = some (method, stage)) (hasserts : stage ≠ .asserts)
    (ho : o ∈ method.read stage) : state.hold o t ≠ .free := by
  have hmode : state.hold o t = method.mode stage o := by
    refine h.hold_eq hpoint ?_ ?_ o <;> rintro rfl <;> cases method <;> cases ho
  exact hmode ▸ Method.mode_read hasserts ho

end Objects

namespace Method

variable {O : Type*} [DecidableEq O] {D : Type*} {mean : D → D → D}

theorem act_of_not_written {method : Method O} {o : O} (ho : o ∉ method.written .body)
    (data : O → D) : method.act mean data o = data o := by
  cases method <;> simp_all [act, written]

/-- What a method leaves of its operands, at a stage behind its body. -/
def left (mean : D → D → D) (operands : O → D) : Method O → Stage → O → D
  | average this a, .leaves =>
      Function.update ((average this a).act mean operands) a (mean (operands this) (operands a))
  | method, _ => method.act mean operands

theorem left_behind (method : Method O) (operands : O → D) :
    method.left mean operands method.behind = method.act mean operands := by
  cases method <;> rfl

end Method

namespace Objects

variable {O T D : Type*} [DecidableEq O] {state after : Objects O T D} {move : Move O T}
  {mean : D → D → D}

/-- As long as a thread holds an object, it is what the method of the thread makes of the
operands. -/
def Undisturbed (mean : D → D → D) (state : Objects O T D) : Prop :=
  ∀ t method stage, state.point t = some (method, stage) → stage ≠ .locks → stage ≠ .body →
    ∀ o, state.hold o t ≠ .free → state.data o = method.left mean (state.operands t) stage o

namespace Undisturbed

variable [DecidableEq T] {t : T}

/-- A thread moves, or holds a mutex in another mode, and writes only what the others do not
hold. -/
theorem moves (h : Undisturbed mean state) {target : Option (Method O × Stage)}
    (hpoint : after.point = Function.update state.point t target)
    (hhold : ∀ s, s ≠ t → ∀ o, after.hold o s = state.hold o s)
    (hoperands : ∀ s, s ≠ t → after.operands s = state.operands s)
    (hdata : ∀ s, s ≠ t → ∀ o, state.hold o s ≠ .free → after.data o = state.data o)
    (hself : ∀ method stage, target = some (method, stage) → stage ≠ .locks → stage ≠ .body →
      ∀ o, after.hold o t ≠ .free →
        after.data o = method.left mean (after.operands t) stage o) :
    Undisturbed mean after := by
  intro s method stage hs hlocks hbody o ho
  rw [hpoint] at hs
  by_cases heq : s = t
  · subst heq
    rw [Function.update_self] at hs
    exact hself method stage hs hlocks hbody o ho
  · rw [Function.update_of_ne heq] at hs
    rw [hhold s heq] at ho
    rw [hoperands s heq, hdata s heq o ho]
    exact h s method stage hs hlocks hbody o ho

/-- A thread moves, or holds a mutex in another mode, and writes nothing. -/
theorem keeps (h : Undisturbed mean state) {target : Option (Method O × Stage)}
    (hpoint : after.point = Function.update state.point t target)
    (hhold : ∀ s, s ≠ t → ∀ o, after.hold o s = state.hold o s)
    (hoperands : after.operands = state.operands) (hdata : after.data = state.data)
    (hself : ∀ method stage, target = some (method, stage) → stage ≠ .locks → stage ≠ .body →
      ∀ o, after.hold o t ≠ .free → ∃ before,
        state.point t = some (method, before) ∧ before ≠ .locks ∧ before ≠ .body ∧
          state.hold o t ≠ .free ∧
          method.left mean (state.operands t) stage o =
            method.left mean (state.operands t) before o) :
    Undisturbed mean after := by
  refine h.moves hpoint hhold (fun s _ => congrFun hoperands s) (fun s _ o _ => congrFun hdata o)
    fun method stage htarget hlocks hbody o ho => ?_
  obtain ⟨before, hbefore, hlocks, hbody, ho, hleft⟩ :=
    hself method stage htarget hlocks hbody o ho
  rw [hdata, hoperands, hleft]
  exact h t method before hbefore hlocks hbody o ho

theorem setMode_of_ne (state : Objects O T D) (o : O) (mode : Mode) {s : T} (hs : s ≠ t)
    (o' : O) : (state.setMode t o mode).hold o' s = state.hold o' s :=
  congrFun (holds_setMode_of_ne state hs o mode) o'

/-- A lock is given back where the method does not go on. -/
theorem gives (h : Undisturbed mean state) (o : O) :
    Undisturbed mean (state.setMode t o .free) := by
  refine h.keeps (t := t) (Function.update_eq_self t state.point).symm
    (fun s hs => setMode_of_ne state o .free hs) rfl rfl
    fun method stage hpoint hlocks hbody o' ho' => ⟨stage, hpoint, hlocks, hbody, ?_, rfl⟩
  have hhold : (state.setMode t o .free).hold o' t =
      Function.update (state.holds t) o .free o' := congrFun (holds_setMode state t o .free) o'
  rw [hhold] at ho'
  by_cases heq : o' = o
  · subst heq
    exact absurd (Function.update_self o' .free (state.holds t)) ho'
  · rwa [Function.update_of_ne heq] at ho'

/-- A lock that a thread holds becomes another one, and the method goes on. -/
theorem changes (h : Undisturbed mean state) {method : Method O} {before : Stage} {o : O}
    (stage : Stage) (hpoint : state.point t = some (method, before)) (hlocks : before ≠ .locks)
    (hbody : before ≠ .body) (ho : state.hold o t ≠ .free)
    (hleft : ∀ operands : O → D,
      method.left mean operands stage = method.left mean operands before) (mode : Mode) :
    Undisturbed mean ((state.moveTo t (some (method, stage))).setMode t o mode) := by
  refine h.keeps rfl (fun s hs => setMode_of_ne _ o mode hs) rfl rfl
    fun _ stage htarget _ _ o' ho' => ?_
  cases htarget
  refine ⟨before, hpoint, hlocks, hbody, fun hfree => ?_, congrFun (hleft _) o'⟩
  by_cases heq : o' = o
  · exact ho (heq ▸ hfree)
  · refine ho' ((congrFun (holds_setMode _ t o mode) o').trans ?_)
    rw [Function.update_of_ne heq]
    exact hfree

theorem step (h : Undisturbed mean state) (hheld : Held state) (hstep : Steps mean state move after) :
    Undisturbed mean after := by
  cases hstep with
  | calls t method hpoint =>
      -- the thread holds nothing yet
      exact h.keeps rfl (fun _ _ _ => rfl) rfl rfl fun _ _ _ _ _ o ho =>
        absurd (hheld.fits_of_point hpoint o) ho
  | asserts t this a hpoint hne =>
      refine h.keeps rfl (fun _ _ _ => rfl) rfl rfl fun _ stage htarget hlocks => ?_
      cases htarget
      exact absurd rfl hlocks
  | takes t o method hpoint hgrants =>
      refine h.keeps (t := t) (Function.update_eq_self t state.point).symm
        (fun s hs => setMode_of_ne state o _ hs) rfl rfl fun _ stage htarget hlocks => ?_
      cases hpoint.symm.trans htarget
      exact absurd rfl hlocks
  | givesBack t o method stage hpoint hstage => exact h.gives o
  | begins t method hpoint hdistinct hall =>
      refine h.keeps rfl (fun _ _ _ => rfl) rfl rfl fun _ stage htarget _ hbody => ?_
      cases htarget
      exact absurd rfl hbody
  | acts t method hpoint =>
      refine h.moves rfl (fun _ _ _ => rfl) (fun s hs => Function.update_of_ne hs _ _)
        (fun s hs o ho => ?_) fun _ stage htarget _ _ o _ => ?_
      · exact Method.act_of_not_written (fun hwritten => ho (hheld.alone hpoint hwritten hs)) _
      · cases htarget
        change method.act mean state.data o = _
        rw [Method.left_behind]
        exact congrFun (congrArg (method.act mean)
          (Function.update_self t state.data state.operands).symm) o
  | shares t this a hpoint =>
      refine h.changes .upgrades hpoint (by decide) (by decide) ?_ (fun _ => rfl) .shared
      rw [hheld.hold_eq hpoint (by decide) (by decide)]
      simp [Method.mode, Method.locks, Method.lockMode]
  | upgrades t this a hpoint hgrants =>
      refine h.changes .writes hpoint (by decide) (by decide) ?_ (fun _ => rfl) .exclusive
      rw [hheld.hold_eq hpoint (by decide) (by decide)]
      by_cases heq : a = this <;> simp [Method.mode, Method.locks, Method.lockMode, heq]
  | writes t this a hpoint =>
      have hthis := h t _ _ hpoint (by decide) (by decide) this
        (hheld.holds_read hpoint (by decide) (by simp [Method.read]))
      refine h.moves rfl (fun _ _ _ => rfl) (fun _ _ => rfl) (fun s hs o ho => ?_)
        fun _ stage htarget _ _ o ho => ?_
      · refine Function.update_of_ne (fun heq => ho ?_) _ _
        exact heq ▸ hheld.alone hpoint (by simp [Method.written]) hs
      · cases htarget
        by_cases heq : o = a
        · subst heq
          simpa [Method.left, Method.act, moveTo] using hthis
        · have ho := h t _ _ hpoint (by decide) (by decide) o ho
          simpa [Method.left, moveTo, heq] using ho
  | ends t method hpoint hfree =>
      exact h.keeps rfl (fun _ _ _ => rfl) rfl rfl fun _ _ htarget => by cases htarget

end Undisturbed

/-! ## Every run -/

variable [DecidableEq T] [Fintype T] {data : O → D}
  {guard : Objects O T D → Move O T → Prop}

theorem held_of_reaches (hrun : Reaches (step mean) guard (initial T data) state) : Held state :=
  hrun.invariant (held_initial data) fun _ _ _ h _ hstep => h.step (step_cases hstep)

/-- Nobody writes an object while another thread writes it, or reads it but for the assertions
of `average`, which come before its locks. Whoever holds an object behind the body of its method
finds it as the method left it: between its body and the end of its locks no other method takes
effect on its operands. -/
theorem operands_undisturbed (hrun : Reaches (step mean) guard (initial T data) state) :
    (∀ t method stage o, state.point t = some (method, stage) → o ∈ method.written stage →
      ∀ other method' stage', other ≠ t → state.point other = some (method', stage') →
        o ∉ method'.written stage' ∧ (stage' ≠ .asserts → o ∉ method'.read stage')) ∧
      Undisturbed mean state := by
  have hheld := held_of_reaches hrun
  refine ⟨fun t method stage o hpoint ho other method' stage' hother hpoint' => ?_, ?_⟩
  · have hfree := hheld.alone hpoint ho hother
    refine ⟨fun hwritten => ?_, fun hasserts hread =>
      hheld.holds_read hpoint' hasserts hread hfree⟩
    cases hfree.symm.trans (hheld.holds_written hpoint' hwritten)
  · exact hrun.invariant_of Held (fun _ => held_of_reaches) nofun
      fun _ _ _ hheld h _ hstep => h.step hheld (step_cases hstep)

/-- `average` writes its second operand while another thread copies the first one; a third
thread is about to read the size of the operand that is written. -/
theorem operands_undisturbed_shared : ∃ state : Objects (Fin 2) (Fin 3) ℕ,
    (state.point 0 = some (.average 0 1, .writes) ∧ state.point 1 = some (.copy 0, .body) ∧
      state.point 2 = some (.average 1 0, .asserts)) ∧
    (1 ∈ (Method.average 1 0 : Method (Fin 2)).read .asserts ∧
      1 ∉ (Method.copy 0 : Method (Fin 2)).read .body) ∧
    Undisturbed (fun x y => (x + y) / 2) state := by
  obtain ⟨state, hrun, hobserved⟩ : ∃ state : Objects (Fin 2) (Fin 3) ℕ,
      Reaches (step fun x y => (x + y) / 2) (fun _ _ => True) (initial (Fin 3) ![2, 6]) state ∧
        (state.point 0, state.point 1, state.point 2) =
          (some (.average 0 1, .writes), some (.copy 0, .body), some (.average 1 0, .asserts)) :=
    Reaches.of_observed (fun _ _ => true)
      [.call 0 (.average 0 1), .go 0, .take 0 0, .take 0 1, .go 0, .go 0, .go 0, .go 0,
        .call 1 (.copy 0), .take 1 0, .go 1, .call 2 (.average 1 0)]
      (fun _ _ _ => trivial) (by decide +kernel)
  obtain ⟨hfirst, hobserved⟩ := Prod.mk.inj hobserved
  obtain ⟨hsecond, hthird⟩ := Prod.mk.inj hobserved
  obtain ⟨hdisturbs, hundisturbed⟩ := operands_undisturbed hrun
  have hread := (hdisturbs 0 _ _ 1 hfirst (by decide) 1 _ _ (by decide) hsecond).2 (by decide)
  exact ⟨state, ⟨hfirst, hsecond, hthird⟩, ⟨by decide, hread⟩, hundisturbed⟩

end Objects

end ThreadPools.SharedMutex
