/-
# What `status` says about a Boost thread

A thread that has been created and not joined is the latest one, `tid` is its handle, and
`status` is not `IDLE` once the owner has written it: so the destructor joins it. The
status `FINISHED` stands for an ended thread and for a failed `pthread_create`, and the
owner may write `RUNNING` after the new thread has written `FINISHED`.
-/

import ThreadPools.Concurrency.Runs
import ThreadPools.Boost.Thread

namespace ThreadPools.Boost.Thread

open ThreadPools.Concurrency
open ThreadPools.Boost.Pool (ThreadStatus)

namespace State

/-- Every thread the object has created is joined before the object is destroyed. -/
def DestroyedJoined (state : State) : Prop :=
  state.owner = .destroyed → ∀ thread ∈ state.threads, thread.joined = true

/-- `pthread_join` or `tid.join()` is called for a thread that has been created and not
joined. -/
def JoinsCreated (state : State) : Prop :=
  ∀ destroying, state.owner = .join destroying → ∃ n thread, state.tid = some n ∧
    state.threads[n]? = some thread ∧ thread.joined = false

/-- The thread is not alive once the `thread_starter` of the latest start has ended. -/
def EndedNotAlive (state : State) : Prop :=
  ∀ thread, state.threads.getLast? = some thread → thread.point = .ended →
    state.isAlive = false

end State

/-- `pthread_create` does not fail. -/
def CreatesThread (posix : Bool) (state : State) (action : Action) : Prop :=
  match action with
  | .owner false _ => posix = true → state.owner ≠ .create
  | _ => True

/-- `thread_starter` does not write `FINISHED` before `start()` has written `RUNNING`. -/
def NotesStartFirst (state : State) (action : Action) : Prop :=
  match action with
  | .starter n =>
      state.threads[n]?.map Created.point = some .finish → state.owner ≠ .created
  | _ => True

/-- The owner has a thread that has not been joined. -/
def State.hasThread (state : State) : Bool :=
  match state.owner with
  | .created => true
  | .ready | .test _ | .join _ => state.status ≠ .idle
  | _ => false

/-- What holds in every run. -/
structure Accounted (state : State) : Prop where
  create : state.owner = .create → state.status = .idle
  join : ∀ destroying, state.owner = .join destroying → state.status ≠ .idle
  /-- only threads that have ended have been joined -/
  ended : ∀ (n : Nat) (thread : Created), state.threads[n]? = some thread →
    thread.joined = true → thread.point = .ended
  /-- a thread that has not been joined is the latest one, and known to the owner -/
  unjoined : ∀ (n : Nat) (thread : Created), state.threads[n]? = some thread →
    thread.joined = false →
    n + 1 = state.threads.length ∧ state.tid = some n ∧ state.hasThread = true

/-- What holds as long as no `pthread_create` fails. -/
def Known (state : State) : Prop :=
  state.owner ≠ .failed ∧ (state.hasThread = true →
    ∃ (n : Nat) (thread : Created), state.tid = some n ∧ state.threads[n]? = some thread ∧
      thread.joined = false)

/-- What holds as long as the writes of `status` are in order. -/
def Noted (state : State) : Prop :=
  ∀ thread, state.threads.getLast? = some thread →
    thread.point = .unlockAgain ∨ thread.point = .ended →
    state.owner ≠ .created ∧ state.status ≠ .running

variable {posix : Bool} {state after : State} {action : Action}

theorem accounted_initial : Accounted initial := ⟨nofun, nofun, nofun, nofun⟩

/-- The threads behind a change of one of them. -/
theorem mem_set {threads : List Created} {n m : Nat} {next other : Created}
    (h : (threads.set n next)[m]? = some other) :
    m = n ∧ other = next ∨ m ≠ n ∧ threads[m]? = some other := by
  rw [List.getElem?_set] at h
  split at h
  · next heq =>
      split at h
      · exact .inl ⟨heq.symm, (Option.some.inj h).symm⟩
      · cases h
  · next hne => exact .inr ⟨fun heq => hne heq.symm, h⟩

theorem mem_append {threads : List Created} {m : Nat} {new other : Created}
    (h : (threads ++ [new])[m]? = some other) :
    threads[m]? = some other ∨ m = threads.length ∧ other = new := by
  rcases Nat.lt_trichotomy m threads.length with hlt | rfl | hgt
  · rw [List.getElem?_append_left hlt] at h
    exact .inl h
  · rw [List.getElem?_concat_length] at h
    exact .inr ⟨rfl, (Option.some.inj h).symm⟩
  · rw [List.getElem?_eq_none (by simp; omega)] at h
    cases h

namespace Accounted

variable {status : ThreadStatus} {tid : Option Nat} {monitor : Option Party} {owner : OwnerPoint}
  {n : Nat} {thread : Created} {point : StarterPoint}

/-- A thread that has not ended has not been joined. -/
theorem not_joined (h : Accounted state) (hthread : state.threads[n]? = some thread)
    (hrunning : thread.point ≠ .ended) : thread.joined = false :=
  Bool.eq_false_iff.mpr fun hjoined => hrunning (h.ended n thread hthread hjoined)

/-- While the owner has no thread, all threads have been joined. -/
theorem all_joined (h : Accounted state) (hnone : state.hasThread = false) :
    ∀ thread ∈ state.threads, thread.joined = true := by
  intro thread hmem
  obtain ⟨n, hthread⟩ := List.mem_iff_getElem?.mp hmem
  by_contra hjoined
  have hhas := (h.unjoined n thread hthread (Bool.eq_false_iff.mpr hjoined)).2.2
  cases hnone.symm.trans hhas

/-- The steps that leave the threads alone. -/
theorem keep (h : Accounted state) (hcreate : owner = .create → status = .idle)
    (hjoin : ∀ destroying, owner = .join destroying → status ≠ .idle)
    (hkeeps : state.hasThread = true → tid = state.tid ∧ State.hasThread
      { state with status := status, tid := tid, monitor := monitor, owner := owner } = true) :
    Accounted
      { state with status := status, tid := tid, monitor := monitor, owner := owner } := by
  refine ⟨hcreate, hjoin, h.ended, fun n thread hthread hjoined => ?_⟩
  obtain ⟨hlast, htid, hhas⟩ := h.unjoined n thread hthread hjoined
  obtain ⟨hsame, hhas⟩ := hkeeps hhas
  exact ⟨hlast, hsame.trans htid, hhas⟩

/-- A step of a thread that has not ended. -/
theorem setThread (h : Accounted state) (hthread : state.threads[n]? = some thread)
    (hrunning : thread.point ≠ .ended)
    (hstatus : status = state.status ∨ status = .finished) :
    Accounted { state.setThread n { thread with point := point } with
      status := status, monitor := monitor } := by
  have hjoined := h.not_joined hthread hrunning
  obtain ⟨hlast, htid, hhas⟩ := h.unjoined n thread hthread hjoined
  refine ⟨fun hcreate => ?_, fun destroying hjoin => ?_, fun m other hother hended => ?_,
    fun m other hother hunjoined => ?_⟩
  · change state.owner = .create at hcreate
    simp [State.hasThread, hcreate] at hhas
  · change status ≠ .idle
    rcases hstatus with rfl | rfl
    · exact h.join destroying hjoin
    · nofun
  · rcases mem_set hother with ⟨rfl, rfl⟩ | ⟨-, hother⟩
    · cases hjoined.symm.trans hended
    · exact h.ended m other hother hended
  · have hlength : (state.threads.set n { thread with point := point }).length =
        state.threads.length := List.length_set
    have hkeeps : State.hasThread { state with status := status } = true := by
      rcases hstatus with rfl | rfl
      · exact hhas
      · revert hhas
        simp only [State.hasThread]
        split <;> simp
    rcases mem_set hother with ⟨rfl, rfl⟩ | ⟨-, hother⟩
    · exact ⟨hlast.trans hlength.symm, htid, hkeeps⟩
    · obtain ⟨hlast', htid', -⟩ := h.unjoined m other hother hunjoined
      exact ⟨hlast'.trans hlength.symm, htid', hkeeps⟩

/-- A new thread is created when all others have been joined. -/
theorem created (h : Accounted state) (hcreate : state.owner = .create) :
    Accounted { state with
      tid := some state.threads.length
      threads := state.threads ++ [⟨.lock, false⟩]
      owner := .created } := by
  have hidle := h.create hcreate
  have hall := h.all_joined (by simp [State.hasThread, hcreate])
  refine ⟨nofun, nofun, fun m other hother hended => ?_, fun m other hother hunjoined => ?_⟩
  · rcases mem_append hother with hother | ⟨-, rfl⟩
    · exact h.ended m other hother hended
    · cases hended
  · rcases mem_append hother with hother | ⟨rfl, rfl⟩
    · cases (hall other (List.mem_of_getElem? hother)).symm.trans hunjoined
    · exact ⟨by simp, rfl, rfl⟩

/-- The thread that has not been joined is joined. -/
theorem joined (h : Accounted state) {destroying : Bool} (htid : state.tid = some n) :
    Accounted { state.setThread n ⟨.ended, true⟩ with owner := .joined destroying } := by
  refine ⟨nofun, nofun, fun m other hother hended => ?_, fun m other hother hunjoined => ?_⟩
  · rcases mem_set hother with ⟨rfl, rfl⟩ | ⟨-, hother⟩
    · rfl
    · exact h.ended m other hother hended
  · rcases mem_set hother with ⟨rfl, rfl⟩ | ⟨hne, hother⟩
    · cases hunjoined
    · obtain ⟨-, htid', -⟩ := h.unjoined m other hother hunjoined
      exact absurd (Option.some.inj (htid'.symm.trans htid)) hne

theorem step (h : Accounted state) (hmoves : Moves posix state action after) :
    Accounted after := by
  cases hmoves with
  | monitor action monitor => exact h.keep h.create h.join fun hhas => ⟨rfl, hhas⟩
  | start hready hidle =>
      refine h.keep (fun _ => hidle) nofun fun hhas => ?_
      simp [State.hasThread, hready, hidle] at hhas
  | test destroying method hready =>
      refine h.keep nofun nofun fun hhas => ⟨rfl, ?_⟩
      simpa [State.hasThread, hready] using hhas
  | skip action destroying hidle howner =>
      have hnone : state.hasThread = false := by
        rcases howner with howner | howner <;> simp [State.hasThread, howner, hidle]
      refine h.keep ?_ ?_ fun hhas => absurd (hnone.symm.trans hhas) nofun
      · cases destroying <;> nofun
      · cases destroying <;> nofun
  | create garbage hcreate => exact h.created hcreate
  | fail garbage hcreate hposix =>
      refine h.keep nofun nofun fun hhas => ?_
      simp [State.hasThread, hcreate] at hhas
  | throws garbage hcreate hposix =>
      refine h.keep nofun nofun fun hhas => ?_
      simp [State.hasThread, hcreate] at hhas
  | running action hcreated => exact h.keep nofun nofun fun _ => ⟨rfl, rfl⟩
  | failed action hfailed => exact h.keep nofun nofun fun _ => ⟨rfl, rfl⟩
  | enterJoin action destroying htest hstatus =>
      refine h.keep nofun (fun _ _ => hstatus) fun _ => ⟨rfl, ?_⟩
      simpa [State.hasThread] using hstatus
  | join action destroying n hjoin htid hthread => exact h.joined htid
  | noJoin action destroying hjoin hnone =>
      refine ⟨nofun, nofun, h.ended, fun n thread hthread hunjoined => ?_⟩
      obtain ⟨-, htid, -⟩ := h.unjoined n thread hthread hunjoined
      cases (hnone n thread htid hthread).symm.trans hunjoined
  | idle action destroying hjoined =>
      refine h.keep ?_ ?_ fun hhas => ?_
      · cases destroying <;> nofun
      · cases destroying <;> nofun
      · simp [State.hasThread, hjoined] at hhas
  | starter n thread point monitor hthread hrunning hfinish hpoint =>
      exact h.setThread hthread hrunning (.inl rfl)
  | finish n thread hthread hfinish =>
      exact h.setThread hthread (by rw [hfinish]; nofun) (.inr rfl)

end Accounted

/-! ## The two conditions -/

/-- The steps that leave the threads alone. -/
theorem Known.keep (h : Known state) {status : ThreadStatus} {monitor : Option Party}
    {owner : OwnerPoint} (hfailed : owner ≠ .failed)
    (hkeeps : State.hasThread { state with status := status, monitor := monitor, owner := owner } =
      true → state.hasThread = true) :
    Known { state with status := status, monitor := monitor, owner := owner } :=
  ⟨hfailed, fun hhas => h.2 (hkeeps hhas)⟩

theorem Known.setThread (h : Known state) (haccounted : Accounted state) {n : Nat}
    {thread : Created} {point : StarterPoint} {status : ThreadStatus} {monitor : Option Party}
    (hthread : state.threads[n]? = some thread) (hrunning : thread.point ≠ .ended) :
    Known { state.setThread n { thread with point := point } with
      status := status, monitor := monitor } := by
  refine ⟨h.1, fun _ => ?_⟩
  have hjoined := haccounted.not_joined hthread hrunning
  obtain ⟨-, htid, -⟩ := haccounted.unjoined n thread hthread hjoined
  have hlt : n < state.threads.length := (List.getElem?_eq_some_iff.mp hthread).1
  exact ⟨n, _, htid, List.getElem?_set_self hlt, hjoined⟩

theorem Known.step (h : Known state) (haccounted : Accounted state)
    (hguard : CreatesThread posix state action) (hmoves : Moves posix state action after) :
    Known after := by
  cases hmoves with
  | monitor action monitor => exact h.keep h.1 id
  | start hready hidle => exact h.keep nofun nofun
  | test destroying method hready =>
      exact h.keep nofun fun hhas => by simpa [State.hasThread, hready] using hhas
  | skip action destroying hidle howner =>
      refine h.keep ?_ fun hhas => ?_
      · cases destroying <;> nofun
      · cases destroying <;> simp [State.hasThread, OwnerPoint.behind, hidle] at hhas
  | create garbage hcreate =>
      exact ⟨nofun, fun _ => ⟨_, _, rfl, List.getElem?_concat_length, rfl⟩⟩
  | fail garbage hcreate hposix => exact absurd hcreate (hguard hposix)
  | throws garbage hcreate hposix =>
      refine h.keep nofun fun hhas => ?_
      simp [State.hasThread, haccounted.create hcreate] at hhas
  | running action hcreated => exact h.keep nofun fun _ => by simp [State.hasThread, hcreated]
  | failed action hfailed => exact absurd hfailed h.1
  | enterJoin action destroying htest hstatus =>
      exact h.keep nofun fun _ => by simpa [State.hasThread, htest] using hstatus
  | join action destroying n hjoin htid hthread => exact ⟨nofun, nofun⟩
  | noJoin action destroying hjoin hnone => exact ⟨nofun, nofun⟩
  | idle action destroying hjoined =>
      refine h.keep ?_ fun hhas => ?_
      · cases destroying <;> nofun
      · cases destroying <;> simp [State.hasThread, OwnerPoint.behind] at hhas
  | starter n thread point monitor hthread hrunning hfinish hpoint =>
      exact h.setThread haccounted hthread hrunning
  | finish n thread hthread hfinish =>
      exact h.setThread haccounted hthread (by rw [hfinish]; nofun)

/-- The steps that leave the threads alone and do not write `RUNNING`. -/
theorem Noted.keep (h : Noted state) {status : ThreadStatus} {tid : Option Nat}
    {monitor : Option Party} {owner : OwnerPoint}
    (hcreated : owner ≠ .created ∨ owner = state.owner)
    (hstatus : status ≠ .running ∨ status = state.status) :
    Noted { state with status := status, tid := tid, monitor := monitor, owner := owner } := by
  intro thread hlast hpoint
  obtain ⟨hnot, hrunning⟩ := h thread hlast hpoint
  refine ⟨hcreated.elim id fun heq => ?_, hstatus.elim id fun heq => ?_⟩
  · exact heq ▸ hnot
  · exact heq ▸ hrunning

/-- A change of one thread that is the latest one. -/
theorem getLast_set {threads : List Created} {n : Nat} {next thread : Created}
    (hlast : n + 1 = threads.length) (h : (threads.set n next).getLast? = some thread) :
    thread = next := by
  rw [List.getLast?_eq_getElem?, List.length_set, ← hlast, Nat.add_sub_cancel,
    List.getElem?_set_self (by omega)] at h
  exact (Option.some.inj h).symm

theorem Noted.step (h : Noted state) (haccounted : Accounted state)
    (hguard : NotesStartFirst state action) (hmoves : Moves posix state action after) :
    Noted after := by
  cases hmoves with
  | monitor action monitor => exact h.keep (.inr rfl) (.inr rfl)
  | create garbage hcreate =>
      intro thread hlast hpoint
      rw [List.getLast?_concat] at hlast
      cases hlast
      rcases hpoint with hpoint | hpoint <;> cases hpoint
  | running action hcreated =>
      intro thread hlast hpoint
      exact absurd hcreated (h thread hlast hpoint).1
  | join action destroying n hjoin htid hthread =>
      obtain ⟨hlast, -, -⟩ := haccounted.unjoined n _ hthread rfl
      intro thread hmem _
      refine ⟨nofun, ?_⟩
      have hlatest : state.threads.getLast? = some ⟨.ended, false⟩ := by
        rw [List.getLast?_eq_getElem?, ← hlast, Nat.add_sub_cancel]
        exact hthread
      exact (h _ hlatest (.inr rfl)).2
  | starter n thread point monitor hthread hrunning hfinish hpoint =>
      have hjoined := haccounted.not_joined hthread hrunning
      obtain ⟨hlast, -, -⟩ := haccounted.unjoined n _ hthread hjoined
      intro other hmem hended
      obtain rfl := getLast_set hlast hmem
      have hlatest : state.threads.getLast? = some thread := by
        rw [List.getLast?_eq_getElem?, ← hlast, Nat.add_sub_cancel]
        exact hthread
      exact h thread hlatest (.inl (hpoint hended))
  | finish n thread hthread hfinish =>
      intro other _ _
      exact ⟨hguard (by rw [hthread, Option.map_some, hfinish]), nofun⟩
  | start | test | fail | throws | enterJoin | noJoin => exact h.keep (.inl nofun) (.inr rfl)
  | failed => exact h.keep (.inl nofun) (.inl nofun)
  | skip action destroying hidle howner =>
      exact h.keep (.inl (by cases destroying <;> nofun)) (.inr rfl)
  | idle action destroying hjoined =>
      exact h.keep (.inl (by cases destroying <;> nofun)) (.inl nofun)

variable {guard : State → Action → Prop}

theorem accounted_of_reaches (hrun : Reaches (step posix) guard initial state) :
    Accounted state :=
  hrun.invariant accounted_initial fun _ _ _ h _ hstep => h.step (step_moves hstep)

theorem known_of_reaches
    (hguard : ∀ state action, guard state action → CreatesThread posix state action)
    (hrun : Reaches (step posix) guard initial state) : Known state :=
  hrun.invariant_of Accounted (fun _ => accounted_of_reaches) ⟨nofun, nofun⟩
    fun _ _ _ haccounted h hallowed hstep =>
      h.step haccounted (hguard _ _ hallowed) (step_moves hstep)

theorem noted_of_reaches
    (hguard : ∀ state action, guard state action → NotesStartFirst state action)
    (hrun : Reaches (step posix) guard initial state) : Noted state :=
  hrun.invariant_of Accounted (fun _ => accounted_of_reaches) nofun
    fun _ _ _ haccounted h hallowed hstep =>
      h.step haccounted (hguard _ _ hallowed) (step_moves hstep)

/-- The life cycle of a thread: the object never dies before its threads; only threads that
exist are joined, provided that `pthread_create` does not fail; and `is_alive()` ends with
the thread, provided that it does not end before `start()` has written `RUNNING`. -/
theorem life_cycle (hrun : Reaches (step posix) guard initial state) :
    state.DestroyedJoined ∧
      ((∀ state action, guard state action → CreatesThread posix state action) →
        state.JoinsCreated) ∧
      ((∀ state action, guard state action → NotesStartFirst state action) →
        state.EndedNotAlive) := by
  have haccounted := accounted_of_reaches hrun
  refine ⟨fun hdestroyed => haccounted.all_joined ?_, fun hguard destroying hjoin => ?_,
    fun hguard thread hlast hended => ?_⟩
  · simp [State.hasThread, hdestroyed]
  · refine (known_of_reaches hguard hrun).2 ?_
    simpa [State.hasThread, hjoin] using haccounted.join destroying hjoin
  · have hrunning := (noted_of_reaches hguard hrun thread hlast (.inr hended)).2
    exact decide_eq_false hrunning

instance (state : State) (action : Action) : Decidable (CreatesThread posix state action) := by
  unfold CreatesThread
  split <;> infer_instance

instance (state : State) (action : Action) : Decidable (NotesStartFirst state action) := by
  unfold NotesStartFirst
  split <;> infer_instance

/-- The owner joins a thread that has ended, and destroys the object. -/
theorem life_cycle_ended : ∃ state : State, state.owner = .join true ∧
    state.threads = [⟨.ended, false⟩] ∧ state.JoinsCreated ∧ state.EndedNotAlive := by
  obtain ⟨state, hrun, hobserved⟩ : ∃ state : State,
      Reaches (step true) (fun state action =>
          CreatesThread true state action ∧ NotesStartFirst state action) initial state ∧
        (state.owner, state.threads) = (.join true, [⟨.ended, false⟩]) :=
    Reaches.of_observed
      (fun state action =>
        decide (CreatesThread true state action ∧ NotesStartFirst state action))
      ([.call .start, .owner true none, .owner true none] ++
        List.replicate 6 (.starter 0) ++ [.call .destroy, .owner true none])
      (fun _ _ => of_decide_eq_true) (by decide +kernel)
  obtain ⟨howner, hthreads⟩ := Prod.mk.inj hobserved
  obtain ⟨-, hjoins, hended⟩ := life_cycle hrun
  exact ⟨state, howner, hthreads, hjoins fun _ _ h => h.1, hended fun _ _ h => h.2⟩

/-- A failed `pthread_create` leaves the status `FINISHED`, and the destructor calls
`pthread_join` with a handle of no thread; a thread that ends before `start()` goes on is
alive forever. -/
theorem life_cycle_fails :
    (∃ state : State, Reaches (step true) (fun _ _ => True) initial state ∧
      ¬ state.JoinsCreated) ∧
    ∀ posix, ∃ state : State, Reaches (step posix) (fun _ _ => True) initial state ∧
      ¬ state.EndedNotAlive := by
  refine ⟨?_, fun posix => ?_⟩
  · obtain ⟨state, hrun, hobserved⟩ : ∃ state : State,
        Reaches (step true) (fun _ _ => True) initial state ∧
          (state.owner, state.threads) = (.join true, []) :=
      Reaches.of_observed (fun _ _ => true)
        [.call .start, .owner false none, .owner false none, .call .destroy, .owner false none]
        (fun _ _ _ => trivial) (by decide +kernel)
    obtain ⟨howner, hthreads⟩ := Prod.mk.inj hobserved
    refine ⟨state, hrun, fun h => ?_⟩
    obtain ⟨n, thread, -, hthread, -⟩ := h true howner
    rw [hthreads] at hthread
    cases hthread
  · obtain ⟨state, hrun, hobserved⟩ : ∃ state : State,
        Reaches (step posix) (fun _ _ => True) initial state ∧
          (state.status, state.owner, state.threads) = (.running, .ready, [⟨.ended, false⟩]) :=
      Reaches.of_observed (fun _ _ => true)
        ([.call .start, .owner true none] ++ List.replicate 6 (.starter 0) ++
          [.owner true none])
        (fun _ _ _ => trivial) (by cases posix <;> decide +kernel)
    simp only [Prod.mk.injEq] at hobserved
    obtain ⟨hstatus, -, hthreads⟩ := hobserved
    refine ⟨state, hrun, fun h => ?_⟩
    have halive := h ⟨.ended, false⟩ (by rw [hthreads]; rfl) rfl
    rw [State.isAlive, hstatus] at halive
    cases halive

end ThreadPools.Boost.Thread
