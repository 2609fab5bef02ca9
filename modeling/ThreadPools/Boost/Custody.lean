/-
# The custody of tasks in a Boost pool

A task is carried by its caller, then in one slot, and then deleted. A worker looks into
its slot once more when it has left its loop. What it knows about the slot is true, as long
as no task is stored in the slot of a worker that has already left.
-/

import Mathlib.Data.List.Nodup
import ThreadPools.Boost.Guarded

namespace ThreadPools.Boost.Pool

open ThreadPools.Concurrency

/-! ## The books -/

/-- The slots of a memory. -/
def Memory.slot (memory : Memory) (m : ManagerId) : Option Runnable := (memory.managers m).task

/-- Every accepted task is in one slot or has been deleted, and nothing happens to a task
twice. -/
structure Books (log : Log) (slot : ManagerId → Option Runnable) : Prop where
  accepted : log.accepted.Nodup
  place : ∀ x, x ∈ log.accepted ↔ x ∈ log.deleted ∨ ∃ m, slot m = some x
  unique : ∀ m n x, slot m = some x → slot n = some x → m = n
  started : log.started.Nodup
  accepted_of_started : ∀ x ∈ log.started, x ∈ log.accepted
  deleted : log.deleted.Nodup

/-- What a worker knows is true. -/
def SlotStatus.Holds (slot : Option Runnable) (log : Log) : SlotStatus → Prop
  | .unknown => ∀ x, slot = some x → x ∉ log.started ∧ x ∉ log.deleted
  | .empty => slot = none
  | .waiting => ∃ x, slot = some x ∧ x ∉ log.started ∧ x ∉ log.deleted
  | .started => ∃ x, slot = some x ∧ x ∈ log.started ∧ x ∉ log.deleted
  | .deleted => ∃ x, slot = some x ∧ x ∈ log.deleted

/-- Nothing has happened to the task in the slot. -/
theorem SlotStatus.Holds.congr {slot : Option Runnable} {log log' : Log} {status : SlotStatus}
    (h : status.Holds slot log)
    (hstarted : ∀ x, slot = some x → (x ∈ log'.started ↔ x ∈ log.started))
    (hdeleted : ∀ x, slot = some x → (x ∈ log'.deleted ↔ x ∈ log.deleted)) :
    status.Holds slot log' := by
  cases status with
  | unknown =>
      intro x hx
      rw [hstarted x hx, hdeleted x hx]
      exact h x hx
  | empty => exact h
  | waiting | started =>
      obtain ⟨x, hx, hrest⟩ := h
      refine ⟨x, hx, ?_⟩
      rw [hstarted x hx, hdeleted x hx]
      exact hrest
  | deleted =>
      obtain ⟨x, hx, hrest⟩ := h
      exact ⟨x, hx, (hdeleted x hx).mpr hrest⟩

namespace Books

variable {log : Log} {slot : ManagerId → Option Runnable} {m : ManagerId} {x : Runnable}

theorem not_started (h : Books log slot) (hx : x ∉ log.accepted) : x ∉ log.started :=
  fun hstarted => hx (h.accepted_of_started x hstarted)

theorem not_deleted (h : Books log slot) (hx : x ∉ log.accepted) : x ∉ log.deleted :=
  fun hdeleted => hx ((h.place x).mpr (.inl hdeleted))

theorem congr {log' : Log} (h : Books log slot) (haccepted : log'.accepted = log.accepted)
    (hstarted : log'.started = log.started) (hdeleted : log'.deleted = log.deleted) :
    Books log' slot where
  accepted := haccepted ▸ h.accepted
  place x := by rw [haccepted, hdeleted]; exact h.place x
  unique := h.unique
  started := hstarted ▸ h.started
  accepted_of_started x hx := haccepted ▸ h.accepted_of_started x (hstarted ▸ hx)
  deleted := hdeleted ▸ h.deleted

/-- A new task is put into an empty slot. -/
theorem store (h : Books log slot) (hx : x ∉ log.accepted) (hslot : slot m = none) :
    Books { log with accepted := log.accepted ++ [x] } (Function.update slot m (some x)) where
  accepted := List.nodup_append.mpr ⟨h.accepted, List.nodup_singleton x, by
    rintro y hy z hz rfl
    exact hx (List.mem_singleton.mp hz ▸ hy)⟩
  place y := by
    rw [List.mem_append, List.mem_singleton, h.place y]
    constructor
    · rintro ((hdeleted | ⟨n, hn⟩) | rfl)
      · exact .inl hdeleted
      · have hne : n ≠ m := fun heq => by simp [heq, hslot] at hn
        exact .inr ⟨n, by rwa [Function.update_of_ne hne]⟩
      · exact .inr ⟨m, Function.update_self ..⟩
    · rintro (hdeleted | ⟨n, hn⟩)
      · exact .inl (.inl hdeleted)
      · by_cases hnm : n = m
        · subst hnm
          rw [Function.update_self] at hn
          exact .inr (Option.some.inj hn).symm
        · rw [Function.update_of_ne hnm] at hn
          exact .inl (.inr ⟨n, hn⟩)
  unique n k y hn hk := by
    have hother : ∀ i, i ≠ m → slot i ≠ some x := fun i _ hi =>
      hx ((h.place x).mpr (.inr ⟨i, hi⟩))
    by_cases hnm : n = m <;> by_cases hkm : k = m
    · rw [hnm, hkm]
    · rw [hnm, Function.update_self] at hn
      rw [Function.update_of_ne hkm] at hk
      exact absurd (hk.trans hn.symm) (hother k hkm)
    · rw [hkm, Function.update_self] at hk
      rw [Function.update_of_ne hnm] at hn
      exact absurd (hn.trans hk.symm) (hother n hnm)
    · rw [Function.update_of_ne hnm] at hn
      rw [Function.update_of_ne hkm] at hk
      exact h.unique n k y hn hk
  started := h.started
  accepted_of_started y hy := List.mem_append_left _ (h.accepted_of_started y hy)
  deleted := h.deleted

/-- The task of a slot is started for the first time. -/
theorem start (h : Books log slot) (hslot : slot m = some x) (hx : x ∉ log.started) :
    Books { log with started := log.started ++ [x] } slot where
  accepted := h.accepted
  place := h.place
  unique := h.unique
  started := List.nodup_append.mpr ⟨h.started, List.nodup_singleton x, by
    rintro y hy z hz rfl
    exact hx (List.mem_singleton.mp hz ▸ hy)⟩
  accepted_of_started y hy := by
    rcases List.mem_append.mp hy with hy | hy
    · exact h.accepted_of_started y hy
    · rw [List.mem_singleton.mp hy]
      exact (h.place x).mpr (.inr ⟨m, hslot⟩)
  deleted := h.deleted

/-- The task of a slot is deleted for the first time. -/
theorem delete (h : Books log slot) (hslot : slot m = some x) (hx : x ∉ log.deleted) :
    Books { log with deleted := log.deleted ++ [x] } slot where
  accepted := h.accepted
  place y := by
    rw [List.mem_append, List.mem_singleton, h.place y]
    constructor
    · rintro (hdeleted | hn)
      · exact .inl (.inl hdeleted)
      · exact .inr hn
    · rintro ((hdeleted | rfl) | hn)
      · exact .inl hdeleted
      · exact .inr ⟨m, hslot⟩
      · exact .inr hn
  unique := h.unique
  started := h.started
  accepted_of_started := h.accepted_of_started
  deleted := List.nodup_append.mpr ⟨h.deleted, List.nodup_singleton x, by
    rintro y hy z hz rfl
    exact hx (List.mem_singleton.mp hz ▸ hy)⟩

/-- The slot of a deleted task is cleared. -/
theorem clear (h : Books log slot) (hslot : slot m = some x) (hx : x ∈ log.deleted) :
    Books log (Function.update slot m none) where
  accepted := h.accepted
  place y := by
    rw [h.place y]
    constructor
    · rintro (hdeleted | ⟨n, hn⟩)
      · exact .inl hdeleted
      · by_cases hnm : n = m
        · rw [hnm, hslot] at hn
          exact .inl (Option.some.inj hn ▸ hx)
        · exact .inr ⟨n, by rwa [Function.update_of_ne hnm]⟩
    · rintro (hdeleted | ⟨n, hn⟩)
      · exact .inl hdeleted
      · by_cases hnm : n = m
        · rw [hnm, Function.update_self] at hn
          cases hn
        · rw [Function.update_of_ne hnm] at hn
          exact .inr ⟨n, hn⟩
  unique n k y hn hk := by
    by_cases hnm : n = m
    · rw [hnm, Function.update_self] at hn
      cases hn
    · by_cases hkm : k = m
      · rw [hkm, Function.update_self] at hk
        cases hk
      · rw [Function.update_of_ne hnm] at hn
        rw [Function.update_of_ne hkm] at hk
        exact h.unique n k y hn hk
  started := h.started
  accepted_of_started := h.accepted_of_started
  deleted := h.deleted

end Books

/-! ## The custody of tasks -/

/-- A thread carries a new task that nobody else carries, the books balance, and what the
workers know is true. -/
structure Custody (state : State) : Prop where
  books : Books state.memory.log state.memory.slot
  submitted : state.memory.log.submitted.Nodup
  accepted : ∀ x ∈ state.memory.log.accepted, x ∈ state.memory.log.submitted
  carried : ∀ t x, (state.pc t).carried = some x →
    x ∈ state.memory.log.submitted ∧ x ∉ state.memory.log.accepted
  carrier : ∀ t u x, (state.pc t).carried = some x → (state.pc u).carried = some x → t = u
  knows : ∀ m p, state.pc (.worker m) = .worker p →
    p.slot.Holds (state.memory.slot m) state.memory.log

variable {size : Nat} {state next : State} {action : Action} {t u : Tid} {m : ManagerId}
  {effect : Effect} {p q : Point} {x : Runnable}

/-- A step keeps custody if it does so for the moving thread and for the other ones. -/
theorem Custody.advance (h : Custody state)
    (hbooks : Books (state.memory.apply effect).log (state.memory.apply effect).slot)
    (hsubmitted : (state.memory.apply effect).log.submitted.Nodup)
    (haccepted : ∀ x ∈ (state.memory.apply effect).log.accepted,
      x ∈ (state.memory.apply effect).log.submitted)
    (hself : ∀ x, q.carried = some x → x ∈ (state.memory.apply effect).log.submitted ∧
      x ∉ (state.memory.apply effect).log.accepted ∧ ∀ u, u ≠ t → (state.pc u).carried ≠ some x)
    (hothers : ∀ u x, u ≠ t → (state.pc u).carried = some x →
      x ∈ (state.memory.apply effect).log.submitted ∧
        x ∉ (state.memory.apply effect).log.accepted)
    (hknows : ∀ m p, t = .worker m → q = .worker p →
      p.slot.Holds ((state.memory.apply effect).slot m) (state.memory.apply effect).log)
    (hknowsOther : ∀ m p, t ≠ .worker m → state.pc (.worker m) = .worker p →
      p.slot.Holds ((state.memory.apply effect).slot m) (state.memory.apply effect).log) :
    Custody (state.advance t ⟨effect, q⟩) where
  books := hbooks
  submitted := hsubmitted
  accepted := haccepted
  carried u x hx := by
    by_cases hu : u = t
    · subst hu
      rw [State.advance_pc_self] at hx
      exact ⟨(hself x hx).1, (hself x hx).2.1⟩
    · rw [State.advance_pc_of_ne _ hu] at hx
      exact hothers u x hu hx
  carrier u v x hu hv := by
    by_cases hut : u = t <;> by_cases hvt : v = t
    · rw [hut, hvt]
    · rw [hut, State.advance_pc_self] at hu
      rw [State.advance_pc_of_ne _ hvt] at hv
      exact absurd hv ((hself x hu).2.2 v hvt)
    · rw [hvt, State.advance_pc_self] at hv
      rw [State.advance_pc_of_ne _ hut] at hu
      exact absurd hu ((hself x hv).2.2 u hut)
    · rw [State.advance_pc_of_ne _ hut] at hu
      rw [State.advance_pc_of_ne _ hvt] at hv
      exact h.carrier u v x hu hv
  knows m p hp := by
    by_cases hm : Tid.worker m = t
    · rw [hm, State.advance_pc_self] at hp
      exact hknows m p hm.symm hp
    · rw [State.advance_pc_of_ne _ hm] at hp
      exact hknowsOther m p (Ne.symm hm) hp

/-- The lists of the log that are about tasks. -/
theorem Memory.log_apply_silent (hsilent : effect.Silent) (memory : Memory) :
    (memory.apply effect).log.submitted = memory.log.submitted ∧
      (memory.apply effect).log.accepted = memory.log.accepted ∧
      (memory.apply effect).log.started = memory.log.started ∧
      (memory.apply effect).log.deleted = memory.log.deleted := by
  cases effect <;> first | exact ⟨rfl, rfl, rfl, rfl⟩ | exact hsilent.elim

theorem Memory.slot_apply_silent (hsilent : effect.Silent) (memory : Memory) :
    (memory.apply effect).slot = memory.slot :=
  funext fun m => memory.task_apply_silent hsilent m

/-- What a thread that carries a task knows of the others. -/
theorem Custody.alone (h : Custody state) (hx : (state.pc t).carried = some x) :
    ∀ u, u ≠ t → (state.pc u).carried ≠ some x :=
  fun u hu hother => hu (h.carrier u t x hother hx)

/-- A step that moves no task. -/
theorem Custody.silent (h : Custody state) (hsilent : effect.Silent)
    (hcarried : ∀ x, q.carried = some x → (state.pc t).carried = some x)
    (hknows : ∀ m p, t = .worker m → q = .worker p →
      p.slot.Holds (state.memory.slot m) state.memory.log) :
    Custody (state.advance t ⟨effect, q⟩) := by
  obtain ⟨hsubmitted, haccepted, hstarted, hdeleted⟩ :=
    Memory.log_apply_silent hsilent state.memory
  have hslot := Memory.slot_apply_silent hsilent state.memory
  have hholds : ∀ {status : SlotStatus} {m}, status.Holds (state.memory.slot m) state.memory.log →
      status.Holds ((state.memory.apply effect).slot m) (state.memory.apply effect).log :=
    fun hstatus => by
      rw [hslot]
      exact hstatus.congr (fun _ _ => by rw [hstarted]) (fun _ _ => by rw [hdeleted])
  refine h.advance ?_ ?_ ?_ (fun x hx => ?_) (fun u x hu hx => ?_)
    (fun m p ht hp => hholds (hknows m p ht hp)) (fun m p _ hp => hholds (h.knows m p hp))
  · rw [hslot]
    exact h.books.congr haccepted hstarted hdeleted
  · rw [hsubmitted]
    exact h.submitted
  · rw [hsubmitted, haccepted]
    exact h.accepted
  · rw [hsubmitted, haccepted]
    have hbefore := hcarried x hx
    exact ⟨(h.carried t x hbefore).1, (h.carried t x hbefore).2, h.alone hbefore⟩
  · rw [hsubmitted, haccepted]
    exact h.carried u x hx

/-- A thread calls `execute` with a new task. -/
theorem Custody.submit (h : Custody state) {task : Option Runnable}
    (hfresh : ∀ x, task = some x → x ∉ state.memory.log.submitted) (hcarried : q.carried = task)
    (hknows : ∀ m p, t = .worker m → q = .worker p →
      p.slot.Holds (state.memory.slot m) state.memory.log) :
    Custody (state.advance t ⟨.submit task, q⟩) := by
  refine h.advance (h.books.congr rfl rfl rfl) ?_ (fun y hy => ?_) (fun y hy => ?_)
    (fun u y _ hy => ⟨?_, (h.carried u y hy).2⟩)
    (fun m p ht hp => (hknows m p ht hp).congr (fun _ _ => Iff.rfl) fun _ _ => Iff.rfl)
    (fun m p _ hp => (h.knows m p hp).congr (fun _ _ => Iff.rfl) fun _ _ => Iff.rfl)
  · refine List.nodup_append.mpr ⟨h.submitted, by cases task <;> simp, ?_⟩
    rintro y hy z hz rfl
    rw [Option.mem_toList] at hz
    exact hfresh y hz hy
  · exact List.mem_append_left _ (h.accepted y hy)
  · have hnew := hfresh y (hcarried.symm.trans hy)
    exact ⟨List.mem_append_right _ (Option.mem_toList.mpr (hcarried.symm.trans hy)),
      fun haccepted => hnew (h.accepted y haccepted),
      fun u _ hother => hnew (h.carried u y hother).1⟩
  · exact List.mem_append_left _ (h.carried u y hy).1

theorem Memory.slot_update (memory : Memory) (m : ManagerId) (f : TaskManager → TaskManager) :
    (memory.update m f).slot = Function.update memory.slot m (f (memory.managers m)).task := by
  funext n
  by_cases hn : n = m
  · subst hn
    simp [slot]
  · rw [Function.update_of_ne hn, slot, memory.update_managers_of_ne hn]
    rfl

theorem Memory.slot_apply_place (task : Option Runnable) (m : ManagerId) (memory : Memory) :
    (memory.apply (.place task m)).slot = Function.update memory.slot m task :=
  memory.slot_update m fun manager => { manager with task := task }

theorem Memory.slot_apply_clear (m : ManagerId) (memory : Memory) :
    (memory.apply (.clear m)).slot = Function.update memory.slot m none :=
  memory.slot_update m fun manager => { manager with task := none }

/-- A thread puts its task into an empty slot whose worker knows nothing about it. -/
theorem Custody.place (h : Custody state) {task : Option Runnable}
    (hcarried : (state.pc t).carried = task) (hslot : state.memory.slot m = none)
    (hunknown : ∀ p, state.pc (.worker m) = .worker p → p.slot = .unknown)
    (ht : t ≠ .worker m) (hq : q.carried = none)
    (hknows : ∀ m p, t = .worker m → q = .worker p →
      p.slot.Holds (state.memory.slot m) state.memory.log) :
    Custody (state.advance t ⟨.place task m, q⟩) := by
  have hbooks : Books (state.memory.apply (.place task m)).log
      (state.memory.apply (.place task m)).slot := by
    rw [Memory.slot_apply_place]
    cases task with
    | none =>
        rw [show Function.update state.memory.slot m none = state.memory.slot by
          rw [← hslot, Function.update_eq_self]]
        exact h.books.congr (List.append_nil state.memory.log.accepted) rfl rfl
    | some x => exact h.books.store (h.carried t x hcarried).2 hslot
  -- the other slots and what their workers know about them stay
  have hother : ∀ {status : SlotStatus} {n}, n ≠ m →
      status.Holds (state.memory.slot n) state.memory.log →
      status.Holds ((state.memory.apply (.place task m)).slot n)
        (state.memory.apply (.place task m)).log := fun hn hstatus => by
    rw [Memory.slot_apply_place, Function.update_of_ne hn]
    exact hstatus.congr (fun _ _ => Iff.rfl) fun _ _ => Iff.rfl
  refine h.advance hbooks h.submitted (fun x hx => ?_) (fun x hx => ?_) (fun u x hu hx => ?_)
    (fun n p hn hp => ?_) (fun n p hn hp => ?_)
  · rcases List.mem_append.mp hx with hx | hx
    · exact h.accepted x hx
    · rw [Option.mem_toList] at hx
      exact (h.carried t x (hcarried.trans hx)).1
  · cases hq.symm.trans hx
  · refine ⟨(h.carried u x hx).1, fun haccepted => ?_⟩
    rcases List.mem_append.mp haccepted with haccepted | haccepted
    · exact (h.carried u x hx).2 haccepted
    · rw [Option.mem_toList] at haccepted
      exact h.alone (hcarried.trans haccepted) u hu hx
  · exact hother (fun heq => ht (heq ▸ hn)) (hknows n p hn hp)
  · by_cases hnm : n = m
    · subst hnm
      rw [hunknown p hp, Memory.slot_apply_place, Function.update_self]
      intro x hx
      have hnew := (h.carried t x (hcarried.trans hx)).2
      exact ⟨h.books.not_started hnew, h.books.not_deleted hnew⟩
    · exact hother hnm (h.knows n p hp)

/-- The worker starts the task in its slot. -/
theorem Custody.begin (h : Custody state) (hslot : state.memory.slot m = some x)
    (hx : x ∉ state.memory.log.started ∧ x ∉ state.memory.log.deleted) (hq : q.carried = none)
    (hstarted : ∀ p, q = .worker p → p.slot = .started) :
    Custody (state.advance (.worker m) ⟨.begin m, q⟩) := by
  have hlog : (state.memory.apply (.begin m)).log =
      { state.memory.log with started := state.memory.log.started ++ [x] } := by
    simp only [Memory.slot] at hslot
    simp [Memory.apply, hslot]
  refine h.advance ?_ h.submitted h.accepted (fun y hy => ?_) (fun u y _ => h.carried u y)
    (fun n p hn hp => ?_) (fun n p hn hp => ?_)
  · rw [hlog]
    exact h.books.start hslot hx.1
  · cases hq.symm.trans hy
  · cases hn
    rw [hstarted p hp, hlog]
    exact ⟨x, hslot, List.mem_append_right _ (List.mem_singleton_self x), hx.2⟩
  · rw [hlog]
    refine (h.knows n p hp).congr (fun y hy => ?_) fun _ _ => Iff.rfl
    have hne : y ≠ x := fun heq => hn (by rw [h.books.unique n m x (heq ▸ hy) hslot])
    simp [hne]

/-- The worker deletes the task in its slot. -/
theorem Custody.delete (h : Custody state) (hslot : state.memory.slot m = some x)
    (hx : x ∉ state.memory.log.deleted) (hq : q.carried = none)
    (hdeleted : ∀ p, q = .worker p → p.slot = .deleted) :
    Custody (state.advance (.worker m) ⟨.delete m, q⟩) := by
  have hlog : (state.memory.apply (.delete m)).log =
      { state.memory.log with deleted := state.memory.log.deleted ++ [x] } := by
    simp only [Memory.slot] at hslot
    simp [Memory.apply, hslot]
  refine h.advance ?_ h.submitted h.accepted (fun y hy => ?_) (fun u y _ => h.carried u y)
    (fun n p hn hp => ?_) (fun n p hn hp => ?_)
  · rw [hlog]
    exact h.books.delete hslot hx
  · cases hq.symm.trans hy
  · cases hn
    rw [hdeleted p hp, hlog]
    exact ⟨x, hslot, List.mem_append_right _ (List.mem_singleton_self x)⟩
  · rw [hlog]
    refine (h.knows n p hp).congr (fun _ _ => Iff.rfl) fun y hy => ?_
    have hne : y ≠ x := fun heq => hn (by rw [h.books.unique n m x (heq ▸ hy) hslot])
    simp [hne]

/-- The worker clears its slot behind a deletion. -/
theorem Custody.clear (h : Custody state) (hslot : state.memory.slot m = some x)
    (hx : x ∈ state.memory.log.deleted) (hq : q.carried = none)
    (hcleared : ∀ p, q = .worker p → p.slot = .unknown ∨ p.slot = .empty) :
    Custody (state.advance (.worker m) ⟨.clear m, q⟩) := by
  refine h.advance ?_ h.submitted h.accepted (fun y hy => ?_) (fun u y _ => h.carried u y)
    (fun n p hn hp => ?_) (fun n p hn hp => ?_)
  · rw [Memory.slot_apply_clear]
    exact h.books.clear hslot hx
  · cases hq.symm.trans hy
  · cases hn
    rw [Memory.slot_apply_clear, Function.update_self]
    rcases hcleared p hp with hstatus | hstatus <;> rw [hstatus]
    · exact nofun
    · rfl
  · have hne : n ≠ m := fun heq => hn (by rw [heq])
    rw [Memory.slot_apply_clear, Function.update_of_ne hne]
    exact h.knows n p hp

/-! ## Every step -/

/-- The worker of `m` has left its loop and its manager's monitor. -/
def State.Left (state : State) (m : ManagerId) : Prop :=
  match state.pc (.worker m) with
  | .worker p => p.Left
  | .client _ => False

instance (state : State) (m : ManagerId) : Decidable (state.Left m) := by
  unfold State.Left
  split <;> infer_instance

/-- A task is stored only while the worker of the slot has not left. -/
def StoresInTime (state : State) (action : Action) : Prop :=
  match (state.pc action.thread).call with
  | some (.execute _ (.setTask m .store)) => ¬ state.Left m
  | _ => True

instance (state : State) (action : Action) : Decidable (StoresInTime state action) := by
  unfold StoresInTime
  split <;> infer_instance

/-- A worker that knows something about its slot and has not left is inside its manager. -/
theorem Guarded.owner_of_slot (h : Guarded state) {p : TaskManager.RunPoint Call}
    (hp : state.pc (.worker m) = .worker p) (hslot : p.slot ≠ .unknown) (hleft : ¬ p.Left) :
    (state.memory.sync (.manager m)).owner = some (.worker m) := by
  have hstanding := h.standing (.worker m) (.manager m)
  rw [hp] at hstanding
  cases p with
  | wait p =>
      cases p with
      | check | disown | block =>
          simp only [Point.standings, TaskManager.RunPoint.standings, Standings.set_self,
            Synchronized.WaitPoint.waiting] at hstanding
          exact hstanding.1
      | reset | asleep | own => exact absurd rfl hslot
  | leave p =>
      simp only [Point.standings, TaskManager.RunPoint.standings, Standings.set_self] at hstanding
      cases p <;> exact hstanding.1
  | running call => exact h.owner_of_occupied hp trivial
  | delete looping => exact h.owner_of_occupied hp (by cases looping <;> trivial)
  | clear => exact h.owner_of_occupied hp trivial
  | remove | finish | removed | exited => exact absurd trivial hleft
  | add | added | enter | loop | hasTask | woken | take | idle | stopped => exact absurd rfl hslot

/-- A running task knows that it has been started. -/
theorem Custody.knows_calling (h : Custody state) {call after : Option Call}
    (hp : state.pc t = t.calling call) :
    ∀ m p, t = .worker m → t.calling after = .worker p →
      p.slot.Holds (state.memory.slot m) state.memory.log := by
  rintro m p rfl hcalling
  cases hcalling
  exact h.knows m (.running call) hp

theorem Custody.work (h : Custody state) {p q : TaskManager.RunPoint Call}
    (hp : state.pc (.worker m) = .worker p)
    (hworks : TaskManager.Works m (state.memory.managers m).task p effect q) :
    Custody (state.advance (.worker m) ⟨effect, .worker q⟩) := by
  have hknown := h.knows m p hp
  have hcarried : (Point.worker q).carried = none := by rw [Point.carried, hworks.call_next]; rfl
  have hnone : ∀ x, (Point.worker q).carried = some x →
      (state.pc (.worker m)).carried = some x := fun x hx => by rw [hcarried] at hx; cases hx
  -- a silent step needs to know what is in the slot at its end
  have hsilently : effect.Silent → q.slot.Holds (state.memory.slot m) state.memory.log →
      Custody (state.advance (.worker m) ⟨effect, .worker q⟩) := fun hsilent hq =>
    h.silent hsilent hnone fun n r hn hr => by
      cases hn
      cases hr
      exact hq
  cases hworks with
  | keep hplain hslot => exact hsilently hplain.silent (hslot ▸ hknown)
  | forget hplain hslot hbefore =>
      rw [hbefore] at hknown
      refine hsilently hplain.silent ?_
      rw [hslot]
      intro x hx
      exact absurd (hknown.symm.trans hx) (by rintro ⟨⟩)
  | vacant _ hvacant hslot =>
      refine hsilently trivial ?_
      rw [hslot]
      exact hvacant
  | begin hfull =>
      obtain ⟨x, hx⟩ := Option.ne_none_iff_exists'.mp hfull
      exact h.begin hx (hknown x hx) hcarried fun r hr => by cases hr; rfl
  | discard hfull =>
      obtain ⟨x, hx⟩ := Option.ne_none_iff_exists'.mp hfull
      exact hsilently trivial ⟨x, hx, hknown x hx⟩
  | delete looping =>
      obtain ⟨x, hx, hdeleted⟩ : ∃ x, state.memory.slot m = some x ∧
          x ∉ state.memory.log.deleted := by
        cases looping with
        | false =>
            obtain ⟨x, hx, -, hdeleted⟩ := hknown
            exact ⟨x, hx, hdeleted⟩
        | true =>
            obtain ⟨x, hx, -, hdeleted⟩ := hknown
            exact ⟨x, hx, hdeleted⟩
      exact h.delete hx hdeleted hcarried fun r hr => by cases hr; rfl
  | clear looping _ hslot =>
      obtain ⟨x, hx, hdeleted⟩ := hknown
      exact h.clear hx hdeleted hcarried fun r hr => by cases hr; exact hslot

theorem Custody.step (h : Custody state) (hguarded : Guarded state)
    (hcontract : Contract state action) (htime : StoresInTime state action)
    (hstep : Pool.step size state action = some next) : Custody next := by
  obtain ⟨⟨effect, q⟩, hpiece, rfl⟩ := step_eq_some hstep
  have hhandles := handles_of_piece (hguarded.fits action.thread) hpiece
  generalize hp : state.pc action.thread = p at hhandles
  cases hhandles with
  | stay hplain =>
      exact h.silent hplain.silent (fun x hx => hp ▸ hx)
        fun m r ht hr => h.knows m r (ht ▸ hp.trans hr)
  | enter method hcalls =>
      have hquiet : ∀ call : Call, call.carried = none → ∀ x,
          (action.thread.calling (some call)).carried = some x →
            (state.pc action.thread).carried = some x := fun call hcall x hx => by
        rw [Tid.carried_calling] at hx
        cases hcall.symm.trans hx
      cases method with
      | execute task =>
          rw [hcalls] at hcontract
          exact h.submit (fun x hx => hcontract.2.1 x (hx ▸ rfl)) (Tid.carried_calling _ _)
            (h.knows_calling hp)
      | isIdle | isBusy | terminate | idleNotification | destroy =>
          exact h.silent trivial (hquiet _ rfl) (h.knows_calling hp)
  | @call _ call piece hcode hsilent _ hcarried =>
      have hbefore : (state.pc action.thread).carried = call.carried := by
        rw [hp, Tid.carried_calling]
        rfl
      cases hnext : piece.next with
      | inl after =>
          rw [hnext] at hcarried
          refine h.silent hsilent (fun x hx => ?_) (h.knows_calling hp)
          have hafter : (action.thread.calling (some after)).carried = some x := hx
          rw [Tid.carried_calling] at hafter
          rw [hbefore, ← hcarried]
          exact hafter
      | inr =>
          refine h.silent hsilent (fun x hx => ?_) (h.knows_calling hp)
          have hafter : (action.thread.calling none).carried = some x := hx
          rw [Tid.carried_calling] at hafter
          cases hafter
  | place task m =>
      have hcall : (state.pc action.thread).call = some (.execute task (.setTask m .store)) := by
        rw [hp, Tid.call_calling]
      have ht : action.thread ≠ .worker m := fun ht => by
        rw [ht] at hcall
        exact hguarded.apart m _ hcall ⟨rfl, by rintro ⟨⟩⟩
      have hleft : ¬ state.Left m := by
        unfold StoresInTime at htime
        rw [hcall] at htime
        exact htime
      refine h.place ?_ (hguarded.vacant _ task m hcall) (fun r hr => ?_) ht
        (Tid.carried_calling _ _) (h.knows_calling hp)
      · rw [Point.carried, hcall]
        rfl
      · -- otherwise the worker would be inside the manager together with the thread that stores
        by_contra hslot
        have hworker := hguarded.owner_of_slot hr hslot fun hleave => hleft (by
          rw [State.Left, hr]
          exact hleave)
        exact ht (Option.some.inj ((hguarded.owner_of_store hcall).symm.trans hworker))
  | work ht hworks =>
      rw [ht] at hp ⊢
      exact h.work hp hworks
  | finish ht =>
      rw [ht] at hp ⊢
      refine h.silent trivial (by rintro _ ⟨⟩) fun n r hn hr => ?_
      cases hn
      cases hr
      exact h.knows _ (.running none) hp

theorem custody_initial (size : Nat) : Custody (initial size) where
  books := ⟨List.nodup_nil, fun x => by simp [initial, Memory.slot], by rintro _ _ _ ⟨⟩,
    List.nodup_nil, by rintro _ ⟨⟩, List.nodup_nil⟩
  submitted := List.nodup_nil
  accepted := by rintro _ ⟨⟩
  carried t x hx := by
    cases t with
    | client c => cases hx
    | worker m =>
        simp only [initial] at hx
        split at hx <;> cases hx
  carrier t u x ht hu := by
    cases t with
    | client c => cases ht
    | worker m =>
        simp only [initial] at ht
        split at ht <;> cases ht
  knows m p hp := by
    simp only [initial] at hp
    cases hp
    split
    · rintro _ ⟨⟩
    · rfl

theorem custody_of_reaches {guard : State → Action → Prop}
    (hcontract : ∀ state action, guard state action → Contract state action)
    (htime : ∀ state action, guard state action → StoresInTime state action)
    (hrun : Reaches (Pool.step size) guard (initial size) state) : Custody state := by
  induction hrun with
  | refl => exact custody_initial size
  | tail action hprior hallowed hstep ih =>
      have hguarded := guarded_of_reaches
        (fun _ _ h => ownerDestroys_of_contract (hcontract _ _ h)) hprior
      exact ih.step hguarded (hcontract _ _ hallowed) (htime _ _ hallowed) hstep

end ThreadPools.Boost.Pool
