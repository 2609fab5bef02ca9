/-
# The custody of tasks

Where the tasks of a pool are, as a machine without threads and monitors: a
task is accepted or rejected by `execute`, dispatched into a slot, and leaves
the slot when it has been run or is discarded; what is never dispatched is
dropped. The books balance as long as only empty slots are filled, and then
every task that `execute` has taken is in exactly one place.
-/

import Mathlib.Data.List.ReduceOption
import Mathlib.Data.List.Nodup
import ThreadPools.Posix.Steps

namespace ThreadPools.Posix

open ThreadPools.Concurrency

/-! ## Counting -/

theorem count_toList {α : Type*} [DecidableEq α] (x : α) (cell : Option α) :
    cell.toList.count x = if cell = some x then 1 else 0 := by
  cases cell with
  | none => rfl
  | some y => simp [List.count_singleton, beq_iff_eq]

theorem count_reduceOption {α : Type*} [DecidableEq α] (x : α) (cells : List (Option α)) :
    cells.reduceOption.count x = cells.count (some x) := by
  induction cells with
  | nil => rfl
  | cons cell rest ih =>
      cases cell with
      | none => simpa [List.reduceOption_cons_of_none] using ih
      | some y => simp [List.reduceOption_cons_of_some, List.count_cons, ih]

/-- The number of the first `size` cells that contain `x`. -/
def occurrences {α : Type*} [DecidableEq α] (cells : Nat → Option α) (size : Nat) (x : α) :
    Nat :=
  (List.range size).countP fun i => cells i = some x

section Occurrences

variable {α : Type*} [DecidableEq α] {cells : Nat → Option α} {size m : Nat}

theorem occurrences_pos (hm : m < size) {x : α} (h : cells m = some x) :
    0 < occurrences cells size x :=
  List.countP_pos_iff.mpr ⟨m, List.mem_range.mpr hm, by simpa using h⟩

/-- Filling a cell changes the occurrences of `x` by what the cell held before
and holds now. -/
theorem occurrences_update (cells : Nat → Option α) (hm : m < size) (content : Option α) (x : α) :
    occurrences (Function.update cells m content) size x + (cells m).toList.count x =
      occurrences cells size x + content.toList.count x := by
  induction size with
  | zero => exact absurd hm (Nat.not_lt_zero m)
  | succ size ih =>
      unfold occurrences at ih ⊢
      rw [List.range_succ, List.countP_append, List.countP_append, count_toList, count_toList]
      by_cases hlast : m = size
      · subst hlast
        have hbelow : ((List.range m).countP fun i => Function.update cells m content i = some x) =
            (List.range m).countP fun i => cells i = some x := by
          refine List.countP_congr fun i hi => ?_
          have hne : i ≠ m := Nat.ne_of_lt (List.mem_range.mp hi)
          simp [hne]
        simp only [hbelow, List.countP_singleton, Function.update_self, decide_eq_true_eq]
        omega
      · have hprior := ih (by omega)
        rw [count_toList, count_toList] at hprior
        have hne : size ≠ m := fun h => hlast h.symm
        simp only [List.countP_singleton, Function.update_of_ne hne] at hprior ⊢
        omega

end Occurrences

/-! ## The custody machine -/

structure Custody where
  submitted : List (Runnable × Tid)
  pushed : List (Option Runnable)
  queue : List (Option Runnable)
  placed : List (Option Runnable)
  slot : ManagerId → Option Runnable
  finished : List Runnable
  discarded : List Runnable
  rejected : List Runnable
  dropped : List (Option Runnable)
  deleted : List Runnable

namespace Custody

/-- What an effect does to the custody of tasks. -/
def apply : Effect → Custody → Custody
  | .submit task t, custody =>
      { custody with submitted := custody.submitted ++ [(task, t)] }
  | .reject task, custody =>
      { custody with
        rejected := custody.rejected ++ task.toList
        deleted := custody.deleted ++ task.toList }
  | .push task, custody =>
      { custody with
        queue := custody.queue ++ [task]
        pushed := custody.pushed ++ [task] }
  | .pop, custody => { custody with queue := custody.queue.tail }
  | .place task m, custody =>
      { custody with
        slot := Function.update custody.slot m task
        placed := custody.placed ++ [task] }
  | .finish m, custody =>
      { custody with
        slot := Function.update custody.slot m none
        finished := custody.finished ++ (custody.slot m).toList
        deleted := custody.deleted ++ (custody.slot m).toList }
  | .discard m, custody =>
      { custody with
        slot := Function.update custody.slot m none
        discarded := custody.discarded ++ (custody.slot m).toList
        deleted := custody.deleted ++ (custody.slot m).toList }
  | .emptyQueue, custody =>
      { custody with
        queue := []
        dropped := custody.dropped ++ custody.queue
        deleted := custody.deleted ++ custody.queue.reduceOption }
  | _, custody => custody

end Custody

def Pool.custody (pool : Pool) : Custody where
  submitted := pool.log.submitted
  pushed := pool.log.pushed
  queue := pool.queue
  placed := pool.log.placed.map Prod.fst
  slot m := (pool.managers m).task
  finished := pool.log.finished
  discarded := pool.log.discarded
  rejected := pool.log.rejected
  dropped := pool.log.dropped
  deleted := pool.log.deleted

@[simp] theorem Pool.custody_slot (pool : Pool) (m : ManagerId) :
    pool.custody.slot m = (pool.managers m).task := rfl

theorem Pool.custody_slot_update (pool : Pool) (m : ManagerId)
    (f : TaskManager → TaskManager) :
    (pool.update m f).custody.slot =
      Function.update pool.custody.slot m (f (pool.managers m)).task := by
  funext other
  by_cases hother : other = m
  · subst hother
    simp [update]
  · simp [update, hother]

/-- The memory refines the custody machine. -/
theorem Pool.custody_apply (effect : Effect) (pool : Pool) :
    (pool.apply effect).custody = pool.custody.apply effect := by
  have hunchanged : ∀ (m : ManagerId) (f : TaskManager → TaskManager),
      (∀ manager, (f manager).task = manager.task) →
      (pool.update m f).custody = pool.custody := by
    intro m f hf
    have hslot := pool.custody_slot_update m f
    rw [hf] at hslot
    have hself : Function.update pool.custody.slot m (pool.managers m).task =
        pool.custody.slot := Function.update_eq_self m pool.custody.slot
    rw [hself] at hslot
    simp only [custody, update] at hslot ⊢
    rw [hslot]
  have hslot := fun m task =>
    pool.custody_slot_update m fun manager => { manager with task := task }
  cases effect with
  | place task m =>
      have hslot := hslot m task
      simp only [custody, update, apply, Custody.apply, List.map_append, List.map_cons,
        List.map_nil] at hslot ⊢
      rw [hslot]
  | finish m =>
      have hslot := hslot m none
      simp only [custody, update, apply, deleteTask, Custody.apply] at hslot ⊢
      rw [hslot]
  | discard m =>
      have hslot := hslot m none
      simp only [custody, update, apply, deleteTask, Custody.apply] at hslot ⊢
      rw [hslot]
  | stopManager m => exact hunchanged m _ fun _ => rfl
  | joinManager m => exact hunchanged m _ fun _ => rfl
  | _ => rfl

/-! ## The books -/

namespace Custody

/-- The number of managers that hold the task `x`. -/
def slots (size : Nat) (custody : Custody) (x : Runnable) : Nat :=
  occurrences custody.slot size x

/-- The tasks `execute` has accepted: those placed, or those pushed. -/
def accepted (kind : Kind) (custody : Custody) : List (Option Runnable) :=
  match kind with
  | .threadPool => custody.placed
  | .queuedThreadPool => custody.pushed

/-- How often `execute` has taken the task `x` from a caller. -/
def taken (kind : Kind) (custody : Custody) (x : Runnable) : Nat :=
  (custody.accepted kind).count (some x) + custody.rejected.count x

/-- What has happened to the tasks does not become undone. -/
structure Extends (kind : Kind) (custody next : Custody) : Prop where
  submitted : custody.submitted <+: next.submitted
  taken : ∀ x, custody.taken kind x ≤ next.taken kind x
  finished : custody.finished <+: next.finished
  deleted : custody.deleted <+: next.deleted

theorem Extends.refl (kind : Kind) (custody : Custody) : custody.Extends kind custody :=
  ⟨List.prefix_rfl, fun _ => Nat.le_refl _, List.prefix_rfl, List.prefix_rfl⟩

theorem Extends.trans {kind : Kind} {first second third : Custody}
    (hleft : first.Extends kind second) (hright : second.Extends kind third) :
    first.Extends kind third where
  submitted := hleft.submitted.trans hright.submitted
  taken x := Nat.le_trans (hleft.taken x) (hright.taken x)
  finished := hleft.finished.trans hright.finished
  deleted := hleft.deleted.trans hright.deleted

theorem extends_apply (kind : Kind) (custody : Custody) (effect : Effect) :
    custody.Extends kind (custody.apply effect) where
  submitted := by
    cases effect with
    | submit => exact List.prefix_append _ _
    | _ => exact List.prefix_rfl
  taken x := by
    unfold taken
    cases kind <;> cases effect <;>
      simp only [accepted, apply, List.count_append] <;> omega
  finished := by
    cases effect with
    | finish => exact List.prefix_append _ _
    | _ => exact List.prefix_rfl
  deleted := by
    cases effect with
    | reject | finish | discard | emptyQueue => exact List.prefix_append _ _
    | _ => exact List.prefix_rfl

/-- The books balance. -/
structure Balanced (kind : Kind) (size : Nat) (custody : Custody) : Prop where
  submitted : (custody.submitted.map Prod.fst).Nodup
  taken : ∀ x, custody.taken kind x ≤ (custody.submitted.map Prod.fst).count x
  dispatched : ∀ x, custody.placed.count (some x) + custody.dropped.count (some x) ≤
    (custody.accepted kind).count (some x)
  placed : ∀ x, custody.placed.count (some x) =
    custody.slots size x + custody.finished.count x + custody.discarded.count x
  deleted : ∀ x, custody.deleted.count x =
    custody.finished.count x + custody.discarded.count x + custody.rejected.count x +
      custody.dropped.count (some x)

namespace Balanced

variable {kind : Kind} {size : Nat} {custody : Custody}

theorem taken_le_one (h : custody.Balanced kind size) (x : Runnable) :
    custody.taken kind x ≤ 1 :=
  Nat.le_trans (h.taken x) (List.nodup_iff_count_le_one.mp h.submitted x)

/-- A dispatched task is in a slot or has been deleted, never both. -/
theorem slots_add_deleted (h : custody.Balanced kind size) (x : Runnable) :
    custody.slots size x + custody.deleted.count x =
      custody.placed.count (some x) + custody.dropped.count (some x) +
        custody.rejected.count x := by
  have hplaced := h.placed x
  have hdeleted := h.deleted x
  omega

theorem slots_add_deleted_le_one (h : custody.Balanced kind size) (x : Runnable) :
    custody.slots size x + custody.deleted.count x ≤ 1 := by
  have hone := h.taken_le_one x
  have hdispatched := h.dispatched x
  have hsum := h.slots_add_deleted x
  unfold Custody.taken at hone
  omega

/-- A task in a slot has not been deleted. -/
theorem not_deleted_of_slot (h : custody.Balanced kind size) {m : ManagerId} (hm : m < size)
    {x : Runnable} (hslot : custody.slot m = some x) : x ∉ custody.deleted := by
  have hle := h.slots_add_deleted_le_one x
  have hpos := occurrences_pos hm hslot
  unfold slots at hle
  exact List.count_eq_zero.mp (by omega)

/-- Nor is it in any other slot. -/
theorem slot_unique (h : custody.Balanced kind size) {m other : ManagerId} (hm : m < size)
    (hother : other < size) {x : Runnable} (hslot : custody.slot m = some x)
    (hslotOther : custody.slot other = some x) : m = other := by
  by_contra hne
  have hle := h.slots_add_deleted_le_one x
  have hcleared := occurrences_update custody.slot hm none x
  have hpos : 0 < occurrences (Function.update custody.slot m none) size x :=
    occurrences_pos hother (by rwa [Function.update_of_ne (Ne.symm hne)])
  rw [hslot, count_toList, count_toList, if_pos rfl, if_neg nofun] at hcleared
  unfold slots at hle
  omega

/-! ### What each effect does to the books -/

theorem submit (h : custody.Balanced kind size) {task : Runnable} {t : Tid}
    (hfresh : task ∉ custody.submitted.map Prod.fst) :
    (custody.apply (.submit task t)).Balanced kind size where
  submitted := by
    simp only [Custody.apply, List.map_append, List.map_cons, List.map_nil]
    exact List.nodup_append.mpr ⟨h.submitted, List.nodup_singleton _,
      fun first hfirst second hsecond heq =>
        hfresh (List.mem_singleton.mp hsecond ▸ heq ▸ hfirst)⟩
  taken x := by
    refine Nat.le_trans (h.taken x) ?_
    simp [Custody.apply, List.count_append]
  dispatched := h.dispatched
  placed := h.placed
  deleted := h.deleted

/-- `execute` may take a task that it has not taken before. -/
def Takes (kind : Kind) (custody : Custody) (task : Option Runnable) : Prop :=
  ∀ x, task = some x → custody.taken kind x = 0 ∧ x ∈ custody.submitted.map Prod.fst

theorem Takes.le {task : Option Runnable} (htakes : Takes kind custody task)
    (h : custody.Balanced kind size) (x : Runnable) :
    custody.taken kind x + task.toList.count x ≤ (custody.submitted.map Prod.fst).count x := by
  have hx := h.taken x
  rw [count_toList]
  split
  · next htask =>
      obtain ⟨hzero, hmem⟩ := htakes x htask
      have hpos := List.count_pos_iff.mpr hmem
      omega
  · exact hx

theorem taken_reject (kind : Kind) (custody : Custody) (task : Option Runnable)
    (x : Runnable) : (custody.apply (.reject task)).taken kind x =
      custody.taken kind x + task.toList.count x := by
  cases kind <;> simp only [Custody.taken, accepted, Custody.apply, List.count_append] <;> omega

theorem taken_push (custody : Custody) (task : Option Runnable) (x : Runnable) :
    (custody.apply (.push task)).taken .queuedThreadPool x =
      custody.taken .queuedThreadPool x + task.toList.count x := by
  simp only [Custody.taken, accepted, Custody.apply, List.count_append, List.count_singleton,
    beq_iff_eq, count_toList]
  omega

theorem taken_place (custody : Custody) (task : Option Runnable) (m : ManagerId)
    (x : Runnable) : (custody.apply (.place task m)).taken .threadPool x =
      custody.taken .threadPool x + task.toList.count x := by
  simp only [Custody.taken, accepted, Custody.apply, List.count_append, List.count_singleton,
    beq_iff_eq, count_toList]
  omega

theorem reject (h : custody.Balanced kind size) {task : Option Runnable}
    (htakes : Takes kind custody task) :
    (custody.apply (.reject task)).Balanced kind size where
  submitted := h.submitted
  taken x := taken_reject kind custody task x ▸ htakes.le h x
  dispatched := by cases kind <;> exact h.dispatched
  placed := h.placed
  deleted x := by
    have hx := h.deleted x
    simp only [Custody.apply, List.count_append]
    omega

theorem push (h : custody.Balanced .queuedThreadPool size) {task : Option Runnable}
    (htakes : Takes .queuedThreadPool custody task) :
    (custody.apply (.push task)).Balanced .queuedThreadPool size where
  submitted := h.submitted
  taken x := taken_push custody task x ▸ htakes.le h x
  dispatched x := by
    have hx := h.dispatched x
    simp only [accepted, Custody.apply, List.count_append] at hx ⊢
    omega
  placed := h.placed
  deleted := h.deleted

theorem slots_place {m : ManagerId} (hm : m < size) (hslot : custody.slot m = none)
    (task : Option Runnable) (x : Runnable) :
    (custody.apply (.place task m)).slots size x =
      custody.slots size x + task.toList.count x := by
  have hupdate := occurrences_update custody.slot hm task x
  rwa [hslot, Option.toList_none, List.count_nil, Nat.add_zero] at hupdate

/-- A caller of a `ThreadPool` fills an empty slot. -/
theorem place (h : custody.Balanced .threadPool size) {task : Option Runnable}
    (htakes : Takes .threadPool custody task) {m : ManagerId} (hm : m < size)
    (hslot : custody.slot m = none) :
    (custody.apply (.place task m)).Balanced .threadPool size where
  submitted := h.submitted
  taken x := taken_place custody task m x ▸ htakes.le h x
  dispatched x := by
    have hx := h.dispatched x
    simp only [accepted, Custody.apply, List.count_append] at hx ⊢
    omega
  placed x := by
    have hx := h.placed x
    rw [slots_place hm hslot, count_toList]
    simp only [Custody.apply, List.count_append, List.count_singleton, beq_iff_eq]
    omega
  deleted := h.deleted

/-- The dispatcher fills an empty slot with a task that is still waiting. -/
theorem dispatch (h : custody.Balanced .queuedThreadPool size) {task : Runnable}
    (hwaiting : custody.placed.count (some task) + custody.dropped.count (some task) <
      custody.pushed.count (some task))
    {m : ManagerId} (hm : m < size) (hslot : custody.slot m = none) :
    (custody.apply (.place (some task) m)).Balanced .queuedThreadPool size where
  submitted := h.submitted
  taken := h.taken
  dispatched x := by
    have hx := h.dispatched x
    simp only [accepted, Custody.apply, List.count_append, List.count_singleton, beq_iff_eq]
      at hx ⊢
    split
    · next heq =>
        cases heq
        omega
    · omega
  placed x := by
    have hx := h.placed x
    rw [slots_place hm hslot, count_toList]
    simp only [Custody.apply, List.count_append, List.count_singleton, beq_iff_eq]
    omega
  deleted := h.deleted

theorem pop (h : custody.Balanced kind size) : (custody.apply .pop).Balanced kind size where
  submitted := h.submitted
  taken := by cases kind <;> exact h.taken
  dispatched := by cases kind <;> exact h.dispatched
  placed := h.placed
  deleted := h.deleted

theorem slots_clear (custody : Custody) {m : ManagerId} (hm : m < size) (x : Runnable) :
    occurrences (Function.update custody.slot m none) size x +
      (custody.slot m).toList.count x = custody.slots size x :=
  occurrences_update custody.slot hm none x

theorem finish (h : custody.Balanced kind size) {m : ManagerId} (hm : m < size) :
    (custody.apply (.finish m)).Balanced kind size where
  submitted := h.submitted
  taken := by cases kind <;> exact h.taken
  dispatched := by cases kind <;> exact h.dispatched
  placed x := by
    have hx := h.placed x
    have hclear := slots_clear custody hm x
    simp only [slots, Custody.apply, List.count_append] at hx hclear ⊢
    omega
  deleted x := by
    have hx := h.deleted x
    simp only [Custody.apply, List.count_append]
    omega

theorem discard (h : custody.Balanced kind size) {m : ManagerId} (hm : m < size) :
    (custody.apply (.discard m)).Balanced kind size where
  submitted := h.submitted
  taken := by cases kind <;> exact h.taken
  dispatched := by cases kind <;> exact h.dispatched
  placed x := by
    have hx := h.placed x
    have hclear := slots_clear custody hm x
    simp only [slots, Custody.apply, List.count_append] at hx hclear ⊢
    omega
  deleted x := by
    have hx := h.deleted x
    simp only [Custody.apply, List.count_append]
    omega

/-- Dropping the queue drops only tasks that are still waiting. -/
theorem emptyQueue (h : custody.Balanced .queuedThreadPool size)
    (hwaiting : ∀ x, custody.placed.count (some x) + custody.dropped.count (some x) +
      custody.queue.count (some x) ≤ custody.pushed.count (some x)) :
    (custody.apply .emptyQueue).Balanced .queuedThreadPool size where
  submitted := h.submitted
  taken := h.taken
  dispatched x := by
    have hx := hwaiting x
    simp only [accepted, Custody.apply, List.count_append]
    omega
  placed := h.placed
  deleted x := by
    have hx := h.deleted x
    simp only [Custody.apply, List.count_append, count_reduceOption]
    omega

end Balanced

end Custody

theorem Config.custody_step {cfg : Config} {state next : PoolState} {action : PoolAction}
    (hstep : cfg.program.step state action = some next) :
    state.data.custody.Extends cfg.kind next.data.custody := by
  rcases data_step hstep with hsame | ⟨effect, hnext⟩
  · exact hsame ▸ .refl _ _
  · rw [hnext, Pool.custody_apply]
    exact Custody.extends_apply _ _ effect

/-- The custody of tasks along a run. -/
theorem Config.custody_extends {cfg : Config} {guard : PoolState → PoolAction → Prop}
    {source target : PoolState} (hrun : Reaches cfg.program.step guard source target) :
    source.data.custody.Extends cfg.kind target.data.custody := by
  induction hrun with
  | refl => exact .refl _ _
  | tail action _ _ hstep hextends => exact hextends.trans (custody_step hstep)

end ThreadPools.Posix
