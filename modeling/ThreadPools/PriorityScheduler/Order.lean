/-
# The scheduler refines a priority queue

Seen through its queue, the scheduler is the machine `Machines.PriorityQueue`: `post` adds
its item inside the mutex, and `run()` takes an item only when no item of the queue has a
higher priority. This needs no assumption on the threads and their calls.
-/

import ThreadPools.Machines.PriorityQueue
import ThreadPools.PriorityScheduler.Program

namespace ThreadPools.PriorityScheduler

open ThreadPools.Concurrency ThreadPools.Machines

variable {T : Type*}

/-- What happens to the queue at a point of the code. -/
def Scheduler.events (s : Scheduler T) (choice : Nat) :
    Point → List (PriorityQueue.Event Item)
  | .post item .push => [.add item]
  | .run .take => (s.top choice).toList.map .remove
  | _ => []

/-- What happens to the queue in a step. -/
def State.events (state : State T) : Action T → List (PriorityQueue.Event Item)
  | .go t choice => state.scheduler.events choice (state.thread t).point
  | .call _ _ | .finish _ _ | .wakeUp _ => []

/-- The scheduler as a priority queue. -/
def State.waiting (state : State T) : Multiset Item := state.scheduler.queue

theorem Scheduler.top_cases {s : Scheduler T} {choice : Nat} {item : Item}
    (h : s.top choice = some item) :
    s.queue[choice]? = some item ∧ ∀ other ∈ s.queue, other.priority ≤ item.priority := by
  obtain ⟨hitem, hmax⟩ := Option.filter_eq_some_iff.mp h
  exact ⟨hitem, of_decide_eq_true hmax⟩

/-- `queue_.top()` is an element of the queue that nothing outranks, and `queue_.pop()`
removes it. -/
theorem Scheduler.step_take {s : Scheduler T} {choice : Nat} {item : Item}
    (h : s.top choice = some item) :
    PriorityQueue.step Item.priority (s.queue : Multiset Item) (.remove item) =
      some ((s.take choice item).queue : Multiset Item) := by
  obtain ⟨hitem, hmax⟩ := top_cases h
  obtain ⟨hlt, hget⟩ := List.getElem?_eq_some_iff.mp hitem
  have hmem : item ∈ s.queue := hget ▸ List.getElem_mem hlt
  have hperm : s.queue.Perm (item :: s.queue.eraseIdx choice) :=
    hget ▸ (List.getElem_cons_eraseIdx_perm hlt).symm
  have htop : PriorityQueue.Top Item.priority (s.queue : Multiset Item) item := ⟨hmem, hmax⟩
  have herase :
      (s.queue : Multiset Item).erase item = (s.queue.eraseIdx choice : Multiset Item) := by
    rw [Multiset.coe_eq_coe.mpr hperm, ← Multiset.cons_coe, Multiset.erase_cons_head]
  rw [PriorityQueue.step, if_pos htop, herase]
  rfl

variable [DecidableEq T] {t : T} {s next : Scheduler T} {point target : Point} {choice : Nat}

/-- A step of the code does to the queue what it reports. -/
theorem code_traces (h : code t choice point s = some (next, target)) :
    Traces (PriorityQueue.step Item.priority) (s.queue : Multiset Item)
      (s.events choice point) next.queue ∧
      next.taken = s.taken ++ PriorityQueue.removed (s.events choice point) := by
  have hsilent (hevents : s.events choice point = []) (hqueue : next.queue = s.queue)
      (htaken : next.taken = s.taken) :
      Traces (PriorityQueue.step Item.priority) (s.queue : Multiset Item)
        (s.events choice point) next.queue ∧
        next.taken = s.taken ++ PriorityQueue.removed (s.events choice point) := by
    rw [hevents, hqueue, htaken]
    exact ⟨.nil, (List.append_nil _).symm⟩
  by_cases htake : point = .run .take
  · subst htake
    simp only [code, run] at h
    split at h
    · next hempty =>
        cases h
        have hnil : s.queue = [] := List.isEmpty_iff.mp hempty
        exact hsilent (by simp [Scheduler.events, Scheduler.top, hnil]) rfl rfl
    · obtain ⟨item, htop, ⟨⟩⟩ := Option.map_eq_some_iff.mp h
      simp only [Scheduler.events, htop]
      exact ⟨Traces.single.mpr (Scheduler.step_take htop), rfl⟩
  · have hmoves := code_moves h
    cases hmoves with
    | push item =>
        refine ⟨Traces.single.mpr (congrArg some ?_), (List.append_nil _).symm⟩
        rw [Multiset.cons_coe]
        exact Multiset.coe_eq_coe.mpr (List.perm_append_singleton item s.queue).symm
    | take | undefined => exact absurd rfl htake
    | acquire _ _ _ hpoints =>
        refine hsilent ?_ rfl rfl
        rcases hpoints with ⟨item, rfl, -⟩ | ⟨rfl, -⟩ | ⟨rfl | rfl | rfl, -⟩ <;> rfl
    | release _ hpoints =>
        refine hsilent ?_ rfl rfl
        rcases hpoints with ⟨item, rfl⟩ | rfl | rfl <;> rfl
    | hasWork _ hpoints =>
        refine hsilent ?_ rfl rfl
        rcases hpoints with ⟨rfl, -⟩ | rfl <;> rfl
    | _ => exact hsilent rfl rfl rfl

variable {guard : State T → Action T → Prop} {stopped : Bool} {state : State T}

theorem refines_priorityQueue (source : State T) :
    Refines step guard source (PriorityQueue.step Item.priority) State.waiting
      State.events := by
  intro state action next _ _ hstep
  cases action with
  | call t method =>
      obtain ⟨-, ⟨⟩⟩ := Option.ite_none_right_eq_some.mp hstep
      cases method <;> exact .nil
  | go t choice =>
      obtain ⟨⟨after, target⟩, hcode, ⟨⟩⟩ := Option.map_eq_some_iff.mp hstep
      exact (code_traces hcode).1
  | finish t throws =>
      simp only [step] at hstep
      split at hstep <;> cases hstep
      exact .nil
  | wakeUp t =>
      cases hstep
      exact .nil

/-- What a scheduler with the given history has done for those who post. -/
structure Serves (history : List (PriorityQueue.Event Item)) (state : State T) : Prop where
  /-- `run()` has taken what has been removed from the queue -/
  taken : state.scheduler.taken = PriorityQueue.removed history
  /-- what has been posted has been taken once, or waits -/
  posted : (PriorityQueue.added history).Perm (state.scheduler.taken ++ state.scheduler.queue)
  /-- whatever had been posted and not been taken did not outrank the item taken next -/
  first : ∀ before item later, history = before ++ .remove item :: later → ∀ other,
    (PriorityQueue.removed before).count other < (PriorityQueue.added before).count other →
      other.priority ≤ item.priority
  /-- between two posts the priorities of the taken items do not grow -/
  drained : ∀ before between later, history = before ++ (between ++ later) →
    PriorityQueue.added between = [] →
      (PriorityQueue.removed between).Pairwise fun x y => y.priority ≤ x.priority

variable {history : List (PriorityQueue.Event Item)}

theorem taken_of_emits (hrun : Emits step guard State.events (initial stopped) history state) :
    state.scheduler.taken = PriorityQueue.removed history := by
  induction hrun with
  | refl => rfl
  | @tail events middle target action hprior _ hstep ih =>
      have hsame (hevents : middle.events action = [])
          (htaken : target.scheduler.taken = middle.scheduler.taken) :
          target.scheduler.taken = PriorityQueue.removed (events ++ middle.events action) := by
        rw [hevents, htaken, ih, List.append_nil]
      cases action with
      | call t method =>
          obtain ⟨-, ⟨⟩⟩ := Option.ite_none_right_eq_some.mp hstep
          cases method <;> exact hsame rfl rfl
      | go t choice =>
          obtain ⟨⟨after, point⟩, hcode, ⟨⟩⟩ := Option.map_eq_some_iff.mp hstep
          rw [PriorityQueue.removed_append, ← ih]
          exact (code_traces hcode).2
      | finish t throws =>
          simp only [step] at hstep
          split at hstep <;> cases hstep
          exact hsame rfl rfl
      | wakeUp t =>
          cases hstep
          exact hsame rfl rfl

/-- In every run, with any threads inside `run()`, any posts, stops and executors, the
scheduler takes every posted item at most once and in the order of the priorities. -/
theorem posted_served (hrun : Emits step guard State.events (initial stopped) history state) :
    Serves history state := by
  have htraces : Traces (PriorityQueue.step Item.priority) 0 history state.waiting :=
    (refines_priorityQueue (initial stopped)).traces hrun
  have htaken := taken_of_emits hrun
  refine ⟨htaken, ?_, ?_, ?_⟩
  · have hbalance := PriorityQueue.balance htraces
    rw [Multiset.zero_add, ← htaken, State.waiting, Multiset.coe_add] at hbalance
    exact Multiset.coe_eq_coe.mp hbalance
  · rintro before item later rfl other hwaits
    exact PriorityQueue.removed_top htraces hwaits
  · rintro before between later rfl hadded
    obtain ⟨middle, -, hback⟩ := Traces.append_iff.mp htraces
    obtain ⟨last, hbetween, -⟩ := Traces.append_iff.mp hback
    exact (PriorityQueue.removed_sorted hbetween hadded).1

/-- Of two functions the one posted later, with the higher priority, is taken first. -/
theorem posted_served_high : ∃ (history : List (PriorityQueue.Event Item)) (state : State Nat),
    Serves history state ∧ state.scheduler.taken = [⟨2, 3⟩, ⟨0, 1⟩] := by
  obtain ⟨state, hrun, hobserved⟩ : ∃ state : State Nat,
      Reaches step (fun _ _ => True) (initial false) state ∧
        state.scheduler.taken = [⟨2, 3⟩, ⟨0, 1⟩] :=
    Reaches.of_observed (fun _ _ => true)
      (.call 0 (.post ⟨0, 1⟩) :: List.replicate 4 (.go 0 0) ++
        .call 0 (.post ⟨2, 3⟩) :: List.replicate 4 (.go 0 0) ++
        .call 0 .run :: List.replicate 4 (.go 0 0) ++ [.go 0 1, .go 0 0, .finish 0 false] ++
        List.replicate 5 (.go 0 0))
      (fun _ _ _ => trivial) (by decide +kernel)
  obtain ⟨history, hemits⟩ := hrun.emits State.events
  exact ⟨history, state, posted_served hemits, hobserved⟩

end ThreadPools.PriorityScheduler
