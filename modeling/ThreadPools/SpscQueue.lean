/-
# Counting through a queue of bounded capacity

A producer pushes its numbers into a queue for one producer and one consumer, and tries again
while the queue is full. The consumer pops until the queue is empty, again and again, until it
reads that the producer is done; then it empties the queue a last time. The main thread joins
the producer, sets `done`, joins the consumer and asserts that both have counted the same. The
queue does what is documented of `spsc_queue`: with one thread at either end `push` fails when
it is full, `pop` fails when it is empty, and the values come out in their order.
-/

import ThreadPools.Concurrency.Progress

namespace ThreadPools.SpscQueue

open ThreadPools.Concurrency

/-- The points of `producer`. -/
inductive ProducerPoint
  /-- at the condition of the loop -/
  | loop
  /-- before `spsc_queue.push(value)` -/
  | push
  | ended
  deriving DecidableEq

/-- The points of `consumer`. -/
inductive ConsumerPoint
  /-- at the test of `done` -/
  | loop
  /-- before `spsc_queue.pop(value)` in the loop -/
  | pop
  /-- before `spsc_queue.pop(value)` behind the loop -/
  | drain
  | ended
  deriving DecidableEq

/-- The points of `main`. -/
inductive MainPoint
  | joinProducer
  /-- before `done = true` -/
  | finish
  | joinConsumer
  /-- at the assertion -/
  | assert
  | ended
  deriving DecidableEq

inductive Party
  | producer
  | consumer
  | main
  deriving DecidableEq

/-- The global variables, the local variables of the producer, and where the threads are. -/
structure State where
  producerCount : Nat
  consumerCount : Nat
  /-- `spsc_queue`, the oldest value first -/
  queue : List Nat
  done : Bool
  i : Nat
  value : Nat
  producer : ProducerPoint
  consumer : ConsumerPoint
  main : MainPoint
  /-- what `pop` has returned -/
  popped : List Nat

/-- `pop` has succeeded, and the consumer counts. -/
def State.pop (state : State) (value : Nat) (rest : List Nat) : State :=
  { state with
    queue := rest
    consumerCount := state.consumerCount + 1
    popped := state.popped ++ [value] }

variable (capacity iterations : Nat)

/-- `producer` -/
def producer (state : State) : Option State :=
  match state.producer with
  | .loop =>
      if state.i = iterations then some { state with producer := .ended }
      else
        some { state with
          producerCount := state.producerCount + 1
          value := state.producerCount + 1
          producer := .push }
  | .push =>
      if state.queue.length < capacity then
        some { state with
          queue := state.queue ++ [state.value]
          i := state.i + 1
          producer := .loop }
      else some state
  | .ended => none

/-- `consumer` -/
def consumer (state : State) : Option State :=
  match state.consumer with
  | .loop => some { state with consumer := if state.done then .drain else .pop }
  | .pop =>
      match state.queue with
      | [] => some { state with consumer := .loop }
      | value :: rest => some (state.pop value rest)
  | .drain =>
      match state.queue with
      | [] => some { state with consumer := .ended }
      | value :: rest => some (state.pop value rest)
  | .ended => none

/-- `main`, behind the creation of the threads -/
def main (state : State) : Option State :=
  match state.main with
  | .joinProducer =>
      if state.producer = .ended then some { state with main := .finish } else none
  | .finish => some { state with done := true, main := .joinConsumer }
  | .joinConsumer =>
      if state.consumer = .ended then some { state with main := .assert } else none
  | .assert => some { state with main := .ended }
  | .ended => none

/-- One atomic step. -/
def step (state : State) : Party → Option State
  | .producer => producer capacity iterations state
  | .consumer => consumer state
  | .main => main state

def initial : State where
  producerCount := 0
  consumerCount := 0
  queue := []
  done := false
  i := 0
  value := 0
  producer := .loop
  consumer := .loop
  main := .joinProducer
  popped := []

variable {capacity iterations} {state next : State} {party : Party}

/-! ## What a step can be -/

inductive Steps (capacity iterations : Nat) (state : State) : Party → State → Prop
  | ends (hpoint : state.producer = .loop) (hall : state.i = iterations) :
      Steps capacity iterations state .producer { state with producer := .ended }
  | produces (hpoint : state.producer = .loop) (hmore : state.i ≠ iterations) :
      Steps capacity iterations state .producer
        { state with
          producerCount := state.producerCount + 1
          value := state.producerCount + 1
          producer := .push }
  | pushes (hpoint : state.producer = .push) (hroom : state.queue.length < capacity) :
      Steps capacity iterations state .producer
        { state with queue := state.queue ++ [state.value], i := state.i + 1, producer := .loop }
  /-- the producer has to try again -/
  | full (hpoint : state.producer = .push) (hfull : capacity ≤ state.queue.length) :
      Steps capacity iterations state .producer state
  | goesOn (hpoint : state.consumer = .loop) (hdone : state.done = false) :
      Steps capacity iterations state .consumer { state with consumer := .pop }
  | leaves (hpoint : state.consumer = .loop) (hdone : state.done = true) :
      Steps capacity iterations state .consumer { state with consumer := .drain }
  | pops (hpoint : state.consumer = .pop ∨ state.consumer = .drain) (value : Nat)
      (rest : List Nat) (hqueue : state.queue = value :: rest) :
      Steps capacity iterations state .consumer (state.pop value rest)
  | empty (hpoint : state.consumer = .pop) (hqueue : state.queue = []) :
      Steps capacity iterations state .consumer { state with consumer := .loop }
  | drained (hpoint : state.consumer = .drain) (hqueue : state.queue = []) :
      Steps capacity iterations state .consumer { state with consumer := .ended }
  | joinsProducer (hpoint : state.main = .joinProducer) (hended : state.producer = .ended) :
      Steps capacity iterations state .main { state with main := .finish }
  | finishes (hpoint : state.main = .finish) :
      Steps capacity iterations state .main { state with done := true, main := .joinConsumer }
  | joinsConsumer (hpoint : state.main = .joinConsumer) (hended : state.consumer = .ended) :
      Steps capacity iterations state .main { state with main := .assert }
  | asserts (hpoint : state.main = .assert) :
      Steps capacity iterations state .main { state with main := .ended }

theorem step_cases (hstep : step capacity iterations state party = some next) :
    Steps capacity iterations state party next := by
  cases party with
  | producer =>
      simp only [step, producer] at hstep
      cases hpoint : state.producer with
      | loop =>
          simp only [hpoint] at hstep
          split at hstep <;> cases hstep
          · exact .ends hpoint ‹_›
          · exact .produces hpoint ‹_›
      | push =>
          simp only [hpoint] at hstep
          split at hstep <;> cases hstep
          · exact .pushes hpoint ‹_›
          · exact .full hpoint (not_lt.mp ‹_›)
      | ended => simp [hpoint] at hstep
  | consumer =>
      simp only [step, consumer] at hstep
      cases hpoint : state.consumer with
      | loop =>
          simp only [hpoint] at hstep
          cases hstep
          split
          · exact .leaves hpoint ‹_›
          · exact .goesOn hpoint (Bool.eq_false_of_not_eq_true ‹_›)
      | pop =>
          simp only [hpoint] at hstep
          split at hstep <;> cases hstep
          · exact .empty hpoint ‹_›
          · exact .pops (.inl hpoint) _ _ ‹_›
      | drain =>
          simp only [hpoint] at hstep
          split at hstep <;> cases hstep
          · exact .drained hpoint ‹_›
          · exact .pops (.inr hpoint) _ _ ‹_›
      | ended => simp [hpoint] at hstep
  | main =>
      simp only [step, main] at hstep
      cases hpoint : state.main with
      | joinProducer =>
          simp only [hpoint] at hstep
          split at hstep <;> cases hstep
          exact .joinsProducer hpoint ‹_›
      | finish =>
          simp only [hpoint] at hstep
          cases hstep
          exact .finishes hpoint
      | joinConsumer =>
          simp only [hpoint] at hstep
          split at hstep <;> cases hstep
          exact .joinsConsumer hpoint ‹_›
      | assert =>
          simp only [hpoint] at hstep
          cases hstep
          exact .asserts hpoint
      | ended => simp [hpoint] at hstep

/-! ## Who has ended -/

/-- The consumer leaves its loop only behind the producer, and `main` goes on behind both. -/
structure Joined (state : State) : Prop where
  producer : state.main ≠ .joinProducer → state.producer = .ended
  isDone : state.done = true ↔ state.main ≠ .joinProducer ∧ state.main ≠ .finish
  leaving : state.consumer = .drain ∨ state.consumer = .ended → state.done = true
  consumer : state.main = .assert ∨ state.main = .ended → state.consumer = .ended

namespace Joined

theorem producer_of_done (h : Joined state) (hdone : state.done = true) :
    state.producer = .ended :=
  h.producer (h.isDone.mp hdone).1

theorem initial : Joined initial where
  producer h := absurd rfl h
  isDone := ⟨nofun, fun h => absurd rfl h.1⟩
  leaving := by rintro (h | h) <;> cases h
  consumer := by rintro (h | h) <;> cases h

theorem step (h : Joined state) (hsteps : Steps capacity iterations state party next) :
    Joined next := by
  have hconsumer : ∀ p, p ≠ .ended → state.consumer = p →
      ¬ (state.main = .assert ∨ state.main = .ended) :=
    fun _ hp hpoint hmain => hp (hpoint.symm.trans (h.consumer hmain))
  cases hsteps with
  | ends => exact ⟨fun _ => rfl, h.isDone, h.leaving, h.consumer⟩
  | produces hpoint | pushes hpoint =>
      refine ⟨fun hmain => ?_, h.isDone, h.leaving, h.consumer⟩
      cases hpoint.symm.trans (h.producer hmain)
  | full => exact h
  | goesOn hpoint | empty hpoint =>
      refine ⟨h.producer, h.isDone, (by rintro (h | h) <;> cases h), fun hmain => ?_⟩
      exact absurd hmain (hconsumer _ (by rintro ⟨⟩) hpoint)
  | leaves hpoint hdone =>
      refine ⟨h.producer, h.isDone, fun _ => hdone, fun hmain => ?_⟩
      exact absurd hmain (hconsumer _ (by rintro ⟨⟩) hpoint)
  | pops => exact ⟨h.producer, h.isDone, h.leaving, h.consumer⟩
  | drained hpoint =>
      exact ⟨h.producer, h.isDone, fun _ => h.leaving (.inl hpoint), fun _ => rfl⟩
  | joinsProducer hpoint hended =>
      refine ⟨fun _ => hended, ?_, h.leaving, by rintro (h | h) <;> cases h⟩
      simp [h.isDone, hpoint]
  | finishes hpoint =>
      refine ⟨fun _ => h.producer (by simp [hpoint]), by simp, fun _ => rfl, ?_⟩
      rintro (h | h) <;> cases h
  | joinsConsumer hpoint hended =>
      refine ⟨fun _ => h.producer (by simp [hpoint]), ?_, h.leaving, fun _ => hended⟩
      simp [h.isDone, hpoint]
  | asserts hpoint =>
      refine ⟨fun _ => h.producer (by simp [hpoint]), ?_, h.leaving, fun _ => ?_⟩
      · simp [h.isDone, hpoint]
      · exact h.consumer (.inl hpoint)

/-- No thread goes on behind the end of `main`. -/
theorem main_ne_ended (h : Joined state) (hsteps : Steps capacity iterations state party next) :
    state.main ≠ .ended := by
  intro hmain
  have hproducer : state.producer = .ended := h.producer (by simp [hmain])
  have hconsumer : state.consumer = .ended := h.consumer (.inr hmain)
  cases hsteps <;> simp_all

end Joined

/-! ## What has been counted -/

/-- The numbers the producer has pushed are those popped and those queued, in order. -/
structure Counted (capacity iterations : Nat) (state : State) : Prop where
  bounded : state.queue.length ≤ capacity
  order : state.popped ++ state.queue = (List.range state.i).map (· + 1)
  popped : state.consumerCount = state.popped.length
  near : state.i ≤ iterations
  loop : state.producer ≠ .push → state.producerCount = state.i
  push : state.producer = .push →
    state.i ≠ iterations ∧ state.producerCount = state.i + 1 ∧ state.value = state.i + 1
  ended : state.producer = .ended → state.i = iterations
  emptied : state.consumer = .ended → state.queue = []

namespace Counted

theorem initial : Counted capacity iterations initial where
  bounded := Nat.zero_le _
  order := rfl
  popped := rfl
  near := Nat.zero_le _
  loop _ := rfl
  push := nofun
  ended := nofun
  emptied := nofun

theorem step (h : Counted capacity iterations state) (hjoined : Joined state)
    (hsteps : Steps capacity iterations state party next) : Counted capacity iterations next := by
  cases hsteps with
  | ends hpoint hall =>
      exact ⟨h.bounded, h.order, h.popped, h.near, fun _ => h.loop (by simp [hpoint]),
        by rintro ⟨⟩, fun _ => hall, h.emptied⟩
  | produces hpoint hmore =>
      have hcount : state.producerCount + 1 = state.i + 1 :=
        congrArg (· + 1) (h.loop (by simp [hpoint]))
      exact ⟨h.bounded, h.order, h.popped, h.near, fun hnot => absurd rfl hnot,
        fun _ => ⟨hmore, hcount, hcount⟩, by rintro ⟨⟩, h.emptied⟩
  | pushes hpoint hroom =>
      obtain ⟨hmore, hcount, hvalue⟩ := h.push hpoint
      refine ⟨by simpa using Nat.succ_le_of_lt hroom, ?_, h.popped, lt_of_le_of_ne h.near hmore,
        fun _ => hcount, by rintro ⟨⟩, by rintro ⟨⟩, fun hended => ?_⟩
      · show state.popped ++ (state.queue ++ [state.value]) = (List.range (state.i + 1)).map (· + 1)
        rw [← List.append_assoc, h.order, hvalue, List.range_succ, List.map_append]
        rfl
      · -- the consumer has not ended, because the producer has not
        have hdone := hjoined.leaving (.inr hended)
        cases hpoint.symm.trans (hjoined.producer_of_done hdone)
  | full => exact h
  | goesOn | leaves | empty =>
      exact ⟨h.bounded, h.order, h.popped, h.near, h.loop, h.push, h.ended, by rintro ⟨⟩⟩
  | pops hpoint value rest hqueue =>
      refine ⟨?_, ?_, ?_, h.near, h.loop, h.push, h.ended, fun hended => ?_⟩
      · have hbounded := h.bounded
        rw [hqueue] at hbounded
        exact Nat.le_of_succ_le hbounded
      · show state.popped ++ [value] ++ rest = _
        rw [List.append_assoc, List.singleton_append, ← hqueue]
        exact h.order
      · simp [State.pop, h.popped]
      · rcases hpoint with hpoint | hpoint <;> cases hpoint.symm.trans hended
  | drained _ hqueue =>
      exact ⟨h.bounded, h.order, h.popped, h.near, h.loop, h.push, h.ended, fun _ => hqueue⟩
  | joinsProducer | finishes | joinsConsumer | asserts =>
      exact ⟨h.bounded, h.order, h.popped, h.near, h.loop, h.push, h.ended, h.emptied⟩

end Counted

section

variable {guard : State → Party → Prop}

theorem joined_of_reaches (hrun : Reaches (step capacity iterations) guard initial state) :
    Joined state :=
  hrun.invariant .initial fun _ _ _ h _ hstep => h.step (step_cases hstep)

theorem counted_of_reaches (hrun : Reaches (step capacity iterations) guard initial state) :
    Counted capacity iterations state :=
  hrun.invariant_of Joined (fun _ => joined_of_reaches) .initial
    fun _ _ _ hjoined h _ hstep => h.step hjoined (step_cases hstep)

/-- In every run the consumer pops the numbers in the order of their production, each one once,
and at the assertion both threads have counted all of them. -/
theorem counts_agree (hrun : Reaches (step capacity iterations) guard initial state) :
    state.queue.length ≤ capacity ∧
      state.popped ++ state.queue = (List.range state.i).map (· + 1) ∧
      (state.main = .assert → state.producerCount = state.consumerCount ∧
        state.popped = (List.range iterations).map (· + 1)) := by
  have hjoined := joined_of_reaches hrun
  have hcounted := counted_of_reaches hrun
  refine ⟨hcounted.bounded, hcounted.order, fun hmain => ?_⟩
  have hproducer : state.producer = .ended := hjoined.producer (by simp [hmain])
  have hpopped : state.popped = (List.range iterations).map (· + 1) := by
    have horder := hcounted.order
    rwa [hcounted.emptied (hjoined.consumer (.inl hmain)), List.append_nil,
      hcounted.ended hproducer] at horder
  refine ⟨?_, hpopped⟩
  rw [hcounted.loop (by simp [hproducer]), hcounted.ended hproducer, hcounted.popped, hpopped]
  simp

end

/-- The producer finds the queue full, and the consumer leaves its loop with a number queued. -/
theorem counts_agree_two : ∃ state : State, state.main = .assert ∧
    state.producerCount = state.consumerCount ∧ state.popped = [1, 2] := by
  obtain ⟨state, hrun, hmain⟩ : ∃ state : State,
      Reaches (step 1 2) (fun _ _ => True) initial state ∧ state.main = .assert :=
    Reaches.of_observed (fun _ _ => true)
      (List.replicate 4 .producer ++ List.replicate 3 .consumer ++ List.replicate 2 .producer ++
        List.replicate 2 .main ++ List.replicate 3 .consumer ++ [.main])
      (fun _ _ _ => trivial) (by decide +kernel)
  exact ⟨state, hmain, (counts_agree hrun).2.2 hmain⟩

/-! ## What is left to do -/

def ProducerPoint.weight (left : Nat) : ProducerPoint → Nat
  | .loop => 5 * left + 1
  | .push => 5 * left
  | .ended => 0

/-- While there is nothing to pop, the rounds of the loop cost nothing. -/
def ConsumerPoint.weight (done empty : Bool) : ConsumerPoint → Nat
  | .loop => if done then 2 else if empty then 4 else 5
  | .pop => if done then 3 else 4
  | .drain => 1
  | .ended => 0

theorem ConsumerPoint.weight_le (p : ConsumerPoint) (done empty empty' : Bool) :
    p.weight done empty' ≤ p.weight done empty + 1 := by
  cases p <;> cases done <;> cases empty <;> cases empty' <;> decide

theorem ConsumerPoint.weight_done_le (p : ConsumerPoint) (empty : Bool) :
    p.weight true empty ≤ p.weight false empty := by
  cases p <;> cases empty <;> decide

def MainPoint.weight : MainPoint → Nat
  | .joinProducer => 4
  | .finish => 3
  | .joinConsumer => 2
  | .assert => 1
  | .ended => 0

namespace State

def weight (iterations : Nat) (state : State) : Nat :=
  state.producer.weight (iterations - state.i) + 2 * state.queue.length +
    state.consumer.weight state.done state.queue.isEmpty + state.main.weight

/-- The thread on which the others depend. -/
def urgent (capacity : Nat) (state : State) : Party :=
  match state.producer with
  | .loop => .producer
  | .push => if state.queue.length < capacity then .producer else .consumer
  | .ended =>
      match state.main with
      | .joinConsumer => if state.consumer = .ended then .main else .consumer
      | _ => .main

theorem exists_consumer (h : state.consumer ≠ .ended) :
    ∃ next, step capacity iterations state .consumer = some next := by
  cases hpoint : state.consumer with
  | loop => exact ⟨_, by simp only [step, SpscQueue.consumer, hpoint]; rfl⟩
  | pop | drain =>
      simp only [step, SpscQueue.consumer, hpoint]
      split <;> exact ⟨_, rfl⟩
  | ended => exact absurd hpoint h

/-- Until `main` has ended, the urgent thread can go on. -/
theorem exists_urgent (h : Joined state) (hmain : state.main ≠ .ended) :
    ∃ next, step capacity iterations state (state.urgent capacity) = some next := by
  unfold urgent
  cases hproducer : state.producer with
  | loop =>
      simp only [step, SpscQueue.producer, hproducer]
      split <;> exact ⟨_, rfl⟩
  | push =>
      dsimp only
      split
      · simp only [step, SpscQueue.producer, hproducer]
        split <;> exact ⟨_, rfl⟩
      · exact exists_consumer fun hended => by
          cases hproducer.symm.trans (h.producer_of_done (h.leaving (.inr hended)))
  | ended =>
      cases hpoint : state.main with
      | joinProducer => exact ⟨_, by simp only [step, SpscQueue.main, hpoint, hproducer]; rfl⟩
      | finish => exact ⟨_, by simp only [step, SpscQueue.main, hpoint]; rfl⟩
      | joinConsumer =>
          dsimp only
          split
          · exact ⟨_, by simp only [step, SpscQueue.main, hpoint, if_pos ‹_›]; rfl⟩
          · exact exists_consumer ‹_›
      | assert => exact ⟨_, by simp only [step, SpscQueue.main, hpoint]; rfl⟩
      | ended => exact absurd hpoint hmain

theorem urgent_eq_of_not_done (h : Joined state) (hdone : state.done = false)
    (hqueue : state.queue = []) (hcapacity : 0 < capacity) (p : ConsumerPoint) :
    state.urgent capacity ≠ .consumer ∧
      { state with consumer := p }.urgent capacity = state.urgent capacity := by
  have hmain : state.main ≠ .joinConsumer := fun hpoint => by
    cases hdone.symm.trans (h.isDone.mpr (by simp [hpoint]))
  unfold urgent
  cases hproducer : state.producer with
  | loop => simp
  | push => simp [hqueue, hcapacity]
  | ended => cases hpoint : state.main <;> simp_all

/-- A step comes nearer to the end, or it is one that repeats itself while another thread is
urgent. -/
theorem weight_step (hcapacity : 0 < capacity) (hjoined : Joined state)
    (hcounted : Counted capacity iterations state)
    (hsteps : Steps capacity iterations state party next) :
    next.weight iterations < state.weight iterations ∨
      next.weight iterations = state.weight iterations ∧ party ≠ state.urgent capacity ∧
        next.urgent capacity = state.urgent capacity := by
  cases hsteps with
  | ends hpoint => exact .inl (by simp [weight, hpoint, ProducerPoint.weight])
  | produces hpoint => exact .inl (by simp [weight, hpoint, ProducerPoint.weight])
  | pushes hpoint =>
      obtain ⟨hmore, -⟩ := hcounted.push hpoint
      have hnear := hcounted.near
      have hempty := state.consumer.weight_le state.done state.queue.isEmpty
        (state.queue ++ [state.value]).isEmpty
      refine .inl ?_
      simp only [weight, hpoint, ProducerPoint.weight, List.length_append, List.length_singleton]
      omega
  | full hpoint hfull =>
      refine .inr ⟨rfl, ?_, rfl⟩
      simp [urgent, hpoint, not_lt.mpr hfull]
  | goesOn hpoint hdone =>
      by_cases hqueue : state.queue = []
      · have hurgent := urgent_eq_of_not_done hjoined hdone hqueue hcapacity .pop
        refine .inr ⟨?_, hurgent.1.symm, hurgent.2⟩
        simp [weight, hpoint, hdone, hqueue, ConsumerPoint.weight]
      · exact .inl (by simp [weight, hpoint, hdone, hqueue, ConsumerPoint.weight])
  | leaves hpoint hdone => exact .inl (by simp [weight, hpoint, hdone, ConsumerPoint.weight])
  | pops hpoint value rest hqueue =>
      have hsame : state.consumer.weight state.done rest.isEmpty =
          state.consumer.weight state.done state.queue.isEmpty := by
        rcases hpoint with hpoint | hpoint <;> rw [hpoint] <;> rfl
      refine .inl ?_
      simp only [weight, State.pop, hsame]
      simp only [hqueue, List.length_cons]
      omega
  | empty hpoint hqueue =>
      cases hdone : state.done with
      | false =>
          have hurgent := urgent_eq_of_not_done hjoined hdone hqueue hcapacity .loop
          refine .inr ⟨?_, hurgent.1.symm, hurgent.2⟩
          simp [weight, hpoint, hdone, hqueue, ConsumerPoint.weight]
      | true => exact .inl (by simp [weight, hpoint, hdone, ConsumerPoint.weight])
  | drained hpoint => exact .inl (by simp [weight, hpoint, ConsumerPoint.weight])
  | joinsProducer hpoint | joinsConsumer hpoint | asserts hpoint =>
      exact .inl (by simp [weight, hpoint, MainPoint.weight])
  | finishes hpoint =>
      have hdone : state.done = false := by
        cases hdone : state.done with
        | false => rfl
        | true => exact absurd hpoint (hjoined.isDone.mp hdone).2
      have hless := state.consumer.weight_done_le state.queue.isEmpty
      refine .inl ?_
      simp only [weight, hpoint, hdone, MainPoint.weight]
      omega

end State

/-- Until `main` has ended some thread can go on, and a run goes on forever only by putting off a
thread that could go on all the time: every fair run ends. -/
theorem fair_runs_end (hcapacity : 0 < capacity) :
    (∀ state, Reaches (step capacity iterations) (fun _ _ => True) initial state →
      state.main ≠ .ended → ∃ party next, step capacity iterations state party = some next) ∧
    ∀ run : Endless (step capacity iterations) initial, ∃ party bound, ∀ n, bound ≤ n →
      (∃ next, step capacity iterations (run.state n) party = some next) ∧
        run.action n ≠ party := by
  refine ⟨fun state hrun hmain => ⟨_, State.exists_urgent (joined_of_reaches hrun) hmain⟩,
    fun run => ?_⟩
  have hreaches : ∀ n, Reaches (step capacity iterations) (fun _ _ => True) initial (run.state n) :=
    run.reaches fun _ => trivial
  obtain ⟨bound, hbound⟩ := run.puts_off (State.weight iterations) (State.urgent capacity)
    fun n => State.weight_step hcapacity (joined_of_reaches (hreaches n))
      (counted_of_reaches (hreaches n)) (step_cases (run.next n))
  refine ⟨(run.state bound).urgent capacity, bound, fun n hle => ⟨?_, (hbound n hle).2⟩⟩
  have hjoined := joined_of_reaches (hreaches n)
  rw [← (hbound n hle).1]
  exact State.exists_urgent hjoined (hjoined.main_ne_ended (step_cases (run.next n)))

/-- The consumer polls the empty queue forever, while the producer could go on. -/
theorem fair_runs_end_polling : ∃ run : Endless (step 1 2) initial,
    (∀ n, run.action n = .consumer) ∧ ∃ party bound, ∀ n, bound ≤ n →
      (∃ next, step 1 2 (run.state n) party = some next) ∧ run.action n ≠ party := by
  let polls (n : Nat) : State := { initial with consumer := if n % 2 = 0 then .loop else .pop }
  have hnext : ∀ n, step 1 2 (polls n) .consumer = some (polls (n + 1)) := by
    intro n
    rcases Nat.mod_two_eq_zero_or_one n with h | h
    · have hodd : (n + 1) % 2 = 1 := by omega
      simp [polls, step, consumer, initial, h, hodd]
    · have heven : (n + 1) % 2 = 0 := by omega
      simp [polls, step, consumer, initial, h, heven]
  exact ⟨⟨polls, fun _ => .consumer, rfl, hnext⟩, fun _ => rfl, (fair_runs_end Nat.one_pos).2 _⟩

end ThreadPools.SpscQueue
