/-
# The order in which alarms are handled

The alarm thread holds the alarm it waits for outside of the list. That alarm is the
earliest one as long as `current_alarm` is not earlier, which two races can break: a
timed wait may report its timeout although an earlier alarm has been inserted and the
thread has been notified, and an alarm at time `ZERO` makes the busy thread look idle.
-/

import ThreadPools.AlarmCond.Fate

namespace ThreadPools.AlarmCond

open ThreadPools.Memory ThreadPools.Concurrency

/-- The alarm thread is in the loop around the timed wait. -/
def AlarmPoint.waits : AlarmPoint → Bool
  | .test _ _ | .waiting _ _ _ => true
  | _ => false

/-- The alarm `main` is about to insert. -/
def State.inserting (state : State) : Option Alarm :=
  match state.main with
  | .insert a => (state.shared.stamp a).bind fun stamped => stamped.alarm a
  | _ => none

/-- While the alarm thread waits for a time behind `ZERO` and `current_alarm` is `ZERO`,
`main` inserts earlier alarms only. -/
def KeepsMark (state : State) (action : Action) : Prop :=
  match action with
  | .main =>
      state.alarmThread.waits = true → state.shared.currentAlarm = ZERO →
        ∀ held ∈ state.held, ZERO < held.time → ∀ new ∈ state.inserting, new.time < held.time
  | _ => True

/-- A timed wait times out only while `current_alarm` is not earlier than the awaited
alarm. -/
def TimesOutFirst (state : State) (action : Action) : Prop :=
  match action, state.alarmThread with
  | .alarmThread true, .waiting _ _ _ =>
      ∀ held ∈ state.held, held.time ≤ state.shared.currentAlarm
  | _, _ => True

instance (state : State) (action : Action) : Decidable (KeepsMark state action) := by
  cases action <;> simp only [KeepsMark] <;> infer_instance

instance (state : State) (action : Action) : Decidable (TimesOutFirst state action) := by
  unfold TimesOutFirst
  split <;> infer_instance

/-- While `current_alarm` is not earlier than the awaited alarm, no alarm of the list is. -/
def Earliest (state : State) : Prop :=
  ∀ entries, state.shared.alarmList.Lists entries → state.alarmThread.waits = true →
    ∀ held ∈ state.held, held.time ≤ state.shared.currentAlarm →
      ∀ e ∈ entries, held.time ≤ e.2.time

variable {state after : State} {next : Shared} {a : Address} {entries : List (Entry Alarm)}
  {action : Action} {point : AlarmPoint}

theorem Earliest.congr (h : Earliest state)
    (hlist : after.shared.alarmList = state.shared.alarmList)
    (hcurrent : after.shared.currentAlarm = state.shared.currentAlarm)
    (hwaits : after.alarmThread.waits = true → state.alarmThread.waits = true)
    (hheld : after.alarmThread.waits = true → after.alarmThread.held = state.alarmThread.held) :
    Earliest after := by
  intro entries hlists hpoint held hmem hle
  refine h entries (hlist ▸ hlists) (hwaits hpoint) held ?_ (hcurrent ▸ hle)
  have hsame : after.held = state.held := by
    have halarm : after.shared.alarm = state.shared.alarm := by
      funext b
      rw [Shared.alarm, hlist]
      rfl
    simp only [State.held, hheld hpoint, halarm]
  exact hsame ▸ hmem

/-- An insertion that leaves `current_alarm` at or behind the awaited time is not
earlier, and neither was anything before. -/
theorem Earliest.insert (h : Earliest state) (hkept : Kept state entries)
    (hguard : KeepsMark state .main) (hmain : state.main = .insert a) {stamped : Shared}
    {last : Time} (hstamp : state.shared.stamp a = some stamped)
    (hinsert : alarmInsert a stamped = some (next, last)) :
    Earliest { state with shared := next, main := .prompt, last := last } := by
  obtain ⟨new, front, back, result, _, rfl, hnew, hresult, hinserted, htidy⟩ :=
    hkept.tidy.insert hmain hstamp
  cases hinsert.symm.trans hresult
  obtain ⟨-, -, -, -, hstamped, -⟩ := Shared.stamp_spec hstamp
  have hcurrent : stamped.currentAlarm = state.shared.currentAlarm := by rw [hstamped]
  intro entries hlists hwaits held hmem hle
  rw [hkept.tidy.held_insert hmain hstamp hinsert] at hmem
  obtain rfl := htidy.ordered.lists.unique hlists
  have hinserting : state.inserting = some new := by
    simp only [State.inserting, hmain, hstamp]
    exact hnew
  change held.time ≤ next.currentAlarm at hle
  rw [hinserted.currentAlarm] at hle
  -- nothing earlier before, and the new alarm is not earlier
  obtain ⟨hbefore, hlater⟩ : held.time ≤ state.shared.currentAlarm ∧ held.time ≤ new.time := by
    split at hle
    · next hwakes =>
        refine ⟨?_, hle⟩
        rcases hwakes with hzero | hearlier
        · rw [hcurrent] at hzero
          rw [hzero]
          by_contra hpositive
          have hmark := hguard hwaits hzero held hmem (not_le.mp hpositive) new hinserting
          exact absurd hle (not_le.mpr hmark)
        · exact hcurrent ▸ le_trans hle (le_of_lt hearlier)
    · next hwakes =>
        refine ⟨hcurrent ▸ hle, ?_⟩
        simp only [Shared.Wakes, not_or, not_lt] at hwakes
        exact le_trans hle hwakes.2
  intro e he
  have hold := h _ hkept.tidy.ordered.lists hwaits held hmem hbefore
  rcases List.mem_append.mp he with he | he
  · exact hold e (List.mem_append_left _ he)
  · rcases List.mem_cons.mp he with rfl | he
    · exact hlater
    · exact hold e (List.mem_append_right _ he)

theorem Earliest.moves (h : Earliest state) (hkept : Kept state entries)
    (hmoves : Moves state.shared state.alarmThread next point) :
    Earliest { state with shared := next, alarmThread := point } := by
  generalize hpoint : state.alarmThread = source at hmoves
  cases hmoves with
  | pop b cell next point hhead hcell hpop =>
      rcases hpop with ⟨hfuture, rfl, rfl⟩ | ⟨-, rfl, rfl⟩
      · intro rest hlists _ held hmem _ e he
        obtain ⟨rest', rfl, hordered⟩ := hkept.tidy.ordered.popTo hhead hcell
        obtain rfl := hordered.lists.unique hlists
        have hheld : some cell.value = some held :=
          (Shared.alarm_eq_some.mpr ⟨cell.link, hcell⟩).symm.trans hmem
        cases hheld
        exact (List.pairwise_cons.mp hkept.tidy.ordered.sorted).1 e he
      · exact fun _ _ hwaits => absurd hwaits nofun
  | wait | woken =>
      exact h.congr rfl rfl (fun _ => by rw [hpoint]; rfl) fun _ => by rw [hpoint]; rfl
  | _ => exact fun _ _ hwaits => absurd hwaits nofun

theorem Earliest.step (h : Earliest state) (hkept : Kept state entries)
    (hguard : KeepsMark state action) (hstep : Steps state action after) : Earliest after := by
  cases hstep with
  | alarmThread timeout shared point _ hmoves => exact h.moves hkept hmoves
  | tick | wakeUp | eof | stop | join => exact h.congr rfl rfl id fun _ => rfl
  | line seconds message a hmain hfree =>
      intro entries' hlists hwaits held hmem hle
      obtain rfl := (hkept.tidy.allocate hfree seconds message).ordered.lists.unique hlists
      rw [hkept.tidy.held_allocate hfree seconds message] at hmem
      exact h _ hkept.tidy.ordered.lists hwaits held hmem hle
  | insert a stamped shared last hmain houtside hstamp hinsert =>
      exact h.insert hkept hguard hmain hstamp hinsert

variable {guard : State → Action → Prop} {now : Time}

theorem earliest_of_reaches (hmark : ∀ state action, guard state action → KeepsMark state action)
    (hrun : Reaches step guard (initial now) state) : Earliest state := by
  induction hrun with
  | refl => exact fun _ _ hwaits => absurd hwaits nofun
  | tail action hprior hguard hstep ih =>
      obtain ⟨entries, hkept⟩ := kept_of_reaches hprior
      exact ih.step hkept (hmark _ _ hguard) (step_cases hstep)

/-! ## The fate of every alarm -/

/-- Until `enabled` is cleared: every inserted alarm is in the list, held or handled;
none is handled twice or before its time; the alarm thread sleeps only while the list
is empty, and waits only for the earliest alarm, whose time is in `current_alarm`. -/
structure Reliable (state : State) (entries : List (Entry Alarm)) : Prop where
  lists : state.shared.alarmList.Lists entries
  serials : (state.serials entries).Perm (List.range state.shared.inserted)
  once : (state.shared.handled.map fun h => h.1.serial).Nodup
  punctual : ∀ h ∈ state.shared.handled, h.1.time ≤ h.2
  sleeping : state.alarmThread = .sleeping → state.shared.asleep = true →
    state.shared.alarmList.head = none
  waiting : ∀ a timeleft deadline, state.alarmThread = .waiting a timeleft deadline →
    state.shared.asleep = true → ∃ held, state.held = some held ∧
      held.time = state.shared.currentAlarm ∧ ∀ e ∈ entries, held.time ≤ e.2.time

/-- In every run in which `main` does not insert an alarm at or behind the awaited time
while `current_alarm` marks the waiting alarm thread as idle, alarms are reliable. -/
theorem alarms_reliable (hmark : ∀ state action, guard state action → KeepsMark state action)
    (hrun : Reaches step guard (initial now) state) (henabled : state.shared.enabled = true) :
    ∃ entries, Reliable state entries := by
  obtain ⟨entries, hkept⟩ := kept_of_reaches hrun
  have hserials := hkept.serials henabled
  refine ⟨entries, hkept.tidy.ordered.lists, hserials, ?_, hkept.punctual, fun hpoint hasleep => ?_,
    fun a timeleft deadline hpoint hasleep => ?_⟩
  · have hnodup := hserials.nodup_iff.mpr List.nodup_range
    exact (List.nodup_append.mp hnodup).2.1
  · have hcalm := hkept.asleep hasleep
    simp only [State.Calm, hpoint] at hcalm
    exact hkept.tidy.ordered.lists.head_eq_none.mpr hcalm
  · have hcalm := hkept.asleep hasleep
    simp only [State.Calm, hpoint] at hcalm
    obtain ⟨held, halarm⟩ := hkept.tidy.held a (by rw [hpoint]; rfl)
    have hheld : state.held = some held := State.held_of_point (by rw [hpoint]; rfl) halarm
    have hcurrent := hcalm held hheld
    exact ⟨held, hheld, hcurrent, earliest_of_reaches hmark hrun entries
      hkept.tidy.ordered.lists (by rw [hpoint]; rfl) held hheld (le_of_eq hcurrent)⟩

/-- The alarm thread waits for the first alarm, and a later one is in the list. -/
theorem alarms_reliable_waiting : ∃ state entries,
    state.alarmThread = .waiting 1 (seconds 5) (seconds 15) ∧ state.shared.inserted = 2 ∧
      Reliable state entries := by
  obtain ⟨state, hrun, hobserved⟩ : ∃ state : State,
      Reaches step KeepsMark (initial (seconds 10)) state ∧
        (state.alarmThread, state.shared.inserted, state.shared.enabled) =
        (.waiting 1 (seconds 5) (seconds 15), 2, true) :=
    Reaches.of_observed (fun state action => decide (KeepsMark state action))
      (.line 5 "first" 1 :: .main :: List.replicate 5 (.alarmThread false) ++
        [.line 7 "second" 2, .main])
      (fun _ _ => of_decide_eq_true) (by decide +kernel)
  simp only [Prod.mk.injEq] at hobserved
  obtain ⟨hpoint, hinserted, henabled⟩ := hobserved
  obtain ⟨entries, hreliable⟩ := alarms_reliable (fun _ _ h => h) hrun henabled
  exact ⟨state, entries, hpoint, hinserted, hreliable⟩

/-- What is wrong when an alarm in front of the list is earlier than the awaited one. -/
theorem Reliable.head_not_earlier {held first : Alarm} (h : Reliable state entries)
    {timeleft deadline : Time} (hpoint : state.alarmThread = .waiting a timeleft deadline)
    (hasleep : state.shared.asleep = true) (hheld : state.shared.alarm a = some held)
    {b : Address} (hhead : state.shared.alarmList.head = some b)
    (hfirst : state.shared.alarm b = some first) : held.time ≤ first.time := by
  obtain ⟨other, hother, -, hall⟩ := h.waiting a timeleft deadline hpoint hasleep
  have hsame : state.held = some held := State.held_of_point (by rw [hpoint]; rfl) hheld
  cases hsame.symm.trans hother
  obtain ⟨value, hmem⟩ := h.lists.mem_of_head hhead
  obtain ⟨link, hcell⟩ := h.lists.lookup hmem
  cases hfirst.symm.trans (Shared.alarm_eq_some.mpr ⟨link, hcell⟩)
  exact hall _ hmem

/-- An alarm at time `ZERO` and one at the awaited time are inserted before the alarm
thread goes on: it waits again, while the alarm at `ZERO` is in the list. -/
theorem waits_behind_zero : ∃ state : State,
    Reaches step (fun _ _ => True) (initial (seconds 10)) state ∧
      state.shared.enabled = true ∧ ¬ ∃ entries, Reliable state entries := by
  obtain ⟨state, hrun, hobserved⟩ : ∃ state : State,
      Reaches step (fun _ _ => True) (initial (seconds 10)) state ∧
        (state.alarmThread, (state.shared.asleep, state.shared.enabled),
          state.shared.alarmList.head,
          [1, 2].map fun a => (state.shared.alarm a).map Alarm.time) =
        (.waiting 1 (seconds 5) (seconds 15), (true, true), some 2,
          [some (seconds 15), some ZERO]) :=
    Reaches.of_observed (fun _ _ => true)
      (.line 5 "awaited" 1 :: .main :: List.replicate 5 (.alarmThread false) ++
        .line (-10) "at zero" 2 :: .main :: .line 5 "at the same time" 3 :: .main ::
        List.replicate 2 (.alarmThread false))
      (fun _ _ _ => trivial) (by decide +kernel)
  simp only [Prod.mk.injEq, List.map_cons, List.cons.injEq, Option.map_eq_some_iff] at hobserved
  obtain ⟨hpoint, ⟨hasleep, henabled⟩, hhead, ⟨held, hheld, hlate⟩, ⟨first, hfirst, hearly⟩, -⟩ :=
    hobserved
  refine ⟨state, hrun, henabled, fun ⟨entries, hreliable⟩ => ?_⟩
  have hle := hreliable.head_not_earlier hpoint hasleep hheld hhead hfirst
  rw [hlate, hearly] at hle
  exact absurd hle (by decide)

/-! ## The order of handling -/

/-- The alarm about to be handled is not later than any alarm of the list. -/
def HandlesFirst (state : State) : Prop :=
  ∀ a, state.alarmThread = .handle a → ∃ alarm entries, state.shared.alarm a = some alarm ∧
    state.shared.alarmList.Lists entries ∧ ∀ e ∈ entries, alarm.time ≤ e.2.time

theorem HandlesFirst.moves (hkept : Kept state entries) (hearliest : Earliest state)
    {timeout : Bool} (hguard : TimesOutFirst state (.alarmThread timeout))
    (hthread : alarmThread timeout state.alarmThread state.shared = some (next, point)) :
    HandlesFirst { state with shared := next, alarmThread := point } := by
  have hmoves := alarmThread_moves hthread
  generalize hpoint : state.alarmThread = source at hmoves hthread
  intro b hhandles
  cases hmoves with
  | pop a cell next point hhead hcell hpop =>
      rcases hpop with ⟨-, rfl, rfl⟩ | ⟨-, rfl, rfl⟩
      · cases hhandles
      · cases hhandles
        obtain ⟨rest, rfl, hordered⟩ := hkept.tidy.ordered.popTo hhead hcell
        exact ⟨cell.value, rest, Shared.alarm_eq_some.mpr ⟨cell.link, hcell⟩, hordered.lists,
          (List.pairwise_cons.mp hkept.tidy.ordered.sorted).1⟩
  | expired a timeleft deadline hawake hdeadline henabled =>
      cases hhandles
      obtain ⟨held, halarm⟩ := hkept.tidy.held b (by rw [hpoint]; rfl)
      have hheld : state.held = some held := State.held_of_point (by rw [hpoint]; rfl) halarm
      obtain rfl : timeout = true := by
        cases timeout with
        | true => rfl
        | false => simp [alarmThread, hawake] at hthread
      simp only [TimesOutFirst, hpoint] at hguard
      exact ⟨held, entries, halarm, hkept.tidy.ordered.lists,
        hearliest entries hkept.tidy.ordered.lists (by rw [hpoint]; rfl) held hheld
          (hguard held hheld)⟩
  | _ => cases hhandles

/-- Nobody disturbs the alarm thread in front of its output. -/
theorem HandlesFirst.step (h : HandlesFirst state) (hkept : Kept state entries)
    (hearliest : Earliest state) (hguard : TimesOutFirst state action)
    (hstep : Steps state action after) : HandlesFirst after := by
  cases hstep with
  | alarmThread timeout shared point hthread _ => exact .moves hkept hearliest hguard hthread
  | tick | wakeUp | eof | stop | join => exact h
  | line seconds message a hmain hfree =>
      intro b hhandles
      obtain ⟨alarm, entries', halarm, hlists, hfirst⟩ := h b hhandles
      obtain rfl := hkept.tidy.ordered.lists.unique hlists
      refine ⟨alarm, entries, (Shared.alarm_allocate_of_ne ?_ seconds message).trans halarm,
        (hkept.tidy.allocate hfree seconds message).ordered.lists, hfirst⟩
      rintro rfl
      cases halarm.symm.trans hfree
  | insert a stamped shared last hmain houtside =>
      intro b hhandles
      change state.alarmThread = .handle b at hhandles
      rw [hhandles] at houtside
      cases houtside

/-- In every run in which, besides, a timed wait times out only while `current_alarm` is
not earlier than the awaited alarm, alarms are handled in the order of their times. -/
theorem handled_in_order (hmark : ∀ state action, guard state action → KeepsMark state action)
    (htimeout : ∀ state action, guard state action → TimesOutFirst state action)
    (hrun : Reaches step guard (initial now) state) : HandlesFirst state := by
  induction hrun with
  | refl => exact nofun
  | tail action hprior hguard hstep ih =>
      obtain ⟨entries, hkept⟩ := kept_of_reaches hprior
      exact ih.step hkept (earliest_of_reaches hmark hprior) (htimeout _ _ hguard)
        (step_cases hstep)

/-- An earlier alarm is inserted while the alarm thread waits, and handled first. -/
theorem handled_in_order_earlier : ∃ state : State,
    state.alarmThread = .handle 2 ∧ HandlesFirst state := by
  obtain ⟨state, hrun, hobserved⟩ : ∃ state : State,
      Reaches step (fun state action => KeepsMark state action ∧ TimesOutFirst state action)
        (initial (seconds 10)) state ∧ state.alarmThread = .handle 2 :=
    Reaches.of_observed
      (fun state action => decide (KeepsMark state action ∧ TimesOutFirst state action))
      (.line 10 "later" 1 :: .main :: List.replicate 5 (.alarmThread false) ++
        .line 2 "earlier" 2 :: .main :: List.replicate 8 (.alarmThread false) ++
        [.tick 2000000000, .wakeUp, .alarmThread true])
      (fun _ _ => of_decide_eq_true) (by decide +kernel)
  exact ⟨state, hobserved, handled_in_order (fun _ _ h => h.1) (fun _ _ h => h.2) hrun⟩

/-- An earlier alarm is inserted and the alarm thread is notified, but it gets hold of the
mutex only when its wait has timed out as well: it handles the later alarm first. -/
theorem handled_out_of_order : ∃ state : State,
    Reaches step (fun _ _ => True) (initial (seconds 10)) state ∧ ¬ HandlesFirst state := by
  obtain ⟨state, hrun, hobserved⟩ : ∃ state : State,
      Reaches step (fun _ _ => True) (initial (seconds 10)) state ∧
        (state.alarmThread, state.shared.alarmList.head,
          [1, 2].map fun a => (state.shared.alarm a).map Alarm.time) =
        (.handle 1, some 2, [some (seconds 20), some (seconds 17)]) :=
    Reaches.of_observed (fun _ _ => true)
      (.line 10 "later" 1 :: .main :: List.replicate 5 (.alarmThread false) ++
        [.tick 5000000000, .line 2 "earlier" 2, .main, .tick 5000000000, .alarmThread true])
      (fun _ _ _ => trivial) (by decide +kernel)
  simp only [Prod.mk.injEq, List.map_cons, List.cons.injEq, Option.map_eq_some_iff] at hobserved
  obtain ⟨hpoint, hhead, ⟨held, hheld, hlate⟩, ⟨first, hfirst, hearly⟩, -⟩ := hobserved
  refine ⟨state, hrun, fun h => ?_⟩
  obtain ⟨alarm, entries, halarm, hlists, hall⟩ := h 1 hpoint
  obtain ⟨value, hmem⟩ := hlists.mem_of_head hhead
  obtain ⟨link, hcell⟩ := hlists.lookup hmem
  cases hheld.symm.trans halarm
  cases hfirst.symm.trans (Shared.alarm_eq_some.mpr ⟨link, hcell⟩)
  have hle := hall _ hmem
  rw [hlate, hearly] at hle
  exact absurd hle (by decide)

end ThreadPools.AlarmCond
