/-
# The time `main` waits for

`alarm_insert` returns the time of the last alarm of the list, and `main` keeps the result
of its latest call in `last`, until which it sleeps under `--wait`. The alarm the alarm
thread waits for is not in the list. So `last` is the latest time of all pending alarms
as long as that alarm is not later than all alarms of the list at an insertion.

Nothing makes `main` wait for the alarm thread. Even then the alarms that are due at `last`
are handled only if the alarm thread gets the mutex before `main` does.
-/

import ThreadPools.AlarmCond.Order

namespace ThreadPools.AlarmCond

open ThreadPools.Memory ThreadPools.Concurrency

/-- An alarm that has been inserted and not handled: it is in the list, or held by the
alarm thread. -/
def State.Pending (state : State) (alarm : Alarm) : Prop :=
  (∃ entries, state.shared.alarmList.Lists entries ∧ ∃ e ∈ entries, e.2 = alarm) ∨
    state.held = some alarm

/-- The time `main` waits for is not earlier than the time of any pending alarm. -/
def State.Covers (state : State) : Prop :=
  ∀ alarm, state.Pending alarm → alarm.time ≤ state.last

/-- No alarm has been cut off: when `enabled` is cleared, every inserted alarm has been
handled. -/
def State.NoneCutOff (state : State) : Prop :=
  state.shared.enabled = false → ∀ serial < state.shared.inserted,
    serial ∈ state.shared.handled.map fun h => h.1.serial

/-- The alarm thread is not late: it has handled every alarm whose time has come. -/
def State.OnTime (state : State) : Prop :=
  ∀ alarm, state.Pending alarm → state.shared.now < alarm.time

/-- The alarm the alarm thread holds is not later than all others, the one about to be
inserted included. -/
def State.HeldCovered (state : State) : Prop :=
  ∀ held ∈ state.held, ∀ new ∈ state.inserting, held.time ≤ new.time ∨
    ∃ entries, state.shared.alarmList.Lists entries ∧ ∃ e ∈ entries, held.time ≤ e.2.time

/-- `main` inserts an alarm only while this is so. -/
def InsertsCovered (state : State) (action : Action) : Prop :=
  match action with
  | .main => state.HeldCovered
  | _ => True

/-- `main` clears `enabled` only behind its sleep, and while the alarm thread is not late. -/
def StopsOnTime (state : State) (action : Action) : Prop :=
  match action with
  | .main => state.main = .stop → state.last ≤ state.shared.now ∧ state.OnTime
  | _ => True

/-- The alarm the alarm thread holds is not later than the one about to be inserted. -/
def State.HeldEarlier (state : State) : Prop :=
  ∀ held ∈ state.held, ∀ new ∈ state.inserting, held.time ≤ new.time

instance (state : State) : Decidable state.HeldEarlier := by
  unfold State.HeldEarlier
  infer_instance

variable {state after : State} {shared next : Shared} {a : Address} {alarm : Alarm}
  {entries : List (Entry Alarm)} {action : Action} {point : AlarmPoint} {longest : Time}

theorem Tidy.pending_iff (h : Tidy state entries) :
    state.Pending alarm ↔ (∃ e ∈ entries, e.2 = alarm) ∨ state.held = some alarm := by
  constructor
  · rintro (⟨others, hlists, hmem⟩ | hheld)
    · obtain rfl := h.ordered.lists.unique hlists
      exact .inl hmem
    · exact .inr hheld
  · rintro (hmem | hheld)
    · exact .inl ⟨entries, h.ordered.lists, hmem⟩
    · exact .inr hheld

/-- Until `enabled` is cleared, the pending alarms are the inserted ones that have not been
handled. -/
theorem Kept.exists_pending (h : Kept state entries) (henabled : state.shared.enabled = true)
    {serial : Nat} (hinserted : serial < state.shared.inserted)
    (hunhandled : serial ∉ state.shared.handled.map fun h => h.1.serial) :
    ∃ alarm, state.Pending alarm ∧ alarm.serial = serial := by
  have hmem : serial ∈ state.serials entries :=
    (h.serials henabled).mem_iff.mpr (List.mem_range.mpr hinserted)
  rcases List.mem_append.mp hmem with hmem | hmem
  · rcases List.mem_append.mp hmem with hmem | hmem
    · obtain ⟨e, he, rfl⟩ := List.mem_map.mp hmem
      exact ⟨e.2, h.tidy.pending_iff.mpr (.inl ⟨e, he, rfl⟩), rfl⟩
    · obtain ⟨alarm, halarm, rfl⟩ := List.mem_map.mp hmem
      exact ⟨alarm, .inr (Option.mem_toList.mp halarm), rfl⟩
  · exact absurd hmem hunhandled

/-! ## The result of `alarm_insert` -/

/-- `alarm_insert` returns the time of the last alarm of the list. -/
theorem alarmInsert_longest (hinsert : alarmInsert a shared = some (next, longest))
    (h : next.Ordered entries) {e : Entry Alarm} (hlast : entries.getLast? = some e) :
    longest = e.2.time := by
  obtain ⟨new, -, hinsert⟩ := Option.bind_eq_some_iff.mp hinsert
  obtain ⟨⟨last, link⟩, -, hinsert⟩ := Option.bind_eq_some_iff.mp hinsert
  obtain ⟨found, hfound, hinsert⟩ := Option.bind_eq_some_iff.mp hinsert
  cases hinsert
  rw [h.longest e hlast] at hfound
  have halarm := h.lookup_alarm (List.mem_of_getLast? hlast)
  cases halarm.symm.trans hfound
  rfl

/-- In the sorted list this is the latest time. -/
theorem Shared.Ordered.le_longest (h : next.Ordered entries)
    (hinsert : alarmInsert a shared = some (next, longest)) {e : Entry Alarm}
    (hmem : e ∈ entries) : e.2.time ≤ longest := by
  have hne : entries ≠ [] := List.ne_nil_of_mem hmem
  rw [alarmInsert_longest hinsert h (List.getLast?_eq_some_getLast hne)]
  exact h.sorted.rel_getLast_of_rel_getLast_getLast hmem le_rfl

theorem Shared.Ordered.exists_longest (h : next.Ordered entries)
    (hinsert : alarmInsert a shared = some (next, longest)) (hne : entries ≠ []) :
    ∃ e ∈ entries, e.2.time = longest :=
  ⟨entries.getLast hne, List.getLast_mem hne,
    (alarmInsert_longest hinsert h (List.getLast?_eq_some_getLast hne)).symm⟩

/-- The result covers the alarm the alarm thread holds exactly if some other alarm does. -/
theorem Tidy.covers_insert (h : Tidy state entries) (hmain : state.main = .insert a)
    {stamped : Shared} (hstamp : state.shared.stamp a = some stamped)
    (hinsert : alarmInsert a stamped = some (next, longest)) :
    State.Covers { state with shared := next, main := .prompt, last := longest } ↔
      state.HeldCovered := by
  obtain ⟨new, front, back, result, _, rfl, hnew, hresult, -, htidy⟩ := h.insert hmain hstamp
  cases hinsert.symm.trans hresult
  have hheld := h.held_insert hmain hstamp hinsert
  have hinserting : state.inserting = some new := by
    simp only [State.inserting, hmain, hstamp]
    exact hnew
  have hother : ∀ e, e ∈ front ++ (a, new) :: back ↔ e = (a, new) ∨ e ∈ front ++ back := by
    intro e
    rw [List.mem_append, List.mem_cons, List.mem_append]
    exact or_left_comm
  constructor
  · intro hcovers held hmem new' hnew'
    cases hinserting.symm.trans hnew'
    have hle : held.time ≤ longest := hcovers held (.inr (hheld.trans hmem))
    obtain ⟨e, he, rfl⟩ := htidy.ordered.exists_longest hinsert (by simp)
    rcases (hother e).mp he with rfl | he
    · exact .inl hle
    · exact .inr ⟨_, h.ordered.lists, e, he, hle⟩
  · intro hcovered alarm hpending
    rcases htidy.pending_iff.mp hpending with ⟨e, he, rfl⟩ | hmem
    · exact htidy.ordered.le_longest hinsert he
    · rcases hcovered alarm (hheld.symm.trans hmem) new hinserting with
        hle | ⟨others, hlists, e, he, hle⟩
      · exact hle.trans (htidy.ordered.le_longest hinsert ((hother _).mpr (.inl rfl)))
      · obtain rfl := h.ordered.lists.unique hlists
        exact hle.trans (htidy.ordered.le_longest hinsert ((hother e).mpr (.inr he)))

theorem covers_main (h : Tidy state entries) (hmain : state.main = .insert a)
    (hstep : step state .main = some after) : after.Covers ↔ state.HeldCovered := by
  cases step_cases hstep with
  | insert b stamped shared last hinsert houtside hstamp hresult =>
      exact h.covers_insert hinsert hstamp hresult
  | stop hstop => cases hmain.symm.trans hstop
  | join hjoin => cases hmain.symm.trans hjoin

/-! ## Between two insertions of `main` -/

/-- The alarm thread adds nothing to the pending alarms. -/
theorem Tidy.pending_of_moves (h : Tidy state entries)
    (hmoves : Moves state.shared state.alarmThread next point)
    (hpending : State.Pending { state with shared := next, alarmThread := point } alarm) :
    state.Pending alarm := by
  obtain ⟨entries', h'⟩ := h.moves hmoves
  generalize hpoint : state.alarmThread = source at hmoves
  cases hmoves with
  | enter | loop | sleep | take | resume | again | exit =>
      rcases hpending with hmem | hheld
      · exact .inl hmem
      · cases hheld
  | wait | changed | woken | expired =>
      rcases hpending with hmem | hheld
      · exact .inl hmem
      · refine .inr ?_
        rw [State.held, hpoint]
        exact hheld
  | pop b cell next point hhead hcell hpop =>
      have hlist : next.alarmList = (state.shared.popTo cell.link).alarmList ∧
          point.held = some b := by
        rcases hpop with ⟨-, rfl, rfl⟩ | ⟨-, rfl, rfl⟩
        · exact ⟨rfl, rfl⟩
        · exact ⟨rfl, rfl⟩
      obtain ⟨rest, rfl, hordered⟩ := h.ordered.popTo hhead hcell
      refine h.pending_iff.mpr (.inl ?_)
      rcases hpending with ⟨others, hlists, e, he, rfl⟩ | hheld
      · change next.alarmList.Lists others at hlists
        rw [hlist.1] at hlists
        obtain rfl := hordered.lists.unique hlists
        exact ⟨e, List.mem_cons_of_mem _ he, rfl⟩
      · have halarm : next.alarm b = some cell.value := by
          rw [Shared.alarm, hlist.1]
          exact congrArg (Option.map Cell.value) hcell
        have hpopped : State.held { state with shared := next, alarmThread := point } =
            some cell.value := State.held_of_point hlist.2 halarm
        cases hpopped.symm.trans hheld
        exact ⟨_, List.mem_cons_self, rfl⟩
  | reinsert b next longest hinsert =>
      obtain ⟨new, front, back, result, _, rfl, hnew, hresult, -, htidy⟩ := h.reinsert hpoint
      cases hinsert.symm.trans hresult
      rcases htidy.pending_iff.mp hpending with ⟨e, he, rfl⟩ | hheld
      · rcases List.mem_append.mp he with he | he
        · exact h.pending_iff.mpr (.inl ⟨e, List.mem_append_left _ he, rfl⟩)
        · rcases List.mem_cons.mp he with rfl | he
          · exact .inr (State.held_of_point (by rw [hpoint]; rfl) hnew)
          · exact h.pending_iff.mpr (.inl ⟨e, List.mem_append_right _ he, rfl⟩)
      · cases hheld
  | handle b value =>
      rcases (h.delete hpoint).pending_iff.mp hpending with hmem | hheld
      · exact h.pending_iff.mpr (.inl hmem)
      · cases hheld

theorem State.Covers.step (hcovers : state.Covers) (h : Tidy state entries)
    (hguard : InsertsCovered state action) (hstep : Steps state action after) :
    after.Covers := by
  cases hstep with
  | alarmThread timeout shared point _ hmoves =>
      exact fun alarm hpending => hcovers alarm (h.pending_of_moves hmoves hpending)
  | tick | wakeUp | eof | stop | join => exact hcovers
  | line seconds message a hmain hfree =>
      intro alarm hpending
      rcases (h.allocate hfree seconds message).pending_iff.mp hpending with hmem | hheld
      · exact hcovers alarm (h.pending_iff.mpr (.inl hmem))
      · exact hcovers alarm (.inr ((h.held_allocate hfree seconds message).symm.trans hheld))
  | insert a stamped shared last hmain houtside hstamp hinsert =>
      exact (h.covers_insert hmain hstamp hinsert).mpr hguard

variable {guard : State → Action → Prop} {now : Time}

theorem InsertsCovered.of_earlier (h : state.HeldEarlier) : InsertsCovered state action := by
  cases action with
  | main => exact fun held hheld new hnew => .inl (h held hheld new hnew)
  | _ => trivial

theorem covers_of_reaches
    (hguard : ∀ state action, guard state action → InsertsCovered state action)
    (hrun : Reaches step guard (initial now) state) : state.Covers := by
  induction hrun with
  | refl =>
      rintro alarm (⟨entries, hlists, e, he, rfl⟩ | hheld)
      · obtain rfl := (tidy_initial now).ordered.lists.unique hlists
        cases he
      · cases hheld
  | tail action hprior hallowed hstep ih =>
      obtain ⟨entries, h⟩ := tidy_of_reaches hprior
      exact ih.step h (hguard _ _ hallowed) (step_cases hstep)

/-! ## The end of the program -/

/-- An alarm that is pending has not been handled. -/
theorem Kept.not_handled (h : Kept state entries) (henabled : state.shared.enabled = true)
    (hpending : state.Pending alarm) : alarm.serial < state.shared.inserted ∧
      alarm.serial ∉ state.shared.handled.map fun h => h.1.serial := by
  have hperm := h.serials henabled
  have hnodup : (state.serials entries).Nodup := hperm.nodup_iff.mpr List.nodup_range
  have hmem : alarm.serial ∈
      entries.map (fun e => e.2.serial) ++ state.held.toList.map Alarm.serial := by
    rcases h.tidy.pending_iff.mp hpending with ⟨e, he, rfl⟩ | hheld
    · exact List.mem_append_left _ (List.mem_map.mpr ⟨e, he, rfl⟩)
    · refine List.mem_append_right _ (List.mem_map.mpr ⟨alarm, ?_, rfl⟩)
      exact Option.mem_toList.mpr hheld
  refine ⟨List.mem_range.mp (hperm.mem_iff.mp (List.mem_append_left _ hmem)), fun hhandled => ?_⟩
  exact (List.nodup_append.mp hnodup).2.2 _ hmem _ hhandled rfl

/-- What the alarm thread does to the rest of the shared data. -/
theorem Tidy.shared_of_moves (h : Tidy state entries)
    (hmoves : Moves state.shared state.alarmThread next point) :
    next.enabled = state.shared.enabled ∧ next.inserted = state.shared.inserted ∧
      state.shared.handled ⊆ next.handled := by
  generalize hpoint : state.alarmThread = source at hmoves
  cases hmoves with
  | pop b cell next point hhead hcell hpop =>
      rcases hpop with ⟨-, rfl, -⟩ | ⟨-, rfl, -⟩
      · exact ⟨rfl, rfl, List.Subset.refl _⟩
      · exact ⟨rfl, rfl, List.Subset.refl _⟩
  | reinsert b next longest hinsert =>
      obtain ⟨new, front, back, result, _, -, -, hresult, hinserted, -⟩ := h.reinsert hpoint
      cases hinsert.symm.trans hresult
      exact ⟨hinserted.enabled, hinserted.inserted, by rw [hinserted.handled]; exact fun _ h => h⟩
  | handle b value => exact ⟨rfl, rfl, List.subset_append_left _ _⟩
  | _ => exact ⟨rfl, rfl, List.Subset.refl _⟩

/-- `enabled` is cleared at the end of `main`. -/
def State.Open (state : State) : Prop :=
  state.main ≠ .join → state.main ≠ .exited → state.shared.enabled = true

theorem State.Open.step (hopen : state.Open) (h : Tidy state entries)
    (hstep : Steps state action after) : after.Open := by
  cases hstep with
  | alarmThread timeout shared point _ hmoves =>
      intro hjoin hexited
      exact (h.shared_of_moves hmoves).1.trans (hopen hjoin hexited)
  | tick | wakeUp => exact hopen
  | line seconds message a hmain => exact fun _ _ => hopen (by simp [hmain]) (by simp [hmain])
  | eof hmain => exact fun _ _ => hopen (by simp [hmain]) (by simp [hmain])
  | insert a stamped shared last hmain houtside hstamp hinsert =>
      obtain ⟨new, front, back, result, _, -, -, hresult, hinserted, -⟩ := h.insert hmain hstamp
      cases hinsert.symm.trans hresult
      obtain ⟨-, -, -, -, hstamped, -⟩ := Shared.stamp_spec hstamp
      have henabled : stamped.enabled = state.shared.enabled := by rw [hstamped]
      intro _ _
      exact (hinserted.enabled.trans henabled).trans (hopen (by simp [hmain]) (by simp [hmain]))
  | stop => exact fun hjoin => absurd rfl hjoin
  | join => exact fun _ hexited => absurd rfl hexited

theorem open_of_reaches (hrun : Reaches step guard (initial now) state) : state.Open := by
  induction hrun with
  | refl => exact fun _ _ => rfl
  | tail action hprior _ hstep ih =>
      obtain ⟨entries, h⟩ := tidy_of_reaches hprior
      exact ih.step h (step_cases hstep)

/-- When `main` has slept until a time that covers all pending alarms, it cuts none of them
off exactly if the alarm thread is not late. -/
theorem Kept.noneCutOff_stop (h : Kept state entries) (henabled : state.shared.enabled = true)
    (hcovers : state.Covers) (hslept : state.last ≤ state.shared.now) :
    State.NoneCutOff { state with
      shared := { state.shared with enabled := false, asleep := false }, main := .join } ↔
      state.OnTime := by
  constructor
  · intro hnone alarm hpending
    obtain ⟨hinserted, hunhandled⟩ := h.not_handled henabled hpending
    exact absurd (hnone rfl _ hinserted) hunhandled
  · intro hontime _ serial hinserted
    by_contra hunhandled
    obtain ⟨alarm, hpending, -⟩ := h.exists_pending henabled hinserted hunhandled
    exact absurd (hontime alarm hpending) (not_lt.mpr ((hcovers alarm hpending).trans hslept))

theorem State.NoneCutOff.step (hnone : state.NoneCutOff) (h : Kept state entries)
    (hopen : state.Open) (hcovers : state.Covers) (hguard : StopsOnTime state action)
    (hstep : Steps state action after) : after.NoneCutOff := by
  cases hstep with
  | alarmThread timeout shared point _ hmoves =>
      obtain ⟨henabled, hinserted, hhandled⟩ := h.tidy.shared_of_moves hmoves
      intro hcleared serial hserial
      change shared.enabled = false at hcleared
      change serial < shared.inserted at hserial
      rw [henabled] at hcleared
      rw [hinserted] at hserial
      exact List.map_subset _ hhandled (hnone hcleared serial hserial)
  | tick | wakeUp | line | eof | join => exact hnone
  | insert a stamped shared last hmain houtside hstamp hinsert =>
      intro hcleared
      have henabled : shared.enabled = true := by
        have hnext := hopen.step h.tidy (.insert a stamped shared last hmain houtside hstamp hinsert)
        exact hnext (by simp) (by simp)
      cases henabled.symm.trans hcleared
  | stop hmain houtside =>
      obtain ⟨hslept, hontime⟩ := hguard hmain
      have henabled := hopen (by simp [hmain]) (by simp [hmain])
      exact (h.noneCutOff_stop henabled hcovers hslept).mpr hontime

theorem noneCutOff_of_reaches
    (hinserts : ∀ state action, guard state action → InsertsCovered state action)
    (hstops : ∀ state action, guard state action → StopsOnTime state action)
    (hrun : Reaches step guard (initial now) state) : state.NoneCutOff := by
  induction hrun with
  | refl => exact fun hcleared => by cases hcleared
  | tail action hprior hallowed hstep ih =>
      obtain ⟨entries, h⟩ := kept_of_reaches hprior
      exact ih.step h (open_of_reaches hprior) (covers_of_reaches hinserts hprior)
        (hstops _ _ hallowed) (step_cases hstep)

/-- An insertion covers all pending alarms if and only if the alarm thread does not hold the
latest one. If this is so at every insertion of a run, `last` covers them throughout, and
`main`, behind its sleep, cuts none of them off if and only if the alarm thread is not late.
So if it is never late then, no alarm is cut off in the whole run. -/
theorem last_covers_iff (hrun : Reaches step guard (initial now) state) :
    (∀ after, state.main = .insert a → step state .main = some after →
      (after.Covers ↔ state.HeldCovered)) ∧
    ((∀ state action, guard state action → InsertsCovered state action) →
      state.Covers ∧
      (∀ after, state.main = .stop → state.last ≤ state.shared.now →
        step state .main = some after → (after.NoneCutOff ↔ state.OnTime)) ∧
      ((∀ state action, guard state action → StopsOnTime state action) →
        state.NoneCutOff)) := by
  refine ⟨?_, fun hinserts => ⟨covers_of_reaches hinserts hrun, ?_, ?_⟩⟩
  · intro after hmain hstep
    obtain ⟨entries, h⟩ := tidy_of_reaches hrun
    exact covers_main h hmain hstep
  · intro after hmain hslept hstep
    obtain ⟨entries, h⟩ := kept_of_reaches hrun
    have henabled := open_of_reaches hrun (by simp [hmain]) (by simp [hmain])
    cases step_cases hstep with
    | insert b stamped shared last hinsert => cases hmain.symm.trans hinsert
    | stop => exact h.noneCutOff_stop henabled (covers_of_reaches hinserts hrun) hslept
    | join hjoin => cases hmain.symm.trans hjoin
  · intro hstops
    exact noneCutOff_of_reaches hinserts hstops hrun

/-- With an empty list the alarm thread is not late unless it holds an alarm. -/
theorem State.onTime_of_empty (hempty : state.shared.alarmList.head = none)
    (hheld : state.alarmThread.held = none) : state.OnTime := by
  rintro alarm (⟨entries, hlists, e, he, -⟩ | hmem)
  · rw [hlists.head_eq_none.mp hempty] at he
    cases he
  · cases (State.held_eq_none hheld).symm.trans hmem

/-- The second alarm is later than the one the alarm thread waits for, and both have been
handled when `main` ends. -/
theorem last_covers_later : ∃ state : State,
    (state.shared.inserted, state.shared.enabled) = (2, false) ∧ state.last = seconds 17 ∧
      state.Covers ∧ state.NoneCutOff := by
  let guard (state : State) (action : Action) : Prop :=
    InsertsCovered state action ∧ StopsOnTime state action
  obtain ⟨state, hrun, hobserved⟩ : ∃ state : State,
      Reaches step guard (initial (seconds 10)) state ∧
        ((state.shared.inserted, state.shared.enabled), state.last) = ((2, false), seconds 17) :=
    Reaches.of_observed
      (fun state _ => decide (state.HeldEarlier ∧ (state.main = .stop →
        state.last ≤ state.shared.now ∧ state.shared.alarmList.head = none ∧
          state.alarmThread.held = none)))
      (.line 5 "first" 1 :: .main :: List.replicate 5 (.alarmThread false) ++
        [.line 7 "second" 2, .main, .tick 5000000000, .wakeUp] ++
        List.replicate 7 (.alarmThread true) ++ [.tick 2000000000, .wakeUp] ++
        List.replicate 5 (.alarmThread true) ++ [.eof, .main])
      (fun state action hcheck => by
        obtain ⟨hearlier, hstops⟩ := of_decide_eq_true hcheck
        refine ⟨InsertsCovered.of_earlier hearlier, ?_⟩
        cases action with
        | main =>
            intro hmain
            obtain ⟨hslept, hempty, hheld⟩ := hstops hmain
            exact ⟨hslept, State.onTime_of_empty hempty hheld⟩
        | _ => trivial)
      (by decide +kernel)
  obtain ⟨hcounted, hlast⟩ := Prod.mk.inj hobserved
  obtain ⟨hcovers, -, hnone⟩ := (last_covers_iff (a := 0) hrun).2 fun _ _ h => h.1
  exact ⟨state, hcounted, hlast, hcovers, hnone fun _ _ h => h.2⟩

/-- The alarm thread waits for the only alarm when an earlier one is inserted: `main` takes
the time of this one for the latest, and clears `enabled` before the other one is due. With
one alarm only, `main` cuts it off when it gets the mutex before the alarm thread does. -/
theorem last_too_early :
    (∃ state after : State, Reaches step (fun _ _ => True) (initial (seconds 10)) state ∧
      state.main = .insert 2 ∧ step state .main = some after ∧ ¬ after.Covers) ∧
    (∃ state : State, Reaches step (fun _ _ => True) (initial (seconds 10)) state ∧
      state.last ≤ state.shared.now ∧ ¬ state.NoneCutOff) ∧
    ∃ state : State, Reaches step InsertsCovered (initial (seconds 10)) state ∧
      state.Covers ∧ state.last ≤ state.shared.now ∧ ¬ state.NoneCutOff := by
  -- none of the alarms that have been inserted is among the handled ones
  have hcut : ∀ {state : State} {count : Nat},
      (state.shared.inserted, state.shared.enabled, state.shared.handled) =
        (count + 1, false, []) → ¬ state.NoneCutOff := by
    intro state count hobserved hnone
    simp only [Prod.mk.injEq] at hobserved
    obtain ⟨hinserted, hcleared, hhandled⟩ := hobserved
    have hmem := hnone hcleared 0 (by rw [hinserted]; exact Nat.succ_pos count)
    rw [hhandled] at hmem
    cases hmem
  refine ⟨?_, ?_, ?_⟩
  · obtain ⟨state, hrun, hobserved⟩ : ∃ state : State,
        Reaches step (fun _ _ => True) (initial (seconds 10)) state ∧
          (state.main, state.shared.alarmList.head, state.held.map Alarm.time,
            state.inserting.map Alarm.time, (step state .main).isSome) =
          (.insert 2, none, some (seconds 20), some (seconds 15), true) :=
      Reaches.of_observed (fun _ _ => true)
        (.line 10 "held" 1 :: .main :: List.replicate 5 (.alarmThread false) ++
          [.line 5 "earlier" 2])
        (fun _ _ _ => trivial) (by decide +kernel)
    simp only [Prod.mk.injEq, Option.map_eq_some_iff] at hobserved
    obtain ⟨hmain, hempty, ⟨held, hheld, hlate⟩, ⟨new, hnew, hearly⟩, hsome⟩ := hobserved
    obtain ⟨after, hstep⟩ := Option.isSome_iff_exists.mp hsome
    obtain ⟨entries, h⟩ := tidy_of_reaches hrun
    refine ⟨state, after, hrun, hmain, hstep, fun hcovers => ?_⟩
    rcases (covers_main h hmain hstep).mp hcovers held hheld new hnew with
      hle | ⟨others, hlists, e, he, -⟩
    · rw [hlate, hearly] at hle
      exact absurd hle (by decide)
    · rw [hlists.head_eq_none.mp hempty] at he
      cases he
  · obtain ⟨state, hrun, hobserved⟩ : ∃ state : State,
        Reaches step (fun _ _ => True) (initial (seconds 10)) state ∧
          ((state.last, state.shared.now), state.shared.inserted, state.shared.enabled,
            state.shared.handled) = ((seconds 15, seconds 15), 2, false, []) :=
      Reaches.of_observed (fun _ _ => true)
        (.line 10 "held" 1 :: .main :: List.replicate 5 (.alarmThread false) ++
          [.line 5 "earlier" 2, .main, .eof, .tick 5000000000, .main])
        (fun _ _ _ => trivial) (by decide +kernel)
    obtain ⟨htimes, hcounted⟩ := Prod.mk.inj hobserved
    obtain ⟨hlast, hnow⟩ := Prod.mk.inj htimes
    exact ⟨state, hrun, by rw [hlast, hnow], hcut hcounted⟩
  · obtain ⟨state, hrun, hobserved⟩ : ∃ state : State,
        Reaches step InsertsCovered (initial (seconds 10)) state ∧
          ((state.last, state.shared.now), state.shared.inserted, state.shared.enabled,
            state.shared.handled) = ((seconds 15, seconds 15), 1, false, []) :=
      Reaches.of_observed (fun state _ => decide state.HeldEarlier)
        (.line 5 "only" 1 :: .main :: List.replicate 5 (.alarmThread false) ++
          [.eof, .tick 5000000000, .main])
        (fun _ _ hcheck => InsertsCovered.of_earlier (of_decide_eq_true hcheck))
        (by decide +kernel)
    obtain ⟨htimes, hcounted⟩ := Prod.mk.inj hobserved
    obtain ⟨hlast, hnow⟩ := Prod.mk.inj htimes
    exact ⟨state, hrun, covers_of_reaches (fun _ _ h => h) hrun, by rw [hlast, hnow],
      hcut hcounted⟩

end ThreadPools.AlarmCond
