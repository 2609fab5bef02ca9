/-
# The fate of an alarm

Until `enabled` is cleared every inserted alarm is in the list, held by the alarm
thread or handled, and alarms are handled once and not before their time. The alarm
thread sleeps only while the list is empty, and waits only for an alarm whose time is
in `current_alarm`: whoever inserts an alarm that ends this notifies it.

That the awaited alarm is the earliest one rests on `current_alarm` being earlier than
it as soon as an earlier alarm has been inserted. `ZERO` marks an idle thread and is a
time as well, so after the insertion of an alarm at that very time `main` may set
`current_alarm` to a later time again.
-/

import Mathlib.Tactic.Linarith
import ThreadPools.AlarmCond.AlarmList

namespace ThreadPools.AlarmCond

open ThreadPools.Memory ThreadPools.Concurrency

/-- The alarm the alarm thread has taken from the list. -/
def State.held (state : State) : Option Alarm :=
  state.alarmThread.held.bind state.shared.alarm

/-- What the alarm thread knows about the time of the alarm it holds. -/
def AlarmPoint.Due (time now : Time) : AlarmPoint → Prop
  | .test _ timeleft => time ≤ now + timeleft
  | .waiting _ timeleft deadline => time ≤ now + timeleft ∧ time ≤ deadline
  | .handle _ => time ≤ now
  | _ => True

/-- The alarm thread may sleep. -/
def State.Calm (state : State) (entries : List (Entry Alarm)) : Prop :=
  match state.alarmThread with
  | .sleeping => entries = []
  | .waiting _ _ _ => ∀ alarm ∈ state.held, alarm.time = state.shared.currentAlarm
  | _ => False

/-- The alarms of a state, by the insertion they come from. -/
def State.serials (state : State) (entries : List (Entry Alarm)) : List Nat :=
  entries.map (fun e => e.2.serial) ++ state.held.toList.map Alarm.serial ++
    state.shared.handled.map fun h => h.1.serial

/-- No alarm is lost, doubled or handled early, and the alarm thread does not oversleep. -/
structure Kept (state : State) (entries : List (Entry Alarm)) : Prop where
  tidy : Tidy state entries
  serials : state.shared.enabled = true →
    (state.serials entries).Perm (List.range state.shared.inserted)
  punctual : ∀ h ∈ state.shared.handled, h.1.time ≤ h.2
  due : ∀ alarm ∈ state.held, state.alarmThread.Due alarm.time state.shared.now
  idle : state.alarmThread = .idle ∨ state.alarmThread = .sleeping → entries = [] →
    state.shared.currentAlarm = ZERO
  asleep : state.shared.asleep = true → state.Calm entries

variable {state after : State} {shared next : Shared} {a : Address} {alarm : Alarm}
  {entries : List (Entry Alarm)} {action : Action} {point : AlarmPoint}

theorem AlarmPoint.Due.mono {time now later : Time} (h : point.Due time now)
    (hle : now ≤ later) : point.Due time later := by
  cases point with
  | test a timeleft => exact le_trans h (by linarith)
  | waiting a timeleft deadline => exact ⟨le_trans h.1 (by linarith), h.2⟩
  | handle a => exact le_trans h hle
  | _ => trivial

theorem State.held_of_point (hpoint : state.alarmThread.held = some a)
    (halarm : state.shared.alarm a = some alarm) : state.held = some alarm := by
  simp [held, hpoint, halarm]

theorem State.held_eq_none (hpoint : state.alarmThread.held = none) : state.held = none := by
  simp [held, hpoint]

/-- Steps of the alarm thread that leave the list and the alarms alone. -/
theorem Kept.keep (h : Kept state entries) (hlist : next.alarmList = state.shared.alarmList)
    (hlongest : next.longest = state.shared.longest)
    (hsame : next.enabled = state.shared.enabled ∧ next.now = state.shared.now ∧
      next.inserted = state.shared.inserted ∧ next.handled = state.shared.handled)
    (hheld : point.held = state.alarmThread.held)
    (hdue : ∀ alarm ∈ state.held, point.Due alarm.time state.shared.now)
    (hidle : point = .idle ∨ point = .sleeping → entries = [] → next.currentAlarm = ZERO)
    (hasleep : next.asleep = true →
      State.Calm { state with shared := next, alarmThread := point } entries) :
    Kept { state with shared := next, alarmThread := point } entries := by
  obtain ⟨henabled, hnow, hinserted, hhandled⟩ := hsame
  have hsameHeld : State.held { state with shared := next, alarmThread := point } = state.held := by
    have halarm : next.alarm = state.shared.alarm := by
      funext b
      rw [Shared.alarm, hlist]
      rfl
    simp only [State.held, hheld, halarm]
  refine ⟨h.tidy.keep hlist hlongest fun b hb => hheld ▸ hb, fun hne => ?_, ?_, ?_, hidle,
    hasleep⟩
  · have hserials := h.serials (henabled ▸ hne)
    simp only [State.serials, hsameHeld] at hserials ⊢
    simpa only [hhandled, hinserted] using hserials
  · simpa only [hhandled] using h.punctual
  · intro alarm halarm
    rw [hsameHeld] at halarm
    simpa only [hnow] using hdue alarm halarm

/-- The alarm thread takes the first alarm. -/
theorem Kept.pop {cell : Cell Alarm} (h : Kept state entries) (hpoint : state.alarmThread = .take)
    (hhead : state.shared.alarmList.head = some a)
    (hcell : state.shared.alarmList.cells.lookup a = some cell)
    (hlist : next.alarmList = (state.shared.popTo cell.link).alarmList)
    (hsame : next.longest = state.shared.longest ∧ next.enabled = state.shared.enabled ∧
      next.now = state.shared.now ∧ next.inserted = state.shared.inserted ∧
      next.handled = state.shared.handled ∧ next.asleep = state.shared.asleep)
    (hheld : point.held = some a) (hdue : point.Due cell.value.time state.shared.now) :
    ∃ entries, Kept { state with shared := next, alarmThread := point } entries := by
  obtain ⟨hlongest, henabled, hnow, hinserted, hhandled, hasleep⟩ := hsame
  obtain ⟨rest, rfl, htidy⟩ := h.tidy.pop hhead hcell hlist hlongest hheld
  have halarm : next.alarm a = some cell.value := by
    rw [Shared.alarm, hlist]
    exact congrArg (Option.map Cell.value) hcell
  have hnext : State.held { state with shared := next, alarmThread := point } = some cell.value :=
    State.held_of_point hheld halarm
  have hbefore : state.held = none := State.held_eq_none (by rw [hpoint]; rfl)
  refine ⟨rest, htidy, fun hne => ?_, ?_, ?_, ?_, fun hsleeps => ?_⟩
  · have hserials := h.serials (henabled ▸ hne)
    simp only [State.serials, hbefore, hnext, hhandled, hinserted, List.map_cons,
      Option.toList_none, Option.toList_some, List.map_nil, List.append_nil,
      List.append_assoc] at hserials ⊢
    exact List.perm_middle.trans hserials
  · simpa only [hhandled] using h.punctual
  · intro alarm hmem
    cases hnext.symm.trans hmem
    simpa only [hnow] using hdue
  · rintro (rfl | rfl) <;> cases hheld
  · have hcalm := h.asleep (hasleep ▸ hsleeps)
    simp only [State.Calm, hpoint] at hcalm

/-- An insertion brings the serial number of the new alarm into the list. -/
theorem serials_insert {front back : List (Entry Alarm)} {new : Alarm} :
    ((front ++ (a, new) :: back).map fun e => e.2.serial).Perm
      (new.serial :: (front ++ back).map fun e => e.2.serial) := by
  rw [List.map_append, List.map_cons, List.map_append]
  exact List.perm_middle

/-- The alarm thread inserts its alarm again. -/
theorem Kept.reinsert (h : Kept state entries) (hpoint : state.alarmThread = .reinsert a)
    {longest : Time} (hinsert : alarmInsert a state.shared = some (next, longest)) :
    ∃ entries, Kept { state with shared := next, alarmThread := .again } entries := by
  obtain ⟨new, front, back, result, _, rfl, hnew, hresult, hinserted, htidy⟩ :=
    h.tidy.reinsert hpoint
  cases hinsert.symm.trans hresult
  have hbefore : state.held = some new := State.held_of_point (by rw [hpoint]; rfl) hnew
  have hnext : State.held { state with shared := next, alarmThread := .again } = none := rfl
  refine ⟨_, htidy, fun hne => ?_, ?_, nofun, nofun, fun hsleeps => ?_⟩
  · have hserials := h.serials (hinserted.enabled ▸ hne)
    simp only [State.serials, hbefore, hnext, hinserted.handled, hinserted.inserted,
      Option.toList_none, Option.toList_some, List.map_cons, List.map_nil,
      List.append_nil] at hserials ⊢
    refine (List.Perm.append_right _ (serials_insert.trans ?_)).trans hserials
    exact (List.perm_append_singleton _ _).symm
  · simpa only [hinserted.handled] using h.punctual
  · have hcalm : state.shared.asleep = true → False := fun hsleeping => by
      have hcalm := h.asleep hsleeping
      simp only [State.Calm, hpoint] at hcalm
    refine (hcalm ?_).elim
    change next.asleep = true at hsleeps
    rw [hinserted.asleep] at hsleeps
    split at hsleeps
    · cases hsleeps
    · exact hsleeps

/-- The alarm thread handles the alarm it holds and deletes it. -/
theorem Kept.handle (h : Kept state entries) (hpoint : state.alarmThread = .handle a)
    (halarm : state.shared.alarm a = some alarm) :
    Kept { state with shared := state.shared.delete a alarm, alarmThread := .again } entries := by
  have hbefore : state.held = some alarm := State.held_of_point (by rw [hpoint]; rfl) halarm
  have hdue := h.due alarm hbefore
  rw [hpoint] at hdue
  refine ⟨h.tidy.delete hpoint, fun hne => ?_, ?_, nofun, nofun, fun hsleeps => ?_⟩
  · have hserials := h.serials hne
    have hnext : State.held { state with
        shared := state.shared.delete a alarm, alarmThread := .again } = none := rfl
    simp only [State.serials, hbefore, hnext] at hserials ⊢
    simp only [Shared.delete, Option.toList_none, Option.toList_some, List.map_cons,
      List.map_nil, List.append_nil, List.map_append, List.append_assoc] at hserials ⊢
    refine (List.Perm.append_left _ ?_).trans hserials
    exact List.perm_append_comm
  · intro handled hmem
    rcases List.mem_append.mp hmem with hmem | hmem
    · exact h.punctual handled hmem
    · cases List.mem_singleton.mp hmem
      exact hdue
  · have hcalm := h.asleep hsleeps
    simp only [State.Calm, hpoint] at hcalm

/-- `main` does not touch the alarm the alarm thread holds. -/
theorem Tidy.held_insert (h : Tidy state entries) (hmain : state.main = .insert a)
    {stamped : Shared} {last : Time} (hstamp : state.shared.stamp a = some stamped)
    (hinsert : alarmInsert a stamped = some (next, last)) :
    State.held { state with shared := next, main := .prompt, last := last } = state.held := by
  obtain ⟨new, front, back, result, _, -, -, hresult, hinserted, -⟩ := h.insert hmain hstamp
  cases hinsert.symm.trans hresult
  obtain ⟨-, -, -, hlookup, -, -⟩ := Shared.stamp_spec hstamp
  simp only [State.held]
  cases hpoint : state.alarmThread.held with
  | none => rfl
  | some b =>
      have hne : b ≠ a := fun heq => h.distinct b hpoint (by rw [hmain, heq]; rfl)
      show next.alarm b = state.shared.alarm b
      rw [hinserted.alarm, Shared.alarm, hlookup b hne]
      rfl

theorem Tidy.held_allocate (h : Tidy state entries) (hfree : state.shared.alarm a = none)
    (seconds : Int) (message : String) :
    State.held { state with
      shared := state.shared.allocate a seconds message
      main := .insert a } = state.held := by
  simp only [State.held]
  cases hpoint : state.alarmThread.held with
  | none => rfl
  | some b =>
      obtain ⟨alarm, halarm⟩ := h.held b hpoint
      refine Shared.alarm_allocate_of_ne ?_ seconds message
      rintro rfl
      cases halarm.symm.trans hfree

/-- `main` inserts its alarm. -/
theorem Kept.insert (h : Kept state entries) (hmain : state.main = .insert a)
    {stamped : Shared} {last : Time} (hstamp : state.shared.stamp a = some stamped)
    (hinsert : alarmInsert a stamped = some (next, last)) :
    ∃ entries, Kept { state with shared := next, main := .prompt, last := last } entries := by
  obtain ⟨new, front, back, result, _, rfl, hnew, hresult, hinserted, htidy⟩ :=
    h.tidy.insert hmain hstamp
  cases hinsert.symm.trans hresult
  obtain ⟨old, -, hvalue, -, hstamped, -⟩ := Shared.stamp_spec hstamp
  have hserial : new.serial = state.shared.inserted := by
    cases hnew.symm.trans hvalue
    rfl
  have hdata : stamped.enabled = state.shared.enabled ∧ stamped.now = state.shared.now ∧
      stamped.inserted = state.shared.inserted + 1 ∧
      stamped.handled = state.shared.handled ∧ stamped.asleep = state.shared.asleep ∧
      stamped.currentAlarm = state.shared.currentAlarm := by
    rw [hstamped]
    exact ⟨rfl, rfl, rfl, rfl, rfl, rfl⟩
  obtain ⟨henabled, hnow, hcount, hhandled, hsleeping, hcurrent⟩ := hdata
  have hheld := h.tidy.held_insert hmain hstamp hinsert
  refine ⟨_, htidy, fun hne => ?_, ?_, ?_, ?_, fun hsleeps => ?_⟩
  · have hserials := h.serials (henabled ▸ hinserted.enabled ▸ hne)
    simp only [State.serials, hheld, hinserted.handled, hhandled, hinserted.inserted, hcount]
      at hserials ⊢
    rw [List.range_succ]
    refine (List.Perm.append_right _ (List.Perm.append_right _ serials_insert)).trans ?_
    rw [hserial]
    exact (List.Perm.cons _ hserials).trans (List.perm_append_singleton _ _).symm
  · simpa only [hinserted.handled, hhandled] using h.punctual
  · intro alarm hmem
    rw [hheld] at hmem
    simpa only [hinserted.now, hnow] using h.due alarm hmem
  · intro _ hempty
    simp at hempty
  · -- the alarm thread still sleeps, so the insertion has not changed `current_alarm`
    change next.asleep = true at hsleeps
    rw [hinserted.asleep] at hsleeps
    split at hsleeps
    · cases hsleeps
    · next hwakes =>
        have hcalm := h.asleep (hsleeping ▸ hsleeps)
        have hunchanged : next.currentAlarm = state.shared.currentAlarm := by
          rw [hinserted.currentAlarm, if_neg hwakes, hcurrent]
        simp only [State.Calm, hheld] at hcalm ⊢
        split at hcalm
        · next hpoint =>
            have hzero := h.idle (.inr hpoint) hcalm
            exact absurd (.inl (hcurrent.trans hzero)) hwakes
        · next hpoint =>
            intro alarm hmem
            rw [hunchanged]
            exact hcalm alarm hmem
        · exact hcalm.elim

/-- Steps of `main` and of the clock that leave the list and the alarms alone. -/
theorem Kept.keep_main {main : MainPoint} (h : Kept state entries)
    (hlist : next.alarmList = state.shared.alarmList)
    (hsame : next.longest = state.shared.longest ∧ next.inserted = state.shared.inserted ∧
      next.handled = state.shared.handled ∧ next.currentAlarm = state.shared.currentAlarm)
    (henabled : next.enabled = true → state.shared.enabled = true)
    (hnow : state.shared.now ≤ next.now)
    (hasleep : next.asleep = true → state.shared.asleep = true)
    (hmain : ∀ a, main.held = some a → state.main.held = some a) :
    Kept { state with shared := next, main := main } entries := by
  obtain ⟨hlongest, hinserted, hhandled, hcurrent⟩ := hsame
  have hheld : State.held { state with shared := next, main := main } = state.held := by
    have halarm : next.alarm = state.shared.alarm := by
      funext b
      rw [Shared.alarm, hlist]
      rfl
    simp only [State.held, halarm]
  refine ⟨h.tidy.keep_main hlist hlongest hmain, fun hne => ?_, ?_, ?_, ?_, fun hsleeps => ?_⟩
  · have hserials := h.serials (henabled hne)
    simp only [State.serials, hheld] at hserials ⊢
    simpa only [hhandled, hinserted] using hserials
  · simpa only [hhandled] using h.punctual
  · intro alarm hmem
    rw [hheld] at hmem
    exact (h.due alarm hmem).mono hnow
  · intro hpoint hempty
    exact hcurrent.trans (h.idle hpoint hempty)
  · have hcalm := h.asleep (hasleep hsleeps)
    simp only [State.Calm, hheld, hcurrent] at hcalm ⊢
    exact hcalm

/-- `main` allocates an alarm. -/
theorem Kept.allocate (h : Kept state entries) (hfree : state.shared.alarm a = none)
    (seconds : Int) (message : String) :
    Kept { state with
      shared := state.shared.allocate a seconds message
      main := .insert a } entries := by
  have hheld := h.tidy.held_allocate hfree seconds message
  refine ⟨h.tidy.allocate hfree seconds message, fun hne => ?_, h.punctual, ?_, h.idle,
    fun hsleeps => ?_⟩
  · have hserials := h.serials hne
    simp only [State.serials, hheld] at hserials ⊢
    exact hserials
  · intro alarm hmem
    rw [hheld] at hmem
    exact h.due alarm hmem
  · have hcalm := h.asleep hsleeps
    simp only [State.Calm, hheld] at hcalm ⊢
    exact hcalm

/-- Outside of its waits the alarm thread does not sleep. -/
theorem Kept.awake (h : Kept state entries) (hpoint : ¬ state.Calm entries) :
    state.shared.asleep = false :=
  Bool.eq_false_iff.mpr fun hsleeps => hpoint (h.asleep hsleeps)

/-- The alarm thread ends, and forgets the alarm it holds, only when it is disabled. -/
theorem Kept.exit (h : Kept state entries) (hdisabled : state.shared.enabled = false)
    (hawake : state.shared.asleep = false) :
    Kept { state with alarmThread := .exited } entries where
  tidy := h.tidy.keep rfl rfl nofun
  serials hne := absurd (hdisabled.symm.trans hne) nofun
  punctual := h.punctual
  due := nofun
  idle := nofun
  asleep hsleeps := absurd (hawake.symm.trans hsleeps) nofun

theorem Kept.moves (h : Kept state entries)
    (hmoves : Moves state.shared state.alarmThread next point) :
    ∃ entries, Kept { state with shared := next, alarmThread := point } entries := by
  generalize hpoint : state.alarmThread = source at hmoves
  have hheld : source.held = state.alarmThread.held := by rw [hpoint]
  have hdue : ∀ alarm ∈ state.held, source.Due alarm.time state.shared.now := hpoint ▸ h.due
  have hawake : (source ≠ .sleeping ∧
      ∀ a timeleft deadline, source ≠ .waiting a timeleft deadline) →
      state.shared.asleep = false := fun hne => h.awake <| by
    simp only [State.Calm, hpoint]
    split
    · exact fun _ => hne.1 rfl
    · exact fun _ => hne.2 _ _ _ rfl
    · exact id
  cases hmoves with
  | enter =>
      have hfalse := hawake ⟨nofun, nofun⟩
      exact ⟨_, h.keep rfl rfl ⟨rfl, rfl, rfl, rfl⟩ hheld (fun _ _ => trivial) nofun
        fun hsleeps => absurd (hfalse.symm.trans hsleeps) nofun⟩
  | loop =>
      have hfalse := hawake ⟨nofun, nofun⟩
      exact ⟨_, h.keep rfl rfl ⟨rfl, rfl, rfl, rfl⟩ hheld (fun _ _ => trivial) (fun _ _ => rfl)
        fun hsleeps => absurd (hfalse.symm.trans hsleeps) nofun⟩
  | sleep henabled hempty =>
      have hnil := h.tidy.ordered.lists.head_eq_none.mp hempty
      exact ⟨_, h.keep rfl rfl ⟨rfl, rfl, rfl, rfl⟩ hheld (fun _ _ => trivial)
        (fun _ => h.idle (.inl hpoint)) fun _ => hnil⟩
  | take henabled hfound =>
      have hfalse := hawake ⟨nofun, nofun⟩
      exact ⟨_, h.keep rfl rfl ⟨rfl, rfl, rfl, rfl⟩ hheld (fun _ _ => trivial) nofun
        fun hsleeps => absurd (hfalse.symm.trans hsleeps) nofun⟩
  | resume hfalse =>
      exact ⟨_, h.keep rfl rfl ⟨rfl, rfl, rfl, rfl⟩ hheld (fun _ _ => trivial)
        (fun _ => h.idle (.inr hpoint)) fun hsleeps => absurd (hfalse.symm.trans hsleeps) nofun⟩
  | pop b cell next point hhead hcell hpop =>
      rcases hpop with ⟨hfuture, rfl, rfl⟩ | ⟨hpast, rfl, rfl⟩
      · refine h.pop hpoint hhead hcell rfl ⟨rfl, rfl, rfl, rfl, rfl, rfl⟩ rfl ?_
        show cell.value.time ≤ state.shared.now + (cell.value.time - state.shared.now)
        linarith
      · exact h.pop hpoint hhead hcell rfl ⟨rfl, rfl, rfl, rfl, rfl, rfl⟩ rfl hpast
  | wait b timeleft alarm henabled halarm hcurrent =>
      have hsome : state.held = some alarm := State.held_of_point (by rw [hpoint]; rfl) halarm
      refine ⟨_, h.keep rfl rfl ⟨rfl, rfl, rfl, rfl⟩ hheld (fun other hother => ?_) nofun
        fun _ => ?_⟩
      · exact ⟨hdue other hother, hdue other hother⟩
      · intro other hother
        have hsame : state.held = some other := by
          rw [State.held, ← hheld]
          exact hother
        cases hsome.symm.trans hsame
        exact hcurrent
  | changed b timeleft henabled =>
      have hfalse := hawake ⟨nofun, nofun⟩
      exact ⟨_, h.keep rfl rfl ⟨rfl, rfl, rfl, rfl⟩ hheld (fun _ _ => trivial) nofun
        fun hsleeps => absurd (hfalse.symm.trans hsleeps) nofun⟩
  | woken b timeleft deadline hfalse =>
      exact ⟨_, h.keep rfl rfl ⟨rfl, rfl, rfl, rfl⟩ hheld
        (fun other hother => (hdue other hother).1)
        nofun fun hsleeps => absurd (hfalse.symm.trans hsleeps) nofun⟩
  | expired b timeleft deadline hfalse hdeadline henabled =>
      exact ⟨_, h.keep rfl rfl ⟨rfl, rfl, rfl, rfl⟩ hheld
        (fun other hother => le_trans (hdue other hother).2 hdeadline)
        nofun fun hsleeps => absurd (hfalse.symm.trans hsleeps) nofun⟩
  | reinsert b next longest hinsert => exact h.reinsert hpoint hinsert
  | handle b alarm halarm => exact ⟨_, h.handle hpoint halarm⟩
  | again henabled =>
      have hfalse := hawake ⟨nofun, nofun⟩
      exact ⟨_, h.keep rfl rfl ⟨rfl, rfl, rfl, rfl⟩ hheld (fun _ _ => trivial) nofun
        fun hsleeps => absurd (hfalse.symm.trans hsleeps) nofun⟩
  | exit point hdisabled hends =>
      refine ⟨_, h.exit hdisabled ?_⟩
      rcases hends with (rfl | rfl | ⟨b, timeleft, rfl⟩) | hfalse
      · exact hawake ⟨nofun, nofun⟩
      · exact hawake ⟨nofun, nofun⟩
      · exact hawake ⟨nofun, nofun⟩
      · exact hfalse

theorem Kept.step (h : Kept state entries) (hstep : Steps state action after) :
    ∃ entries, Kept after entries := by
  cases hstep with
  | alarmThread timeout shared point _ hmoves => exact h.moves hmoves
  | tick duration =>
      exact ⟨_, h.keep_main rfl ⟨rfl, rfl, rfl, rfl⟩ id (by simp) id fun _ ha => ha⟩
  | wakeUp => exact ⟨_, h.keep_main rfl ⟨rfl, rfl, rfl, rfl⟩ id (le_refl _) nofun fun _ ha => ha⟩
  | line seconds message a hmain hfree => exact ⟨_, h.allocate hfree seconds message⟩
  | eof | join => exact ⟨_, h.keep_main rfl ⟨rfl, rfl, rfl, rfl⟩ id (le_refl _) id nofun⟩
  | stop => exact ⟨_, h.keep_main rfl ⟨rfl, rfl, rfl, rfl⟩ nofun (le_refl _) nofun nofun⟩
  | insert a stamped shared last hmain houtside hstamp hinsert =>
      exact h.insert hmain hstamp hinsert

theorem kept_initial (now : Time) : Kept (initial now) [] where
  tidy := tidy_initial now
  serials _ := List.Perm.refl _
  punctual := nofun
  due := nofun
  idle _ _ := rfl
  asleep := nofun

variable {guard : State → Action → Prop} {now : Time}

theorem kept_of_reaches (hrun : Reaches step guard (initial now) state) :
    ∃ entries, Kept state entries := by
  induction hrun with
  | refl => exact ⟨[], kept_initial now⟩
  | tail action _ _ hstep ih =>
      obtain ⟨entries, h⟩ := ih
      exact h.step (step_cases hstep)

end ThreadPools.AlarmCond
