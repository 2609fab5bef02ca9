/-
# The steps of the alarm program

What a step of the program can be, case by case: every later proof analyses steps by
these cases and does not unfold the program again.
-/

import ThreadPools.AlarmCond.Program

namespace ThreadPools.AlarmCond

open ThreadPools.Memory ThreadPools.Concurrency

/-- The steps of the alarm thread. -/
inductive Moves (shared : Shared) : AlarmPoint → Shared → AlarmPoint → Prop
  | enter : Moves shared .enter shared .loop
  | loop : Moves shared .loop { shared with currentAlarm := ZERO } .idle
  | sleep (henabled : shared.enabled = true) (hempty : shared.alarmList.head = none) :
      Moves shared .idle { shared with asleep := true } .sleeping
  | take (henabled : shared.enabled = true) (hfound : shared.alarmList.head ≠ none) :
      Moves shared .idle shared .take
  | resume (hawake : shared.asleep = false) : Moves shared .sleeping shared .idle
  | pop (a : Address) (cell : Cell Alarm) (next : Shared) (point : AlarmPoint)
      (hhead : shared.alarmList.head = some a)
      (hcell : shared.alarmList.cells.lookup a = some cell)
      (hpop : (shared.now < cell.value.time ∧
          next = { shared.popTo cell.link with currentAlarm := cell.value.time } ∧
          point = .test a (cell.value.time - shared.now)) ∨
        (cell.value.time ≤ shared.now ∧ next = shared.popTo cell.link ∧ point = .handle a)) :
      Moves shared .take next point
  | wait (a : Address) (timeleft : Time) (alarm : Alarm) (henabled : shared.enabled = true)
      (halarm : shared.alarm a = some alarm) (hcurrent : alarm.time = shared.currentAlarm) :
      Moves shared (.test a timeleft) { shared with asleep := true }
        (.waiting a timeleft (shared.now + timeleft))
  | changed (a : Address) (timeleft : Time) (henabled : shared.enabled = true) :
      Moves shared (.test a timeleft) shared (.reinsert a)
  | woken (a : Address) (timeleft deadline : Time) (hawake : shared.asleep = false) :
      Moves shared (.waiting a timeleft deadline) shared (.test a timeleft)
  | expired (a : Address) (timeleft deadline : Time) (hawake : shared.asleep = false)
      (hdeadline : deadline ≤ shared.now) (henabled : shared.enabled = true) :
      Moves shared (.waiting a timeleft deadline) shared (.handle a)
  | reinsert (a : Address) (next : Shared) (longest : Time)
      (hinsert : alarmInsert a shared = some (next, longest)) :
      Moves shared (.reinsert a) next .again
  | handle (a : Address) (alarm : Alarm) (halarm : shared.alarm a = some alarm) :
      Moves shared (.handle a) (shared.delete a alarm) .again
  | again (henabled : shared.enabled = true) : Moves shared .again shared .loop
  | exit (point : AlarmPoint) (hdisabled : shared.enabled = false)
      (hawake : (point = .idle ∨ point = .again ∨ ∃ a timeleft, point = .test a timeleft) ∨
        shared.asleep = false) : Moves shared point shared .exited

theorem alarmThread_moves {timeout : Bool} {point next : AlarmPoint} {shared after : Shared}
    (h : alarmThread timeout point shared = some (after, next)) :
    Moves shared point after next := by
  cases point with
  | enter =>
      cases h
      exact .enter
  | loop =>
      cases h
      exact .loop
  | idle =>
      simp only [alarmThread] at h
      split at h
      · next hempty =>
          cases h
          exact .sleep hempty.1 hempty.2
      · next hne =>
          split at h
          · next henabled =>
              cases h
              exact .take henabled fun hempty => hne ⟨henabled, hempty⟩
          · next hdisabled =>
              cases h
              exact .exit _ (Bool.eq_false_iff.mpr hdisabled) (.inl (.inl rfl))
  | sleeping =>
      simp only [alarmThread] at h
      split at h
      · cases h
      · next hawake =>
          cases h
          exact .resume (Bool.eq_false_iff.mpr hawake)
  | take =>
      obtain ⟨a, hhead, h⟩ := Option.bind_eq_some_iff.mp h
      obtain ⟨cell, hcell, h⟩ := Option.bind_eq_some_iff.mp h
      split at h
      · next hfuture =>
          cases h
          exact .pop a cell _ _ hhead hcell (.inl ⟨hfuture, rfl, rfl⟩)
      · next hpast =>
          cases h
          exact .pop a cell _ _ hhead hcell (.inr ⟨not_lt.mp hpast, rfl, rfl⟩)
  | test a timeleft =>
      obtain ⟨alarm, halarm, h⟩ := Option.bind_eq_some_iff.mp h
      split at h
      · next hcurrent =>
          cases h
          exact .wait a timeleft alarm hcurrent.1 halarm hcurrent.2
      · split at h
        · next henabled =>
            cases h
            exact .changed a timeleft henabled
        · next hdisabled =>
            cases h
            exact .exit _ (Bool.eq_false_iff.mpr hdisabled) (.inl (.inr (.inr ⟨_, _, rfl⟩)))
  | waiting a timeleft deadline =>
      simp only [alarmThread] at h
      split at h
      · cases h
      · next hawake =>
          have hawake : shared.asleep = false := Bool.eq_false_iff.mpr hawake
          split at h
          · split at h
            · next hdeadline =>
                cases henabled : shared.enabled with
                | true =>
                    simp only [henabled, if_true, Option.some.injEq, Prod.mk.injEq] at h
                    obtain ⟨rfl, rfl⟩ := h
                    exact .expired a timeleft deadline hawake hdeadline henabled
                | false =>
                    simp only [henabled, Bool.false_eq_true, if_false, Option.some.injEq,
                      Prod.mk.injEq] at h
                    obtain ⟨rfl, rfl⟩ := h
                    exact .exit _ henabled (.inr hawake)
            · cases h
          · cases h
            exact .woken a timeleft deadline hawake
  | reinsert a =>
      obtain ⟨⟨result, longest⟩, hinsert, h⟩ := Option.map_eq_some_iff.mp h
      cases h
      exact .reinsert a result longest hinsert
  | handle a =>
      obtain ⟨alarm, halarm, h⟩ := Option.bind_eq_some_iff.mp h
      cases h
      exact .handle a alarm halarm
  | again =>
      cases henabled : shared.enabled with
      | true =>
          simp only [alarmThread, henabled, if_true, Option.some.injEq, Prod.mk.injEq] at h
          obtain ⟨rfl, rfl⟩ := h
          exact .again henabled
      | false =>
          simp only [alarmThread, henabled, Bool.false_eq_true, if_false, Option.some.injEq,
            Prod.mk.injEq] at h
          obtain ⟨rfl, rfl⟩ := h
          exact .exit _ henabled (.inl (.inr (.inl rfl)))
  | exited => cases h

/-- The steps of the program. -/
inductive Steps (state : State) : Action → State → Prop
  | tick (duration : Nat) :
      Steps state (.tick duration)
        { state with shared := { state.shared with now := state.shared.now + duration } }
  | alarmThread (timeout : Bool) (shared : Shared) (point : AlarmPoint)
      (hthread : alarmThread timeout state.alarmThread state.shared = some (shared, point))
      (hmoves : Moves state.shared state.alarmThread shared point) :
      Steps state (.alarmThread timeout) { state with shared := shared, alarmThread := point }
  | wakeUp : Steps state .wakeUp { state with shared := { state.shared with asleep := false } }
  | line (seconds : Int) (message : String) (a : Address) (hmain : state.main = .prompt)
      (hfree : state.shared.alarm a = none) :
      Steps state (.line seconds message a)
        { state with shared := state.shared.allocate a seconds message, main := .insert a }
  | eof (hmain : state.main = .prompt) : Steps state .eof { state with main := .stop }
  | insert (a : Address) (stamped shared : Shared) (last : Time) (hmain : state.main = .insert a)
      (houtside : state.alarmThread.inside = false) (hstamp : state.shared.stamp a = some stamped)
      (hinsert : alarmInsert a stamped = some (shared, last)) :
      Steps state .main { state with shared := shared, main := .prompt, last := last }
  | stop (hmain : state.main = .stop) (houtside : state.alarmThread.inside = false) :
      Steps state .main
        { state with
          shared := { state.shared with enabled := false, asleep := false }, main := .join }
  | join (hmain : state.main = .join) (hexited : state.alarmThread = .exited) :
      Steps state .main { state with main := .exited }

theorem step_cases {state next : State} {action : Action} (h : step state action = some next) :
    Steps state action next := by
  cases action with
  | tick duration =>
      cases h
      exact .tick duration
  | alarmThread timeout =>
      obtain ⟨⟨shared, point⟩, hthread, h⟩ := Option.map_eq_some_iff.mp h
      cases h
      exact .alarmThread timeout shared point hthread (alarmThread_moves hthread)
  | wakeUp =>
      cases h
      exact .wakeUp
  | line seconds message a =>
      simp only [step] at h
      split at h
      · next hfree =>
          cases h
          exact .line seconds message a hfree.1 hfree.2
      · cases h
  | eof =>
      simp only [step] at h
      split at h
      · next hmain =>
          cases h
          exact .eof hmain
      · cases h
  | main =>
      simp only [step, State.runMain] at h
      split at h
      · next a hmain =>
          split at h
          · cases h
          · next houtside =>
              obtain ⟨stamped, hstamp, h⟩ := Option.bind_eq_some_iff.mp h
              obtain ⟨⟨shared, last⟩, hinsert, h⟩ := Option.bind_eq_some_iff.mp h
              cases h
              exact .insert a stamped shared last hmain (Bool.eq_false_iff.mpr houtside) hstamp
                hinsert
      · next hmain =>
          split at h
          · cases h
          · next houtside =>
              cases h
              exact .stop hmain (Bool.eq_false_iff.mpr houtside)
      · next hmain =>
          split at h
          · next hexited =>
              cases h
              exact .join hmain hexited
          · cases h
      · cases h

end ThreadPools.AlarmCond
