/-
# The alarm thread and `main`

The alarm thread takes the first alarm of the list and waits on a condition variable
until its time has come or `main` has inserted an earlier one. All shared data are
accessed inside the mutex, which the alarm thread leaves only in its waits; the
critical sections of `main` are single steps. A timed wait may report a timeout as
soon as its deadline has passed, whether or not the thread has been notified before,
and it may end without a timeout at any time.
-/

import ThreadPools.Concurrency.Runs
import ThreadPools.AlarmCond.AlarmInsert

namespace ThreadPools.AlarmCond

open ThreadPools.Memory ThreadPools.Concurrency

/-- The points of `alarm_thread`. -/
inductive AlarmPoint
  /-- at the constructor of the lock -/
  | enter
  /-- at the top of the `do` loop -/
  | loop
  /-- at the loop around the untimed wait -/
  | idle
  /-- inside the untimed wait -/
  | sleeping
  /-- behind that loop -/
  | take
  /-- at the loop around the timed wait -/
  | test (alarm : Address) (timeleft : Time)
  /-- inside the timed wait -/
  | waiting (alarm : Address) (timeleft deadline : Time)
  /-- at the call of `alarm_insert` -/
  | reinsert (alarm : Address)
  /-- at the output -/
  | handle (alarm : Address)
  /-- at the condition of the `do` loop -/
  | again
  | exited
  deriving DecidableEq

namespace AlarmPoint

/-- The alarm thread is inside the mutex. -/
def inside : AlarmPoint → Bool
  | .enter | .sleeping | .waiting _ _ _ | .exited => false
  | _ => true

/-- The alarm the thread has taken from the list. -/
def held : AlarmPoint → Option Address
  | .test a _ | .waiting a _ _ | .reinsert a | .handle a => some a
  | _ => none

end AlarmPoint

/-- The points of `main`. -/
inductive MainPoint
  /-- at the input of a line -/
  | prompt
  /-- in front of the critical section that inserts an alarm -/
  | insert (alarm : Address)
  /-- in front of the critical section that clears `enabled` -/
  | stop
  /-- at `scheduler.join()` -/
  | join
  | exited
  deriving DecidableEq

/-- The alarm `main` has allocated and not inserted yet. -/
def MainPoint.held : MainPoint → Option Address
  | .insert a => some a
  | _ => none

/-- `alarm_list = link` -/
def Shared.popTo (shared : Shared) (link : Option Address) : Shared :=
  { shared with alarmList := { shared.alarmList with head := link } }

/-- `delete` of the alarm at `a`, which has just been handled. -/
def Shared.delete (shared : Shared) (a : Address) (alarm : Alarm) : Shared :=
  { shared with
    alarmList := { shared.alarmList with cells := shared.alarmList.cells.erase a }
    handled := shared.handled ++ [(alarm, shared.now)] }

/-- `alarm_thread`; `timeout` is the status a timed wait returns with. -/
def alarmThread (timeout : Bool) : AlarmPoint → Shared → Option (Shared × AlarmPoint)
  | .enter, shared => some (shared, .loop)
  | .loop, shared => some ({ shared with currentAlarm := ZERO }, .idle)
  | .idle, shared =>
      if shared.enabled ∧ shared.alarmList.head = none then
        some ({ shared with asleep := true }, .sleeping)
      else if shared.enabled then some (shared, .take)
      else some (shared, .exited)
  | .sleeping, shared => if shared.asleep then none else some (shared, .idle)
  | .take, shared => do
      let alarm ← shared.alarmList.head
      let cell ← shared.alarmList.cells.lookup alarm
      if cell.value.time > shared.now then
        some ({ shared.popTo cell.link with currentAlarm := cell.value.time },
          .test alarm (cell.value.time - shared.now))
      else some (shared.popTo cell.link, .handle alarm)
  | .test alarm timeleft, shared => do
      let value ← shared.alarm alarm
      if shared.enabled ∧ value.time = shared.currentAlarm then
        some ({ shared with asleep := true }, .waiting alarm timeleft (shared.now + timeleft))
      else if shared.enabled then some (shared, .reinsert alarm)
      else some (shared, .exited)
  | .waiting alarm timeleft deadline, shared =>
      if shared.asleep then none
      else if timeout then
        if deadline ≤ shared.now then
          some (shared, if shared.enabled then .handle alarm else .exited)
        else none
      else some (shared, .test alarm timeleft)
  | .reinsert alarm, shared =>
      (alarmInsert alarm shared).map fun result => (result.1, .again)
  | .handle alarm, shared => do
      let value ← shared.alarm alarm
      some (shared.delete alarm value, .again)
  | .again, shared => some (shared, if shared.enabled then .loop else .exited)
  | .exited, _ => none

/-- `main` sets the time of the alarm it inserts, without the overflow of a number of seconds
beyond the 64 bits of the clock. -/
def Shared.stamp (shared : Shared) (a : Address) : Option Shared := do
  let cell ← shared.alarmList.cells.lookup a
  let value := { cell.value with
    time := shared.now + seconds cell.value.seconds
    serial := shared.inserted }
  let cells := shared.alarmList.cells.insert a { cell with value := value }
  some { shared with
    alarmList := { shared.alarmList with cells := cells }
    inserted := shared.inserted + 1 }

/-- `new Alarm::alarm_t` and the input of its fields; the time is not set yet. -/
def Shared.allocate (shared : Shared) (a : Address) (seconds : Int) (message : String) : Shared :=
  let value := { seconds := seconds, time := ZERO, message := message, serial := 0 }
  let cells := shared.alarmList.cells.insert a { value := value, link := none }
  { shared with alarmList := { shared.alarmList with cells := cells } }

structure State where
  shared : Shared
  alarmThread : AlarmPoint
  main : MainPoint
  /-- the variable of `main` that holds the result of its latest `alarm_insert` -/
  last : Time

inductive Action
  /-- the clock advances -/
  | tick (duration : Nat)
  /-- the alarm thread goes on; `timeout` is the status of a timed wait -/
  | alarmThread (timeout : Bool)
  /-- the alarm thread leaves a wait without a notification -/
  | wakeUp
  /-- `main` reads a line; the memory allocator returns the address `a` -/
  | line (seconds : Int) (message : String) (a : Address)
  /-- `main` finds the end of its input -/
  | eof
  /-- `main` goes on -/
  | main

/-- The steps of `main` behind its input. -/
def State.runMain (state : State) : Option State :=
  match state.main with
  | .insert a =>
      if state.alarmThread.inside then none
      else do
        let stamped ← state.shared.stamp a
        let (shared, last) ← alarmInsert a stamped
        some { state with shared := shared, main := .prompt, last := last }
  | .stop =>
      if state.alarmThread.inside then none
      else
        let shared := { state.shared with enabled := false, asleep := false }
        some { state with shared := shared, main := .join }
  | .join => if state.alarmThread = .exited then some { state with main := .exited } else none
  | _ => none

/-- One atomic step. -/
def step (state : State) : Action → Option State
  | .tick duration =>
      some { state with shared := { state.shared with now := state.shared.now + duration } }
  | .alarmThread timeout =>
      (alarmThread timeout state.alarmThread state.shared).map fun result =>
        { state with shared := result.1, alarmThread := result.2 }
  | .wakeUp => some { state with shared := { state.shared with asleep := false } }
  | .line seconds message a =>
      if state.main = .prompt ∧ state.shared.alarm a = none then
        some { state with
          shared := state.shared.allocate a seconds message
          main := .insert a }
      else none
  | .eof => if state.main = .prompt then some { state with main := .stop } else none
  | .main => state.runMain

/-- The program starts at some time of the clock. -/
def initial (now : Time) : State where
  shared :=
    { alarmList := { head := none, cells := ∅ }
      longest := none
      currentAlarm := ZERO
      enabled := true
      asleep := false
      now := now
      inserted := 0
      handled := [] }
  alarmThread := .enter
  main := .prompt
  last := ZERO

end ThreadPools.AlarmCond
