/-
# The alarm list

`alarm_insert` of the program `alarm_cond` walks along the alarm list with a pointer
to the link it may have to change, and keeps in a static variable the last alarm of
the list. Only the branch that appends sets that variable; the thread that takes
alarms from the head of the list and deletes them never does, so it dangles while the
list is empty.
-/

import Mathlib.Data.List.Sort
import ThreadPools.Memory.Chain

namespace ThreadPools.AlarmCond

open ThreadPools.Memory

/-- Time points and durations of the steady clock, in its ticks. The clock counts in 64 bits, and
`duration<double>` rounds the time that `main` sleeps; overflow and rounding are left out. -/
abbrev Time := Int

/-- `std::chrono::seconds` in ticks. -/
def seconds (n : Int) : Time := n * 1000000000

def ZERO : Time := seconds 0

/-- `alarm_tag` without its link. -/
structure Alarm where
  seconds : Int
  time : Time
  message : String
  /-- which insertion of `main` this alarm comes from; noted for the proofs only -/
  serial : Nat
  deriving DecidableEq

/-- The shared data, the static variable of `alarm_insert` and the clock. -/
structure Shared where
  /-- `alarm_list`, and the memory its alarms are allocated in -/
  alarmList : Chain Alarm
  longest : Option Address
  currentAlarm : Time
  enabled : Bool
  /-- the alarm thread is blocked on `alarm_cond` and no wake-up is pending -/
  asleep : Bool
  now : Time
  /-- the number of alarms `main` has inserted -/
  inserted : Nat
  /-- the alarms that have been handled, and when -/
  handled : List (Alarm × Time)

namespace Shared

/-- The alarm stored at an address. -/
def alarm (shared : Shared) (a : Address) : Option Alarm :=
  (shared.alarmList.cells.lookup a).map Cell.value

/-- A bound for the number of rounds of a loop along the list. -/
def rounds (shared : Shared) : Nat := shared.alarmList.cells.keys.length + 1

/-- The alarm thread is not busy, or the new alarm comes before the one it waits for. -/
def Wakes (shared : Shared) (time : Time) : Prop :=
  shared.currentAlarm = ZERO ∨ time < shared.currentAlarm

instance (shared : Shared) (time : Time) : Decidable (shared.Wakes time) :=
  inferInstanceAs (Decidable (_ ∨ _))

/-- The wake-up at the end of `alarm_insert`. -/
def wakeUp (shared : Shared) (time : Time) : Shared :=
  if shared.Wakes time then { shared with currentAlarm := time, asleep := false } else shared

/-- The links stored by `alarm_insert`: `next` is the first later alarm. -/
def store (shared : Shared) (alarm : Address) (last : Place) : Option Address → Shared
  | some next =>
      let linked := shared.alarmList.write (.link alarm) (some next)
      { shared with alarmList := linked.write last (some alarm) }
  | none =>
      let linked := shared.alarmList.write last (some alarm)
      { shared with alarmList := linked.write (.link alarm) none, longest := some alarm }

end Shared

/-- The loop of `alarm_insert`; it ends with the pointers `last` and `next`. -/
def walk (cells : Cells Alarm) (time : Time) :
    Nat → Place → Option Address → Option (Place × Option Address)
  | 0, _, _ => none
  | _ + 1, last, none => some (last, none)
  | rounds + 1, last, some next => do
      let cell ← cells.lookup next
      if time < cell.value.time then some (last, some next)
      else walk cells time rounds (.link next) cell.link

/-- `alarm_insert`; it fails if it reads an alarm that has been deleted. -/
def alarmInsert (alarm : Address) (shared : Shared) : Option (Shared × Time) := do
  let new ← shared.alarm alarm
  let (last, next) ← walk shared.alarmList.cells new.time shared.rounds .head
    shared.alarmList.head
  let inserted := (shared.store alarm last next).wakeUp new.time
  let longest ← inserted.longest.bind inserted.alarm
  some (inserted, longest.time)

/-- The loop of the verbose build that looks for the last alarm. -/
def lastAlarm (cells : Cells Alarm) :
    Nat → Option Address → Option Address → Option (Option Address)
  | 0, _, _ => none
  | _ + 1, longestAlarm, none => some longestAlarm
  | rounds + 1, _, some next => do
      let cell ← cells.lookup next
      lastAlarm cells rounds (some next) cell.link

/-- `longestAlarm` behind that loop. -/
def longestAlarm (shared : Shared) : Option (Option Address) :=
  lastAlarm shared.alarmList.cells shared.rounds shared.alarmList.head shared.alarmList.head

/-! ## The loops -/

/-- The loop stops in front of the first later alarm. -/
theorem walk_spec {cells : Cells Alarm} {rounds : Nat} {next : Option Address}
    {entries : List (Entry Alarm)} (time : Time) (last : Place)
    (h : cells.Segment none next entries) (hrounds : entries.length < rounds) :
    ∃ front back, entries = front ++ back ∧ (∀ e ∈ front, e.2.time ≤ time) ∧
      (∀ e, back.head? = some e → time < e.2.time) ∧
      walk cells time rounds last next = some (last.after front, start back) := by
  induction entries generalizing rounds last next with
  | nil =>
      obtain ⟨rounds, rfl⟩ := Nat.exists_eq_add_of_lt hrounds
      obtain rfl := h
      exact ⟨[], [], rfl, nofun, nofun, rfl⟩
  | cons entry rest ih =>
      obtain ⟨rfl, link, hcell, hrest⟩ := h
      obtain ⟨rounds, rfl⟩ : ∃ less, rounds = less + 1 := ⟨rounds - 1, by omega⟩
      by_cases hlater : time < entry.2.time
      · refine ⟨[], entry :: rest, rfl, nofun, ?_, ?_⟩
        · rintro e ⟨⟩
          exact hlater
        · simp [walk, hcell, hlater, start, Place.after]
      · obtain ⟨front, back, rfl, hfront, hback, hwalk⟩ :=
          ih (.link entry.1) hrest (by simp at hrounds; omega)
        refine ⟨entry :: front, back, rfl, ?_, hback, ?_⟩
        · intro e he
          rcases List.mem_cons.mp he with rfl | he
          · exact not_lt.mp hlater
          · exact hfront e he
        · simp [walk, hcell, hlater, hwalk, Place.after]

theorem lastAlarm_spec {cells : Cells Alarm} {rounds : Nat} {next : Option Address}
    {entries : List (Entry Alarm)} (longest : Option Address)
    (h : cells.Segment none next entries) (hrounds : entries.length < rounds) :
    lastAlarm cells rounds longest next =
      some (entries.getLast?.elim longest fun e => some e.1) := by
  induction entries generalizing rounds longest next with
  | nil =>
      obtain ⟨rounds, rfl⟩ := Nat.exists_eq_add_of_lt hrounds
      obtain rfl := h
      rfl
  | cons entry rest ih =>
      obtain ⟨rfl, link, hcell, hrest⟩ := h
      obtain ⟨rounds, rfl⟩ : ∃ less, rounds = less + 1 := ⟨rounds - 1, by omega⟩
      rw [lastAlarm, hcell]
      show lastAlarm cells rounds (some entry.1) link = _
      rw [ih _ hrest (by simp at hrounds; omega)]
      cases hlast : rest.getLast? with
      | none =>
          rw [List.getLast?_eq_none_iff] at hlast
          subst hlast
          rfl
      | some e => simp [List.getLast?_cons, hlast]

/-! ## The effect of `alarm_insert` -/

/-- The alarm list is sorted, and `longest` points to its last alarm. -/
structure Shared.Ordered (shared : Shared) (entries : List (Entry Alarm)) : Prop where
  lists : shared.alarmList.Lists entries
  sorted : entries.Pairwise fun first second => first.2.time ≤ second.2.time
  longest : ∀ e, entries.getLast? = some e → shared.longest = some e.1

/-- What `alarm_insert` makes of the shared data. -/
structure Inserted (shared : Shared) (a : Address) (new : Alarm) (next : Shared)
    (front back : List (Entry Alarm)) : Prop where
  ordered : next.Ordered (front ++ (a, new) :: back)
  earlier : ∀ e ∈ front, e.2.time ≤ new.time
  later : ∀ e ∈ back, new.time < e.2.time
  alarm : ∀ b, next.alarm b = shared.alarm b
  currentAlarm :
    next.currentAlarm = if shared.Wakes new.time then new.time else shared.currentAlarm
  asleep : next.asleep = if shared.Wakes new.time then false else shared.asleep
  enabled : next.enabled = shared.enabled
  now : next.now = shared.now
  inserted : next.inserted = shared.inserted
  handled : next.handled = shared.handled

namespace Shared

variable {shared : Shared} {a : Address} {new : Alarm} {entries front back : List (Entry Alarm)}

theorem Ordered.lookup_alarm (h : shared.Ordered entries) {e : Entry Alarm} (hmem : e ∈ entries) :
    shared.alarm e.1 = some e.2 := by
  obtain ⟨link, hcell⟩ := h.lists.lookup hmem
  simp [alarm, hcell]

theorem Ordered.length_lt (h : shared.Ordered entries) : entries.length < shared.rounds :=
  Nat.lt_succ_of_le (h.lists.segment.length_le h.lists.nodup)

/-- An insertion in front of the first later alarm keeps the order. -/
theorem sorted_insert
    (hsorted : (front ++ back).Pairwise fun first second => first.2.time ≤ second.2.time)
    (hearlier : ∀ e ∈ front, e.2.time ≤ new.time) (hlater : ∀ e ∈ back, new.time < e.2.time) :
    (front ++ (a, new) :: back).Pairwise fun first second => first.2.time ≤ second.2.time := by
  obtain ⟨hfront, hback, hcross⟩ := List.pairwise_append.mp hsorted
  refine List.pairwise_append.mpr
    ⟨hfront, List.pairwise_cons.mpr ⟨fun e he => le_of_lt (hlater e he), hback⟩, ?_⟩
  intro first hfirst second hsecond
  rcases List.mem_cons.mp hsecond with rfl | hsecond
  · exact hearlier first hfirst
  · exact hcross first hfirst second hsecond

/-- In a sorted list nothing behind the first later alarm is earlier. -/
theorem later_of_head
    (hsorted : (front ++ back).Pairwise fun first second => first.2.time ≤ second.2.time)
    {time : Time} (hhead : ∀ e, back.head? = some e → time < e.2.time) :
    ∀ e ∈ back, time < e.2.time := by
  intro e he
  cases back with
  | nil => cases he
  | cons first rest =>
      have hfirst := hhead first rfl
      rcases List.mem_cons.mp he with rfl | he
      · exact hfirst
      · have hle := (List.pairwise_cons.mp (List.pairwise_append.mp hsorted).2.1).1 e he
        exact lt_of_lt_of_le hfirst hle

/-- The wake-up changes nothing about the list. -/
theorem wakeUp_eq (shared : Shared) (time : Time) :
    shared.wakeUp time =
      { shared with
        currentAlarm := if shared.Wakes time then time else shared.currentAlarm
        asleep := if shared.Wakes time then false else shared.asleep } := by
  by_cases h : shared.Wakes time <;> simp [wakeUp, h]

/-- The stores change nothing but the list. -/
theorem store_eq (shared : Shared) (a : Address) (last : Place) (next : Option Address) :
    shared.store a last next =
      { shared with
        alarmList := (shared.store a last next).alarmList
        longest := (shared.store a last next).longest } := by
  cases next <;> rfl

/-- The values of the alarms are not touched by writing links. -/
theorem store_alarm (shared : Shared) (a : Address) (last : Place) (next : Option Address)
    (b : Address) : (shared.store a last next).alarm b = shared.alarm b := by
  cases next <;> simp [store, alarm, Chain.lookup_write, Function.comp_def]

end Shared

/-- `alarm_insert` of an allocated alarm that is not in the list. -/
theorem alarmInsert_spec {shared : Shared} {a : Address} {new : Alarm}
    {entries : List (Entry Alarm)} (h : shared.Ordered entries)
    (hnew : shared.alarm a = some new) (hfresh : a ∉ entries.map Prod.fst) :
    ∃ front back next longest, entries = front ++ back ∧
      alarmInsert a shared = some (next, longest) ∧ Inserted shared a new next front back := by
  obtain ⟨front, back, rfl, hearlier, hhead, hwalk⟩ :=
    walk_spec new.time .head h.lists.segment h.length_lt
  have hlater := Shared.later_of_head h.sorted hhead
  obtain ⟨cell, hcell, rfl⟩ := Option.map_eq_some_iff.mp hnew
  have hstored : (shared.store a (Place.head.after front) (start back)).Ordered
      (front ++ (a, cell.value) :: back) := by
    refine ⟨?_, Shared.sorted_insert h.sorted hearlier hlater, ?_⟩
    · cases back with
      | nil => exact h.lists.insert_link_last hcell hfresh
      | cons => exact h.lists.insert_link_first hcell hfresh
    · cases back with
      | nil =>
          intro e he
          rw [List.getLast?_append_cons] at he
          cases he
          rfl
      | cons first rest =>
          intro e he
          refine h.longest e ?_
          simpa [List.getLast?_append, List.getLast?_cons] using he
  generalize hstore : shared.store a (Place.head.after front) (start back) = stored at hstored
  have hordered : (stored.wakeUp cell.value.time).Ordered (front ++ (a, cell.value) :: back) := by
    rw [Shared.wakeUp_eq]
    exact ⟨hstored.lists, hstored.sorted, hstored.longest⟩
  obtain ⟨e, he⟩ : ∃ e, (front ++ (a, cell.value) :: back).getLast? = some e :=
    Option.isSome_iff_exists.mp (by simp)
  refine ⟨front, back, stored.wakeUp cell.value.time, e.2.time, rfl, ?_, hordered, hearlier,
    hlater, fun b => ?_, ?_, ?_, ?_, ?_, ?_, ?_⟩
  · simp [alarmInsert, hnew, hwalk, hstore, hordered.longest e he,
      hordered.lookup_alarm (List.mem_of_getLast? he)]
  · rw [← Shared.store_alarm shared a (Place.head.after front) (start back) b, hstore,
      Shared.wakeUp_eq]
    rfl
  · rw [Shared.wakeUp_eq, ← hstore, Shared.store_eq]
    rfl
  · rw [Shared.wakeUp_eq, ← hstore, Shared.store_eq]
    rfl
  all_goals rw [Shared.wakeUp_eq, ← hstore, Shared.store_eq]

end ThreadPools.AlarmCond
