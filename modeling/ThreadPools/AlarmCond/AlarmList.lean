/-
# The alarm list in every run

An allocated alarm is in the list, or taken by the alarm thread, or still with `main`.
What the two threads do to their own alarms does not touch the list, so it stays
sorted and `longest` points to its last alarm whenever there is one.
-/

import ThreadPools.AlarmCond.Steps

namespace ThreadPools.AlarmCond

open ThreadPools.Memory ThreadPools.Concurrency

variable {shared next : Shared} {a b : Address} {alarm : Alarm} {entries : List (Entry Alarm)}

namespace Shared

theorem alarm_eq_some : shared.alarm a = some alarm ↔
    ∃ link, shared.alarmList.cells.lookup a = some ⟨alarm, link⟩ := by
  simp only [Shared.alarm, Option.map_eq_some_iff]
  constructor
  · rintro ⟨cell, hcell, rfl⟩
    exact ⟨cell.link, hcell⟩
  · rintro ⟨link, hcell⟩
    exact ⟨_, hcell, rfl⟩

/-- The order is about the cells of the list and nothing else. -/
theorem Ordered.frame (h : shared.Ordered entries)
    (hhead : next.alarmList.head = shared.alarmList.head)
    (hlongest : next.longest = shared.longest)
    (hsame : ∀ a ∈ entries.map Prod.fst,
      next.alarmList.cells.lookup a = shared.alarmList.cells.lookup a) : next.Ordered entries :=
  ⟨h.lists.frame hhead hsame, h.sorted, fun e he => hlongest.trans (h.longest e he)⟩

theorem alarm_allocate_of_ne (hne : b ≠ a) (seconds : Int) (message : String) :
    (shared.allocate a seconds message).alarm b = shared.alarm b := by
  simp [Shared.alarm, allocate, AList.lookup_insert_ne hne]

theorem Ordered.allocate (h : shared.Ordered entries) (hfree : shared.alarm a = none)
    (seconds : Int) (message : String) : (shared.allocate a seconds message).Ordered entries := by
  refine h.frame rfl rfl fun b hb => AList.lookup_insert_ne ?_
  rintro rfl
  obtain ⟨e, he, rfl⟩ := List.mem_map.mp hb
  cases (h.lookup_alarm he).symm.trans hfree

/-- What `main` does before it inserts its alarm. -/
theorem stamp_spec {stamped : Shared} (hstamp : shared.stamp a = some stamped) :
    ∃ old, shared.alarm a = some old ∧
      stamped.alarm a = some { old with
        time := shared.now + seconds old.seconds, serial := shared.inserted } ∧
      (∀ b, b ≠ a → stamped.alarmList.cells.lookup b = shared.alarmList.cells.lookup b) ∧
      stamped = { shared with alarmList := stamped.alarmList, inserted := shared.inserted + 1 } ∧
      stamped.alarmList.head = shared.alarmList.head := by
  obtain ⟨cell, hcell, h⟩ := Option.bind_eq_some_iff.mp hstamp
  cases h
  refine ⟨cell.value, alarm_eq_some.mpr ⟨_, hcell⟩, ?_, fun b hb => AList.lookup_insert_ne hb,
    rfl, rfl⟩
  simp [Shared.alarm]

theorem Ordered.stamp {stamped : Shared} (h : shared.Ordered entries)
    (hstamp : shared.stamp a = some stamped) (hfresh : a ∉ entries.map Prod.fst) :
    stamped.Ordered entries := by
  obtain ⟨old, -, -, hsame, hstamped, hhead⟩ := stamp_spec hstamp
  refine h.frame hhead ?_ fun b hb => hsame b ?_
  · rw [hstamped]
  · rintro rfl
    exact hfresh hb

theorem alarm_delete_of_ne (hne : b ≠ a) : (shared.delete a alarm).alarm b = shared.alarm b := by
  simp [Shared.alarm, delete, AList.lookup_erase_ne hne]

theorem Ordered.delete (h : shared.Ordered entries) (hfresh : a ∉ entries.map Prod.fst) :
    (shared.delete a alarm).Ordered entries := by
  refine h.frame rfl rfl fun b hb => AList.lookup_erase_ne ?_
  rintro rfl
  exact hfresh hb

/-- The first alarm leaves the list. -/
theorem Ordered.popTo {cell : Cell Alarm} (h : shared.Ordered entries)
    (hhead : shared.alarmList.head = some a)
    (hcell : shared.alarmList.cells.lookup a = some cell) :
    ∃ rest, entries = (a, cell.value) :: rest ∧ (shared.popTo cell.link).Ordered rest := by
  cases entries with
  | nil => cases hhead.symm.trans (h.lists.head_eq_none.mpr rfl)
  | cons first rest =>
      obtain ⟨b, value⟩ := first
      obtain ⟨link, hlookup, hlists⟩ := h.lists.pop
      cases Option.some.inj (hhead.symm.trans h.lists.head_eq)
      cases Option.some.inj (hcell.symm.trans hlookup)
      refine ⟨rest, rfl, hlists, (List.pairwise_cons.mp h.sorted).2, fun e he => h.longest e ?_⟩
      simp [List.getLast?_cons, he]

end Shared

/-! ## Where alarms are -/

/-- The list is in order, and the alarms the threads hold are allocated outside of it. -/
structure Tidy (state : State) (entries : List (Entry Alarm)) : Prop where
  ordered : state.shared.Ordered entries
  held : ∀ a, state.alarmThread.held = some a → ∃ alarm, state.shared.alarm a = some alarm
  held_fresh : ∀ a, state.alarmThread.held = some a → a ∉ entries.map Prod.fst
  pending : ∀ a, state.main.held = some a → ∃ alarm, state.shared.alarm a = some alarm
  pending_fresh : ∀ a, state.main.held = some a → a ∉ entries.map Prod.fst
  distinct : ∀ a, state.alarmThread.held = some a → state.main.held ≠ some a

variable {state after : State} {action : Action} {point : AlarmPoint}

/-- Steps of the alarm thread that leave the list and its own alarm alone. -/
theorem Tidy.keep (h : Tidy state entries) (hlist : next.alarmList = state.shared.alarmList)
    (hlongest : next.longest = state.shared.longest)
    (hheld : ∀ a, point.held = some a → state.alarmThread.held = some a) :
    Tidy { state with shared := next, alarmThread := point } entries where
  ordered := h.ordered.frame (by rw [hlist]) hlongest fun a _ => by rw [hlist]
  held a ha := by
    obtain ⟨alarm, halarm⟩ := h.held a (hheld a ha)
    exact ⟨alarm, by rw [Shared.alarm, hlist]; exact halarm⟩
  held_fresh a ha := h.held_fresh a (hheld a ha)
  pending a ha := by
    obtain ⟨alarm, halarm⟩ := h.pending a ha
    exact ⟨alarm, by rw [Shared.alarm, hlist]; exact halarm⟩
  pending_fresh := h.pending_fresh
  distinct a ha := h.distinct a (hheld a ha)

/-- The alarm thread takes the first alarm. -/
theorem Tidy.pop {cell : Cell Alarm} (h : Tidy state entries)
    (hhead : state.shared.alarmList.head = some a)
    (hcell : state.shared.alarmList.cells.lookup a = some cell)
    (hlist : next.alarmList = (state.shared.popTo cell.link).alarmList)
    (hlongest : next.longest = state.shared.longest) (hpoint : point.held = some a) :
    ∃ rest, entries = (a, cell.value) :: rest ∧
      Tidy { state with shared := next, alarmThread := point } rest := by
  obtain ⟨rest, rfl, hordered⟩ := h.ordered.popTo hhead hcell
  have halarm : ∀ b, next.alarm b = state.shared.alarm b := fun b => by
    rw [Shared.alarm, hlist]
    rfl
  have hfresh : a ∉ rest.map Prod.fst := (List.nodup_cons.mp h.ordered.lists.nodup).1
  refine ⟨rest, rfl, hordered.frame (by rw [hlist]) hlongest fun b _ => by rw [hlist],
    fun b hb => ?_, fun b hb => ?_, fun b hb => ?_, fun b hb hmem => ?_, fun b hb hpending => ?_⟩
  · cases hpoint.symm.trans hb
    exact ⟨cell.value, (halarm a).trans (Shared.alarm_eq_some.mpr ⟨_, hcell⟩)⟩
  · cases hpoint.symm.trans hb
    exact hfresh
  · obtain ⟨alarm, hpending⟩ := h.pending b hb
    exact ⟨alarm, (halarm b).trans hpending⟩
  · exact h.pending_fresh b hb (List.mem_cons_of_mem _ hmem)
  · cases hpoint.symm.trans hb
    exact h.pending_fresh a hpending List.mem_cons_self

/-- What is in the list behind an insertion. -/
theorem not_mem_inserted {front back : List (Entry Alarm)} {new : Alarm} (hne : b ≠ a)
    (hfresh : b ∉ (front ++ back).map Prod.fst) :
    b ∉ (front ++ (a, new) :: back).map Prod.fst := by
  rw [List.map_append, List.mem_append] at *
  rw [List.map_cons, List.mem_cons]
  rintro (hfront | rfl | hback)
  · exact hfresh (.inl hfront)
  · exact hne rfl
  · exact hfresh (.inr hback)

/-- The alarm thread inserts its alarm again. -/
theorem Tidy.reinsert (h : Tidy state entries) (hpoint : state.alarmThread = .reinsert a) :
    ∃ new front back next longest, entries = front ++ back ∧ state.shared.alarm a = some new ∧
      alarmInsert a state.shared = some (next, longest) ∧
      Inserted state.shared a new next front back ∧
      Tidy { state with shared := next, alarmThread := .again } (front ++ (a, new) :: back) := by
  have hheld : state.alarmThread.held = some a := by rw [hpoint]; rfl
  obtain ⟨new, hnew⟩ := h.held a hheld
  obtain ⟨front, back, next, longest, rfl, hinsert, hinserted⟩ :=
    alarmInsert_spec h.ordered hnew (h.held_fresh a hheld)
  refine ⟨new, front, back, next, longest, rfl, hnew, hinsert, hinserted, hinserted.ordered,
    nofun, nofun, fun b hb => ?_, fun b hb => ?_, nofun⟩
  · obtain ⟨alarm, halarm⟩ := h.pending b hb
    exact ⟨alarm, (hinserted.alarm b).trans halarm⟩
  · refine not_mem_inserted (fun heq => ?_) (h.pending_fresh b hb)
    exact h.distinct a hheld (heq ▸ hb)

/-- `main` inserts its alarm. -/
theorem Tidy.insert (h : Tidy state entries) (hmain : state.main = .insert a) {stamped : Shared}
    (hstamp : state.shared.stamp a = some stamped) :
    ∃ new front back next longest, entries = front ++ back ∧ stamped.alarm a = some new ∧
      alarmInsert a stamped = some (next, longest) ∧ Inserted stamped a new next front back ∧
      Tidy { state with shared := next, main := .prompt, last := longest }
        (front ++ (a, new) :: back) := by
  have hheld : state.main.held = some a := by rw [hmain]; rfl
  have hfresh := h.pending_fresh a hheld
  obtain ⟨old, -, hnew, hsame, -, -⟩ := Shared.stamp_spec hstamp
  obtain ⟨front, back, next, longest, rfl, hinsert, hinserted⟩ :=
    alarmInsert_spec (h.ordered.stamp hstamp hfresh) hnew hfresh
  refine ⟨_, front, back, next, longest, rfl, hnew, hinsert, hinserted, hinserted.ordered,
    fun b hb => ?_, fun b hb => ?_, nofun, nofun, nofun⟩
  · obtain ⟨alarm, halarm⟩ := h.held b hb
    have hne : b ≠ a := fun heq => h.distinct b hb (heq ▸ hheld)
    refine ⟨alarm, (hinserted.alarm b).trans ?_⟩
    rw [Shared.alarm, hsame b hne]
    exact halarm
  · refine not_mem_inserted (fun heq => ?_) (h.held_fresh b hb)
    exact h.distinct b hb (heq ▸ hheld)

/-- `main` allocates an alarm. -/
theorem Tidy.allocate (h : Tidy state entries)
    (hfree : state.shared.alarm a = none) (seconds : Int) (message : String) :
    Tidy { state with
      shared := state.shared.allocate a seconds message
      main := .insert a } entries := by
  refine ⟨h.ordered.allocate hfree seconds message, fun b hb => ?_, h.held_fresh,
    fun b hb => ?_, fun b hb hmem => ?_, fun b hb hpending => ?_⟩
  · obtain ⟨alarm, halarm⟩ := h.held b hb
    refine ⟨alarm, (Shared.alarm_allocate_of_ne ?_ seconds message).trans halarm⟩
    rintro rfl
    cases halarm.symm.trans hfree
  · cases hb
    simp [Shared.alarm, Shared.allocate]
  · cases hb
    obtain ⟨e, he, rfl⟩ := List.mem_map.mp hmem
    cases (h.ordered.lookup_alarm he).symm.trans hfree
  · cases hpending
    obtain ⟨alarm, halarm⟩ := h.held a hb
    cases halarm.symm.trans hfree

/-- The alarm thread deletes the alarm it has handled. -/
theorem Tidy.delete (h : Tidy state entries) (hpoint : state.alarmThread = .handle a) :
    Tidy { state with shared := state.shared.delete a alarm, alarmThread := .again } entries := by
  have hheld : state.alarmThread.held = some a := by rw [hpoint]; rfl
  refine ⟨h.ordered.delete (h.held_fresh a hheld), nofun, nofun, fun b hb => ?_, h.pending_fresh,
    nofun⟩
  obtain ⟨other, hother⟩ := h.pending b hb
  refine ⟨other, (Shared.alarm_delete_of_ne ?_).trans hother⟩
  rintro rfl
  exact h.distinct b hheld hb

/-- Steps of `main` and of the clock that leave the list and the alarms alone. -/
theorem Tidy.keep_main {main : MainPoint} {last : Time} (h : Tidy state entries)
    (hlist : next.alarmList = state.shared.alarmList)
    (hlongest : next.longest = state.shared.longest)
    (hmain : ∀ a, main.held = some a → state.main.held = some a) :
    Tidy { state with shared := next, main := main, last := last } entries where
  ordered := h.ordered.frame (by rw [hlist]) hlongest fun a _ => by rw [hlist]
  held a ha := by
    obtain ⟨alarm, halarm⟩ := h.held a ha
    exact ⟨alarm, by rw [Shared.alarm, hlist]; exact halarm⟩
  held_fresh := h.held_fresh
  pending a ha := by
    obtain ⟨alarm, halarm⟩ := h.pending a (hmain a ha)
    exact ⟨alarm, by rw [Shared.alarm, hlist]; exact halarm⟩
  pending_fresh a ha := h.pending_fresh a (hmain a ha)
  distinct a ha := fun hpending => h.distinct a ha (hmain a hpending)

/-- A step of the alarm thread keeps the alarms tidy. -/
theorem Tidy.moves (h : Tidy state entries)
    (hmoves : Moves state.shared state.alarmThread next point) :
    ∃ entries, Tidy { state with shared := next, alarmThread := point } entries := by
  generalize hpoint : state.alarmThread = source at hmoves
  cases hmoves with
  | enter | loop | sleep | take | resume | again | exit => exact ⟨entries, h.keep rfl rfl nofun⟩
  | wait | changed | woken | expired =>
      refine ⟨entries, h.keep rfl rfl fun b hb => ?_⟩
      rw [hpoint]
      exact hb
  | pop b cell next point hhead hcell hpop =>
      rcases hpop with ⟨-, rfl, rfl⟩ | ⟨-, rfl, rfl⟩
      · exact (h.pop hhead hcell (by rfl) (by rfl) (by rfl)).imp fun _ htidy => htidy.2
      · exact (h.pop hhead hcell (by rfl) (by rfl) (by rfl)).imp fun _ htidy => htidy.2
  | reinsert b next longest hinsert =>
      obtain ⟨new, front, back, result, _, -, -, hresult, -, htidy⟩ := h.reinsert hpoint
      cases hinsert.symm.trans hresult
      exact ⟨_, htidy⟩
  | handle b alarm => exact ⟨entries, h.delete hpoint⟩

theorem Tidy.step (h : Tidy state entries) (hstep : Steps state action after) :
    ∃ entries, Tidy after entries := by
  cases hstep with
  | alarmThread timeout shared point _ hmoves => exact h.moves hmoves
  | tick | wakeUp => exact ⟨entries, h.keep_main rfl rfl fun _ ha => ha⟩
  | line seconds message a hmain hfree => exact ⟨entries, h.allocate hfree seconds message⟩
  | eof | stop | join => exact ⟨entries, h.keep_main rfl rfl nofun⟩
  | insert a stamped shared last hmain houtside hstamp hinsert =>
      obtain ⟨new, front, back, result, _, -, -, hresult, -, htidy⟩ := h.insert hmain hstamp
      cases hinsert.symm.trans hresult
      exact ⟨_, htidy⟩

theorem tidy_initial (now : Time) : Tidy (initial now) [] where
  ordered := ⟨⟨rfl, List.nodup_nil⟩, List.Pairwise.nil, nofun⟩
  held := nofun
  held_fresh := nofun
  pending := nofun
  pending_fresh := nofun
  distinct := nofun

variable {guard : State → Action → Prop} {now : Time}

theorem tidy_of_reaches (hrun : Reaches step guard (initial now) state) :
    ∃ entries, Tidy state entries := by
  induction hrun with
  | refl => exact ⟨[], tidy_initial now⟩
  | tail action _ _ hstep ih =>
      obtain ⟨entries, h⟩ := ih
      exact h.step (step_cases hstep)

/-! ## Every call of `alarm_insert` -/

/-- The step calls `alarm_insert(a)` with these shared data. -/
inductive Calls (state : State) : Action → Address → Shared → Prop
  | main (a : Address) (stamped : Shared) (hmain : state.main = .insert a)
      (houtside : state.alarmThread.inside = false)
      (hstamp : state.shared.stamp a = some stamped) : Calls state .main a stamped
  | alarmThread (timeout : Bool) (a : Address) (hpoint : state.alarmThread = .reinsert a) :
      Calls state (.alarmThread timeout) a state.shared

/-- In every run every `alarm_insert` succeeds, puts its alarm behind all alarms that are
not later and in front of the later ones, leaves the others in their order, and
`longest` points to the last alarm of the sorted list, as the verbose build asserts. -/
theorem alarmInsert_keeps_order (hrun : Reaches step guard (initial now) state)
    (hcall : Calls state action a shared) :
    ∃ new front back inserted longest after,
      alarmInsert a shared = some (inserted, longest) ∧
      step state action = some after ∧ after.shared = inserted ∧
      shared.alarmList.Lists (front ++ back) ∧ shared.alarm a = some new ∧
      inserted.alarmList.Lists (front ++ (a, new) :: back) ∧
      (∀ e ∈ front, e.2.time ≤ new.time) ∧ (∀ e ∈ back, new.time < e.2.time) ∧
      ((front ++ (a, new) :: back).Pairwise fun first second => first.2.time ≤ second.2.time) ∧
      inserted.longest = (front ++ (a, new) :: back).getLast?.map Prod.fst ∧
      longestAlarm inserted = some inserted.longest := by
  obtain ⟨entries, htidy⟩ := tidy_of_reaches hrun
  -- the static variable and the loop of the verbose build agree on a list in order
  have hlongest : ∀ {inserted : Shared} {front back : List (Entry Alarm)} {new : Alarm},
      inserted.Ordered (front ++ (a, new) :: back) →
        inserted.longest = (front ++ (a, new) :: back).getLast?.map Prod.fst ∧
          longestAlarm inserted = some inserted.longest := by
    intro inserted front back new hordered
    obtain ⟨e, he⟩ : ∃ e, (front ++ (a, new) :: back).getLast? = some e :=
      Option.isSome_iff_exists.mp (by simp)
    have hlast := hordered.longest e he
    have hverbose := lastAlarm_spec inserted.alarmList.head hordered.lists.segment
      hordered.length_lt
    rw [he] at hverbose
    exact ⟨by rw [hlast, he]; rfl, hverbose.trans (congrArg some hlast.symm)⟩
  cases hcall with
  | main a stamped hmain houtside hstamp =>
      obtain ⟨new, front, back, inserted, longest, rfl, hnew, hinsert, hinserted, -⟩ :=
        htidy.insert hmain hstamp
      have hfresh : a ∉ (front ++ back).map Prod.fst := htidy.pending_fresh a (by rw [hmain]; rfl)
      refine ⟨new, front, back, inserted, longest,
        { state with shared := inserted, main := .prompt, last := longest }, hinsert, ?_, rfl,
        (htidy.ordered.stamp hstamp hfresh).lists, hnew, hinserted.ordered.lists,
        hinserted.earlier, hinserted.later, hinserted.ordered.sorted,
        hlongest hinserted.ordered⟩
      simp [step, State.runMain, hmain, houtside, hstamp, hinsert]
  | alarmThread timeout a hpoint =>
      obtain ⟨new, front, back, inserted, longest, rfl, hnew, hinsert, hinserted, -⟩ :=
        htidy.reinsert hpoint
      refine ⟨new, front, back, inserted, longest,
        { state with shared := inserted, alarmThread := .again }, hinsert, ?_, rfl,
        htidy.ordered.lists, hnew, hinserted.ordered.lists, hinserted.earlier, hinserted.later,
        hinserted.ordered.sorted,
        hlongest hinserted.ordered⟩
      simp [step, hpoint, alarmThread, hinsert]

/-- The third alarm is inserted between the first two. -/
theorem alarmInsert_keeps_order_between : ∃ shared inserted longest front back new,
    alarmInsert 3 shared = some (inserted, longest) ∧
      inserted.alarmList.Lists (front ++ (3, new) :: back) ∧
      longestAlarm inserted = some inserted.longest := by
  obtain ⟨state, hrun, hobserved⟩ : ∃ state : State,
      Reaches step (fun _ _ => True) (initial 0) state ∧
        (state.main, state.alarmThread, (state.shared.stamp 3).isSome) =
        (.insert 3, .enter, true) :=
    Reaches.of_observed (fun _ _ => true)
      [.line 9 "late" 1, .main, .line 2 "early" 2, .main, .tick 7, .line 5 "between" 3]
      (fun _ _ _ => trivial) (by decide +kernel)
  simp only [Prod.mk.injEq] at hobserved
  obtain ⟨hmain, hpoint, hstamp⟩ := hobserved
  obtain ⟨stamped, hstamp⟩ := Option.isSome_iff_exists.mp hstamp
  obtain ⟨new, front, back, inserted, longest, -, hinsert, -, -, -, -, hlists, -, -, -, -,
    hverbose⟩ := alarmInsert_keeps_order hrun (.main 3 stamped hmain (by rw [hpoint]; rfl) hstamp)
  exact ⟨stamped, inserted, longest, front, back, new, hinsert, hlists, hverbose⟩

end ThreadPools.AlarmCond
