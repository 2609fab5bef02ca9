/-
# Singly linked lists in memory

Cells carry a value and the address of the next cell, and a header holds the
address of the first one. A list is edited through the place of a link, which is
the header or the link of a cell, as with a pointer to a pointer. A segment is
the path from one address to another together with the values met on it; what is
not on the path may change without harm.
-/

import Mathlib.Data.List.AList
import Mathlib.Data.List.Perm.Subperm

namespace ThreadPools.Memory

abbrev Address := Nat

structure Cell (V : Type*) where
  value : V
  link : Option Address

/-- The allocated cells. -/
abbrev Cells (V : Type*) := AList fun _ : Address => Cell V

/-- An address together with the value of its cell. -/
abbrev Entry (V : Type*) := Address × V

/-- Where a link is stored. -/
inductive Place
  | head
  | link (a : Address)
  deriving DecidableEq

/-- The place behind the last of some entries. -/
def Place.after {V : Type*} (place : Place) : List (Entry V) → Place
  | [] => place
  | entry :: rest => Place.after (.link entry.1) rest

/-- A list: its header and the memory. -/
structure Chain (V : Type*) where
  head : Option Address
  cells : Cells V

variable {V : Type*}

/-- The first address of some entries. -/
def start (entries : List (Entry V)) : Option Address := entries.head?.map Prod.fst

theorem Place.after_append (place : Place) (front back : List (Entry V)) :
    place.after (front ++ back) = (place.after front).after back := by
  induction front generalizing place with
  | nil => rfl
  | cons entry front ih => exact ih _

theorem Place.after_concat (place : Place) (front : List (Entry V)) (entry : Entry V) :
    place.after (front ++ [entry]) = .link entry.1 := by
  rw [Place.after_append]
  rfl

namespace Cells

/-- Store a link in a cell. -/
def setLink (cells : Cells V) (a : Address) (target : Option Address) : Cells V :=
  match cells.lookup a with
  | none => cells
  | some cell => cells.insert a { cell with link := target }

theorem lookup_setLink_self (cells : Cells V) (a : Address) (target : Option Address) :
    (cells.setLink a target).lookup a =
      (cells.lookup a).map fun cell => { cell with link := target } := by
  unfold setLink
  cases h : cells.lookup a with
  | none => exact h
  | some cell => simp

theorem lookup_setLink_of_ne (cells : Cells V) {a b : Address} (hne : b ≠ a)
    (target : Option Address) : (cells.setLink a target).lookup b = cells.lookup b := by
  unfold setLink
  cases cells.lookup a with
  | none => rfl
  | some cell => exact AList.lookup_insert_ne hne

/-- The cells on the path from `first` to `stop` are the `entries`. -/
def Segment (cells : Cells V) (stop : Option Address) : Option Address → List (Entry V) → Prop
  | first, [] => first = stop
  | first, entry :: rest =>
      first = some entry.1 ∧ ∃ link, cells.lookup entry.1 = some ⟨entry.2, link⟩ ∧
        Segment cells stop link rest

variable {cells other : Cells V} {first stop : Option Address} {entries front back : List (Entry V)}

theorem Segment.append (hfront : cells.Segment stop first front) {final : Option Address}
    (hback : cells.Segment final stop back) : cells.Segment final first (front ++ back) := by
  induction front generalizing first with
  | nil => exact hfront ▸ hback
  | cons entry front ih =>
      obtain ⟨hfirst, link, hcell, hrest⟩ := hfront
      exact ⟨hfirst, link, hcell, ih hrest⟩

theorem Segment.of_append (h : cells.Segment stop first (front ++ back)) :
    ∃ middle, cells.Segment middle first front ∧ cells.Segment stop middle back := by
  induction front generalizing first with
  | nil => exact ⟨first, rfl, h⟩
  | cons entry front ih =>
      obtain ⟨hfirst, link, hcell, hrest⟩ := h
      obtain ⟨middle, hfront, hback⟩ := ih hrest
      exact ⟨middle, ⟨hfirst, link, hcell, hfront⟩, hback⟩

/-- A path that ends behind the last cell starts at its first one. -/
theorem Segment.start_eq (h : cells.Segment none first entries) : first = start entries := by
  cases entries with
  | nil => exact h
  | cons entry rest => exact h.1

/-- A segment depends on its own cells only. -/
theorem Segment.frame (h : cells.Segment stop first entries)
    (hsame : ∀ a ∈ entries.map Prod.fst, other.lookup a = cells.lookup a) :
    other.Segment stop first entries := by
  induction entries generalizing first with
  | nil => exact h
  | cons entry rest ih =>
      obtain ⟨hfirst, link, hcell, hrest⟩ := h
      refine ⟨hfirst, link, ?_, ih hrest fun a ha => hsame a (List.mem_cons_of_mem _ ha)⟩
      rw [hsame entry.1 List.mem_cons_self, hcell]

/-- The path through a last cell whose link is replaced ends elsewhere. -/
theorem Segment.redirect {entry : Entry V} {target : Option Address}
    (h : cells.Segment stop first (front ++ [entry]))
    (hlast : other.lookup entry.1 = some ⟨entry.2, target⟩)
    (hsame : ∀ a ∈ front.map Prod.fst, other.lookup a = cells.lookup a) :
    other.Segment target first (front ++ [entry]) := by
  obtain ⟨middle, hfront, hmiddle, -⟩ := h.of_append
  exact (hfront.frame hsame).append ⟨hmiddle, target, hlast, rfl⟩

theorem Segment.lookup (h : cells.Segment stop first entries) {entry : Entry V}
    (hmem : entry ∈ entries) : ∃ link, cells.lookup entry.1 = some ⟨entry.2, link⟩ := by
  induction entries generalizing first with
  | nil => cases hmem
  | cons head rest ih =>
      obtain ⟨-, link, hcell, hrest⟩ := h
      rcases List.mem_cons.mp hmem with rfl | hmem
      · exact ⟨link, hcell⟩
      · exact ih hrest hmem

theorem Segment.mem_keys (h : cells.Segment stop first entries) {a : Address}
    (ha : a ∈ entries.map Prod.fst) : a ∈ cells.keys := by
  obtain ⟨entry, hentry, rfl⟩ := List.mem_map.mp ha
  obtain ⟨link, hcell⟩ := h.lookup hentry
  exact AList.mem_keys.mp (AList.lookup_isSome.mp (by rw [hcell]; rfl))

/-- A path without repetition is at most as long as the memory is large. -/
theorem Segment.length_le (h : cells.Segment stop first entries)
    (hnodup : (entries.map Prod.fst).Nodup) : entries.length ≤ cells.keys.length := by
  have hsubset := List.subperm_of_subset hnodup fun a ha => h.mem_keys ha
  simpa using hsubset.length_le

/-- There is one path from an address to the end. -/
theorem Segment.unique {again : List (Entry V)} (h : cells.Segment none first entries)
    (hagain : cells.Segment none first again) : entries = again := by
  induction entries generalizing first again with
  | nil =>
      cases again with
      | nil => rfl
      | cons entry rest => exact absurd (h.symm.trans hagain.1) nofun
  | cons entry rest ih =>
      cases again with
      | nil => exact absurd (hagain.symm.trans h.1) nofun
      | cons entry' rest' =>
          obtain ⟨hfirst, link, hcell, hrest⟩ := h
          obtain ⟨hfirst', link', hcell', hrest'⟩ := hagain
          obtain ⟨a, value⟩ := entry
          obtain ⟨a', value'⟩ := entry'
          cases Option.some.inj (hfirst.symm.trans hfirst')
          cases Option.some.inj (hcell.symm.trans hcell')
          rw [ih hrest hrest']

end Cells

namespace Chain

/-- Store a link at a place. -/
def write (chain : Chain V) : Place → Option Address → Chain V
  | .head, target => { chain with head := target }
  | .link a, target => { chain with cells := chain.cells.setLink a target }

/-- The list consists of the `entries`, each in a cell of its own. -/
structure Lists (chain : Chain V) (entries : List (Entry V)) : Prop where
  segment : chain.cells.Segment none chain.head entries
  nodup : (entries.map Prod.fst).Nodup

variable {chain next : Chain V} {entries front back : List (Entry V)}

theorem head_write (chain : Chain V) (place : Place) (target : Option Address) :
    (chain.write place target).head = if place = .head then target else chain.head := by
  cases place <;> simp [write]

theorem lookup_write (chain : Chain V) (place : Place) (target : Option Address) (b : Address) :
    (chain.write place target).cells.lookup b =
      (chain.cells.lookup b).map fun cell =>
        { cell with link := if place = .link b then target else cell.link } := by
  cases place with
  | head => simp [write]
  | link a =>
      by_cases hne : b = a
      · subst hne
        simp [write, Cells.lookup_setLink_self]
      · simp [write, Cells.lookup_setLink_of_ne _ hne, Ne.symm hne]

theorem Lists.head_eq (h : chain.Lists entries) : chain.head = start entries :=
  h.segment.start_eq

theorem Lists.head_eq_none (h : chain.Lists entries) : chain.head = none ↔ entries = [] := by
  rw [h.head_eq]
  cases entries <;> simp [start]

theorem Lists.mem_of_head {a : Address} (h : chain.Lists entries) (hhead : chain.head = some a) :
    ∃ value, (a, value) ∈ entries := by
  cases entries with
  | nil => cases hhead.symm.trans h.head_eq
  | cons entry rest =>
      cases hhead.symm.trans h.head_eq
      exact ⟨entry.2, List.mem_cons_self⟩

theorem Lists.unique {again : List (Entry V)} (h : chain.Lists entries)
    (hagain : chain.Lists again) : entries = again :=
  h.segment.unique hagain.segment

theorem Lists.lookup (h : chain.Lists entries) {entry : Entry V} (hmem : entry ∈ entries) :
    ∃ link, chain.cells.lookup entry.1 = some ⟨entry.2, link⟩ :=
  h.segment.lookup hmem

theorem Lists.frame (h : chain.Lists entries) (hhead : next.head = chain.head)
    (hsame : ∀ a ∈ entries.map Prod.fst, next.cells.lookup a = chain.cells.lookup a) :
    next.Lists entries :=
  ⟨hhead ▸ h.segment.frame hsame, h.nodup⟩

/-- The rule for removing the first cell from the list. -/
theorem Lists.pop {entry : Entry V} (h : chain.Lists (entry :: entries)) :
    ∃ link, chain.cells.lookup entry.1 = some ⟨entry.2, link⟩ ∧
      Lists { chain with head := link } entries := by
  obtain ⟨-, link, hcell, hrest⟩ := h.segment
  exact ⟨link, hcell, hrest, (List.nodup_cons.mp h.nodup).2⟩

/-- The rule for inserting a cell: it links to what follows, what precedes links to it,
and nothing else has changed. -/
theorem Lists.splice {entry : Entry V} (h : chain.Lists (front ++ back))
    (hfresh : entry.1 ∉ (front ++ back).map Prod.fst)
    (hself : next.cells.lookup entry.1 = some ⟨entry.2, start back⟩)
    (hhead : next.head = if front = [] then some entry.1 else chain.head)
    (hlast : ∀ init last, front = init ++ [last] →
      next.cells.lookup last.1 = some ⟨last.2, some entry.1⟩)
    (hother : ∀ b, b ≠ entry.1 → .link b ≠ Place.head.after front →
      next.cells.lookup b = chain.cells.lookup b) : next.Lists (front ++ entry :: back) := by
  obtain ⟨middle, hfront, hback⟩ := h.segment.of_append
  have hnodup := h.nodup
  rw [List.map_append, List.nodup_append] at hnodup
  rw [List.map_append, List.mem_append] at hfresh
  have hne : ∀ b ∈ (front ++ back).map Prod.fst, b ≠ entry.1 := by
    rintro b hb rfl
    exact hfresh (List.mem_append.mp (List.map_append ▸ hb))
  -- what follows is untouched
  have hbackNext : next.cells.Segment none (start back) back := by
    refine hback.start_eq ▸ hback.frame fun b hb => ?_
    refine hother b (hne b (by simp [hb])) fun hplace => ?_
    rcases List.eq_nil_or_concat front with rfl | ⟨init, last, rfl⟩
    · cases hplace
    · rw [List.concat_eq_append, Place.after_concat] at hplace
      cases hplace
      exact hnodup.2.2 last.1 (by simp) last.1 hb rfl
  have hrest : next.cells.Segment none (some entry.1) (entry :: back) :=
    ⟨rfl, start back, hself, hbackNext⟩
  refine ⟨?_, ?_⟩
  · rcases List.eq_nil_or_concat front with rfl | ⟨init, last, rfl⟩
    · rw [hhead, if_pos rfl]
      exact hrest
    · rw [List.concat_eq_append] at *
      rw [hhead, if_neg (by simp)]
      refine (hfront.redirect (hlast init last rfl) fun b hb => ?_).append hrest
      have hlastFresh : last.1 ∉ init.map Prod.fst := fun hmem => by
        have := hnodup.1
        rw [List.map_append, List.nodup_append] at this
        exact this.2.2 last.1 hmem last.1 (by simp) rfl
      refine hother b (hne b (by simp [hb])) fun hplace => ?_
      rw [Place.after_concat] at hplace
      cases hplace
      exact hlastFresh hb
  · rw [List.map_append, List.map_cons]
    refine (List.perm_middle.nodup_iff).mpr (List.nodup_cons.mpr ⟨?_, ?_⟩)
    · exact fun hmem => hfresh (List.mem_append.mp hmem)
    · rw [← List.map_append]
      exact h.nodup

/-- What is behind the entries that precede an address is not that address. -/
theorem after_ne_link {a : Address} (hfresh : a ∉ front.map Prod.fst) :
    Place.head.after front ≠ .link a := by
  rcases List.eq_nil_or_concat front with rfl | ⟨init, last, rfl⟩
  · nofun
  · rw [List.concat_eq_append, Place.after_concat]
    intro hplace
    cases hplace
    exact hfresh (by simp)

/-- The two links may be stored in either order. -/
theorem Lists.splice_of_writes {a : Address} {cell : Cell V} (h : chain.Lists (front ++ back))
    (hcell : chain.cells.lookup a = some cell) (hfresh : a ∉ (front ++ back).map Prod.fst)
    (hhead : next.head = if Place.head.after front = .head then some a else chain.head)
    (hcells : ∀ b, next.cells.lookup b = (chain.cells.lookup b).map fun cell =>
      { cell with
        link := if b = a then start back else
          if Place.head.after front = .link b then some a else cell.link }) :
    next.Lists (front ++ (a, cell.value) :: back) := by
  have hempty : Place.head.after front = .head ↔ front = [] := by
    rcases List.eq_nil_or_concat front with rfl | ⟨init, last, rfl⟩
    · simp [Place.after]
    · simp [Place.after_concat]
  refine h.splice hfresh ?_ ?_ ?_ ?_
  · simp [hcells, hcell]
  · simp only [hhead, hempty]
  · rintro init last rfl
    have hlast : last ∈ init ++ [last] ++ back := by simp
    obtain ⟨link, hlookup⟩ := h.lookup hlast
    have hne : last.1 ≠ a := by
      rintro rfl
      exact hfresh (by simp)
    simp [hcells, hlookup, hne, Place.after_concat]
  · intro b hb hplace
    cases hlookup : chain.cells.lookup b <;> simp [hcells, hlookup, hb, Ne.symm hplace]

/-- Link the new cell first, then what precedes it. -/
theorem Lists.insert_link_first {a : Address} {cell : Cell V} (h : chain.Lists (front ++ back))
    (hcell : chain.cells.lookup a = some cell) (hfresh : a ∉ (front ++ back).map Prod.fst) :
    ((chain.write (.link a) (start back)).write (Place.head.after front) (some a)).Lists
      (front ++ (a, cell.value) :: back) := by
  have hplace : Place.head.after front ≠ .link a :=
    after_ne_link fun hmem => hfresh (List.map_append ▸ List.mem_append_left _ hmem)
  refine h.splice_of_writes hcell hfresh (by simp [head_write]) fun b => ?_
  by_cases hb : b = a
  · subst hb
    cases hlookup : chain.cells.lookup b <;> simp [lookup_write, hplace, hlookup]
  · simp [lookup_write, hb, Ne.symm hb]

/-- Link what precedes the new cell first, then the new cell. -/
theorem Lists.insert_link_last {a : Address} {cell : Cell V} (h : chain.Lists (front ++ back))
    (hcell : chain.cells.lookup a = some cell) (hfresh : a ∉ (front ++ back).map Prod.fst) :
    ((chain.write (Place.head.after front) (some a)).write (.link a) (start back)).Lists
      (front ++ (a, cell.value) :: back) := by
  have hplace : Place.head.after front ≠ .link a :=
    after_ne_link fun hmem => hfresh (List.map_append ▸ List.mem_append_left _ hmem)
  refine h.splice_of_writes hcell hfresh (by simp [head_write]) fun b => ?_
  by_cases hb : b = a
  · subst hb
    simp [lookup_write, hplace]
  · cases hlookup : chain.cells.lookup b <;> simp [lookup_write, hb, Ne.symm hb, hlookup]

end Chain

end ThreadPools.Memory
