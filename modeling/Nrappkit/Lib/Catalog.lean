import Mathlib.Data.List.Nodup
import Mathlib.Tactic.Common
/-!
# Catalogs

Entries that are looked up by their name and used through a handle. No two have
a name or a handle in common. A catalog grows at its end, and an entry keeps its
place, its name and its handle.
-/

namespace Lib

structure Entry (N H V : Type) where
  name : N
  handle : H
  value : V
  deriving DecidableEq

structure Catalog (N H V : Type) where
  entries : List (Entry N H V)
  names : (entries.map Entry.name).Nodup
  handles : (entries.map Entry.handle).Nodup

/-- Where no two elements have a key in common, the search for a key finds the
element that has it. -/
theorem find_key {α κ : Type} [DecidableEq κ] {key : α → κ} {l : List α} (hnodup : (l.map key).Nodup) {x : κ} {a : α} :
    l.find? (fun b => key b = x) = some a ↔ a ∈ l ∧ key a = x := by
  induction l with
  | nil => simp
  | cons b l ih =>
    rw [List.map_cons, List.nodup_cons] at hnodup
    by_cases hb : key b = x
    · rw [List.find?_cons_of_pos (by simpa using hb), Option.some.injEq]
      constructor
      · rintro rfl
        exact ⟨List.mem_cons_self, hb⟩
      · rintro ⟨hmem, ha⟩
        rcases List.mem_cons.1 hmem with rfl | hl
        · rfl
        · exact absurd (List.mem_map.2 ⟨a, hl, ha.trans hb.symm⟩) hnodup.1
    · rw [List.find?_cons_of_neg (by simpa using hb), ih hnodup.2, List.mem_cons]
      constructor
      · rintro ⟨hl, ha⟩
        exact ⟨.inr hl, ha⟩
      · rintro ⟨rfl | hl, ha⟩
        · exact absurd ha hb
        · exact ⟨hl, ha⟩

variable {N H V : Type}

namespace Entry

variable [DecidableEq H] {handle : H} {f : V → V} {e : Entry N H V}

/-- The value is changed if the handle is that of the entry. -/
def change (handle : H) (f : V → V) (e : Entry N H V) : Entry N H V :=
  if e.handle = handle then { e with value := f e.value } else e

@[simp] theorem change_name : (change handle f e).name = e.name := by
  unfold change
  split <;> rfl

@[simp] theorem change_handle : (change handle f e).handle = e.handle := by
  unfold change
  split <;> rfl

end Entry

namespace Catalog

def empty : Catalog N H V := ⟨[], .nil, .nil⟩

section
variable [DecidableEq N] {k : Catalog N H V} {e : Entry N H V} {name : N}

def find (k : Catalog N H V) (name : N) : Option (Entry N H V) := k.entries.find? fun e => e.name = name

theorem find_iff : k.find name = some e ↔ e ∈ k.entries ∧ e.name = name := find_key k.names

theorem find_none : k.find name = none ↔ name ∉ k.entries.map Entry.name := by
  simp [find, List.find?_eq_none]

end

section
variable [DecidableEq H] {k : Catalog N H V} {e : Entry N H V} {handle : H}

/-- The entry a handle is for. -/
def deref (k : Catalog N H V) (handle : H) : Option (Entry N H V) := k.entries.find? fun e => e.handle = handle

theorem deref_iff : k.deref handle = some e ↔ e ∈ k.entries ∧ e.handle = handle := find_key k.handles

/-- The value behind a handle is changed. -/
def change (k : Catalog N H V) (handle : H) (f : V → V) : Catalog N H V where
  entries := k.entries.map (Entry.change handle f)
  names := by simpa [List.map_map, Function.comp_def] using k.names
  handles := by simpa [List.map_map, Function.comp_def] using k.handles

theorem deref_change_self {f : V → V} (h : k.deref handle = some e) :
    (k.change handle f).deref handle = some { e with value := f e.value } := by
  obtain ⟨he, rfl⟩ := deref_iff.1 h
  refine deref_iff.2 ⟨List.mem_map.2 ⟨e, he, ?_⟩, rfl⟩
  rw [Entry.change, if_pos rfl]

/-- Behind another handle nothing is changed. -/
theorem deref_change_other {f : V → V} {handle' : H} (h : k.deref handle = some e) (hne : handle' ≠ handle) :
    (k.change handle' f).deref handle = some e := by
  obtain ⟨he, rfl⟩ := deref_iff.1 h
  refine deref_iff.2 ⟨List.mem_map.2 ⟨e, he, ?_⟩, rfl⟩
  rw [Entry.change, if_neg (Ne.symm hne)]

end

section
variable [DecidableEq N] [DecidableEq H] {k : Catalog N H V} {e : Entry N H V}

/-- An entry with a name or a handle that is taken is not added. -/
def add (k : Catalog N H V) (e : Entry N H V) : Catalog N H V :=
  if h : e.name ∉ k.entries.map Entry.name ∧ e.handle ∉ k.entries.map Entry.handle then
    { entries := k.entries ++ [e]
      names := by
        rw [List.map_append, List.nodup_append_comm]
        exact List.nodup_cons.2 ⟨h.1, k.names⟩
      handles := by
        rw [List.map_append, List.nodup_append_comm]
        exact List.nodup_cons.2 ⟨h.2, k.handles⟩ }
  else k

theorem entries_add (hn : e.name ∉ k.entries.map Entry.name) (hh : e.handle ∉ k.entries.map Entry.handle) :
    (k.add e).entries = k.entries ++ [e] := by
  rw [add, dif_pos ⟨hn, hh⟩]

/-- What is added hides nothing. -/
theorem deref_add {handle : H} {e' : Entry N H V} (h : k.deref handle = some e) : (k.add e').deref handle = some e := by
  unfold add
  split
  · obtain ⟨he, hh⟩ := deref_iff.1 h
    exact deref_iff.2 ⟨List.mem_append_left _ he, hh⟩
  · exact h

end

end Catalog

end Lib
