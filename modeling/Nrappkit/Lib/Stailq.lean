import Nrappkit.Lib.Heap
/-!
# Singly linked tail queues

A queue of cells that hold one link each. The head keeps the first cell and
where the link to the next new cell goes: `last` is the last cell, or `none`
for the head itself. `IsQueue` says which cells a head links, in order. The
two operations keep every cell they do not name, and change nothing of a cell
but its link.
-/

namespace Lib

/-- Cells with one link. `body` is the rest of the cell. -/
class SLink (α : Type) (β : outParam Type) where
  next : α → Option Ptr
  body : α → β
  setNext : α → Option Ptr → α
  next_setNext : ∀ e p, next (setNext e p) = p
  body_setNext : ∀ e p, body (setNext e p) = body e

namespace SLink

attribute [simp] next_setNext body_setNext

variable {α β : Type} [SLink α β]

/-- From `hd` the links run through `l` to `q`. -/
def Links (h : Heap α) : Option Ptr → List Ptr → Option Ptr → Prop
  | hd, [], q => hd = q
  | hd, a :: l, q => hd = some a ∧ ∃ e, h a = some e ∧ Links h (next e) l q

structure Head where
  first : Option Ptr
  last : Option Ptr
  deriving DecidableEq

/-- The head of a queue that links nothing. -/
def Head.empty : Head := ⟨none, none⟩

/-- Link a cell at the end. -/
def insertTail (h : Heap α) (q : Head) (a : Ptr) : Option (Heap α × Head) := do
  let h ← h.write a (setNext · none)
  match q.last with
  | none => some (h, ⟨some a, some a⟩)
  | some p => (h.write p (setNext · (some a))).map (·, { q with last := some a })

/-- Unlink the first cell, which keeps its own link. -/
def removeHead (h : Heap α) (q : Head) : Option Head := do
  let e ← h (← q.first)
  some ⟨next e, if (next e).isNone then none else q.last⟩

/-- The head links the cells of `l`. -/
structure IsQueue (h : Heap α) (q : Head) (l : List Ptr) : Prop where
  links : Links h q.first l none
  last : q.last = l.getLast?
  nodup : l.Nodup

theorem isQueue_empty (h : Heap α) : IsQueue h Head.empty [] := ⟨rfl, rfl, List.nodup_nil⟩

theorem Links.append {h : Heap α} {hd q : Option Ptr} {l₁ l₂ : List Ptr} :
    Links h hd (l₁ ++ l₂) q ↔ ∃ m, Links h hd l₁ m ∧ Links h m l₂ q := by
  induction l₁ generalizing hd with
  | nil => simp [Links]
  | cons a l ih =>
    constructor
    · rintro ⟨hhd, e, he, hl⟩
      obtain ⟨m, h1, h2⟩ := ih.1 hl
      exact ⟨m, ⟨hhd, e, he, h1⟩, h2⟩
    · rintro ⟨m, ⟨hhd, e, he, h1⟩, h2⟩
      exact ⟨hhd, e, he, ih.2 ⟨m, h1, h2⟩⟩

theorem Links.live {h : Heap α} {hd q : Option Ptr} {l : List Ptr} (hl : Links h hd l q) {a : Ptr} (ha : a ∈ l) :
    ∃ e, h a = some e := by
  induction l generalizing hd with
  | nil => cases ha
  | cons b l ih =>
    obtain ⟨-, e, he, hl⟩ := hl
    rcases List.mem_cons.1 ha with rfl | ha
    · exact ⟨e, he⟩
    · exact ih hl ha

/-- A chain depends on its own links only. -/
theorem Links.frame {h h' : Heap α} {hd q : Option Ptr} {l : List Ptr} (hl : Links h hd l q)
    (heq : ∀ a ∈ l, (h' a).map next = (h a).map next) : Links h' hd l q := by
  induction l generalizing hd with
  | nil => exact hl
  | cons a l ih =>
    obtain ⟨hhd, e, he, hl⟩ := hl
    obtain ⟨e', he', hnext⟩ := some_of_map_eq (heq a (by simp)) he
    exact ⟨hhd, e', he', hnext ▸ ih hl fun b hb => heq b (by simp [hb])⟩

/-- There is one way to follow the links to their end. -/
theorem Links.unique {h : Heap α} {hd : Option Ptr} {l l' : List Ptr} (hl : Links h hd l none) (hl' : Links h hd l' none) :
    l = l' := by
  induction l generalizing hd l' with
  | nil =>
    obtain rfl : hd = none := hl
    cases l' with
    | nil => rfl
    | cons a l' => cases hl'.1
  | cons a l ih =>
    obtain ⟨rfl, e, he, hl⟩ := hl
    cases l' with
    | nil => cases (show some a = none from hl')
    | cons b l' =>
      obtain ⟨hab, e', he', hl'⟩ := hl'
      cases hab
      rw [he, Option.some.injEq] at he'
      subst he'
      rw [ih hl hl']

namespace IsQueue
variable {h h' : Heap α} {q : Head} {l : List Ptr} {a : Ptr}

theorem frame (hq : IsQueue h q l) (heq : ∀ a ∈ l, (h' a).map next = (h a).map next) : IsQueue h' q l :=
  ⟨hq.links.frame heq, hq.last, hq.nodup⟩

/-- Linking a cell at the end changes two links: its own and the last one. -/
theorem insertTail (hq : IsQueue h q l) (ha : a ∉ l) {e : α} (he : h a = some e) :
    ∃ h' q', SLink.insertTail h q a = some (h', q') ∧ IsQueue h' q' (l ++ [a]) ∧
      (∀ x, (h' x).map body = (h x).map body) ∧ ∀ x, x ≠ a → l.getLast? ≠ some x → h' x = h x := by
  have hw := Heap.write_eq he (setNext · none)
  have hbody : ∀ x, (Function.update h a (some (setNext e none)) x).map body = (h x).map body := by
    intro x
    by_cases hx : x = a
    · subst hx
      simp [he]
    · rw [Function.update_of_ne hx]
  have hnodup : (l ++ [a]).Nodup := by
    rw [List.nodup_append]
    refine ⟨hq.nodup, List.nodup_singleton a, ?_⟩
    rintro x hx y hy rfl
    exact ha (List.mem_singleton.1 hy ▸ hx)
  rcases List.eq_nil_or_concat l with rfl | ⟨l, b, rfl⟩
  · have hlast : q.last = none := hq.last
    refine ⟨_, ⟨some a, some a⟩, by simp [SLink.insertTail, hw, hlast], ⟨⟨rfl, _, Function.update_self .., ?_⟩, rfl, hnodup⟩,
      hbody, fun x hx _ => Function.update_of_ne hx _ _⟩
    simp [Links]
  · rw [List.concat_eq_append] at *
    have hlast : q.last = some b := by rw [hq.last, List.getLast?_concat]
    obtain ⟨m, h1, rfl, eb, heb, -⟩ := Links.append.1 hq.links
    have hba : b ≠ a := by
      rintro rfl
      exact ha (by simp)
    have heb' : Function.update h a (some (setNext e none)) b = some eb := by rw [Function.update_of_ne hba, heb]
    refine ⟨Function.update (Function.update h a (some (setNext e none))) b (some (setNext eb (some a))),
      { q with last := some a }, by simp [SLink.insertTail, hw, hlast, Heap.write_eq heb'], ⟨?_, by simp, hnodup⟩,
      fun x => ?_, fun x hx hxl => ?_⟩
    · -- the cells before `b` keep their links; `b` now links `a`, which links nothing
      have hbl : b ∉ l := fun hb => (List.nodup_append.1 hq.nodup).2.2 b hb b (by simp) rfl
      rw [List.append_assoc]
      refine Links.append.2 ⟨some b, h1.frame fun x hx => ?_, rfl, _, Function.update_self .., ?_⟩
      · have hxb : x ≠ b := by
          rintro rfl
          exact hbl hx
        have hxa : x ≠ a := by
          rintro rfl
          exact ha (by simp [hx])
        rw [Function.update_of_ne hxb, Function.update_of_ne hxa]
      · rw [next_setNext]
        refine ⟨rfl, setNext e none, ?_, ?_⟩
        · rw [Function.update_of_ne hba.symm, Function.update_self]
        · simp [Links]
    · rw [← hbody x]
      by_cases hx : x = b
      · subst hx
        rw [Function.update_self, heb']
        simp
      · rw [Function.update_of_ne hx]
    · rw [List.getLast?_concat] at hxl
      have hxb : x ≠ b := by
        rintro rfl
        exact hxl rfl
      rw [Function.update_of_ne hxb, Function.update_of_ne hx]

/-- Unlinking the first cell changes no cell. -/
theorem removeHead (hq : IsQueue h q (a :: l)) : ∃ q', SLink.removeHead h q = some q' ∧ IsQueue h q' l := by
  obtain ⟨hfirst, e, he, hl⟩ := hq.links
  refine ⟨⟨next e, if (next e).isNone then none else q.last⟩, by simp [SLink.removeHead, hfirst, he], hl, ?_,
    (List.nodup_cons.1 hq.nodup).2⟩
  cases l with
  | nil =>
    have hnext : next e = none := hl
    simp [hnext]
  | cons b l =>
    have hlast := hq.last
    rw [List.getLast?_cons_cons] at hlast
    simp [hl.1, hlast]

/-- The head is empty if it links nothing. -/
theorem first_eq (hq : IsQueue h q l) : q.first = l.head? := by
  cases l with
  | nil => exact hq.links
  | cons a l => exact hq.links.1

end IsQueue

end SLink

end Lib
