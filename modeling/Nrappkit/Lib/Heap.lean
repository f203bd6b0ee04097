import Mathlib.Data.List.Nodup
import Mathlib.Data.List.Perm.Subperm
import Mathlib.Logic.Function.Basic
import Mathlib.Tactic.Common
/-!
# Heaps and doubly linked chains

A heap maps addresses to blocks. An address that was never handed out, or
whose block was released, reads `none`, so a computation that follows a dead
pointer is `none` as well. `Seg` says that a list of addresses is laid out as
a doubly linked chain. `unhook` and `hookFront` are the two link surgeries a
chained table performs; each comes with the chain it produces, the frame it
leaves alone, and the fact that it changes links only.
-/

namespace Lib

/-- An address. A nullable pointer is an `Option Ptr`. -/
abbrev Ptr := Nat

/-- The block at each address. -/
abbrev Heap (α : Type) := Ptr → Option α

/-- Write through a pointer; writing to a dead block is `none`. -/
def Heap.write {α : Type} (h : Heap α) (p : Ptr) (f : α → α) : Option (Heap α) :=
  (h p).map fun e => Function.update h p (some (f e))

theorem Heap.write_eq {α : Type} {h : Heap α} {p : Ptr} {e : α} (he : h p = some e) (f : α → α) :
    h.write p f = some (Function.update h p (some (f e))) := by
  simp [Heap.write, he]

/-- What has the image of an item is an item. -/
theorem some_of_map_eq {α β : Type} {f : α → β} {o o' : Option α} (h : o'.map f = o.map f) {e : α} (he : o = some e) :
    ∃ e', o' = some e' ∧ f e' = f e := by
  rw [he, Option.map_some] at h
  exact Option.map_eq_some_iff.1 h

/-- There are at most `n` addresses below `n`. -/
theorem length_le_of_lt {l : List Ptr} (hn : l.Nodup) {n : Nat} (hlt : ∀ p ∈ l, p < n) : l.length ≤ n := by
  have hsub : l ⊆ List.range n := fun p hp => List.mem_range.2 (hlt p hp)
  simpa using (hn.subperm hsub).length_le

/-- A list that starts with a cell holds the item of the cell and what the rest
of the list holds. -/
theorem items_cons {α β : Type} {h : Heap α} {f : α → β} {a : Ptr} {l : List Ptr} {items : List β}
    (hitems : (a :: l).map (fun p => (h p).map f) = items.map some) {e : α} (he : h a = some e) :
    ∃ rest, items = f e :: rest ∧ l.map (fun p => (h p).map f) = rest.map some := by
  cases items with
  | nil => cases hitems
  | cons item rest =>
    rw [List.map_cons, List.map_cons, he, List.cons.injEq] at hitems
    obtain ⟨hitem, hrest⟩ := hitems
    exact ⟨rest, congrArg (· :: rest) (Option.some.inj hitem).symm, hrest⟩

/-- Fuel for a list is fuel for its head and its tail. -/
theorem fuel_cons {α : Type} {a : α} {l : List α} {n : Nat} (h : (a :: l).length ≤ n) : ∃ m, n = m + 1 ∧ l.length ≤ m := by
  rw [List.length_cons] at h
  exact ⟨n - 1, by omega, by omega⟩

/-- Cells with two links. `body` is the rest of the cell, which link surgery
keeps. -/
class DLink (α : Type) (β : outParam Type) where
  prev : α → Option Ptr
  next : α → Option Ptr
  body : α → β
  setPrev : α → Option Ptr → α
  setNext : α → Option Ptr → α
  prev_setPrev : ∀ e p, prev (setPrev e p) = p
  next_setPrev : ∀ e p, next (setPrev e p) = next e
  body_setPrev : ∀ e p, body (setPrev e p) = body e
  prev_setNext : ∀ e p, prev (setNext e p) = prev e
  next_setNext : ∀ e p, next (setNext e p) = p
  body_setNext : ∀ e p, body (setNext e p) = body e

open DLink

attribute [simp] prev_setPrev next_setPrev body_setPrev prev_setNext next_setNext body_setNext

variable {α β : Type} [DLink α β]

/-! ## Chains -/

/-- From `hd` the chain runs through `l`: the first cell's `prev` is `p`, each
later cell's `prev` is the cell before it, and the last link is `q`. -/
def Seg (h : Heap α) : Option Ptr → Option Ptr → List Ptr → Option Ptr → Prop
  | _, hd, [], q => hd = q
  | p, hd, a :: l, q => hd = some a ∧ ∃ e, h a = some e ∧ prev e = p ∧ Seg h (some a) (next e) l q

/-- The last cell of a chain that started after `p`. -/
def lastOr (p : Option Ptr) : List Ptr → Option Ptr
  | [] => p
  | a :: l => lastOr (some a) l

@[simp] theorem lastOr_concat (p : Option Ptr) (l : List Ptr) (a : Ptr) : lastOr p (l ++ [a]) = some a := by
  induction l generalizing p with
  | nil => rfl
  | cons b l ih => exact ih (some b)

theorem Seg.append {h : Heap α} {p hd q : Option Ptr} {l₁ l₂ : List Ptr} :
    Seg h p hd (l₁ ++ l₂) q ↔ ∃ m, Seg h p hd l₁ m ∧ Seg h (lastOr p l₁) m l₂ q := by
  induction l₁ generalizing p hd with
  | nil => simp [Seg, lastOr]
  | cons a l ih =>
    constructor
    · rintro ⟨hhd, e, he, hp, hs⟩
      obtain ⟨m, h1, h2⟩ := ih.1 hs
      exact ⟨m, ⟨hhd, e, he, hp, h1⟩, h2⟩
    · rintro ⟨m, ⟨hhd, e, he, hp, h1⟩, h2⟩
      exact ⟨hhd, e, he, hp, ih.2 ⟨m, h1, h2⟩⟩

/-- A chain only depends on its own cells. -/
theorem Seg.frame {h h' : Heap α} {p hd q : Option Ptr} {l : List Ptr} (hs : Seg h p hd l q)
    (heq : ∀ a ∈ l, h' a = h a) : Seg h' p hd l q := by
  induction l generalizing p hd with
  | nil => exact hs
  | cons a l ih =>
    obtain ⟨hhd, e, he, hp, hs⟩ := hs
    exact ⟨hhd, e, by rw [heq a (by simp), he], hp, ih hs fun b hb => heq b (by simp [hb])⟩

/-- A chain only depends on the links of its cells. -/
theorem Seg.congr {h h' : Heap α} {p hd q : Option Ptr} {l : List Ptr} (hs : Seg h p hd l q)
    (heq : ∀ a, (h' a).map (fun e => (prev e, next e)) = (h a).map fun e => (prev e, next e)) :
    Seg h' p hd l q := by
  induction l generalizing p hd with
  | nil => exact hs
  | cons a l ih =>
    obtain ⟨hhd, e, he, hp, hs⟩ := hs
    obtain ⟨e', he', hlink⟩ := some_of_map_eq (heq a) he
    simp only [Prod.mk.injEq] at hlink
    exact ⟨hhd, e', he', by rw [hlink.1, hp], ih (by rw [hlink.2]; exact hs)⟩

theorem Seg.live {h : Heap α} {p hd q : Option Ptr} {l : List Ptr} (hs : Seg h p hd l q) {a : Ptr}
    (ha : a ∈ l) : ∃ e, h a = some e := by
  induction l generalizing p hd with
  | nil => cases ha
  | cons b l ih =>
    obtain ⟨-, e, he, -, hs⟩ := hs
    rcases List.mem_cons.1 ha with rfl | ha
    · exact ⟨e, he⟩
    · exact ih hs ha

/-- Redirecting the last link of a chain. -/
theorem Seg.setNext_last {h : Heap α} {p hd q : Option Ptr} {l : List Ptr} {b : Ptr} (q' : Option Ptr)
    (hs : Seg h p hd (l ++ [b]) q) (hn : b ∉ l) :
    ∃ e, h b = some e ∧ Seg (Function.update h b (some (setNext e q'))) p hd (l ++ [b]) q' := by
  obtain ⟨m, h1, rfl, e, he, hp, -⟩ := Seg.append.1 hs
  refine ⟨e, he, Seg.append.2 ⟨some b, h1.frame fun a ha => ?_, rfl, setNext e q', by simp, by simp [hp], ?_⟩⟩
  · refine Function.update_of_ne ?_ _ _
    rintro rfl
    exact hn ha
  · simp [Seg]

/-- Redirecting the first back link of a chain. -/
theorem Seg.setPrev_first {h : Heap α} {p hd q : Option Ptr} {l : List Ptr} {c : Ptr} (p' : Option Ptr)
    (hs : Seg h p hd (c :: l) q) (hn : c ∉ l) :
    ∃ e, h c = some e ∧ Seg (Function.update h c (some (setPrev e p'))) p' hd (c :: l) q := by
  obtain ⟨hhd, e, he, -, hs⟩ := hs
  refine ⟨e, he, hhd, setPrev e p', by simp, by simp, ?_⟩
  rw [next_setPrev]
  refine hs.frame fun a ha => Function.update_of_ne ?_ _ _
  rintro rfl
  exact hn ha

/-! ## Link surgery -/

/-- Same cells up to their links. -/
def SameBody (h h' : Heap α) : Prop := ∀ a, (h' a).map body = (h a).map body

theorem SameBody.refl (h : Heap α) : SameBody h h := fun _ => rfl

theorem SameBody.trans {h₁ h₂ h₃ : Heap α} (h12 : SameBody h₁ h₂) (h23 : SameBody h₂ h₃) : SameBody h₁ h₃ :=
  fun a => (h23 a).trans (h12 a)

theorem SameBody.update {h : Heap α} {a : Ptr} {e e' : α} (he : h a = some e) (hb : body e' = body e) :
    SameBody h (Function.update h a (some e')) := by
  intro x
  by_cases hx : x = a
  · subst hx; simp [he, hb]
  · simp [Function.update_of_ne hx]

/-- Point the link into a cell at `q` instead: the `next` of its predecessor
`b`, or the head of the chain when there is none. -/
def linkNext (h : Heap α) (hd b q : Option Ptr) : Option (Heap α × Option Ptr) :=
  match b with
  | some b => (h.write b (setNext · q)).map (·, hd)
  | none => some (h, q)

/-- Point the back link of `c`, if there is such a cell, at `p`. -/
def linkPrev (h : Heap α) (c p : Option Ptr) : Option (Heap α) :=
  match c with
  | some c => h.write c (setPrev · p)
  | none => some h

/-- Take the cell `a` out of the chain that starts at `hd`; the cell itself is
still allocated. Returns the heap and the new head. -/
def unhook (h : Heap α) (hd : Option Ptr) (a : Ptr) : Option (Heap α × Option Ptr) := do
  let e ← h a
  let r ← linkNext h hd (prev e) (next e)
  let h ← linkPrev r.1 (next e) (prev e)
  some (h, r.2)

/-- Put the fresh cell `a` with contents `e` in front of the chain at `hd`. -/
def hookFront (h : Heap α) (hd : Option Ptr) (a : Ptr) (e : α) : Option (Heap α) := do
  let h ← linkPrev h hd (some a)
  some (Function.update h a (some (setNext (setPrev e none) hd)))

/-- Put the fresh cell `a` with contents `e` behind the cell `last` of the chain
at `hd`, or make it the only one where there is no last cell. Returns the heap
and the head. -/
def hookBack (h : Heap α) (hd last : Option Ptr) (a : Ptr) (e : α) : Option (Heap α × Option Ptr) := do
  let r ← linkNext h hd last (some a)
  some (Function.update r.1 a (some (setNext (setPrev e last) none)), r.2)

theorem Seg.linkNext {h : Heap α} {hd q : Option Ptr} {l : List Ptr} (q' : Option Ptr)
    (hs : Seg h none hd l q) (hn : l.Nodup) :
    ∃ h' hd', Lib.linkNext h hd (lastOr none l) q' = some (h', hd') ∧ Seg h' none hd' l q' ∧ SameBody h h' ∧
      ∀ x, x ∉ l → h' x = h x := by
  rcases List.eq_nil_or_concat l with rfl | ⟨l, b, rfl⟩
  · exact ⟨h, q', rfl, rfl, .refl h, fun _ _ => rfl⟩
  · rw [List.concat_eq_append] at *
    have hbl : b ∉ l := fun hb => (List.nodup_append.1 hn).2.2 b hb b (by simp) rfl
    obtain ⟨e, he, hs'⟩ := hs.setNext_last q' hbl
    refine ⟨_, hd, by simp [Lib.linkNext, Heap.write_eq he], hs', .update he (by simp), fun x hx => ?_⟩
    exact Function.update_of_ne (fun hxb => hx (by simp [hxb])) _ _

theorem Seg.linkPrev {h : Heap α} {p hd q : Option Ptr} {l : List Ptr} (p' : Option Ptr)
    (hs : Seg h p hd l q) (hn : l.Nodup) (hq : q = none) :
    ∃ h', Lib.linkPrev h hd p' = some h' ∧ Seg h' p' hd l q ∧ SameBody h h' ∧ ∀ x, x ∉ l → h' x = h x := by
  cases l with
  | nil =>
    have hnil : hd = none := hq ▸ hs
    exact ⟨h, by rw [hnil]; rfl, hs, .refl h, fun _ _ => rfl⟩
  | cons c l =>
    obtain ⟨e, he, hs'⟩ := hs.setPrev_first p' (List.nodup_cons.1 hn).1
    refine ⟨_, by rw [hs.1]; exact Heap.write_eq he _, hs', .update he (by simp), fun x hx => ?_⟩
    exact Function.update_of_ne (fun hxc => hx (by simp [hxc])) _ _

/-- Unhooking a cell of a chain. -/
theorem Seg.unhook {h : Heap α} {hd : Option Ptr} {l₁ l₂ : List Ptr} {a : Ptr}
    (hs : Seg h none hd (l₁ ++ a :: l₂) none) (hn : (l₁ ++ a :: l₂).Nodup) :
    ∃ h' hd', Lib.unhook h hd a = some (h', hd') ∧ Seg h' none hd' (l₁ ++ l₂) none ∧ SameBody h h' ∧
      ∀ x, x ∉ l₁ ++ l₂ → h' x = h x := by
  obtain ⟨m, h1, rfl, e, he, hp, h2⟩ := Seg.append.1 hs
  obtain ⟨n1, n2, nd⟩ := List.nodup_append.1 hn
  have nd' : ∀ x ∈ l₁, x ∉ l₂ := fun x hx hx' => nd x hx x (by simp [hx']) rfl
  -- First redirect the link into `a`, then the link back to it.
  obtain ⟨h', hd', hw, hs1, hb1, hf1⟩ := h1.linkNext (next e) n1
  have hs2 : Seg h' (some a) (next e) l₂ none := h2.frame fun x hx => hf1 x fun hx' => nd' x hx' hx
  obtain ⟨h'', hw2, hs3, hb2, hf2⟩ := hs2.linkPrev (prev e) (List.nodup_cons.1 n2).2 rfl
  have hs4 : Seg h'' none hd' l₁ (next e) := hs1.frame fun x hx => hf2 x (nd' x hx)
  refine ⟨h'', hd', ?_, Seg.append.2 ⟨next e, hs4, hp ▸ hs3⟩, hb1.trans hb2, fun x hx => ?_⟩
  · simp [Lib.unhook, he, hp ▸ hw, hw2]
  · simp only [List.mem_append, not_or] at hx
    rw [hf2 x hx.2, hf1 x hx.1]

/-- Hooking a fresh cell in front of a chain. -/
theorem Seg.hookFront {h : Heap α} {hd : Option Ptr} {l : List Ptr} {a : Ptr} (e : α)
    (hs : Seg h none hd l none) (hn : l.Nodup) (ha : a ∉ l) :
    ∃ h', Lib.hookFront h hd a e = some h' ∧ Seg h' none (some a) (a :: l) none ∧
      (∃ e', h' a = some e' ∧ body e' = body e) ∧
      (∀ x, x ≠ a → (h' x).map body = (h x).map body) ∧ ∀ x, x ≠ a → x ∉ l → h' x = h x := by
  obtain ⟨h', hw, hs', hb, hf⟩ := hs.linkPrev (some a) hn rfl
  refine ⟨Function.update h' a (some (setNext (setPrev e none) hd)), by simp [Lib.hookFront, hw],
    ⟨rfl, _, Function.update_self .., by simp, ?_⟩, ⟨_, Function.update_self .., by simp⟩,
    fun x hx => ?_, fun x hx hxl => ?_⟩
  · rw [next_setNext]
    refine hs'.frame fun x hx => Function.update_of_ne ?_ _ _
    rintro rfl
    exact ha hx
  · rw [Function.update_of_ne hx]
    exact hb x
  · rw [Function.update_of_ne hx, hf x hxl]

theorem lastOr_none (l : List Ptr) : lastOr none l = l.getLast? := by
  rcases List.eq_nil_or_concat l with rfl | ⟨l, a, rfl⟩
  · rfl
  · rw [List.concat_eq_append, lastOr_concat, List.getLast?_concat]

/-- Hooking a fresh cell behind a chain. -/
theorem Seg.hookBack {h : Heap α} {hd : Option Ptr} {l : List Ptr} {a : Ptr} (e : α)
    (hs : Seg h none hd l none) (hn : l.Nodup) (ha : a ∉ l) :
    ∃ h' hd', Lib.hookBack h hd l.getLast? a e = some (h', hd') ∧ Seg h' none hd' (l ++ [a]) none ∧
      (∃ e', h' a = some e' ∧ body e' = body e) ∧
      (∀ x, x ≠ a → (h' x).map body = (h x).map body) ∧ ∀ x, x ≠ a → x ∉ l → h' x = h x := by
  obtain ⟨h', hd', hw, hs', hb, hf⟩ := hs.linkNext (some a) hn
  rw [← lastOr_none]
  refine ⟨Function.update h' a (some (setNext (setPrev e (lastOr none l)) none)), hd', by simp [Lib.hookBack, hw],
    Seg.append.2 ⟨some a, ?_, rfl, _, Function.update_self .., by simp, by simp [Seg]⟩,
    ⟨_, Function.update_self .., by simp⟩, fun x hx => ?_, fun x hx hxl => ?_⟩
  · refine hs'.frame fun x hx => Function.update_of_ne ?_ _ _
    rintro rfl
    exact ha hx
  · rw [Function.update_of_ne hx]
    exact hb x
  · rw [Function.update_of_ne hx, hf x hxl]

end Lib
