import Nrappkit.Lib.Heap
/-!
# Parts of a heap

A heap that is shared by several owners is the `join` of the part one of them
owns and the rest. What a computation on the part alone does it also does on
the whole, and the rest stays as it is: `write_join`, `unhook_join` and
`hookFront_join` are this frame property for the link surgeries of
`Lib.Heap`.
-/

namespace Lib

/-- What is stored after an update is the new value or an old one. -/
theorem update_some {α : Type} {f : Nat → Option α} {h g : Nat} {T : Option α} {G : α}
    (hG : Function.update f h T g = some G) : g = h ∧ T = some G ∨ g ≠ h ∧ f g = some G := by
  by_cases hg : g = h
  · subst hg
    rw [Function.update_self] at hG
    exact .inl ⟨rfl, hG⟩
  · rw [Function.update_of_ne hg] at hG
    exact .inr ⟨hg, hG⟩

section
variable {α : Type}

/-- The blocks of both heaps, that of the first where both have one. -/
def join (part rest : Heap α) : Heap α := fun a => (part a).or (rest a)

/-- No address is allocated in both heaps. -/
def Apart (part rest : Heap α) : Prop := ∀ a, part a = none ∨ rest a = none

variable {part part' rest : Heap α} {a : Ptr} {e : α}

theorem join_some (h : part a = some e) : join part rest a = some e := by simp [join, h]

theorem join_eq_some : join part rest a = some e ↔ part a = some e ∨ part a = none ∧ rest a = some e := by
  simp [join]

/-- An address of one part is not one of the other. -/
theorem Apart.rest_none (h : Apart part rest) (ha : part a = some e) : rest a = none :=
  (h a).resolve_left (by simp [ha])

theorem Apart.symm (h : Apart part rest) : Apart rest part := fun a => (h a).symm

/-- Changing a block of the part. -/
theorem update_join (a : Ptr) (e : α) :
    Function.update (join part rest) a (some e) = join (Function.update part a (some e)) rest := by
  funext b
  by_cases hb : b = a
  · subst hb
    simp [join]
  · simp [join, Function.update_of_ne hb]

/-- Releasing a block of the part. -/
theorem release_join (ha : rest a = none) :
    Function.update (join part rest) a none = join (Function.update part a none) rest := by
  funext b
  by_cases hb : b = a
  · subst hb
    simp [join, ha]
  · simp [join, Function.update_of_ne hb]

theorem Apart.update (h : Apart part rest) (ha : rest a = none) (x : Option α) :
    Apart (Function.update part a x) rest := by
  intro b
  by_cases hb : b = a
  · subst hb
    exact .inr ha
  · rw [Function.update_of_ne hb]
    exact h b

theorem write_join {p : Ptr} {f : α → α} (h : Apart part rest) (hw : part.write p f = some part') :
    (join part rest).write p f = some (join part' rest) ∧ Apart part' rest := by
  obtain ⟨e, he, rfl⟩ := Option.map_eq_some_iff.1 hw
  rw [Heap.write_eq (join_some he), update_join]
  exact ⟨rfl, h.update (h.rest_none he) _⟩

/-- What is left of a heap when the blocks at `l` are released. -/
def without (h : Heap α) (l : List Ptr) : Heap α := fun a => if a ∈ l then none else h a

@[simp] theorem without_nil (h : Heap α) : without h [] = h := by
  funext a
  simp [without]

theorem without_cons (h : Heap α) (a : Ptr) (l : List Ptr) : without h (a :: l) = without (Function.update h a none) l := by
  funext b
  by_cases hb : b = a
  · subst hb
    simp [without]
  · simp [without, hb]

theorem without_append (h : Heap α) (l l' : List Ptr) : without (without h l) l' = without h (l ++ l') := by
  funext b
  by_cases hb : b ∈ l' <;> simp [without, hb]

/-- Releasing the `k` blocks that were allocated from `b` on leads back to the
heap there was before. -/
theorem without_new {h h' : Heap α} {b k : Nat} (hf : ∀ a, b ≤ a → h a = none) (hold : ∀ a < b, h' a = h a)
    (hfresh : ∀ a, b + k ≤ a → h' a = none) : without h' (List.range' b k) = h := by
  funext a
  rw [without]
  split
  · rename_i ha
    exact (hf a (List.mem_range'_1.1 ha).1).symm
  · rename_i ha
    rw [List.mem_range'_1] at ha
    rcases Nat.lt_or_ge a b with hlo | hlo
    · exact hold a hlo
    · rw [hf a hlo, hfresh a (Nat.le_of_not_lt fun hlt => ha ⟨hlo, hlt⟩)]

end

section
variable {α β : Type} [DLink α β] {part part' rest : Heap α} {hd hd' : Option Ptr} {a : Ptr}
open DLink

theorem linkNext_join {b q : Option Ptr} (h : Apart part rest) (hl : linkNext part hd b q = some (part', hd')) :
    linkNext (join part rest) hd b q = some (join part' rest, hd') ∧ Apart part' rest := by
  cases b with
  | none =>
    cases hl
    exact ⟨rfl, h⟩
  | some b =>
    simp only [linkNext, Option.map_eq_some_iff, Prod.mk.injEq] at hl ⊢
    obtain ⟨p, hw, rfl, rfl⟩ := hl
    obtain ⟨hw', ha⟩ := write_join h hw
    exact ⟨⟨_, hw', rfl, rfl⟩, ha⟩

theorem linkPrev_join {c p : Option Ptr} (h : Apart part rest) (hl : linkPrev part c p = some part') :
    linkPrev (join part rest) c p = some (join part' rest) ∧ Apart part' rest := by
  cases c with
  | none =>
    cases hl
    exact ⟨rfl, h⟩
  | some c => exact write_join h hl

theorem unhook_join (h : Apart part rest) (hu : unhook part hd a = some (part', hd')) :
    unhook (join part rest) hd a = some (join part' rest, hd') ∧ Apart part' rest := by
  simp only [unhook, Option.bind_eq_bind, Option.bind_eq_some_iff, Option.some.injEq, Prod.mk.injEq, Prod.exists] at hu
  obtain ⟨e, he, p₁, hd₁, hn, p₂, hp, rfl, rfl⟩ := hu
  obtain ⟨hn', ha₁⟩ := linkNext_join h hn
  obtain ⟨hp', ha₂⟩ := linkPrev_join ha₁ hp
  exact ⟨by simp [unhook, join_some he, hn', hp'], ha₂⟩

theorem hookFront_join {e : α} (h : Apart part rest) (ha : rest a = none) (hh : hookFront part hd a e = some part') :
    hookFront (join part rest) hd a e = some (join part' rest) ∧ Apart part' rest := by
  simp only [hookFront, Option.bind_eq_bind, Option.bind_eq_some_iff, Option.some.injEq] at hh
  obtain ⟨p₁, hp, rfl⟩ := hh
  obtain ⟨hp', ha₁⟩ := linkPrev_join h hp
  exact ⟨by simp [hookFront, hp', update_join], ha₁.update ha _⟩

end

end Lib
