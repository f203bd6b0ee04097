import Mathlib.Order.BoundedOrder.Basic
import Mathlib.Order.Interval.Set.Basic
import Mathlib.Tactic.Common
/-!
# Hierarchies

Values stored under names, some of which lie above others. Everything above a
stored name is stored as a directory, and so is the name above all others.
Storing a value makes the directories that are missing; what is erased goes
with everything below it.
-/

namespace Lib

variable {N V : Type} [PartialOrder N] [OrderBot N] {dir : V}

structure Hierarchy (N V : Type) [PartialOrder N] [OrderBot N] (dir : V) where
  value : N → Option V
  root : value ⊥ = some dir
  up : ∀ {a n}, value n ≠ none → a < n → value a = some dir

namespace Hierarchy

theorem ext {h h' : Hierarchy N V dir} (hv : ∀ n, h.value n = h'.value n) : h = h' := by
  obtain ⟨value, _, _⟩ := h
  obtain ⟨value', _, _⟩ := h'
  obtain rfl : value = value' := funext hv
  rfl

open Classical in
/-- Nothing but the root. -/
noncomputable def empty : Hierarchy N V dir where
  value n := if n = ⊥ then some dir else none
  root := if_pos rfl
  up := by
    intro a n hn ha
    have hbot : n ≠ ⊥ := fun h => not_lt_bot (h ▸ ha)
    exact absurd (if_neg hbot) hn

/-- What is above `n` is a directory or absent, and a directory stays one. -/
structure CanWrite (h : Hierarchy N V dir) (n : N) (v : V) : Prop where
  above : ∀ a < n, h.value a = none ∨ h.value a = some dir
  here : h.value n = some dir → v = dir

/-- Above a stored name there are directories. -/
theorem CanWrite.of_stored {h : Hierarchy N V dir} {n : N} {v : V} (hn : h.value n ≠ none)
    (hv : h.value n = some dir → v = dir) : h.CanWrite n v :=
  ⟨fun _ ha => .inr (h.up hn ha), hv⟩

open Classical in
/-- Store a value, with the directories above it. -/
noncomputable def write (h : Hierarchy N V dir) (n : N) (v : V) (hw : h.CanWrite n v) : Hierarchy N V dir where
  value m := if m = n then some v else if m < n then some dir else h.value m
  root := by
    split
    · rename_i hbot
      rw [hw.here (hbot ▸ h.root)]
    · rw [if_pos (bot_lt_iff_ne_bot.2 (Ne.symm ‹_›))]
  up := by
    intro a m hm ha
    have above : ∀ b < n, (if b = n then some v else if b < n then some dir else h.value b) = some dir := fun b hb => by
      rw [if_neg hb.ne, if_pos hb]
    by_cases hmn : m ≤ n
    · exact above a (lt_of_lt_of_le ha hmn)
    · rw [if_neg fun he => hmn he.le, if_neg fun he => hmn he.le] at hm
      have hdir := h.up hm ha
      by_cases han : a = n
      · rw [if_pos han, hw.here (han ▸ hdir)]
      · rw [if_neg han, hdir, ite_self]

open Classical in
/-- Erase a name and what is below it; the root stays. -/
noncomputable def erase (h : Hierarchy N V dir) (n : N) : Hierarchy N V dir where
  value m := if m = ⊥ then some dir else if n ≤ m then none else h.value m
  root := if_pos rfl
  up := by
    intro a m hm ha
    have hbot : m ≠ ⊥ := fun he => not_lt_bot (he ▸ ha)
    rw [if_neg hbot] at hm
    have hnm : ¬ n ≤ m := fun hle => hm (if_pos hle)
    rw [if_neg hnm] at hm
    by_cases hbot' : a = ⊥
    · rw [if_pos hbot']
    · rw [if_neg hbot', if_neg fun hle => hnm (le_trans hle ha.le), h.up hm ha]

section
variable {h : Hierarchy N V dir} {n m : N} {v : V}

theorem write_self (hw : h.CanWrite n v) : (h.write n v hw).value n = some v := if_pos rfl

theorem write_above (hw : h.CanWrite n v) (hm : m < n) : (h.write n v hw).value m = some dir := by
  simp only [write]
  rw [if_neg hm.ne, if_pos hm]

theorem write_other (hw : h.CanWrite n v) (hm : ¬ m ≤ n) : (h.write n v hw).value m = h.value m := by
  simp only [write]
  rw [if_neg fun he => hm he.le, if_neg fun he => hm he.le]

theorem erase_other (hb : m ≠ ⊥) (hm : ¬ n ≤ m) : (h.erase n).value m = h.value m := by
  simp only [erase]
  rw [if_neg hb, if_neg hm]

theorem erase_below (hb : m ≠ ⊥) (hm : n ≤ m) : (h.erase n).value m = none := by
  simp only [erase]
  rw [if_neg hb, if_pos hm]

/-- What was stored can be stored again. -/
theorem CanWrite.again (hw : h.CanWrite n v) : (h.write n v hw).CanWrite n v :=
  ⟨fun _ ha => .inr (write_above hw ha), fun he => Option.some.inj ((write_self hw).symm.trans he)⟩

/-- Storing a value a second time changes nothing. -/
theorem write_again (hw : h.CanWrite n v) : (h.write n v hw).write n v hw.again = h.write n v hw := by
  refine ext fun m => ?_
  by_cases hm : m ≤ n
  · rcases hm.eq_or_lt with rfl | hlt
    · rw [write_self, write_self]
    · rw [write_above _ hlt, write_above _ hlt]
  · rw [write_other _ hm]

/-- Nor does erasing a second time. -/
theorem erase_again : (h.erase n).erase n = h.erase n := by
  refine ext fun m => ?_
  by_cases hb : m = ⊥
  · rw [hb, root, root]
  · by_cases hm : n ≤ m
    · rw [erase_below hb hm, erase_below hb hm]
    · rw [erase_other hb hm]

end

end Hierarchy

end Lib
