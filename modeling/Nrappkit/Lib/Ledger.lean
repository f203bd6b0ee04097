import Mathlib.Data.List.Nodup
import Mathlib.Logic.Function.Basic
import Mathlib.Tactic.Common
/-!
# Who owns what

A container holds items under keys. It took over the items of `taken` and has
given up those of `gone`, in this order. `Ledger` says that nothing is lost and
nothing given up twice: every item it took over is either held under one key or
gone.
-/

namespace Lib

variable {κ ι : Type}

structure Ledger (held : κ → Option ι) (taken gone : List ι) : Prop where
  held_taken : ∀ k i, held k = some i → i ∈ taken
  held_once : ∀ k k' i, held k = some i → held k' = some i → k = k'
  held_not_gone : ∀ k i, held k = some i → i ∉ gone
  gone_taken : gone ⊆ taken
  gone_once : gone.Nodup
  all : ∀ i ∈ taken, i ∈ gone ∨ ∃ k, held k = some i

namespace Ledger
variable {held : κ → Option ι} {taken gone : List ι}

theorem empty : Ledger (fun _ : κ => (none : Option ι)) [] [] where
  held_taken _ _ h := by cases h
  held_once _ _ _ h := by cases h
  held_not_gone _ _ h := by cases h
  gone_taken := List.nil_subset _
  gone_once := List.nodup_nil
  all _ h := by cases h

/-- What was taken over is gone if and only if it is held no more. -/
theorem gone_iff (h : Ledger held taken gone) {i : ι} (hi : i ∈ taken) : i ∈ gone ↔ ∀ k, held k ≠ some i := by
  constructor
  · intro hg k hk
    exact h.held_not_gone k i hk hg
  · intro hk
    rcases h.all i hi with hg | ⟨k, hheld⟩
    · exact hg
    · exact absurd hheld (hk k)

variable [DecidableEq κ]

/-- Take over a new item under a key that holds nothing. -/
theorem add (h : Ledger held taken gone) {k : κ} {i : ι} (hk : held k = none) (hi : i ∉ taken) :
    Ledger (Function.update held k (some i)) (i :: taken) gone := by
  have hcases : ∀ {k' i'}, Function.update held k (some i) k' = some i' → (k' = k ∧ i' = i) ∨ held k' = some i' := by
    intro k' i' hk'
    by_cases hkk : k' = k
    · subst hkk
      rw [Function.update_self, Option.some.injEq] at hk'
      exact .inl ⟨rfl, hk'.symm⟩
    · rw [Function.update_of_ne hkk] at hk'
      exact .inr hk'
  refine ⟨fun k' i' hk' => ?_, fun k' k'' i' hk' hk'' => ?_, fun k' i' hk' hg => ?_, ?_, h.gone_once, fun i' hi' => ?_⟩
  · rcases hcases hk' with ⟨-, rfl⟩ | hold
    · exact List.mem_cons_self ..
    · exact List.mem_cons_of_mem _ (h.held_taken k' i' hold)
  · rcases hcases hk' with ⟨rfl, rfl⟩ | hold
    · rcases hcases hk'' with ⟨rfl, -⟩ | hold'
      · rfl
      · exact absurd (h.held_taken k'' i' hold') hi
    · rcases hcases hk'' with ⟨rfl, rfl⟩ | hold'
      · exact absurd (h.held_taken k' i' hold) hi
      · exact h.held_once k' k'' i' hold hold'
  · rcases hcases hk' with ⟨-, rfl⟩ | hold
    · exact hi (h.gone_taken hg)
    · exact h.held_not_gone k' i' hold hg
  · exact fun x hx => List.mem_cons_of_mem _ (h.gone_taken hx)
  · rcases List.mem_cons.1 hi' with rfl | hi'
    · exact .inr ⟨k, Function.update_self ..⟩
    · refine (h.all i' hi').imp id fun hheld => ?_
      obtain ⟨k', hk'⟩ := hheld
      have hkk : k' ≠ k := by
        rintro rfl
        rw [hk] at hk'
        cases hk'
      exact ⟨k', by rw [Function.update_of_ne hkk, hk']⟩

/-- Give up the item under a key. -/
theorem drop (h : Ledger held taken gone) {k : κ} {i : ι} (hk : held k = some i) :
    Ledger (Function.update held k none) taken (gone ++ [i]) := by
  have hcases : ∀ {k' i'}, Function.update held k none k' = some i' → k' ≠ k ∧ held k' = some i' := by
    intro k' i' hk'
    by_cases hkk : k' = k
    · subst hkk
      rw [Function.update_self] at hk'
      cases hk'
    · rw [Function.update_of_ne hkk] at hk'
      exact ⟨hkk, hk'⟩
  refine ⟨fun k' i' hk' => h.held_taken k' i' (hcases hk').2,
    fun k' k'' i' hk' hk'' => h.held_once k' k'' i' (hcases hk').2 (hcases hk'').2, fun k' i' hk' hg => ?_, ?_, ?_,
    fun i' hi' => ?_⟩
  · obtain ⟨hkk, hold⟩ := hcases hk'
    rcases List.mem_append.1 hg with hg | hg
    · exact h.held_not_gone k' i' hold hg
    · rw [List.mem_singleton.1 hg] at hold
      exact hkk (h.held_once k' k i hold hk)
  · intro x hx
    rcases List.mem_append.1 hx with hx | hx
    · exact h.gone_taken hx
    · rw [List.mem_singleton.1 hx]
      exact h.held_taken k i hk
  · refine List.nodup_append.2 ⟨h.gone_once, List.nodup_singleton i, ?_⟩
    rintro x hx y hy rfl
    exact h.held_not_gone k i hk (List.mem_singleton.1 hy ▸ hx)
  · rcases h.all i' hi' with hg | ⟨k', hk'⟩
    · exact .inl (List.mem_append_left _ hg)
    · by_cases hkk : k' = k
      · subst hkk
        rw [hk, Option.some.injEq] at hk'
        exact .inl (by simp [hk'])
      · exact .inr ⟨k', by rw [Function.update_of_ne hkk, hk']⟩

omit [DecidableEq κ] in
/-- Giving up all that is held: everything is gone then, once. -/
theorem finish (h : Ledger held taken gone) {l : List ι} (hn : l.Nodup) (hl : ∀ i, i ∈ l ↔ ∃ k, held k = some i) :
    (gone ++ l).Nodup ∧ ∀ i, i ∈ gone ++ l ↔ i ∈ taken := by
  refine ⟨List.nodup_append.2 ⟨h.gone_once, hn, ?_⟩, fun i => ⟨fun hi => ?_, fun hi => ?_⟩⟩
  · rintro i hi i' hi' rfl
    obtain ⟨k, hk⟩ := (hl i).1 hi'
    exact h.held_not_gone k i hk hi
  · rcases List.mem_append.1 hi with hg | hheld
    · exact h.gone_taken hg
    · obtain ⟨k, hk⟩ := (hl i).1 hheld
      exact h.held_taken k i hk
  · rcases h.all i hi with hg | hk
    · exact List.mem_append_left _ hg
    · exact List.mem_append_right _ ((hl i).2 hk)

end Ledger

end Lib
