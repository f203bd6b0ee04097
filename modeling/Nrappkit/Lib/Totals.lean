import Mathlib.Algebra.BigOperators.Group.Multiset.Basic
import Mathlib.Data.Finmap
import Mathlib.Data.Nat.ModEq
/-!
# Totals

Items under keys, and the total of a number that each item has. A counter of
limited width that goes up by that number when an item comes in, and down by it
when the item leaves, follows the total modulo its width, also where it is given
the number itself on one side and a rounded one on the other.
-/

namespace Lib

variable {κ ι M : Type}

/-- The total of `f` over all items. -/
def total [AddCommMonoid M] (f : ι → M) (s : Finmap fun _ : κ => ι) : M := (s.entries.map fun e => f e.snd).sum

variable [AddCommMonoid M] {f : ι → M} {s : Finmap fun _ : κ => ι}

@[simp] theorem total_empty : total f (∅ : Finmap fun _ : κ => ι) = 0 := by
  have hnil : (∅ : Finmap fun _ : κ => ι).entries = 0 := rfl
  simp [total, hnil]

variable [DecidableEq κ] {k : κ} {i : ι}

theorem total_insert (hk : k ∉ s) : total f (s.insert k i) = f i + total f s := by
  simp [total, Finmap.entries_insert_of_notMem hk]

/-- An item goes back where it was. -/
theorem insert_erase (hk : s.lookup k = some i) : (s.erase k).insert k i = s := by
  apply Finmap.ext_lookup
  intro k'
  by_cases hkk : k' = k
  · rw [hkk, Finmap.lookup_insert, hk]
  · rw [Finmap.lookup_insert_of_ne _ hkk, Finmap.lookup_erase_ne hkk]

theorem total_erase (hk : s.lookup k = some i) : f i + total f (s.erase k) = total f s := by
  rw [← total_insert Finmap.notMem_erase_self, insert_erase hk]

/-! ## Counters -/

section Counters
variable {n c c' v : Nat} {f : ι → Nat}

/-- The counter is the total modulo `n`. -/
def Follows (n c : Nat) (f : ι → Nat) (s : Finmap fun _ : κ => ι) : Prop := c ≡ total f s [MOD n]

omit [DecidableEq κ] in
theorem Follows.empty : Follows n 0 f (∅ : Finmap fun _ : κ => ι) := by
  rw [Follows, total_empty]

/-- Up by what an item has that comes in. -/
theorem Follows.insert (h : Follows n c f s) (hk : k ∉ s) (hc : c' ≡ c + v [MOD n]) (hv : v ≡ f i [MOD n]) :
    Follows n c' f (s.insert k i) := by
  rw [Follows, total_insert hk, Nat.add_comm]
  exact hc.trans (h.add hv)

/-- Down by what an item has that leaves. -/
theorem Follows.erase (h : Follows n c f s) (hk : s.lookup k = some i) (hc : c' + v ≡ c [MOD n]) (hv : v ≡ f i [MOD n]) :
    Follows n c' f (s.erase k) := by
  have hsum : c' + v ≡ total f (s.erase k) + f i [MOD n] := by
    rw [Nat.add_comm (total f (s.erase k)), total_erase hk]
    exact hc.trans h
  exact Nat.ModEq.add_right_cancel hv hsum

omit [DecidableEq κ] in
/-- A counter below `n` that follows nothing is zero. -/
theorem Follows.eq_zero (h : Follows n c f (∅ : Finmap fun _ : κ => ι)) (hc : c < n) : c = 0 := by
  rw [Follows, total_empty] at h
  exact h.eq_of_lt_of_lt hc (Nat.zero_lt_of_lt hc)

/-! ### A counter for each class -/

variable {τ : Type} [DecidableEq τ] {cls : ι → τ} {cs cs' : τ → Nat}

/-- What an item counts for in the counter of the class `t`. -/
def ofClass (cls : ι → τ) (f : ι → Nat) (t : τ) (i : ι) : Nat := if cls i = t then f i else 0

/-- An item that comes in moves the counter of its class only. -/
theorem Follows.insert_class (h : ∀ t, Follows n (cs t) (ofClass cls f t) s) (hk : k ∉ s)
    (hc : cs' (cls i) ≡ cs (cls i) + v [MOD n]) (hv : v ≡ f i [MOD n]) (hne : ∀ t, t ≠ cls i → cs' t = cs t) (t : τ) :
    Follows n (cs' t) (ofClass cls f t) (s.insert k i) := by
  by_cases ht : t = cls i
  · subst ht
    have hof : ofClass cls f (cls i) i = f i := if_pos rfl
    exact (h (cls i)).insert hk hc (hof ▸ hv)
  · have hof : ofClass cls f t i = 0 := if_neg (Ne.symm ht)
    rw [hne t ht]
    exact (h t).insert (v := 0) hk rfl (by rw [hof])

theorem Follows.erase_class (h : ∀ t, Follows n (cs t) (ofClass cls f t) s) (hk : s.lookup k = some i)
    (hc : cs' (cls i) + v ≡ cs (cls i) [MOD n]) (hv : v ≡ f i [MOD n]) (hne : ∀ t, t ≠ cls i → cs' t = cs t) (t : τ) :
    Follows n (cs' t) (ofClass cls f t) (s.erase k) := by
  by_cases ht : t = cls i
  · subst ht
    have hof : ofClass cls f (cls i) i = f i := if_pos rfl
    exact (h (cls i)).erase hk hc (hof ▸ hv)
  · have hof : ofClass cls f t i = 0 := if_neg (Ne.symm ht)
    rw [hne t ht]
    exact (h t).erase (v := 0) hk rfl (by rw [hof])

end Counters

end Lib
