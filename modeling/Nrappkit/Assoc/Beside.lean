import Nrappkit.Assoc.Theorems
import Nrappkit.Lib.Frame
/-!
# A table beside other tables

The calls of `r_assoc.h` on one table, in a memory that also holds the elements
of other tables. A call that returns on the table's own elements does the same
in the whole memory, and leaves the other elements alone.
-/
open Lib DLink

namespace Nrappkit.Assoc

variable {δ : Type}

/-- The table in a memory that also holds `rest`. -/
def r_assoc.beside (t : r_assoc δ) (rest : Heap (r_assoc_el δ)) : r_assoc δ := { t with heap := join t.heap rest }

def St.beside (s : St δ) (rest : Heap (r_assoc_el δ)) : St δ := { s with assoc := s.assoc.beside rest }

/-- `rest` is none of the table's elements, and none of the addresses that are
still to be handed out. -/
structure Shares (t : r_assoc δ) (rest : Heap (r_assoc_el δ)) : Prop where
  apart : Apart t.heap rest
  fresh : ∀ a, t.brk ≤ a → rest a = none

variable {t t' : r_assoc δ} {rest : Heap (r_assoc_el δ)}

@[simp] theorem beside_chains : (t.beside rest).chains = t.chains := rfl
@[simp] theorem beside_brk : (t.beside rest).brk = t.brk := rfl
@[simp] theorem beside_size : (t.beside rest).size = t.size := rfl
@[simp] theorem beside_num_elements : (t.beside rest).num_elements = t.num_elements := rfl
@[simp] theorem beside_heap : (t.beside rest).heap = join t.heap rest := rfl
@[simp] theorem beside_hash (key : Bytes) : (t.beside rest).hash key = t.hash key := rfl

/-! ## Fetch -/

theorem fetch_loop_join {heap : Heap (r_assoc_el δ)} {key : Bytes} {n : Nat} {p : Option Ptr} {r : Option Ptr}
    (h : fetch_loop heap key n p = some r) : fetch_loop (join heap rest) key n p = some r := by
  induction n generalizing p with
  | zero => cases p <;> exact h
  | succ n ih =>
    cases p with
    | none => exact h
    | some p =>
      simp only [fetch_loop, Option.bind_eq_bind, Option.bind_eq_some_iff] at h
      obtain ⟨el, he, h⟩ := h
      simp only [fetch_loop, join_some he, Option.bind_eq_bind, Option.bind_some]
      split at h
      · rename_i hk
        rw [if_pos hk]
        exact h
      · rename_i hk
        rw [if_neg hk]
        exact ih h

theorem fetch_bucket_beside {key : Bytes} {r : Option Ptr} (h : r_assoc_fetch_bucket t key = some r) :
    r_assoc_fetch_bucket (t.beside rest) key = some r := fetch_loop_join h

theorem fetch_beside {key : Bytes} {r : Except Status δ} (h : r_assoc_fetch t key = some r) :
    r_assoc_fetch (t.beside rest) key = some r := by
  simp only [r_assoc_fetch, Option.bind_eq_bind, Option.bind_eq_some_iff] at h
  obtain ⟨b, hb, h⟩ := h
  simp only [r_assoc_fetch, fetch_bucket_beside hb, Option.bind_eq_bind, Option.bind_some]
  cases b with
  | none => exact h
  | some b =>
    obtain ⟨el, he, rfl⟩ := Option.map_eq_some_iff.1 h
    exact Option.map_eq_some_iff.2 ⟨el, join_some he, rfl⟩

/-! ## Insert and delete -/

theorem insert_beside (h : Shares t rest) {key : Bytes} {data : δ} {copy destroy : Option FnPtr} {how : How}
    {st : Status} {calls : List (FnPtr × δ)} (hi : r_assoc_insert t key data copy destroy how = some (st, t', calls)) :
    r_assoc_insert (t.beside rest) key data copy destroy how = some (st, t'.beside rest, calls) ∧ Shares t' rest := by
  simp only [r_assoc_insert, Option.bind_eq_bind, Option.bind_eq_some_iff] at hi
  obtain ⟨b, hb, hi⟩ := hi
  simp only [r_assoc_insert, fetch_bucket_beside hb, Option.bind_eq_bind, Option.bind_some]
  cases b with
  | none =>
    simp only [Option.bind_eq_some_iff, Option.some.injEq, Prod.mk.injEq] at hi
    obtain ⟨heap, hh, rfl, rfl, rfl⟩ := hi
    obtain ⟨hh', ha⟩ := hookFront_join h.apart (h.fresh _ (Nat.le_refl _)) hh
    refine ⟨?_, ha, fun a hle => h.fresh a (Nat.le_of_succ_le hle)⟩
    simp [hh']
    rfl
  | some b =>
    cases how with
    | R_ASSOC_NEW =>
      cases hi
      exact ⟨rfl, h⟩
    | R_ASSOC_REPLACE =>
      simp only [reduceCtorEq, if_false, Option.bind_eq_some_iff, Option.some.injEq, Prod.mk.injEq] at hi ⊢
      obtain ⟨el, he, rfl, rfl, rfl⟩ := hi
      refine ⟨⟨el, join_some he, rfl, ?_, rfl⟩, h.apart.update (h.apart.rest_none he) _, h.fresh⟩
      rw [beside_heap, update_join]
      rfl

theorem release_beside (h : Shares t rest) {i : Nat} {p : Ptr} {calls : List (FnPtr × δ)}
    (hr : t.release i p = some (t', calls)) :
    (t.beside rest).release i p = some (t'.beside rest, calls) ∧ Shares t' rest := by
  simp only [r_assoc.release, Option.bind_eq_bind, Option.bind_eq_some_iff, Option.some.injEq, Prod.mk.injEq] at hr
  obtain ⟨el, he, ⟨heap, hd⟩, hu, rfl, rfl⟩ := hr
  have hp := h.apart.rest_none he
  obtain ⟨hu', ha⟩ := unhook_join h.apart hu
  refine ⟨?_, ha.update hp _, h.fresh⟩
  simp only [r_assoc.release, beside_heap, beside_chains, join_some he, hu', Option.bind_eq_bind, Option.bind_some]
  rw [release_join hp]
  rfl

theorem delete_beside (h : Shares t rest) {key : Bytes} {st : Status} {calls : List (FnPtr × δ)}
    (hd : r_assoc_delete t key = some (st, t', calls)) :
    r_assoc_delete (t.beside rest) key = some (st, t'.beside rest, calls) ∧ Shares t' rest := by
  simp only [r_assoc_delete, Option.bind_eq_bind, Option.bind_eq_some_iff] at hd
  obtain ⟨b, hb, hd⟩ := hd
  simp only [r_assoc_delete, fetch_bucket_beside hb, Option.bind_eq_bind, Option.bind_some]
  cases b with
  | none =>
    cases hd
    exact ⟨rfl, h⟩
  | some b =>
    simp only [Option.bind_eq_some_iff, Option.some.injEq, Prod.mk.injEq] at hd
    obtain ⟨r, hr, rfl, hr'⟩ := hd
    subst hr'
    obtain ⟨hr', hs⟩ := release_beside h hr
    refine ⟨?_, hs⟩
    simp [hr']

/-! ## Iterators -/

theorem iter_beside {iter : r_assoc_iterator} {r : Except Status ((Bytes × δ) × r_assoc_iterator)}
    (h : r_assoc_iter t iter = some r) : r_assoc_iter (t.beside rest) iter = some r := by
  unfold r_assoc_iter at h ⊢
  cases hn : iter.next with
  | none => rwa [hn] at h
  | some p =>
    simp only [hn, Option.bind_eq_bind, Option.bind_eq_some_iff] at h ⊢
    obtain ⟨el, he, h⟩ := h
    exact ⟨el, join_some he, h⟩

/-- Every call on the table does beside `rest` what it does alone. -/
theorem step_beside {s s' : St δ} (h : Shares s.assoc rest) {op : Op δ} {r : Ret δ} (hst : step s op = some (r, s')) :
    step (s.beside rest) op = some (r, s'.beside rest) ∧ Shares s'.assoc rest := by
  cases op with
  | insert key data copy destroy how =>
    obtain ⟨⟨st, t', calls⟩, hi, hr⟩ := Option.map_eq_some_iff.1 hst
    cases hr
    obtain ⟨hi', hs⟩ := insert_beside h hi
    exact ⟨Option.map_eq_some_iff.2 ⟨_, hi', rfl⟩, hs⟩
  | delete key =>
    obtain ⟨⟨st, t', calls⟩, hd, hr⟩ := Option.map_eq_some_iff.1 hst
    cases hr
    obtain ⟨hd', hs⟩ := delete_beside h hd
    exact ⟨Option.map_eq_some_iff.2 ⟨_, hd', rfl⟩, hs⟩
  | fetch key =>
    obtain ⟨x, hf, hr⟩ := Option.map_eq_some_iff.1 hst
    have hf' : r_assoc_fetch (s.assoc.beside rest) key = some x := fetch_beside hf
    cases x <;> cases hr <;> exact ⟨Option.map_eq_some_iff.2 ⟨_, hf', rfl⟩, h⟩
  | init_iter =>
    cases hst
    exact ⟨rfl, h⟩
  | iter =>
    obtain ⟨x, hi, hr⟩ := Option.map_eq_some_iff.1 hst
    have hi' : r_assoc_iter (s.assoc.beside rest) s.iterator = some x := iter_beside hi
    cases x <;> cases hr <;> exact ⟨Option.map_eq_some_iff.2 ⟨_, hi', rfl⟩, h⟩
  | iter_delete =>
    obtain ⟨⟨t', calls⟩, hd, hr⟩ := Option.map_eq_some_iff.1 hst
    cases hr
    unfold r_assoc_iter_delete at hd
    cases hp : s.iterator.prev with
    | none =>
      rw [hp] at hd
      cases hd
    | some p =>
      rw [hp] at hd
      obtain ⟨hd', hs⟩ := release_beside h hd
      have hd'' : r_assoc_iter_delete (s.beside rest).assoc (s.beside rest).iterator =
          some (t'.beside rest, calls) := by
        rw [r_assoc_iter_delete, show (s.beside rest).iterator.prev = some p from hp]
        exact hd'
      exact ⟨Option.map_eq_some_iff.2 ⟨_, hd'', rfl⟩, hs⟩

/-- A represented table stores beside `rest` what it stores alone. -/
theorem Rep.entry_beside {cs : Nat → List Ptr} (h : Rep t cs) (rest : Heap (r_assoc_el δ)) :
    (t.beside rest).entry = t.entry := by
  funext key
  rcases h.bucket_cases key with ⟨a, e, he, -, hb⟩ | ⟨-, hb⟩
  · simp [r_assoc.entry, hb, he, fetch_bucket_beside hb, join_some he]
  · simp [r_assoc.entry, hb, fetch_bucket_beside hb]

end Nrappkit.Assoc
