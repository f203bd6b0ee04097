import Nrappkit.Assoc.Map
/-!
# Deleting while iterating

`sweep` runs an iterator to its end and deletes each element whose key is in a
set right after it was returned. Whatever the set is, each element is returned
once, and the chains that are left are the old ones without the deleted
elements.
-/
open Lib DLink

namespace Nrappkit.Assoc

variable {δ : Type}

/-- The elements that `r_assoc_iter` returns until `R_EOD`, in at most `n`
calls; those with a key in `S` are deleted when they are returned. -/
def sweep (S : Bytes → Bool) : Nat → r_assoc δ → r_assoc_iterator → Option (List (Bytes × δ) × r_assoc δ)
  | 0, _, _ => none
  | n + 1, t, iter => do
    match ← r_assoc_iter t iter with
    | .error _ => some ([], t)
    | .ok (el, iter) =>
      let t ← if S el.1 then (r_assoc_iter_delete t iter).map (·.1) else some t
      let (els, t) ← sweep S n t iter
      some (el :: els, t)

/-- What an iterator returns of the elements of `l`. -/
def r_assoc.returned (t : r_assoc δ) (l : List Ptr) : List (Bytes × δ) :=
  l.filterMap fun p => (t.heap p).map fun e => (e.key, e.data)

/-- The element stays. -/
def r_assoc.stays (t : r_assoc δ) (S : Bytes → Bool) (p : Ptr) : Bool := (t.heap p).all fun e => !S e.key

theorem returned_congr {t t' : r_assoc δ} {l : List Ptr} (h : ∀ p ∈ l, (t'.heap p).map body = (t.heap p).map body) :
    t'.returned l = t.returned l := by
  refine List.filterMap_congr fun p hp => ?_
  have hb := congrArg (Option.map fun x => (x.1, x.2.1)) (h p hp)
  rwa [Option.map_map, Option.map_map] at hb

theorem stays_congr {t t' : r_assoc δ} {S : Bytes → Bool} {p : Ptr}
    (h : (t'.heap p).map body = (t.heap p).map body) : t'.stays S p = t.stays S p := by
  have hb := congrArg (Option.all fun x => !S x.1) h
  rwa [Option.all_map, Option.all_map] at hb

/-- What is left after the elements of `rest` were swept. -/
structure SweptFrom (S : Bytes → Bool) (t : r_assoc δ) (cs : Nat → List Ptr) (rest : List Ptr) (t' : r_assoc δ) : Prop where
  rep : Rep t' fun i => (cs i).filter fun p => decide (p ∉ rest) || t.stays S p
  same : ∀ p, (decide (p ∉ rest) || t.stays S p) = true → (t'.heap p).map body = (t.heap p).map body
  hash : SameHash t t'

namespace Rep
variable {t : r_assoc δ} {cs : Nat → List Ptr}

/-- The elements before `rest` were returned and stayed. The induction is on
what is left. -/
theorem sweep_from (h : Rep t cs) (S : Bytes → Bool) {iter : r_assoc_iterator} {pre rest : List Ptr}
    (ho : order t cs = pre ++ rest) (hat : At cs iter rest) :
    ∃ t', (∀ n > rest.length, sweep S n t iter = some (t.returned rest, t')) ∧ SweptFrom S t cs rest t' := by
  induction rest generalizing t cs iter pre with
  | nil =>
    refine ⟨t, fun n hn => ?_, ?_, fun _ _ => rfl, rfl, rfl⟩
    · obtain ⟨n, rfl⟩ : ∃ m, n = m + 1 := ⟨n - 1, by rw [List.length_nil] at hn; omega⟩
      have hnext : iter.next = none := hat.1
      simp [sweep, r_assoc_iter, hnext, r_assoc.returned]
    · simpa using h
  | cons p rest ih =>
    obtain ⟨e, iter', he, hiter, hprev, hpc, hat'⟩ := h.iter_step ho hat
    have hret : t.returned (p :: rest) = (e.key, e.data) :: t.returned rest := by simp [r_assoc.returned, he]
    have hpr : p ∉ rest := by
      have hnd := h.nodup_order
      rw [ho] at hnd
      exact (List.nodup_cons.1 (List.nodup_append.1 hnd).2.1).1
    cases hS : S e.key with
    | false =>
      obtain ⟨t', hrun, hrep, hsame, hhash⟩ := ih h (show order t cs = (pre ++ [p]) ++ rest by rw [ho, List.append_assoc]; rfl) hat'
      have hst : t.stays S p = true := by simp [r_assoc.stays, he, hS]
      have hkeep : ∀ q, (decide (q ∉ p :: rest) || t.stays S q) = (decide (q ∉ rest) || t.stays S q) := by
        intro q
        by_cases hqp : q = p
        · subst hqp
          rw [hst, Bool.or_true, Bool.or_true]
        · simp [hqp]
      refine ⟨t', fun n hn => ?_, ?_, fun q hq => hsame q (by rw [← hkeep]; exact hq), hhash⟩
      · rw [List.length_cons] at hn
        obtain ⟨n, rfl⟩ : ∃ m, n = m + 1 := ⟨n - 1, by omega⟩
        simp [sweep, hiter, hS, hrun n (by omega), hret]
      · simpa only [hkeep] using hrep
    | true =>
      obtain ⟨t₁, e', he', hrel, hr₁, -, hbody, hnone, -, hhash₁, -⟩ := h.release_entry hpc
      obtain ⟨-, ho₁, hat₁⟩ := h.erase_passed hhash₁ ho hat'
      obtain ⟨t', hrun, hrep, hsame, hhash⟩ := ih hr₁ ho₁ hat₁
      have hdel : r_assoc_iter_delete t iter' = some (t₁, e'.destroyCall) := by rw [r_assoc_iter_delete, hprev]; exact hrel
      have hother : ∀ q, q ≠ p → t₁.stays S q = t.stays S q := fun q hq => stays_congr (hbody q hq)
      have hgone : t.stays S p = false := by simp [r_assoc.stays, he, hS]
      have hkeep : ∀ q, (decide (q ∉ p :: rest) || t.stays S q) = (decide (q ≠ p) && (decide (q ∉ rest) || t₁.stays S q)) := by
        intro q
        by_cases hqp : q = p
        · subst hqp
          rw [hgone]
          simp
        · rw [hother q hqp]
          simp [hqp]
      refine ⟨t', fun n hn => ?_, ?_, fun q hq => ?_, hhash₁.trans hhash⟩
      · rw [List.length_cons] at hn
        obtain ⟨n, rfl⟩ : ∃ m, n = m + 1 := ⟨n - 1, by omega⟩
        have hrest : t₁.returned rest = t.returned rest := by
          refine returned_congr fun q hq => hbody q ?_
          rintro rfl
          exact hpr hq
        simp [sweep, hiter, hS, hdel, hrun n (by omega), hret, hrest]
      · have hcs : (fun i => (cs i).filter fun q => decide (q ∉ p :: rest) || t.stays S q) =
            fun i => ((cs i).erase p).filter fun q => decide (q ∉ rest) || t₁.stays S q := by
          funext i
          rw [(h.nodup i).erase_eq_filter, List.filter_filter]
          refine List.filter_congr fun q _ => ?_
          rw [hkeep, Bool.and_comm]
          simp only [bne, beq_eq_decide, ne_eq, decide_not]
        rw [hcs]
        exact hrep
      · rw [hkeep, Bool.and_eq_true, decide_eq_true_eq] at hq
        rw [hsame q hq.2, hbody q hq.1]

theorem returned_nodup (h : Rep t cs) : ((t.returned (order t cs)).map (·.1)).Nodup := by
  have hkeys : ∀ l : List Ptr, l.Nodup → ((t.returned l).map (·.1)).Nodup := by
    intro l hl
    rw [r_assoc.returned, List.map_filterMap]
    refine List.Nodup.filterMap (fun a b k ha hb => ?_) hl
    simp only [Option.mem_def, Option.map_map, Option.map_eq_some_iff, Function.comp_apply] at ha hb
    obtain ⟨e, he, rfl⟩ := ha
    obtain ⟨e', he', hk⟩ := hb
    exact h.keys a b e e' he he' hk.symm
  exact hkeys _ h.nodup_order

theorem mem_returned (h : Rep t cs) {k : Bytes} {d : δ} : (k, d) ∈ t.returned (order t cs) ↔ t.get k = some d := by
  rw [h.get_eq_some, r_assoc.returned, List.mem_filterMap]
  constructor
  · rintro ⟨p, -, hp⟩
    obtain ⟨e, he, heq⟩ := Option.map_eq_some_iff.1 hp
    cases heq
    exact ⟨p, e, he, rfl, rfl⟩
  · rintro ⟨p, e, he, rfl, rfl⟩
    exact ⟨p, h.mem_order.2 ⟨e, he⟩, by rw [he]; rfl⟩

/-- The table that is left stores what it did under the other keys. -/
theorem entry_of_stays (h : Rep t cs) {S : Bytes → Bool} {t' : r_assoc δ} {cs' : Nat → List Ptr} (h' : Rep t' cs')
    (hmem : ∀ p, p ∈ order t' cs' ↔ p ∈ order t cs ∧ t.stays S p = true)
    (hsame : ∀ p, t.stays S p = true → (t'.heap p).map body = (t.heap p).map body) (k : Bytes) :
    t'.entry k = if S k then none else t.entry k := by
  have hlive : ∀ {p e'}, t'.heap p = some e' → ∃ e, t.heap p = some e ∧ body e' = body e ∧ S e.key = false := by
    intro p e' he'
    obtain ⟨-, hst⟩ := (hmem p).1 (h'.mem_order.2 ⟨e', he'⟩)
    obtain ⟨e, he, hbe⟩ := some_of_map_eq (hsame p hst).symm he'
    rw [r_assoc.stays, he, Option.all_some, Bool.not_eq_true'] at hst
    exact ⟨e, he, hbe.symm, hst⟩
  split
  · rename_i hk
    rw [h'.entry_eq_none]
    rintro a e' he' rfl
    obtain ⟨e, -, hbe, hS⟩ := hlive he'
    rw [(body_eq hbe).1, hS] at hk
    cases hk
  · rename_i hk
    apply Option.ext
    intro x
    rw [h'.entry_eq_some, h.entry_eq_some]
    constructor
    · rintro ⟨a, e', he', hbe'⟩
      obtain ⟨e, he, hbe, -⟩ := hlive he'
      exact ⟨a, e, he, hbe.symm.trans hbe'⟩
    · rintro ⟨a, e, he, hbe⟩
      have hst : t.stays S a = true := by
        rw [r_assoc.stays, he, Option.all_some, show e.key = k from congrArg Prod.fst hbe]
        simpa using hk
      obtain ⟨e', he', hb'⟩ := some_of_map_eq (hsame a hst) he
      exact ⟨a, e', he', hb'.trans hbe⟩

end Rep

/-- Whatever set of keys is deleted on the way, the iterator returns each
element of the table once, and what is left are the other elements, in their
chains and in their order. -/
theorem sweep_spec {t : r_assoc δ} {cs : Nat → List Ptr} (h : Rep t cs) (S : Bytes → Bool) :
    ((t.returned (order t cs)).map (·.1)).Nodup ∧ (∀ k d, (k, d) ∈ t.returned (order t cs) ↔ t.get k = some d) ∧
      ∃ t', (∀ n > (order t cs).length, sweep S n t (r_assoc_init_iter t) = some (t.returned (order t cs), t')) ∧
        Rep t' (fun i => (cs i).filter (t.stays S)) ∧
        (∀ p, t.stays S p = true → (t'.heap p).map body = (t.heap p).map body) ∧
        ∀ k, t'.entry k = if S k then none else t.entry k := by
  refine ⟨h.returned_nodup, fun k d => h.mem_returned, ?_⟩
  obtain ⟨t', hrun, hrep, hsame, hhash⟩ := h.sweep_from S (show order t cs = [] ++ order t cs from rfl) h.init_iter
  have hcs : (fun i => (cs i).filter fun p => decide (p ∉ order t cs) || t.stays S p) =
      fun i => (cs i).filter (t.stays S) := by
    funext i
    refine List.filter_congr fun p hp => ?_
    have hin : p ∈ order t cs := h.mem_order.2 (h.live hp)
    simp [hin]
  rw [hcs] at hrep
  have hbody : ∀ p, t.stays S p = true → (t'.heap p).map body = (t.heap p).map body := fun p hp => hsame p (by simp [hp])
  refine ⟨t', hrun, hrep, hbody, h.entry_of_stays hrep (fun p => ?_) hbody⟩
  rw [order_filter hhash.size, List.mem_filter]

/-- Two keys in one chain, the first of which is deleted. -/
theorem sweep_two :
    ∃ t t' : r_assoc Nat, t.get [1] = some 10 ∧ t.get [2] = some 20 ∧
      (∃ n els, sweep (fun k => k == [1]) n t (r_assoc_init_iter t) = some (els, t')) ∧
      t'.get [1] = none ∧ t'.get [2] = some 20 := by
  have h0 := create_rep (δ := Nat) (fun _ _ => 0) 0 (by simp)
  have hnone : ∀ k, (r_assoc_create (fun _ _ => 0) 0 : r_assoc Nat).entry k = none := fun k =>
    h0.entry_eq_none.2 fun a e he => by cases he
  obtain ⟨t₁, cs₁, -, h1, he₁, -⟩ := h0.insert_absent (hnone [1]) 10 none none .R_ASSOC_NEW
  have habs : t₁.entry [2] = none := by rw [he₁, Function.update_of_ne (by decide), hnone]
  obtain ⟨t₂, cs₂, -, h2, he₂, -⟩ := h1.insert_absent habs 20 none none .R_ASSOC_NEW
  have hone : t₂.entry [1] = some (10, none, none) := by
    rw [he₂, Function.update_of_ne (by decide), he₁, Function.update_self]
  have htwo : t₂.entry [2] = some (20, none, none) := by rw [he₂, Function.update_self]
  obtain ⟨-, -, t', hrun, -, -, hget⟩ := sweep_spec h2 fun k => k == [1]
  refine ⟨t₂, t', by rw [r_assoc.get, hone]; rfl, by rw [r_assoc.get, htwo]; rfl, ⟨_, _, hrun _ (Nat.lt_succ_self _)⟩, ?_, ?_⟩
  · rw [r_assoc.get, hget]
    rfl
  · rw [r_assoc.get, hget, htwo]
    rfl

end Nrappkit.Assoc
