import Mathlib.Data.List.Nodup
import Mathlib.Tactic.Common
/-!
# Queues and logs

A tail queue is the list of what it links. `after` is what stands behind an
element: the rest of a walk that has just saved its `next` link. A log is a
list that only grows at its end, read by position.
-/

namespace Lib

/-! ## Queues -/

section
variable {α : Type} [DecidableEq α]

/-- What is linked behind `a`. -/
def after (a : α) : List α → List α
  | [] => []
  | b :: l => if b = a then l else after a l

/-- The element a walk saves before it visits `a`. -/
def nextOf (l : List α) (a : α) : Option α := (after a l).head?

theorem after_split {a : α} {l₁ l₂ : List α} (h : a ∉ l₁) : after a (l₁ ++ a :: l₂) = l₂ := by
  induction l₁ with
  | nil => simp [after]
  | cons b l₁ ih =>
    rw [List.mem_cons, not_or] at h
    rw [List.cons_append, after, if_neg (Ne.symm h.1), ih h.2]

theorem nextOf_split {a : α} {l₁ l₂ : List α} (h : a ∉ l₁) : nextOf (l₁ ++ a :: l₂) a = l₂.head? := by
  rw [nextOf, after_split h]

theorem mem_of_mem_after {a b : α} {l : List α} (h : b ∈ after a l) : b ∈ l := by
  induction l with
  | nil => cases h
  | cons c l ih =>
    rw [after] at h
    split at h
    · exact List.mem_cons_of_mem c h
    · exact List.mem_cons_of_mem c (ih h)

theorem mem_of_nextOf {a b : α} {l : List α} (h : nextOf l a = some b) : b ∈ l :=
  mem_of_mem_after (List.mem_of_mem_head? h)

/-- The saved element is another one. -/
theorem ne_of_nextOf {a b : α} {l : List α} (hn : l.Nodup) (h : nextOf l a = some b) : b ≠ a := by
  induction l with
  | nil => cases h
  | cons c l ih =>
    obtain ⟨hc, hl⟩ := List.nodup_cons.1 hn
    unfold nextOf after at h
    split at h
    · rename_i heq
      rintro rfl
      exact hc (heq ▸ List.mem_of_mem_head? h)
    · exact ih hl h

theorem erase_split {a : α} {l₁ l₂ : List α} (h : a ∉ l₁) : (l₁ ++ a :: l₂).erase a = l₁ ++ l₂ := by
  rw [List.erase_append_right _ h, List.erase_cons_head]

omit [DecidableEq α] in
theorem not_mem_left {a : α} {l₁ l₂ : List α} (h : (l₁ ++ a :: l₂).Nodup) : a ∉ l₁ := fun hm =>
  (List.nodup_append.1 h).2.2 a hm a (by simp) rfl

/-! ## Tables of queues -/

variable {f : Nat → List α} {i q n : Nat} {a p : α}

omit [DecidableEq α] in
/-- What a table holds after `p` was added to the queue `q`. -/
theorem mem_added : a ∈ Function.update f q (f q ++ [p]) i ↔ a ∈ f i ∨ i = q ∧ a = p := by
  by_cases hi : i = q
  · subst hi
    simp
  · simp [hi]

/-- What a table holds after `p` was taken out of the queue `q`. -/
theorem mem_removed (hn : (f q).Nodup) :
    a ∈ Function.update f q ((f q).erase p) i ↔ a ∈ f i ∧ ¬ (i = q ∧ a = p) := by
  by_cases hi : i = q
  · subst hi
    rw [Function.update_self, hn.mem_erase_iff]
    tauto
  · simp [hi]

omit [DecidableEq α] in
/-- One queue of a table changes its length. -/
theorem length_flatMap_update (hi : i < n) (l : List α) :
    ((List.range n).flatMap (Function.update f i l)).length + (f i).length =
      ((List.range n).flatMap f).length + l.length := by
  induction n with
  | zero => omega
  | succ n ih =>
    simp only [List.range_succ, List.flatMap_append, List.flatMap_singleton, List.length_append]
    by_cases hin : i = n
    · subst hin
      have hsame : (List.range i).flatMap (Function.update f i l) = (List.range i).flatMap f := by
        apply List.flatMap_congr
        intro k hk
        have hki : k ≠ i := Nat.ne_of_lt (List.mem_range.1 hk)
        rw [Function.update_of_ne hki]
      rw [hsame, Function.update_self]
      omega
    · have hni : n ≠ i := Ne.symm hin
      have hlt : i < n := by omega
      have := ih hlt
      rw [Function.update_of_ne hni]
      omega

omit [DecidableEq α] in
/-- The queues of a table visited in another order give the same elements in
the same order if none is missed and those that are not empty are visited from
the first to the last. -/
theorem flatMap_eq_range_iff {key : α → Nat} (hkey : ∀ i, ∀ a ∈ f i, key a = i) (hn : ∀ i, f i ≠ [] → i < n)
    {is : List Nat} (hnd : is.Nodup) : is.flatMap f = (List.range n).flatMap f ↔
      (∀ i, f i ≠ [] → i ∈ is) ∧ is.Pairwise fun i k => f i ≠ [] → f k ≠ [] → i < k := by
  classical
  have hskip : ∀ l : List Nat, l.flatMap f = (l.filter fun i => f i ≠ []).flatMap f := fun l => by
    induction l with
    | nil => rfl
    | cons i l ih => by_cases hi : f i = [] <;> simp [hi, ih]
  constructor
  · intro h
    have hrange : ((List.range n).flatMap f).Pairwise fun a b => key a ≤ key b := by
      refine List.pairwise_flatMap.2 ⟨fun i _ => List.pairwise_of_forall_mem_list fun a ha b hb => ?_, ?_⟩
      · exact Nat.le_of_eq ((hkey i a ha).trans (hkey i b hb).symm)
      · refine List.pairwise_lt_range.imp fun hik a ha b hb => ?_
        rw [hkey _ a ha, hkey _ b hb]
        exact Nat.le_of_lt hik
    rw [← h] at hrange
    refine ⟨fun i hi => ?_, ?_⟩
    · obtain ⟨a, ha⟩ := List.exists_mem_of_ne_nil _ hi
      have hmem : a ∈ is.flatMap f := by
        rw [h]
        exact List.mem_flatMap.2 ⟨i, List.mem_range.2 (hn i hi), ha⟩
      obtain ⟨k, hk, hak⟩ := List.mem_flatMap.1 hmem
      rwa [← hkey i a ha, hkey k a hak]
    · refine ((List.pairwise_flatMap.1 hrange).2.and hnd).imp fun ⟨hle, hne⟩ hi hk => ?_
      obtain ⟨a, ha⟩ := List.exists_mem_of_ne_nil _ hi
      obtain ⟨b, hb⟩ := List.exists_mem_of_ne_nil _ hk
      have hab := hle a ha b hb
      rw [hkey _ a ha, hkey _ b hb] at hab
      exact Nat.lt_of_le_of_ne hab hne
  · rintro ⟨hall, hsorted⟩
    rw [hskip, hskip (List.range n)]
    congr 1
    have hperm : (is.filter fun i => f i ≠ []).Perm ((List.range n).filter fun i => f i ≠ []) := by
      rw [List.perm_ext_iff_of_nodup (hnd.filter _) (List.nodup_range.filter _)]
      intro i
      simp only [List.mem_filter, List.mem_range, decide_eq_true_eq]
      exact and_congr_left fun hi => ⟨fun _ => hn i hi, fun _ => hall i hi⟩
    have hasc : (is.filter fun i => f i ≠ []).Pairwise (· < ·) := by
      rw [List.pairwise_filter]
      simpa only [decide_eq_true_eq] using hsorted
    refine hperm.eq_of_pairwise ?_ hasc (List.pairwise_lt_range.filter _)
    exact fun i k _ _ hik hki => absurd hik (Nat.lt_asymm hki)
end

/-! ## Logs -/

section
variable {ε : Type}

/-- The event at position `i` of the log. -/
def Logged (l : List ε) (i : Nat) (e : ε) : Prop := l[i]? = some e

instance [DecidableEq ε] (l : List ε) (i : Nat) (e : ε) : Decidable (Logged l i e) :=
  inferInstanceAs (Decidable (l[i]? = some e))

variable {l : List ε} {i : Nat} {e x : ε}

/-- What a log holds after one more event. -/
theorem logged_snoc : Logged (l ++ [e]) i x ↔ Logged l i x ∨ i = l.length ∧ x = e := by
  unfold Logged
  rcases Nat.lt_trichotomy i l.length with h | h | h
  · rw [List.getElem?_append_left h]
    exact ⟨.inl, fun hx => hx.elim id fun hx => absurd hx.1 (Nat.ne_of_lt h)⟩
  · subst h
    simp [eq_comm]
  · rw [List.getElem?_eq_none (by simp; omega)]
    constructor
    · intro hx
      cases hx
    · rintro (hx | hx)
      · rw [List.getElem?_eq_none (Nat.le_of_lt h)] at hx
        cases hx
      · omega

theorem Logged.lt (h : Logged l i x) : i < l.length := (List.getElem?_eq_some_iff.1 h).1

/-- What was in the log stays where it was. -/
theorem Logged.old (h : Logged l i x) (e : ε) : Logged (l ++ [e]) i x := logged_snoc.2 (.inl h)

/-- What the log held before its last event. -/
theorem Logged.of_lt (h : Logged (l ++ [e]) i x) (hi : i < l.length) : Logged l i x := by
  rcases logged_snoc.1 h with h | ⟨rfl, -⟩
  · exact h
  · exact absurd hi (Nat.lt_irrefl _)

/-- What a log holds it holds when it has grown. -/
theorem Logged.mono {l' : List ε} (h : Logged l i e) (hl : l <+: l') : Logged l' i e := by
  have hi := h.lt
  obtain ⟨t, rfl⟩ := hl
  unfold Logged at *
  rw [List.getElem?_append_left hi]
  exact h

/-- What a log held when it was shorter. -/
theorem Logged.of_prefix {l' : List ε} (h : Logged l' i e) (hl : l <+: l') (hi : i < l.length) : Logged l i e := by
  obtain ⟨t, rfl⟩ := hl
  unfold Logged at *
  rwa [List.getElem?_append_left hi] at h

theorem Logged.unique {y : ε} (hx : Logged l i x) (hy : Logged l i y) : x = y := by
  unfold Logged at hx hy
  rw [hx] at hy
  cases hy
  rfl

/-- No event behind position `k` is one of `P`. -/
def Since (l : List ε) (k : Nat) (P : ε → Prop) : Prop := ∀ n e, k < n → Logged l n e → ¬ P e

theorem since_snoc {k : Nat} {P : ε → Prop} : Since (l ++ [e]) k P ↔ Since l k P ∧ (k < l.length → ¬ P e) := by
  constructor
  · intro h
    exact ⟨fun n x hn hx => h n x hn (hx.old e), fun hk => h l.length e hk (logged_snoc.2 (.inr ⟨rfl, rfl⟩))⟩
  · rintro ⟨h, hk⟩ n x hn hx
    rcases logged_snoc.1 hx with hx | ⟨rfl, rfl⟩
    · exact h n x hn hx
    · exact hk hn

/-- Nothing stands behind the end. -/
theorem since_length {P : ε → Prop} : Since (l ++ [e]) l.length P := by
  intro n x hn hx
  have := hx.lt
  rw [List.length_append, List.length_singleton] at this
  omega

theorem Since.mono {k : Nat} {P Q : ε → Prop} (h : Since l k P) (hQ : ∀ e, Q e → P e) : Since l k Q :=
  fun n x hn hx hq => h n x hn hx (hQ x hq)

/-- The log before position `m` does not change. -/
theorem take_snoc {m : Nat} (h : m ≤ l.length) : (l ++ [e]).take m = l.take m := List.take_append_of_le_length h

theorem logged_of_take {m : Nat} (h : Logged (l.take m) i x) : Logged l i x := by
  unfold Logged at *
  rw [List.getElem?_take] at h
  split at h
  · exact h
  · cases h

theorem lt_of_logged_take {m : Nat} (h : Logged (l.take m) i x) : i < m :=
  Nat.lt_of_lt_of_le h.lt (List.length_take_le m l)

theorem logged_take {m : Nat} (h : Logged l i x) (hi : i < m) : Logged (l.take m) i x := by
  unfold Logged at *
  rw [List.getElem?_take, if_pos hi]
  exact h

/-- What opens is closed before something opens again; outside, all is closed. -/
structure Bracketed (opens closes : ε → Prop) (inside : Bool) (l : List ε) : Prop where
  apart : ∀ m m' e e', m < m' → Logged l m e → opens e → Logged l m' e' → opens e' →
    ∃ n x, m < n ∧ n < m' ∧ Logged l n x ∧ closes x
  closed : inside = false → ∀ m e, Logged l m e → opens e → ∃ n x, m < n ∧ Logged l n x ∧ closes x

variable {opens closes : ε → Prop} {u u' : Bool}

theorem Bracketed.snoc (h : Bracketed opens closes u l) (he : ¬ opens e) (hu : u' = false → u = false ∨ closes e) :
    Bracketed opens closes u' (l ++ [e]) := by
  have hold : ∀ {m x}, Logged (l ++ [e]) m x → opens x → Logged l m x := by
    intro m x hm hx
    rcases logged_snoc.1 hm with hm' | ⟨-, rfl⟩
    · exact hm'
    · exact absurd hx he
  refine ⟨fun m m' x x' hlt hm hx hm' hx' => ?_, fun hu' m x hm hx => ?_⟩
  · obtain ⟨n, y, hmn, hnm, hn, hy⟩ := h.apart m m' x x' hlt (hold hm hx) hx (hold hm' hx') hx'
    exact ⟨n, y, hmn, hnm, hn.old e, hy⟩
  · rcases hu hu' with hu | hc
    · obtain ⟨n, y, hmn, hn, hy⟩ := h.closed hu m x (hold hm hx) hx
      exact ⟨n, y, hmn, hn.old e, hy⟩
    · exact ⟨l.length, e, (hold hm hx).lt, logged_snoc.2 (.inr ⟨rfl, rfl⟩), hc⟩

theorem Bracketed.start (h : Bracketed opens closes false l) (e : ε) :
    Bracketed opens closes true (l ++ [e]) := by
  refine ⟨fun m m' x x' hlt hm hx hm' hx' => ?_, fun hu => by cases hu⟩
  have hml : m < l.length := Nat.lt_of_lt_of_le hlt (Nat.le_of_lt_succ (by simpa using hm'.lt))
  have hm₁ := hm.of_lt hml
  rcases logged_snoc.1 hm' with hm₂ | ⟨rfl, -⟩
  · obtain ⟨n, y, hmn, hnm, hn, hy⟩ := h.apart m m' x x' hlt hm₁ hx hm₂ hx'
    exact ⟨n, y, hmn, hnm, hn.old e, hy⟩
  · obtain ⟨n, y, hmn, hn, hy⟩ := h.closed rfl m x hm₁ hx
    exact ⟨n, y, hmn, hn.lt, hn.old e, hy⟩

end

end Lib
