import Nrappkit.Assoc.Invariants
/-!
# Iteration order

An iterator walks the chains in order of their index, each from its head.
`order` is that list of elements. An iterator that has not been invalidated
is `At` some suffix of it: its saved `next` is the head of what is left.
-/
open Lib DLink

namespace Nrappkit.Assoc

variable {δ : Type}

/-- The elements of the `n` chains from `i` on. -/
def orderFrom (cs : Nat → List Ptr) (n i : Nat) : List Ptr := (List.range' i n).flatMap cs

/-- The elements of the table in iteration order. -/
def order (t : r_assoc δ) (cs : Nat → List Ptr) : List Ptr := orderFrom cs t.size 0

/-- The iterator's saved `next` is the head of `rest`, in the chain it says. -/
def At (cs : Nat → List Ptr) (iter : r_assoc_iterator) (rest : List Ptr) : Prop :=
  iter.next = rest.head? ∧ ∀ p, iter.next = some p → p ∈ cs iter.next_chain

theorem orderFrom_succ (cs : Nat → List Ptr) (n i : Nat) :
    orderFrom cs (n + 1) i = cs i ++ orderFrom cs n (i + 1) := by
  simp [orderFrom, List.range'_succ]

theorem mem_orderFrom {cs : Nat → List Ptr} {n i : Nat} {a : Ptr} :
    a ∈ orderFrom cs n i ↔ ∃ j, i ≤ j ∧ j < i + n ∧ a ∈ cs j := by
  simp [orderFrom, and_assoc]

theorem orderFrom_erase (cs : Nat → List Ptr) (hn : ∀ i, (cs i).Nodup) (p : Ptr) (n i : Nat) :
    orderFrom (fun j => (cs j).erase p) n i = (orderFrom cs n i).filter (· ≠ p) := by
  rw [orderFrom, orderFrom, List.filter_flatMap]
  congr 1
  funext j
  rw [(hn j).erase_eq_filter]
  exact List.filter_congr fun x _ => by simp [bne, beq_eq_decide]

namespace Rep
variable {t : r_assoc δ} {cs : Nat → List Ptr}

theorem mem_order (h : Rep t cs) {a : Ptr} : a ∈ order t cs ↔ ∃ e, t.heap a = some e := by
  rw [order, mem_orderFrom]
  constructor
  · rintro ⟨j, -, -, ha⟩
    exact h.live ha
  · rintro ⟨e, he⟩
    obtain ⟨j, hj⟩ := h.allocated a e he
    exact ⟨j, by omega, by have := h.lt_size hj; omega, hj⟩

theorem nodup_orderFrom (h : Rep t cs) (n i : Nat) : (orderFrom cs n i).Nodup := by
  induction n generalizing i with
  | zero => simp [orderFrom]
  | succ n ih =>
    rw [orderFrom_succ]
    refine List.nodup_append.2 ⟨h.nodup i, ih (i + 1), ?_⟩
    rintro a ha b hb rfl
    obtain ⟨j, hj, -, haj⟩ := mem_orderFrom.1 hb
    have := h.chain_unique ha haj
    omega

theorem nodup_order (h : Rep t cs) : (order t cs).Nodup := h.nodup_orderFrom _ _

theorem head_chain (h : Rep t cs) {i : Nat} (hi : i < t.size) : t.chains i = (cs i).head? := by
  have hs := h.seg i hi
  cases hl : cs i with
  | nil => rw [hl] at hs; exact hs
  | cons a l => rw [hl] at hs; exact hs.1

/-- The search for an occupied chain finds the next element in order. -/
theorem occupied_spec (h : Rep t cs) (n i : Nat) (hn : i + n ≤ t.size) :
    (∃ j p, occupied t.chains n i = some (j, p) ∧ p ∈ cs j ∧ (orderFrom cs n i).head? = some p) ∨
      (occupied t.chains n i = none ∧ orderFrom cs n i = []) := by
  induction n generalizing i with
  | zero => exact .inr ⟨rfl, rfl⟩
  | succ n ih =>
    have hc := h.head_chain (show i < t.size by omega)
    rw [orderFrom_succ, occupied, hc]
    cases hl : cs i with
    | nil => exact ih (i + 1) (by omega)
    | cons a l => exact .inl ⟨i, a, rfl, by simp [hl], rfl⟩

theorem init_iter (h : Rep t cs) : At cs (r_assoc_init_iter t) (order t cs) := by
  unfold r_assoc_init_iter order
  rcases h.occupied_spec t.size 0 (by omega) with ⟨j, p, ho, hp, hh⟩ | ⟨ho, hh⟩
  · rw [ho]
    refine ⟨hh.symm, fun q hq => ?_⟩
    simp only [Option.some.injEq] at hq
    exact hq ▸ hp
  · rw [ho]
    exact ⟨by rw [hh]; rfl, fun q hq => by cases hq⟩

/-- Where an element stands in the order: after its predecessors in its
chain, before its successors there and the later chains. -/
theorem order_split (_h : Rep t cs) {i : Nat} (hi : i < t.size) :
    order t cs = orderFrom cs i 0 ++ (cs i ++ orderFrom cs (t.size - (i + 1)) (i + 1)) := by
  rw [← orderFrom_succ]
  simp only [order, orderFrom, ← List.flatMap_append]
  congr 1
  have := List.range'_append_1 (s := 0) (m := i) (n := t.size - (i + 1) + 1)
  rw [Nat.zero_add] at this
  rw [this]
  congr 1
  omega

theorem next_of_seg {heap : Heap (r_assoc_el δ)} {p hd : Option Ptr} {l₁ l₂ : List Ptr} {a : Ptr} {e : r_assoc_el δ}
    (hs : Seg heap p hd (l₁ ++ a :: l₂) none) (he : heap a = some e) : e.next = l₂.head? := by
  obtain ⟨m, -, -, e', he', -, hs⟩ := Seg.append.1 hs
  rw [he] at he'
  cases he'
  cases l₂ with
  | nil => exact hs
  | cons b l => exact hs.1

/-- One step of an iterator: it returns the head of what is left and moves on. -/
theorem iter_step (h : Rep t cs) {iter : r_assoc_iterator} {pre rest : List Ptr} {p : Ptr}
    (ho : order t cs = pre ++ p :: rest) (hat : At cs iter (p :: rest)) :
    ∃ e iter', t.heap p = some e ∧ r_assoc_iter t iter = some (.ok ((e.key, e.data), iter')) ∧
      iter'.prev = some p ∧ p ∈ cs iter'.prev_chain.toNat ∧ At cs iter' rest := by
  obtain ⟨hnext, hchain⟩ := hat
  have hp := hchain p hnext
  have hi := h.lt_size hp
  obtain ⟨e, he⟩ := h.live hp
  obtain ⟨l₁, l₂, hl⟩ := List.append_of_mem hp
  have hseg := h.seg _ hi
  rw [hl] at hseg
  have hen := next_of_seg hseg he
  -- What is left after `p` in the order is the rest of its chain and the later chains.
  have hrest : rest = l₂ ++ orderFrom cs (t.size - (iter.next_chain + 1)) (iter.next_chain + 1) := by
    have hsplit := h.order_split hi
    have hnd := h.nodup_order
    rw [ho, hl] at hsplit
    rw [ho] at hnd
    have hsplit' : pre ++ p :: rest = (orderFrom cs iter.next_chain 0 ++ l₁) ++
        p :: (l₂ ++ orderFrom cs (t.size - (iter.next_chain + 1)) (iter.next_chain + 1)) := by
      simpa using hsplit
    have hpp : p ∉ pre := fun hm => (List.nodup_append.1 hnd).2.2 p hm p (by simp) rfl
    have hpr : p ∉ rest := (List.nodup_cons.1 (List.nodup_append.1 hnd).2.1).1
    exact ((List.append_cons_inj_of_notMem hpp hpr).1 hsplit').2.2
  refine ⟨e, ?_⟩
  unfold r_assoc_iter
  rw [hnext]
  cases hl₂ : l₂ with
  | cons q l =>
    rw [hl₂] at hen hrest
    refine ⟨{ iter with prev_chain := (iter.next_chain : Int), prev := some p, next := some q }, he, ?_, rfl, hp, ?_⟩
    · simp [he, hen]
    · refine ⟨by rw [hrest]; rfl, fun q' hq' => ?_⟩
      simp only [Option.some.injEq] at hq'
      rw [hl, hl₂, ← hq']
      simp
  | nil =>
    rw [hl₂] at hen hrest
    rcases h.occupied_spec (t.size - (iter.next_chain + 1)) (iter.next_chain + 1) (by omega) with
      ⟨j, q, hoc, hq, hh⟩ | ⟨hoc, hh⟩
    · refine ⟨{ prev_chain := (iter.next_chain : Int), prev := some p, next_chain := j, next := some q }, he, ?_, rfl,
        hp, ?_⟩
      · simp [he, hen, hoc]
      · refine ⟨by rw [hrest]; exact hh.symm, fun q' hq' => ?_⟩
        simp only [Option.some.injEq] at hq'
        rw [← hq']
        exact hq
    · refine ⟨{ iter with prev_chain := (iter.next_chain : Int), prev := some p, next := none }, he, ?_, rfl, hp, ?_⟩
      · simp [he, hen, hoc]
      · exact ⟨by rw [hrest, hh]; rfl, fun q' hq' => by cases hq'⟩

end Rep

/-- Releasing elements other than the one the iterator has saved leaves the
iterator where it was. -/
theorem At.filter {cs : Nat → List Ptr} {iter : r_assoc_iterator} {rest : List Ptr} {keep : Ptr → Bool}
    (hat : At cs iter rest) (hp : ∀ p, iter.next = some p → keep p = true) :
    At (fun j => (cs j).filter keep) iter (rest.filter keep) := by
  obtain ⟨hnext, hchain⟩ := hat
  refine ⟨?_, fun q hq => List.mem_filter.2 ⟨hchain q hq, hp q hq⟩⟩
  cases rest with
  | nil => exact hnext
  | cons q l =>
    rw [hnext, List.filter_cons_of_pos (hp q hnext)]
    rfl

theorem order_filter {t t' : r_assoc δ} (hs : t'.size = t.size) (cs : Nat → List Ptr) (keep : Ptr → Bool) :
    order t' (fun j => (cs j).filter keep) = (order t cs).filter keep := by
  rw [order, order, hs, orderFrom, orderFrom, List.filter_flatMap]

end Nrappkit.Assoc
