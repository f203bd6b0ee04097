import Nrappkit.Common
import Nrappkit.Lib.Heap
/-!
# `r_list`: a list with two ends

`r_list.c` without `r_list_copy`, on a heap of list elements. A datum is a
pointer that may be null. `r_list_append` finds the end of the list in `last`,
and `r_list_insert` never sets it: a list that was begun at the front has no
`last`, and the first element that is appended to it becomes the whole list.
-/
open Lib DLink

namespace Nrappkit.Util

variable {α : Type}

/-! ## The functions -/

structure r_list_el (α : Type) where
  data : Option α
  next : Option Ptr := none
  prev : Option Ptr := none
  copy : Option FnPtr := none
  destroy : Option FnPtr := none

/-- What the caller gave: the value and its two functions. -/
abbrev Item (α : Type) := Option α × Option FnPtr × Option FnPtr

instance : DLink (r_list_el α) (Item α) where
  prev e := e.prev
  next e := e.next
  body e := (e.data, e.copy, e.destroy)
  setPrev e p := { e with prev := p }
  setNext e p := { e with next := p }
  prev_setPrev _ _ := rfl
  next_setPrev _ _ := rfl
  body_setPrev _ _ := rfl
  prev_setNext _ _ := rfl
  next_setNext _ _ := rfl
  body_setNext _ _ := rfl

structure r_list (α : Type) where
  first : Option Ptr
  last : Option Ptr
  heap : Heap (r_list_el α)
  /-- The next address `RCALLOC` hands out. -/
  brk : Ptr

def r_list_create : r_list α := { first := none, last := none, heap := fun _ => none, brk := 0 }

def r_list_insert (list : r_list α) (value : Option α) (copy destroy : Option FnPtr) :
    Option (Status × r_list α) := do
  let heap ← hookFront list.heap list.first list.brk { data := value, copy, destroy }
  some (.ok, { list with heap, brk := list.brk + 1, first := some list.brk })

def r_list_append (list : r_list α) (value : Option α) (copy destroy : Option FnPtr) :
    Option (Status × r_list α) := do
  let (heap, first) ← hookBack list.heap list.first list.last list.brk { data := value, copy, destroy }
  some (.ok, { heap, brk := list.brk + 1, first, last := some list.brk })

/-- The destructor call for an element: null values are left alone. -/
def destroyCall : Item α → List (FnPtr × α)
  | (some data, _, some destroy) => [(destroy, data)]
  | _ => []

/-- The destructor calls of `r_list_destroy`, for at most `n` elements. -/
def destroy_loop (heap : Heap (r_list_el α)) : Nat → Option Ptr → Option (List (FnPtr × α))
  | _, none => some []
  | 0, some _ => none
  | n + 1, some p => do
    let el ← heap p
    let calls ← destroy_loop heap n el.next
    some (destroyCall (body el) ++ calls)

def r_list_destroy (list : r_list α) : Option (List (FnPtr × α)) := destroy_loop list.heap list.brk list.first

structure r_list_iterator where
  ptr : Option Ptr

def r_list_init_iter (list : r_list α) : r_list_iterator := ⟨list.first⟩

def r_list_iter (list : r_list α) (iter : r_list_iterator) : Option (Except Status (Option α × r_list_iterator)) :=
  match iter.ptr with
  | none => some (.error .R_EOD)
  | some p => (list.heap p).map fun el => .ok (el.data, ⟨el.next⟩)

/-- The values `r_list_iter` returns until `R_EOD`, in at most `n` calls. -/
def iterate (list : r_list α) : Nat → r_list_iterator → Option (List (Option α))
  | 0, _ => none
  | n + 1, iter => do
    match ← r_list_iter list iter with
    | .error _ => some []
    | .ok (value, iter) =>
      let values ← iterate list n iter
      some (value :: values)

/-! ## Sequences of calls -/

inductive ListOp (α : Type) where
  | insert (item : Item α)
  | append (item : Item α)
  deriving DecidableEq

def ListOp.isInsert : ListOp α → Bool
  | .insert _ => true
  | .append _ => false

def listStep (list : r_list α) : ListOp α → Option (Status × r_list α)
  | .insert (value, copy, destroy) => r_list_insert list value copy destroy
  | .append (value, copy, destroy) => r_list_append list value copy destroy

/-- The list after the calls. -/
def build (list : r_list α) : List (ListOp α) → Option (r_list α)
  | [] => some list
  | op :: ops => (listStep list op).bind fun (_, list) => build list ops

/-- The sequence the calls describe. -/
def deque (items : List (Item α)) : List (ListOp α) → List (Item α)
  | [] => items
  | .insert item :: ops => deque (item :: items) ops
  | .append item :: ops => deque (items ++ [item]) ops

/-- The list that the calls make is the sequence they describe: it is iterated
until `R_EOD`, and destroyed. -/
def IsSequence (ops : List (ListOp α)) : Prop :=
  ∃ list, build r_list_create ops = some list ∧
    (∀ n > ops.length, iterate list n (r_list_init_iter list) = some ((deque [] ops).map (·.1))) ∧
    r_list_destroy list = some ((deque [] ops).flatMap destroyCall)

/-! ## What the list holds -/

/-- The list links the elements of `l`, which hold `items`. -/
structure Holds (list : r_list α) (l : List Ptr) (items : List (Item α)) : Prop where
  seg : Seg list.heap none list.first l none
  nodup : l.Nodup
  items : l.map (fun p => (list.heap p).map body) = items.map some
  fresh : ∀ p ∈ l, p < list.brk

namespace Holds
variable {list : r_list α} {l : List Ptr} {items : List (Item α)}

theorem create : Holds (r_list_create : r_list α) [] [] where
  seg := rfl
  nodup := List.nodup_nil
  items := rfl
  fresh _ hp := by cases hp

theorem brk_not_mem (h : Holds list l items) : list.brk ∉ l := fun hb => Nat.lt_irrefl _ (h.fresh _ hb)

theorem length_eq (h : Holds list l items) : l.length = items.length := by
  simpa using congrArg List.length h.items

theorem length_le (h : Holds list l items) : l.length ≤ list.brk := length_le_of_lt h.nodup h.fresh

theorem insert (h : Holds list l items) (item : Item α) :
    ∃ list', listStep list (.insert item) = some (.ok, list') ∧ Holds list' (list.brk :: l) (item :: items) ∧
      list'.last = list.last := by
  obtain ⟨value, copy, destroy⟩ := item
  obtain ⟨heap, hw, hs, ⟨e, he, hbe⟩, hb, -⟩ :=
    h.seg.hookFront { data := value, copy, destroy : r_list_el α } h.nodup h.brk_not_mem
  refine ⟨{ list with heap, brk := list.brk + 1, first := some list.brk }, by simp [listStep, r_list_insert, hw],
    ⟨hs, ?_, ?_, ?_⟩, rfl⟩
  · exact List.nodup_cons.2 ⟨h.brk_not_mem, h.nodup⟩
  · have hold : l.map (fun p => (heap p).map body) = l.map fun p => (list.heap p).map body := by
      refine List.map_congr_left fun p hp => hb p ?_
      rintro rfl
      exact h.brk_not_mem hp
    show (heap list.brk).map body :: l.map (fun p => (heap p).map body) = _
    rw [he, Option.map_some, hbe, hold, h.items]
    rfl
  · intro p hp
    rcases List.mem_cons.1 hp with rfl | hp
    · exact Nat.lt_succ_self _
    · exact Nat.lt_succ_of_lt (h.fresh p hp)

/-- An element that is appended comes behind the list if `last` is its last
element. -/
theorem append (h : Holds list l items) (hlast : list.last = l.getLast?) (item : Item α) :
    ∃ list', listStep list (.append item) = some (.ok, list') ∧ Holds list' (l ++ [list.brk]) (items ++ [item]) ∧
      list'.last = some list.brk ∧ ∀ p, p ∉ l → p ≠ list.brk → list'.heap p = list.heap p := by
  obtain ⟨value, copy, destroy⟩ := item
  obtain ⟨heap, first, hw, hs, ⟨e, he, hbe⟩, hb, hf⟩ :=
    h.seg.hookBack { data := value, copy, destroy : r_list_el α } h.nodup h.brk_not_mem
  refine ⟨{ heap, brk := list.brk + 1, first, last := some list.brk }, by simp [listStep, r_list_append, hlast, hw],
    ⟨hs, ?_, ?_, ?_⟩, rfl, fun p hpl hpb => hf p hpb hpl⟩
  · rw [List.nodup_append]
    refine ⟨h.nodup, List.nodup_singleton _, ?_⟩
    rintro p hp q hq rfl
    exact h.brk_not_mem (List.mem_singleton.1 hq ▸ hp)
  · have hold : l.map (fun p => (heap p).map body) = l.map fun p => (list.heap p).map body := by
      refine List.map_congr_left fun p hp => hb p ?_
      rintro rfl
      exact h.brk_not_mem hp
    rw [List.map_append, List.map_append, hold, h.items]
    show _ ++ [(heap list.brk).map body] = _
    rw [he, Option.map_some, hbe]
    rfl
  · intro p hp
    rcases List.mem_append.1 hp with hp | hp
    · exact Nat.lt_succ_of_lt (h.fresh p hp)
    · rw [List.mem_singleton.1 hp]
      exact Nat.lt_succ_self _

/-- Without a last element, it is the list. -/
theorem append_lost (hlast : list.last = none) (item : Item α) :
    ∃ list', listStep list (.append item) = some (.ok, list') ∧ Holds list' [list.brk] [item] ∧
      list'.last = some list.brk := by
  obtain ⟨value, copy, destroy⟩ := item
  let el : r_list_el α := { data := value, copy, destroy }
  refine ⟨⟨some list.brk, some list.brk, Function.update list.heap list.brk (some el), list.brk + 1⟩, ?_,
    ⟨⟨rfl, el, Function.update_self .., rfl, rfl⟩, List.nodup_singleton _, ?_, ?_⟩, rfl⟩
  · simp [listStep, r_list_append, hlast, hookBack, linkNext, el, DLink.setNext, DLink.setPrev]
  · simp [body, el]
  · intro p hp
    rw [List.mem_singleton.1 hp]
    exact Nat.lt_succ_self _

/-- `r_list_iter` returns the values in order. -/
theorem iterate_seg {p hd : Option Ptr} {l : List Ptr} {items : List (Item α)} (hs : Seg list.heap p hd l none)
    (hitems : l.map (fun p => (list.heap p).map body) = items.map some) {n : Nat} (hn : l.length < n) :
    iterate list n ⟨hd⟩ = some (items.map (·.1)) := by
  induction l generalizing p hd items n with
  | nil =>
    obtain rfl : hd = none := hs
    obtain rfl : items = [] := by simpa using hitems.symm
    obtain ⟨n, rfl⟩ := Nat.exists_eq_add_of_lt hn
    simp [iterate, r_list_iter]
  | cons a l ih =>
    obtain ⟨rfl, e, he, -, hs⟩ := hs
    obtain ⟨n, rfl⟩ : ∃ m, n = m + 1 := ⟨n - 1, by omega⟩
    obtain ⟨items, rfl, htail⟩ := items_cons hitems he
    rw [List.length_cons] at hn
    have hrest := ih hs htail (n := n) (by omega)
    simp only [iterate, r_list_iter, he, Option.map_some, Option.bind_eq_bind, Option.bind_some]
    rw [show iterate list n ⟨e.next⟩ = _ from hrest]
    rfl

/-- Destroying the list calls the destructors in order. -/
theorem destroy_seg {heap : Heap (r_list_el α)} {p hd : Option Ptr} {l : List Ptr} {items : List (Item α)}
    (hs : Seg heap p hd l none) (hitems : l.map (fun p => (heap p).map body) = items.map some) {n : Nat}
    (hn : l.length ≤ n) : destroy_loop heap n hd = some (items.flatMap destroyCall) := by
  induction l generalizing p hd items n with
  | nil =>
    obtain rfl : hd = none := hs
    obtain rfl : items = [] := by simpa using hitems.symm
    simp [destroy_loop]
  | cons a l ih =>
    obtain ⟨rfl, e, he, -, hs⟩ := hs
    obtain ⟨n, rfl, hle⟩ := fuel_cons hn
    obtain ⟨items, rfl, htail⟩ := items_cons hitems he
    have hrest := ih hs htail hle
    simp only [destroy_loop, he, Option.bind_eq_bind, Option.bind_some]
    rw [show destroy_loop heap n e.next = _ from hrest]
    rfl

end Holds

/-! ## What the calls make -/

/-- What the list holds after the calls, and whether it has a `last`. -/
def kept : List (Item α) × Bool → List (ListOp α) → List (Item α) × Bool
  | s, [] => s
  | (items, linked), .insert item :: ops => kept (item :: items, linked) ops
  | (items, true), .append item :: ops => kept (items ++ [item], true) ops
  | (_, false), .append item :: ops => kept ([item], true) ops

/-- `last` is the last element, or was never set. -/
def LastOk (list : r_list α) (l : List Ptr) (linked : Bool) : Prop :=
  list.last = if linked then l.getLast? else none

theorem build_kept {list : r_list α} {l : List Ptr} {s : List (Item α) × Bool} (h : Holds list l s.1)
    (hlast : LastOk list l s.2) (hne : s.2 = true → l ≠ []) (ops : List (ListOp α)) :
    ∃ list' l', build list ops = some list' ∧ Holds list' l' (kept s ops).1 := by
  induction ops generalizing list l s with
  | nil => exact ⟨list, l, rfl, h⟩
  | cons op ops ih =>
    obtain ⟨items, linked⟩ := s
    cases op with
    | insert item =>
      obtain ⟨list', hst, h', hl⟩ := h.insert item
      have hlast' : LastOk list' (list.brk :: l) linked := by
        unfold LastOk at hlast ⊢
        rw [hl, hlast]
        cases linked with
        | false => rfl
        | true => rw [if_pos rfl, if_pos rfl, List.getLast?_cons_of_ne_nil (hne rfl)]
      obtain ⟨list'', l'', hb, h''⟩ := ih (s := (item :: items, linked)) h' hlast' fun _ => List.cons_ne_nil _ _
      exact ⟨list'', l'', by simp [build, hst, hb], h''⟩
    | append item =>
      cases linked with
      | true =>
        obtain ⟨list', hst, h', hl, -⟩ := h.append hlast item
        have hlast' : LastOk list' (l ++ [list.brk]) true := by
          unfold LastOk
          rw [hl, if_pos rfl, List.getLast?_concat]
        obtain ⟨list'', l'', hb, h''⟩ := ih (s := (items ++ [item], true)) h' hlast' fun _ => by simp
        exact ⟨list'', l'', by simp [build, hst, hb], h''⟩
      | false =>
        obtain ⟨list', hst, h', hl⟩ := Holds.append_lost hlast item
        obtain ⟨list'', l'', hb, h''⟩ := ih (s := ([item], true)) h' hl fun _ => List.cons_ne_nil _ _
        exact ⟨list'', l'', by simp [build, hst, hb], h''⟩

theorem deque_length (items : List (Item α)) (ops : List (ListOp α)) :
    (deque items ops).length = items.length + ops.length := by
  induction ops generalizing items with
  | nil => rfl
  | cons op ops ih =>
    cases op <;> rw [deque, ih] <;> simp only [List.length_cons, List.length_append, List.length_nil] <;> omega

theorem kept_length (s : List (Item α) × Bool) (ops : List (ListOp α)) :
    (kept s ops).1.length ≤ s.1.length + ops.length := by
  induction ops generalizing s with
  | nil => exact Nat.le_refl _
  | cons op ops ih =>
    obtain ⟨items, linked⟩ := s
    cases op with
    | insert item =>
      have := ih (item :: items, linked)
      simp only [kept, List.length_cons] at this ⊢
      omega
    | append item =>
      cases linked with
      | true =>
        have := ih (items ++ [item], true)
        simp only [kept, List.length_append, List.length_cons, List.length_nil] at this ⊢
        omega
      | false =>
        have := ih ([item], true)
        simp only [kept, List.length_cons, List.length_nil] at this ⊢
        omega

/-- With a `last` nothing is lost. -/
theorem kept_linked (items : List (Item α)) (ops : List (ListOp α)) : kept (items, true) ops = (deque items ops, true) := by
  induction ops generalizing items with
  | nil => rfl
  | cons op ops ih => cases op <;> exact ih _

theorem kept_inserts (items : List (Item α)) {ops : List (ListOp α)} (h : ∀ op ∈ ops, op.isInsert = true) :
    kept (items, false) ops = (deque items ops, false) := by
  induction ops generalizing items with
  | nil => rfl
  | cons op ops ih =>
    cases op with
    | insert item => exact ih _ fun op hop => h op (by simp [hop])
    | append item => cases h (.append item) (by simp)

/-- Without one, the first element that is appended loses what was there. -/
theorem kept_lost {items : List (Item α)} (hne : items ≠ []) {ops : List (ListOp α)}
    (h : ∃ op ∈ ops, op.isInsert = false) : (kept (items, false) ops).1.length < items.length + ops.length := by
  induction ops generalizing items with
  | nil =>
    obtain ⟨op, hop, -⟩ := h
    cases hop
  | cons op ops ih =>
    cases op with
    | insert item =>
      have hrest : ∃ op ∈ ops, op.isInsert = false := by
        obtain ⟨op, hop, hf⟩ := h
        rcases List.mem_cons.1 hop with rfl | hop
        · cases hf
        · exact ⟨op, hop, hf⟩
      have := ih (List.cons_ne_nil item items) hrest
      simp only [kept, List.length_cons] at this ⊢
      omega
    | append item =>
      have hpos := List.length_pos_iff.2 hne
      have := kept_length ([item], true) ops
      simp only [kept, List.length_cons, List.length_nil] at this ⊢
      omega

/-- A list is the sequence its calls describe if nothing is appended to it, or
its first element is. -/
theorem sequence_iff (ops : List (ListOp α)) :
    IsSequence ops ↔ (∀ op ∈ ops, op.isInsert = true) ∨ ∃ item ops', ops = .append item :: ops' := by
  obtain ⟨list, l, hb, h⟩ :=
    build_kept (s := ([], false)) Holds.create (show LastOk r_list_create [] false from rfl) (by simp) ops
  have hlen : l.length ≤ ops.length := by
    have := kept_length (([], false) : List (Item α) × Bool) ops
    rw [h.length_eq]
    simpa using this
  have hiter : ∀ n > ops.length, iterate list n (r_list_init_iter list) = some ((kept ([], false) ops).1.map (·.1)) :=
    fun n hn => Holds.iterate_seg h.seg h.items (by omega)
  constructor
  · rintro ⟨list', hb', hvalues, -⟩
    rw [hb] at hb'
    cases hb'
    have heq := hvalues _ (Nat.lt_succ_self _)
    rw [hiter _ (Nat.lt_succ_self _), Option.some.injEq] at heq
    have hsame := congrArg List.length heq
    rw [List.length_map, List.length_map, deque_length] at hsame
    by_contra hcond
    rw [not_or] at hcond
    obtain ⟨happ, hfirst⟩ := hcond
    cases ops with
    | nil => exact happ (by simp)
    | cons op ops =>
      cases op with
      | append item => exact hfirst ⟨item, ops, rfl⟩
      | insert item =>
        have hlost : ∃ op ∈ ops, op.isInsert = false := by
          by_contra hno
          refine happ fun op hop => ?_
          rcases List.mem_cons.1 hop with rfl | hop
          · rfl
          · by_contra hf
            exact hno ⟨op, hop, by simpa using hf⟩
        have := kept_lost (List.cons_ne_nil item []) hlost
        simp only [kept, List.length_cons, List.length_nil] at hsame this
        omega
  · intro hcond
    have hkept : (kept ([], false) ops).1 = deque [] ops := by
      rcases hcond with hins | ⟨item, ops', rfl⟩
      · rw [kept_inserts [] hins]
      · rw [kept, kept_linked, deque]
        rfl
    rw [hkept] at hiter h
    exact ⟨list, hb, hiter, Holds.destroy_seg h.seg h.items h.length_le⟩

/-- One insertion and one element appended: the first is lost. -/
theorem front_then_back : ¬ IsSequence [.insert (some 1, none, some 7), .append (some 2, none, some 7)] := by
  rintro ⟨list, hb, hvalues, -⟩
  cases hb
  have hlost := hvalues 3 (by decide)
  revert hlost
  decide

end Nrappkit.Util
