import Nrappkit.Util.RList
import Nrappkit.Lib.Frame
/-!
# Copying a list

`r_list_copy`, in the memory that the list lies in. A copy function is code of
the client: it is given a value and a place for the new one, and returns a
code. `CopyFns` says what each call of one does.

An element that has no copy function gets a copy without a value: `el2->data`
is set by a copy function or not at all.
-/
open Lib DLink

namespace Nrappkit.Util

variable {α : Type}

/-! ## The functions -/

/-- What the `n`-th call of a copy function returns, and what it leaves in
`*out`. -/
abbrev CopyFns (α : Type) := Nat → FnPtr → α → Int × Option α

/-- A call `copy(&new, old)` that returned `code`, for an element with this
destroy function. -/
structure CopyCall (α : Type) where
  copy : FnPtr
  destroy : Option FnPtr
  old : α
  code : Int
  new : Option α

/-- What becomes of a value, if the next call is the `n`-th: the code, the new
value, and the call. Null values are left alone. -/
def copied (fns : CopyFns α) (n : Nat) : Item α → Int × Option α × List (CopyCall α)
  | (some old, some copy, destroy) =>
    let (code, new) := fns n copy old
    (code, new, [{ copy, destroy, old, code, new }])
  | _ => (0, none, [])

/-- `if(last) last->next=el2` -/
def linkBehind (heap : Heap (r_list_el α)) (last : Option Ptr) (el2 : Ptr) : Option (Heap (r_list_el α)) :=
  match last with
  | some last => heap.write last fun e => { e with next := some el2 }
  | none => some heap

/-- The loop of `r_list_copy`, for at most `n` elements: `last` is the last
element of `out`. An element whose copy failed is not linked. -/
def copy_list_loop (fns : CopyFns α) : Nat → r_list α → Option Ptr → List (CopyCall α) → Option Ptr →
    Option (Int × r_list α × Option Ptr × List (CopyCall α))
  | _, out, last, calls, none => some (0, out, last, calls)
  | 0, _, _, _, some _ => none
  | n + 1, out, last, calls, some el => do
    let e ← out.heap el
    let el2 := out.brk
    let (code, data, call) := copied fns calls.length (e.data, e.copy, e.destroy)
    let out := { out with brk := el2 + 1 }
    if code ≠ 0 then
      some (code, { out with heap := Function.update out.heap el2 (some { data }) }, last, calls ++ call)
    else
      let new : r_list_el α := { data, copy := e.copy, destroy := e.destroy, prev := last }
      let heap ← linkBehind (Function.update out.heap el2 (some new)) last el2
      let e ← heap el
      copy_list_loop fns n { out with heap, first := out.first.or (some el2) } (some el2) (calls ++ call) e.next

/-- The loop of `r_list_destroy`, with the memory it leaves. -/
def release_loop : Nat → Heap (r_list_el α) → Option Ptr → Option (Heap (r_list_el α) × List (FnPtr × α))
  | _, heap, none => some (heap, [])
  | 0, _, some _ => none
  | n + 1, heap, some p => do
    let el ← heap p
    let (heap, calls) ← release_loop n (Function.update heap p none) el.next
    some (heap, destroyCall (body el) ++ calls)

/-- What `r_list_copy` does: its code, the source in the memory it leaves, the
copy, the calls of copy functions and those of destroy functions. -/
structure CopyResult (α : Type) where
  code : Int
  source : r_list α
  copy : Option (r_list α)
  calls : List (CopyCall α)
  destroyed : List (FnPtr × α)

def r_list_copy (fns : CopyFns α) (list : r_list α) : Option (CopyResult α) := do
  let (code, out, last, calls) ← copy_list_loop fns list.brk { list with first := none, last := none } none [] list.first
  if code = 0 then
    some { code, source := { list with heap := out.heap, brk := out.brk }, copy := some { out with last }, calls, destroyed := [] }
  else
    let (heap, destroyed) ← release_loop out.brk out.heap out.first
    some { code, source := { list with heap, brk := out.brk }, copy := none, calls, destroyed }

/-! ## A faithful copy -/

/-- The values of a copy: what the copy function leaves, or the same value where
there is none. -/
def copiedValues (fns : CopyFns α) : Nat → List (Item α) → List (Option α)
  | _, [] => []
  | n, (some old, some copy, _) :: items => (fns n copy old).2 :: copiedValues fns (n + 1) items
  | n, (value, _) :: items => value :: copiedValues fns n items

/-- One of the copy functions fails. -/
def copyFails (fns : CopyFns α) : Nat → List (Item α) → Bool
  | _, [] => false
  | n, (some old, some copy, _) :: items => (fns n copy old).1 ≠ 0 || copyFails fns (n + 1) items
  | n, _ :: items => copyFails fns n items

/-- Copying items one after the other: the code, the new items, and the calls
made. An item whose copy failed is not among them. -/
def copyItems (fns : CopyFns α) : Nat → List (Item α) → Int × List (Item α) × List (CopyCall α)
  | _, [] => (0, [], [])
  | n, item :: items =>
    let c := copied fns n item
    if c.1 ≠ 0 then (c.1, [], c.2.2) else
    let r := copyItems fns (n + c.2.2.length) items
    (r.1, (c.2.1, item.2) :: r.2.1, c.2.2 ++ r.2.2)

/-- The destructor call for what a copy function left. -/
def CopyCall.destroyCall (c : CopyCall α) : List (FnPtr × α) := Util.destroyCall (c.new, some c.copy, c.destroy)

/-- A list of these items is copied: the copy holds the copied values, and what
is appended to it comes behind them. If a copy function fails, the source is the
old one, and the values that were copied are destroyed. -/
def CopiesFaithfully (fns : CopyFns α) (items : List (Item α)) : Prop :=
  ∃ list res, build r_list_create (items.map .append) = some list ∧ r_list_copy fns list = some res ∧
    (res.code = 0 → ∃ copy, res.copy = some copy ∧ ∀ more : List (Item α),
      ∃ copy', build copy (more.map .append) = some copy' ∧ ∀ n > items.length + more.length,
        iterate copy' n (r_list_init_iter copy') = some (copiedValues fns 0 items ++ more.map (·.1))) ∧
    (res.code ≠ 0 → res.copy = none ∧ res.source.first = list.first ∧ res.source.last = list.last ∧
      (∀ p < list.brk, res.source.heap p = list.heap p) ∧
      res.destroyed = (res.calls.filter fun c => c.code = 0).flatMap CopyCall.destroyCall)

/-! ## The loop -/

/-- A round of the loop hooks its element in like `r_list_append`. -/
theorem append_eq_linkBehind {out : r_list α} {last : Option Ptr} (hfirst : out.first = none ↔ last = none)
    (hlast : last ≠ some out.brk) (data : Option α) (copy destroy : Option FnPtr) :
    r_list_append { out with last } data copy destroy =
      (linkBehind (Function.update out.heap out.brk (some { data, copy, destroy, prev := last })) last out.brk).map
        fun heap => (.ok, ⟨out.first.or (some out.brk), some out.brk, heap, out.brk + 1⟩) := by
  cases last with
  | none =>
    have hnone := hfirst.2 rfl
    simp [r_list_append, hookBack, linkNext, linkBehind, hnone, DLink.setNext, DLink.setPrev]
  | some b =>
    have hne : b ≠ out.brk := fun hb => hlast (congrArg some hb)
    obtain ⟨f, hf⟩ := Option.ne_none_iff_exists'.1 fun hnone => Option.some_ne_none b (hfirst.1 hnone)
    cases hb : out.heap b with
    | none => simp [r_list_append, hookBack, linkNext, linkBehind, Heap.write, Function.update_of_ne hne, hb]
    | some e =>
      simp [r_list_append, hookBack, linkNext, linkBehind, Heap.write, Function.update_of_ne hne, hb, hf,
        DLink.setNext, DLink.setPrev, Function.update_comm hne]

/-- In the loop: the elements `l` of `out` hold `done`, `last` is the last of them,
and they lie behind the memory of `m₀`, which is as it was. -/
structure Copying (m₀ out : r_list α) (last : Option Ptr) (l : List Ptr) (done : List (Item α)) : Prop where
  holds : Holds out l done
  last : last = l.getLast?
  frame : ∀ p < m₀.brk, out.heap p = m₀.heap p
  above : ∀ p ∈ l, m₀.brk ≤ p
  brk : m₀.brk ≤ out.brk

namespace Copying
variable {m₀ out : r_list α} {last : Option Ptr} {l : List Ptr} {done : List (Item α)}

theorem start (m₀ : r_list α) : Copying m₀ { m₀ with first := none, last := none } none [] [] where
  holds := ⟨rfl, List.nodup_nil, rfl, fun _ hp => by cases hp⟩
  last := rfl
  frame _ _ := rfl
  above _ hp := by cases hp
  brk := Nat.le_refl _

theorem first_none (h : Copying m₀ out last l done) : out.first = none ↔ last = none := by
  have hseg := h.holds.seg
  rw [h.last]
  cases l with
  | nil => exact iff_of_true hseg rfl
  | cons a l =>
    rw [hseg.1]
    simp

theorem add (h : Copying m₀ out last l done) (data : Option α) (copy destroy : Option FnPtr) :
    ∃ heap, linkBehind (Function.update out.heap out.brk (some { data, copy, destroy, prev := last })) last out.brk = some heap ∧
      Copying m₀ { out with heap, brk := out.brk + 1, first := out.first.or (some out.brk) } (some out.brk)
        (l ++ [out.brk]) (done ++ [(data, copy, destroy)]) := by
  have hlast : last ≠ some out.brk := by
    intro heq
    rw [h.last] at heq
    exact h.holds.brk_not_mem (List.mem_of_getLast? heq)
  have hholds : Holds { out with last } l done := ⟨h.holds.seg, h.holds.nodup, h.holds.items, h.holds.fresh⟩
  obtain ⟨list', hst, h', -, hf⟩ := hholds.append h.last (data, copy, destroy)
  rw [listStep, append_eq_linkBehind h.first_none hlast, Option.map_eq_some_iff] at hst
  obtain ⟨heap, hheap, heq⟩ := hst
  cases heq
  refine ⟨heap, hheap, ⟨h'.seg, h'.nodup, h'.items, h'.fresh⟩, List.getLast?_concat.symm, fun p hp => ?_, fun p hp => ?_, ?_⟩
  · rw [← h.frame p hp]
    exact hf p (fun hmem => Nat.not_lt.2 (h.above p hmem) hp) (Nat.ne_of_lt (Nat.lt_of_lt_of_le hp h.brk))
  · rcases List.mem_append.1 hp with hp | hp
    · exact h.above p hp
    · rw [List.mem_singleton.1 hp]
      exact h.brk
  · exact Nat.le_succ_of_le h.brk

/-- An element that is not linked is no part of the copy. -/
theorem leak (h : Copying m₀ out last l done) (e : r_list_el α) :
    Copying m₀ { out with heap := Function.update out.heap out.brk (some e), brk := out.brk + 1 } last l done := by
  have hsame : ∀ p ∈ l, Function.update out.heap out.brk (some e) p = out.heap p := by
    intro p hp
    refine Function.update_of_ne ?_ _ _
    rintro rfl
    exact h.holds.brk_not_mem hp
  refine ⟨⟨h.holds.seg.frame hsame, h.holds.nodup, ?_, fun p hp => Nat.lt_succ_of_lt (h.holds.fresh p hp)⟩, h.last,
    fun p hp => ?_, h.above, Nat.le_succ_of_le h.brk⟩
  · rw [← h.holds.items]
    exact List.map_congr_left fun p hp => congrArg (Option.map body) (hsame p hp)
  · exact (Function.update_of_ne (Nat.ne_of_lt (Nat.lt_of_lt_of_le hp h.brk)) _ _).trans (h.frame p hp)

end Copying

/-- The loop appends what `copyItems` computes. The induction is on what is left
of the source. -/
theorem copy_list_loop_spec (fns : CopyFns α) {m₀ out : r_list α} {last : Option Ptr} {l : List Ptr} {done : List (Item α)}
    (h : Copying m₀ out last l done) {p hd : Option Ptr} {src : List Ptr} {items : List (Item α)}
    (hs : Seg m₀.heap p hd src none) (hitems : src.map (fun p => (m₀.heap p).map body) = items.map some)
    (hlt : ∀ a ∈ src, a < m₀.brk) (calls : List (CopyCall α)) {n : Nat} (hn : src.length ≤ n) :
    ∃ out' last' l', copy_list_loop fns n out last calls hd =
        some ((copyItems fns calls.length items).1, out', last', calls ++ (copyItems fns calls.length items).2.2) ∧
      Copying m₀ out' last' l' (done ++ (copyItems fns calls.length items).2.1) := by
  induction src generalizing out last l done p hd items calls n with
  | nil =>
    obtain rfl : hd = none := hs
    obtain rfl : items = [] := by simpa using hitems.symm
    exact ⟨out, last, l, by simp [copy_list_loop, copyItems], by simpa [copyItems] using h⟩
  | cons a src ih =>
    obtain ⟨rfl, e, he, -, hs⟩ := hs
    obtain ⟨n, rfl, hle⟩ := fuel_cons hn
    have ha := hlt a (List.mem_cons_self ..)
    have hel : out.heap a = some e := by rw [h.frame a ha, he]
    obtain ⟨items, rfl, htail⟩ := items_cons hitems he
    rcases hc : copied fns calls.length (e.data, e.copy, e.destroy) with ⟨code, data, call⟩
    have hc' : copied fns calls.length (body e) = (code, data, call) := hc
    by_cases h0 : code = 0
    · obtain ⟨heap, hheap, h'⟩ := h.add data e.copy e.destroy
      have hel' : heap a = some e := by rw [show heap a = m₀.heap a from h'.frame a ha, he]
      obtain ⟨out', last', l', hrun, hcop⟩ :=
        ih h' hs htail (fun x hx => hlt x (List.mem_cons_of_mem _ hx)) (calls ++ call) hle
      rw [List.length_append] at hrun hcop
      have hitem' : (data, (body e).2) = (data, e.copy, e.destroy) := rfl
      refine ⟨out', last', l', ?_, ?_⟩
      · simp only [copy_list_loop, hel, Option.bind_eq_bind, Option.bind_some, hc, h0, ne_eq, not_true_eq_false,
          if_false, hheap, hel', copyItems, hc', ← List.append_assoc]
        exact hrun
      · simp only [copyItems, hc', h0, ne_eq, not_true_eq_false, if_false, hitem']
        rwa [List.append_assoc] at hcop
    · have hleak := h.leak { data }
      refine ⟨{ out with heap := Function.update out.heap out.brk (some { data }), brk := out.brk + 1 }, last, l, ?_, ?_⟩
      · simp only [copy_list_loop, hel, Option.bind_eq_bind, Option.bind_some, hc, h0, ne_eq, not_false_eq_true,
          if_true, copyItems, hc']
      · simpa only [copyItems, hc', ne_eq, h0, not_false_eq_true, if_true, List.append_nil] using hleak

/-! ## The memory of a failed copy -/

theorem release_seg {heap : Heap (r_list_el α)} {p hd : Option Ptr} {l : List Ptr} {items : List (Item α)}
    (hs : Seg heap p hd l none) (hnd : l.Nodup) (hitems : l.map (fun p => (heap p).map body) = items.map some) {n : Nat}
    (hn : l.length ≤ n) : release_loop n heap hd = some (without heap l, items.flatMap destroyCall) := by
  induction l generalizing heap p hd items n with
  | nil =>
    obtain rfl : hd = none := hs
    obtain rfl : items = [] := by simpa using hitems.symm
    simp [release_loop]
  | cons a l ih =>
    obtain ⟨rfl, e, he, -, hs⟩ := hs
    obtain ⟨hal, hnd⟩ := List.nodup_cons.1 hnd
    obtain ⟨n, rfl, hle⟩ := fuel_cons hn
    have hsame : ∀ x ∈ l, Function.update heap a none x = heap x := by
      intro x hx
      refine Function.update_of_ne ?_ _ _
      rintro rfl
      exact hal hx
    obtain ⟨items, rfl, htail⟩ := items_cons hitems he
    have hitems' : l.map (fun p => (Function.update heap a none p).map body) = items.map some := by
      rw [← htail]
      exact List.map_congr_left fun x hx => congrArg (Option.map body) (hsame x hx)
    have hrest : release_loop n (Function.update heap a none) e.next = _ := ih (hs.frame hsame) hnd hitems' hle
    simp [release_loop, he, hrest, without_cons]

/-! ## What is copied -/

theorem copyItems_fails (fns : CopyFns α) (n : Nat) (items : List (Item α)) :
    (copyItems fns n items).1 ≠ 0 ↔ copyFails fns n items = true := by
  induction items generalizing n with
  | nil => simp [copyItems, copyFails]
  | cons item items ih =>
    obtain ⟨value, copy, destroy⟩ := item
    cases value with
    | none => simpa [copyItems, copied, copyFails] using ih n
    | some value =>
      cases copy with
      | none => simpa [copyItems, copied, copyFails] using ih n
      | some copy =>
        by_cases h0 : (fns n copy value).1 = 0
        · simpa [copyItems, copied, copyFails, h0] using ih (n + 1)
        · simp [copyItems, copied, copyFails, h0]

/-- The copy holds the copied values exactly when every value has a copy
function. -/
theorem copyItems_values {fns : CopyFns α} {n : Nat} {items : List (Item α)} (h : (copyItems fns n items).1 = 0) :
    (copyItems fns n items).2.1.map (·.1) = copiedValues fns n items ↔
      ∀ item ∈ items, item.1.isSome = true → item.2.1.isSome = true := by
  induction items generalizing n with
  | nil => simp [copyItems, copiedValues]
  | cons item items ih =>
    obtain ⟨value, copy, destroy⟩ := item
    cases value with
    | none => simpa [copyItems, copied, copiedValues] using ih (n := n) (by simpa [copyItems, copied] using h)
    | some value =>
      cases copy with
      | none => simp [copyItems, copied, copiedValues]
      | some copy =>
        by_cases h0 : (fns n copy value).1 = 0
        · simpa [copyItems, copied, copiedValues, h0] using ih (n := n + 1) (by simpa [copyItems, copied, h0] using h)
        · simp [copyItems, copied, h0] at h

theorem copyItems_length {fns : CopyFns α} {n : Nat} {items : List (Item α)} (h : (copyItems fns n items).1 = 0) :
    (copyItems fns n items).2.1.length = items.length := by
  induction items generalizing n with
  | nil => rfl
  | cons item items ih =>
    by_cases h0 : (copied fns n item).1 = 0
    · simpa [copyItems, h0] using ih (n := n + (copied fns n item).2.2.length) (by simpa [copyItems, h0] using h)
    · simp [copyItems, h0] at h

/-- The new items are destroyed with one call for each value that was copied. -/
theorem copyItems_destroyed (fns : CopyFns α) (n : Nat) (items : List (Item α)) :
    ((copyItems fns n items).2.2.filter fun c => c.code = 0).flatMap CopyCall.destroyCall =
      (copyItems fns n items).2.1.flatMap destroyCall := by
  induction items generalizing n with
  | nil => rfl
  | cons item items ih =>
    obtain ⟨value, copy, destroy⟩ := item
    cases value with
    | none => simpa [copyItems, copied, destroyCall] using ih n
    | some value =>
      cases copy with
      | none => simpa [copyItems, copied, destroyCall] using ih n
      | some copy =>
        by_cases h0 : (fns n copy value).1 = 0
        · simpa [copyItems, copied, h0, CopyCall.destroyCall] using ih (n + 1)
        · simp [copyItems, copied, h0]

/-! ## The whole copy -/

theorem Holds.appends {list : r_list α} {l : List Ptr} {items : List (Item α)} (h : Holds list l items)
    (hlast : list.last = l.getLast?) (more : List (Item α)) :
    ∃ list' l', build list (more.map .append) = some list' ∧ Holds list' l' (items ++ more) ∧ list'.last = l'.getLast? := by
  induction more generalizing list l items with
  | nil => exact ⟨list, l, rfl, by rwa [List.append_nil], hlast⟩
  | cons item more ih =>
    obtain ⟨list₁, hst, h₁, hl₁, -⟩ := h.append hlast item
    obtain ⟨list', l', hb, h', hl'⟩ := ih h₁ (by rw [hl₁, List.getLast?_concat])
    rw [List.append_assoc] at h'
    exact ⟨list', l', by simp [build, hst, hb], h', hl'⟩

/-- The copy of a list, and what a failed call leaves. -/
theorem r_list_copy_spec (fns : CopyFns α) {list : r_list α} {l : List Ptr} {items : List (Item α)} (h : Holds list l items)
    {c : Int × List (Item α) × List (CopyCall α)} (hc : copyItems fns 0 items = c) :
    (c.1 = 0 → ∃ source copy l', r_list_copy fns list = some ⟨0, source, some copy, c.2.2, []⟩ ∧
      Holds copy l' c.2.1 ∧ copy.last = l'.getLast?) ∧
    (c.1 ≠ 0 → ∃ source, r_list_copy fns list = some ⟨c.1, source, none, c.2.2, c.2.1.flatMap destroyCall⟩ ∧
      source.first = list.first ∧ source.last = list.last ∧ ∀ p < list.brk, source.heap p = list.heap p) := by
  obtain ⟨out, last, l', hrun, hcop⟩ :=
    copy_list_loop_spec fns (Copying.start list) h.seg h.items h.fresh [] h.length_le
  simp only [List.length_nil, List.nil_append, hc] at hrun hcop
  have hholds := hcop.holds
  constructor
  · intro h0
    refine ⟨{ list with heap := out.heap, brk := out.brk }, { out with last }, l', by simp [r_list_copy, hrun, h0], ?_, hcop.last⟩
    exact ⟨hholds.seg, hholds.nodup, hholds.items, hholds.fresh⟩
  · intro h0
    have hrel := release_seg hholds.seg hholds.nodup hholds.items hholds.length_le
    refine ⟨{ list with heap := without out.heap l', brk := out.brk }, by simp [r_list_copy, hrun, h0, hrel], rfl, rfl,
      fun p hp => ?_⟩
    have hout : p ∉ l' := fun hmem => Nat.not_lt.2 (hcop.above p hmem) hp
    exact (if_neg hout).trans (hcop.frame p hp)

/-- A list is copied faithfully if every value in it has a copy function, or if
one of the copy functions fails. -/
theorem copies_faithfully_iff (fns : CopyFns α) (items : List (Item α)) :
    CopiesFaithfully fns items ↔
      (∀ item ∈ items, item.1.isSome = true → item.2.1.isSome = true) ∨ copyFails fns 0 items = true := by
  obtain ⟨list, l, hb, h, -⟩ := Holds.appends Holds.create rfl items
  rw [List.nil_append] at h
  obtain ⟨hok, hfail⟩ := r_list_copy_spec fns h rfl
  by_cases h0 : (copyItems fns 0 items).1 = 0
  · have hnf : copyFails fns 0 items ≠ true := fun hf => (copyItems_fails fns 0 items).2 hf h0
    rw [or_iff_left hnf, ← copyItems_values h0]
    obtain ⟨source, copy, l', hcopy, hholds, hlast⟩ := hok h0
    have happ : ∀ more : List (Item α), ∃ copy', build copy (more.map .append) = some copy' ∧
        ∀ n > items.length + more.length, iterate copy' n (r_list_init_iter copy') =
          some ((copyItems fns 0 items).2.1.map (·.1) ++ more.map (·.1)) := by
      intro more
      obtain ⟨copy', l'', hb', h', -⟩ := hholds.appends hlast more
      refine ⟨copy', hb', fun n hn => ?_⟩
      rw [← List.map_append]
      refine Holds.iterate_seg h'.seg h'.items ?_
      rw [h'.length_eq, List.length_append, copyItems_length h0]
      exact hn
    constructor
    · rintro ⟨list₁, res, hb₁, hres, hsame, -⟩
      rw [hb] at hb₁
      cases hb₁
      rw [hcopy] at hres
      cases hres
      obtain ⟨copy₁, hcopy₁, hmore⟩ := hsame rfl
      cases hcopy₁
      -- what is iterated without anything appended
      obtain ⟨copy', hb', hvalues⟩ := happ []
      obtain ⟨copy₁, hb₁, hvalues₁⟩ := hmore []
      rw [hb'] at hb₁
      cases hb₁
      have heq := hvalues _ (Nat.lt_succ_self _)
      rw [hvalues₁ _ (Nat.lt_succ_self _)] at heq
      simpa using heq.symm
    · intro hvalues
      rw [hvalues] at happ
      exact ⟨list, _, hb, hcopy, fun _ => ⟨copy, rfl, happ⟩, fun hne => absurd rfl hne⟩
  · refine iff_of_true ?_ (.inr ((copyItems_fails fns 0 items).1 h0))
    obtain ⟨source, hcopy, hfirst, hlast, hheap⟩ := hfail h0
    exact ⟨list, _, hb, hcopy, fun hz => absurd hz h0, fun _ =>
      ⟨rfl, hfirst, hlast, hheap, (copyItems_destroyed fns 0 items).symm⟩⟩

/-- A list with one value and no copy function. -/
theorem value_not_copied : ¬ CopiesFaithfully (fun _ _ _ => (0, none)) [(some 1, none, none)] := by
  rintro ⟨list, res, hb, hres, hsame, -⟩
  cases hb
  cases hres
  obtain ⟨copy, hcopy, hmore⟩ := hsame rfl
  cases hcopy
  obtain ⟨copy', hb', hvalues⟩ := hmore []
  cases hb'
  have hnull := hvalues 2 (by decide)
  revert hnull
  decide

end Nrappkit.Util
