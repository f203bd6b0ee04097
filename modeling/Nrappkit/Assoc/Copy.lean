import Nrappkit.Assoc.Beside
/-!
# Copying a table

`r_assoc_copy` and `r_assoc_destroy` in the memory that all tables share. A
copy function is code of the client: it is given a datum and a place for the
new one, and returns a code. `CopyFns` says what each call of one does, and the
memory keeps the calls that were made. Copy and destroy functions leave the
tables alone.

`copyEls` is what copying is for: the elements one after the other, until a copy
function fails. The chains that the code builds hold what `copyEls` computes,
and after a failure none of them is left.
-/
open Lib DLink

namespace Nrappkit.Assoc

variable {δ : Type}

/-- What the `n`-th call of a copy function returns, and what it leaves in
`*n`; that is the `NULL` of `RCALLOC` where it leaves nothing. -/
abbrev CopyFns (δ : Type) := Nat → FnPtr → δ → Int × δ

/-- A call `copy(&new, old)` that returned `code`, for an element with this
destroy function. -/
structure CopyCall (δ : Type) where
  copy : FnPtr
  destroy : Option FnPtr
  old : δ
  code : Int
  new : δ

/-- The memory of all tables, and the copy functions called so far. -/
structure Mem (δ : Type) where
  heap : Heap (r_assoc_el δ)
  brk : Ptr
  copies : List (CopyCall δ)

/-- The `r_assoc` itself, and the client's iterator on it. -/
structure Handle where
  bits : Nat
  hash_func : Bytes → Nat → Nat
  chains : Nat → Option Ptr
  num_elements : UInt32
  iterator : r_assoc_iterator

/-- The table with the elements `heap`. -/
def Handle.on (h : Handle) (heap : Heap (r_assoc_el δ)) (brk : Ptr) : St δ :=
  ⟨{ bits := h.bits, hash_func := h.hash_func, chains := h.chains, num_elements := h.num_elements, heap, brk }, h.iterator⟩

def St.handle (s : St δ) : Handle :=
  { bits := s.assoc.bits, hash_func := s.assoc.hash_func, chains := s.assoc.chains,
    num_elements := s.assoc.num_elements, iterator := s.iterator }

/-! ## The code -/

/-- What the loop of `copy_assoc_chain` puts into a new element: the code, the
element without its links, and the call of the copy function. On an error the
key is not set. -/
def r_assoc_el.copied (fns : CopyFns δ) (n : Nat) (old : r_assoc_el δ) : Int × r_assoc_el δ × List (CopyCall δ) :=
  match old.copy with
  | some copy =>
    let (r, data) := fns n copy old.data
    (r, { key := if r = 0 then old.key else [], data, copy := some copy, destroy := old.destroy },
      [{ copy, destroy := old.destroy, old := old.data, code := r, new := data }])
  | none => (0, { key := old.key, data := old.data, destroy := old.destroy }, [])

/-- The loop of `copy_assoc_chain`, for at most `n` elements: `knew` is the new
chain and `ptr` its last element. -/
def copy_loop (fns : CopyFns δ) : Nat → Mem δ → Option Ptr → Option Ptr → Option Ptr → Option (Int × Mem δ × Option Ptr)
  | _, m, knew, _, none => some (0, m, knew)
  | 0, _, _, _, some _ => none
  | n + 1, m, knew, ptr, some old => do
    let el ← m.heap old
    let c := el.copied fns m.copies.length
    let tmp := m.brk
    let r ← hookBack m.heap knew ptr tmp c.2.1
    let m : Mem δ := { heap := r.1, brk := tmp + 1, copies := m.copies ++ c.2.2 }
    if c.1 ≠ 0 then some (c.1, m, r.2) else
    let el ← m.heap old
    copy_loop fns n m r.2 (some tmp) el.next

namespace Mem

/-- `destroy_assoc_chain`, for at most `n` elements: the memory it leaves and its
destructor calls. -/
def destroy_assoc_chain : Nat → Heap (r_assoc_el δ) → Option Ptr → Option (Heap (r_assoc_el δ) × List (FnPtr × δ))
  | _, heap, none => some (heap, [])
  | 0, _, some _ => none
  | n + 1, heap, some chain => do
    let el ← heap chain
    let r ← destroy_assoc_chain n (Function.update heap chain none) el.next
    some (r.1, el.destroyCall ++ r.2)

/-- The loop of `r_assoc_destroy` over the `n` chains from `i` on, each of at most
`fuel` elements. -/
def destroy_chains (fuel : Nat) (chains : Nat → Option Ptr) :
    Nat → Nat → Heap (r_assoc_el δ) → Option (Heap (r_assoc_el δ) × List (FnPtr × δ))
  | 0, _, heap => some (heap, [])
  | n + 1, i, heap => do
    let r ← destroy_assoc_chain fuel heap (chains i)
    let r' ← destroy_chains fuel chains n (i + 1) r.1
    some (r'.1, r.2 ++ r'.2)

def r_assoc_destroy (m : Mem δ) (bits : Nat) (chains : Nat → Option Ptr) : Option (Mem δ × List (FnPtr × δ)) :=
  (destroy_chains m.brk chains (2 ^ bits) 0 m.heap).map fun r => ({ m with heap := r.1 }, r.2)

end Mem

/-- The code, the new chain (`NULL` on an error) and the destructor calls. -/
def copy_assoc_chain (fns : CopyFns δ) (m : Mem δ) (old : Option Ptr) :
    Option (Int × Mem δ × Option Ptr × List (FnPtr × δ)) := do
  let (r, m, knew) ← copy_loop fns m.brk m none none old
  if r = 0 then some (0, m, knew, []) else
  let (heap, calls) ← Mem.destroy_assoc_chain m.brk m.heap knew
  some (r, { m with heap }, none, calls)

/-- The loop of `r_assoc_copy` over the `n` chains from `i` on. -/
def copy_chains (fns : CopyFns δ) (old : Nat → Option Ptr) :
    Nat → Nat → Mem δ → (Nat → Option Ptr) → Option (Int × Mem δ × (Nat → Option Ptr) × List (FnPtr × δ))
  | 0, _, m, chains => some (0, m, chains, [])
  | n + 1, i, m, chains => do
    let (r, m, knew, calls) ← copy_assoc_chain fns m (old i)
    if r ≠ 0 then some (r, m, chains, calls) else
    copy_chains fns old n (i + 1) m (Function.update chains i knew)

/-- The code, the chains of the new table unless a copy function failed, and the
destructor calls. -/
def r_assoc_copy (fns : CopyFns δ) (m : Mem δ) (old : Handle) :
    Option (Int × Mem δ × Option (Nat → Option Ptr) × List (FnPtr × δ)) := do
  let (r, m, chains, calls) ← copy_chains fns old.chains (2 ^ old.bits) 0 m fun _ => none
  if r = 0 then some (0, m, some chains, []) else
  let (m, calls') ← m.r_assoc_destroy old.bits chains
  some (r, m, none, calls ++ calls')

/-! ## What it computes -/

/-- Copying elements one after the other: the code, the new elements and the
calls made. An element whose copy failed is the last one. -/
def copyEls (fns : CopyFns δ) : Nat → List (r_assoc_el δ) → Int × List (r_assoc_el δ) × List (CopyCall δ)
  | _, [] => (0, [], [])
  | n, old :: l =>
    let c := old.copied fns n
    if c.1 ≠ 0 then (c.1, [c.2.1], c.2.2) else
    let r := copyEls fns (n + c.2.2.length) l
    (r.1, c.2.1 :: r.2.1, c.2.2 ++ r.2.2)

/-- The destructor call for what a copy function left. -/
def CopyCall.destroyCall (c : CopyCall δ) : List (FnPtr × δ) := c.destroy.toList.map (·, c.new)

/-- `new` is the copy of `old`: its datum comes from a successful call of the
copy function, and is the old one where there is no such function. -/
def CopyOf (calls : List (CopyCall δ)) (old new : r_assoc_el δ) : Prop :=
  new.key = old.key ∧ new.copy = old.copy ∧ new.destroy = old.destroy ∧
    match old.copy with
    | some copy => { copy, destroy := old.destroy, old := old.data, code := 0, new := new.data } ∈ calls
    | none => new.data = old.data

variable {fns : CopyFns δ}

theorem CopyOf.mono {calls calls' : List (CopyCall δ)} {old new : r_assoc_el δ} (h : CopyOf calls old new)
    (hsub : calls ⊆ calls') : CopyOf calls' old new := by
  obtain ⟨hkey, hcopy, hdestroy, hdata⟩ := h
  refine ⟨hkey, hcopy, hdestroy, ?_⟩
  cases hc : old.copy with
  | none => rwa [hc] at hdata
  | some copy =>
    rw [hc] at hdata
    exact hsub hdata

theorem copied_ok {n : Nat} {old : r_assoc_el δ} (h : (old.copied fns n).1 = 0) :
    CopyOf (old.copied fns n).2.2 old (old.copied fns n).2.1 ∧ ∀ c ∈ (old.copied fns n).2.2, c.code = 0 := by
  obtain ⟨key, data, prev, next, copy, destroy⟩ := old
  cases copy with
  | none => simp [r_assoc_el.copied, CopyOf]
  | some copy =>
    simp only [r_assoc_el.copied] at h ⊢
    simp [CopyOf, h]

/-- An element with a destroy function and a copy function is destroyed as what
its copy function left. -/
theorem copied_destroyCall (n : Nat) {old : r_assoc_el δ} (h : old.destroy.isSome = true → old.copy.isSome = true) :
    (old.copied fns n).2.1.destroyCall = (old.copied fns n).2.2.flatMap CopyCall.destroyCall := by
  obtain ⟨key, data, prev, next, copy, destroy⟩ := old
  cases copy with
  | some copy => simp [r_assoc_el.copied, r_assoc_el.destroyCall, CopyCall.destroyCall]
  | none =>
    cases destroy with
    | none => rfl
    | some destroy => cases h rfl

theorem copied_fails {n : Nat} {old : r_assoc_el δ} (h : (old.copied fns n).1 ≠ 0) :
    ∃ c, (old.copied fns n).2.2 = [c] ∧ c.code = (old.copied fns n).1 := by
  obtain ⟨key, data, prev, next, copy, destroy⟩ := old
  cases copy with
  | none => exact absurd rfl h
  | some copy => exact ⟨_, rfl, rfl⟩

/-- A failed copy ends the copying. -/
theorem copyEls_append (n : Nat) (l l' : List (r_assoc_el δ)) :
    copyEls fns n (l ++ l') =
      if (copyEls fns n l).1 ≠ 0 then copyEls fns n l
      else
        let r := copyEls fns (n + (copyEls fns n l).2.2.length) l'
        (r.1, (copyEls fns n l).2.1 ++ r.2.1, (copyEls fns n l).2.2 ++ r.2.2) := by
  induction l generalizing n with
  | nil => simp [copyEls]
  | cons old l ih =>
    by_cases hc : (old.copied fns n).1 = 0
    · rw [List.cons_append, copyEls, copyEls, ih]
      by_cases hr : (copyEls fns (n + (old.copied fns n).2.2.length) l).1 = 0
      · simp [hc, hr, Nat.add_assoc]
      · simp [hc, hr]
    · simp [copyEls, hc]

/-- Where every copy function succeeds, each element has its copy. -/
theorem copyEls_ok {n : Nat} {l : List (r_assoc_el δ)} (h : (copyEls fns n l).1 = 0) :
    List.Forall₂ (CopyOf (copyEls fns n l).2.2) l (copyEls fns n l).2.1 ∧ ∀ c ∈ (copyEls fns n l).2.2, c.code = 0 := by
  induction l generalizing n with
  | nil => exact ⟨.nil, by simp [copyEls]⟩
  | cons old l ih =>
    by_cases hc : (old.copied fns n).1 = 0
    · simp only [copyEls, hc, ne_eq, not_true_eq_false, if_false] at h ⊢
      obtain ⟨hall, hcodes⟩ := ih h
      obtain ⟨hold, hcode⟩ := copied_ok hc
      refine ⟨.cons (hold.mono (List.subset_append_left ..)) (hall.imp fun _ _ hco => hco.mono (List.subset_append_right ..)), ?_⟩
      intro c hcm
      rcases List.mem_append.1 hcm with hcm | hcm
      · exact hcode c hcm
      · exact hcodes c hcm
    · simp [copyEls, hc] at h

/-- Where a copy function fails, it is the last one called, and its code is
what is returned. -/
theorem copyEls_fails {n : Nat} {l : List (r_assoc_el δ)} (h : (copyEls fns n l).1 ≠ 0) :
    ∃ ok last, (copyEls fns n l).2.2 = ok ++ [last] ∧ (∀ c ∈ ok, c.code = 0) ∧ last.code = (copyEls fns n l).1 := by
  induction l generalizing n with
  | nil => exact absurd rfl h
  | cons old l ih =>
    by_cases hc : (old.copied fns n).1 = 0
    · simp only [copyEls, hc, ne_eq, not_true_eq_false, if_false] at h ⊢
      obtain ⟨ok, last, hcalls, hok, hlast⟩ := ih h
      refine ⟨(old.copied fns n).2.2 ++ ok, last, by rw [hcalls, List.append_assoc], fun c hcm => ?_, hlast⟩
      rcases List.mem_append.1 hcm with hcm | hcm
      · exact (copied_ok hc).2 c hcm
      · exact hok c hcm
    · obtain ⟨last, hcalls, hlast⟩ := copied_fails hc
      refine ⟨[], last, ?_, by simp, ?_⟩
      · simp [copyEls, hc, hcalls]
      · simp [copyEls, hc, hlast]

/-- Destroying the new elements destroys what the copy functions left. -/
theorem copyEls_destroyCalls (n : Nat) {l : List (r_assoc_el δ)}
    (h : ∀ old ∈ l, old.destroy.isSome = true → old.copy.isSome = true) :
    (copyEls fns n l).2.1.flatMap r_assoc_el.destroyCall = (copyEls fns n l).2.2.flatMap CopyCall.destroyCall := by
  induction l generalizing n with
  | nil => rfl
  | cons old l ih =>
    have hold : (old.copied fns n).2.1.destroyCall = _ := copied_destroyCall n (h old (by simp))
    by_cases hc : (old.copied fns n).1 = 0
    · simp [copyEls, hc, hold, ih _ fun x hx => h x (by simp [hx])]
    · simp [copyEls, hc, hold]

end Nrappkit.Assoc
