import Nrappkit.Common
/-!
# `r_assoc`: the chained hash table

The table of `r_assoc.c`, on its own heap of chain elements. An element is
released by removing it from the heap, and addresses are never handed out
twice, so following a pointer to a released element is `none`.

Allocation is assumed to succeed. The destructor calls an operation makes are
part of its result, in the order they are made.
-/
open Lib

namespace Nrappkit.Assoc

variable {δ : Type}

/-- A chain element. `key` holds the `key_len` bytes of the source's `key`. -/
structure r_assoc_el (δ : Type) where
  key : Bytes
  data : δ
  prev : Option Ptr := none
  next : Option Ptr := none
  copy : Option FnPtr := none
  destroy : Option FnPtr := none

instance : DLink (r_assoc_el δ) (Bytes × δ × Option FnPtr × Option FnPtr) where
  prev e := e.prev
  next e := e.next
  body e := (e.key, e.data, e.copy, e.destroy)
  setPrev e p := { e with prev := p }
  setNext e p := { e with next := p }
  prev_setPrev _ _ := rfl
  next_setPrev _ _ := rfl
  body_setPrev _ _ := rfl
  prev_setNext _ _ := rfl
  next_setNext _ _ := rfl
  body_setNext _ _ := rfl

structure r_assoc (δ : Type) where
  bits : Nat
  hash_func : Bytes → Nat → Nat
  chains : Nat → Option Ptr
  num_elements : UInt32
  heap : Heap (r_assoc_el δ)
  /-- The next address `RCALLOC` hands out. -/
  brk : Ptr

def r_assoc.size (assoc : r_assoc δ) : Nat := 2 ^ assoc.bits

def r_assoc.hash (assoc : r_assoc δ) (key : Bytes) : Nat := assoc.hash_func key assoc.bits

/-- The `how` argument of `r_assoc_insert`. -/
inductive How where
  | R_ASSOC_REPLACE
  | R_ASSOC_NEW
  deriving DecidableEq, Repr

/-- The destructor call made when the element's datum goes away. -/
def r_assoc_el.destroyCall (el : r_assoc_el δ) : List (FnPtr × δ) :=
  el.destroy.toList.map (·, el.data)

def r_assoc_create (hash_func : Bytes → Nat → Nat) (bits : Nat) : r_assoc δ :=
  { bits, hash_func, chains := fun _ => none, num_elements := 0, heap := fun _ => none, brk := 0 }

/-! ## Fetch -/

/-- The loop of `r_assoc_fetch_bucket`, for at most `n` elements. -/
def fetch_loop (heap : Heap (r_assoc_el δ)) (key : Bytes) : Nat → Option Ptr → Option (Option Ptr)
  | _, none => some none
  | 0, some _ => none
  | n + 1, some bucket => do
    let el ← heap bucket
    if el.key = key then some (some bucket) else fetch_loop heap key n el.next

/-- The element of `key`, `none` for `R_NOT_FOUND`. A chain that ends has no
more elements than addresses were handed out. -/
def r_assoc_fetch_bucket (assoc : r_assoc δ) (key : Bytes) : Option (Option Ptr) :=
  fetch_loop assoc.heap key assoc.brk (assoc.chains (assoc.hash key))

def r_assoc_fetch (assoc : r_assoc δ) (key : Bytes) : Option (Except Status δ) := do
  match ← r_assoc_fetch_bucket assoc key with
  | none => some (.error .R_NOT_FOUND)
  | some bucket => (assoc.heap bucket).map fun el => .ok el.data

/-! ## Insert and delete -/

def r_assoc_insert (assoc : r_assoc δ) (key : Bytes) (data : δ) (copy destroy : Option FnPtr) (how : How) :
    Option (Status × r_assoc δ × List (FnPtr × δ)) := do
  match ← r_assoc_fetch_bucket assoc key with
  | none =>
    -- insert at the list head
    let hash_value := assoc.hash key
    let heap ← hookFront assoc.heap (assoc.chains hash_value) assoc.brk { key, data, copy, destroy }
    some (.ok, { assoc with
      heap, brk := assoc.brk + 1
      chains := Function.update assoc.chains hash_value (some assoc.brk)
      num_elements := assoc.num_elements + 1 }, [])
  | some bucket =>
    if how = .R_ASSOC_NEW then some (.R_ALREADY, assoc, []) else
    let el ← assoc.heap bucket
    some (.ok, { assoc with
      heap := Function.update assoc.heap bucket (some { el with data, copy, destroy })
      num_elements := assoc.num_elements + 1 }, el.destroyCall)

/-- What `r_assoc_delete` and `r_assoc_iter_delete` do to an element of chain
`i`: unhook it, destroy its datum and release it. -/
def r_assoc.release (assoc : r_assoc δ) (i : Nat) (bucket : Ptr) : Option (r_assoc δ × List (FnPtr × δ)) := do
  let el ← assoc.heap bucket
  let r ← unhook assoc.heap (assoc.chains i) bucket
  some ({ assoc with
    heap := Function.update r.1 bucket none
    chains := Function.update assoc.chains i r.2
    num_elements := assoc.num_elements - 1 }, el.destroyCall)

def r_assoc_delete (assoc : r_assoc δ) (key : Bytes) : Option (Status × r_assoc δ × List (FnPtr × δ)) := do
  match ← r_assoc_fetch_bucket assoc key with
  | none => some (.R_NOT_FOUND, assoc, [])
  | some bucket =>
    let r ← assoc.release (assoc.hash key) bucket
    some (.ok, r)

/-- The destructor calls of `destroy_assoc_chain`, for at most `n` elements. -/
def destroy_assoc_chain (heap : Heap (r_assoc_el δ)) : Nat → Option Ptr → Option (List (FnPtr × δ))
  | _, none => some []
  | 0, some _ => none
  | n + 1, some p => do
    let el ← heap p
    let calls ← destroy_assoc_chain heap n el.next
    some (el.destroyCall ++ calls)

/-- The destructor calls of `r_assoc_destroy`; the table is gone afterwards. -/
def r_assoc_destroy (assoc : r_assoc δ) : Option (List (FnPtr × δ)) :=
  ((List.range assoc.size).mapM fun i => destroy_assoc_chain assoc.heap assoc.brk (assoc.chains i)).map List.flatten

/-- The `int` that `r_assoc_num_elements` stores: the `UINT4` counter,
converted. -/
def r_assoc_num_elements (assoc : r_assoc δ) : Int := assoc.num_elements.toInt32.toInt

/-! ## Iterators -/

structure r_assoc_iterator where
  prev_chain : Int
  prev : Option Ptr
  next_chain : Nat
  next : Option Ptr

/-- The search for an occupied chain among the `n` chains from `i` on. -/
def occupied (chains : Nat → Option Ptr) : Nat → Nat → Option (Nat × Ptr)
  | 0, _ => none
  | n + 1, i => match chains i with
    | some p => some (i, p)
    | none => occupied chains n (i + 1)

def r_assoc_init_iter (assoc : r_assoc δ) : r_assoc_iterator :=
  match occupied assoc.chains assoc.size 0 with
  | some (i, p) => { prev_chain := -1, prev := none, next_chain := i, next := some p }
  | none => { prev_chain := -1, prev := none, next_chain := assoc.size, next := none }

/-- The element returned and the iterator after it; `R_EOD` when there is none. -/
def r_assoc_iter (assoc : r_assoc δ) (iter : r_assoc_iterator) :
    Option (Except Status ((Bytes × δ) × r_assoc_iterator)) :=
  match iter.next with
  | none => some (.error .R_EOD)
  | some p => do
    let ret ← assoc.heap p
    let iter := { iter with prev_chain := (iter.next_chain : Int), prev := some p }
    match ret.next with
    | some q => some (.ok ((ret.key, ret.data), { iter with next := some q }))
    | none => match occupied assoc.chains (assoc.size - (iter.next_chain + 1)) (iter.next_chain + 1) with
      | some (i, q) => some (.ok ((ret.key, ret.data), { iter with next_chain := i, next := some q }))
      | none => some (.ok ((ret.key, ret.data), { iter with next := none }))

/-- Delete the last returned element. Before the first one there is no element
to delete. -/
def r_assoc_iter_delete (assoc : r_assoc δ) (iter : r_assoc_iterator) :
    Option (r_assoc δ × List (FnPtr × δ)) :=
  match iter.prev with
  | none => none
  | some p => assoc.release iter.prev_chain.toNat p

end Nrappkit.Assoc
