import Nrappkit.Assoc.Crc32
import Nrappkit.Registry.Names
/-!
# The callback table

`registrycb.c`, after `nr_reg_cb_init`. The outer table maps a name to the
address of an inner table, which maps the id of a callback and an action to
the `nr_reg_cb_info` block the element owns. Inner tables live in a heap of
their own, so a walk of one that was destroyed is `none`.

The effect of a callback is a parameter: `beh info` is the set of actions for
which the callback calls `NR_reg_unregister_callback` on its own key while it
runs. A callback that leaves the table alone has `beh info = 0`.
-/
open Lib Nrappkit.Assoc

namespace Nrappkit.Registry

def NR_REG_CB_ACTION_ADD : UInt8 := 1
def NR_REG_CB_ACTION_CHANGE : UInt8 := 2
def NR_REG_CB_ACTION_DELETE : UInt8 := 4
def NR_REG_CB_ACTION_FINAL : UInt8 := 64

def CB_ACTIONS : List UInt8 :=
  [NR_REG_CB_ACTION_ADD, NR_REG_CB_ACTION_DELETE, NR_REG_CB_ACTION_CHANGE, NR_REG_CB_ACTION_FINAL]

structure nr_reg_cb_info where
  action : UInt8
  cb : UInt64
  cb_arg : UInt64
  name : Bytes
  deriving DecidableEq

/-- The destructors the two tables are given. -/
def nr_reg_assoc_destroy : FnPtr := 1
def nr_reg_info_free : FnPtr := 2

structure Cbs where
  nr_registry_callbacks : r_assoc Ptr
  assocs : Heap (r_assoc nr_reg_cb_info)
  /-- The next address `r_assoc_create` hands out. -/
  brk : Ptr

def nr_reg_cb_init : Cbs :=
  { nr_registry_callbacks := r_assoc_create r_assoc_crc32_hash_compute 12, assocs := fun _ => none, brk := 0 }

def nr_reg_validate_action (action : UInt8) : Status :=
  if action ∈ CB_ACTIONS then .ok else .R_BAD_ARGS

/-- Callbacks are identified by the pointer to the function, least significant
byte first, and the action being watched. -/
def compute_cb_id (cb : UInt64) (action : UInt8) : Bytes :=
  (List.range 8).map (fun i => UInt8.ofNat (cb.toNat / 256 ^ i)) ++ [action]

/-! ## Registration -/

/-- The inner table of `name`, created when there is none. -/
def fetch_or_create (s : Cbs) (name : Bytes) : Option (Except Status Ptr × Cbs) :=
  match r_assoc_fetch s.nr_registry_callbacks (nameKey name) with
  | none => none
  | some (.ok a) => some (.ok a, s)
  | some (.error .R_NOT_FOUND) =>
    match r_assoc_insert s.nr_registry_callbacks (nameKey name) s.brk none (some nr_reg_assoc_destroy) .R_ASSOC_NEW with
    | none => none
    | some (.ok, t, _) => some (.ok s.brk, { nr_registry_callbacks := t, brk := s.brk + 1
                                             assocs := Function.update s.assocs s.brk
                                               (some (r_assoc_create r_assoc_crc32_hash_compute 5)) })
    | some (r, _, _) => some (.error r, s)
  | some (.error r) => some (.error r, s)

/-- Store `info` under its id in the inner table: into the block that is there,
or as a new element. -/
def store_info (t : r_assoc nr_reg_cb_info) (info : nr_reg_cb_info) : Option (Status × r_assoc nr_reg_cb_info) :=
  let cb_id := compute_cb_id info.cb info.action
  match r_assoc_fetch_bucket t cb_id with
  | none => none
  | some (some bucket) =>
    (t.heap bucket).map fun el => (.ok, { t with heap := Function.update t.heap bucket (some { el with data := info }) })
  | some none =>
    (r_assoc_insert t cb_id info none (some nr_reg_info_free) .R_ASSOC_NEW).map fun r => (r.1, r.2.1)

def nr_reg_register_callback (s : Cbs) (name : Bytes) (action : UInt8) (cb cb_arg : UInt64) : Option (Status × Cbs) :=
  if cb = 0 then some (.R_BAD_ARGS, s)
  else if nr_reg_is_valid name ≠ .ok then some (nr_reg_is_valid name, s)
  else if nr_reg_validate_action action ≠ .ok then some (nr_reg_validate_action action, s)
  else match fetch_or_create s name with
    | none => none
    | some (.error r, s) => some (r, s)
    | some (.ok a, s) =>
      match s.assocs a with
      | none => none
      | some t => (store_info t { action, cb, cb_arg, name }).map fun r =>
        (r.1, { s with assocs := Function.update s.assocs a (some r.2) })

/-- Run the destructor calls of the outer table: `nr_reg_assoc_destroy` on the
inner table at `a`. -/
def destroy_assocs (assocs : Heap (r_assoc nr_reg_cb_info)) :
    List (FnPtr × Ptr) → Option (Heap (r_assoc nr_reg_cb_info))
  | [] => some assocs
  | (_, a) :: calls =>
    match assocs a with
    | none => none
    | some t => match r_assoc_destroy t with
      | none => none
      | some _ => destroy_assocs (Function.update assocs a none) calls

def nr_reg_unregister_callback (s : Cbs) (name : Bytes) (action : UInt8) (cb : UInt64) : Option (Status × Cbs) :=
  if cb = 0 then some (.R_BAD_ARGS, s)
  else if nr_reg_is_valid name ≠ .ok then some (nr_reg_is_valid name, s)
  else if nr_reg_validate_action action ≠ .ok then some (nr_reg_validate_action action, s)
  else match r_assoc_fetch s.nr_registry_callbacks (nameKey name) with
    | none => none
    | some (.error .R_NOT_FOUND) => some (.ok, s)
    | some (.error r) => some (r, s)
    | some (.ok a) =>
      match s.assocs a with
      | none => none
      | some t =>
        match r_assoc_delete t (compute_cb_id cb action) with
        | none => none
        | some (r, t, _) =>
          let s := { s with assocs := Function.update s.assocs a (some t) }
          if r ≠ .ok ∧ r ≠ .R_NOT_FOUND then some (r, s)
          else if r_assoc_num_elements t = 0 then
            match r_assoc_delete s.nr_registry_callbacks (nameKey name) with
            | none => none
            | some (r, outer, calls) => (destroy_assocs s.assocs calls).map fun assocs =>
              (r, { s with nr_registry_callbacks := outer, assocs })
          else some (.ok, s)

/-- The loop over `CB_ACTIONS` of the two public functions: `f` for each bit of
the mask, which must have no other bits. -/
def for_actions (f : Cbs → UInt8 → Option (Status × Cbs)) : List UInt8 → UInt8 → Cbs → Option (Status × Cbs)
  | [], action, s => some (if action = 0 then .ok else .R_BAD_ARGS, s)
  | a :: as, action, s =>
    if action &&& a ≠ 0 then
      match f s a with
      | none => none
      | some (.ok, s) => for_actions f as (action &&& ~~~a) s
      | some (r, s) => some (r, s)
    else for_actions f as action s

def NR_reg_register_callback (s : Cbs) (name : Bytes) (action : UInt8) (cb cb_arg : UInt64) : Option (Status × Cbs) :=
  for_actions (fun s a => nr_reg_register_callback s name a cb cb_arg) CB_ACTIONS action s

def NR_reg_unregister_callback (s : Cbs) (name : Bytes) (action : UInt8) (cb : UInt64) : Option (Status × Cbs) :=
  for_actions (fun s a => nr_reg_unregister_callback s name a cb) CB_ACTIONS action s

/-! ## Dispatch -/

/-- One call `cb(cb_arg, action, name)`, and the key the callback was
registered on. -/
structure Invocation where
  key : Bytes
  cb : UInt64
  cb_arg : UInt64
  action : UInt8
  name : Bytes
  deriving DecidableEq

/-- The loop over the inner table at `a`, for at most `n` elements. -/
def invoke_loop (beh : nr_reg_cb_info → UInt8) (name : Bytes) (action : UInt8) (a : Ptr) :
    Nat → Cbs → r_assoc_iterator → Option (Cbs × List Invocation)
  | n, s, iter =>
    match iter.next, n with
    | none, _ => some (s, [])
    | some _, 0 => none
    | some _, n + 1 =>
      match s.assocs a with
      | none => none
      | some t =>
        match r_assoc_iter t iter with
        | none => none
        | some (.error _) => some (s, [])
        | some (.ok ((_, info), iter)) =>
          if info.action = action then
            match NR_reg_unregister_callback s info.name (beh info) info.cb with
            | none => none
            | some (_, s) => (invoke_loop beh name action a n s iter).map fun r =>
              (r.1, { key := info.name, cb := info.cb, cb_arg := info.cb_arg, action, name } :: r.2)
          else invoke_loop beh name action a n s iter

/-- The callbacks found on `tmp`. -/
def invoke_on (beh : nr_reg_cb_info → UInt8) (name : Bytes) (action : UInt8) (tmp : Bytes) (s : Cbs) :
    Option (Status × Cbs × List Invocation) :=
  match r_assoc_fetch s.nr_registry_callbacks (nameKey tmp) with
  | none => none
  | some (.error .R_NOT_FOUND) => some (.ok, s, [])
  | some (.error r) => some (r, s, [])
  | some (.ok a) =>
    match s.assocs a with
    | none => none
    | some t => (invoke_loop beh name action a t.brk s (r_assoc_init_iter t)).map fun r => (.ok, r)

/-- The recursion from `tmp` up to the root, to a depth of at most `n`. -/
def nr_reg_raise_event_recurse (beh : nr_reg_cb_info → UInt8) (name : Bytes) (action : UInt8) :
    Nat → Bytes → Cbs → Option (Status × Cbs × List Invocation)
  | 0, _, _ => none
  | n + 1, tmp, s =>
    match invoke_on beh name action tmp s with
    | none => none
    | some (.ok, s, calls) =>
      if tmp = [] then some (.ok, s, calls)
      else (nr_reg_raise_event_recurse beh name action n ((beforeLastDot tmp).getD []) s).map fun r =>
        (r.1, r.2.1, calls ++ r.2.2)
    | some (r, s, calls) => some (r, s, calls)

def nr_reg_raise_event (beh : nr_reg_cb_info → UInt8) (s : Cbs) (name : Bytes) (action : UInt8) :
    Option (Status × Cbs × List Invocation) :=
  if nr_reg_validate_action action ≠ .ok then some (nr_reg_validate_action action, s, [])
  else if 0 < r_assoc_num_elements s.nr_registry_callbacks then
    nr_reg_raise_event_recurse beh name action (name.length + 1) name s
  else some (.ok, s, [])

end Nrappkit.Registry
