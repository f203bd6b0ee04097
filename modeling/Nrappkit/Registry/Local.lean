import Nrappkit.Registry.Callbacks
/-!
# The local registry

`registry_local.c`. The table maps a name to the address of a node; nodes live
in a heap of their own and are released by `nr_reg_rfree`, so reading or
releasing a node that was released is `none`. The callback table of
`registrycb.c` is part of the state, and so is the sequence of events passed
to `nr_reg_raise_event`.

Allocation is assumed to succeed; logging is left out.
-/
open Lib Nrappkit.Assoc

namespace Nrappkit.Registry

/-! ## Nodes -/

/-- The node types, in the order of their numbers. -/
inductive NR_REG_TYPE where
  | CHAR | UCHAR | INT2 | UINT2 | INT4 | UINT4 | INT8 | UINT8 | DOUBLE | BYTES | STRING | REGISTRY
  deriving DecidableEq, Repr

/-- The `scalar` union with its type. A `double` is its 64 bits. -/
inductive Scalar where
  | _char (v : Int8)
  | _uchar (v : UInt8)
  | _nr_int2 (v : Int16)
  | _nr_uint2 (v : UInt16)
  | _nr_int4 (v : Int32)
  | _nr_uint4 (v : UInt32)
  | _nr_int8 (v : Int64)
  | _nr_uint8 (v : UInt64)
  | _double (v : UInt64)
  deriving DecidableEq

namespace Scalar

def type : Scalar → NR_REG_TYPE
  | _char _ => .CHAR
  | _uchar _ => .UCHAR
  | _nr_int2 _ => .INT2
  | _nr_uint2 _ => .UINT2
  | _nr_int4 _ => .INT4
  | _nr_uint4 _ => .UINT4
  | _nr_int8 _ => .INT8
  | _nr_uint8 _ => .UINT8
  | _double _ => .DOUBLE

/-- The union as `RCALLOC` leaves it, for the type of the argument. -/
def zeroed : Scalar → Scalar
  | _char _ => _char 0
  | _uchar _ => _uchar 0
  | _nr_int2 _ => _nr_int2 0
  | _nr_uint2 _ => _nr_uint2 0
  | _nr_int4 _ => _nr_int4 0
  | _nr_uint4 _ => _nr_uint4 0
  | _nr_int8 _ => _nr_int8 0
  | _nr_uint8 _ => _nr_uint8 0
  | _double _ => _double 0

/-- `a != b` on doubles: a NaN differs from everything, the two zeros are
equal. -/
def doubleNe (a b : UInt64) : Bool :=
  let isNaN (x : UInt64) : Bool := 0x7FF0000000000000 < x &&& 0x7FFFFFFFFFFFFFFF
  isNaN a || isNaN b || (a != b && (a ||| b) &&& 0x7FFFFFFFFFFFFFFF != 0)

/-- The C `!=` of two members of the same type. -/
def ne : Scalar → Scalar → Bool
  | _double a, _double b => doubleNe a b
  | a, b => a != b

end Scalar

inductive Node where
  /-- An `nr_scalar_registry_node` with a value. -/
  | scalar (v : Scalar)
  /-- An `nr_scalar_registry_node` of type `NR_REG_TYPE_REGISTRY`. -/
  | registry
  /-- An `nr_array_registry_node`; `data` is all of the block, `length` the
  `unsigned int` of the struct. -/
  | array (string : Bool) (length : UInt32) (data : Bytes)
  deriving DecidableEq

/-- `NR_REG_TYPE_STRING` or `NR_REG_TYPE_BYTES`. -/
def arrayType (string : Bool) : NR_REG_TYPE := if string then .STRING else .BYTES

def Node.type : Node → NR_REG_TYPE
  | scalar v => v.type
  | registry => .REGISTRY
  | array string _ _ => arrayType string

/-- `nr_reg_rfree` -/
def nr_reg_rfree : FnPtr := 3

structure Reg where
  nr_registry : r_assoc Ptr
  nodes : Heap Node
  /-- The next address `RCALLOC` hands out. -/
  brk : Ptr
  cbs : Cbs
  /-- The arguments of `nr_reg_raise_event`, in order. -/
  events : List (Bytes × UInt8)

/-- Release nodes, in the order the table destroys them. -/
def free_nodes (nodes : Heap Node) : List (FnPtr × Ptr) → Option (Heap Node)
  | [] => some nodes
  | (_, p) :: calls => if (nodes p).isSome then free_nodes (Function.update nodes p none) calls else none

/-! ## Reading -/

def nr_reg_fetch_node (s : Reg) (name : Bytes) (type : NR_REG_TYPE) : Option (Except Status (Ptr × Node)) :=
  if nr_reg_is_valid name ≠ .ok then some (.error (nr_reg_is_valid name))
  else match r_assoc_fetch s.nr_registry (nameKey name) with
    | none => none
    | some (.error r) => some (.error r)
    | some (.ok p) => (s.nodes p).map fun node => if node.type ≠ type then .error .R_FAILED else .ok (p, node)

def nr_reg_get (s : Reg) (name : Bytes) (type : NR_REG_TYPE) : Option (Except Status Scalar) :=
  (nr_reg_fetch_node s name type).map fun
    | .error r => .error r
    | .ok (_, .scalar v) => .ok v
    | .ok _ => .error .R_INTERNAL

def nr_reg_local_get_char (s : Reg) (name : Bytes) := nr_reg_get s name .CHAR
def nr_reg_local_get_uchar (s : Reg) (name : Bytes) := nr_reg_get s name .UCHAR
def nr_reg_local_get_int2 (s : Reg) (name : Bytes) := nr_reg_get s name .INT2
def nr_reg_local_get_uint2 (s : Reg) (name : Bytes) := nr_reg_get s name .UINT2
def nr_reg_local_get_int4 (s : Reg) (name : Bytes) := nr_reg_get s name .INT4
def nr_reg_local_get_uint4 (s : Reg) (name : Bytes) := nr_reg_get s name .UINT4
def nr_reg_local_get_int8 (s : Reg) (name : Bytes) := nr_reg_get s name .INT8
def nr_reg_local_get_uint8 (s : Reg) (name : Bytes) := nr_reg_get s name .UINT8
def nr_reg_local_get_double (s : Reg) (name : Bytes) := nr_reg_get s name .DOUBLE

def nr_reg_local_get_registry (s : Reg) (name : Bytes) : Option (Except Status Bytes) :=
  (nr_reg_fetch_node s name .REGISTRY).map fun
    | .error r => .error r
    | .ok _ => .ok name

/-- The bytes copied out, `length` of them. -/
def nr_reg_get_array (s : Reg) (name : Bytes) (string : Bool) (size : Nat) : Option (Except Status Bytes) :=
  match nr_reg_fetch_node s name (arrayType string) with
  | none => none
  | some (.error r) => some (.error r)
  | some (.ok (_, .array _ length data)) =>
    if size < length.toNat then some (.error .R_BAD_ARGS)
    else if length.toNat ≤ data.length then some (.ok (data.take length.toNat)) else none
  | some (.ok _) => none

def nr_reg_local_get_bytes (s : Reg) (name : Bytes) (size : Nat) := nr_reg_get_array s name false size
def nr_reg_local_get_string (s : Reg) (name : Bytes) (size : Nat) := nr_reg_get_array s name true size

def nr_reg_compute_length (name : Bytes) : Node → Nat
  | .array true length _ => (length - 1).toNat
  | .array false length _ => length.toNat
  | .registry => name.length
  | .scalar v => match v.type with
    | .CHAR | .UCHAR => 1
    | .INT2 | .UINT2 => 2
    | .INT4 | .UINT4 => 4
    | _ => 8

def nr_reg_local_get_length (s : Reg) (name : Bytes) : Option (Except Status Nat) :=
  if nr_reg_is_valid name ≠ .ok then some (.error (nr_reg_is_valid name))
  else match r_assoc_fetch s.nr_registry (nameKey name) with
    | none => none
    | some (.error r) => some (.error r)
    | some (.ok p) => (s.nodes p).map fun node => .ok (nr_reg_compute_length name node)

/-- A failed assertion does not return. -/
def NR_reg_alloc_data (s : Reg) (name : Bytes) : Option (Except Status Bytes) :=
  match nr_reg_local_get_length s name with
  | none => none
  | some (.error r) => some (.error r)
  | some (.ok length) => match nr_reg_local_get_bytes s name length with
    | none => none
    | some (.error r) => some (.error r)
    | some (.ok tmp) => if length = tmp.length then some (.ok tmp) else none

/-- `strlen`, of a buffer that has a terminator. -/
def strlen (buf : Bytes) : Option Nat := if 0 ∈ buf then some (buf.idxOf 0) else none

/-- The string returned, without its terminator. -/
def NR_reg_alloc_string (s : Reg) (name : Bytes) : Option (Except Status Bytes) :=
  match nr_reg_local_get_length s name with
  | none => none
  | some (.error r) => some (.error r)
  | some (.ok length) => match nr_reg_local_get_string s name (length + 1) with
    | none => none
    | some (.error r) => some (.error r)
    | some (.ok tmp) => if strlen tmp = some length then some (.ok (tmp.take length)) else none

/-! ## Writing -/

section
variable (beh : nr_reg_cb_info → UInt8)

/-- `nr_reg_raise_event`, recorded. -/
def raise_event (s : Reg) (name : Bytes) (action : UInt8) : Option (Status × Reg) :=
  (nr_reg_raise_event beh s.cbs name action).map fun r =>
    (r.1, { s with cbs := r.2.1, events := s.events ++ [(name, action)] })

variable (set_registry : Reg → Bytes → Option (Status × Reg))

def nr_reg_set_parent_registries (s : Reg) (name : Bytes) : Option (Status × Reg) :=
  match beforeLastDot name with
  | none => some (.ok, s)
  | some parent => set_registry s parent

def nr_reg_insert_node (s : Reg) (name : Bytes) (node : Ptr) : Option (Status × Reg) :=
  if nr_reg_is_valid name ≠ .ok then some (nr_reg_is_valid name, s)
  else match r_assoc_insert s.nr_registry (nameKey name) node none (some nr_reg_rfree) .R_ASSOC_NEW with
    | none => none
    | some (.ok, nr_registry, _) =>
      match nr_reg_set_parent_registries set_registry { s with nr_registry } name with
      | none => none
      | some (.ok, s) => raise_event beh s name NR_REG_CB_ACTION_ADD
      | some (r, s) => some (r, s)
    | some (r, _, _) => some (r, s)

def nr_reg_change_node (s : Reg) (name : Bytes) (node old : Ptr) : Option (Status × Reg) :=
  if nr_reg_is_valid name ≠ .ok then some (nr_reg_is_valid name, s)
  else if old ≠ node then
    match r_assoc_insert s.nr_registry (nameKey name) node none (some nr_reg_rfree) .R_ASSOC_REPLACE with
    | none => none
    | some (.ok, nr_registry, calls) =>
      match free_nodes s.nodes calls with
      | none => none
      | some nodes => raise_event beh { s with nr_registry, nodes } name NR_REG_CB_ACTION_CHANGE
    | some (r, _, _) => some (r, s)
  else raise_event beh s name NR_REG_CB_ACTION_CHANGE

/-- The node for a value of a scalar type, `none` for `NR_REG_TYPE_REGISTRY`. -/
def scalarNode : Option Scalar → Node
  | none => .registry
  | some v => .scalar v

/-- `nr_reg_set`: the value of a scalar type, or `none` for
`NR_REG_TYPE_REGISTRY`. -/
def nr_reg_set (s : Reg) (name : Bytes) (data : Option Scalar) : Option (Status × Reg) :=
  match nr_reg_fetch_node s name (scalarNode data).type with
  | none => none
  | some (.ok (p, node)) =>
    match node, data with
    | .scalar v, some d =>
      if v.ne d then
        nr_reg_change_node beh { s with nodes := Function.update s.nodes p (some (.scalar d)) } name p p
      else some (.ok, s)
    | _, _ => some (.ok, s)
  | some (.error .R_NOT_FOUND) =>
    -- A new node is zeroed, and keeps its zero when that equals the value.
    let node := scalarNode (data.map fun d => if d.zeroed.ne d then d else d.zeroed)
    let s₁ := { s with nodes := Function.update s.nodes s.brk (some node), brk := s.brk + 1 }
    match nr_reg_insert_node beh set_registry s₁ name s.brk with
    | none => none
    | some (.ok, s) => some (.ok, s)
    | some (r, s') => (free_nodes s'.nodes [(nr_reg_rfree, s.brk)]).map fun nodes => (r, { s' with nodes })
  | some (.error r) => some (r, s)

def nr_reg_set_array (s : Reg) (name : Bytes) (string : Bool) (data : Bytes) : Option (Status × Reg) :=
  match nr_reg_fetch_node s name (arrayType string) with
  | none => none
  | some (.ok (old, .array _ length block)) =>
    if length.toNat ≠ data.length ∨ block.take data.length ≠ data then
      if length.toNat < data.length then
        nr_reg_change_node beh { s with
          nodes := Function.update s.nodes s.brk (some (.array string (UInt32.ofNat data.length) data))
          brk := s.brk + 1 } name s.brk old
      else
        -- The old block is kept, with the bytes behind the new content.
        nr_reg_change_node beh { s with
          nodes := Function.update s.nodes old
            (some (.array string (UInt32.ofNat data.length) (data ++ block.drop data.length))) } name old old
    else some (.ok, s)
  | some (.ok _) => none
  | some (.error .R_NOT_FOUND) =>
    nr_reg_insert_node beh set_registry { s with
      nodes := Function.update s.nodes s.brk (some (.array string (UInt32.ofNat data.length) data))
      brk := s.brk + 1 } name s.brk
  | some (.error r) => some (r, s)

end

/-- `NR_reg_set_registry`, to a depth of at most `n` ancestors. -/
def NR_reg_set_registry (beh : nr_reg_cb_info → UInt8) : Nat → Reg → Bytes → Option (Status × Reg)
  | 0, _, _ => none
  | n + 1, s, name => nr_reg_set beh (NR_reg_set_registry beh n) s name none

/-! ## Deleting -/

/-- The three cases of `nr_reg_local_iter`: the prefix is empty, is the name,
or is followed by a dot in it. -/
def covers (pfx name : Bytes) : Bool :=
  pfx.isEmpty || ((name.length = pfx.length || (pfx.length < name.length && name[pfx.length]? = some dot)) &&
    name.take pfx.length = pfx)

section
variable {α : Type}

/-- The loop of `nr_reg_local_iter`, for at most `n` elements; `ptr` is the
argument the action keeps. -/
def iter_loop (action : α → Reg → r_assoc_iterator → Bytes → Ptr → Option (Status × α × Reg)) (pfx : Bytes) :
    Nat → α → Reg → r_assoc_iterator → Option (Status × α × Reg)
  | n, ptr, s, iter =>
    match iter.next, n with
    | none, _ => some (.ok, ptr, s)
    | some _, 0 => none
    | some _, n + 1 =>
      match r_assoc_iter s.nr_registry iter with
      | none => none
      | some (.error _) => some (.ok, ptr, s)
      | some (.ok ((key, node), iter)) =>
        -- the key without its terminator
        if key.getLast? ≠ some 0 then some (.ok, ptr, s)
        else if covers pfx key.dropLast then
          match action ptr s iter key.dropLast node with
          | none => none
          | some (.ok, ptr, s) => iter_loop action pfx n ptr s iter
          | some r => some r
        else iter_loop action pfx n ptr s iter

def nr_reg_local_iter (action : α → Reg → r_assoc_iterator → Bytes → Ptr → Option (Status × α × Reg)) (pfx : Bytes)
    (ptr : α) (s : Reg) : Option (Status × α × Reg) :=
  iter_loop action pfx s.nr_registry.brk ptr s (r_assoc_init_iter s.nr_registry)

end

def nr_reg_local_iter_delete (_ : Unit) (s : Reg) (iter : r_assoc_iterator) (_ : Bytes) (_ : Ptr) :
    Option (Status × Unit × Reg) :=
  match r_assoc_iter_delete s.nr_registry iter with
  | none => none
  | some (nr_registry, calls) => (free_nodes s.nodes calls).map fun nodes => (.ok, (), { s with nr_registry, nodes })

/-! ## The functions of the module -/

section
variable (beh : nr_reg_cb_info → UInt8)

def nr_reg_local_set_registry (s : Reg) (name : Bytes) : Option (Status × Reg) :=
  NR_reg_set_registry beh (name.length + 1) s name

/-- The body of the scalar setters, the macro `NRREGLOCALSET`. -/
def NRREGLOCALSET (s : Reg) (name : Bytes) (data : Scalar) : Option (Status × Reg) :=
  nr_reg_set beh (NR_reg_set_registry beh name.length) s name (some data)

def nr_reg_local_set_char (s : Reg) (name : Bytes) (data : Int8) := NRREGLOCALSET beh s name (._char data)
def nr_reg_local_set_uchar (s : Reg) (name : Bytes) (data : UInt8) := NRREGLOCALSET beh s name (._uchar data)
def nr_reg_local_set_int2 (s : Reg) (name : Bytes) (data : Int16) := NRREGLOCALSET beh s name (._nr_int2 data)
def nr_reg_local_set_uint2 (s : Reg) (name : Bytes) (data : UInt16) := NRREGLOCALSET beh s name (._nr_uint2 data)
def nr_reg_local_set_int4 (s : Reg) (name : Bytes) (data : Int32) := NRREGLOCALSET beh s name (._nr_int4 data)
def nr_reg_local_set_uint4 (s : Reg) (name : Bytes) (data : UInt32) := NRREGLOCALSET beh s name (._nr_uint4 data)
def nr_reg_local_set_int8 (s : Reg) (name : Bytes) (data : Int64) := NRREGLOCALSET beh s name (._nr_int8 data)
def nr_reg_local_set_uint8 (s : Reg) (name : Bytes) (data : UInt64) := NRREGLOCALSET beh s name (._nr_uint8 data)
def nr_reg_local_set_double (s : Reg) (name : Bytes) (data : UInt64) := NRREGLOCALSET beh s name (._double data)

def nr_reg_local_set_bytes (s : Reg) (name data : Bytes) : Option (Status × Reg) :=
  nr_reg_set_array beh (NR_reg_set_registry beh name.length) s name false data

/-- `data` are the bytes before the terminator. -/
def nr_reg_local_set_string (s : Reg) (name data : Bytes) : Option (Status × Reg) :=
  nr_reg_set_array beh (NR_reg_set_registry beh name.length) s name true (data ++ [0])

def nr_reg_local_del (s : Reg) (name : Bytes) : Option (Status × Reg) :=
  if nr_reg_is_valid name ≠ .ok then some (nr_reg_is_valid name, s)
  else match nr_reg_local_iter nr_reg_local_iter_delete name () s with
    | none => none
    | some (.ok, _, s) =>
      match raise_event beh s name NR_REG_CB_ACTION_DELETE with
      | none => none
      | some (.ok, s) => if name = [] then nr_reg_local_set_registry beh s [] else some (.ok, s)
      | some (r, s) => some (r, s)
    | some (r, _, s) => some (r, s)

/-- The two tables as they are created. -/
def emptyReg : Reg where
  nr_registry := r_assoc_create r_assoc_crc32_hash_compute 12
  nodes _ := none
  brk := 0
  cbs := nr_reg_cb_init
  events := []

def nr_reg_local_init : Option (Status × Reg) := nr_reg_local_set_registry beh emptyReg []

end

end Nrappkit.Registry
