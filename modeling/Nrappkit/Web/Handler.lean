import Nrappkit.Service.Structs
import Nrappkit.Registry.ChildIndex
/-!
# The registry over HTTP

`mod_registry.c`: the path of a request names a key, the query string says what
is asked about it. `GET` prints a value, `PUT` stores the one its body says,
`DELETE` erases.

`registry_init` opens the registry of the daemon; the handler is modelled on the
registry itself, without the calls that go over the wire.
-/
open Lib Nrappkit.Registry Nrappkit.Assoc Nrappkit.Control Nrappkit.Service
open Nrappkit.Registry.Bytewise (NR_registry Sorts)

namespace Nrappkit.Web

/-- What the module takes from its surroundings. -/
structure Env where
  /-- `snprintf` of a double with `%#f`, before it is cut. -/
  printDouble : UInt64 → Bytes
  /-- `sscanf` of a double with `%lf`. -/
  scanDouble : Bytes → Option UInt64
  /-- `scanf` with a format writes nothing through its arguments. -/
  scanf : Bytes → Bool
  qsort : List NR_registry → List NR_registry
  sorts : Sorts qsort
  /-- What is in `child` before it is written. -/
  child : NR_registry

inductive Method where
  | M_GET
  | M_PUT
  | M_DELETE
  | other
  deriving DecidableEq

/-- A request, and what the server gives the module of its body. -/
structure request_rec where
  method_number : Method
  header_only : Bool
  uri : Bytes
  args : Option Bytes
  /-- `ap_setup_client_block` returns 0. -/
  setup : Bool
  /-- `ap_should_client_block`; it is false where nothing remains. -/
  should : Bool
  remaining : Nat
  more : should = true → 0 < remaining
  small : remaining + 1 < 2 ^ 31
  /-- What `ap_get_client_block` reads. -/
  block : Bytes
  read : block.length ≤ remaining

/-- The values of `_status`: those of HTTP, and those of the registry. -/
inductive Code where
  | OK
  | HTTP_CREATED
  | HTTP_BAD_REQUEST
  | HTTP_NOT_FOUND
  | HTTP_INTERNAL_SERVER_ERROR
  | reg (r : Status)
  deriving DecidableEq

structure Response where
  /-- What the handler returns. -/
  code : Code
  /-- The status and the text, where a header was sent. -/
  sent : Option (Code × Bytes)
  deriving DecidableEq

inductive Outcome (α : Type) where
  | returns (a : α)
  | undefined
  /-- The label `abort` is passed again. -/
  | running

/-- What was returned. -/
def Outcome.toOption {α : Type} : Outcome α → Option α
  | .returns a => some a
  | _ => none

theorem Outcome.toOption_eq_some {α : Type} {o : Outcome α} {a : α} : o.toOption = some a ↔ o = .returns a := by
  cases o <;> simp [toOption]

def refused (code : Code) : Response := ⟨code, none⟩

/-- The header is sent, and the text unless only the header was asked for. -/
def page (r : request_rec) (text : Bytes) : Response := ⟨.OK, some (.OK, if r.header_only then [] else text)⟩

/-! ## The path and the query -/

def transform_name (file : Bytes) : Bytes :=
  ((if file.head? = some 47 then file.drop 1 else file).takeWhile (· ≠ 63)).map fun c => if c = 47 then dot else c

/-- The part before the first `=`, and the value behind it. -/
def parse_query_string (q : Bytes) : Bytes × Option Bytes :=
  (q.takeWhile (· ≠ 61), (q.dropWhile (· ≠ 61)).tail?)

/-- `qs_value_type` is assigned for the query `type` only. -/
def query_type (qs_param : Bytes) (qs_value : Option Bytes) : Option (Except Code (Option NR_REG_TYPE)) :=
  if qs_param = str "type" then
    qs_value.map fun value => match nr_reg_compute_type value with
      | .error _ => .error .HTTP_BAD_REQUEST
      | .ok type => .ok (some type)
  else if qs_param = str "getkeys" ∨ qs_param = str "getlength" ∨ qs_param = str "getnotifications" then some (.ok none)
  else some (.error .HTTP_BAD_REQUEST)

/-! ## GET -/

def process_getlength_request (s : Reg) (r : request_rec) (name : Bytes) : Outcome Response :=
  match nr_reg_local_get_length s name with
  | none => .undefined
  | some (.error _) => .returns (refused .HTTP_NOT_FOUND)
  | some (.ok l) => .returns (page r (numeral 10 (l % 2 ^ 32)))

section
variable (env : Env)

/-- A loop over `n` indices from `i` on; `i` is an `int`. The first of the two
only asks for the children, the second prints them. -/
def getkeys_loop (s : Reg) (parent : Bytes) : Nat → Nat → NR_registry → Option (Except Status (List Bytes × NR_registry))
  | 0, _, child => some (.ok ([], child))
  | n + 1, i, child =>
    match Bytewise.NR_reg_get_child_registry env.qsort s parent (UInt32.ofNat i) child with
    | none => none
    | some (.error r) => some (.error r)
    | some (.ok child) =>
      match child.string with
      | none => none
      | some key =>
        if i + 1 = 2 ^ 31 then none
        else (getkeys_loop s parent n (i + 1) child).map fun x => x.map fun (keys, child) => (key :: keys, child)

/-- The four bytes behind `n`, which counting clears as well, are left out. -/
def process_getkeys_request (s : Reg) (r : request_rec) (parent : Bytes) : Outcome Response :=
  match nr_reg_local_get_child_count s parent with
  | none => .undefined
  | some (.error _) => .returns (refused .HTTP_NOT_FOUND)
  | some (.ok n) =>
    match getkeys_loop env s parent n.toNat 0 env.child with
    | none => .undefined
    | some (.error _) => .returns (refused .HTTP_NOT_FOUND)
    | some (.ok (_, child)) =>
      if r.header_only then .returns (page r [])
      else match getkeys_loop env s parent n.toNat 0 child with
        | some (.ok (keys, _)) => .returns (page r (keys.flatMap (· ++ [13, 10])))
        | _ => .undefined

/-- The text of a scalar, cut to the 99 bytes there is room for. -/
def scalarText (v : Scalar) : Bytes :=
  (match v with
  | ._char v => decimal v.toInt
  | ._uchar v => decimal v.toNat
  | ._nr_int2 v => decimal v.toInt
  | ._nr_uint2 v => decimal v.toNat
  | ._nr_int4 v => decimal v.toInt
  | ._nr_uint4 v => decimal v.toNat
  | ._nr_int8 v => decimal v.toInt
  | ._nr_uint8 v => decimal v.toNat
  | ._double v => env.printDouble v).take 99

/-- The text in `s`. A registry is not looked up. -/
def getText (s : Reg) (name : Bytes) : NR_REG_TYPE → Option (Except Status Bytes)
  | .REGISTRY => some (.ok name)
  | .BYTES => some (.error .R_INTERNAL)
  | .STRING => NR_reg_alloc_string s name
  | type => (getScalar s name type).map (·.map (scalarText env))

def process_get_request (s : Reg) (r : request_rec) (name : Bytes) (qs_value_type : Option NR_REG_TYPE) : Outcome Response :=
  match qs_value_type.bind (getText env s name) with
  | none => .undefined
  | some (.ok text) => .returns (page r text)
  | some (.error .R_NOT_FOUND) => .returns (refused .HTTP_NOT_FOUND)
  | some (.error _) => .returns (refused .HTTP_INTERNAL_SERVER_ERROR)

/-! ## PUT -/

/-- `sscanf` with `%d` and its kin: whether a number was read, and which. -/
def sscanfSigned (bits : Nat) (text : Bytes) : Option (Option Int) :=
  if scanNumber 10 text = none then some none else (scanSigned bits text).map some

def sscanfUnsigned (bits : Nat) (text : Bytes) : Option (Option Nat) :=
  if scanNumber 10 text = none then some none else (scanUnsigned 10 bits text).map some

/-- The `switch` up to the setter; `some none` is `R_FAILED`. The bytes of a
`Data` are scanned from the standard input with the body as the format, so that
only what must not be written could be counted. -/
def put_arg (type : NR_REG_TYPE) (content : Bytes) : Option (Option Arg) :=
  let text := content.takeWhile (· ≠ 0)
  match type with
  | .CHAR => (sscanfSigned 8 text).map (·.map fun v => .scalar (._char (Int8.ofInt v)))
  | .UCHAR => (sscanfUnsigned 8 text).map (·.map fun n => .scalar (._uchar (UInt8.ofNat n)))
  | .INT2 => (sscanfSigned 16 text).map (·.map fun v => .scalar (._nr_int2 (Int16.ofInt v)))
  | .UINT2 => (sscanfUnsigned 16 text).map (·.map fun n => .scalar (._nr_uint2 (UInt16.ofNat n)))
  | .INT4 => (sscanfSigned 32 text).map (·.map fun v => .scalar (._nr_int4 (Int32.ofInt v)))
  | .UINT4 => (sscanfUnsigned 32 text).map (·.map fun n => .scalar (._nr_uint4 (UInt32.ofNat n)))
  | .INT8 => (sscanfSigned 64 text).map (·.map fun v => .scalar (._nr_int8 (Int64.ofInt v)))
  | .UINT8 => (sscanfUnsigned 64 text).map (·.map fun n => .scalar (._nr_uint8 (UInt64.ofNat n)))
  | .DOUBLE => some ((env.scanDouble text).map fun v => .scalar (._double v))
  | .REGISTRY => some (some .registry)
  | .BYTES =>
    if content = [] then some (some (.bytes []))
    else if env.scanf text then some none else none
  | .STRING => some (if text.length = content.length then some (.string content) else none)

/-- The label `abort`, passed `n` times at most: once the request was found to be
in order, an error goes back to the label with an error. -/
def put_abort (req_ok : Bool) : Nat → Code → Outcome Code
  | 0, _ => .running
  | n + 1, _status =>
    if _status ≠ .OK ∧ _status ≠ .HTTP_CREATED ∧ req_ok then put_abort req_ok n .HTTP_BAD_REQUEST else .returns _status

/-- What is left of the request at the label. -/
def put_end (req_ok : Bool) (n : Nat) (_status : Code) (s : Reg) : Outcome (Response × Reg) :=
  match put_abort req_ok n _status with
  | .returns .OK => .returns (⟨.OK, some (.HTTP_CREATED, [])⟩, s)
  | .returns code => .returns (refused code, s)
  | .undefined => .undefined
  | .running => .running

def process_put_request (n : Nat) (s : Reg) (r : request_rec) (name : Bytes) (qs_value_type : Option NR_REG_TYPE) :
    Outcome (Response × Reg) :=
  if !r.setup || !r.should || r.block.length ≠ r.remaining then put_end false n .HTTP_BAD_REQUEST s
  else match qs_value_type.bind fun type => put_arg env type r.block with
    | none => .undefined
    | some none => put_end true n (.reg .R_FAILED) s
    | some (some arg) =>
      match set idle s name arg with
      | none => .undefined
      | some (.ok, s) => put_end true n .OK s
      | some (rv, s) => put_end true n (.reg rv) s

/-! ## Requests -/

def process_delete_request (s : Reg) (name : Bytes) : Outcome (Response × Reg) :=
  match nr_reg_local_del idle s name with
  | none => .undefined
  | some (.ok, s) => .returns (⟨.OK, some (.OK, [])⟩, s)
  | some (_, s) => .returns (refused .HTTP_BAD_REQUEST, s)

/-- A read leaves the registry as it is. -/
def Outcome.with {α β : Type} (o : Outcome α) (b : β) : Outcome (α × β) :=
  match o with
  | .returns a => .returns (a, b)
  | .undefined => .undefined
  | .running => .running

def registry_handler (n : Nat) (s : Reg) (r : request_rec) : Outcome (Response × Reg) :=
  let reg_key := transform_name r.uri
  if reg_key = [] then .returns (refused .HTTP_BAD_REQUEST, s)
  else if r.method_number = .M_DELETE then
    if r.args ≠ none then .returns (refused .HTTP_NOT_FOUND, s) else process_delete_request s reg_key
  else match r.args.map parse_query_string with
    | none => .returns (refused .HTTP_BAD_REQUEST, s)
    | some (qs_param, qs_value) =>
      if r.method_number = .other then .returns (refused .HTTP_BAD_REQUEST, s)
      else match query_type qs_param qs_value with
        | none => .undefined
        | some (.error code) => .returns (refused code, s)
        | some (.ok qs_value_type) =>
          if r.method_number = .M_PUT then process_put_request env n s r reg_key qs_value_type
          else if qs_param = str "getlength" then (process_getlength_request s r reg_key).with s
          else if qs_param = str "getkeys" then (process_getkeys_request env s r reg_key).with s
          else (process_get_request env s r reg_key qs_value_type).with s

end

end Nrappkit.Web
