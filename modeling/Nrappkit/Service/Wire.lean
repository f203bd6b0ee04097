import Nrappkit.Lib.Rpc
import Nrappkit.Registry.ListServer
import Nrappkit.Registry.Remote
import Nrappkit.Service.Store
/-!
# The registry over RPC

The messages of `regrpc.x`, the procedures of `regrpc_server.c` with their
dispatch in `regrpc_svc.c`, and the calls of `regrpc_client.c`, which try again
when there is no result.

A result is sent whole. Where a request fails it holds, next to the status, what
was in the server's memory; `Leftover` is that memory, with terminated strings.
-/
open Lib Nrappkit.Registry Nrappkit.Assoc Nrappkit.Control

namespace Nrappkit.Service

/-! ## Messages -/

/-- The numbers of `r_errors.h`. -/
def Status.number : Status → Int32
  | .ok => 0
  | .R_NO_MEMORY => 1
  | .R_NOT_FOUND => 2
  | .R_INTERNAL => 3
  | .R_ALREADY => 4
  | .R_EOD => 5
  | .R_BAD_ARGS => 6
  | .R_BAD_DATA => 7
  | .R_WOULDBLOCK => 8
  | .R_QUEUED => 9
  | .R_FAILED => 10
  | .R_REJECTED => 11
  | .R_INTERRUPTED => 12
  | .R_IO_ERROR => 13
  | .R_NOT_PERMITTED => 14
  | .R_RETRY => 15

def statuses : List Status :=
  [.ok, .R_NO_MEMORY, .R_NOT_FOUND, .R_INTERNAL, .R_ALREADY, .R_EOD, .R_BAD_ARGS, .R_BAD_DATA, .R_WOULDBLOCK, .R_QUEUED,
    .R_FAILED, .R_REJECTED, .R_INTERRUPTED, .R_IO_ERROR, .R_NOT_PERMITTED, .R_RETRY]

/-- A number that no status has is not sent. -/
def statusOf (n : Int32) : Status := (statuses.find? fun r => Status.number r = n).getD .R_INTERNAL

/-- The `int` that a call returns. -/
def xdr_status : Xdr Status := Xdr.int.conv statusOf Status.number

theorem xdr_status_carries (r : Status) : xdr_status.Carries r := ⟨Xdr.int_carries _, by cases r <;> decide⟩

def xdr_nr_regd_registry : Xdr Bytes := Xdr.string
def xdr_nr_regd_data : Xdr Bytes := Xdr.bytes
def xdr_nr_regd_string : Xdr Bytes := Xdr.string

def xdr_char : Xdr Scalar := Xdr.char.conv ._char fun | ._char v => v | _ => 0
def xdr_u_char : Xdr Scalar := Xdr.u_char.conv ._uchar fun | ._uchar v => v | _ => 0
def xdr_int16_t : Xdr Scalar := Xdr.int16_t.conv ._nr_int2 fun | ._nr_int2 v => v | _ => 0
def xdr_u_int16_t : Xdr Scalar := Xdr.u_int16_t.conv ._nr_uint2 fun | ._nr_uint2 v => v | _ => 0
def xdr_int32_t : Xdr Scalar := Xdr.int.conv ._nr_int4 fun | ._nr_int4 v => v | _ => 0
def xdr_u_int32_t : Xdr Scalar := Xdr.u_int.conv ._nr_uint4 fun | ._nr_uint4 v => v | _ => 0
def xdr_int64_t : Xdr Scalar := Xdr.hyper.conv ._nr_int8 fun | ._nr_int8 v => v | _ => 0
def xdr_u_int64_t : Xdr Scalar := Xdr.u_hyper.conv ._nr_uint8 fun | ._nr_uint8 v => v | _ => 0
/-- The 64 bits. -/
def xdr_double : Xdr Scalar := Xdr.u_hyper.conv ._double fun | ._double v => v | _ => 0

/-- The filter carries the values of a type. -/
def Scalars (type : NR_REG_TYPE) (x : Xdr Scalar) : Prop := ∀ v : Scalar, v.type = type → x.Carries v

theorem char_scalars : Scalars .CHAR xdr_char
  | ._char v, _ => ⟨Xdr.char_carries v, rfl⟩
theorem u_char_scalars : Scalars .UCHAR xdr_u_char
  | ._uchar v, _ => ⟨Xdr.u_char_carries v, rfl⟩
theorem int16_scalars : Scalars .INT2 xdr_int16_t
  | ._nr_int2 v, _ => ⟨Xdr.int16_t_carries v, rfl⟩
theorem u_int16_scalars : Scalars .UINT2 xdr_u_int16_t
  | ._nr_uint2 v, _ => ⟨Xdr.u_int16_t_carries v, rfl⟩
theorem int32_scalars : Scalars .INT4 xdr_int32_t
  | ._nr_int4 v, _ => ⟨Xdr.int_carries v, rfl⟩
theorem u_int32_scalars : Scalars .UINT4 xdr_u_int32_t
  | ._nr_uint4 v, _ => ⟨Xdr.u_int_carries v, rfl⟩
theorem int64_scalars : Scalars .INT8 xdr_int64_t
  | ._nr_int8 v, _ => ⟨Xdr.hyper_carries v, rfl⟩
theorem u_int64_scalars : Scalars .UINT8 xdr_u_int64_t
  | ._nr_uint8 v, _ => ⟨Xdr.u_hyper_carries v, rfl⟩
theorem double_scalars : Scalars .DOUBLE xdr_double
  | ._double v, _ => ⟨Xdr.u_hyper_carries v, rfl⟩

section
variable {α : Type} (x : Xdr α)

/-- The structures `nr_regd_result_…`: `retval` and `out`. -/
def xdr_result : Xdr (Status × α) := xdr_status.seq x

/-- The structures `nr_reg_set_…_1_argument`: `name` and `data`. -/
def xdr_argument : Xdr (Bytes × α) := xdr_nr_regd_registry.seq x

end

def xdr_nr_regd_result_char := xdr_result xdr_char
def xdr_nr_regd_result_UCHAR := xdr_result xdr_u_char
def xdr_nr_regd_result_INT2 := xdr_result xdr_int16_t
def xdr_nr_regd_result_UINT2 := xdr_result xdr_u_int16_t
def xdr_nr_regd_result_INT4 := xdr_result xdr_int32_t
def xdr_nr_regd_result_UINT4 := xdr_result xdr_u_int32_t
def xdr_nr_regd_result_INT8 := xdr_result xdr_int64_t
def xdr_nr_regd_result_UINT8 := xdr_result xdr_u_int64_t
def xdr_nr_regd_result_double := xdr_result xdr_double
def xdr_nr_regd_result_bytes := xdr_result Xdr.bytes
def xdr_nr_regd_result_string := xdr_result Xdr.string
def xdr_nr_regd_result_strings := xdr_result (Xdr.array xdr_nr_regd_string)

def xdr_nr_reg_set_char_1_argument := xdr_argument xdr_char
def xdr_nr_reg_set_uchar_1_argument := xdr_argument xdr_u_char
def xdr_nr_reg_set_int2_1_argument := xdr_argument xdr_int16_t
def xdr_nr_reg_set_uint2_1_argument := xdr_argument xdr_u_int16_t
def xdr_nr_reg_set_int4_1_argument := xdr_argument xdr_int32_t
def xdr_nr_reg_set_uint4_1_argument := xdr_argument xdr_u_int32_t
def xdr_nr_reg_set_int8_1_argument := xdr_argument xdr_int64_t
def xdr_nr_reg_set_uint8_1_argument := xdr_argument xdr_u_int64_t
def xdr_nr_reg_set_double_1_argument := xdr_argument xdr_double
def xdr_nr_reg_set_bytes_1_argument := xdr_argument xdr_nr_regd_data
def xdr_nr_reg_set_string_1_argument := xdr_argument xdr_nr_regd_string

/-! ## The server -/

/-- The registry in the server, and the variables that its procedures keep. -/
structure Svc extends Server where
  children : Bytewise.ChildrenStatic

/-- What is in the memory of a result when its request fails. -/
structure Leftover where
  scalar : NR_REG_TYPE → Scalar
  scalar_type : ∀ v : Scalar, (scalar v.type).type = v.type
  word : UInt32
  bytes : Bytes
  bytes_carried : Xdr.bytes.Carries bytes
  string : Bytes
  string_carried : Xdr.string.Carries string
  strings : List Bytes
  strings_carried : (Xdr.array xdr_nr_regd_string).Carries strings
  /-- An array as it is allocated. -/
  fresh : Nat → Nat → Bytewise.NR_registry
  /-- What `nr_reg_register_for_callbacks` returns; the clients are in `Daemon`. -/
  registered : Status

section
variable (qsort : List Bytewise.NR_registry → List Bytewise.NR_registry) (left : Leftover)

/-- A procedure that sends what a getter finds. -/
def svc_get {α : Type} (get : Reg → Bytes → Option (Except Status α)) (out : α) (sv : Svc) (name : Bytes) :
    Option ((Status × α) × Svc) :=
  (get sv.reg name).map fun
    | .ok v => ((.ok, v), sv)
    | .error r => ((r, out), sv)

def nr_reg_get_char_1_svc := svc_get nr_reg_local_get_char (left.scalar .CHAR)
def nr_reg_get_uchar_1_svc := svc_get nr_reg_local_get_uchar (left.scalar .UCHAR)
def nr_reg_get_int2_1_svc := svc_get nr_reg_local_get_int2 (left.scalar .INT2)
def nr_reg_get_uint2_1_svc := svc_get nr_reg_local_get_uint2 (left.scalar .UINT2)
def nr_reg_get_int4_1_svc := svc_get nr_reg_local_get_int4 (left.scalar .INT4)
def nr_reg_get_uint4_1_svc := svc_get nr_reg_local_get_uint4 (left.scalar .UINT4)
def nr_reg_get_int8_1_svc := svc_get nr_reg_local_get_int8 (left.scalar .INT8)
def nr_reg_get_uint8_1_svc := svc_get nr_reg_local_get_uint8 (left.scalar .UINT8)
def nr_reg_get_double_1_svc := svc_get nr_reg_local_get_double (left.scalar .DOUBLE)
def nr_reg_get_registry_1_svc := svc_get nr_reg_local_get_registry left.string

/-- The name is copied with its padding, 32 bytes into the 20 of `str`; what that
clears behind `str` is left out. -/
def nr_reg_get_type_1_svc := svc_get NR_reg_get_type left.string

/-- The `size_t` is sent as a `UINT4`. -/
def nr_reg_get_length_1_svc :=
  svc_get (fun s name => (nr_reg_local_get_length s name).map fun r => r.map fun len => Scalar._nr_uint4 (UInt32.ofNat len))
    (._nr_uint4 left.word)

/-- So are the four bytes behind `result`, which counting clears. -/
def nr_reg_get_child_count_1_svc :=
  svc_get (fun s parent => (nr_reg_local_get_child_count s parent).map fun r => r.map Scalar._nr_uint4) (._nr_uint4 left.word)

/-- Bytes that were never written cannot be sent. -/
def nr_reg_get_bytes_1_svc (sv : Svc) (name : Bytes) : Option ((Status × Bytes) × Svc) :=
  (Registry.nr_reg_get_bytes_1_svc sv.reg name sv.bytes).bind fun
    | (.ok out, bytes) => (out.mapM id).map fun out => ((.ok, out), { sv with bytes })
    | (.error r, bytes) => some ((r, left.bytes), { sv with bytes })

def nr_reg_get_string_1_svc (sv : Svc) (name : Bytes) : Option ((Status × Bytes) × Svc) :=
  (Registry.nr_reg_get_string_1_svc sv.reg name sv.string).bind fun
    | (.ok out, string) => (stringAt out).map fun out => ((.ok, out), { sv with string })
    | (.error r, string) => some ((r, left.string), { sv with string })

/-- The array reaches its greatest size in 32 calls. -/
def nr_reg_get_children_1_svc (sv : Svc) (parent : Bytes) : Option ((Status × List Bytes) × Svc) :=
  (Bytewise.nr_reg_get_children_1_svc qsort left.fresh sv.reg parent 32 sv.children).bind fun
    | (.ok, children) => (children.out_val.mapM id).map fun out => ((.ok, out), { sv with children })
    | (r, children) => some ((r, left.strings), { sv with children })

/-- A procedure that sends what a change of the registry returns. -/
def svc_change {α : Type} (change : Reg → α → Option (Status × Reg)) (sv : Svc) (arg : α) : Option (Status × Svc) :=
  (change sv.reg arg).map fun x => (x.1, { sv with reg := x.2 })

/-- A setter's procedure, for the value that arrives. -/
def svc_set {α : Type} (arg : α → Arg) : Svc → Bytes × α → Option (Status × Svc) :=
  svc_change fun s a => Registry.set idle s a.1 (arg a.2)

def nr_reg_set_char_1_svc := svc_set .scalar
def nr_reg_set_uchar_1_svc := svc_set .scalar
def nr_reg_set_int2_1_svc := svc_set .scalar
def nr_reg_set_uint2_1_svc := svc_set .scalar
def nr_reg_set_int4_1_svc := svc_set .scalar
def nr_reg_set_uint4_1_svc := svc_set .scalar
def nr_reg_set_int8_1_svc := svc_set .scalar
def nr_reg_set_uint8_1_svc := svc_set .scalar
def nr_reg_set_double_1_svc := svc_set .scalar
def nr_reg_set_registry_1_svc := svc_change fun s name => Registry.set idle s name .registry
def nr_reg_set_bytes_1_svc := svc_set .bytes
def nr_reg_set_string_1_svc := svc_set .string
def nr_reg_del_1_svc := svc_change (nr_reg_local_del idle)
def nr_reg_fin_1_svc := svc_change (nr_reg_local_fin idle)

/-- The line goes to the log. -/
def nr_reg_local_dump_print : Unit → Reg → r_assoc_iterator → Bytes → Ptr → Option (Status × Unit × Reg) :=
  reads fun _ _ => some (.ok, ())

def nr_reg_local_dump (s : Reg) : Option Status := (nr_reg_local_iter nr_reg_local_dump_print [] () s).map fun x => x.1

def nr_reg_dump_1_svc (sv : Svc) (_ : Unit) : Option (Status × Svc) := (nr_reg_local_dump sv.reg).map fun r => (r, sv)

/-- `port` is where the client listens. -/
def nr_reg_register_for_callbacks_1_svc (sv : Svc) (_port : Int32) : Option (Status × Svc) := some (left.registered, sv)

end

/-! ## Dispatch -/

/-- The procedures, in the order of their numbers. -/
inductive Proc where
  | NULLPROC
  | NR_REG_GET_CHAR
  | NR_REG_GET_UCHAR
  | NR_REG_GET_INT2
  | NR_REG_GET_UINT2
  | NR_REG_GET_INT4
  | NR_REG_GET_UINT4
  | NR_REG_GET_INT8
  | NR_REG_GET_UINT8
  | NR_REG_GET_DOUBLE
  | NR_REG_GET_REGISTRY
  | NR_REG_GET_BYTES
  | NR_REG_GET_STRING
  | NR_REG_GET_LENGTH
  | NR_REG_GET_TYPE
  | NR_REG_SET_CHAR
  | NR_REG_SET_UCHAR
  | NR_REG_SET_INT2
  | NR_REG_SET_UINT2
  | NR_REG_SET_INT4
  | NR_REG_SET_UINT4
  | NR_REG_SET_INT8
  | NR_REG_SET_UINT8
  | NR_REG_SET_DOUBLE
  | NR_REG_SET_REGISTRY
  | NR_REG_SET_BYTES
  | NR_REG_SET_STRING
  | NR_REG_DEL
  | NR_REG_FIN
  | NR_REG_GET_CHILD_COUNT
  | NR_REG_GET_CHILDREN
  | NR_REG_DUMP
  | NR_REG_REGISTER_FOR_CALLBACKS
  deriving DecidableEq

def procs : List Proc :=
  [.NULLPROC, .NR_REG_GET_CHAR, .NR_REG_GET_UCHAR, .NR_REG_GET_INT2, .NR_REG_GET_UINT2, .NR_REG_GET_INT4,
    .NR_REG_GET_UINT4, .NR_REG_GET_INT8, .NR_REG_GET_UINT8, .NR_REG_GET_DOUBLE, .NR_REG_GET_REGISTRY,
    .NR_REG_GET_BYTES, .NR_REG_GET_STRING, .NR_REG_GET_LENGTH, .NR_REG_GET_TYPE, .NR_REG_SET_CHAR, .NR_REG_SET_UCHAR,
    .NR_REG_SET_INT2, .NR_REG_SET_UINT2, .NR_REG_SET_INT4, .NR_REG_SET_UINT4, .NR_REG_SET_INT8, .NR_REG_SET_UINT8,
    .NR_REG_SET_DOUBLE, .NR_REG_SET_REGISTRY, .NR_REG_SET_BYTES, .NR_REG_SET_STRING, .NR_REG_DEL, .NR_REG_FIN,
    .NR_REG_GET_CHILD_COUNT, .NR_REG_GET_CHILDREN, .NR_REG_DUMP, .NR_REG_REGISTER_FOR_CALLBACKS]

def Proc.number (p : Proc) : Nat := procs.idxOf p

theorem procs_number (p : Proc) : procs[p.number]? = some p := by cases p <;> rfl

section
variable (qsort : List Bytewise.NR_registry → List Bytewise.NR_registry) (left : Leftover)

/-- The filters and the function for each procedure. -/
def procedure : Proc → Procedure Svc
  | .NULLPROC => ⟨.void, .void, fun sv _ => some ((), sv)⟩
  | .NR_REG_GET_CHAR => ⟨xdr_nr_regd_registry, xdr_nr_regd_result_char, nr_reg_get_char_1_svc left⟩
  | .NR_REG_GET_UCHAR => ⟨xdr_nr_regd_registry, xdr_nr_regd_result_UCHAR, nr_reg_get_uchar_1_svc left⟩
  | .NR_REG_GET_INT2 => ⟨xdr_nr_regd_registry, xdr_nr_regd_result_INT2, nr_reg_get_int2_1_svc left⟩
  | .NR_REG_GET_UINT2 => ⟨xdr_nr_regd_registry, xdr_nr_regd_result_UINT2, nr_reg_get_uint2_1_svc left⟩
  | .NR_REG_GET_INT4 => ⟨xdr_nr_regd_registry, xdr_nr_regd_result_INT4, nr_reg_get_int4_1_svc left⟩
  | .NR_REG_GET_UINT4 => ⟨xdr_nr_regd_registry, xdr_nr_regd_result_UINT4, nr_reg_get_uint4_1_svc left⟩
  | .NR_REG_GET_INT8 => ⟨xdr_nr_regd_registry, xdr_nr_regd_result_INT8, nr_reg_get_int8_1_svc left⟩
  | .NR_REG_GET_UINT8 => ⟨xdr_nr_regd_registry, xdr_nr_regd_result_UINT8, nr_reg_get_uint8_1_svc left⟩
  | .NR_REG_GET_DOUBLE => ⟨xdr_nr_regd_registry, xdr_nr_regd_result_double, nr_reg_get_double_1_svc left⟩
  | .NR_REG_GET_REGISTRY => ⟨xdr_nr_regd_registry, xdr_nr_regd_result_string, nr_reg_get_registry_1_svc left⟩
  | .NR_REG_GET_BYTES => ⟨xdr_nr_regd_registry, xdr_nr_regd_result_bytes, nr_reg_get_bytes_1_svc left⟩
  | .NR_REG_GET_STRING => ⟨xdr_nr_regd_registry, xdr_nr_regd_result_string, nr_reg_get_string_1_svc left⟩
  | .NR_REG_GET_LENGTH => ⟨xdr_nr_regd_registry, xdr_nr_regd_result_UINT4, nr_reg_get_length_1_svc left⟩
  | .NR_REG_GET_TYPE => ⟨xdr_nr_regd_registry, xdr_nr_regd_result_string, nr_reg_get_type_1_svc left⟩
  | .NR_REG_SET_CHAR => ⟨xdr_nr_reg_set_char_1_argument, xdr_status, nr_reg_set_char_1_svc⟩
  | .NR_REG_SET_UCHAR => ⟨xdr_nr_reg_set_uchar_1_argument, xdr_status, nr_reg_set_uchar_1_svc⟩
  | .NR_REG_SET_INT2 => ⟨xdr_nr_reg_set_int2_1_argument, xdr_status, nr_reg_set_int2_1_svc⟩
  | .NR_REG_SET_UINT2 => ⟨xdr_nr_reg_set_uint2_1_argument, xdr_status, nr_reg_set_uint2_1_svc⟩
  | .NR_REG_SET_INT4 => ⟨xdr_nr_reg_set_int4_1_argument, xdr_status, nr_reg_set_int4_1_svc⟩
  | .NR_REG_SET_UINT4 => ⟨xdr_nr_reg_set_uint4_1_argument, xdr_status, nr_reg_set_uint4_1_svc⟩
  | .NR_REG_SET_INT8 => ⟨xdr_nr_reg_set_int8_1_argument, xdr_status, nr_reg_set_int8_1_svc⟩
  | .NR_REG_SET_UINT8 => ⟨xdr_nr_reg_set_uint8_1_argument, xdr_status, nr_reg_set_uint8_1_svc⟩
  | .NR_REG_SET_DOUBLE => ⟨xdr_nr_reg_set_double_1_argument, xdr_status, nr_reg_set_double_1_svc⟩
  | .NR_REG_SET_REGISTRY => ⟨xdr_nr_regd_registry, xdr_status, nr_reg_set_registry_1_svc⟩
  | .NR_REG_SET_BYTES => ⟨xdr_nr_reg_set_bytes_1_argument, xdr_status, nr_reg_set_bytes_1_svc⟩
  | .NR_REG_SET_STRING => ⟨xdr_nr_reg_set_string_1_argument, xdr_status, nr_reg_set_string_1_svc⟩
  | .NR_REG_DEL => ⟨xdr_nr_regd_registry, xdr_status, nr_reg_del_1_svc⟩
  | .NR_REG_FIN => ⟨xdr_nr_regd_registry, xdr_status, nr_reg_fin_1_svc⟩
  | .NR_REG_GET_CHILD_COUNT => ⟨xdr_nr_regd_registry, xdr_nr_regd_result_UINT4, nr_reg_get_child_count_1_svc left⟩
  | .NR_REG_GET_CHILDREN => ⟨xdr_nr_regd_registry, xdr_nr_regd_result_strings, nr_reg_get_children_1_svc qsort left⟩
  | .NR_REG_DUMP => ⟨.void, xdr_status, nr_reg_dump_1_svc⟩
  | .NR_REG_REGISTER_FOR_CALLBACKS => ⟨.int, xdr_status, nr_reg_register_for_callbacks_1_svc left⟩

def registrydprog_1 : Svc → Nat → Bytes → Option (Accepted × Svc) :=
  dispatch fun rq_proc => procs[rq_proc]?.map (procedure qsort left)

end

/-! ## The client -/

/-- What the attempts of a call meet. -/
structure Link where
  fate : Nat → Fate
  left : Nat → Leftover

/-- `NR_REG_MAX_TYPE_LEN` -/
def NR_REG_MAX_TYPE_LEN : Nat := 32

section
variable (qsort : List Bytewise.NR_registry → List Bytewise.NR_registry) (link : Link)

/-- A stub of `regrpc_clnt.c`, in one attempt. -/
def stub {A R : Type} (proc : Proc) (xargs : Xdr A) (arg : A) (xres : Xdr R) (tries : Nat) : Svc → Option (Option R × Svc) :=
  clnt_call (registrydprog_1 qsort (link.left tries)) proc.number xargs arg xres

/-- From `CLIENT_ENTER` to `CLIENT_LEAVE`; after six attempts without a result
it gives up. -/
def CLIENT {A R : Type} (proc : Proc) (xargs : Xdr A) (arg : A) (xres : Xdr R) (retval : R → Status) (sv : Svc) :
    Option (Except Status R × Svc) :=
  (attempts (stub qsort link proc xargs arg xres) link.fate 0 6 sv).map fun
    | (.unreachable, sv) => (.error .R_FAILED, sv)
    | (.gave_up, sv) => (.error .R_IO_ERROR, sv)
    | (.answered result, sv) => (if retval result ≠ .ok then .error (retval result) else .ok result, sv)

/-- A call that returns `out`. -/
def clnt_get {R : Type} (proc : Proc) (xres : Xdr (Status × R)) (sv : Svc) (name : Bytes) : Option (Except Status R × Svc) :=
  (CLIENT qsort link proc xdr_nr_regd_registry name xres Prod.fst sv).map fun x => (x.1.map Prod.snd, x.2)

def nr_reg_get_char_1_clnt := clnt_get qsort link .NR_REG_GET_CHAR xdr_nr_regd_result_char
def nr_reg_get_uchar_1_clnt := clnt_get qsort link .NR_REG_GET_UCHAR xdr_nr_regd_result_UCHAR
def nr_reg_get_int2_1_clnt := clnt_get qsort link .NR_REG_GET_INT2 xdr_nr_regd_result_INT2
def nr_reg_get_uint2_1_clnt := clnt_get qsort link .NR_REG_GET_UINT2 xdr_nr_regd_result_UINT2
def nr_reg_get_int4_1_clnt := clnt_get qsort link .NR_REG_GET_INT4 xdr_nr_regd_result_INT4
def nr_reg_get_uint4_1_clnt := clnt_get qsort link .NR_REG_GET_UINT4 xdr_nr_regd_result_UINT4
def nr_reg_get_int8_1_clnt := clnt_get qsort link .NR_REG_GET_INT8 xdr_nr_regd_result_INT8
def nr_reg_get_uint8_1_clnt := clnt_get qsort link .NR_REG_GET_UINT8 xdr_nr_regd_result_UINT8
def nr_reg_get_double_1_clnt := clnt_get qsort link .NR_REG_GET_DOUBLE xdr_nr_regd_result_double

/-- What a client does with the result, before it returns. -/
def clnt_check {R Q : Type} (check : R → Except Status Q) (x : Option (Except Status R × Svc)) : Option (Except Status Q × Svc) :=
  x.map fun x => (x.1.bind check, x.2)

def nr_reg_get_registry_1_clnt (sv : Svc) (name : Bytes) : Option (Except Status Bytes × Svc) :=
  clnt_check (fun out => if out.length ≥ NR_REG_MAX_NR_REGISTRY_LEN then .error .R_BAD_ARGS else .ok out)
    (clnt_get qsort link .NR_REG_GET_REGISTRY xdr_nr_regd_result_string sv name)

def nr_reg_get_bytes_1_clnt (sv : Svc) (name : Bytes) (size : Nat) : Option (Except Status Bytes × Svc) :=
  clnt_check (fun out => if out.length > size then .error .R_BAD_ARGS else .ok out)
    (clnt_get qsort link .NR_REG_GET_BYTES xdr_nr_regd_result_bytes sv name)

/-- With the terminator that `strncpy` writes. -/
def nr_reg_get_string_1_clnt (sv : Svc) (name : Bytes) (size : Nat) : Option (Except Status Bytes × Svc) :=
  clnt_check (fun out => if out.length ≥ size then .error .R_BAD_ARGS else .ok (out ++ [0]))
    (clnt_get qsort link .NR_REG_GET_STRING xdr_nr_regd_result_string sv name)

/-- The `UINT4` of a result. -/
def uint4 : Scalar → Except Status UInt32
  | ._nr_uint4 v => .ok v
  | _ => .error .R_INTERNAL

def nr_reg_get_length_1_clnt (sv : Svc) (name : Bytes) : Option (Except Status Nat × Svc) :=
  clnt_check (fun out => (uint4 out).map UInt32.toNat)
    (clnt_get qsort link .NR_REG_GET_LENGTH xdr_nr_regd_result_UINT4 sv name)

def nr_reg_get_type_1_clnt (sv : Svc) (name : Bytes) : Option (Except Status Bytes × Svc) :=
  clnt_check (fun out => .ok (out.take NR_REG_MAX_TYPE_LEN))
    (clnt_get qsort link .NR_REG_GET_TYPE xdr_nr_regd_result_string sv name)

def nr_reg_get_child_count_1_clnt (sv : Svc) (parent : Bytes) : Option (Except Status UInt32 × Svc) :=
  clnt_check uint4 (clnt_get qsort link .NR_REG_GET_CHILD_COUNT xdr_nr_regd_result_UINT4 sv parent)

/-- A name is copied without its last byte. -/
def nr_reg_get_children_1_clnt (sv : Svc) (parent : Bytes) (size : Nat) : Option (Except Status (List Bytes) × Svc) :=
  clnt_check (fun out => if out.length > size then .error .R_BAD_ARGS
      else .ok (out.map fun name => name.take (NR_REG_MAX_NR_REGISTRY_LEN - 1)))
    (clnt_get qsort link .NR_REG_GET_CHILDREN xdr_nr_regd_result_strings sv parent)

/-- A call that returns its status only. -/
def clnt_change {A : Type} (proc : Proc) (xargs : Xdr A) (sv : Svc) (arg : A) : Option (Status × Svc) :=
  (CLIENT qsort link proc xargs arg xdr_status id sv).map fun
    | (.ok _, sv) => (.ok, sv)
    | (.error r, sv) => (r, sv)

def nr_reg_set_char_1_clnt := clnt_change qsort link .NR_REG_SET_CHAR xdr_nr_reg_set_char_1_argument
def nr_reg_set_uchar_1_clnt := clnt_change qsort link .NR_REG_SET_UCHAR xdr_nr_reg_set_uchar_1_argument
def nr_reg_set_int2_1_clnt := clnt_change qsort link .NR_REG_SET_INT2 xdr_nr_reg_set_int2_1_argument
def nr_reg_set_uint2_1_clnt := clnt_change qsort link .NR_REG_SET_UINT2 xdr_nr_reg_set_uint2_1_argument
def nr_reg_set_int4_1_clnt := clnt_change qsort link .NR_REG_SET_INT4 xdr_nr_reg_set_int4_1_argument
def nr_reg_set_uint4_1_clnt := clnt_change qsort link .NR_REG_SET_UINT4 xdr_nr_reg_set_uint4_1_argument
def nr_reg_set_int8_1_clnt := clnt_change qsort link .NR_REG_SET_INT8 xdr_nr_reg_set_int8_1_argument
def nr_reg_set_uint8_1_clnt := clnt_change qsort link .NR_REG_SET_UINT8 xdr_nr_reg_set_uint8_1_argument
def nr_reg_set_double_1_clnt := clnt_change qsort link .NR_REG_SET_DOUBLE xdr_nr_reg_set_double_1_argument
def nr_reg_set_registry_1_clnt := clnt_change qsort link .NR_REG_SET_REGISTRY xdr_nr_regd_registry
def nr_reg_set_string_1_clnt := clnt_change qsort link .NR_REG_SET_STRING xdr_nr_reg_set_string_1_argument
def nr_reg_del_1_clnt := clnt_change qsort link .NR_REG_DEL xdr_nr_regd_registry
def nr_reg_fin_1_clnt := clnt_change qsort link .NR_REG_FIN xdr_nr_regd_registry

/-- `nr_regd_data_len` is an `unsigned int`. -/
def nr_reg_set_bytes_1_clnt (sv : Svc) (arg : Bytes × Bytes) : Option (Status × Svc) :=
  clnt_change qsort link .NR_REG_SET_BYTES xdr_nr_reg_set_bytes_1_argument sv (arg.1, trunc arg.2)

/-- A getter for the type. -/
def remote_getter (sv : Svc) (name : Bytes) (size : Nat) : NR_REG_TYPE → Option (Except Status Value × Svc)
  | .CHAR => clnt_check (.ok ∘ .scalar) (nr_reg_get_char_1_clnt qsort link sv name)
  | .UCHAR => clnt_check (.ok ∘ .scalar) (nr_reg_get_uchar_1_clnt qsort link sv name)
  | .INT2 => clnt_check (.ok ∘ .scalar) (nr_reg_get_int2_1_clnt qsort link sv name)
  | .UINT2 => clnt_check (.ok ∘ .scalar) (nr_reg_get_uint2_1_clnt qsort link sv name)
  | .INT4 => clnt_check (.ok ∘ .scalar) (nr_reg_get_int4_1_clnt qsort link sv name)
  | .UINT4 => clnt_check (.ok ∘ .scalar) (nr_reg_get_uint4_1_clnt qsort link sv name)
  | .INT8 => clnt_check (.ok ∘ .scalar) (nr_reg_get_int8_1_clnt qsort link sv name)
  | .UINT8 => clnt_check (.ok ∘ .scalar) (nr_reg_get_uint8_1_clnt qsort link sv name)
  | .DOUBLE => clnt_check (.ok ∘ .scalar) (nr_reg_get_double_1_clnt qsort link sv name)
  | .REGISTRY => clnt_check (fun _ => .ok .registry) (nr_reg_get_registry_1_clnt qsort link sv name)
  | .BYTES => clnt_check (.ok ∘ .array false) (nr_reg_get_bytes_1_clnt qsort link sv name size)
  | .STRING => clnt_check (.ok ∘ .array true) (nr_reg_get_string_1_clnt qsort link sv name size)

/-- A setter for the type. -/
def remote_set (sv : Svc) (name : Bytes) : Arg → Option (Status × Svc)
  | .scalar (._char v) => nr_reg_set_char_1_clnt qsort link sv (name, ._char v)
  | .scalar (._uchar v) => nr_reg_set_uchar_1_clnt qsort link sv (name, ._uchar v)
  | .scalar (._nr_int2 v) => nr_reg_set_int2_1_clnt qsort link sv (name, ._nr_int2 v)
  | .scalar (._nr_uint2 v) => nr_reg_set_uint2_1_clnt qsort link sv (name, ._nr_uint2 v)
  | .scalar (._nr_int4 v) => nr_reg_set_int4_1_clnt qsort link sv (name, ._nr_int4 v)
  | .scalar (._nr_uint4 v) => nr_reg_set_uint4_1_clnt qsort link sv (name, ._nr_uint4 v)
  | .scalar (._nr_int8 v) => nr_reg_set_int8_1_clnt qsort link sv (name, ._nr_int8 v)
  | .scalar (._nr_uint8 v) => nr_reg_set_uint8_1_clnt qsort link sv (name, ._nr_uint8 v)
  | .scalar (._double v) => nr_reg_set_double_1_clnt qsort link sv (name, ._double v)
  | .registry => nr_reg_set_registry_1_clnt qsort link sv name
  | .bytes b => nr_reg_set_bytes_1_clnt qsort link sv (name, b)
  | .string b => nr_reg_set_string_1_clnt qsort link sv (name, b)

/-- A call in a client. -/
def remote (sv : Svc) : Call → Option (Answer × Svc)
  | .set name arg => (remote_set qsort link sv name arg).map fun x => (.status x.1, x.2)
  | .del name => (nr_reg_del_1_clnt qsort link sv name).map fun x => (.status x.1, x.2)
  | .fin name => (nr_reg_fin_1_clnt qsort link sv name).map fun x => (.status x.1, x.2)
  | .get name type size => (remote_getter qsort link sv name size type).map fun x => (.value x.1, x.2)
  | .get_length name => (nr_reg_get_length_1_clnt qsort link sv name).map fun x => (.length x.1, x.2)
  | .get_type name => (nr_reg_get_type_1_clnt qsort link sv name).map fun x => (.type x.1, x.2)
  | .get_child_count name => (nr_reg_get_child_count_1_clnt qsort link sv name).map fun x => (.count x.1, x.2)
  | .get_children name size => (nr_reg_get_children_1_clnt qsort link sv name size).map fun x => (.children x.1, x.2)

end

end Nrappkit.Service
