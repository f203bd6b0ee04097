import Nrappkit.Registry.Children
import Nrappkit.Registry.Remote
import Nrappkit.Lib.Numeral
import Nrappkit.Lib.Words
/-!
# The control program

`nrregctl.c` and `escape.c`: what `export` prints and what `write` does. The
program talks to the registry server; a list of children goes through the
server's array and the client's, everything else is carried unchanged. `fail`
and `usage` end the program with an error; `none` is undefined behaviour.

The order of `strcasecmp` among names that compare equal is that of `qsort`
in `Children`.
-/
open Lib Nrappkit.Registry Nrappkit.Assoc

namespace Nrappkit.Control

/-- What the program takes from its surroundings. -/
structure Env where
  /-- The content of a file that can be opened. -/
  files : Bytes → Option Bytes
  /-- `printf` of a double with `%f`. -/
  printDouble : UInt64 → Bytes
  /-- `sscanf` of a double with `%lf`. -/
  scanDouble : Bytes → Option UInt64

/-! ## Quoting -/

def isalnum (c : UInt8) : Bool := (48 ≤ c && c ≤ 57) || (65 ≤ c && c ≤ 90) || (97 ≤ c && c ≤ 122)

/-- Letters, digits and `,_.:-`. -/
def nr_isshok (c : UInt8) : Bool := isalnum c || c = 44 || c = 95 || c = 46 || c = 58 || c = 45

/-- The bytes written for one byte of the string. -/
def quoteByte (c : UInt8) : Bytes := if c = 39 then [39, 34, 39, 34, 39] else [c]

/-- The size that is allocated is computed as an `int`. -/
def nr_shell_quote_string (string : Bytes) : Option (Except Status Bytes) :=
  let needs_quoting := (string.filter fun c => !nr_isshok c).length
  if needs_quoting = 0 then some (.error .R_REJECTED)
  else if string.length + 4 * needs_quoting + 3 < 2 ^ 31 then some (.ok ([39] ++ string.flatMap quoteByte ++ [39]))
  else none

/-- The string, or its quoted form where it needs one. -/
def shellWord (string : Bytes) : Option Bytes :=
  (nr_shell_quote_string string).map fun
    | .ok quoted => quoted
    | .error _ => string

/-! ## Types -/

def nr_reg_type_name : NR_REG_TYPE → Bytes
  | .CHAR => str "char"
  | .UCHAR => str "UCHAR"
  | .INT2 => str "INT2"
  | .UINT2 => str "UINT2"
  | .INT4 => str "INT4"
  | .UINT4 => str "UINT4"
  | .INT8 => str "INT8"
  | .UINT8 => str "UINT8"
  | .DOUBLE => str "double"
  | .BYTES => str "Data"
  | .STRING => str "string"
  | .REGISTRY => str "registry"

def types : List NR_REG_TYPE :=
  [.CHAR, .UCHAR, .INT2, .UINT2, .INT4, .UINT4, .INT8, .UINT8, .DOUBLE, .BYTES, .STRING, .REGISTRY]

def nr_reg_compute_type (typename : Bytes) : Except Status NR_REG_TYPE :=
  match types.find? fun type => strcasecmp (nr_reg_type_name type) typename = .eq with
  | some type => .ok type
  | none => .error .R_BAD_ARGS

def NR_reg_get_type (s : Reg) (name : Bytes) : Option (Except Status Bytes) :=
  if nr_reg_is_valid name ≠ .ok then some (.error (nr_reg_is_valid name))
  else match r_assoc_fetch s.nr_registry (nameKey name) with
    | none => none
    | some (.error r) => some (.error r)
    | some (.ok p) => (s.nodes p).map fun node => .ok (nr_reg_type_name node.type)

/-! ## Printing -/

def zeroPad (width : Nat) (text : Bytes) : Bytes := List.replicate (width - text.length) 48 ++ text

/-- A signed number in decimal. -/
def decimal (n : Int) : Bytes := if n < 0 then 45 :: numeral 10 n.natAbs else numeral 10 n.natAbs

/-- The hexadecimal digits of some bytes, 35 bytes a line. -/
def bytesText (data : Bytes) : Bytes :=
  (data.zipIdx.flatMap fun (c, i) => zeroPad 2 (numeral 16 c.toNat) ++ if i % 35 = 34 then [10] else []) ++
    if Int.tmod (data.length - 1) 35 ≠ 34 then [10] else []

/-- The text of a scalar before its newline. A `char` is passed to `printf` as
an `int`, which `%o` takes as unsigned. -/
def scalarText (env : Env) (shell_mode : Bool) : Scalar → Bytes
  | ._char v =>
    let c := v.toUInt8
    if if shell_mode then !nr_isshok c else isspace c || !isprint c then
      (if shell_mode then [92] else []) ++ [92] ++ zeroPad 3 (numeral 8 (v.toInt % 2 ^ 32).toNat)
    else [c]
  | ._uchar v => str "0x" ++ zeroPad 2 (numeral 16 v.toNat)
  | ._nr_int2 v => decimal v.toInt
  | ._nr_uint2 v => decimal v.toNat
  | ._nr_int4 v => decimal v.toInt
  | ._nr_uint4 v => decimal v.toNat
  | ._nr_int8 v => decimal v.toInt
  | ._nr_uint8 v => decimal v.toNat
  | ._double v => env.printDouble v

def getScalar (s : Reg) (name : Bytes) : NR_REG_TYPE → Option (Except Status Scalar)
  | .CHAR => nr_reg_local_get_char s name
  | .UCHAR => nr_reg_local_get_uchar s name
  | .INT2 => nr_reg_local_get_int2 s name
  | .UINT2 => nr_reg_local_get_uint2 s name
  | .INT4 => nr_reg_local_get_int4 s name
  | .UINT4 => nr_reg_local_get_uint4 s name
  | .INT8 => nr_reg_local_get_int8 s name
  | .UINT8 => nr_reg_local_get_uint8 s name
  | .DOUBLE => nr_reg_local_get_double s name
  | _ => some (.error .R_INTERNAL)

/-- Names are copied without their last byte, so one of the greatest length
has no terminator. -/
def copied (children : List Bytes) : Option (List Bytes) :=
  if children.all fun name => name.length < NR_REG_MAX_NR_REGISTRY_LEN - 1 then some children else none

/-- The server starts with room for `max_count` names and doubles it, `n` times
at most. -/
def nr_reg_get_children_1_svc (s : Reg) (parent : Bytes) : Nat → Nat → Option (Except Status (List Bytes))
  | 0, _ => none
  | n + 1, max_count =>
    match nr_reg_local_get_children s parent max_count with
    | none => none
    | some (.ok children) => (copied children).map .ok
    | some (.error r) =>
      if r ≠ .R_BAD_ARGS ∨ nr_reg_is_valid parent ≠ .ok then some (.error r)
      else nr_reg_get_children_1_svc s parent n (max_count * 2)

def nr_reg_get_children_1_clnt (s : Reg) (max_count : Nat) (parent : Bytes) (size : Nat) :
    Option (Except Status (List Bytes)) :=
  (nr_reg_get_children_1_svc s parent (s.nr_registry.brk + 1) max_count).map fun
    | .error r => .error r
    | .ok children => if children.length > size then .error .R_BAD_ARGS else .ok children

/-! ## Export -/

/-- The start of the line for a child. -/
def lineStart (type child : Bytes) : Bytes := str "nrregctl write " ++ type ++ [32] ++ child ++ [32]

/-- The sign at the start of a text, and the rest. -/
def signOf : Bytes → Bool × Bytes
  | 45 :: text => (true, text)
  | 43 :: text => (false, text)
  | text => (false, text)

/-- `0x` may stand before the digits of `%x`. -/
def afterPrefix (base : Nat) : Bytes → Bytes
  | 48 :: x :: c :: text =>
    if base = 16 && (x = 120 || x = 88) && digitVal c < 16 then c :: text else 48 :: x :: c :: text
  | text => text

/-- The sign and the number that a conversion reads, `none` if it reads none. -/
def scanNumber (base : Nat) (text : Bytes) : Option (Bool × Nat) :=
  let (negative, rest) := signOf (text.dropWhile isspace)
  let digits := leadingDigits base (afterPrefix base rest)
  if digits = [] then none else some (negative, numeralVal base digits)

/-- `%d` and `%lld`: a number out of range, or a variable that is not assigned,
is undefined. -/
def scanSigned (bits : Nat) (text : Bytes) : Option Int :=
  (scanNumber 10 text).bind fun (negative, n) =>
    let v : Int := if negative then -n else n
    if -2 ^ (bits - 1) ≤ v ∧ v < 2 ^ (bits - 1) then some v else none

/-- `%u`, `%o`, `%x` and `%llu`; a minus sign wraps around. -/
def scanUnsigned (base bits : Nat) (text : Bytes) : Option Nat :=
  (scanNumber base text).bind fun (negative, n) =>
    if n < 2 ^ bits then some (if negative then (2 ^ bits - n) % 2 ^ bits else n) else none

/-! ## Write -/

/-- What the program does with a value. -/
inductive Action where
  | usage
  | store (arg : Arg)
  /-- The bytes of a `Data` are computed, and that is all. -/
  | drop
  deriving DecidableEq

def isdigit (c : UInt8) : Bool := 48 ≤ c && c ≤ 57

/-- A backslash and octal digits, or `0x` and hexadecimal ones, as the `int`
they are scanned into. -/
def escapeOf (value : Bytes) : Option (Option Nat) :=
  if value[0]? = some 92 && value[1]?.any isdigit then (scanUnsigned 8 32 (value.drop 1)).map some
  else if value[0]? = some 48 && value[1]? = some 120 && value[2]?.any fun c => digitVal c < 16 then
    (scanUnsigned 16 32 (value.drop 2)).map some
  else some none

/-- The second `switch` of `nrregctl_write`. -/
def convert (env : Env) (type : NR_REG_TYPE) (value : Bytes) : Option Action :=
  match type with
  | .CHAR => (escapeOf value).bind fun
    | some n => some (.store (.scalar (._char (Int8.ofNat n))))
    | none => value.head?.map fun c => .store (.scalar (._char c.toInt8))
  | .UCHAR => (escapeOf value).map fun
    | some n => .store (.scalar (._uchar (UInt8.ofNat n)))
    | none => .usage
  | .INT2 => (scanSigned 32 value).map fun v => .store (.scalar (._nr_int2 (Int16.ofInt v)))
  | .UINT2 => (scanUnsigned 10 32 value).map fun n => .store (.scalar (._nr_uint2 (UInt16.ofNat n)))
  | .INT4 => (scanSigned 32 value).map fun v => .store (.scalar (._nr_int4 (Int32.ofInt v)))
  | .UINT4 => (scanUnsigned 10 32 value).map fun n => .store (.scalar (._nr_uint4 (UInt32.ofNat n)))
  | .INT8 => (scanSigned 64 value).map fun v => .store (.scalar (._nr_int8 (Int64.ofInt v)))
  | .UINT8 => (scanUnsigned 10 64 value).map fun n => .store (.scalar (._nr_uint8 (UInt64.ofNat n)))
  | .DOUBLE => (env.scanDouble value).map fun v => .store (.scalar (._double v))
  | .BYTES =>
    let digits := if value.length > 2 && value.take 2 = str "0x" then value.drop 2 else value
    some (if digits.length % 2 = 1 then .usage else .drop)
  | .STRING => some (.store (.string value))
  | .REGISTRY => some (.store .registry)

/-- A value that starts with `@` names a file; its content is read into a block
that is not initialized. A file that cannot be read ends the program. -/
def valueOf (env : Env) (value : Bytes) : Option (Option Bytes) :=
  if value.head? = some 64 then
    match env.files (value.drop 1) with
    | none => some none
    | some content => (stringAt ((content.take 10000000).map some)).map some
  else some (some value)

/-- The checks and conversions of `nrregctl_write`, for a known type. -/
def actionOf (env : Env) (type : NR_REG_TYPE) (value : Option Bytes) : Option Action :=
  match value with
  | none => some (if type = .REGISTRY then .store .registry else .usage)
  | some value =>
    if type = .REGISTRY ∨ (type ≠ .STRING ∧ type ≠ .BYTES ∧ value = []) then some .usage
    else (valueOf env value).bind fun
      | none => some .usage
      | some value => convert env type value

/-- The type that is given, or else the one the name has. -/
def typeOf (s : Reg) (str : Option Bytes) (name : Bytes) : Option (Except Status NR_REG_TYPE) :=
  match str with
  | some typename => some (nr_reg_compute_type typename)
  | none => (NR_reg_get_type s name).map fun typename => typename.bind nr_reg_compute_type

/-- Whether the program ends without an error, and the registry it leaves. -/
def nrregctl_write (beh : nr_reg_cb_info → UInt8) (env : Env) (s : Reg) (str : Option Bytes) (name : Bytes)
    (value : Option Bytes) : Option (Bool × Reg) := do
  match ← typeOf s str name with
  | .error _ => some (false, s)
  | .ok type =>
    match ← actionOf env type value with
    | .usage => some (false, s)
    | .drop => some (true, s)
    | .store arg => (set beh s name arg).map fun (r, s) => (r = .ok, s)

/-- `main`, for the program's name and `write`; the other commands are left out. -/
def main (beh : nr_reg_cb_info → UInt8) (env : Env) (s : Reg) : List Bytes → Option (Bool × Reg)
  | [_, command, a, b] =>
    if command = str "write" then
      if a = str "registry" then nrregctl_write beh env s (some a) b none else nrregctl_write beh env s none a (some b)
    else some (false, s)
  | [_, command, type, name, value] =>
    if command = str "write" then nrregctl_write beh env s (some type) name (some value) else some (false, s)
  | _ => none

/-- A command of the script; no other program is found. -/
def command (beh : nr_reg_cb_info → UInt8) (env : Env) (s : Reg) (words : List Bytes) : Option (Bool × Reg) :=
  if words.head? = some (str "nrregctl") then main beh env s words else some (false, s)

end Nrappkit.Control
