import Nrappkit.Common
import Nrappkit.Lib.Mem
/-!
# The statistics segment

`nrstats.c`, for one process that is attached to the segment. An address is an
offset from `shm`. What is behind the segment belongs to nobody: a write there
faults, and the call does not return. The layout of `wrapper` is that of 64-bit
Linux.
-/
open Lib

namespace Nrappkit.Stats

def MAX_NR_STATS_SIZE : Nat := 0x4ffff
def NR_MAX_STATS_TYPES : Nat := 256
def NR_MAX_STATS_TYPE_NAME : Nat := 26
def NR_MAX_STATS_NAME : Nat := NR_MAX_STATS_TYPE_NAME * 3
def NR_MAX_STATS_SHMS : Nat := 64
def PATH_MAX : Nat := 4096

/-! ## The layout -/

/-- `offsetof(wrapper, libname)` -/
def libnameOffset : Nat := NR_MAX_STATS_NAME
/-- `offsetof(wrapper, size)`, a multiple of 4. -/
def sizeOffset : Nat := 4176
/-- `offsetof(wrapper, buffer)`, a multiple of 8. -/
def bufferOffset : Nat := 4184
/-- `sizeof(wrapper)` -/
def wrapperSize : Nat := 4192
/-- Behind `shm_info`. -/
def FIRSTWRAPPER : Int := 4

/-- `shminfo->nshms` -/
def nshms (shm : Mem) : UInt32 := shm.read32 0

/-- `header->size`, an `int` converted to `size_t`. -/
def sizeT (size : UInt32) : Nat :=
  if size.toNat < 2 ^ 31 then size.toNat else 2 ^ 64 - 2 ^ 32 + size.toNat

def NEXTWRAPPER (shm : Mem) (header : Int) : Int :=
  let n := 2 + sizeT (shm.read32 (header + sizeOffset)) / wrapperSize
  header + Int.bmod (wrapperSize * n : Nat) (2 ^ 64)

/-- The string at an address, if it ends within `n` bytes. -/
def cstr (shm : Mem) (a : Int) (n : Nat) : Option Bytes :=
  if 0 ∈ shm.read a n then some ((shm.read a n).takeWhile (· ≠ 0)) else none

/-- The bytes are in the segment. -/
def Mapped (a : Int) (n : Nat) : Prop := 0 ≤ a ∧ a + n ≤ MAX_NR_STATS_SIZE

instance (a : Int) (n : Nat) : Decidable (Mapped a n) := inferInstanceAs (Decidable (_ ∧ _))

/-- Writes to the segment, or faults. -/
def store (shm : Mem) (a : Int) (bytes : Bytes) : Option Mem :=
  if Mapped a bytes.length then some (shm.write a bytes) else none

/-- What `strncpy` writes, for the bytes of a string. -/
def strncpy (src : Bytes) (n : Nat) : Bytes := src.take n ++ List.replicate (n - src.length) 0

/-! ## Records -/

/-- The loop of `find_stats`, for `n` records from `header` on. -/
def find_loop (shm : Mem) (name : Bytes) : Nat → Int → Option Int
  | 0, _ => none
  | n + 1, header =>
    if cstr shm header NR_MAX_STATS_NAME = some name then some header
    else find_loop shm name n (NEXTWRAPPER shm header)

def find_stats (shm : Mem) (name : Bytes) : Option Int := find_loop shm name (nshms shm).toNat FIRSTWRAPPER

/-- The loop of `find_free_wrapper`. -/
def walk (shm : Mem) : Nat → Int → Int
  | 0, header => header
  | n + 1, header => walk shm n (NEXTWRAPPER shm header)

def find_free_wrapper (shm : Mem) : Int := walk shm (nshms shm).toNat FIRSTWRAPPER

def alloc_stats (shm : Mem) (name : Bytes) (libname : Option Bytes) (size : UInt32) :
    Option (Except Status Int × Mem) :=
  if (nshms shm).toNat ≥ NR_MAX_STATS_SHMS then some (.error .R_NO_MEMORY, shm)
  else
    let header := find_free_wrapper shm
    if header > MAX_NR_STATS_SIZE then some (.error .R_NO_MEMORY, shm)
    else do
      let shm ← store shm header (strncpy name NR_MAX_STATS_NAME)
      let shm ← store shm (header + libnameOffset) (match libname with
        | some libname => strncpy libname PATH_MAX
        | none => [0])
      let shm ← store shm (header + sizeOffset) (le32 size)
      let shm ← store shm 0 (le32 (nshms shm + 1))
      some (.ok header, shm)

/-- A string that does not end within `name` is not the name of a record. -/
def sanity_check (shm : Mem) (stats : Int) : Status :=
  let header := stats - bufferOffset
  match cstr shm header NR_MAX_STATS_NAME with
  | none => .R_BAD_ARGS
  | some name => if find_stats shm name = some header then .ok else .R_BAD_ARGS

/-! ## The public function -/

structure NR_stats_type where
  name : Bytes
  /-- What `get_lib_name` returns, if there is one. -/
  get_lib_name : Option (Except Status (Option Bytes))
  size : UInt32

structure Process where
  app : Option Bytes
  shm : Mem
  types : List NR_stats_type
  /-- Not part of the program: the name and size of each record, in order. -/
  recs : List (Bytes × UInt32)

/-- `snprintf` is given one byte less than the array has. -/
def compute_name (app : Bytes) (module_name : Option Bytes) (type_name : Bytes) : Except Status Bytes :=
  let text := match module_name with
    | some module_name => app ++ str "." ++ module_name ++ str "." ++ type_name
    | none => app ++ str "." ++ type_name
  if text.length ≥ NR_MAX_STATS_NAME then .error .R_BAD_ARGS else .ok (text.take (NR_MAX_STATS_NAME - 2))

def find_type_index (types : List NR_stats_type) (type_name : Bytes) : Option Nat :=
  types.findIdx? fun type => type.name = type_name

def register_type (types : List NR_stats_type) (type : NR_stats_type) : Except Status (List NR_stats_type) :=
  match find_type_index types type.name with
  | none => if types.length ≥ NR_MAX_STATS_TYPES then .error .R_NO_MEMORY else .ok (types ++ [type])
  | some i => .ok (types.set i type)

/-- The address handed out; a failed assertion does not return. -/
def handOut (s : Process) (header : Int) : Option (Except Status Int × Process) :=
  if sanity_check s.shm (header + bufferOffset) = .ok then some (.ok (header + bufferOffset), s) else none

/-- `NR_stats_get`; `create` is `flag & NR_STATS_CREATE`. -/
def NR_stats_get (s : Process) (module_name : Option Bytes) (type : NR_stats_type) (create : Bool) :
    Option (Except Status Int × Process) :=
  match s.app with
  | none => some (.error .R_FAILED, s)
  | some app =>
    match register_type s.types type with
    | .error r => some (.error r, s)
    | .ok types =>
      let s := { s with types }
      match compute_name app module_name type.name with
      | .error r => some (.error r, s)
      | .ok name =>
        match find_stats s.shm name with
        | some header => handOut s header
        | none =>
          if create then
            match type.get_lib_name.getD (.ok (some [])) with
            | .error r => some (.error r, s)
            | .ok libname =>
              match alloc_stats s.shm name libname type.size with
              | none => none
              | some (.error r, shm) => some (.error r, { s with shm })
              | some (.ok header, shm) => handOut { s with shm, recs := s.recs ++ [(name, type.size)] } header
          else some (.error .R_NOT_FOUND, s)

end Nrappkit.Stats
