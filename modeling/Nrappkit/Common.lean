import Mathlib.Algebra.Group.Int.Defs
import Mathlib.Algebra.Group.Nat.Defs
import Nrappkit.Lib.Heap
/-!
# Return codes and byte strings

The conventions every module of the model shares. A C function that may read
released memory, or loop on a broken structure, is a Lean function into
`Option`; `none` is that undefined run. The `int` it returns is a `Status`.
-/

namespace Nrappkit

/-- The return codes of `r_errors.h`; `ok` is `0`. -/
inductive Status where
  | ok
  | R_NO_MEMORY
  | R_NOT_FOUND
  | R_INTERNAL
  | R_ALREADY
  | R_EOD
  | R_BAD_ARGS
  | R_BAD_DATA
  | R_WOULDBLOCK
  | R_QUEUED
  | R_FAILED
  | R_REJECTED
  | R_INTERRUPTED
  | R_IO_ERROR
  | R_NOT_PERMITTED
  | R_RETRY
  deriving DecidableEq, Repr

/-- Bytes. A C string is the list of its bytes before the terminator. -/
abbrev Bytes := List UInt8

/-- The bytes of an ASCII literal. -/
def str (s : String) : Bytes := s.toList.map fun c => UInt8.ofNat c.toNat

/-- The address of a function. -/
abbrev FnPtr := Nat

end Nrappkit
