import Nrappkit.Event.Time
/-!
# Callback records

The pool of callback records that `async_wait.c` and `async_timer.c` share. A
record that is destroyed goes to the end of the free queue and is handed out
again; it is never given back to `malloc`, so a stale pointer still reads a
record. The `func` and `line` of a record are only for messages and are left
out.
-/
open Lib

namespace Nrappkit.Event

/-- Conversion to a 32-bit `int`. -/
def toInt (n : Nat) : Int := (n : Int).bmod (2 ^ 32)

/-! ## Callback records -/

/-- A callback record. `cb` is a function, 0 for none; `backptr` the slot of
the wheel it names. `serial` is no field of the C struct: it numbers the
records in the order `nr_async_create_cb` returned them, so that two uses of
one record can be told apart. -/
structure callback where
  cb : UInt64
  arg : UInt64
  how : Int
  resource : Int
  backptr : Option Nat
  serial : Nat
  deriving DecidableEq

structure Pool where
  recs : Ptr → callback
  /-- The next address `RMALLOC` hands out. -/
  brk : Ptr
  free_q : List Ptr
  serial : Nat

namespace Pool

/-- Fill in a record. The `backptr` is left as it was. -/
def fill (pool : Pool) (p : Ptr) (cb arg : UInt64) (how resource : Int) : callback :=
  { pool.recs p with cb, arg, how, resource, serial := pool.serial }

def nr_async_create_cb (pool : Pool) (cb arg : UInt64) (how resource : Int) : Ptr × Pool :=
  match pool.free_q with
  | [] => (pool.brk, { pool with
      recs := Function.update pool.recs pool.brk (pool.fill pool.brk cb arg how resource)
      brk := pool.brk + 1
      serial := pool.serial + 1 })
  | cbb :: free_q => (cbb, { pool with
      recs := Function.update pool.recs cbb (pool.fill cbb cb arg how resource)
      free_q
      serial := pool.serial + 1 })

def nr_async_destroy_cb (pool : Pool) (cb : Ptr) : Pool := { pool with free_q := pool.free_q ++ [cb] }

/-- Write a record. -/
def write (pool : Pool) (p : Ptr) (f : callback → callback) : Pool :=
  { pool with recs := Function.update pool.recs p (f (pool.recs p)) }

end Pool

end Nrappkit.Event
