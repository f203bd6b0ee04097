import Nrappkit.Event.Pool
import Nrappkit.Lib.Queue
/-!
# The event loop and the timers

`async_wait.c` as it is built without `USE_EPOLL` and `WIN32`, and
`async_timer.c`, after `NR_async_timer_init`. A queue is the list of the
records it links.

`NR_async_event_wait2` and `NR_async_timer_update_time` call back into client
code, which may call every other function. They are cut at the points where
they test a loop or call a callback: what such a call keeps in its local
variables is its `frame`, and `loop_step` and `timer_step` carry it to the next
cut. A step from a frame `call` is the return of the callback.

The log is not part of the program: it records the calls and what they do.
-/
open Lib

namespace Nrappkit.Event

def SOCKET_VEC_SIZE : Nat := 20000
def ASYNC_WAIT_TYPES : Nat := 2
def WHEEL_SIZE : Nat := 4096
def INT_MAX : Int := 2 ^ 31 - 1

/-- A use of a callback record: the function and argument it was created with. -/
structure Use where
  serial : Nat
  cb : UInt64
  arg : UInt64
  deriving DecidableEq

def callback.use (c : callback) : Use := ⟨c.serial, c.cb, c.arg⟩

inductive Ev where
  /-- `NR_async_wait` stored a callback for a socket and direction. -/
  | registered (x : Use) (sock how : Nat)
  /-- `NR_async_cancel` returned 0. -/
  | cancelled (sock how : Nat)
  | scheduled (x : Use)
  /-- `NR_async_event_wait2` starts on a batch, with what `select` reported. -/
  | polled (fd_read fd_write : List Nat)
  | fired (x : Use)
  /-- `NR_async_event_wait2` returned 0. -/
  | returned
  /-- `NR_async_timer_set`, with the time the timer is due and its handle. -/
  | timerSet (x : Use) (due : Nat) (handle : Ptr)
  | timerCancelled (x : Use)
  /-- `NR_async_timer_update_time` computed its new offset. -/
  | updating (new_offset : Nat)
  | timerFired (x : Use)
  /-- `NR_async_timer_update_time` returned. -/
  | updated
  deriving DecidableEq

/-! ## The state -/

/-- The local variables of `NR_async_event_wait2`. -/
inductive LoopFrame where
  | idle
  /-- At the test of the loop. -/
  | head (events : Nat)
  | call (events : Nat) (n2 : Option Ptr)
  deriving DecidableEq

/-- The variables of `async_wait.c`. -/
structure Loop where
  socket_vec : Nat → Nat → Option Ptr
  q_head : List Ptr
  /-- The records `w_q_head` links, without those that were destroyed. -/
  w_q : List Ptr
  w_q_n1 : Option Ptr
  frame : LoopFrame

/-- The local variables of `NR_async_timer_update_time`. -/
inductive TimerFrame where
  | idle
  /-- At the test of the loop over the offsets. -/
  | slot (offset : Nat)
  /-- At the test of the loop over a slot. -/
  | walk (offset : Nat) (cb : Option Ptr)
  | call (offset : Nat) (cb : Ptr) (cb2 : Option Ptr)
  /-- At the test of the loop that purges a slot. -/
  | purge (offset : Nat) (cb : Option Ptr)
  deriving DecidableEq

/-- The variables of `async_timer.c`. -/
structure Wheel where
  callwheel : Nat → List Ptr
  first_time : timeval
  current_offset : Nat
  working_entry : Option Nat
  pending_deactivates : Bool
  timers_set : Int
  frame : TimerFrame

structure Async where
  pool : Pool
  loop : Loop
  wheel : Wheel
  log : List Ev

/-- After `NR_async_timer_init`, with nothing allocated yet. -/
def initial : Async where
  pool := { recs := fun _ => ⟨0, 0, 0, 0, none, 0⟩, brk := 0, free_q := [], serial := 0 }
  loop := { socket_vec := fun _ _ => none, q_head := [], w_q := [], w_q_n1 := none, frame := .idle }
  wheel := { callwheel := fun _ => [], first_time := ⟨0, 0⟩, current_offset := 0, working_entry := none
             pending_deactivates := false, timers_set := 0, frame := .idle }
  log := []

/-! ## Waiting and scheduling -/

/-- The slot of `socket_vec`, or the error for the arguments; a negative `how`
is not checked and indexes outside the array. -/
def slotOf (sock how : Int) : Option (Except Status (Nat × Nat)) :=
  if sock < 0 then some (.error .R_BAD_ARGS)
  else if sock ≥ SOCKET_VEC_SIZE then some (.error .R_BAD_ARGS)
  else if how ≥ ASYNC_WAIT_TYPES then some (.error .R_BAD_ARGS)
  else if how < 0 then none
  else some (.ok (sock.toNat, how.toNat))

/-- Store a pointer in a slot of `socket_vec`. -/
def Loop.setSlot (l : Loop) (sock how : Nat) (p : Option Ptr) : Loop :=
  { l with socket_vec := Function.update l.socket_vec sock (Function.update (l.socket_vec sock) how p) }

/-- Destroy the record in a slot of `socket_vec`, if there is one. -/
def clearSlot (s : Async) (sock how : Nat) : Async :=
  match s.loop.socket_vec sock how with
  | none => s
  | some c => { s with pool := s.pool.nr_async_destroy_cb c, loop := s.loop.setSlot sock how none }

def NR_async_wait (s : Async) (sock how : Int) (cb cb_arg : UInt64) : Option (Status × Async) :=
  match slotOf sock how with
  | none => none
  | some (.error r) => some (r, s)
  | some (.ok (i, j)) =>
    let s := clearSlot s i j
    let (cbb, pool) := s.pool.nr_async_create_cb cb cb_arg how sock
    some (.ok, { s with
      pool
      loop := s.loop.setSlot i j (some cbb)
      log := s.log ++ [.registered (pool.recs cbb).use i j] })

/-- The first record behind `w_q_n1` that waits for the socket and direction. -/
def queuedFor (s : Async) (sock how : Int) : Option Ptr :=
  s.loop.w_q_n1.bind fun n1 =>
    (after n1 s.loop.w_q).find? fun c => (s.pool.recs c).resource = sock ∧ (s.pool.recs c).how = how

def NR_async_cancel (s : Async) (sock how : Int) : Option (Status × Async) :=
  match slotOf sock how with
  | none => none
  | some (.error r) => some (r, s)
  | some (.ok (i, j)) =>
    let s := clearSlot s i j
    -- Also cancel anything queued
    let pool := match queuedFor s sock how with
      | none => s.pool
      | some c => s.pool.write c fun c => { c with cb := 0 }
    some (.ok, { s with pool, log := s.log ++ [.cancelled i j] })

def NR_async_schedule (s : Async) (cb cb_arg : UInt64) : Option (Status × Async) :=
  let (cbb, pool) := s.pool.nr_async_create_cb cb cb_arg (-1) (-1)
  some (.ok, { s with
    pool
    loop := { s.loop with q_head := s.loop.q_head ++ [cbb] }
    log := s.log ++ [.scheduled (pool.recs cbb).use] })

/-! ## The event loop -/

/-- What `select` returned, with the two sets it left and, on an error, whether
`errno` is `EINTR`. -/
structure Select where
  r : Int
  fd_read : List Nat
  fd_write : List Nat
  eintr : Bool

/-- The descriptor is set in the set for the direction. -/
def FD_ISSET (sock how : Nat) (fd_read fd_write : List Nat) : Bool :=
  if how = 0 then sock ∈ fd_read else sock ∈ fd_write

/-- The last socket with a callback. -/
def maxfd (l : Loop) : Option Nat :=
  (List.range SOCKET_VEC_SIZE).foldl
    (fun m i => if (l.socket_vec i 0).isSome ∨ (l.socket_vec i 1).isSome then some i else m) none

/-- Move the callback of a slot to the queue if its descriptor is set. -/
def enqueue (fd_read fd_write : List Nat) (sock how : Nat) (l : Loop) : Loop :=
  match l.socket_vec sock how with
  | none => l
  | some c =>
    if FD_ISSET sock how fd_read fd_write then { l.setSlot sock how none with q_head := l.q_head ++ [c] } else l

/-- The callbacks to fire, for the sockets below `n`. -/
def collect (fd_read fd_write : List Nat) (n : Nat) (l : Loop) : Loop :=
  (List.range n).foldl (fun l i => enqueue fd_read fd_write i 1 (enqueue fd_read fd_write i 0 l)) l

/-- The queue becomes the batch, and the walk starts. -/
def startBatch (s : Async) (l : Loop) (fd_read fd_write : List Nat) : Async :=
  { s with
    loop := { l with q_head := [], w_q := l.q_head, w_q_n1 := l.q_head.head?, frame := .head 0 }
    log := s.log ++ [.polled fd_read fd_write] }

/-- `NR_async_event_wait2` up to the test of its loop. -/
def NR_async_event_wait2 (s : Async) (tv : Option timeval) (sel : Select) : Status × Async :=
  match maxfd s.loop with
  | none =>
    -- Hibernating with no callbacks scheduled is nuts!
    if s.loop.q_head = [] then (.R_EOD, s) else (.ok, startBatch s s.loop [] [])
  | some m =>
    if sel.r = 0 ∧ s.loop.q_head = [] ∧ tv.any (fun tv => tv.tv_sec ≠ 0 ∨ tv.tv_usec ≠ 0) then (.R_WOULDBLOCK, s)
    else if sel.r < 0 ∧ ¬ sel.eintr then (.R_INTERNAL, s)
    else if sel.r > 0 then
      (.ok, startBatch s (collect sel.fd_read sel.fd_write (m + 1) s.loop) sel.fd_read sel.fd_write)
    else (.ok, startBatch s s.loop [] [])

/-- The callback of `w_q_n1` is done with. -/
def finishCallback (s : Async) (n1 : Ptr) (events : Nat) (n2 : Option Ptr) : Async :=
  { s with
    pool := s.pool.nr_async_destroy_cb n1
    loop := { s.loop with w_q := s.loop.w_q.erase n1, w_q_n1 := n2, frame := .head events } }

/-- `NR_async_event_wait2` goes on. -/
def loop_step (s : Async) : Option (Status × Async) :=
  match s.loop.frame, s.loop.w_q_n1 with
  | .idle, _ => none
  | .head _, none => some (.ok, { s with loop := { s.loop with frame := .idle }, log := s.log ++ [.returned] })
  | .head events, some n1 =>
    let n2 := nextOf s.loop.w_q n1
    if (s.pool.recs n1).cb ≠ 0 then
      some (.ok, { s with
        loop := { s.loop with frame := .call (events + 1) n2 }
        log := s.log ++ [.fired (s.pool.recs n1).use] })
    else some (.ok, finishCallback s n1 (events + 1) n2)
  | .call events n2, some n1 => some (.ok, finishCallback s n1 events n2)
  | .call _ _, none => none

/-! ## Timers -/

/-- `current_offset+off`, an unsigned 64-bit sum. -/
def dueOffset (current_offset : Nat) (delay_ms : Int) : Nat :=
  toUINT8 (current_offset + if delay_ms = 0 then 1 else delay_ms)

def NR_async_timer_set (s : Async) (delay_ms : Int) (cb cb_arg : UInt64) : Option (Status × Async) :=
  let due := dueOffset s.wheel.current_offset delay_ms
  let (cbb, pool) := s.pool.nr_async_create_cb cb cb_arg (-1) (toInt due)
  let queue := due % WHEEL_SIZE
  -- timers_set++
  if s.wheel.timers_set = INT_MAX then none
  else some (.ok, { s with
    pool := pool.write cbb fun c => { c with backptr := some queue }
    wheel := { s.wheel with
      callwheel := Function.update s.wheel.callwheel queue (s.wheel.callwheel queue ++ [cbb])
      timers_set := s.wheel.timers_set + 1 }
    log := s.log ++ [.timerSet (pool.recs cbb).use due cbb] })

/-- Take a record out of a slot of the wheel and destroy it. -/
def Async.removeTimer (s : Async) (slot : Nat) (cb : Ptr) : Async :=
  { s with
    pool := s.pool.nr_async_destroy_cb cb
    wheel := { s.wheel with
      callwheel := Function.update s.wheel.callwheel slot ((s.wheel.callwheel slot).erase cb)
      timers_set := s.wheel.timers_set - 1 } }

def NR_async_timer_cancel (s : Async) (cb : Ptr) : Option (Status × Async) :=
  let c := s.pool.recs cb
  -- Self-cancellation
  if c.cb = 0 then some (.ok, s)
  else match c.backptr with
    | none => none
    | some slot =>
      if s.wheel.working_entry = some slot then
        -- Just mark the entry as deleted
        some (.ok, { s with
          pool := s.pool.write cb fun c => { c with cb := 0 }
          wheel := { s.wheel with pending_deactivates := true }
          log := s.log ++ [.timerCancelled c.use] })
      else
        let s' := s.removeTimer slot cb
        some (.ok, { s' with log := s'.log ++ [.timerCancelled c.use] })

/-- The offset for a time, in milliseconds since `first_time`. -/
def offsetAt (first_time tv : timeval) : Except Status Nat :=
  (r_timeval_diff tv first_time).map fun diff => r_timeval2int diff / 1000

/-- `NR_async_timer_update_time` up to the test of its loop. -/
def NR_async_timer_update_time (s : Async) (tv : timeval) : Status × Async :=
  if s.wheel.first_time.tv_sec = 0 then (.ok, { s with wheel := { s.wheel with first_time := tv } })
  else match offsetAt s.wheel.first_time tv with
    | .error r => (r, s)
    | .ok new_offset =>
      -- time must go forward
      if new_offset < s.wheel.current_offset then (.ok, { s with log := s.log ++ [.updating new_offset, .updated] })
      else (.ok, { s with
        wheel := { s.wheel with current_offset := new_offset, frame := .slot (s.wheel.current_offset + 1) }
        log := s.log ++ [.updating new_offset] })

/-- `cb->resource <= current_offset`, compared as unsigned 64-bit integers. -/
def isDue (c : callback) (current_offset : Nat) : Bool := toUINT8 c.resource ≤ current_offset

def Async.atFrame (s : Async) (frame : TimerFrame) : Async := { s with wheel := { s.wheel with frame } }

/-- `NR_async_timer_update_time` goes on. -/
def timer_step (s : Async) : Option (Status × Async) :=
  match s.wheel.frame with
  | .idle => none
  | .slot offset =>
    if offset ≤ s.wheel.current_offset then
      some (.ok, { s with wheel := { s.wheel with
        working_entry := some (offset % WHEEL_SIZE)
        pending_deactivates := false
        frame := .walk offset (s.wheel.callwheel (offset % WHEEL_SIZE)).head? } })
    else some (.ok, { s with
      wheel := { s.wheel with working_entry := none, frame := .idle }
      log := s.log ++ [.updated] })
  | .walk offset none =>
    if s.wheel.pending_deactivates then
      some (.ok, s.atFrame (.purge offset (s.wheel.callwheel (offset % WHEEL_SIZE)).head?))
    else some (.ok, s.atFrame (.slot (offset + 1)))
  | .walk offset (some cb) =>
    let cb2 := nextOf (s.wheel.callwheel (offset % WHEEL_SIZE)) cb
    let c := s.pool.recs cb
    if isDue c s.wheel.current_offset then
      -- If the cb val is 0 the callback was cancelled
      if c.cb ≠ 0 then
        let s' := s.atFrame (.call offset cb cb2)
        some (.ok, { s' with
          pool := s.pool.write cb fun c => { c with cb := 0 }
          log := s.log ++ [.timerFired c.use] })
      else some (.ok, (s.removeTimer (offset % WHEEL_SIZE) cb).atFrame (.walk offset cb2))
    else some (.ok, s.atFrame (.walk offset cb2))
  | .call offset cb cb2 => some (.ok, (s.removeTimer (offset % WHEEL_SIZE) cb).atFrame (.walk offset cb2))
  | .purge offset none => some (.ok, s.atFrame (.slot (offset + 1)))
  | .purge offset (some cb) =>
    let cb2 := nextOf (s.wheel.callwheel (offset % WHEEL_SIZE)) cb
    -- If the cb pointer is zero, it's been deactivated
    if (s.pool.recs cb).cb = 0 then
      some (.ok, (s.removeTimer (offset % WHEEL_SIZE) cb).atFrame (.purge offset cb2))
    else some (.ok, s.atFrame (.purge offset cb2))

end Nrappkit.Event
