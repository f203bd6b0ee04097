import Nrappkit.Event.Async
import Nrappkit.Lib.Runs
/-!
# Runs of the event system

The inputs of the machine are the calls of client code, made from outside or
from inside a callback, and the steps of the two functions that call back.
Neither of the two is nested in itself; either may be nested in the other, and
since the model does not keep track of which is the inner one it lets both go
on.

`Owned` says that no callback record is in two places.
-/
open Lib

namespace Nrappkit.Event

inductive Op where
  | wait (sock how : Int) (cb cb_arg : UInt64)
  | cancel (sock how : Int)
  | schedule (cb cb_arg : UInt64)
  | event_wait2 (tv : Option timeval) (sel : Select)
  | loop
  | timer_set (delay_ms : Int) (cb cb_arg : UInt64)
  | timer_cancel (handle : Ptr)
  | update_time (tv : timeval)
  | timer

def step (s : Async) : Op → Option (Status × Async)
  | .wait sock how cb cb_arg => NR_async_wait s sock how cb cb_arg
  | .cancel sock how => NR_async_cancel s sock how
  | .schedule cb cb_arg => NR_async_schedule s cb cb_arg
  | .event_wait2 tv sel => some (NR_async_event_wait2 s tv sel)
  | .loop => loop_step s
  | .timer_set delay_ms cb cb_arg => NR_async_timer_set s delay_ms cb cb_arg
  | .timer_cancel handle => NR_async_timer_cancel s handle
  | .update_time tv => some (NR_async_timer_update_time s tv)
  | .timer => timer_step s

/-! ## What clients may do -/

def LoopFrame.inClient : LoopFrame → Bool
  | .head _ => false
  | _ => true

def TimerFrame.inClient : TimerFrame → Bool
  | .idle | .call .. => true
  | _ => false

theorem TimerFrame.client_cases {f : TimerFrame} (h : f.inClient = true) : f = .idle ∨ ∃ o p cb2, f = .call o p cb2 := by
  cases f with
  | idle => exact .inl rfl
  | call o p cb2 => exact .inr ⟨o, p, cb2, rfl⟩
  | slot o => cases h
  | walk o cb => cases h
  | purge o cb => cases h

/-- Client code is running: outside, or in a callback. -/
def Async.inClient (s : Async) : Bool := s.loop.frame.inClient && s.wheel.frame.inClient

/-- The handle of a timer whose callback has not been called and which has not
been cancelled. -/
def Async.liveHandle (s : Async) (h : Ptr) : Bool :=
  s.log.any fun
    | .timerSet x _ h' =>
      h' = h && x.cb ≠ 0 && !s.log.contains (.timerFired x) && !s.log.contains (.timerCancelled x)
    | _ => false

/-- The handle of the timer whose callback is running. -/
def Async.runningHandle (s : Async) (h : Ptr) : Bool :=
  match s.wheel.frame with
  | .call _ cb _ => cb = h
  | _ => false

/-- The calls clients make: sockets below `FD_SETSIZE` and a direction; a delay
that is not negative, a callback that is not null and a due offset that fits an
`int`; handles of live timers; normalized times, the first after the epoch; and
no nesting. -/
def Allowed (s : Async) : Op → Bool
  | .wait sock how _ _ => s.inClient && 0 ≤ sock && sock < 1024 && 0 ≤ how && how < 2
  | .cancel sock how => s.inClient && 0 ≤ sock && sock < 1024 && 0 ≤ how && how < 2
  | .schedule _ _ => s.inClient
  | .event_wait2 _ _ => s.inClient && s.loop.frame = .idle
  | .loop => true
  | .timer_set delay_ms cb _ =>
    s.inClient && 0 ≤ delay_ms && cb ≠ 0 && s.wheel.current_offset + max delay_ms 1 < 2 ^ 31
  | .timer_cancel handle => s.inClient && (s.liveHandle handle || s.runningHandle handle)
  | .update_time tv =>
    s.inClient && s.wheel.frame = .idle && tv.normalized && (s.wheel.first_time.tv_sec ≠ 0 || tv.tv_sec ≠ 0)
  | .timer => true

/-- The calls clients make, whatever the sockets, delays and times: handles are
those of live timers, and neither walk is nested in itself. -/
def Permitted (s : Async) : Op → Bool
  | .wait _ _ _ _ | .cancel _ _ | .schedule _ _ | .timer_set _ _ _ => s.inClient
  | .event_wait2 _ _ => s.inClient && s.loop.frame = .idle
  | .timer_cancel handle => s.inClient && (s.liveHandle handle || s.runningHandle handle)
  | .update_time _ => s.inClient && s.wheel.frame = .idle
  | .loop | .timer => true

/-! ## Where a record is -/

inductive Place where
  | fresh
  | free
  | slot (sock how : Nat)
  | queued
  | working
  | wheel (i : Nat)

def Holds (s : Async) : Place → Ptr → Prop
  | .fresh, p => s.pool.brk ≤ p
  | .free, p => p ∈ s.pool.free_q
  | .slot i j, p => s.loop.socket_vec i j = some p
  | .queued, p => p ∈ s.loop.q_head
  | .working, p => p ∈ s.loop.w_q
  | .wheel i, p => p ∈ s.wheel.callwheel i

structure Owned (s : Async) : Prop where
  one : ∀ p P Q, Holds s P p → Holds s Q p → P = Q
  free : s.pool.free_q.Nodup
  queued : s.loop.q_head.Nodup
  working : s.loop.w_q.Nodup
  wheel : ∀ i, (s.wheel.callwheel i).Nodup

/-- A record moves, and everything else stays. -/
theorem Owned.move {s s' : Async} (h : Owned s) (p : Ptr) (P : Place)
    (hm : ∀ Q q, Holds s' Q q → q = p ∧ Q = P ∨ q ≠ p ∧ Holds s Q q) (hf : s'.pool.free_q.Nodup)
    (hq : s'.loop.q_head.Nodup) (hw : s'.loop.w_q.Nodup) (ht : ∀ i, (s'.wheel.callwheel i).Nodup) : Owned s' := by
  refine ⟨fun q Q Q' hQ hQ' => ?_, hf, hq, hw, ht⟩
  rcases hm Q q hQ with ⟨rfl, rfl⟩ | ⟨hne, hold⟩
  · rcases hm Q' q hQ' with ⟨-, rfl⟩ | ⟨hne, -⟩
    · rfl
    · exact absurd rfl hne
  · rcases hm Q' q hQ' with ⟨heq, -⟩ | ⟨-, hold'⟩
    · exact absurd heq hne
    · exact h.one q Q Q' hold hold'

/-- A record in one place is not in another. -/
theorem Owned.apart {s : Async} (h : Owned s) {P Q : Place} {p q : Ptr} (hp : Holds s P p) (hq : Holds s Q q)
    (hne : P ≠ Q) : q ≠ p := by
  rintro rfl
  exact hne (h.one q P Q hp hq)

/-! ## The pool -/

/-- What `nr_async_create_cb` returns: a record that was free or fresh, filled
in, and the pool without it. -/
structure Pool.Creates (pool : Pool) (cb arg : UInt64) (how resource : Int) (p : Ptr) (pool' : Pool) : Prop where
  recs : pool'.recs = Function.update pool.recs p (pool.fill p cb arg how resource)
  serial : pool'.serial = pool.serial + 1
  was : p ∈ pool.free_q ∨ pool.brk ≤ p
  free : ∀ q ∈ pool'.free_q, q ∈ pool.free_q
  brk : pool.brk ≤ pool'.brk
  sub : pool'.free_q.Sublist pool.free_q
  gone : pool.free_q.Nodup → (∀ q ∈ pool.free_q, q < pool.brk) → p ∉ pool'.free_q ∧ p < pool'.brk

theorem Pool.creates (pool : Pool) (cb arg : UInt64) (how resource : Int) :
    pool.Creates cb arg how resource (pool.nr_async_create_cb cb arg how resource).1
      (pool.nr_async_create_cb cb arg how resource).2 := by
  unfold nr_async_create_cb
  split
  · rename_i hnil
    refine ⟨rfl, rfl, .inr (Nat.le_refl _), fun q hq => hq, Nat.le_succ _, List.Sublist.refl _, fun _ _ => ⟨?_, ?_⟩⟩
    · simp [hnil]
    · exact Nat.lt_succ_self _
  · rename_i cbb free_q hcons
    refine ⟨rfl, rfl, .inl (by simp [hcons]), fun q hq => by simp only [hcons]; exact List.mem_cons_of_mem _ hq,
      Nat.le_refl _, by simp only [hcons]; exact List.sublist_cons_self .., fun hnd hlt => ⟨?_, ?_⟩⟩
    · rw [hcons] at hnd
      exact (List.nodup_cons.1 hnd).1
    · exact hlt cbb (by simp [hcons])

section
variable {s : Async} {p : Ptr} {pool' : Pool} {cb arg : UInt64} {how resource : Int}

theorem Owned.free_lt (h : Owned s) {q : Ptr} (hq : q ∈ s.pool.free_q) : q < s.pool.brk := by
  by_contra hge
  have hfresh : Holds s .fresh q := Nat.le_of_not_lt hge
  cases h.one q .fresh .free hfresh hq

/-- A record that was created is in no place but those of the new pool, and
not there either. -/
theorem Owned.created_apart (h : Owned s) (hc : s.pool.Creates cb arg how resource p pool') {P : Place} {q : Ptr}
    (hq : Holds s P q) (hfree : P ≠ .free) (hfresh : P ≠ .fresh) : q ≠ p := by
  rcases hc.was with hp | hp
  · exact h.apart (show Holds s .free p from hp) hq (Ne.symm hfree)
  · exact h.apart (show Holds s .fresh p from hp) hq (Ne.symm hfresh)

theorem Owned.created_pool (h : Owned s) (hc : s.pool.Creates cb arg how resource p pool') :
    pool'.free_q.Nodup ∧ (∀ q ∈ pool'.free_q, q ≠ p ∧ q ∈ s.pool.free_q) ∧
      ∀ q, pool'.brk ≤ q → q ≠ p ∧ s.pool.brk ≤ q := by
  obtain ⟨hnot, hlt⟩ := hc.gone h.free fun q hq => h.free_lt hq
  refine ⟨h.free.sublist hc.sub, fun q hq => ⟨?_, hc.free q hq⟩, fun q hq => ⟨?_, Nat.le_trans hc.brk hq⟩⟩
  · rintro rfl
    exact hnot hq
  · rintro rfl
    exact absurd hlt (Nat.not_lt.2 hq)

end

/-! ## What the calls do -/

section
variable {s s' : Async} {r : Status}

/-- The arguments name a slot, or the call is refused. -/
theorem slotOf_ok {sock how : Int} {i j : Nat} (h : slotOf sock how = some (.ok (i, j))) :
    sock = i ∧ how = j ∧ i < SOCKET_VEC_SIZE ∧ j < ASYNC_WAIT_TYPES := by
  unfold slotOf at h
  split at h
  · cases h
  split at h
  · cases h
  split at h
  · cases h
  split at h
  · cases h
  · cases h
    omega

/-- `NR_async_wait` is refused, or replaces what the slot holds. -/
theorem wait_cases {sock how : Int} {cb cb_arg : UInt64} (hst : NR_async_wait s sock how cb cb_arg = some (r, s')) :
    s' = s ∨ ∃ i j p pool', sock = (i : Nat) ∧ how = (j : Nat) ∧ i < SOCKET_VEC_SIZE ∧ j < ASYNC_WAIT_TYPES ∧
      (clearSlot s i j).pool.Creates cb cb_arg how sock p pool' ∧
      s' = { clearSlot s i j with
        pool := pool'
        loop := (clearSlot s i j).loop.setSlot i j (some p)
        log := (clearSlot s i j).log ++ [.registered (pool'.recs p).use i j] } := by
  unfold NR_async_wait at hst
  split at hst
  · cases hst
  · cases hst
    exact .inl rfl
  · rename_i i j hij
    obtain ⟨hi, hj, hin, hjn⟩ := slotOf_ok hij
    cases hst
    exact .inr ⟨i, j, _, _, hi, hj, hin, hjn, (clearSlot s i j).pool.creates cb cb_arg how sock, rfl⟩

/-- `NR_async_cancel` is refused, or empties the slot and takes the callback
from what is queued. -/
theorem cancel_cases {sock how : Int} (hst : NR_async_cancel s sock how = some (r, s')) :
    s' = s ∨ ∃ i j, sock = (i : Nat) ∧ how = (j : Nat) ∧
      (queuedFor (clearSlot s i j) sock how = none ∧
          s' = { clearSlot s i j with log := (clearSlot s i j).log ++ [.cancelled i j] } ∨
        ∃ c, queuedFor (clearSlot s i j) sock how = some c ∧ s' = { clearSlot s i j with
          pool := (clearSlot s i j).pool.write c fun c => { c with cb := 0 }
          log := (clearSlot s i j).log ++ [.cancelled i j] }) := by
  unfold NR_async_cancel at hst
  split at hst
  · cases hst
  · cases hst
    exact .inl rfl
  · rename_i i j hij
    obtain ⟨hi, hj, -, -⟩ := slotOf_ok hij
    refine .inr ⟨i, j, hi, hj, ?_⟩
    dsimp only at hst
    cases hq : queuedFor (clearSlot s i j) sock how with
    | none =>
      rw [hq] at hst
      cases hst
      exact .inl ⟨rfl, rfl⟩
    | some c =>
      rw [hq] at hst
      cases hst
      exact .inr ⟨c, rfl, rfl⟩

theorem schedule_cases {cb cb_arg : UInt64} (hst : NR_async_schedule s cb cb_arg = some (r, s')) :
    ∃ p pool', s.pool.Creates cb cb_arg (-1) (-1) p pool' ∧ s' = { s with
      pool := pool'
      loop := { s.loop with q_head := s.loop.q_head ++ [p] }
      log := s.log ++ [.scheduled (pool'.recs p).use] } := by
  cases hst
  exact ⟨_, _, s.pool.creates cb cb_arg (-1) (-1), rfl⟩

/-- `NR_async_event_wait2` returns, or starts on a batch: the queue, or the
queue and what `select` reported. -/
theorem event_wait2_cases {tv : Option timeval} {sel : Select} (hst : NR_async_event_wait2 s tv sel = (r, s')) :
    s' = s ∨ s' = startBatch s s.loop [] [] ∨ ∃ m, maxfd s.loop = some m ∧
      s' = startBatch s (collect sel.fd_read sel.fd_write (m + 1) s.loop) sel.fd_read sel.fd_write := by
  unfold NR_async_event_wait2 at hst
  split at hst
  · split at hst
    · cases hst
      exact .inl rfl
    · cases hst
      exact .inr (.inl rfl)
  · rename_i m hm
    split at hst
    · cases hst
      exact .inl rfl
    split at hst
    · cases hst
      exact .inl rfl
    split at hst
    · cases hst
      exact .inr (.inr ⟨m, hm, rfl⟩)
    · cases hst
      exact .inr (.inl rfl)

theorem timer_set_cases {delay_ms : Int} {cb cb_arg : UInt64}
    (hst : NR_async_timer_set s delay_ms cb cb_arg = some (r, s')) :
    ∃ due p pool', due = dueOffset s.wheel.current_offset delay_ms ∧
      s.pool.Creates cb cb_arg (-1) (toInt due) p pool' ∧ s' = { s with
        pool := pool'.write p fun c => { c with backptr := some (due % WHEEL_SIZE) }
        wheel := { s.wheel with
          callwheel := Function.update s.wheel.callwheel (due % WHEEL_SIZE) (s.wheel.callwheel (due % WHEEL_SIZE) ++ [p])
          timers_set := s.wheel.timers_set + 1 }
        log := s.log ++ [.timerSet (pool'.recs p).use due p] } := by
  unfold NR_async_timer_set at hst
  dsimp only at hst
  split at hst
  · cases hst
  · cases hst
    exact ⟨_, _, _, rfl, s.pool.creates cb cb_arg (-1) _, rfl⟩

/-- What a step of the update does. -/
inductive TimerStep (s : Async) : Async → Prop where
  | enter {o : Nat} (hf : s.wheel.frame = .slot o) (hle : o ≤ s.wheel.current_offset) :
    TimerStep s { s with wheel := { s.wheel with
      working_entry := some (o % WHEEL_SIZE)
      pending_deactivates := false
      frame := .walk o (s.wheel.callwheel (o % WHEEL_SIZE)).head? } }
  | finish {o : Nat} (hf : s.wheel.frame = .slot o) (hlt : s.wheel.current_offset < o) :
    TimerStep s { s with
      wheel := { s.wheel with working_entry := none, frame := .idle }
      log := s.log ++ [.updated] }
  | sweep {o : Nat} (hf : s.wheel.frame = .walk o none) (hpend : s.wheel.pending_deactivates = true) :
    TimerStep s (s.atFrame (.purge o (s.wheel.callwheel (o % WHEEL_SIZE)).head?))
  | leave {o : Nat} (hf : s.wheel.frame = .walk o none) (hpend : ¬ s.wheel.pending_deactivates = true) :
    TimerStep s (s.atFrame (.slot (o + 1)))
  | fire {o : Nat} {p : Ptr} (hf : s.wheel.frame = .walk o (some p))
    (hdue : isDue (s.pool.recs p) s.wheel.current_offset = true) (hcb : (s.pool.recs p).cb ≠ 0) :
    TimerStep s { s.atFrame (.call o p (nextOf (s.wheel.callwheel (o % WHEEL_SIZE)) p)) with
      pool := s.pool.write p fun c => { c with cb := 0 }
      log := s.log ++ [.timerFired (s.pool.recs p).use] }
  | drop {o : Nat} {p : Ptr} (hf : s.wheel.frame = .walk o (some p)) (hcb : (s.pool.recs p).cb = 0) :
    TimerStep s ((s.removeTimer (o % WHEEL_SIZE) p).atFrame (.walk o (nextOf (s.wheel.callwheel (o % WHEEL_SIZE)) p)))
  | skip {o : Nat} {p : Ptr} (hf : s.wheel.frame = .walk o (some p))
    (hdue : ¬ isDue (s.pool.recs p) s.wheel.current_offset = true) :
    TimerStep s (s.atFrame (.walk o (nextOf (s.wheel.callwheel (o % WHEEL_SIZE)) p)))
  | resume {o : Nat} {p : Ptr} {cb2 : Option Ptr} (hf : s.wheel.frame = .call o p cb2) :
    TimerStep s ((s.removeTimer (o % WHEEL_SIZE) p).atFrame (.walk o cb2))
  | swept {o : Nat} (hf : s.wheel.frame = .purge o none) : TimerStep s (s.atFrame (.slot (o + 1)))
  | purge {o : Nat} {p : Ptr} (hf : s.wheel.frame = .purge o (some p)) (hcb : (s.pool.recs p).cb = 0) :
    TimerStep s ((s.removeTimer (o % WHEEL_SIZE) p).atFrame (.purge o (nextOf (s.wheel.callwheel (o % WHEEL_SIZE)) p)))
  | keep {o : Nat} {p : Ptr} (hf : s.wheel.frame = .purge o (some p)) (hcb : (s.pool.recs p).cb ≠ 0) :
    TimerStep s (s.atFrame (.purge o (nextOf (s.wheel.callwheel (o % WHEEL_SIZE)) p)))

theorem timer_step_inv (hst : timer_step s = some (r, s')) : TimerStep s s' := by
  unfold timer_step at hst
  split at hst
  · cases hst
  · rename_i o hf
    split at hst
    · rename_i hle
      cases hst
      exact .enter hf hle
    · rename_i hlt
      cases hst
      exact .finish hf (Nat.lt_of_not_le hlt)
  · rename_i o hf
    split at hst
    · rename_i hpend
      cases hst
      exact .sweep hf hpend
    · rename_i hpend
      cases hst
      exact .leave hf hpend
  · rename_i o p hf
    dsimp only at hst
    split at hst
    · rename_i hdue
      split at hst
      · rename_i hcb
        cases hst
        exact .fire hf hdue hcb
      · rename_i hcb
        cases hst
        exact .drop hf (not_not.1 hcb)
    · rename_i hdue
      cases hst
      exact .skip hf hdue
  · rename_i o p cb2 hf
    cases hst
    exact .resume hf
  · rename_i o hf
    cases hst
    exact .swept hf
  · rename_i o p hf
    dsimp only at hst
    split at hst
    · rename_i hcb
      cases hst
      exact .purge hf hcb
    · rename_i hcb
      cases hst
      exact .keep hf hcb

/-- What a step of the update changes besides the wheel: it fires a timer,
returns, or only moves on. -/
theorem timer_step_cases (hst : timer_step s = some (r, s')) :
    s'.loop = s.loop ∧ s'.wheel.current_offset = s.wheel.current_offset ∧ s'.pool.serial = s.pool.serial ∧
      (s'.pool.recs = s.pool.recs ∧ (s'.log = s.log ∨ s'.log = s.log ++ [.updated]) ∨
        ∃ o p, s.wheel.frame = .walk o (some p) ∧ s'.log = s.log ++ [.timerFired (s.pool.recs p).use] ∧
          s'.pool.recs = (s.pool.write p fun c => { c with cb := 0 }).recs) := by
  cases timer_step_inv hst with
  | finish => exact ⟨rfl, rfl, rfl, .inl ⟨rfl, .inr rfl⟩⟩
  | fire hf => exact ⟨rfl, rfl, rfl, .inr ⟨_, _, hf, rfl, rfl⟩⟩
  | enter | sweep | leave | drop | skip | resume | swept | purge | keep => exact ⟨rfl, rfl, rfl, .inl ⟨rfl, .inl rfl⟩⟩

/-- `NR_async_timer_update_time` takes its first time, fails, has no time to
pass, or starts on the wheel. -/
theorem update_time_cases {tv : timeval} (hst : NR_async_timer_update_time s tv = (r, s')) :
    s' = { s with wheel := { s.wheel with first_time := tv } } ∨ s' = s ∨
      ∃ c, offsetAt s.wheel.first_time tv = .ok c ∧
        (c < s.wheel.current_offset ∧ s' = { s with log := s.log ++ [.updating c, .updated] } ∨
          s.wheel.current_offset ≤ c ∧ s' = { s with
            wheel := { s.wheel with current_offset := c, frame := .slot (s.wheel.current_offset + 1) }
            log := s.log ++ [.updating c] }) := by
  unfold NR_async_timer_update_time at hst
  split at hst
  · cases hst
    exact .inl rfl
  split at hst
  · cases hst
    exact .inr (.inl rfl)
  rename_i c hc
  split at hst
  · rename_i hlt
    cases hst
    exact .inr (.inr ⟨c, hc, .inl ⟨hlt, rfl⟩⟩)
  · rename_i hge
    cases hst
    exact .inr (.inr ⟨c, hc, .inr ⟨Nat.le_of_not_lt hge, rfl⟩⟩)

/-- An update that starts on the wheel. -/
theorem update_started {tv : timeval} {c : Nat} (hst : NR_async_timer_update_time s tv = (r, s'))
    (hlog : s'.log = s.log ++ [.updating c]) :
    offsetAt s.wheel.first_time tv = .ok c ∧ s.wheel.current_offset ≤ c ∧ s' = { s with
      wheel := { s.wheel with current_offset := c, frame := .slot (s.wheel.current_offset + 1) }
      log := s.log ++ [.updating c] } := by
  rcases update_time_cases hst with rfl | rfl | ⟨c', hc', ⟨hlt, rfl⟩ | ⟨hle, rfl⟩⟩
  · simp at hlog
  · simp at hlog
  · simp at hlog
  · have hev := List.append_cancel_left hlog
    cases hev
    exact ⟨hc', hle, rfl⟩

end

/-! ## Every step keeps records in one place -/

section
variable {s s' : Async}

/-- Places and records do not depend on the log or on the frames. -/
theorem Owned.congr (h : Owned s) (hp : s'.pool.brk = s.pool.brk) (hf : s'.pool.free_q = s.pool.free_q)
    (hv : s'.loop.socket_vec = s.loop.socket_vec) (hq : s'.loop.q_head = s.loop.q_head)
    (hw : s'.loop.w_q = s.loop.w_q) (ht : s'.wheel.callwheel = s.wheel.callwheel) : Owned s' := by
  have hh : ∀ P p, Holds s' P p → Holds s P p := by
    intro P p hP
    cases P <;> simpa only [Holds, hp, hf, hv, hq, hw, ht] using hP
  refine ⟨fun p P Q hP hQ => h.one p P Q (hh P p hP) (hh Q p hQ), hf ▸ h.free, hq ▸ h.queued, hw ▸ h.working,
    ht ▸ h.wheel⟩

theorem setSlot_eq (l : Loop) (i j : Nat) (p : Option Ptr) (i' j' : Nat) :
    (l.setSlot i j p).socket_vec i' j' = if i' = i ∧ j' = j then p else l.socket_vec i' j' := by
  rw [Loop.setSlot]
  by_cases hi : i' = i
  · subst hi
    by_cases hj : j' = j
    · subst hj
      simp
    · simp [hj]
  · simp [hi]

/-- A record goes to the end of the free queue. -/
theorem Owned.free_snoc (h : Owned s) {p : Ptr} (hp : p ∉ s.pool.free_q) : (s.pool.free_q ++ [p]).Nodup := by
  refine List.nodup_append.2 ⟨h.free, by simp, fun a ha b hb hab => ?_⟩
  rw [List.mem_singleton] at hb
  exact hp (hb ▸ hab ▸ ha)

/-- What is in another place than the moving record stays there. -/
theorem Owned.stay (h : Owned s) {P₀ P Q : Place} {p q : Ptr} (hp : Holds s P₀ p) (hq : Holds s Q q) (hne : P₀ ≠ Q) :
    q = p ∧ Q = P ∨ q ≠ p ∧ Holds s Q q := .inr ⟨h.apart hp hq hne, hq⟩

theorem Holds.of_free {s s' : Async} {q c : Ptr} (hf : s'.pool.free_q = s.pool.free_q ++ [c]) (h : Holds s' .free q) :
    Holds s .free q ∨ q = c := by
  simp only [Holds] at *
  rwa [hf, List.mem_append, List.mem_singleton] at h

theorem clearSlot_owned (h : Owned s) (i j : Nat) : Owned (clearSlot s i j) := by
  unfold clearSlot
  split
  · exact h
  · rename_i c hc
    have hslot : Holds s (.slot i j) c := hc
    refine h.move c .free (fun Q q hQ => ?_) (h.free_snoc fun hf => ?_) h.queued h.working h.wheel
    · cases Q with
      | fresh => exact h.stay hslot (show Holds s .fresh q from hQ) (by simp)
      | free =>
        rcases hQ.of_free rfl with hq | rfl
        · exact h.stay hslot hq (by simp)
        · exact .inl ⟨rfl, rfl⟩
      | slot i' j' =>
        have hQ : (s.loop.setSlot i j none).socket_vec i' j' = some q := hQ
        rw [setSlot_eq] at hQ
        split at hQ
        · cases hQ
        · rename_i hne
          refine h.stay hslot (show Holds s (.slot i' j') q from hQ) ?_
          rintro ⟨⟩
          exact hne ⟨rfl, rfl⟩
      | queued => exact h.stay hslot (show Holds s .queued q from hQ) (by simp)
      | working => exact h.stay hslot (show Holds s .working q from hQ) (by simp)
      | wheel k => exact h.stay hslot (show Holds s (.wheel k) q from hQ) (by simp)
    · cases h.one c (.slot i j) .free hslot hf

/-- A new record goes to a place that gains nothing else. -/
theorem Owned.place (h : Owned s) {cb arg : UInt64} {how resource : Int} {p : Ptr} {pool' : Pool}
    (hc : s.pool.Creates cb arg how resource p pool') (P : Place) (hfree : s'.pool.free_q = pool'.free_q)
    (hbrk : s'.pool.brk = pool'.brk) (hq : s'.loop.q_head.Nodup) (hw : s'.loop.w_q.Nodup)
    (ht : ∀ i, (s'.wheel.callwheel i).Nodup)
    (hgain : ∀ Q q, Q ≠ .free → Q ≠ .fresh → Holds s' Q q → q = p ∧ Q = P ∨ Holds s Q q) : Owned s' := by
  obtain ⟨hnd, hpf, hpb⟩ := h.created_pool hc
  refine h.move p P (fun Q q hQ => ?_) (hfree ▸ hnd) hq hw ht
  by_cases hQf : Q = .free
  · subst hQf
    have hQ : q ∈ s'.pool.free_q := hQ
    rw [hfree] at hQ
    exact .inr (hpf q hQ)
  · by_cases hQb : Q = .fresh
    · subst hQb
      have hQ : s'.pool.brk ≤ q := hQ
      rw [hbrk] at hQ
      exact .inr (hpb q hQ)
    · rcases hgain Q q hQf hQb hQ with heq | hold
      · exact .inl heq
      · exact .inr ⟨h.created_apart hc hold hQf hQb, hold⟩

/-- A record leaves its place for the free queue. -/
theorem Owned.destroy (h : Owned s) {P : Place} {p : Ptr} (hp : Holds s P p) (hPf : P ≠ .free)
    (hPb : P ≠ .fresh) (hfree : s'.pool.free_q = s.pool.free_q ++ [p]) (hbrk : s'.pool.brk = s.pool.brk) (hq : s'.loop.q_head.Nodup)
    (hw : s'.loop.w_q.Nodup) (ht : ∀ i, (s'.wheel.callwheel i).Nodup)
    (hloss : ∀ Q q, Q ≠ .free → Q ≠ .fresh → Holds s' Q q → Holds s Q q ∧ (Q = P → q ≠ p)) : Owned s' := by
  have hnf : p ∉ s.pool.free_q := fun hf => hPf (h.one p P .free hp hf)
  refine h.move p .free (fun Q q hQ => ?_) (hfree ▸ h.free_snoc hnf) hq hw ht
  by_cases hQf : Q = .free
  · subst hQf
    rcases hQ.of_free hfree with hold | rfl
    · exact h.stay hp hold hPf
    · exact .inl ⟨rfl, rfl⟩
  · have hold : Holds s Q q ∧ (Q = P → q ≠ p) := by
      by_cases hQb : Q = .fresh
      · subst hQb
        have hQ : s'.pool.brk ≤ q := hQ
        rw [hbrk] at hQ
        exact ⟨hQ, fun heq => absurd heq.symm hPb⟩
      · exact hloss Q q hQf hQb hQ
    by_cases hQP : Q = P
    · exact .inr ⟨hold.2 hQP, hold.1⟩
    · exact h.stay hp hold.1 (Ne.symm hQP)

theorem queued_snoc (h : Owned s) {p : Ptr} (hp : p ∉ s.loop.q_head) : (s.loop.q_head ++ [p]).Nodup := by
  refine List.nodup_append.2 ⟨h.queued, by simp, fun a ha b hb hab => ?_⟩
  rw [List.mem_singleton] at hb
  exact hp (hb ▸ hab ▸ ha)

theorem wait_owned (h : Owned s) {sock how : Int} {cb cb_arg : UInt64} {r : Status}
    (hst : NR_async_wait s sock how cb cb_arg = some (r, s')) : Owned s' := by
  rcases wait_cases hst with rfl | ⟨i, j, p, pool', -, -, -, -, hc, rfl⟩
  · exact h
  · have h₁ := clearSlot_owned h i j
    refine h₁.place hc (.slot i j) rfl rfl h₁.queued h₁.working h₁.wheel fun Q q hf hb hQ => ?_
    cases Q with
    | slot i' j' =>
      have hQ : ((clearSlot s i j).loop.setSlot i j (some _)).socket_vec i' j' = some q := hQ
      rw [setSlot_eq] at hQ
      split at hQ
      · rename_i heq
        cases hQ
        exact .inl ⟨rfl, by rw [heq.1, heq.2]⟩
      · exact .inr hQ
    | fresh => exact absurd rfl hb
    | free => exact absurd rfl hf
    | queued => exact .inr hQ
    | working => exact .inr hQ
    | wheel k => exact .inr hQ

theorem cancel_owned (h : Owned s) {sock how : Int} {r : Status} (hst : NR_async_cancel s sock how = some (r, s')) :
    Owned s' := by
  rcases cancel_cases hst with rfl | ⟨i, j, -, -, ⟨-, rfl⟩ | ⟨c, -, rfl⟩⟩
  · exact h
  · exact (clearSlot_owned h i j).congr rfl rfl rfl rfl rfl rfl
  · exact (clearSlot_owned h i j).congr rfl rfl rfl rfl rfl rfl

theorem schedule_owned (h : Owned s) {cb cb_arg : UInt64} {r : Status}
    (hst : NR_async_schedule s cb cb_arg = some (r, s')) : Owned s' := by
  obtain ⟨p, pool', hc, rfl⟩ := schedule_cases hst
  refine h.place hc .queued rfl rfl (queued_snoc h fun hq => ?_) h.working h.wheel fun Q q hf hb hQ => ?_
  · exact h.created_apart hc (show Holds s .queued _ from hq) (by simp) (by simp) rfl
  · cases Q with
    | queued =>
      rcases List.mem_append.1 hQ with hq | hq
      · exact .inr hq
      · exact .inl ⟨List.mem_singleton.1 hq, rfl⟩
    | fresh => exact absurd rfl hb
    | free => exact absurd rfl hf
    | slot i j => exact .inr hQ
    | working => exact .inr hQ
    | wheel k => exact .inr hQ

theorem enqueue_owned {l : Loop} (h : Owned { s with loop := l }) (fd_read fd_write : List Nat) (i j : Nat) :
    Owned { s with loop := enqueue fd_read fd_write i j l } := by
  unfold enqueue
  split
  · exact h
  · rename_i c hc
    split
    · have hslot : Holds { s with loop := l } (.slot i j) c := hc
      refine h.move c .queued (fun Q q hQ => ?_) h.free (queued_snoc h fun hq => ?_) h.working h.wheel
      · cases Q with
        | queued =>
          rcases List.mem_append.1 hQ with hq | hq
          · exact h.stay hslot (show Holds { s with loop := l } .queued q from hq) (by simp)
          · exact .inl ⟨List.mem_singleton.1 hq, rfl⟩
        | slot i' j' =>
          have hQ : (l.setSlot i j none).socket_vec i' j' = some q := hQ
          rw [setSlot_eq] at hQ
          split at hQ
          · cases hQ
          · rename_i hne
            refine h.stay hslot (show Holds { s with loop := l } (.slot i' j') q from hQ) ?_
            rintro ⟨⟩
            exact hne ⟨rfl, rfl⟩
        | fresh => exact h.stay hslot (show Holds { s with loop := l } .fresh q from hQ) (by simp)
        | free => exact h.stay hslot (show Holds { s with loop := l } .free q from hQ) (by simp)
        | working => exact h.stay hslot (show Holds { s with loop := l } .working q from hQ) (by simp)
        | wheel k => exact h.stay hslot (show Holds { s with loop := l } (.wheel k) q from hQ) (by simp)
      · cases h.one c (.slot i j) .queued hslot hq
    · exact h

theorem collect_owned {l : Loop} (h : Owned { s with loop := l }) (fd_read fd_write : List Nat) (n : Nat) :
    Owned { s with loop := collect fd_read fd_write n l } := by
  unfold collect
  induction List.range n generalizing l with
  | nil => exact h
  | cons i is ih => exact ih (enqueue_owned (enqueue_owned h fd_read fd_write i 0) fd_read fd_write i 1)

theorem startBatch_owned {l : Loop} (h : Owned { s with loop := l }) (fd_read fd_write : List Nat) :
    Owned (startBatch s l fd_read fd_write) := by
  refine ⟨fun p P Q hP hQ => ?_, h.free, List.nodup_nil, h.queued, h.wheel⟩
  -- what is in the batch was queued, and nothing is queued
  have hback : ∀ R, Holds (startBatch s l fd_read fd_write) R p →
      ∃ R', Holds { s with loop := l } R' p ∧ (R = .working ∧ R' = .queued ∨ R ≠ .working ∧ R' = R ∧ R ≠ .queued) := by
    intro R hR
    cases R with
    | working => exact ⟨.queued, hR, .inl ⟨rfl, rfl⟩⟩
    | queued => cases hR
    | fresh => exact ⟨.fresh, hR, .inr (by simp)⟩
    | free => exact ⟨.free, hR, .inr (by simp)⟩
    | slot i j => exact ⟨.slot i j, hR, .inr (by simp)⟩
    | wheel k => exact ⟨.wheel k, hR, .inr (by simp)⟩
  obtain ⟨P', hP', hcP⟩ := hback P hP
  obtain ⟨Q', hQ', hcQ⟩ := hback Q hQ
  have heq := h.one p P' Q' hP' hQ'
  rcases hcP with ⟨rfl, rfl⟩ | ⟨-, rfl, hPq⟩ <;> rcases hcQ with ⟨rfl, rfl⟩ | ⟨-, rfl, hQq⟩
  · rfl
  · exact absurd heq.symm hQq
  · exact absurd heq hPq
  · exact heq

theorem event_wait2_owned (h : Owned s) {tv : Option timeval} {sel : Select} {r : Status}
    (hst : NR_async_event_wait2 s tv sel = (r, s')) : Owned s' := by
  have hs : Owned { s with loop := s.loop } := h
  rcases event_wait2_cases hst with rfl | rfl | ⟨m, -, rfl⟩
  · exact h
  · exact startBatch_owned hs [] []
  · exact startBatch_owned (collect_owned hs _ _ _) _ _

theorem finishCallback_owned (h : Owned s) {n1 : Ptr} (hn : n1 ∈ s.loop.w_q) (events : Nat) (n2 : Option Ptr) :
    Owned (finishCallback s n1 events n2) := by
  refine h.destroy (show Holds s .working n1 from hn) (by simp) (by simp) rfl rfl h.queued (h.working.erase _) h.wheel
    fun Q q hf hb hQ => ?_
  cases Q with
  | working =>
    have hQ : q ∈ s.loop.w_q.erase n1 := hQ
    rw [h.working.mem_erase_iff] at hQ
    exact ⟨hQ.2, fun _ => hQ.1⟩
  | fresh => exact absurd rfl hb
  | free => exact absurd rfl hf
  | slot i j => exact ⟨hQ, fun heq => by cases heq⟩
  | queued => exact ⟨hQ, fun heq => by cases heq⟩
  | wheel k => exact ⟨hQ, fun heq => by cases heq⟩

theorem removeTimer_owned (h : Owned s) {i : Nat} {cb : Ptr} (hcb : cb ∈ s.wheel.callwheel i) :
    Owned (s.removeTimer i cb) := by
  refine h.destroy (show Holds s (.wheel i) cb from hcb) (by simp) (by simp) rfl rfl h.queued h.working (fun k => ?_)
    fun Q q hf hb hQ => ?_
  · simp only [Async.removeTimer]
    by_cases hk : k = i
    · subst hk
      rw [Function.update_self]
      exact (h.wheel k).erase _
    · rw [Function.update_of_ne hk]
      exact h.wheel k
  · cases Q with
    | wheel k =>
      obtain ⟨hold, hne⟩ := (mem_removed (h.wheel i)).1 hQ
      refine ⟨hold, ?_⟩
      rintro ⟨⟩ heq
      exact hne ⟨rfl, heq⟩
    | fresh => exact absurd rfl hb
    | free => exact absurd rfl hf
    | slot i j => exact ⟨hQ, fun heq => by cases heq⟩
    | queued => exact ⟨hQ, fun heq => by cases heq⟩
    | working => exact ⟨hQ, fun heq => by cases heq⟩

/-- A record that was just created is in no slot of the wheel. -/
theorem Owned.created_not_wheel (h : Owned s) {cb arg : UInt64} {how resource : Int} {p : Ptr} {pool' : Pool}
    (hc : s.pool.Creates cb arg how resource p pool') (i : Nat) : p ∉ s.wheel.callwheel i := by
  intro hp
  exact h.created_apart hc (show Holds s (.wheel i) p from hp) (by simp) (by simp) rfl

theorem timer_set_owned (h : Owned s) {delay_ms : Int} {cb cb_arg : UInt64} {r : Status}
    (hst : NR_async_timer_set s delay_ms cb cb_arg = some (r, s')) : Owned s' := by
  obtain ⟨due, p, pool', -, hc, rfl⟩ := timer_set_cases hst
  refine h.place hc (.wheel (due % WHEEL_SIZE)) rfl rfl h.queued h.working (fun k => ?_) fun Q q hf hb hQ => ?_
  · dsimp only
    by_cases hk : k = due % WHEEL_SIZE
    · rw [hk, Function.update_self]
      refine List.nodup_append.2 ⟨h.wheel _, by simp, fun a ha b hb hab => ?_⟩
      rw [List.mem_singleton] at hb
      rw [← hb, ← hab] at hc
      exact h.created_not_wheel hc _ ha
    · rw [Function.update_of_ne hk]
      exact h.wheel k
  · cases Q with
    | wheel k =>
      rcases mem_added.1 hQ with hq | ⟨rfl, hq⟩
      · exact .inr hq
      · exact .inl ⟨hq, rfl⟩
    | fresh => exact absurd rfl hb
    | free => exact absurd rfl hf
    | slot i j => exact .inr hQ
    | queued => exact .inr hQ
    | working => exact .inr hQ

end

/-! ## The walk over the batch -/

/-- `w_q_n1` is at the head of the batch, which is empty outside
`NR_async_event_wait2`. -/
def LoopOk (l : Loop) : Prop :=
  match l.frame with
  | .idle => l.w_q = [] ∧ l.w_q_n1 = none
  | .head _ => l.w_q_n1 = l.w_q.head?
  | .call _ n2 => ∃ n1 rest, l.w_q = n1 :: rest ∧ l.w_q_n1 = some n1 ∧ n2 = rest.head?

theorem LoopOk.congr {l l' : Loop} (h : LoopOk l) (hf : l'.frame = l.frame) (hw : l'.w_q = l.w_q)
    (hn : l'.w_q_n1 = l.w_q_n1) : LoopOk l' := by
  unfold LoopOk
  rw [hf, hw, hn]
  exact h

/-- What one step of the walk does: it returns, calls the callback at the head
of the batch, or is done with it. -/
theorem loop_step_cases {s s' : Async} (h : LoopOk s.loop) {r : Status} (hst : loop_step s = some (r, s')) :
    (∃ events, s.loop.frame = .head events ∧ s.loop.w_q = [] ∧ s.loop.w_q_n1 = none ∧
      s' = { s with loop := { s.loop with frame := .idle }, log := s.log ++ [.returned] }) ∨
    (∃ events n1 rest, s.loop.frame = .head events ∧ s.loop.w_q = n1 :: rest ∧ s.loop.w_q_n1 = some n1 ∧
      (s.pool.recs n1).cb ≠ 0 ∧ s' = { s with
        loop := { s.loop with frame := .call (events + 1) rest.head? }
        log := s.log ++ [.fired (s.pool.recs n1).use] }) ∨
    (∃ events n1 rest, (s.loop.frame = .head events ∧ (s.pool.recs n1).cb = 0 ∨
        ∃ n2, s.loop.frame = .call events n2) ∧ s.loop.w_q = n1 :: rest ∧ s.loop.w_q_n1 = some n1 ∧
      ∃ events', s' = finishCallback s n1 events' rest.head?) := by
  unfold loop_step at hst
  unfold LoopOk at h
  split at hst
  · cases hst
  · rename_i events hf hn
    rw [hf] at h
    rw [hn] at h
    cases hst
    exact .inl ⟨events, hf, List.head?_eq_none_iff.1 h.symm, hn, rfl⟩
  · rename_i events n1 hf hn
    rw [hf] at h
    rw [hn] at h
    obtain ⟨rest, hw⟩ := List.head?_eq_some_iff.1 h.symm
    have hn2 : nextOf s.loop.w_q n1 = rest.head? := by rw [hw]; simp [nextOf, after]
    rw [hn2] at hst
    dsimp only at hst
    split at hst
    · rename_i hcb
      cases hst
      exact .inr (.inl ⟨events, n1, rest, hf, hw, hn, hcb, rfl⟩)
    · rename_i hcb
      cases hst
      exact .inr (.inr ⟨events, n1, rest, .inl ⟨hf, not_not.1 hcb⟩, hw, hn, events + 1, rfl⟩)
  · rename_i events n2 n1 hf hn
    rw [hf] at h
    obtain ⟨n1', rest, hw, hn', rfl⟩ := h
    rw [hn] at hn'
    cases hn'
    cases hst
    exact .inr (.inr ⟨events, n1, rest, .inr ⟨_, hf⟩, hw, hn, events, rfl⟩)
  · cases hst

theorem loop_step_ok {s s' : Async} (h : LoopOk s.loop) {r : Status} (hst : loop_step s = some (r, s')) :
    LoopOk s'.loop := by
  rcases loop_step_cases h hst with ⟨events, -, hw, hn, rfl⟩ | ⟨events, n1, rest, -, hw, hn, -, rfl⟩ |
    ⟨events, n1, rest, -, hw, hn, events', rfl⟩
  · exact ⟨hw, hn⟩
  · exact ⟨n1, rest, hw, hn, rfl⟩
  · show rest.head? = (s.loop.w_q.erase n1).head?
    rw [hw, List.erase_cons_head]

theorem event_wait2_ok {s s' : Async} (h : LoopOk s.loop) {tv : Option timeval} {sel : Select} {r : Status}
    (hst : NR_async_event_wait2 s tv sel = (r, s')) : LoopOk s'.loop := by
  rcases event_wait2_cases hst with rfl | rfl | ⟨m, -, rfl⟩
  · exact h
  · exact rfl
  · exact rfl

end Nrappkit.Event
