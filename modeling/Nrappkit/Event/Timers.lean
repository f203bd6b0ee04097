import Nrappkit.Event.Records
import Nrappkit.Event.TimerSpec
/-!
# The wheel

What holds of the wheel at each cut of `NR_async_timer_update_time`, in
`FrameOk`: a walk over a slot leaves behind it only timers that are not due, a
record without a callback is in the slot being worked on and is purged before
the walk leaves it, and a timer that is due has an offset the loop has still to
visit. Every step of the machine is a step of the service `Timers`, or leaves
what `timersOf` sees of the state unchanged.
-/
open Lib

namespace Nrappkit.Event

/-- The offset a timer is due at. -/
def dueOf (c : callback) : Nat := c.resource.toNat

/-- The service that a state of the machine stands for. -/
def timersOf (s : Async) : Timers where
  live h :=
    let c := s.pool.recs h
    if h ∈ s.wheel.callwheel (dueOf c % WHEEL_SIZE) ∧ c.cb ≠ 0 then some (c.use, dueOf c) else none
  now := s.wheel.current_offset
  updating := s.wheel.frame ≠ .idle
  serial := s.pool.serial
  log := s.log

/-! ## The invariant -/

/-- What a walk that is at `cb` has left behind. -/
def Rest (slot : List Ptr) (done : Ptr → Prop) : Option Ptr → Prop
  | none => ∀ q ∈ slot, done q
  | some p => ∃ pre post, slot = pre ++ p :: post ∧ ∀ q ∈ pre, done q

/-- A walk works on the slot of `offset`; the other slots have only live
timers, and those that are due will be visited. -/
def InSlot (w : Wheel) (recs : Ptr → callback) (offset : Nat) : Prop :=
  (offset ≤ w.current_offset ∧ w.working_entry = some (offset % WHEEL_SIZE)) ∧
    ∀ i ≠ offset % WHEEL_SIZE, ∀ p ∈ w.callwheel i,
      (recs p).cb ≠ 0 ∧ (w.current_offset < dueOf (recs p) ∨ offset ≤ dueOf (recs p))

def FrameOk (w : Wheel) (recs : Ptr → callback) : Prop :=
  match w.frame with
  | .idle => w.working_entry = none ∧
    ∀ i, ∀ p ∈ w.callwheel i, (recs p).cb ≠ 0 ∧ w.current_offset < dueOf (recs p)
  | .slot offset => ∀ i, ∀ p ∈ w.callwheel i,
    (recs p).cb ≠ 0 ∧ (w.current_offset < dueOf (recs p) ∨ offset ≤ dueOf (recs p))
  | .walk offset cb => InSlot w recs offset ∧
    (∀ p ∈ w.callwheel (offset % WHEEL_SIZE), (recs p).cb = 0 → w.pending_deactivates = true) ∧
    Rest (w.callwheel (offset % WHEEL_SIZE)) (fun q => w.current_offset < dueOf (recs q)) cb
  | .call offset p cb2 => InSlot w recs offset ∧ (recs p).cb = 0 ∧
    ∃ pre post, w.callwheel (offset % WHEEL_SIZE) = pre ++ p :: post ∧
      (∀ q ∈ pre, w.current_offset < dueOf (recs q)) ∧
      (∀ q ∈ pre ++ post, (recs q).cb = 0 → w.pending_deactivates = true) ∧
      (cb2 = none → ∀ q ∈ post, w.current_offset < dueOf (recs q)) ∧ ∀ q, cb2 = some q → post.head? = some q
  | .purge offset cb => InSlot w recs offset ∧
    (∀ p ∈ w.callwheel (offset % WHEEL_SIZE), w.current_offset < dueOf (recs p)) ∧
    Rest (w.callwheel (offset % WHEEL_SIZE)) (fun q => (recs q).cb ≠ 0) cb

/-- A walk starts. -/
theorem rest_head (slot : List Ptr) (done : Ptr → Prop) : Rest slot done slot.head? := by
  cases slot with
  | nil => simp [Rest]
  | cons p slot => exact ⟨[], slot, rfl, by simp⟩

/-- A walk goes on. -/
theorem rest_next {done : Ptr → Prop} (pre post : List Ptr) (hpre : ∀ q ∈ pre, done q) :
    Rest (pre ++ post) done post.head? := by
  cases post with
  | nil => simpa [Rest] using hpre
  | cons p post => exact ⟨pre, post, rfl, hpre⟩

theorem Rest.mem {slot : List Ptr} {done : Ptr → Prop} {p : Ptr} (h : Rest slot done (some p)) : p ∈ slot := by
  obtain ⟨pre, post, hs, -⟩ := h
  simp [hs]

/-- A walk leaves the record it is at behind. -/
theorem Rest.next {slot : List Ptr} {done : Ptr → Prop} {p : Ptr} (h : Rest slot done (some p)) (hnd : slot.Nodup)
    (hp : done p) : Rest slot done (nextOf slot p) := by
  obtain ⟨pre, post, rfl, hpre⟩ := h
  rw [nextOf_split (not_mem_left hnd), List.append_cons]
  apply rest_next
  intro q hq
  rw [List.mem_append, List.mem_singleton] at hq
  rcases hq with hq | rfl
  · exact hpre q hq
  · exact hp

/-- What is left of a slot was in it. -/
theorem mem_around {pre post : List Ptr} {p q : Ptr} (hq : q ∈ pre ++ post) : q ∈ pre ++ p :: post := by
  rw [List.mem_append, List.mem_cons]
  exact (List.mem_append.1 hq).imp_right .inr

/-- The records in the wheel. -/
def Wheel.entries (w : Wheel) : List Ptr := (List.range WHEEL_SIZE).flatMap w.callwheel

/-- A record in a slot is due at an offset of it. -/
structure InWheel (i : Nat) (c : callback) : Prop where
  pos : 0 ≤ c.resource
  small : c.resource < 2 ^ 31
  slot : i = dueOf c % WHEEL_SIZE

structure WheelOk (w : Wheel) (recs : Ptr → callback) : Prop where
  inWheel : ∀ i, ∀ p ∈ w.callwheel i, InWheel i (recs p)
  count : w.timers_set = w.entries.length
  frame : FrameOk w recs

/-- The invariant of the machine, as far as the timers need it. -/
structure Good (s : Async) : Prop where
  sound : Sound s
  wheel : WheelOk s.wheel s.pool.recs
  timers : (timersOf s).Inv

theorem InWheel.lt {i : Nat} {c : callback} (h : InWheel i c) : i < WHEEL_SIZE := by
  rw [h.slot]
  exact Nat.mod_lt _ (by decide)

/-- The test of the walk is on the offset. -/
theorem InWheel.isDue {i : Nat} {c : callback} (h : InWheel i c) (current : Nat) :
    isDue c current = decide (dueOf c ≤ current) := by
  have hpos := h.pos
  have hsmall := h.small
  have hmod : c.resource % 2 ^ 64 = c.resource := Int.emod_eq_of_lt hpos (by omega)
  rw [Event.isDue, toUINT8, hmod, dueOf]

/-- A record that is marked stays in its slot. -/
theorem InWheel.mark {recs : Ptr → callback} {i : Nat} {q : Ptr} (h : InWheel i (recs q)) (p : Ptr) :
    InWheel i (Function.update recs p { recs p with cb := 0 } q) := by
  by_cases hqp : q = p
  · subst hqp
    rw [Function.update_self]
    exact ⟨h.pos, h.small, h.slot⟩
  · rw [Function.update_of_ne hqp]
    exact h

/-- What the frame says depends on the records in the wheel only. -/
theorem FrameOk.congr {w : Wheel} {recs recs' : Ptr → callback} (h : FrameOk w recs)
    (hr : ∀ i, ∀ p ∈ w.callwheel i, recs' p = recs p) : FrameOk w recs' := by
  have hin : ∀ o, InSlot w recs o → InSlot w recs' o := by
    intro o ho
    refine ⟨ho.1, fun i hi p hp => ?_⟩
    rw [hr i p hp]
    exact ho.2 i hi p hp
  have hrest : ∀ i (P : callback → Prop) cb, Rest (w.callwheel i) (fun q => P (recs q)) cb →
      Rest (w.callwheel i) (fun q => P (recs' q)) cb := by
    intro i P cb hR
    cases cb with
    | none =>
      intro q hq
      rw [hr i q hq]
      exact hR q hq
    | some p =>
      obtain ⟨pre, post, hs, hpre⟩ := hR
      refine ⟨pre, post, hs, fun q hq => ?_⟩
      have hq' : q ∈ w.callwheel i := by simp [hs, hq]
      show P (recs' q)
      rw [hr i q hq']
      exact hpre q hq
  unfold FrameOk at *
  cases hf : w.frame with
  | idle =>
    rw [hf] at h
    refine ⟨h.1, fun i p hp => ?_⟩
    rw [hr i p hp]
    exact h.2 i p hp
  | slot o =>
    rw [hf] at h
    intro i p hp
    rw [hr i p hp]
    exact h i p hp
  | walk o cb =>
    rw [hf] at h
    obtain ⟨hslot, hnull, hR⟩ := h
    refine ⟨hin o hslot, fun p hp => ?_, hrest _ (fun c => w.current_offset < dueOf c) cb hR⟩
    rw [hr _ p hp]
    exact hnull p hp
  | call o p cb2 =>
    rw [hf] at h
    obtain ⟨hslot, hcb, pre, post, hs, hpre, hnull, hend, hnext⟩ := h
    have hmem : ∀ q ∈ pre ++ p :: post, recs' q = recs q := fun q hq => hr _ q (hs ▸ hq)
    refine ⟨hin o hslot, ?_, pre, post, hs, fun q hq => ?_, fun q hq => ?_, fun hn q hq => ?_, hnext⟩
    · rw [hmem p (by simp)]
      exact hcb
    · rw [hmem q (by simp [hq])]
      exact hpre q hq
    · rw [hmem q (by simp only [List.mem_append, List.mem_cons] at hq ⊢; tauto)]
      exact hnull q hq
    · rw [hmem q (by simp [hq])]
      exact hend hn q hq
  | purge o cb =>
    rw [hf] at h
    obtain ⟨hslot, hdue, hR⟩ := h
    refine ⟨hin o hslot, fun p hp => ?_, hrest _ (fun c => c.cb ≠ 0) cb hR⟩
    rw [hr _ p hp]
    exact hdue p hp

/-! ## What the service sees -/

section
variable {s s' : Async} {h : Ptr}

theorem live_congr (hr : s'.pool.recs h = s.pool.recs h)
    (hm : ∀ i, h ∈ s'.wheel.callwheel i ↔ h ∈ s.wheel.callwheel i) :
    (timersOf s').live h = (timersOf s).live h := by
  simp only [timersOf, hr, hm]

/-- A state stands for a service with the same parts. -/
theorem Timers.Inv.of_eq {a : Timers} (ha : a.Inv) (hl : ∀ p, (timersOf s).live p = a.live p)
    (hn : s.wheel.current_offset = a.now) (hu : decide (s.wheel.frame ≠ .idle) = a.updating)
    (hs : s.pool.serial = a.serial) (hlog : s.log = a.log) : (timersOf s).Inv := by
  have hl' : (timersOf s).live = a.live := funext hl
  have heq : timersOf s = a := by
    cases a
    simp only [timersOf, Timers.mk.injEq] at *
    exact ⟨hl', hn, hu, hs, hlog⟩
  rw [heq]
  exact ha

theorem live_not_mem (hm : ∀ i, h ∉ s.wheel.callwheel i) : (timersOf s).live h = none := by
  simp [timersOf, hm]

/-- What a step does to the timer of one record. -/
theorem live_update {v : Option (Use × Nat)} (hr : ∀ q ≠ h, s'.pool.recs q = s.pool.recs q)
    (hm : ∀ k, ∀ q ≠ h, q ∈ s'.wheel.callwheel k ↔ q ∈ s.wheel.callwheel k) (hv : (timersOf s').live h = v)
    (q : Ptr) : (timersOf s').live q = Function.update (timersOf s).live h v q := by
  by_cases hq : q = h
  · rw [hq, Function.update_self, hv]
  · rw [Function.update_of_ne hq]
    exact live_congr (hr q hq) fun k => hm k q hq

theorem live_null (hcb : (s.pool.recs h).cb = 0) : (timersOf s).live h = none := by
  simp [timersOf, hcb]

theorem live_mem {i : Nat} (hin : InWheel i (s.pool.recs h)) (hm : h ∈ s.wheel.callwheel i)
    (hcb : (s.pool.recs h).cb ≠ 0) :
    (timersOf s).live h = some ((s.pool.recs h).use, dueOf (s.pool.recs h)) := by
  rw [hin.slot] at hm
  simp [timersOf, hm, hcb]

/-- A live timer has a record in the wheel. -/
theorem mem_of_live {x : Use} {D : Nat} (hl : (timersOf s).live h = some (x, D)) :
    h ∈ s.wheel.callwheel (D % WHEEL_SIZE) ∧ (s.pool.recs h).cb ≠ 0 ∧ x = (s.pool.recs h).use ∧
      D = dueOf (s.pool.recs h) := by
  simp only [timersOf] at hl
  split at hl
  · rename_i hc
    cases hl
    exact ⟨hc.1, hc.2, rfl, rfl⟩
  · cases hl

end

/-! ## Client code changes the wheel -/

section
variable {w : Wheel} {recs : Ptr → callback} {p : Ptr} {i n : Nat}

/-- A timer is added while client code runs. -/
theorem FrameOk.add (h : FrameOk w recs) (hc : w.frame.inClient = true) (hcb : (recs p).cb ≠ 0)
    (hdue : w.current_offset < dueOf (recs p)) {m : Int} :
    FrameOk { w with callwheel := Function.update w.callwheel i (w.callwheel i ++ [p]), timers_set := m } recs := by
  unfold FrameOk at *
  dsimp only
  rcases TimerFrame.client_cases hc with hf | ⟨o, r, cb2, hf⟩
  · rw [hf] at h ⊢
    refine ⟨h.1, fun k q hq => ?_⟩
    rcases mem_added.1 hq with hq | ⟨-, rfl⟩
    · exact h.2 k q hq
    · exact ⟨hcb, hdue⟩
  · rw [hf] at h ⊢
    obtain ⟨⟨hwork, hother⟩, hr, pre, post, hs, hpre, hnull, hend, hnext⟩ := h
    have hother' : ∀ k ≠ o % WHEEL_SIZE, ∀ q ∈ Function.update w.callwheel i (w.callwheel i ++ [p]) k,
        (recs q).cb ≠ 0 ∧ (w.current_offset < dueOf (recs q) ∨ o ≤ dueOf (recs q)) := by
      intro k hk q hq
      rcases mem_added.1 hq with hq | ⟨-, rfl⟩
      · exact hother k hk q hq
      · exact ⟨hcb, .inl hdue⟩
    by_cases hi : o % WHEEL_SIZE = i
    · -- the slot being walked: the new timer stands at its end, and is not due
      refine ⟨⟨hwork, hother'⟩, hr, pre, post ++ [p], ?_, hpre, fun q hq hq0 => ?_, fun hn q hq => ?_, fun q hq => ?_⟩
      · rw [hi] at hs
        simp [hi, hs]
      · rw [← List.append_assoc, List.mem_append, List.mem_singleton] at hq
        rcases hq with hq | rfl
        · exact hnull q hq hq0
        · exact absurd hq0 hcb
      · rw [List.mem_append, List.mem_singleton] at hq
        rcases hq with hq | rfl
        · exact hend hn q hq
        · exact hdue
      · rw [List.head?_append, hnext q hq]
        rfl
    · refine ⟨⟨hwork, hother'⟩, hr, pre, post, ?_, hpre, hnull, hend, hnext⟩
      rw [Function.update_of_ne hi]
      exact hs

/-- A timer leaves a slot that is not being walked. -/
theorem FrameOk.drop (h : FrameOk w recs) (hc : w.frame.inClient = true) (hi : w.working_entry ≠ some i)
    (hn : (w.callwheel i).Nodup) {m : Int} :
    FrameOk { w with callwheel := Function.update w.callwheel i ((w.callwheel i).erase p), timers_set := m } recs := by
  unfold FrameOk at *
  dsimp only
  rcases TimerFrame.client_cases hc with hf | ⟨o, r, cb2, hf⟩
  · rw [hf] at h ⊢
    exact ⟨h.1, fun k q hq => h.2 k q ((mem_removed hn).1 hq).1⟩
  · rw [hf] at h ⊢
    obtain ⟨⟨hwork, hother⟩, hr, pre, post, hs, hrest⟩ := h
    have hio : o % WHEEL_SIZE ≠ i := by
      rintro rfl
      exact hi hwork.2
    refine ⟨⟨hwork, fun k hk q hq => hother k hk q ((mem_removed hn).1 hq).1⟩, hr, pre, post, ?_, hrest⟩
    rw [Function.update_of_ne hio]
    exact hs

/-- A timer of the slot being walked is marked as cancelled. -/
theorem FrameOk.mark (h : FrameOk w recs) (hc : w.frame.inClient = true) (hi : w.working_entry = some i)
    (honly : ∀ k ≠ i, p ∉ w.callwheel k) (hcb : (recs p).cb ≠ 0) :
    FrameOk { w with pending_deactivates := true } (Function.update recs p { recs p with cb := 0 }) := by
  have hdue : ∀ q, dueOf (Function.update recs p { recs p with cb := 0 } q) = dueOf (recs q) := by
    intro q
    by_cases hq : q = p
    · subst hq
      simp [dueOf]
    · simp [hq]
  unfold FrameOk at *
  dsimp only
  rcases TimerFrame.client_cases hc with hf | ⟨o, r, cb2, hf⟩
  · rw [hf, hi] at h
    cases h.1
  · rw [hf] at h ⊢
    obtain ⟨⟨⟨ho, hwork⟩, hother⟩, hr, pre, post, hs, hpre, -, hend, hnext⟩ := h
    rw [hi] at hwork
    cases hwork
    have hrp : r ≠ p := by
      rintro rfl
      exact hcb hr
    refine ⟨⟨⟨ho, hi⟩, fun k hk q hq => ?_⟩, ?_, pre, post, hs, fun q hq => ?_, fun _ _ _ => rfl, fun hn q hq => ?_, hnext⟩
    · have hqp : q ≠ p := by
        rintro rfl
        exact honly k hk hq
      rw [Function.update_of_ne hqp]
      exact hother k hk q hq
    · rw [Function.update_of_ne hrp]
      exact hr
    · rw [hdue]
      exact hpre q hq
    · rw [hdue]
      exact hend hn q hq

/-! ## The number of timers -/

theorem entries_added (hi : i < WHEEL_SIZE) {w' : Wheel}
    (hw : w'.callwheel = Function.update w.callwheel i (w.callwheel i ++ [p])) :
    w'.entries.length = w.entries.length + 1 := by
  have := length_flatMap_update hi (w.callwheel i ++ [p]) (f := w.callwheel)
  rw [List.length_append, List.length_singleton] at this
  simp only [Wheel.entries, hw]
  omega

theorem entries_removed (hi : i < WHEEL_SIZE) (hp : p ∈ w.callwheel i) {w' : Wheel}
    (hw : w'.callwheel = Function.update w.callwheel i ((w.callwheel i).erase p)) :
    w'.entries.length + 1 = w.entries.length := by
  have := length_flatMap_update hi ((w.callwheel i).erase p) (f := w.callwheel)
  have hpos := List.length_pos_of_mem hp
  rw [List.length_erase_of_mem hp] at this
  simp only [Wheel.entries, hw]
  omega

/-- A record leaves a slot. -/
theorem WheelOk.removed (h : WheelOk w recs) (hn : (w.callwheel i).Nodup) (hp : p ∈ w.callwheel i) {w' : Wheel}
    (hcw : w'.callwheel = Function.update w.callwheel i ((w.callwheel i).erase p))
    (hset : w'.timers_set = w.timers_set - 1) (hf : FrameOk w' recs) : WheelOk w' recs := by
  refine ⟨fun k q hq => ?_, ?_, hf⟩
  · rw [hcw] at hq
    exact h.inWheel k q ((mem_removed hn).1 hq).1
  · have hcount := entries_removed (h.inWheel i p hp).lt hp hcw
    rw [hset, h.count, ← hcount]
    omega

end

/-! ## Every step keeps the invariant -/

section
variable {s s' : Async}

/-- A step that does not touch the wheel. -/
theorem Good.frame (h : Good s) (hsound : Sound s') (hw : s'.wheel = s.wheel)
    (hr : ∀ i, ∀ p ∈ s.wheel.callwheel i, s'.pool.recs p = s.pool.recs p) (hs : s.pool.serial ≤ s'.pool.serial)
    (hlog : s'.log = s.log ∧ s'.pool.serial = s.pool.serial ∨ ∃ e, e.isTimer = false ∧ s'.log = s.log ++ [e]) :
    Good s' := by
  have hlive : ∀ p, (timersOf s').live p = (timersOf s).live p := by
    intro p
    by_cases hp : ∃ i, p ∈ s.wheel.callwheel i
    · obtain ⟨i, hi⟩ := hp
      exact live_congr (hr i p hi) (fun k => by rw [hw])
    · rw [not_exists] at hp
      rw [live_not_mem hp, live_not_mem (fun i => by rw [hw]; exact hp i)]
  refine ⟨hsound, ⟨fun i p hp => ?_, ?_, ?_⟩, ?_⟩
  · rw [hw] at hp
    rw [hr i p hp]
    exact h.wheel.inWheel i p hp
  · rw [hw]
    exact h.wheel.count
  · rw [hw]
    exact h.wheel.frame.congr hr
  · rcases hlog with ⟨hlog, hserial⟩ | ⟨e, he, hlog⟩
    · exact h.timers.of_eq hlive (by rw [hw]; rfl) (by rw [hw]; rfl) hserial hlog
    · exact (h.timers.step (.other he hs)).of_eq hlive (by rw [hw]; rfl) (by rw [hw]; rfl) rfl hlog

theorem wait_good (h : Good s) {sock how : Int} {cb cb_arg : UInt64} {r : Status}
    (hst : NR_async_wait s sock how cb cb_arg = some (r, s')) : Good s' := by
  obtain ⟨hw, hr, hlog, -⟩ := wait_frame h.sound hst
  rcases hlog with rfl | ⟨hserial, x, i, j, hlog⟩
  · exact h
  · exact h.frame (wait_sound h.sound hst) hw hr (hserial ▸ Nat.le_succ _) (.inr ⟨.registered x i j, rfl, hlog⟩)

theorem cancel_good (h : Good s) {sock how : Int} {r : Status} (hst : NR_async_cancel s sock how = some (r, s')) :
    Good s' := by
  obtain ⟨hw, hr, hserial, hlog, -⟩ := cancel_frame h.sound hst
  rcases hlog with rfl | ⟨i, j, hlog⟩
  · exact h
  · exact h.frame (cancel_sound h.sound hst) hw hr (Nat.le_of_eq hserial.symm) (.inr ⟨.cancelled i j, rfl, hlog⟩)

theorem schedule_good (h : Good s) {cb cb_arg : UInt64} {r : Status}
    (hst : NR_async_schedule s cb cb_arg = some (r, s')) : Good s' := by
  have hs := schedule_sound h.sound hst
  obtain ⟨p, pool', hc, rfl⟩ := schedule_cases hst
  refine h.frame hs rfl (created_frame h.sound.owned hc) ?_ (.inr ⟨.scheduled (pool'.recs p).use, rfl, rfl⟩)
  show s.pool.serial ≤ pool'.serial
  rw [hc.serial]
  exact Nat.le_succ _

theorem event_wait2_good (h : Good s) {tv : Option timeval} {sel : Select} {r : Status}
    (hst : NR_async_event_wait2 s tv sel = (r, s')) : Good s' := by
  have hs := event_wait2_sound h.sound hst
  rcases event_wait2_cases hst with rfl | rfl | ⟨m, -, rfl⟩
  · exact h
  · exact h.frame hs rfl (fun _ _ _ => rfl) (Nat.le_refl _) (.inr ⟨.polled [] [], rfl, rfl⟩)
  · exact h.frame hs rfl (fun _ _ _ => rfl) (Nat.le_refl _) (.inr ⟨.polled sel.fd_read sel.fd_write, rfl, rfl⟩)

theorem loop_step_good (h : Good s) {r : Status} (hst : loop_step s = some (r, s')) : Good s' := by
  have hs := loop_step_sound h.sound hst
  rcases loop_step_cases h.sound.loop hst with ⟨events, -, -, -, rfl⟩ | ⟨events, n1, rest, -, -, -, -, rfl⟩ |
    ⟨events, n1, rest, -, -, -, events', rfl⟩
  · exact h.frame hs rfl (fun _ _ _ => rfl) (Nat.le_refl _) (.inr ⟨.returned, rfl, rfl⟩)
  · exact h.frame hs rfl (fun _ _ _ => rfl) (Nat.le_refl _) (.inr ⟨.fired (s.pool.recs n1).use, rfl, rfl⟩)
  · exact h.frame hs rfl (fun _ _ _ => rfl) (Nat.le_refl _) (.inl ⟨rfl, rfl⟩)

/-! ### Setting and cancelling -/

theorem toInt_small {n : Nat} (h : n < 2 ^ 31) : toInt n = n := by
  unfold toInt
  apply Int.bmod_eq_of_le
  · omega
  · omega

/-- A due offset that fits an `int` is not changed by the conversions. -/
theorem dueOffset_small {c : Nat} {delay : Int} (hd : 0 ≤ delay) (h : (c : Int) + max delay 1 < 2 ^ 31) :
    (dueOffset c delay : Int) = c + max delay 1 := by
  unfold dueOffset toUINT8
  split <;> omega

theorem timer_set_good (h : Good s) {delay_ms : Int} {cb cb_arg : UInt64} {r : Status} (hcl : s.inClient = true)
    (hd : 0 ≤ delay_ms) (hcb : cb ≠ 0) (hsmall : (s.wheel.current_offset : Int) + max delay_ms 1 < 2 ^ 31)
    (hst : NR_async_timer_set s delay_ms cb cb_arg = some (r, s')) : Good s' := by
  have hsound := timer_set_sound h.sound hcl hst
  have hduei := dueOffset_small hd hsmall
  obtain ⟨due, p, pool', hdue, hc, rfl⟩ := timer_set_cases hst
  rw [← hdue] at hduei
  have hdlt : due < 2 ^ 31 := by omega
  have hlate : s.wheel.current_offset < due := by omega
  have hres : toInt due = due := toInt_small hdlt
  obtain ⟨c, hrecs, hcbc, hcres, -, huse, hx⟩ := timer_record hc (due % WHEEL_SIZE)
  rw [hres] at hcres
  rw [← hcbc] at hcb
  have hdc : dueOf c = due := by rw [dueOf, hcres, Int.toNat_natCast]
  have hin : InWheel (due % WHEEL_SIZE) c := by
    refine ⟨?_, ?_, by rw [hdc]⟩
    · rw [hcres]
      exact Int.natCast_nonneg due
    · rw [hcres]
      omega
  have hnot := h.sound.owned.created_not_wheel hc
  have hkeep : ∀ k, ∀ q ∈ s.wheel.callwheel k, Function.update s.pool.recs p c q = s.pool.recs q := fun _ _ hq =>
    Function.update_of_ne (h.sound.owned.ne_created hc hq) _ _
  have hself : Function.update s.pool.recs p c p = c := Function.update_self ..
  refine ⟨hsound, ⟨fun k q hq => ?_, ?_, ?_⟩, ?_⟩
  all_goals dsimp only
  · rw [hrecs]
    rcases mem_added.1 hq with hq | ⟨rfl, rfl⟩
    · rw [hkeep k q hq]
      exact h.wheel.inWheel k q hq
    · rw [hself]
      exact hin
  · rw [entries_added (Nat.mod_lt due (by decide)) rfl, h.wheel.count]
    rfl
  · rw [hrecs]
    have hcl' : s.wheel.frame.inClient = true := (Bool.and_eq_true_iff.1 hcl).2
    refine (h.wheel.frame.congr hkeep).add hcl' ?_ ?_
    · rw [hself]
      exact hcb
    · rw [hself, hdc]
      exact hlate
  · rw [huse]
    have hlive : (timersOf s).live p = none := live_not_mem hnot
    have hlt : c.use.serial < pool'.serial := by
      rw [hx, hc.serial]
      exact Nat.lt_succ_self _
    have hstep := h.timers.step (.set hlive (Nat.le_of_eq hx.symm) hlt hlate)
    refine hstep.of_eq (live_update (fun q hq => ?_) (fun k q hq => ?_) ?_) rfl rfl rfl rfl
    · dsimp only
      rw [hrecs, Function.update_of_ne hq]
    · exact mem_added.trans (or_iff_left fun heq => hq heq.2)
    · have hmem : p ∈ Function.update s.wheel.callwheel (due % WHEEL_SIZE)
          (s.wheel.callwheel (due % WHEEL_SIZE) ++ [p]) (due % WHEEL_SIZE) := mem_added.2 (.inr ⟨rfl, rfl⟩)
      simp only [timersOf, hrecs, hself, hdc]
      rw [if_pos ⟨hmem, hcb⟩]

theorem timer_cancel_good (h : Good s) {p : Ptr} {r : Status} (hcl : s.inClient = true)
    (hp : s.liveHandle p = true ∨ s.runningHandle p = true)
    (hst : NR_async_timer_cancel s p = some (r, s')) : Good s' := by
  have hcl' : s.wheel.frame.inClient = true := (Bool.and_eq_true_iff.1 hcl).2
  have hsound := timer_cancel_sound h.sound hcl hp hst
  rcases timer_cancel_cases h.sound hp hst with rfl | ⟨i, hcb, hmem, ⟨hwork, rfl⟩ | ⟨hwork, rfl⟩⟩
  · exact h
  · have honly : ∀ k ≠ i, p ∉ s.wheel.callwheel k := fun k hk hpk => hk (h.sound.owned.one_slot hmem hpk)
    have hlive := live_mem (h.wheel.inWheel i p hmem) hmem hcb
    refine ⟨hsound, ⟨fun k q hq => ?_, h.wheel.count, h.wheel.frame.mark hcl' hwork honly hcb⟩, ?_⟩
    · exact (h.wheel.inWheel k q hq).mark p
    · refine (h.timers.step (.cancel hlive)).of_eq (live_update (fun q hq => ?_) (fun k q hq => Iff.rfl) (live_null ?_))
        rfl rfl rfl rfl
      · exact Function.update_of_ne hq ..
      · show (Function.update s.pool.recs p _ p).cb = 0
        rw [Function.update_self]
  · have hn := h.sound.owned.wheel i
    have hlive := live_mem (h.wheel.inWheel i p hmem) hmem hcb
    refine ⟨hsound, h.wheel.removed hn hmem rfl rfl (h.wheel.frame.drop hcl' hwork hn), ?_⟩
    refine (h.timers.step (.cancel hlive)).of_eq
      (live_update (fun q hq => rfl) (fun k q hq => ?_) (live_not_mem fun k hk => ?_)) rfl rfl rfl rfl
    · exact (mem_removed hn).trans (and_iff_left fun heq => hq heq.2)
    · obtain ⟨hold, hne⟩ := (mem_removed hn).1 hk
      exact hne ⟨h.sound.owned.one_slot hmem hold, rfl⟩

/-! ### The update -/

/-- A step of the update that moves no record. -/
theorem Good.reframe (h : Good s) {w : Wheel} (hsound : Sound { s with wheel := w })
    (hcw : w.callwheel = s.wheel.callwheel)
    (hoff : w.current_offset = s.wheel.current_offset) (hset : w.timers_set = s.wheel.timers_set)
    (hf : FrameOk w s.pool.recs) (hu : w.frame = .idle ↔ s.wheel.frame = .idle) : Good { s with wheel := w } := by
  refine ⟨hsound, ⟨?_, ?_, hf⟩, ?_⟩
  · dsimp only
    rw [hcw]
    exact h.wheel.inWheel
  · simp only [Wheel.entries, hcw, hset]
    exact h.wheel.count
  · refine h.timers.of_eq (fun q => live_congr rfl fun k => ?_) hoff ?_ rfl rfl
    · dsimp only
      rw [hcw]
    · simp only [timersOf, ne_eq, hu]

/-- A record without a callback leaves the wheel. -/
theorem Good.purged (h : Good s) {i : Nat} {p : Ptr} {f : TimerFrame} (hsound : Sound ((s.removeTimer i p).atFrame f))
    (hp : p ∈ s.wheel.callwheel i)
    (hcb : (s.pool.recs p).cb = 0) (hf : FrameOk ((s.removeTimer i p).atFrame f).wheel s.pool.recs)
    (hold : s.wheel.frame ≠ .idle) (hnew : f ≠ .idle) : Good ((s.removeTimer i p).atFrame f) := by
  have hn := h.sound.owned.wheel i
  refine ⟨hsound, h.wheel.removed hn hp rfl rfl hf, ?_⟩
  refine h.timers.of_eq (fun q => ?_) rfl ?_ rfl rfl
  · by_cases hq : q = p
    · subst hq
      have hnull : (((s.removeTimer i q).atFrame f).pool.recs q).cb = 0 := hcb
      rw [live_null hcb, live_null hnull]
    · refine live_congr rfl fun k => ?_
      exact (mem_removed hn).trans (and_iff_left fun heq => hq heq.2)
  · simp only [timersOf, ne_eq, hold, not_false_eq_true, decide_true, decide_eq_true_eq]
    exact hnew

theorem update_time_good (h : Good s) {tv : timeval} {r : Status} (hidle : s.wheel.frame = .idle)
    (hst : NR_async_timer_update_time s tv = (r, s')) : Good s' := by
  have hsound := update_time_sound h.sound hidle hst
  have hf := h.wheel.frame
  unfold FrameOk at hf
  rw [hidle] at hf
  have hup : (timersOf s).updating = false := by simp [timersOf, hidle]
  rcases update_time_cases hst with rfl | rfl | ⟨c, -, ⟨hlt, rfl⟩ | ⟨hle, rfl⟩⟩
  · refine h.reframe hsound rfl rfl rfl ?_ Iff.rfl
    unfold FrameOk
    dsimp only
    rw [hidle]
    exact hf
  · exact h
  · exact ⟨hsound, h.wheel, (h.timers.step (.late hup hlt)).of_eq (fun q => live_congr rfl fun k => Iff.rfl) rfl rfl rfl rfl⟩
  · refine ⟨hsound, ⟨h.wheel.inWheel, h.wheel.count, fun k q hq => ?_⟩, ?_⟩
    · obtain ⟨hcb, hdue⟩ := hf.2 k q hq
      exact ⟨hcb, .inr hdue⟩
    · exact (h.timers.step (.start hup hle)).of_eq (fun q => live_congr rfl fun k => Iff.rfl) rfl (by simp) rfl rfl

/-- The walk leaves a slot that has no due timer and no record without a
callback: every due timer of the wheel is then due at a later offset. -/
theorem InSlot.leave (h : WheelOk s.wheel s.pool.recs) {o : Nat} (hs : InSlot s.wheel s.pool.recs o)
    (hslot : ∀ p ∈ s.wheel.callwheel (o % WHEEL_SIZE),
      (s.pool.recs p).cb ≠ 0 ∧ s.wheel.current_offset < dueOf (s.pool.recs p)) :
    FrameOk (s.atFrame (.slot (o + 1))).wheel s.pool.recs := by
  intro k q hq
  by_cases hk : k = o % WHEEL_SIZE
  · rw [hk] at hq
    exact ⟨(hslot q hq).1, .inl (hslot q hq).2⟩
  · obtain ⟨hcb, hdue⟩ := hs.2 k hk q hq
    refine ⟨hcb, hdue.imp_right fun hle => Nat.lt_of_le_of_ne hle fun heq => hk ?_⟩
    rw [(h.inWheel k q hq).slot, ← heq]

/-- The walk takes a record out of its slot. -/
theorem InSlot.remove {o : Nat} (hin : InSlot s.wheel s.pool.recs o) {p : Ptr} {pre post : List Ptr}
    (hs : s.wheel.callwheel (o % WHEEL_SIZE) = pre ++ p :: post) (hp : p ∉ pre) (f : TimerFrame) :
    InSlot ((s.removeTimer (o % WHEEL_SIZE) p).atFrame f).wheel s.pool.recs o ∧
      ((s.removeTimer (o % WHEEL_SIZE) p).atFrame f).wheel.callwheel (o % WHEEL_SIZE) = pre ++ post := by
  refine ⟨⟨hin.1, fun k hk q hq => hin.2 k hk q ?_⟩, ?_⟩
  · have hq : q ∈ Function.update s.wheel.callwheel (o % WHEEL_SIZE) _ k := hq
    rwa [Function.update_of_ne hk] at hq
  · show Function.update s.wheel.callwheel (o % WHEEL_SIZE) _ (o % WHEEL_SIZE) = _
    rw [Function.update_self, hs, erase_split hp]

/-- The record a walk is at is taken out of its slot, and the walk goes on. -/
theorem InSlot.purge {o : Nat} (hin : InSlot s.wheel s.pool.recs o) (hnd : (s.wheel.callwheel (o % WHEEL_SIZE)).Nodup)
    {p : Ptr} {done : Ptr → Prop} (hrest : Rest (s.wheel.callwheel (o % WHEEL_SIZE)) done (some p)) (f : TimerFrame) :
    InSlot ((s.removeTimer (o % WHEEL_SIZE) p).atFrame f).wheel s.pool.recs o ∧
      ((s.removeTimer (o % WHEEL_SIZE) p).atFrame f).wheel.callwheel (o % WHEEL_SIZE) ⊆
        s.wheel.callwheel (o % WHEEL_SIZE) ∧
      Rest (((s.removeTimer (o % WHEEL_SIZE) p).atFrame f).wheel.callwheel (o % WHEEL_SIZE)) done
        (nextOf (s.wheel.callwheel (o % WHEEL_SIZE)) p) := by
  obtain ⟨pre, post, hs, hpre⟩ := hrest
  have hp : p ∉ pre := not_mem_left (hs ▸ hnd)
  obtain ⟨hin', hs'⟩ := hin.remove hs hp f
  refine ⟨hin', ?_, ?_⟩
  · rw [hs', hs]
    exact fun q hq => mem_around hq
  · rw [hs', hs, nextOf_split hp]
    exact rest_next pre post hpre

/-- A due timer fires. -/
theorem fire_good (h : Good s) {o : Nat} {p : Ptr} {f : TimerFrame} (hf : s.wheel.frame = .walk o (some p))
    (hnew : f = .call o p (nextOf (s.wheel.callwheel (o % WHEEL_SIZE)) p))
    (hdue : dueOf (s.pool.recs p) ≤ s.wheel.current_offset) (hcb : (s.pool.recs p).cb ≠ 0)
    (hsound : Sound { s.atFrame f with
      pool := s.pool.write p fun c => { c with cb := 0 }
      log := s.log ++ [.timerFired (s.pool.recs p).use] }) :
    Good { s.atFrame f with
      pool := s.pool.write p fun c => { c with cb := 0 }
      log := s.log ++ [.timerFired (s.pool.recs p).use] } := by
  have hw := h.wheel.frame
  unfold FrameOk at hw
  rw [hf] at hw
  obtain ⟨⟨hwork, hother⟩, hnull, pre, post, hs, hpre⟩ := hw
  have hnd := h.sound.owned.wheel (o % WHEEL_SIZE)
  have hp : p ∈ s.wheel.callwheel (o % WHEEL_SIZE) := by simp [hs]
  rw [hs] at hnd
  have hp1 := not_mem_left hnd
  have hp2 : p ∉ post := (List.nodup_cons.1 (List.nodup_append.1 hnd).2.1).1
  have hold : ∀ q ≠ p, Function.update s.pool.recs p { s.pool.recs p with cb := 0 } q = s.pool.recs q :=
    fun q hq => Function.update_of_ne hq ..
  have hne : ∀ q ∈ pre ++ post, q ≠ p := by
    rintro q hq rfl
    rcases List.mem_append.1 hq with hq | hq
    · exact hp1 hq
    · exact hp2 hq
  rw [hs, nextOf_split hp1] at hnew
  subst hnew
  refine ⟨hsound, ⟨fun k q hq => (h.wheel.inWheel k q hq).mark p, h.wheel.count, ?_⟩, ?_⟩
  · refine ⟨⟨hwork, fun k hk q hq => ?_⟩, ?_, pre, post, hs, fun q hq => ?_, fun q hq => ?_, fun hn q hq => ?_,
      fun q hq => hq⟩
    · have hqp : q ≠ p := by
        rintro rfl
        exact hk (h.sound.owned.one_slot hp hq)
      show (Function.update s.pool.recs p _ q).cb ≠ 0 ∧ (_ < dueOf (Function.update s.pool.recs p _ q) ∨
        o ≤ dueOf (Function.update s.pool.recs p _ q))
      rw [hold q hqp]
      exact hother k hk q hq
    · show (Function.update s.pool.recs p _ p).cb = 0
      rw [Function.update_self]
    · show _ < dueOf (Function.update s.pool.recs p _ q)
      rw [hold q (hne q (List.mem_append_left _ hq))]
      exact hpre q hq
    · show (Function.update s.pool.recs p _ q).cb = 0 → _
      rw [hold q (hne q hq)]
      refine hnull q ?_
      rw [hs]
      simp only [List.mem_append, List.mem_cons] at hq ⊢
      tauto
    · rw [List.head?_eq_none_iff.1 hn] at hq
      cases hq
  · have hlive := live_mem (h.wheel.inWheel _ p hp) hp hcb
    have hup : (timersOf s).updating = true := by simp [timersOf, hf]
    refine (h.timers.step (.fire hup hlive hdue)).of_eq
      (live_update (fun q hq => hold q hq) (fun k q hq => Iff.rfl) (live_null ?_)) rfl ?_ rfl rfl
    · show (Function.update s.pool.recs p _ p).cb = 0
      rw [Function.update_self]
    · rw [hup]
      simp [Async.atFrame]

theorem timer_step_good (h : Good s) {r : Status} (hst : timer_step s = some (r, s')) : Good s' := by
  have hsound := timer_step_sound h.sound hst
  have hw := h.wheel.frame
  unfold FrameOk at hw
  cases timer_step_inv hst with
  | @enter o hf hle =>
    rw [hf] at hw
    refine h.reframe hsound rfl rfl rfl ⟨⟨⟨hle, rfl⟩, fun k _ q hq => hw k q hq⟩, fun q hq hq0 => ?_, rest_head _ _⟩ (by simp [hf])
    exact absurd hq0 (hw _ q hq).1
  | @finish o hf hlt =>
    rw [hf] at hw
    have hlate : ∀ k, ∀ q ∈ s.wheel.callwheel k, s.wheel.current_offset < dueOf (s.pool.recs q) := by
      intro k q hq
      rcases (hw k q hq).2 with hdue | hdue
      · exact hdue
      · omega
    refine ⟨hsound,
      ⟨h.wheel.inWheel, h.wheel.count, rfl, fun k q hq => ⟨(hw k q hq).1, hlate k q hq⟩⟩, ?_⟩
    have hup : (timersOf s).updating = true := by simp [timersOf, hf]
    refine (h.timers.step (.finish hup fun p x D hl => ?_)).of_eq (fun q => live_congr rfl fun k => Iff.rfl) rfl rfl rfl rfl
    obtain ⟨hmem, -, -, rfl⟩ := mem_of_live hl
    exact hlate _ p hmem
  | sweep hf hpend =>
    rw [hf] at hw
    obtain ⟨hin, hnull, hR⟩ := hw
    exact h.reframe hsound rfl rfl rfl ⟨hin, hR, rest_head _ _⟩ (by simp [hf])
  | leave hf hpend =>
    rw [hf] at hw
    obtain ⟨hin, hnull, hR⟩ := hw
    refine h.reframe hsound rfl rfl rfl (hin.leave h.wheel fun p hp => ⟨fun h0 => hpend (hnull p hp h0), hR p hp⟩)
      (by simp [hf])
  | @fire o p hf hdue hcb =>
    rw [(h.wheel.inWheel _ p (h.sound.walk_mem hf)).isDue, decide_eq_true_eq] at hdue
    exact fire_good h hf rfl hdue hcb hsound
  | @drop o p hf hcb =>
    rw [hf] at hw
    obtain ⟨hin, hnull, hrest⟩ := hw
    obtain ⟨hin', hsub, hrest'⟩ := hin.purge (h.sound.owned.wheel _) hrest (.walk o _)
    exact h.purged hsound hrest.mem hcb ⟨hin', fun q hq => hnull q (hsub hq), hrest'⟩ (by simp [hf]) (by simp)
  | @skip o p hf hdue =>
    rw [hf] at hw
    obtain ⟨hin, hnull, hrest⟩ := hw
    rw [(h.wheel.inWheel _ p hrest.mem).isDue, decide_eq_true_eq] at hdue
    refine h.reframe hsound rfl rfl rfl ⟨hin, hnull, ?_⟩ (by simp [hf])
    exact hrest.next (h.sound.owned.wheel _) (Nat.lt_of_not_le hdue)
  | @resume o p cb2 hf =>
    rw [hf] at hw
    obtain ⟨hin, hcb, pre, post, hs, hpre, hnull, hend, hnext⟩ := hw
    have hp : p ∈ s.wheel.callwheel (o % WHEEL_SIZE) := by simp [hs]
    have hp1 : p ∉ pre := not_mem_left (hs ▸ h.sound.owned.wheel (o % WHEEL_SIZE))
    refine h.purged hsound hp hcb ?_ (by simp [hf]) (by simp)
    obtain ⟨hin', hs'⟩ := hin.remove hs hp1 (.walk o cb2)
    refine ⟨hin', ?_, ?_⟩
    · rw [hs']
      exact hnull
    · rw [hs']
      cases hcb2 : cb2 with
      | none =>
        -- the callback may have set timers behind the last one, which are not due
        intro q hq
        rcases List.mem_append.1 hq with hq | hq
        · exact hpre q hq
        · exact hend hcb2 q hq
      | some q =>
        have := rest_next pre post hpre
        rwa [hnext q hcb2] at this
  | swept hf =>
    rw [hf] at hw
    obtain ⟨hin, hdue, hR⟩ := hw
    exact h.reframe hsound rfl rfl rfl (hin.leave h.wheel fun p hp => ⟨hR p hp, hdue p hp⟩) (by simp [hf])
  | @purge o p hf hcb =>
    rw [hf] at hw
    obtain ⟨hin, hdue, hrest⟩ := hw
    obtain ⟨hin', hsub, hrest'⟩ := hin.purge (h.sound.owned.wheel _) hrest (.purge o _)
    exact h.purged hsound hrest.mem hcb ⟨hin', fun q hq => hdue q (hsub hq), hrest'⟩ (by simp [hf]) (by simp)
  | @keep o p hf hcb =>
    rw [hf] at hw
    obtain ⟨hin, hdue, hrest⟩ := hw
    exact h.reframe hsound rfl rfl rfl ⟨hin, hdue, hrest.next (h.sound.owned.wheel _) hcb⟩ (by simp [hf])

/-- Every call clients may make, and every step of the two walks, keeps the
invariant. -/
theorem step_good (h : Good s) {op : Op} {r : Status} (hok : Allowed s op = true) (hst : step s op = some (r, s')) :
    Good s' := by
  cases op with
  | wait sock how cb cb_arg => exact wait_good h hst
  | cancel sock how => exact cancel_good h hst
  | schedule cb cb_arg => exact schedule_good h hst
  | event_wait2 tv sel => exact event_wait2_good h (Option.some.inj hst)
  | loop => exact loop_step_good h hst
  | timer_set delay_ms cb cb_arg =>
    simp only [Allowed, Bool.and_eq_true, decide_eq_true_eq] at hok
    obtain ⟨⟨⟨hcl, hd⟩, hcb⟩, hsmall⟩ := hok
    exact timer_set_good h hcl hd hcb hsmall hst
  | timer_cancel p =>
    simp only [Allowed, Bool.and_eq_true, Bool.or_eq_true] at hok
    exact timer_cancel_good h hok.1 hok.2 hst
  | update_time tv =>
    simp only [Allowed, Bool.and_eq_true, decide_eq_true_eq] at hok
    exact update_time_good h hok.1.1.2 (Option.some.inj hst)
  | timer => exact timer_step_good h hst

theorem initial_good : Good initial := by
  refine ⟨initial_sound, ⟨fun i p hp => (by cases hp), ?_, rfl, fun i p hp => (by cases hp)⟩, ?_⟩
  · have hnil : initial.wheel.entries = [] := List.flatMap_eq_nil_iff.2 fun _ _ => rfl
    rw [hnil]
    rfl
  · have hlive : ∀ p, (timersOf initial).live p = none := fun p => live_not_mem fun i hp => (by cases hp)
    have hlog : ∀ k e, ¬ Logged (timersOf initial).log k e := fun k e hk => (by cases hk)
    have hres : ∀ j x, ¬ Resolves (timersOf initial).log j x := fun j x hj => hj.elim (hlog _ _) (hlog _ _)
    constructor
    · exact ⟨fun x j hj => absurd hj (hres j x), fun x i j hi => absurd hi (hres i x),
        fun k x D h j hk => absurd hk (hlog _ _), fun k x D h m c n hk => absurd hk (hlog _ _)⟩
    · exact fun k x D h hk => absurd hk (hlog _ _)
    · exact fun k k' x x' D D' h h' hk => absurd hk (hlog _ _)
    · exact fun m c hm => absurd hm (hlog _ _)
    · intro _ p x D hl
      rw [hlive p] at hl
      cases hl
    · intro p x D hl
      rw [hlive p] at hl
      cases hl
    · exact fun k x D h hk => absurd hk (hlog _ _)
    · exact ⟨fun m m' e e' _ hm => absurd hm (hlog _ _), fun _ m e hm => absurd hm (hlog _ _)⟩

/-- The states that calls with due offsets below `2 ^ 31` bring about. -/
abbrev ReachesSmall (evs : List (Op × Status)) (s : Async) : Prop := Run step (fun s op => Allowed s op) initial evs s

theorem ReachesSmall.good {evs : List (Op × Status)} (h : ReachesSmall evs s) : Good s :=
  h.inv Good initial_good fun _ _ _ _ hg hok hst => step_good hg hok hst

end

end Nrappkit.Event
