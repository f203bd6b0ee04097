import Nrappkit.Event.Machine
/-!
# Records are never shared

`Sound` holds in every state clients can bring about, whatever the delays and
the times: every record is in one place, the walks stand on records that are
still in their queues, and the record of a live timer is in the wheel.
-/
open Lib

namespace Nrappkit.Event

/-! ## The invariant -/

/-- A walk over the wheel is in the slot it works on, and the record whose
callback runs has no callback any more. -/
def WalkOk (w : Wheel) (recs : Ptr → callback) : Prop :=
  match w.frame with
  | .idle | .slot _ => True
  | .walk o cb | .purge o cb =>
    w.working_entry = some (o % WHEEL_SIZE) ∧ ∀ p, cb = some p → p ∈ w.callwheel (o % WHEEL_SIZE)
  | .call o p cb2 => w.working_entry = some (o % WHEEL_SIZE) ∧ (recs p).cb = 0 ∧
    p ∈ w.callwheel (o % WHEEL_SIZE) ∧ ∀ q, cb2 = some q → q ∈ w.callwheel (o % WHEEL_SIZE) ∧ q ≠ p

/-- The timer is set, and has neither fired nor been cancelled. -/
def Pending (log : List Ev) (x : Use) (h : Ptr) : Prop :=
  x.cb ≠ 0 ∧ (∃ D, .timerSet x D h ∈ log) ∧ .timerFired x ∉ log ∧ .timerCancelled x ∉ log

structure Sound (s : Async) : Prop where
  owned : Owned s
  loop : LoopOk s.loop
  walk : WalkOk s.wheel s.pool.recs
  back : ∀ i, ∀ p ∈ s.wheel.callwheel i, (s.pool.recs p).backptr = some i
  pending : ∀ x h, Pending s.log x h → (∃ i, h ∈ s.wheel.callwheel i) ∧ (s.pool.recs h).use = x

section
variable {s s' : Async}

/-- A walk is at a record of its slot. -/
theorem Sound.walk_mem (h : Sound s) {o : Nat} {p : Ptr} (hf : s.wheel.frame = .walk o (some p)) :
    p ∈ s.wheel.callwheel (o % WHEEL_SIZE) := by
  have hwalk := h.walk
  unfold WalkOk at hwalk
  rw [hf] at hwalk
  exact hwalk.2 p rfl

theorem liveHandle_pending {h : Ptr} (hl : s.liveHandle h = true) : ∃ x, Pending s.log x h := by
  obtain ⟨e, he, hp⟩ := List.any_eq_true.1 hl
  split at hp
  · rename_i x D h'
    simp only [Bool.and_eq_true, decide_eq_true_eq, Bool.not_eq_true', List.contains_eq_mem,
      decide_eq_false_iff_not] at hp
    obtain ⟨⟨⟨rfl, hcb⟩, hnf⟩, hnc⟩ := hp
    exact ⟨x, hcb, ⟨D, he⟩, hnf, hnc⟩
  · cases hp

/-- A timer that is pending after one more event was pending before, or is the
one that was just set. -/
theorem Pending.of_snoc {log : List Ev} {e : Ev} {x : Use} {h : Ptr} (hp : Pending (log ++ [e]) x h) :
    (Pending log x h ∧ e ≠ .timerFired x ∧ e ≠ .timerCancelled x) ∨ ∃ D, e = .timerSet x D h := by
  obtain ⟨hcb, ⟨D, hset⟩, hnf, hnc⟩ := hp
  simp only [List.mem_append, List.mem_singleton, not_or] at hset hnf hnc
  rcases hset with hset | hset
  · exact .inl ⟨⟨hcb, ⟨D, hset⟩, hnf.1, hnc.1⟩, Ne.symm hnf.2, Ne.symm hnc.2⟩
  · exact .inr ⟨D, hset.symm⟩

/-! ## Client calls -/

/-- A step that does not touch the wheel. -/
theorem Sound.frame (h : Sound s) (ho : Owned s') (hl : LoopOk s'.loop) (hw : s'.wheel = s.wheel)
    (hr : ∀ i, ∀ p ∈ s.wheel.callwheel i, s'.pool.recs p = s.pool.recs p)
    (hlog : ∀ x p, Pending s'.log x p → Pending s.log x p) : Sound s' := by
  refine ⟨ho, hl, ?_, fun i p hp => ?_, fun x p hp => ?_⟩
  · have hwalk := h.walk
    unfold WalkOk at *
    rw [hw]
    cases hf : s.wheel.frame with
    | idle => trivial
    | slot o => trivial
    | walk o cb =>
      rw [hf] at hwalk
      exact hwalk
    | purge o cb =>
      rw [hf] at hwalk
      exact hwalk
    | call o p cb2 =>
      rw [hf] at hwalk
      obtain ⟨hwork, hcb, hp, hnext⟩ := hwalk
      exact ⟨hwork, (hr _ p hp).symm ▸ hcb, hp, hnext⟩
  · rw [hw] at hp
    rw [hr i p hp]
    exact h.back i p hp
  · obtain ⟨⟨i, hi⟩, huse⟩ := h.pending x p (hlog x p hp)
    rw [hr i p hi, hw]
    exact ⟨⟨i, hi⟩, huse⟩

/-- Events that are not about timers leave them pending. -/
theorem Pending.other {log : List Ev} {e : Ev} (he : ∀ x D h, e ≠ .timerSet x D h) (x : Use) (h : Ptr)
    (hp : Pending (log ++ [e]) x h) : Pending log x h := by
  rcases hp.of_snoc with hp' | ⟨D, heq⟩
  · exact hp'.1
  · exact absurd heq (he x D h)

/-- What emptying a slot leaves as it was. -/
theorem clearSlot_frame (s : Async) (i j : Nat) :
    (clearSlot s i j).wheel = s.wheel ∧ (clearSlot s i j).pool.recs = s.pool.recs ∧
      (clearSlot s i j).pool.serial = s.pool.serial ∧ (clearSlot s i j).log = s.log ∧
      (clearSlot s i j).loop.q_head = s.loop.q_head ∧ (clearSlot s i j).loop.w_q = s.loop.w_q ∧
      (clearSlot s i j).loop.w_q_n1 = s.loop.w_q_n1 ∧ (clearSlot s i j).loop.frame = s.loop.frame := by
  unfold clearSlot
  split <;> simp [Pool.nr_async_destroy_cb, Loop.setSlot]

/-- A new record leaves those in the wheel as they were. -/
theorem Owned.ne_created (ho : Owned s) {cb arg : UInt64} {how resource : Int} {p : Ptr} {pool' : Pool}
    (hc : s.pool.Creates cb arg how resource p pool') {i : Nat} {q : Ptr} (hq : q ∈ s.wheel.callwheel i) : q ≠ p := by
  rintro rfl
  exact ho.created_not_wheel hc i hq

theorem created_frame (ho : Owned s) {cb arg : UInt64} {how resource : Int} {p : Ptr} {pool' : Pool}
    (hc : s.pool.Creates cb arg how resource p pool') (i : Nat) (q : Ptr) (hq : q ∈ s.wheel.callwheel i) :
    pool'.recs q = s.pool.recs q := by
  rw [hc.recs, Function.update_of_ne (ho.ne_created hc hq)]

/-- Writing the new record leaves those of the wheel alone. -/
theorem write_created_frame (ho : Owned s) {cb arg : UInt64} {how resource : Int} {p : Ptr} {pool' : Pool}
    (hc : s.pool.Creates cb arg how resource p pool') (f : callback → callback) (i : Nat) (q : Ptr)
    (hq : q ∈ s.wheel.callwheel i) : (pool'.write p f).recs q = s.pool.recs q := by
  simp [Pool.write, hc.recs, ho.ne_created hc hq]

/-- The record of a new timer, with the slot it is put into. -/
theorem timer_record {pool pool' : Pool} {cb cb_arg : UInt64} {resource : Int} {p : Ptr}
    (hc : pool.Creates cb cb_arg (-1) resource p pool') (i : Nat) :
    ∃ c : callback, (pool'.write p fun c => { c with backptr := some i }).recs = Function.update pool.recs p c ∧
      c.cb = cb ∧ c.resource = resource ∧ c.backptr = some i ∧ (pool'.recs p).use = c.use ∧
      c.use.serial = pool.serial := by
  refine ⟨{ pool.fill p cb cb_arg (-1) resource with backptr := some i }, ?_, rfl, rfl, rfl, ?_, rfl⟩
  · simp [Pool.write, hc.recs]
  · simp [hc.recs, callback.use]

theorem wait_frame (h : Sound s) {sock how : Int} {cb cb_arg : UInt64} {r : Status}
    (hst : NR_async_wait s sock how cb cb_arg = some (r, s')) :
    s'.wheel = s.wheel ∧ (∀ i, ∀ p ∈ s.wheel.callwheel i, s'.pool.recs p = s.pool.recs p) ∧
      (s' = s ∨ s'.pool.serial = s.pool.serial + 1 ∧ ∃ x i j, s'.log = s.log ++ [.registered x i j]) ∧
      LoopOk s'.loop := by
  rcases wait_cases hst with rfl | ⟨i, j, p, pool', -, -, -, -, hc, rfl⟩
  · exact ⟨rfl, fun _ _ _ => rfl, .inl rfl, h.loop⟩
  · obtain ⟨hw, hrecs, hserial, hlog, -, hwq, hn1, hf⟩ := clearSlot_frame s i j
    have hnew := created_frame (clearSlot_owned h.owned i j) hc
    rw [hw, hrecs] at hnew
    refine ⟨hw, hnew, .inr ⟨?_, (pool'.recs p).use, i, j, ?_⟩, h.loop.congr hf hwq hn1⟩
    · show pool'.serial = _
      rw [hc.serial, hserial]
    · show (clearSlot s i j).log ++ _ = _
      rw [hlog]

theorem cancel_frame (h : Sound s) {sock how : Int} {r : Status} (hst : NR_async_cancel s sock how = some (r, s')) :
    s'.wheel = s.wheel ∧ (∀ i, ∀ p ∈ s.wheel.callwheel i, s'.pool.recs p = s.pool.recs p) ∧
      s'.pool.serial = s.pool.serial ∧ (s' = s ∨ ∃ i j, s'.log = s.log ++ [.cancelled i j]) ∧ LoopOk s'.loop := by
  rcases cancel_cases hst with rfl | ⟨i, j, -, -, ⟨-, rfl⟩ | ⟨c, hc, rfl⟩⟩
  · exact ⟨rfl, fun _ _ _ => rfl, rfl, .inl rfl, h.loop⟩
  · obtain ⟨hw, hrecs, hserial, hlog, -, hwq, hn1, hf⟩ := clearSlot_frame s i j
    refine ⟨hw, fun k q _ => ?_, hserial, .inr ⟨i, j, ?_⟩, h.loop.congr hf hwq hn1⟩
    · show (clearSlot s i j).pool.recs q = _
      rw [hrecs]
    · show (clearSlot s i j).log ++ _ = _
      rw [hlog]
  · obtain ⟨hw, hrecs, hserial, hlog, -, hwq, hn1, hf⟩ := clearSlot_frame s i j
    have hcw : c ∈ (clearSlot s i j).loop.w_q := by
      obtain ⟨n1, -, hfind⟩ := Option.bind_eq_some_iff.1 hc
      exact mem_of_mem_after (List.mem_of_find?_eq_some hfind)
    refine ⟨hw, fun k q hq => ?_, hserial, .inr ⟨i, j, ?_⟩, h.loop.congr hf hwq hn1⟩
    · have hne : q ≠ c := by
        rintro rfl
        rw [← hw] at hq
        cases (clearSlot_owned h.owned i j).one q (.wheel k) .working hq hcw
      show Function.update (clearSlot s i j).pool.recs c _ q = _
      rw [Function.update_of_ne hne, hrecs]
    · show (clearSlot s i j).log ++ _ = _
      rw [hlog]

theorem wait_sound (h : Sound s) {sock how : Int} {cb cb_arg : UInt64} {r : Status}
    (hst : NR_async_wait s sock how cb cb_arg = some (r, s')) : Sound s' := by
  obtain ⟨hw, hr, hlog, hl⟩ := wait_frame h hst
  refine h.frame (wait_owned h.owned hst) hl hw hr ?_
  rcases hlog with rfl | ⟨-, x, i, j, hlog⟩
  · exact fun _ _ hp => hp
  · rw [hlog]
    exact Pending.other (by simp)

theorem cancel_sound (h : Sound s) {sock how : Int} {r : Status} (hst : NR_async_cancel s sock how = some (r, s')) :
    Sound s' := by
  obtain ⟨hw, hr, -, hlog, hl⟩ := cancel_frame h hst
  refine h.frame (cancel_owned h.owned hst) hl hw hr ?_
  rcases hlog with rfl | ⟨i, j, hlog⟩
  · exact fun _ _ hp => hp
  · rw [hlog]
    exact Pending.other (by simp)

theorem schedule_sound (h : Sound s) {cb cb_arg : UInt64} {r : Status}
    (hst : NR_async_schedule s cb cb_arg = some (r, s')) : Sound s' := by
  have ho := schedule_owned h.owned hst
  obtain ⟨p, pool', hc, rfl⟩ := schedule_cases hst
  exact h.frame ho (h.loop.congr rfl rfl rfl) rfl (created_frame h.owned hc) (Pending.other (by simp))

theorem event_wait2_sound (h : Sound s) {tv : Option timeval} {sel : Select} {r : Status}
    (hst : NR_async_event_wait2 s tv sel = (r, s')) : Sound s' := by
  have ho := event_wait2_owned h.owned hst
  have hl := event_wait2_ok h.loop hst
  rcases event_wait2_cases hst with rfl | rfl | ⟨m, -, rfl⟩
  · exact h
  · exact h.frame ho hl rfl (fun _ _ _ => rfl) (Pending.other (by simp))
  · exact h.frame ho hl rfl (fun _ _ _ => rfl) (Pending.other (by simp))

theorem loop_step_sound (h : Sound s) {r : Status} (hst : loop_step s = some (r, s')) : Sound s' := by
  have hl := loop_step_ok h.loop hst
  rcases loop_step_cases h.loop hst with ⟨events, -, -, -, rfl⟩ | ⟨events, n1, rest, -, -, -, -, rfl⟩ |
    ⟨events, n1, rest, -, hw, -, events', rfl⟩
  · exact h.frame (h.owned.congr rfl rfl rfl rfl rfl rfl) hl rfl (fun _ _ _ => rfl) (Pending.other (by simp))
  · exact h.frame (h.owned.congr rfl rfl rfl rfl rfl rfl) hl rfl (fun _ _ _ => rfl) (Pending.other (by simp))
  · have hn1 : n1 ∈ s.loop.w_q := by simp [hw]
    exact h.frame (finishCallback_owned h.owned hn1 events' rest.head?) hl rfl (fun _ _ _ => rfl) fun _ _ hp => hp

/-! ## Timers -/

/-- A record is in one slot only. -/
theorem Owned.one_slot (h : Owned s) {p : Ptr} {i k : Nat} (hi : p ∈ s.wheel.callwheel i)
    (hk : p ∈ s.wheel.callwheel k) : k = i := by
  have := h.one p (.wheel k) (.wheel i) hk hi
  cases this
  rfl

theorem timer_set_sound (h : Sound s) {delay_ms : Int} {cb cb_arg : UInt64} {r : Status} (hcl : s.inClient = true)
    (hst : NR_async_timer_set s delay_ms cb cb_arg = some (r, s')) : Sound s' := by
  have ho := timer_set_owned h.owned hst
  obtain ⟨due, p, pool', -, hc, rfl⟩ := timer_set_cases hst
  have hkeep := write_created_frame h.owned hc fun c => { c with backptr := some (due % WHEEL_SIZE) }
  refine ⟨ho, h.loop.congr rfl rfl rfl, ?_, fun k q hq => ?_, fun x q hq => ?_⟩
  · have hwalk := h.walk
    have hcl' : s.wheel.frame.inClient = true := (Bool.and_eq_true_iff.1 hcl).2
    unfold WalkOk at *
    dsimp only
    rcases TimerFrame.client_cases hcl' with hf | ⟨o, q, cb2, hf⟩
    · rw [hf]
      trivial
    · rw [hf] at hwalk ⊢
      obtain ⟨hwork, hcb, hq, hnext⟩ := hwalk
      refine ⟨hwork, ?_, mem_added.2 (.inl hq), fun q' hq' => ?_⟩
      · rw [hkeep _ q hq]
        exact hcb
      · obtain ⟨hmem, hne⟩ := hnext q' hq'
        exact ⟨mem_added.2 (.inl hmem), hne⟩
  · rcases mem_added.1 hq with hq | ⟨rfl, rfl⟩
    · rw [hkeep k q hq]
      exact h.back k q hq
    · simp [Pool.write]
  · rcases hq.of_snoc with ⟨hq', -, -⟩ | ⟨D, heq⟩
    · obtain ⟨⟨k, hk⟩, huse⟩ := h.pending x q hq'
      refine ⟨⟨k, mem_added.2 (.inl hk)⟩, ?_⟩
      rw [hkeep k q hk]
      exact huse
    · cases heq
      refine ⟨⟨_, mem_added.2 (.inr ⟨rfl, rfl⟩)⟩, ?_⟩
      simp [Pool.write, callback.use]

/-- A record without a callback, or one that is cancelled, leaves a slot. -/
theorem Sound.remove (h : Sound s) {i : Nat} {p : Ptr} (hp : p ∈ s.wheel.callwheel i) {w : Wheel} {log : List Ev}
    (hcw : w.callwheel = Function.update s.wheel.callwheel i ((s.wheel.callwheel i).erase p))
    (hwalk : WalkOk w s.pool.recs)
    (hlog : ∀ x q, Pending log x q → Pending s.log x q ∧ x ≠ (s.pool.recs p).use) :
    Sound { s with pool := s.pool.nr_async_destroy_cb p, wheel := w, log } := by
  have hn := h.owned.wheel i
  refine ⟨(removeTimer_owned h.owned hp).congr rfl rfl rfl rfl rfl hcw, h.loop.congr rfl rfl rfl, hwalk,
    fun k q hq => ?_, fun x q hq => ?_⟩
  · dsimp only at hq
    rw [hcw] at hq
    exact h.back k q ((mem_removed hn).1 hq).1
  · obtain ⟨hq', hne⟩ := hlog x q hq
    obtain ⟨⟨k, hk⟩, huse⟩ := h.pending x q hq'
    refine ⟨⟨k, ?_⟩, huse⟩
    dsimp only
    rw [hcw]
    refine (mem_removed hn).2 ⟨hk, fun heq => hne ?_⟩
    rw [← huse, heq.2]

/-- The callback of a record in the wheel is called, or cancelled. -/
theorem Sound.mark (h : Sound s) {p : Ptr} {w : Wheel} {log : List Ev} (hcw : w.callwheel = s.wheel.callwheel)
    (hwalk : WalkOk w (Function.update s.pool.recs p { s.pool.recs p with cb := 0 }))
    (hlog : ∀ x q, Pending log x q → Pending s.log x q ∧ x ≠ (s.pool.recs p).use) :
    Sound { s with pool := s.pool.write p fun c => { c with cb := 0 }, wheel := w, log } := by
  refine ⟨h.owned.congr rfl rfl rfl rfl rfl hcw, h.loop.congr rfl rfl rfl, hwalk, fun k q hq => ?_, fun x q hq => ?_⟩
  · dsimp only at hq
    rw [hcw] at hq
    have hback := h.back k q hq
    show (Function.update s.pool.recs p _ q).backptr = _
    by_cases hqp : q = p
    · rw [hqp] at hback ⊢
      rw [Function.update_self]
      exact hback
    · rw [Function.update_of_ne hqp]
      exact hback
  · obtain ⟨hq', hne⟩ := hlog x q hq
    obtain ⟨hk, huse⟩ := h.pending x q hq'
    have hqp : q ≠ p := by
      rintro rfl
      exact hne huse.symm
    refine ⟨?_, ?_⟩
    · dsimp only
      rw [hcw]
      exact hk
    · show (Function.update s.pool.recs p _ q).use = _
      rw [Function.update_of_ne hqp]
      exact huse

/-- What is resolved is not pending. -/
theorem Pending.resolved {log : List Ev} {e : Ev} {x : Use} (he : e = .timerFired x ∨ e = .timerCancelled x) (y : Use)
    (h : Ptr) (hp : Pending (log ++ [e]) y h) : Pending log y h ∧ y ≠ x := by
  rcases hp.of_snoc with ⟨hp', hnf, hnc⟩ | ⟨D, heq⟩
  · refine ⟨hp', ?_⟩
    rintro rfl
    rcases he with he | he
    · exact hnf he
    · exact hnc he
  · rcases he with he | he
    · rw [he] at heq
      cases heq
    · rw [he] at heq
      cases heq

/-- `NR_async_timer_cancel` does nothing for the timer whose callback runs; a
live timer it marks in the slot being walked, and removes from another one. -/
theorem timer_cancel_cases (h : Sound s) {p : Ptr} {r : Status} (hp : s.liveHandle p = true ∨ s.runningHandle p = true)
    (hst : NR_async_timer_cancel s p = some (r, s')) :
    s' = s ∨ ∃ i, (s.pool.recs p).cb ≠ 0 ∧ p ∈ s.wheel.callwheel i ∧
      (s.wheel.working_entry = some i ∧ s' = { s with
          pool := s.pool.write p fun c => { c with cb := 0 }
          wheel := { s.wheel with pending_deactivates := true }
          log := s.log ++ [.timerCancelled (s.pool.recs p).use] } ∨
        s.wheel.working_entry ≠ some i ∧ s' = { s.removeTimer i p with
          log := s.log ++ [.timerCancelled (s.pool.recs p).use] }) := by
  unfold NR_async_timer_cancel at hst
  dsimp only at hst
  split at hst
  · cases hst
    exact .inl rfl
  rename_i hcb
  have hmem : ∃ i, p ∈ s.wheel.callwheel i := by
    rcases hp with hp | hp
    · obtain ⟨x, hx⟩ := liveHandle_pending hp
      exact (h.pending x p hx).1
    · have hwalk := h.walk
      unfold Async.runningHandle at hp
      unfold WalkOk at hwalk
      split at hp
      · rename_i heq
        rw [heq] at hwalk
        rw [decide_eq_true_eq] at hp
        rw [← hp] at hcb
        exact absurd hwalk.2.1 hcb
      · cases hp
  obtain ⟨i, hmem⟩ := hmem
  rw [h.back i p hmem] at hst
  dsimp only at hst
  refine .inr ⟨i, hcb, hmem, ?_⟩
  split at hst
  · rename_i hwork
    cases hst
    exact .inl ⟨hwork, rfl⟩
  · rename_i hwork
    cases hst
    exact .inr ⟨hwork, rfl⟩

theorem timer_cancel_sound (h : Sound s) {p : Ptr} {r : Status} (hcl : s.inClient = true)
    (hp : s.liveHandle p = true ∨ s.runningHandle p = true)
    (hst : NR_async_timer_cancel s p = some (r, s')) : Sound s' := by
  have hcl' : s.wheel.frame.inClient = true := (Bool.and_eq_true_iff.1 hcl).2
  have hwalk := h.walk
  have hres : ∀ y q, Pending (s.log ++ [.timerCancelled (s.pool.recs p).use]) y q →
      Pending s.log y q ∧ y ≠ (s.pool.recs p).use := Pending.resolved (.inr rfl)
  unfold WalkOk at hwalk
  rcases timer_cancel_cases h hp hst with rfl | ⟨i, hcb, hmem, ⟨hwork, rfl⟩ | ⟨hwork, rfl⟩⟩
  · exact h
  · refine h.mark rfl ?_ hres
    unfold WalkOk
    dsimp only
    rcases TimerFrame.client_cases hcl' with hf | ⟨o, q, cb2, hf⟩
    · rw [hf]
      trivial
    · rw [hf] at hwalk ⊢
      obtain ⟨hwork, hq0, hrest⟩ := hwalk
      have hqp : q ≠ p := by
        rintro rfl
        exact hcb hq0
      refine ⟨hwork, ?_, hrest⟩
      rw [Function.update_of_ne hqp]
      exact hq0
  · refine h.remove hmem rfl ?_ hres
    unfold WalkOk
    simp only [Async.removeTimer]
    rcases TimerFrame.client_cases hcl' with hf | ⟨o, q, cb2, hf⟩
    · rw [hf]
      trivial
    · rw [hf] at hwalk ⊢
      have hio : o % WHEEL_SIZE ≠ i := by
        rintro rfl
        exact hwork hwalk.1
      dsimp only
      rw [Function.update_of_ne hio]
      exact hwalk

theorem update_time_sound (h : Sound s) {tv : timeval} {r : Status} (hidle : s.wheel.frame = .idle)
    (hst : NR_async_timer_update_time s tv = (r, s')) : Sound s' := by
  rcases update_time_cases hst with rfl | rfl | ⟨c, -, ⟨-, rfl⟩ | ⟨-, rfl⟩⟩
  · refine ⟨h.owned.congr rfl rfl rfl rfl rfl rfl, h.loop, ?_, h.back, h.pending⟩
    unfold WalkOk
    dsimp only
    rw [hidle]
    trivial
  · exact h
  · refine h.frame (h.owned.congr rfl rfl rfl rfl rfl rfl) h.loop rfl (fun _ _ _ => rfl) fun x p hp => ?_
    dsimp only at hp
    rw [List.append_cons] at hp
    exact Pending.other (by simp) x p (Pending.other (by simp) x p hp)
  · exact ⟨h.owned.congr rfl rfl rfl rfl rfl rfl, h.loop, trivial, h.back,
      fun x p hp => h.pending x p (Pending.other (by simp) x p hp)⟩

/-- A step of the update that moves no record. -/
theorem Sound.reframe (h : Sound s) {w : Wheel} (hcw : w.callwheel = s.wheel.callwheel)
    (hwalk : WalkOk w s.pool.recs) : Sound { s with wheel := w } := by
  refine ⟨h.owned.congr rfl rfl rfl rfl rfl hcw, h.loop, hwalk, ?_, ?_⟩
  · dsimp only
    rw [hcw]
    exact h.back
  · dsimp only
    rw [hcw]
    exact h.pending

/-- A record without a callback is not that of a pending timer. -/
theorem Pending.ne_null {log : List Ev} {x : Use} {c : callback} (hc : c.cb = 0) {h : Ptr} (hp : Pending log x h) :
    x ≠ c.use := by
  rintro rfl
  exact hp.1 hc

/-- The walk goes on behind a record it takes out of the slot. -/
theorem Sound.purge (h : Sound s) {o : Nat} {p : Ptr} {f : TimerFrame} (hp : p ∈ s.wheel.callwheel (o % WHEEL_SIZE))
    (hcb : (s.pool.recs p).cb = 0) (hwork : s.wheel.working_entry = some (o % WHEEL_SIZE)) {cb2 : Option Ptr}
    (hnext : ∀ q, cb2 = some q → q ∈ s.wheel.callwheel (o % WHEEL_SIZE) ∧ q ≠ p)
    (hf : f = .walk o cb2 ∨ f = .purge o cb2) : Sound ((s.removeTimer (o % WHEEL_SIZE) p).atFrame f) := by
  have hmem : ∀ q, cb2 = some q →
      q ∈ ((s.removeTimer (o % WHEEL_SIZE) p).atFrame f).wheel.callwheel (o % WHEEL_SIZE) := by
    intro q hq
    obtain ⟨hold, hne⟩ := hnext q hq
    exact (mem_removed (h.owned.wheel _)).2 ⟨hold, fun heq => hne heq.2⟩
  refine h.remove hp rfl ?_ fun x q hq => ⟨hq, hq.ne_null hcb⟩
  rcases hf with rfl | rfl
  · exact ⟨hwork, hmem⟩
  · exact ⟨hwork, hmem⟩

theorem timer_step_sound (h : Sound s) {r : Status} (hst : timer_step s = some (r, s')) : Sound s' := by
  have hw := h.walk
  unfold WalkOk at hw
  have hnext : ∀ o p q, nextOf (s.wheel.callwheel (o % WHEEL_SIZE)) p = some q →
      q ∈ s.wheel.callwheel (o % WHEEL_SIZE) ∧ q ≠ p :=
    fun o p q hq => ⟨mem_of_nextOf hq, ne_of_nextOf (h.owned.wheel _) hq⟩
  cases timer_step_inv hst with
  | enter hf hle => exact h.reframe rfl ⟨rfl, fun p hp => List.mem_of_mem_head? hp⟩
  | finish hf hlt =>
    exact ⟨h.owned.congr rfl rfl rfl rfl rfl rfl, h.loop, trivial, h.back,
      fun x p hp => h.pending x p (Pending.other (by simp) x p hp)⟩
  | sweep hf hpend =>
    rw [hf] at hw
    exact h.reframe rfl ⟨hw.1, fun p hp => List.mem_of_mem_head? hp⟩
  | leave hf hpend => exact h.reframe rfl trivial
  | @fire o p hf hdue hcb =>
    rw [hf] at hw
    obtain ⟨hwork, hmem⟩ := hw
    refine h.mark rfl ⟨hwork, ?_, hmem p rfl, hnext o p⟩ (Pending.resolved (.inl rfl))
    rw [Function.update_self]
  | @drop o p hf hcb =>
    rw [hf] at hw
    obtain ⟨hwork, hmem⟩ := hw
    exact h.purge (hmem p rfl) hcb hwork (hnext o p) (.inl rfl)
  | @skip o p hf hdue =>
    rw [hf] at hw
    exact h.reframe rfl ⟨hw.1, fun q hq => (hnext o p q hq).1⟩
  | resume hf =>
    rw [hf] at hw
    obtain ⟨hwork, hcb, hmem, hnext'⟩ := hw
    exact h.purge hmem hcb hwork hnext' (.inl rfl)
  | swept hf => exact h.reframe rfl trivial
  | @purge o p hf hcb =>
    rw [hf] at hw
    obtain ⟨hwork, hmem⟩ := hw
    exact h.purge (hmem p rfl) hcb hwork (hnext o p) (.inr rfl)
  | @keep o p hf hcb =>
    rw [hf] at hw
    exact h.reframe rfl ⟨hw.1, fun q hq => (hnext o p q hq).1⟩

/-! ## Every run -/

/-- Every call clients may make, and every step of the two walks, keeps the
invariant. -/
theorem step_sound (h : Sound s) {op : Op} {r : Status} (hok : Permitted s op = true)
    (hst : step s op = some (r, s')) : Sound s' := by
  cases op with
  | wait sock how cb cb_arg => exact wait_sound h hst
  | cancel sock how => exact cancel_sound h hst
  | schedule cb cb_arg => exact schedule_sound h hst
  | event_wait2 tv sel => exact event_wait2_sound h (Option.some.inj hst)
  | loop => exact loop_step_sound h hst
  | timer_set delay_ms cb cb_arg => exact timer_set_sound h hok hst
  | timer_cancel p =>
    simp only [Permitted, Bool.and_eq_true, Bool.or_eq_true] at hok
    exact timer_cancel_sound h hok.1 hok.2 hst
  | update_time tv =>
    simp only [Permitted, Bool.and_eq_true, decide_eq_true_eq] at hok
    exact update_time_sound h hok.2 (Option.some.inj hst)
  | timer => exact timer_step_sound h hst

theorem initial_sound : Sound initial := by
  refine ⟨⟨fun p P Q hP hQ => ?_, List.nodup_nil, List.nodup_nil, List.nodup_nil, fun _ => List.nodup_nil⟩, ⟨rfl, rfl⟩,
    trivial, fun i p hp => (by cases hp), fun x p hp => ?_⟩
  · cases P <;> cases hP <;> cases Q <;> cases hQ <;> rfl
  · obtain ⟨-, ⟨D, hD⟩, -⟩ := hp
    cases hD

/-- The states that calls clients may make bring about. -/
abbrev Reaches (evs : List (Op × Status)) (s : Async) : Prop := Run step (fun s op => Permitted s op) initial evs s

theorem Reaches.sound {evs : List (Op × Status)} (h : Reaches evs s) : Sound s :=
  h.inv Sound initial_sound fun _ _ _ _ hs hok hst => step_sound hs hok hst

end

end Nrappkit.Event
