import Nrappkit.Event.Epoll
/-!
# The two builds side by side

`Builds` runs the epoll build and the select build on the same calls and the
same ready sockets. As long as every report covers what waits, and in the order
of the sockets, the two are twins: their tables, records and timers are the
same, and both fire the same callbacks in the same order. A report in another
order is enough to part them, since a callback may cancel what stands behind it
in the batch.
-/
open Lib

namespace Nrappkit.Event

structure Builds where
  epoll : Epoll
  select : Async

def Builds.initial : Builds := { epoll := .initial, select := Event.initial }

inductive BuildsOp where
  | call (op : Op)
  /-- With the directions the sockets are ready in, and what `epoll_wait`
  reports of them. -/
  | event_wait2 (tv : Option timeval) (ready_read ready_write : List Nat) (events : List epoll_event)

/-- What both builds do, with what each returns. -/
def Builds.both : Option (Status × Epoll) → Option (Status × Async) → Option ((Status × Status) × Builds)
  | some (r, epoll), some (r', select) => some ((r, r'), { epoll, select })
  | _, _ => none

def buildsStep (b : Builds) : BuildsOp → Option ((Status × Status) × Builds)
  | .call .loop =>
    -- the walk goes on in the builds in which it has not returned
    Builds.both (if b.epoll.async.loop.frame = .idle then some (.ok, b.epoll) else epollStep b.epoll (.call .loop))
      (if b.select.loop.frame = .idle then some (.ok, b.select) else loop_step b.select)
  | .call op => Builds.both (epollStep b.epoll (.call op)) (step b.select op)
  | .event_wait2 tv ready_read ready_write events =>
    Builds.both (some (b.epoll.NR_async_event_wait2 (some events)))
      (some (NR_async_event_wait2 b.select tv (selectOf b.select.loop ready_read ready_write)))

/-- The calls clients make in both builds, with what the kernel may report. -/
def BuildsPermitted (b : Builds) : BuildsOp → Bool
  | .call (.event_wait2 _ _) => false
  | .call op => Permitted b.epoll.async op && Permitted b.select op
  | .event_wait2 _ ready_read ready_write events =>
    EpollPermitted b.epoll (.event_wait2 ready_read ready_write (some events)) &&
      b.select.inClient && b.select.loop.frame = .idle

/-- What is reported covers what waits. -/
def Covered (b : Builds) : BuildsOp → Prop
  | .call _ => True
  | .event_wait2 _ ready_read ready_write events => Covers b.epoll.async.loop ready_read ready_write events

abbrev BuildsReach (evs : List (BuildsOp × Status × Status)) (b : Builds) : Prop :=
  Run buildsStep (fun b op => BuildsPermitted b op = true ∧ Covered b op) Builds.initial evs b

/-- No callback is running. -/
def LoopFrame.isHead : LoopFrame → Bool
  | .call .. => false
  | _ => true

/-- The same state up to the logs; of a batch that is empty, one may have
returned from the walk and the other not. -/
structure Twin (a b : Async) : Prop where
  pool : b.pool = a.pool
  wheel : b.wheel = a.wheel
  socket_vec : b.loop.socket_vec = a.loop.socket_vec
  q_head : b.loop.q_head = a.loop.q_head
  w_q : b.loop.w_q = a.loop.w_q
  w_q_n1 : b.loop.w_q_n1 = a.loop.w_q_n1
  frame : b.loop.frame = a.loop.frame ∨
    a.loop.w_q_n1 = none ∧ a.loop.frame.isHead = true ∧ b.loop.frame.isHead = true
  fired : firedUses b.log = firedUses a.log

/-- The same state, at another point of the walk and with another log. -/
def Async.at (s : Async) (frame : LoopFrame) (log : List Ev) : Async := { s with loop := { s.loop with frame }, log }

theorem Twin.eq_at {a b : Async} (h : Twin a b) : b = a.at b.loop.frame b.log := by
  obtain ⟨pool, ⟨socket_vec, q_head, w_q, w_q_n1, frame⟩, wheel, log⟩ := b
  obtain ⟨rfl, rfl, rfl, rfl, rfl, rfl, -, -⟩ := h
  rfl

/-- What a call appends to the log. -/
def Async.appended (s s' : Async) : List Ev := s'.log.drop s.log.length

/-! ## Calls do not look at the walk or at the log -/

section
variable (s : Async) (frame : LoopFrame) (log : List Ev)

theorem clearSlot_at (i j : Nat) : clearSlot (s.at frame log) i j = (clearSlot s i j).at frame log := by
  unfold clearSlot
  rw [show (s.at frame log).loop.socket_vec = s.loop.socket_vec from rfl]
  cases s.loop.socket_vec i j <;> rfl

theorem clearSlot_log (i j : Nat) : (clearSlot s i j).log = s.log := by
  unfold clearSlot
  split <;> rfl

theorem wait_at (sock how : Int) (cb cb_arg : UInt64) : NR_async_wait (s.at frame log) sock how cb cb_arg =
    (NR_async_wait s sock how cb cb_arg).map fun (r, s') => (r, s'.at frame (log ++ s.appended s')) := by
  unfold NR_async_wait
  rcases slotOf sock how with _ | r | ⟨i, j⟩
  · rfl
  · simp [Async.appended, Async.at]
  · dsimp only
    rw [clearSlot_at]
    simp [Async.appended, Async.at, clearSlot_log, Loop.setSlot]

theorem cancel_at (sock how : Int) : NR_async_cancel (s.at frame log) sock how =
    (NR_async_cancel s sock how).map fun (r, s') => (r, s'.at frame (log ++ s.appended s')) := by
  unfold NR_async_cancel
  rcases slotOf sock how with _ | r | ⟨i, j⟩
  · rfl
  · simp [Async.appended, Async.at]
  · dsimp only
    rw [clearSlot_at, show queuedFor ((clearSlot s i j).at frame log) sock how = queuedFor (clearSlot s i j) sock how from rfl]
    cases queuedFor (clearSlot s i j) sock how <;> simp [Async.appended, Async.at, clearSlot_log]

theorem schedule_at (cb cb_arg : UInt64) : NR_async_schedule (s.at frame log) cb cb_arg =
    (NR_async_schedule s cb cb_arg).map fun (r, s') => (r, s'.at frame (log ++ s.appended s')) := by
  simp [NR_async_schedule, Async.appended, Async.at]

theorem timer_set_at (delay_ms : Int) (cb cb_arg : UInt64) : NR_async_timer_set (s.at frame log) delay_ms cb cb_arg =
    (NR_async_timer_set s delay_ms cb cb_arg).map fun (r, s') => (r, s'.at frame (log ++ s.appended s')) := by
  unfold NR_async_timer_set
  by_cases hmax : s.wheel.timers_set = INT_MAX <;> simp [Async.appended, Async.at, hmax]

theorem timer_cancel_at (p : Ptr) : NR_async_timer_cancel (s.at frame log) p =
    (NR_async_timer_cancel s p).map fun (r, s') => (r, s'.at frame (log ++ s.appended s')) := by
  unfold NR_async_timer_cancel
  by_cases hcb : (s.pool.recs p).cb = 0
  · simp [Async.appended, Async.at, hcb]
  · cases hback : (s.pool.recs p).backptr with
    | none => simp [Async.at, hcb, hback]
    | some slot =>
      by_cases hw : s.wheel.working_entry = some slot <;>
        simp [Async.appended, Async.at, Async.removeTimer, hcb, hback, hw]

theorem update_time_at (tv : timeval) : NR_async_timer_update_time (s.at frame log) tv =
    let (r, s') := NR_async_timer_update_time s tv
    (r, s'.at frame (log ++ s.appended s')) := by
  unfold NR_async_timer_update_time
  by_cases hfirst : s.wheel.first_time.tv_sec = 0
  · simp [Async.appended, Async.at, hfirst]
  · cases hoff : offsetAt s.wheel.first_time tv with
    | error r => simp [Async.appended, Async.at, hfirst, hoff]
    | ok c => by_cases hlt : c < s.wheel.current_offset <;> simp [Async.appended, Async.at, hfirst, hoff, hlt]

theorem timer_step_at : timer_step (s.at frame log) =
    (timer_step s).map fun (r, s') => (r, s'.at frame (log ++ s.appended s')) := by
  unfold timer_step
  rw [show (s.at frame log).wheel = s.wheel from rfl, show (s.at frame log).pool = s.pool from rfl]
  rcases s.wheel.frame with _ | o | ⟨o, _ | p⟩ | ⟨o, p, p2⟩ | ⟨o, _ | p⟩
  · rfl
  · by_cases hle : o ≤ s.wheel.current_offset <;> simp [Async.appended, Async.at, hle]
  · by_cases hp : s.wheel.pending_deactivates = true <;> simp [Async.appended, Async.at, Async.atFrame, hp]
  · by_cases hd : isDue (s.pool.recs p) s.wheel.current_offset = true
    · by_cases hcb : (s.pool.recs p).cb = 0 <;>
        simp [Async.appended, Async.at, Async.atFrame, Async.removeTimer, hd, hcb]
    · simp [Async.appended, Async.at, Async.atFrame, hd]
  · simp [Async.appended, Async.at, Async.atFrame, Async.removeTimer]
  · simp [Async.appended, Async.at, Async.atFrame]
  · by_cases hcb : (s.pool.recs p).cb = 0 <;> simp [Async.appended, Async.at, Async.atFrame, Async.removeTimer, hcb]

/-- A call of client code, or a step of the timers. -/
def Op.isCall : Op → Bool
  | .event_wait2 .. | .loop => false
  | _ => true

theorem step_at {op : Op} (hop : op.isCall = true) : step (s.at frame log) op =
    (step s op).map fun (r, s') => (r, s'.at frame (log ++ s.appended s')) := by
  cases op with
  | wait sock how cb cb_arg => exact wait_at ..
  | cancel sock how => exact cancel_at ..
  | schedule cb cb_arg => exact schedule_at ..
  | event_wait2 tv sel => cases hop
  | loop => cases hop
  | timer_set delay_ms cb cb_arg => exact timer_set_at ..
  | timer_cancel handle => exact timer_cancel_at ..
  | update_time tv => exact congrArg some (update_time_at ..)
  | timer => exact timer_step_at ..

end

/-! ## Twins stay twins -/

theorem firedUses_append (log new : List Ev) : firedUses (log ++ new) = firedUses log ++ firedUses new :=
  List.filterMap_append

/-- A call of a state returns to the same point of the walk, and only appends to
the log. -/
theorem step_frame {s s' : Async} {op : Op} (hop : op.isCall = true) {r : Status} (hst : step s op = some (r, s')) :
    s'.loop.frame = s.loop.frame ∧ s'.log = s.log ++ s.appended s' := by
  have h := step_at s s.loop.frame s.log hop
  rw [show s.at s.loop.frame s.log = s from rfl, hst] at h
  have hs' : s' = s'.at s.loop.frame (s.log ++ s.appended s') := congrArg Prod.snd (Option.some.inj h)
  exact ⟨congrArg (fun s => s.loop.frame) hs', congrArg Async.log hs'⟩

theorem loop_step_at (s : Async) (log : List Ev) : loop_step (s.at s.loop.frame log) =
    (loop_step s).map fun (r, s') => (r, s'.at s'.loop.frame (log ++ s.appended s')) := by
  unfold loop_step
  rw [show (s.at s.loop.frame log).loop = s.loop from rfl, show (s.at s.loop.frame log).pool = s.pool from rfl]
  rcases s.loop.frame with _ | k | ⟨k, n2⟩ <;> rcases s.loop.w_q_n1 with _ | n1
  · rfl
  · rfl
  · simp [Async.appended, Async.at]
  · by_cases hcb : (s.pool.recs n1).cb = 0 <;> simp [Async.appended, Async.at, finishCallback, hcb]
  · rfl
  · simp [Async.appended, Async.at, finishCallback]

namespace Twin
variable {a b a' : Async}

theorem symm (h : Twin a b) : Twin b a where
  pool := h.pool.symm
  wheel := h.wheel.symm
  socket_vec := h.socket_vec.symm
  q_head := h.q_head.symm
  w_q := h.w_q.symm
  w_q_n1 := h.w_q_n1.symm
  frame := h.frame.imp Eq.symm fun ⟨hn, ha, hb⟩ => ⟨h.w_q_n1.trans hn, hb, ha⟩
  fired := h.fired.symm

/-- Client code runs in both, so that both are at the same point of the walk. -/
theorem frame_eq (h : Twin a b) (ha : a.inClient = true) (hb : b.inClient = true) : b.loop.frame = a.loop.frame := by
  rcases h.frame with heq | ⟨-, hheada, hheadb⟩
  · exact heq
  · unfold Async.inClient at ha hb
    cases hfa : a.loop.frame <;> cases hfb : b.loop.frame <;> simp_all [LoopFrame.isHead, LoopFrame.inClient]

theorem call (h : Twin a b) {op : Op} (hop : op.isCall = true) (ha : Permitted a op = true) (hb : Permitted b op = true)
    {r : Status} (hst : step a op = some (r, a')) : ∃ b', step b op = some (r, b') ∧ Twin a' b' := by
  refine ⟨a'.at b.loop.frame (b.log ++ a.appended a'), ?_, rfl, rfl, rfl, rfl, rfl, rfl, ?_, ?_⟩
  · rw [h.eq_at, step_at _ _ _ hop, hst]
    rfl
  · by_cases htimer : op = .timer
    · subst htimer
      rw [(timer_step_cases hst).1]
      exact h.frame
    · have hboth : a.inClient = true ∧ b.inClient = true := by
        cases op <;> simp_all [Permitted, Op.isCall]
      rw [(step_frame hop hst).1]
      exact .inl (h.frame_eq hboth.1 hboth.2)
  · rw [(step_frame hop hst).2]
    show firedUses (b.log ++ _) = _
    rw [firedUses_append, firedUses_append, h.fired]

/-- One is done with an empty batch. -/
theorem leave (h : Twin a b) (hn : a.loop.w_q_n1 = none) (ha : a.loop.frame.isHead = true) (hb : b.loop.frame.isHead = true)
    {r : Status} (hst : loop_step a = some (r, a')) : Twin a' b ∧ a'.loop.frame.isHead = true := by
  unfold loop_step at hst
  rw [hn] at hst
  split at hst
  · cases hst
  · cases hst
    refine ⟨⟨h.pool, h.wheel, h.socket_vec, h.q_head, h.w_q, h.w_q_n1, .inr ⟨hn, rfl, hb⟩, ?_⟩, rfl⟩
    rw [h.fired, firedUses_append]
    simp [firedUses]
  · rename_i heq
    cases heq
  · rename_i heq
    cases heq
  · rename_i hf _
    rw [hf] at ha
    cases ha

/-- Both go on from the same point. -/
theorem loop (h : Twin a b) (hf : b.loop.frame = a.loop.frame) {r : Status} (hst : loop_step a = some (r, a')) :
    ∃ b', loop_step b = some (r, b') ∧ Twin a' b' := by
  refine ⟨a'.at a'.loop.frame (b.log ++ a.appended a'), ?_, rfl, rfl, rfl, rfl, rfl, rfl, .inl rfl, ?_⟩
  · rw [h.eq_at, hf, loop_step_at, hst]
    rfl
  · have hlog := loop_step_at a a.log
    rw [show a.at a.loop.frame a.log = a from rfl, hst] at hlog
    have ha' : a' = a'.at a'.loop.frame (a.log ++ a.appended a') := congrArg Prod.snd (Option.some.inj hlog)
    have hlog' : a'.log = a.log ++ a.appended a' := congrArg Async.log ha'
    show firedUses (b.log ++ _) = _
    rw [hlog', firedUses_append, firedUses_append, h.fired]

/-- Both start on the same batch. -/
theorem began (h : Twin a b) {b' : Async} {ready_read ready_write : List Nat}
    (ha : Began a ready_read ready_write a') (hb : Began b ready_read ready_write b') : Twin a' b' := by
  have hready : readyOf b.loop ready_read ready_write = readyOf a.loop ready_read ready_write := by
    unfold readyOf
    rw [h.socket_vec]
  have hw : b'.loop.w_q = a'.loop.w_q := by rw [hb.w_q, ha.w_q, h.q_head, hready]
  refine ⟨?_, ?_, ?_, ?_, hw, ?_, ?_, ?_⟩
  · rw [hb.pool, ha.pool, h.pool]
  · rw [hb.wheel, ha.wheel, h.wheel]
  · funext i j
    rw [hb.socket_vec, ha.socket_vec, h.socket_vec]
  · rw [hb.q_head, ha.q_head]
  · rw [hb.w_q_n1, ha.w_q_n1, hw]
  · have hhead : ∀ {s s' : Async}, Began s ready_read ready_write s' → s'.loop.frame.isHead = true := fun hs =>
      hs.frame.elim (fun hf => by rw [hf]; rfl) fun hf => by rw [hf.1]; rfl
    rcases ha.frame with hfa | ⟨hfa, hnil⟩
    · rcases hb.frame with hfb | ⟨hfb, hnil⟩
      · exact .inl (hfb.trans hfa.symm)
      · exact .inr ⟨by rw [ha.w_q_n1, ← hw, hnil]; rfl, hhead ha, hhead hb⟩
    · exact .inr ⟨by rw [ha.w_q_n1, hnil]; rfl, hhead ha, hhead hb⟩
  · rw [hb.fired, ha.fired, h.fired]

end Twin

/-! ## Every run of the two -/

/-- What holds after every run. -/
structure BuildsGood (b : Builds) : Prop where
  epoll : Sound b.epoll.async ∧ LoopGood b.epoll.async
  select : Sound b.select ∧ LoopGood b.select
  twin : Twin b.epoll.async b.select

section
variable {b b' : Builds} {rs : Status × Status}

/-- A call of client code is the same call in both builds. -/
theorem epollStep_isCall {s s' : Epoll} {op : Op} (hop : op.isCall = true) {r : Status}
    (hst : epollStep s (.call op) = some (r, s')) : step s.async op = some (r, s'.async) := by
  cases op with
  | event_wait2 tv sel => cases hop
  | loop => cases hop
  | wait _ _ _ _ | cancel _ _ | schedule _ _ | timer_set _ _ _ | timer_cancel _ | update_time _ | timer =>
    unfold epollStep at hst
    obtain ⟨a, ha, heq⟩ := Option.map_eq_some_iff.1 hst
    cases heq
    exact ha

theorem both_eq_some {e : Option (Status × Epoll)} {a : Option (Status × Async)} :
    Builds.both e a = some (rs, b') ↔ e = some (rs.1, b'.epoll) ∧ a = some (rs.2, b'.select) := by
  obtain ⟨r, r'⟩ := rs
  obtain ⟨epoll, select⟩ := b'
  rcases e with _ | ⟨r₁, epoll₁⟩ <;> rcases a with _ | ⟨r₂, select₂⟩ <;> simp [Builds.both, and_and_and_comm]

theorem buildsStep_isCall {op : Op} (hop : op.isCall = true) :
    buildsStep b (.call op) = Builds.both (epollStep b.epoll (.call op)) (step b.select op) := by
  cases op with
  | loop => cases hop
  | _ => rfl

theorem buildsStep_wait2 {tv : Option timeval} {ready_read ready_write : List Nat} {events : List epoll_event}
    (hst : buildsStep b (.event_wait2 tv ready_read ready_write events) = some (rs, b')) :
    b.epoll.NR_async_event_wait2 (some events) = (rs.1, b'.epoll) ∧
      NR_async_event_wait2 b.select tv (selectOf b.select.loop ready_read ready_write) = (rs.2, b'.select) := by
  rw [buildsStep] at hst
  obtain ⟨he, hs⟩ := both_eq_some.1 hst
  exact ⟨Option.some.inj he, Option.some.inj hs⟩

/-- A build that has returned stays as it is. -/
theorem buildsStep_loop (hst : buildsStep b (.call .loop) = some (rs, b')) :
    (b.epoll.async.loop.frame = .idle ∧ b'.epoll = b.epoll ∨ epollStep b.epoll (.call .loop) = some (rs.1, b'.epoll)) ∧
      (b.select.loop.frame = .idle ∧ b'.select = b.select ∨ loop_step b.select = some (rs.2, b'.select)) := by
  rw [buildsStep] at hst
  obtain ⟨he, hs⟩ := both_eq_some.1 hst
  refine ⟨?_, ?_⟩
  · split at he
    · rename_i hidle
      exact .inl ⟨hidle, (congrArg Prod.snd (Option.some.inj he)).symm⟩
    · exact .inr he
  · split at hs
    · rename_i hidle
      exact .inl ⟨hidle, (congrArg Prod.snd (Option.some.inj hs)).symm⟩
    · exact .inr hs

/-- Twins of which one has returned, or both are at the same point. -/
theorem builds_loop_twin (h : Twin b.epoll.async b.select) (hst : buildsStep b (.call .loop) = some (rs, b')) :
    Twin b'.epoll.async b'.select := by
  obtain ⟨he, hs⟩ := buildsStep_loop hst
  have hstep : ∀ {s : Epoll} {r : Status}, epollStep b.epoll (.call .loop) = some (r, s) →
      ∃ r', loop_step b.epoll.async = some (r', s.async) := fun hst => epollStep_call hst
  rcases h.frame with heq | ⟨hn, hheada, hheadb⟩
  · rcases he with ⟨hidle, he⟩ | he
    · rcases hs with ⟨-, hs⟩ | hs
      · rw [he, hs]
        exact h
      · rw [loop_step, heq, hidle] at hs
        cases hs
    · obtain ⟨r', he⟩ := hstep he
      obtain ⟨a', hst', htwin⟩ := h.loop heq he
      rcases hs with ⟨hidle, -⟩ | hs
      · rw [loop_step, ← heq, hidle] at he
        cases he
      · rw [hst'] at hs
        cases hs
        exact htwin
  · -- an empty batch: each returns on its own
    have hone : Twin b'.epoll.async b.select ∧ b'.epoll.async.loop.frame.isHead = true := by
      rcases he with ⟨-, he⟩ | he
      · rw [he]
        exact ⟨h, hheada⟩
      · obtain ⟨r', he⟩ := hstep he
        exact h.leave hn hheada hheadb he
    rcases hs with ⟨-, hs⟩ | hs
    · rw [hs]
      exact hone.1
    · exact (hone.1.symm.leave (h.w_q_n1.trans hn) hheadb hone.2 hs).1.symm

theorem wait2_good {a a' : Async} (h : Sound a ∧ LoopGood a) (hclient : a.inClient = true)
    (hidle : a.loop.frame = .idle) {tv : Option timeval} {sel : Select} {r : Status}
    (hst : NR_async_event_wait2 a tv sel = (r, a')) : Sound a' ∧ LoopGood a' := by
  have hok : Permitted a (.event_wait2 tv sel) = true := by simp [Permitted, hclient, hidle]
  have hst' : step a (.event_wait2 tv sel) = some (r, a') := by rw [step, hst]
  exact ⟨step_sound h.1 hok hst', step_loop h.1 h.2 hok hst'⟩

theorem permitted_call {op : Op} (hok : BuildsPermitted b (.call op) = true) (hop : op.isCall = true) :
    Permitted b.epoll.async op = true ∧ Permitted b.select op = true := by
  cases op <;> simp_all [BuildsPermitted, Op.isCall]

theorem permitted_loop {op : Op} (hok : BuildsPermitted b (.call op) = true) (hop : ¬ op.isCall = true) : op = .loop := by
  cases op <;> simp_all [BuildsPermitted, Op.isCall]

/-- A call is made in both, and returns the same. -/
theorem builds_call_good (h : BuildsGood b) {op : Op} (hop : op.isCall = true)
    (hok : BuildsPermitted b (.call op) = true) (hst : buildsStep b (.call op) = some (rs, b')) :
    BuildsGood b' ∧ rs.1 = rs.2 := by
  obtain ⟨hepoll, hselect⟩ := permitted_call hok hop
  rw [buildsStep_isCall hop] at hst
  obtain ⟨he, hs⟩ := both_eq_some.1 hst
  obtain ⟨a', hs', htwin⟩ := h.twin.call hop hepoll hselect (epollStep_isCall hop he)
  rw [hs] at hs'
  obtain ⟨hr, rfl⟩ := Prod.mk.inj (Option.some.inj hs')
  refine ⟨⟨?_, ?_, htwin⟩, hr.symm⟩
  · exact epollStep_good h.epoll (show EpollPermitted b.epoll (.call op) = true from hepoll) he
  · exact ⟨step_sound h.select.1 hselect hs, step_loop h.select.1 h.select.2 hselect hs⟩

theorem builds_loop_good (h : BuildsGood b) (hst : buildsStep b (.call .loop) = some (rs, b')) : BuildsGood b' := by
  refine ⟨?_, ?_, builds_loop_twin h.twin hst⟩
  · rcases (buildsStep_loop hst).1 with ⟨-, he⟩ | he
    · rw [he]
      exact h.epoll
    · exact epollStep_good h.epoll (show EpollPermitted b.epoll (.call .loop) = true from rfl) he
  · rcases (buildsStep_loop hst).2 with ⟨-, hs⟩ | hs
    · rw [hs]
      exact h.select
    · have hok : Permitted b.select .loop = true := rfl
      exact ⟨step_sound h.select.1 hok hs, step_loop h.select.1 h.select.2 hok hs⟩

/-- A report that covers what waits starts both on the same batch. -/
theorem builds_wait2_good (h : BuildsGood b) {tv : Option timeval} {ready_read ready_write : List Nat}
    {events : List epoll_event} (hok : BuildsPermitted b (.event_wait2 tv ready_read ready_write events) = true)
    (hcov : Covers b.epoll.async.loop ready_read ready_write events)
    (hst : buildsStep b (.event_wait2 tv ready_read ready_write events) = some (rs, b')) : BuildsGood b' := by
  simp only [BuildsPermitted, Bool.and_eq_true, decide_eq_true_eq] at hok
  obtain ⟨⟨hok, hclient⟩, hidle⟩ := hok
  have hpoll := hok
  simp only [EpollPermitted, Bool.and_eq_true, decide_eq_true_eq, Option.all_some] at hpoll
  obtain ⟨⟨-, hidle'⟩, hrep⟩ := hpoll
  obtain ⟨he, hs⟩ := buildsStep_wait2 hst
  refine ⟨epollStep_good h.epoll hok (congrArg some he), wait2_good h.select hclient hidle hs, ?_⟩
  exact h.twin.began (epoll_began h.epoll.1.loop h.epoll.2.rel hidle' hrep hcov he)
    (select_began h.select.1.loop h.select.2.rel hidle hs)

theorem builds_good (h : BuildsGood b) {op : BuildsOp} (hok : BuildsPermitted b op = true) (hcov : Covered b op)
    (hst : buildsStep b op = some (rs, b')) : BuildsGood b' := by
  cases op with
  | event_wait2 tv ready_read ready_write events => exact builds_wait2_good h hok hcov hst
  | call op =>
    by_cases hop : op.isCall = true
    · exact (builds_call_good h hop hok hst).1
    · obtain rfl := permitted_loop hok hop
      exact builds_loop_good h hst

theorem BuildsReach.good {evs : List (BuildsOp × Status × Status)} (h : BuildsReach evs b) : BuildsGood b :=
  h.inv BuildsGood ⟨⟨initial_sound, initial_loop⟩, ⟨initial_sound, initial_loop⟩, rfl, rfl, rfl, rfl, rfl, rfl, .inl rfl, rfl⟩
    fun _ _ _ _ hg hok hst => builds_good hg hok.1 hok.2 hst

end

/-- The same calls in the select build. -/
def inOrder : List Op :=
  [.wait 3 0 7 0, .wait 4 0 8 0, .event_wait2 none ⟨2, [3, 4], [], false⟩, .loop, .cancel 4 0, .loop, .loop, .loop]

end Nrappkit.Event
