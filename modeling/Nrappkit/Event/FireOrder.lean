import Nrappkit.Event.TimedWheel
/-!
# The order in which timers fire

An update visits the slots from the one behind the current offset on, and at
each visit fires what is due at the offset the update leads to, which may be
far ahead of the offset of the visit. So the timers fire in the order their
slots are first visited in, and within a slot in the order they were set.
-/
open Lib

namespace Nrappkit.Event

/-! ## What is claimed -/

/-- Of two timers the first has the lesser `key` of its due offset, or the same
one and was set before. -/
def Before (key : Nat → Nat) (log : List Ev) (x y : Use) : Prop :=
  ∃ k D h k' D' h', Logged log k (.timerSet x D h) ∧ Logged log k' (.timerSet y D' h') ∧
    (key D < key D' ∨ key D = key D' ∧ k < k')

/-- The steps of an update, with callbacks that set and cancel no timer. -/
def Quiet (s : Async) (op : Op) : Bool :=
  Allowed s op && match op with
    | .timer_set _ _ _ | .timer_cancel _ | .update_time _ => false
    | _ => true

/-- However far the update that started in `s` has come, what it fired was
fired in the order of the due offsets. -/
def FiresInDueOrder (s s' : Async) : Prop :=
  ∀ evs s₂, Run step (fun s op => Quiet s op) s' evs s₂ →
    ∀ i j x y, s.log.length < i → i < j → Logged s₂.log i (.timerFired x) → Logged s₂.log j (.timerFired y) →
      Before id s₂.log x y

/-- The offset at which an update from `start` on first visits the slot of `D`. -/
def visit (start D : Nat) : Nat := start + (D - start) % WHEEL_SIZE

/-- Of two timers that an update up to `c` reaches, the slot of the one that is
due first is visited first, or both are in one slot and it was also set first. -/
def VisitsInOrder (s : Async) (c : Nat) : Prop :=
  ∀ k x D h k' y D' h', Logged s.log k (.timerSet x D h) → Logged s.log k' (.timerSet y D' h') →
    (∀ j, ¬ Resolves s.log j x) → (∀ j, ¬ Resolves s.log j y) → D < D' → D' ≤ c →
    visit (s.wheel.current_offset + 1) D < visit (s.wheel.current_offset + 1) D' ∨
      visit (s.wheel.current_offset + 1) D = visit (s.wheel.current_offset + 1) D' ∧ k < k'

/-! ## Slots are in the order of setting -/

/-- One timer was set before another. -/
abbrev SetBefore : List Ev → Use → Use → Prop := Before fun _ => 0

/-- The live timers of a slot stand in the order they were set. -/
def Sorted (s : Async) : Prop :=
  ∀ i, (s.wheel.callwheel i).Pairwise fun p q =>
    (s.pool.recs p).cb ≠ 0 → (s.pool.recs q).cb ≠ 0 → SetBefore s.log (s.pool.recs p).use (s.pool.recs q).use

/-- The slots lose records, callbacks are taken away, and the log grows. -/
structure Shrinks (s s' : Async) : Prop where
  sub : ∀ i, (s'.wheel.callwheel i).Sublist (s.wheel.callwheel i)
  recs : ∀ i, ∀ p ∈ s'.wheel.callwheel i, (s'.pool.recs p).cb ≠ 0 → s'.pool.recs p = s.pool.recs p
  log : s.log <+: s'.log

theorem Before.mono {key : Nat → Nat} {l l' : List Ev} (h : l <+: l') {x y : Use} (hb : Before key l x y) :
    Before key l' x y := by
  obtain ⟨k, D, p, k', D', p', hk, hk', hlt⟩ := hb
  exact ⟨k, D, p, k', D', p', hk.mono h, hk'.mono h, hlt⟩

section
variable {s s' : Async}

theorem Shrinks.sorted (h : Shrinks s s') (hs : Sorted s) : Sorted s' := by
  intro i
  refine ((hs i).sublist (h.sub i)).imp_of_mem fun {p q} hp hq hb hpcb hqcb => ?_
  have hpr := h.recs i p hp hpcb
  have hqr := h.recs i q hq hqcb
  rw [hpr] at hpcb ⊢
  rw [hqr] at hqcb ⊢
  exact (hb hpcb hqcb).mono h.log

/-- No record moves. -/
theorem same_shrinks (s : Async) {w : Wheel} {log : List Ev} (hw : w.callwheel = s.wheel.callwheel)
    (hlog : s.log <+: log) : Shrinks s { s with wheel := w, log } := by
  refine ⟨fun i => ?_, fun _ _ _ _ => rfl, hlog⟩
  dsimp only
  rw [hw]

/-- A record leaves a slot. -/
theorem removeTimer_shrinks (s : Async) (i : Nat) (p : Ptr) {w : Wheel} {log : List Ev}
    (hw : w.callwheel = Function.update s.wheel.callwheel i ((s.wheel.callwheel i).erase p)) (hlog : s.log <+: log) :
    Shrinks s { s with pool := s.pool.nr_async_destroy_cb p, wheel := w, log } := by
  refine ⟨fun k => ?_, fun _ _ _ _ => rfl, hlog⟩
  dsimp only
  rw [hw]
  by_cases hk : k = i
  · subst hk
    rw [Function.update_self]
    exact List.erase_sublist
  · rw [Function.update_of_ne hk]

/-- A callback is called or cancelled. -/
theorem mark_shrinks (s : Async) (p : Ptr) {w : Wheel} {log : List Ev} (hw : w.callwheel = s.wheel.callwheel)
    (hlog : s.log <+: log) :
    Shrinks s { s with pool := s.pool.write p fun c => { c with cb := 0 }, wheel := w, log } := by
  refine ⟨fun k => ?_, fun i q _ hq => ?_, hlog⟩
  · dsimp only
    rw [hw]
  · show Function.update s.pool.recs p _ q = _
    have hne : q ≠ p := by
      rintro rfl
      exact hq (by show (Function.update s.pool.recs q _ q).cb = 0; rw [Function.update_self])
    rw [Function.update_of_ne hne]

theorem update_time_shrinks {tv : timeval} {r : Status} (hst : NR_async_timer_update_time s tv = (r, s')) :
    Shrinks s s' := by
  rcases update_time_cases hst with rfl | rfl | ⟨c, -, ⟨-, rfl⟩ | ⟨-, rfl⟩⟩
  · exact same_shrinks _ rfl List.prefix_rfl
  · exact same_shrinks _ rfl List.prefix_rfl
  · exact same_shrinks _ rfl (List.prefix_append ..)
  · exact same_shrinks _ rfl (List.prefix_append ..)

theorem timer_step_shrinks {r : Status} (hst : timer_step s = some (r, s')) : Shrinks s s' := by
  have hpre : ∀ e, s.log <+: s.log ++ [e] := fun e => List.prefix_append ..
  cases timer_step_inv hst with
  | enter | sweep | leave | skip | swept | keep => exact same_shrinks s rfl List.prefix_rfl
  | finish => exact same_shrinks s rfl (hpre _)
  | fire => exact mark_shrinks s _ rfl (hpre _)
  | drop | resume | purge => exact removeTimer_shrinks s _ _ rfl List.prefix_rfl

theorem other_shrinks (h : Sound s) {op : Op} {r : Status} (hop : op.isTimer = false) (hst : step s op = some (r, s')) :
    Shrinks s s' := by
  obtain ⟨hw, hr⟩ := other_frame h hop hst
  refine ⟨fun i => by rw [hw], fun i p hp _ => hr i p (by rwa [hw] at hp), ?_⟩
  rcases (other_log h hop hst).2 with hlog | ⟨e, -, hlog⟩
  · rw [hlog]
  · rw [hlog]
    exact List.prefix_append ..

/-- A live timer was set. -/
theorem Good.set_logged (h : Good s) {i : Nat} {p : Ptr} (hp : p ∈ s.wheel.callwheel i) (hcb : (s.pool.recs p).cb ≠ 0) :
    ∃ k, Logged s.log k (.timerSet (s.pool.recs p).use (dueOf (s.pool.recs p)) p) ∧
      ∀ j, ¬ Resolves s.log j (s.pool.recs p).use := by
  obtain ⟨k, hk, hun, -⟩ := h.timers.live p _ _ (live_mem (h.wheel.inWheel i p hp) hp hcb)
  exact ⟨k, hk, hun⟩

theorem timer_set_sorted (h : Good s) (hs : Sorted s) {delay_ms : Int} {cb cb_arg : UInt64} {r : Status}
    (hst : NR_async_timer_set s delay_ms cb cb_arg = some (r, s')) : Sorted s' := by
  obtain ⟨due, p, pool', -, hc, rfl⟩ := timer_set_cases hst
  have hpre : ∀ e, s.log <+: s.log ++ [e] := fun e => List.prefix_append ..
  have hkeep := write_created_frame h.sound.owned hc fun c => { c with backptr := some (due % WHEEL_SIZE) }
  have hold : ∀ i, (s.wheel.callwheel i).Pairwise fun q q' =>
      ((pool'.write p fun c => { c with backptr := some (due % WHEEL_SIZE) }).recs q).cb ≠ 0 →
      ((pool'.write p fun c => { c with backptr := some (due % WHEEL_SIZE) }).recs q').cb ≠ 0 →
      SetBefore (s.log ++ [.timerSet (pool'.recs p).use due p])
        ((pool'.write p fun c => { c with backptr := some (due % WHEEL_SIZE) }).recs q).use
        ((pool'.write p fun c => { c with backptr := some (due % WHEEL_SIZE) }).recs q').use := by
    intro i
    refine (hs i).imp_of_mem fun {q q'} hq hq' hb => ?_
    rw [hkeep i q hq, hkeep i q' hq']
    exact fun hcb hcb' => (hb hcb hcb').mono (hpre _)
  intro i
  dsimp only
  by_cases hi : i = due % WHEEL_SIZE
  · rw [hi, Function.update_self]
    refine List.pairwise_append.2 ⟨hold _, List.pairwise_singleton .., fun q hq q' hq' hcb hcb' => ?_⟩
    rw [List.mem_singleton.1 hq']
    rw [hkeep _ q hq] at hcb ⊢
    obtain ⟨k, hk, -⟩ := h.set_logged hq hcb
    have huse : ((pool'.write p fun c => { c with backptr := some (due % WHEEL_SIZE) }).recs p).use =
        (pool'.recs p).use := by simp [Pool.write, callback.use]
    rw [huse]
    exact ⟨k, _, q, s.log.length, due, p, hk.old _, logged_snoc.2 (.inr ⟨rfl, rfl⟩), .inr ⟨rfl, hk.lt⟩⟩
  · rw [Function.update_of_ne hi]
    exact hold i

theorem step_sorted (h : Good s) (hs : Sorted s) {op : Op} {r : Status} (hok : Allowed s op = true)
    (hst : step s op = some (r, s')) : Sorted s' := by
  cases hopt : op.isTimer with
  | false => exact (other_shrinks h.sound hopt hst).sorted hs
  | true =>
    cases op with
    | timer_set delay_ms cb cb_arg => exact timer_set_sorted h hs hst
    | timer_cancel p =>
      simp only [Allowed, Bool.and_eq_true, Bool.or_eq_true] at hok
      rcases timer_cancel_cases h.sound hok.2 hst with rfl | ⟨i, -, -, ⟨-, rfl⟩ | ⟨-, rfl⟩⟩
      · exact hs
      · exact (mark_shrinks s p rfl (List.prefix_append ..)).sorted hs
      · exact (removeTimer_shrinks s i p rfl (List.prefix_append ..)).sorted hs
    | update_time tv => exact (update_time_shrinks (Option.some.inj hst)).sorted hs
    | timer => exact (timer_step_shrinks hst).sorted hs
    | wait sock how cb cb_arg => cases hopt
    | cancel sock how => cases hopt
    | schedule cb cb_arg => cases hopt
    | event_wait2 tv sel => cases hopt
    | loop => cases hopt

theorem ReachesSmall.sorted {evs : List (Op × Status)} (h : ReachesSmall evs s) : Sorted s := by
  have hboth : Good s ∧ Sorted s := by
    refine h.inv (fun s => Good s ∧ Sorted s) ⟨initial_good, fun i => List.Pairwise.nil⟩ ?_
    rintro s op r s' ⟨hg, hs⟩ hok hst
    exact ⟨step_good hg hok hst, step_sorted hg hs hok hst⟩
  exact hboth.2

end

/-! ## The visits of an update -/

/-- The offset an update is at. -/
def TimerFrame.offset : TimerFrame → Option Nat
  | .idle => none
  | .slot o | .walk o _ | .call o _ _ | .purge o _ => some o

/-- The slots an update from `start` on has visited have no due timer any
more. -/
def Cleared (start : Nat) (w : Wheel) (recs : Ptr → callback) : Prop :=
  ∀ o, w.frame.offset = some o → start ≤ o ∧ ∀ o', start ≤ o' → o' < o → ∀ p ∈ w.callwheel (o' % WHEEL_SIZE),
    (recs p).cb ≠ 0 → w.current_offset < dueOf (recs p)

/-- The event neither sets nor resolves a timer. -/
def Ev.silent : Ev → Bool
  | timerSet .. | timerFired .. | timerCancelled .. => false
  | _ => true

theorem silent_of_other {e : Ev} (h : e.isTimer = false) : e.silent = true := by
  cases e <;> first | rfl | cases h

/-- What an update from `start` on has fired behind position `m` of the log, it
fired in the order of the visits, and what is left comes later. -/
structure InOrder (start m : Nat) (s : Async) : Prop where
  cleared : Cleared start s.wheel s.pool.recs
  late : ∀ i, ∀ p ∈ s.wheel.callwheel i, (s.pool.recs p).cb ≠ 0 → start ≤ dueOf (s.pool.recs p)
  fired : ∀ i j x y, m < i → i < j → Logged s.log i (.timerFired x) → Logged s.log j (.timerFired y) →
    Before (visit start) s.log x y
  left : ∀ i x, m < i → Logged s.log i (.timerFired x) → ∀ k, ∀ q ∈ s.wheel.callwheel k, (s.pool.recs q).cb ≠ 0 →
    dueOf (s.pool.recs q) ≤ s.wheel.current_offset → Before (visit start) s.log x (s.pool.recs q).use
  only : ∀ i e, m < i → Logged s.log i e → (∃ x, e = .timerFired x) ∨ e.silent = true

/-- The visit at which nothing of the slot has been visited yet. -/
theorem visit_first {start o D : Nat} (ho : start ≤ o) (hD : start ≤ D) (hmod : o % WHEEL_SIZE = D % WHEEL_SIZE)
    (hfirst : ∀ o', start ≤ o' → o' < o → o' % WHEEL_SIZE ≠ D % WHEEL_SIZE) : visit start D = o := by
  have hv := hfirst (visit start D)
  unfold visit WHEEL_SIZE at *
  omega

theorem visit_mod {start D : Nat} (hD : start ≤ D) : visit start D % WHEEL_SIZE = D % WHEEL_SIZE := by
  unfold visit WHEEL_SIZE
  omega

theorem visit_congr {start D D' : Nat} (hD : start ≤ D) (hD' : start ≤ D') (h : D % WHEEL_SIZE = D' % WHEEL_SIZE) :
    visit start D = visit start D' := by
  unfold visit WHEEL_SIZE at *
  omega

/-- An offset within one turn of the wheel is visited in its own time. -/
theorem visit_near {start D : Nat} (hD : start ≤ D) (hn : D < start + WHEEL_SIZE) : visit start D = D := by
  unfold visit WHEEL_SIZE at *
  omega

section
variable {s s' : Async} {start m : Nat}

theorem Cleared.mono (h : Cleared start s.wheel s.pool.recs) (hs : Shrinks s s')
    (hoff : s'.wheel.current_offset = s.wheel.current_offset)
    (hf : s'.wheel.frame.offset = s.wheel.frame.offset) : Cleared start s'.wheel s'.pool.recs := by
  intro o ho
  rw [hf] at ho
  obtain ⟨hle, hclear⟩ := h o ho
  refine ⟨hle, fun o' hs' hlt p hp hcb => ?_⟩
  have hr := hs.recs _ p hp hcb
  rw [hr] at hcb ⊢
  rw [hoff]
  exact hclear o' hs' hlt p ((hs.sub _).subset hp) hcb

/-- The update leaves a slot in which no timer is due. -/
theorem Cleared.next (h : Cleared start s.wheel s.pool.recs) {o : Nat} (ho : s.wheel.frame.offset = some o)
    (hslot : ∀ p ∈ s.wheel.callwheel (o % WHEEL_SIZE), s.wheel.current_offset < dueOf (s.pool.recs p)) :
    Cleared start (s.atFrame (.slot (o + 1))).wheel s.pool.recs := by
  obtain ⟨hle, hclear⟩ := h o ho
  rintro o₁ ho₁
  cases ho₁
  refine ⟨Nat.le_succ_of_le hle, fun o' hs' hlt p hp hcb => ?_⟩
  rcases Nat.lt_succ_iff_lt_or_eq.1 hlt with hlt | rfl
  · exact hclear o' hs' hlt p hp hcb
  · exact hslot p hp

/-- A step that fires and cancels nothing. -/
theorem InOrder.shrink (h : InOrder start m s) (hs : Shrinks s s')
    (hoff : s'.wheel.current_offset = s.wheel.current_offset) (hc : Cleared start s'.wheel s'.pool.recs)
    (hlog : ∀ i e, Logged s'.log i e → Logged s.log i e ∨ e.silent = true) :
    InOrder start m s' := by
  have hfired : ∀ {i x}, Logged s'.log i (.timerFired x) → Logged s.log i (.timerFired x) := fun {i x} hi =>
    (hlog i _ hi).resolve_right (by simp [Ev.silent])
  refine ⟨hc, fun i p hp hcb => ?_, fun i j x y hm hij hi hj => ?_, fun i x hm hi k q hq hcb hdue => ?_,
    fun i e hm hi => (hlog i e hi).elim (h.only i e hm) .inr⟩
  · have hr := hs.recs i p hp hcb
    rw [hr] at hcb ⊢
    exact h.late i p ((hs.sub i).subset hp) hcb
  · exact (h.fired i j x y hm hij (hfired hi) (hfired hj)).mono hs.log
  · have hr := hs.recs k q hq hcb
    rw [hr] at hcb hdue ⊢
    rw [hoff] at hdue
    exact (h.left i x hm (hfired hi) k q ((hs.sub k).subset hq) hcb hdue).mono hs.log

/-- The timer a walk fires comes before all others that are due. -/
theorem fire_first (hg : Good s) (hs : Sorted s) (h : InOrder start m s) {o : Nat} {p : Ptr}
    (hf : s.wheel.frame = .walk o (some p)) (hcb : (s.pool.recs p).cb ≠ 0)
    (hdue : dueOf (s.pool.recs p) ≤ s.wheel.current_offset) {k : Nat} {q : Ptr} (hq : q ∈ s.wheel.callwheel k)
    (hqcb : (s.pool.recs q).cb ≠ 0) (hqdue : dueOf (s.pool.recs q) ≤ s.wheel.current_offset) (hqp : q ≠ p) :
    Before (visit start) s.log (s.pool.recs p).use (s.pool.recs q).use := by
  have hw := hg.wheel.frame
  unfold FrameOk at hw
  rw [hf] at hw
  obtain ⟨-, -, pre, post, hslot, hpre⟩ := hw
  have hp : p ∈ s.wheel.callwheel (o % WHEEL_SIZE) := by simp [hslot]
  obtain ⟨hle, hclear⟩ := h.cleared o (by rw [hf]; rfl)
  have hpmod := (hg.wheel.inWheel _ p hp).slot
  have hqmod := (hg.wheel.inWheel _ q hq).slot
  have hpstart := h.late _ p hp hcb
  have hqstart := h.late _ q hq hqcb
  obtain ⟨n, hn, -⟩ := hg.set_logged hp hcb
  obtain ⟨n', hn', -⟩ := hg.set_logged hq hqcb
  have hvisit : visit start (dueOf (s.pool.recs p)) = o := by
    refine visit_first hle hpstart hpmod fun o' hs' hlt heq => ?_
    rw [hpmod, ← heq] at hp
    exact absurd (hclear o' hs' hlt p hp hcb) (Nat.not_lt.2 hdue)
  refine ⟨n, _, p, n', _, q, hn, hn', ?_⟩
  by_cases hk : k = o % WHEEL_SIZE
  · -- in the slot being walked it stands behind
    refine .inr ⟨visit_congr hpstart hqstart (by rw [← hpmod, ← hqmod, hk]), ?_⟩
    rw [hk, hslot] at hq
    have hpost : q ∈ post := by
      rcases List.mem_append.1 hq with hq | hq
      · exact absurd (hpre q hq) (Nat.not_lt.2 hqdue)
      · exact (List.mem_cons.1 hq).resolve_left hqp
    have hpair := hs (o % WHEEL_SIZE)
    rw [hslot] at hpair
    obtain ⟨k₁, D₁, h₁, k₂, D₂, h₂, hk₁, hk₂, hlt⟩ :=
      (List.pairwise_cons.1 (List.pairwise_append.1 hpair).2.1).1 q hpost hcb hqcb
    obtain ⟨rfl, -⟩ := hg.timers.set_inj hn hk₁
    obtain ⟨rfl, -⟩ := hg.timers.set_inj hn' hk₂
    exact hlt.elim (fun hlt => absurd hlt (Nat.lt_irrefl _)) And.right
  · -- its slot has still to be visited
    refine .inl ?_
    have hmod := visit_mod hqstart
    rw [hvisit]
    by_contra hge
    rcases Nat.lt_or_eq_of_le (Nat.le_of_not_lt hge) with hlt | heq
    · rw [hqmod, ← hmod] at hq
      exact absurd (hclear _ (Nat.le_add_right ..) hlt q hq hqcb) (Nat.not_lt.2 hqdue)
    · rw [heq, ← hqmod] at hmod
      exact hk hmod.symm

/-- A timer fires. -/
theorem fire_inOrder (hg : Good s) (hs : Sorted s) (h : InOrder start m s) {o : Nat} {p : Ptr} {f : TimerFrame}
    (hf : s.wheel.frame = .walk o (some p)) (hnew : f.offset = some o) (hcb : (s.pool.recs p).cb ≠ 0)
    (hdue : dueOf (s.pool.recs p) ≤ s.wheel.current_offset) :
    InOrder start m { s.atFrame f with
      pool := s.pool.write p fun c => { c with cb := 0 }
      log := s.log ++ [.timerFired (s.pool.recs p).use] } := by
  have hshr : Shrinks s { s.atFrame f with
      pool := s.pool.write p fun c => { c with cb := 0 }
      log := s.log ++ [.timerFired (s.pool.recs p).use] } := mark_shrinks s p rfl (List.prefix_append ..)
  have hp := hg.sound.walk_mem hf
  have hnull := (write_null s.pool p).1
  refine ⟨h.cleared.mono hshr rfl (by rw [hf]; exact hnew), fun i q hq hq0 => ?_, fun i j x y hm hij hi hj => ?_,
    fun i x hm hi k q hq hq0 hqdue => ?_, fun i e hm hi => ?_⟩
  · have hr := hshr.recs i q hq hq0
    rw [hr] at hq0 ⊢
    exact h.late i q hq hq0
  · rcases logged_snoc.1 hj with hj | ⟨rfl, hy⟩
    · exact (h.fired i j x y hm hij (hi.of_lt (Nat.lt_trans hij hj.lt)) hj).mono hshr.log
    · cases hy
      exact (h.left i x hm (hi.of_lt hij) _ p hp hcb hdue).mono hshr.log
  · have hr := hshr.recs k q hq hq0
    have hqp : q ≠ p := by
      rintro rfl
      exact hq0 hnull
    rw [hr] at hq0 hqdue ⊢
    rcases logged_snoc.1 hi with hi | ⟨-, hx⟩
    · exact (h.left i x hm hi k q hq hq0 hqdue).mono hshr.log
    · cases hx
      exact (fire_first hg hs h hf hcb hdue hq hq0 hqdue hqp).mono hshr.log
  · rcases logged_snoc.1 hi with hi | ⟨-, he⟩
    · exact h.only i e hm hi
    · exact .inl ⟨_, he⟩

theorem timer_step_inOrder (hg : Good s) (hs : Sorted s) (h : InOrder start m s) {r : Status}
    (hst : timer_step s = some (r, s')) : InOrder start m s' := by
  have hshr := timer_step_shrinks hst
  have hw := hg.wheel.frame
  unfold FrameOk at hw
  cases timer_step_inv hst with
  | enter hf | sweep hf | drop hf | skip hf | resume hf | purge hf | keep hf =>
    refine h.shrink hshr rfl (h.cleared.mono hshr rfl ?_) fun _ _ he => .inl he
    rw [hf]
    rfl
  | finish hf hlt =>
    refine h.shrink hshr rfl (fun o ho => by cases ho) fun i e he => ?_
    rcases logged_snoc.1 he with he | ⟨-, rfl⟩
    · exact .inl he
    · exact .inr rfl
  | leave hf hpend =>
    rw [hf] at hw
    exact h.shrink hshr rfl (h.cleared.next (by rw [hf]; rfl) hw.2.2) fun _ _ he => .inl he
  | @fire o p hf hdue hcb =>
    rw [(hg.wheel.inWheel _ p (hg.sound.walk_mem hf)).isDue, decide_eq_true_eq] at hdue
    exact fire_inOrder hg hs h hf rfl hcb hdue
  | swept hf =>
    rw [hf] at hw
    exact h.shrink hshr rfl (h.cleared.next (by rw [hf]; rfl) hw.2.1) fun _ _ he => .inl he

theorem quiet_inOrder (hg : Good s) (hs : Sorted s) (h : InOrder start m s) {op : Op} {r : Status}
    (hok : Quiet s op = true) (hst : step s op = some (r, s')) : InOrder start m s' := by
  cases hopt : op.isTimer with
  | false =>
    have hshr := other_shrinks hg.sound hopt hst
    have hw := (other_frame hg.sound hopt hst).1
    refine h.shrink hshr (by rw [hw]) (h.cleared.mono hshr (by rw [hw]) (by rw [hw])) fun i e he => ?_
    rcases (other_log hg.sound hopt hst).2 with hlog | ⟨e', he', hlog⟩
    · rw [hlog] at he
      exact .inl he
    · rw [hlog] at he
      rcases logged_snoc.1 he with he | ⟨-, rfl⟩
      · exact .inl he
      · exact .inr (silent_of_other he')
  | true =>
    cases op with
    | timer => exact timer_step_inOrder hg hs h hst
    | timer_set delay_ms cb cb_arg => simp [Quiet] at hok
    | timer_cancel p => simp [Quiet] at hok
    | update_time tv => simp [Quiet] at hok
    | wait sock how cb cb_arg => cases hopt
    | cancel sock how => cases hopt
    | schedule cb cb_arg => cases hopt
    | event_wait2 tv sel => cases hopt
    | loop => cases hopt

/-- The update starts. -/
theorem start_inOrder (hg : Good s) (hidle : s.wheel.frame = .idle) {c : Nat} :
    InOrder (s.wheel.current_offset + 1) s.log.length { s with
      wheel := { s.wheel with current_offset := c, frame := .slot (s.wheel.current_offset + 1) }
      log := s.log ++ [.updating c] } := by
  have hw := hg.wheel.frame
  unfold FrameOk at hw
  rw [hidle] at hw
  have hnone : ∀ {i e}, s.log.length < i → ¬ Logged (s.log ++ [.updating c]) i e := by
    intro i e hm hi
    have hlt := hi.lt
    rw [List.length_append, List.length_singleton] at hlt
    omega
  refine ⟨?_, fun i p hp _ => (hw.2 i p hp).2, fun i j x y hm hij hi => absurd hi (hnone hm),
    fun i x hm hi => absurd hi (hnone hm), fun i e hm hi => absurd hi (hnone hm)⟩
  rintro o ho
  cases ho
  exact ⟨Nat.le_refl _, fun o' hle hlt => by omega⟩

end

/-! ## The order is that of the due offsets if the visits are -/

section
variable {s s' s₂ : Async}

theorem timer_step_some (h : s.wheel.frame ≠ .idle) : ∃ r s', timer_step s = some (r, s') := by
  unfold timer_step
  split
  · rename_i hidle
    exact absurd hidle h
  · split <;> exact ⟨_, _, rfl⟩
  · split <;> exact ⟨_, _, rfl⟩
  · dsimp only
    split
    · split <;> exact ⟨_, _, rfl⟩
    · exact ⟨_, _, rfl⟩
  · exact ⟨_, _, rfl⟩
  · exact ⟨_, _, rfl⟩
  · dsimp only
    split <;> exact ⟨_, _, rfl⟩

/-- The runs of an update with quiet callbacks. -/
abbrev QuietRun (s : Async) (evs : List (Op × Status)) (s' : Async) : Prop := Run step (fun s op => Quiet s op) s evs s'

theorem QuietRun.good {evs : List (Op × Status)} (h : QuietRun s evs s') (hg : Good s) (hs : Sorted s) :
    Good s' ∧ Sorted s' := by
  refine h.inv (fun s => Good s ∧ Sorted s) ⟨hg, hs⟩ ?_
  rintro s op r s' ⟨hg, hs⟩ hok hst
  have hok := (Bool.and_eq_true_iff.1 hok).1
  exact ⟨step_good hg hok hst, step_sorted hg hs hok hst⟩

/-- What is fired is fired in the order of the visits. -/
theorem QuietRun.inOrder {evs : List (Op × Status)} (h : QuietRun s evs s') (hg : Good s) (hs : Sorted s)
    {start m : Nat} (ho : InOrder start m s) : InOrder start m s' := by
  have hall : (Good s' ∧ Sorted s') ∧ InOrder start m s' := by
    refine h.inv (fun s => (Good s ∧ Sorted s) ∧ InOrder start m s) ⟨⟨hg, hs⟩, ho⟩ ?_
    rintro s op r s' ⟨⟨hg, hs⟩, ho⟩ hok hst
    have hal := (Bool.and_eq_true_iff.1 hok).1
    exact ⟨⟨step_good hg hal hst, step_sorted hg hs hal hst⟩, quiet_inOrder hg hs ho hok hst⟩
  exact hall.2

/-- The log grows and the offset stays. -/
theorem QuietRun.grows {evs : List (Op × Status)} (h : QuietRun s evs s') (hg : Good s) (hs : Sorted s) :
    s.log <+: s'.log ∧ s'.wheel.current_offset = s.wheel.current_offset := by
  have hall : (Good s' ∧ Sorted s') ∧ s.log <+: s'.log ∧ s'.wheel.current_offset = s.wheel.current_offset := by
    refine h.inv (fun t => (Good t ∧ Sorted t) ∧ s.log <+: t.log ∧ t.wheel.current_offset = s.wheel.current_offset)
      ⟨⟨hg, hs⟩, List.prefix_rfl, rfl⟩ ?_
    rintro t op r t' ⟨⟨hg, hs⟩, hlog, hoff⟩ hok hst
    obtain ⟨hal, hquiet⟩ := Bool.and_eq_true_iff.1 hok
    refine ⟨⟨step_good hg hal hst, step_sorted hg hs hal hst⟩, ?_⟩
    cases hopt : op.isTimer with
    | false =>
      refine ⟨hlog.trans (other_shrinks hg.sound hopt hst).log, ?_⟩
      rw [(other_frame hg.sound hopt hst).1, hoff]
    | true =>
      cases op with
      | timer => exact ⟨hlog.trans (timer_step_shrinks hst).log, (timer_step_cases hst).2.1.trans hoff⟩
      | timer_set delay_ms cb cb_arg => cases hquiet
      | timer_cancel p => cases hquiet
      | update_time tv => cases hquiet
      | _ => cases hopt
  exact hall.2

/-- An update can always run to its end. -/
theorem QuietRun.completes {evs : List (Op × Status)} (h : QuietRun s evs s') (hg : Good s) (hs : Sorted s) :
    ∃ evs₂ s₂, QuietRun s evs₂ s₂ ∧ s₂.wheel.frame = .idle := by
  obtain ⟨n, hn⟩ : ∃ n, toLex ((dueNow s').ncard, stepsLeft s'.wheel) = n := ⟨_, rfl⟩
  induction n using WellFoundedLT.induction generalizing s' evs with
  | ind n ih =>
    by_cases hidle : s'.wheel.frame = .idle
    · exact ⟨evs, s', h, hidle⟩
    · obtain ⟨r, s₁, hst⟩ := timer_step_some hidle
      have hg' := (h.good hg hs).1
      obtain ⟨hsub, hless⟩ := timer_step_left hg' hst
      have hfin := dueNow_finite hg'.wheel
      have hnext : QuietRun s (evs ++ [(.timer, r)]) s₁ := h.snoc (i := Op.timer) rfl hst
      refine ih _ ?_ hnext rfl
      rw [← hn, Prod.Lex.toLex_lt_toLex]
      rcases hless with ⟨p, hp, hnp⟩ | ⟨hleft, -⟩
      · exact .inl (Set.ncard_lt_ncard ⟨hsub, fun hsup => hnp (hsup hp)⟩ hfin)
      · rcases Nat.lt_or_eq_of_le (Set.ncard_le_ncard hsub hfin) with hlt | heq
        · exact .inl hlt
        · exact .inr ⟨heq, hleft⟩

section
variable {c : Nat} {evs : List (Op × Status)}

/-- What an update fires was set before it and is due in it. -/
theorem fired_old (hg₂ : Good s₂) (ho : InOrder (s.wheel.current_offset + 1) s.log.length s₂)
    (hlog : s.log ++ [.updating c] <+: s₂.log) (hoff : s₂.wheel.current_offset = c) {i : Nat} {x : Use}
    (hi : s.log.length < i) (hx : Logged s₂.log i (.timerFired x)) {k D : Nat} {p : Ptr}
    (hk : Logged s₂.log k (.timerSet x D p)) :
    Logged s.log k (.timerSet x D p) ∧ (∀ j, ¬ Resolves s.log j x) ∧ D ≤ c := by
  have hpre : s.log <+: s₂.log := (List.prefix_append s.log [.updating c]).trans hlog
  have hstart : Logged s₂.log s.log.length (.updating c) := (logged_snoc.2 (.inr ⟨rfl, rfl⟩)).mono hlog
  refine ⟨?_, fun j hj => ?_, ?_⟩
  · rcases Nat.lt_trichotomy k s.log.length with hlt | rfl | hgt
    · exact hk.of_prefix hpre hlt
    · cases hstart.unique hk
    · rcases ho.only k _ hgt hk with ⟨y, hy⟩ | hsil
      · cases hy
      · cases hsil
  · have hj₂ : Resolves s₂.log j x := hj.imp (fun h => h.mono hpre) fun h => h.mono hpre
    have heq := hg₂.timers.exact.once x i j (.inl hx) hj₂
    have := hj.lt
    omega
  · obtain ⟨m, c', -, -, hm, hD, -⟩ := hg₂.timers.exact.first k x D p i hk hx
    have hpast : c' ≤ s₂.wheel.current_offset := hg₂.timers.past m c' hm
    omega

/-- When the update has returned, what it reached has fired. -/
theorem reached_fired (hg₂ : Good s₂) (ho : InOrder (s.wheel.current_offset + 1) s.log.length s₂)
    (hlog : s.log ++ [.updating c] <+: s₂.log) (hidle : s₂.wheel.frame = .idle) {k D : Nat} {x : Use} {p : Ptr}
    (hk : Logged s.log k (.timerSet x D p)) (hno : ∀ j, ¬ Resolves s.log j x) (hD : D ≤ c) :
    ∃ i, s.log.length < i ∧ Logged s₂.log i (.timerFired x) := by
  have hpre : s.log <+: s₂.log := (List.prefix_append s.log [.updating c]).trans hlog
  have hstart : Logged s₂.log s.log.length (.updating c) := (logged_snoc.2 (.inr ⟨rfl, rfl⟩)).mono hlog
  have hup : (timersOf s₂).updating = false := by simp [timersOf, hidle]
  obtain ⟨n, e, hmn, hn, rfl⟩ := hg₂.timers.nested.closed hup _ _ hstart ⟨c, rfl⟩
  obtain ⟨j, -, hj⟩ := hg₂.timers.exact.due k x D p _ c n (hk.mono hpre) hk.lt hstart hD hmn hn
  have hgt : s.log.length < j := by
    rcases Nat.lt_trichotomy j s.log.length with hlt | rfl | hgt
    · exact absurd (hj.imp (fun h => h.of_prefix hpre hlt) fun h => h.of_prefix hpre hlt) (hno j)
    · rcases hj with hj | hj
      · cases hstart.unique hj
      · cases hstart.unique hj
    · exact hgt
  refine ⟨j, hgt, hj.resolve_right fun hc => ?_⟩
  rcases ho.only j _ hgt hc with ⟨y, hy⟩ | hsil
  · cases hy
  · cases hsil

/-- An update with quiet callbacks fires the timers in due order if and only if
it visits their slots in that order. -/
theorem fires_in_due_order_iff (h : ReachesSmall evs s) (hidle : s.wheel.frame = .idle) {tv : timeval} {r : Status}
    (hst : NR_async_timer_update_time s tv = (r, s')) (hlog : s'.log = s.log ++ [.updating c]) :
    FiresInDueOrder s s' ↔ VisitsInOrder s c := by
  have hg := h.good
  have hg' : Good s' := update_time_good hg hidle hst
  have hs' : Sorted s' := (update_time_shrinks hst).sorted h.sorted
  have hstart : InOrder (s.wheel.current_offset + 1) s.log.length s' ∧ s'.wheel.current_offset = c := by
    obtain ⟨-, -, rfl⟩ := update_started hst hlog
    exact ⟨start_inOrder hg hidle, rfl⟩
  have hrun : ∀ {evs s₂}, QuietRun s' evs s₂ → Good s₂ ∧ InOrder (s.wheel.current_offset + 1) s.log.length s₂ ∧
      s.log ++ [.updating c] <+: s₂.log ∧ s₂.wheel.current_offset = c := by
    intro evs s₂ hq
    obtain ⟨hpre, hoff⟩ := hq.grows hg' hs'
    rw [hlog] at hpre
    exact ⟨(hq.good hg' hs').1, hq.inOrder hg' hs' hstart.1, hpre, hoff.trans hstart.2⟩
  constructor
  · intro hfires k x D p k' y D' p' hk hk' hno hno' hlt hD'
    have hnil : QuietRun s' [] s' := .nil
    obtain ⟨evs₂, s₂, hq, hidle₂⟩ := QuietRun.completes hnil hg' hs'
    obtain ⟨hg₂, ho, hpre, hoff⟩ := hrun hq
    have hold := (List.prefix_append s.log [.updating c]).trans hpre
    obtain ⟨i, hmi, hi⟩ := reached_fired hg₂ ho hpre hidle₂ hk hno (Nat.le_of_lt (Nat.lt_of_lt_of_le hlt hD'))
    obtain ⟨j, hmj, hj⟩ := reached_fired hg₂ ho hpre hidle₂ hk' hno' hD'
    rcases Nat.lt_trichotomy i j with hij | rfl | hji
    · obtain ⟨k₁, D₁, p₁, k₂, D₂, p₂, h₁, h₂, hvis⟩ := ho.fired i j x y hmi hij hi hj
      obtain ⟨rfl, rfl, rfl⟩ := hg₂.timers.set_inj (hk.mono hold) h₁
      obtain ⟨rfl, rfl, rfl⟩ := hg₂.timers.set_inj (hk'.mono hold) h₂
      exact hvis
    · cases hi.unique hj
      obtain ⟨-, rfl, -⟩ := hg.timers.set_inj hk hk'
      exact absurd hlt (Nat.lt_irrefl _)
    · -- the one that is due later would have fired first
      obtain ⟨k₁, D₁, p₁, k₂, D₂, p₂, h₁, h₂, hdue⟩ := hfires evs₂ s₂ hq j i y x hmj hji hj hi
      obtain ⟨rfl, rfl, rfl⟩ := hg₂.timers.set_inj (hk'.mono hold) h₁
      obtain ⟨rfl, rfl, rfl⟩ := hg₂.timers.set_inj (hk.mono hold) h₂
      dsimp only [id] at hdue
      omega
  · intro hvisits evs₂ s₂ hq i j x y hmi hij hi hj
    obtain ⟨hg₂, ho, hpre, hoff⟩ := hrun hq
    obtain ⟨k, D, p, k', D', p', hk, hk', hvis⟩ := ho.fired i j x y hmi hij hi hj
    obtain ⟨hk₀, hno, hD⟩ := fired_old hg₂ ho hpre hoff hmi hi hk
    obtain ⟨hk₀', hno', hD'⟩ := fired_old hg₂ ho hpre hoff (Nat.lt_trans hmi hij) hj hk'
    refine ⟨k, D, p, k', D', p', hk, hk', ?_⟩
    dsimp only [id]
    rcases Nat.lt_trichotomy D D' with hlt | rfl | hgt
    · exact .inl hlt
    · exact .inr ⟨rfl, hvis.elim (fun hlt => absurd hlt (Nat.lt_irrefl _)) And.right⟩
    · have := hvisits k' y D' p' k x D p hk₀' hk₀ hno' hno hgt hD
      omega

/-- An update that goes no further than once around the wheel visits the slots
in due order. -/
theorem visits_in_order_near (h : ReachesSmall evs s) (hidle : s.wheel.frame = .idle)
    (hc : c ≤ s.wheel.current_offset + WHEEL_SIZE) : VisitsInOrder s c := by
  intro k x D p k' y D' p' hk hk' hno hno' hlt hD'
  have hg := h.good
  have hup : (timersOf s).updating = false := by simp [timersOf, hidle]
  have hpos : ∀ {k x D p}, Logged s.log k (.timerSet x D p) → (∀ j, ¬ Resolves s.log j x) →
      s.wheel.current_offset < D := by
    intro k x D p hk hno
    rcases hg.timers.set k x D p hk with hl | ⟨j, hj⟩
    · exact hg.timers.idle hup p x D hl
    · exact absurd hj (hno j)
  have hpx := hpos hk hno
  have hpy := hpos hk' hno'
  refine .inl ?_
  rw [visit_near hpx (by omega), visit_near hpy (by omega)]
  exact hlt

end

end

/-- A timer that is due later is in the slot that is visited first. -/
def overtaken : List Op := [.update_time ⟨1, 0⟩, .timer_set 4097 7 0, .timer_set 2 8 0]

/-- An update by five seconds fires the timer of 4097 ms before that of 2 ms. -/
theorem fires_out_of_order : ∃ evs s r s', ReachesSmall evs s ∧ s.wheel.frame = .idle ∧
    NR_async_timer_update_time s ⟨6, 0⟩ = (r, s') ∧ s'.log = s.log ++ [.updating 5000] ∧ ¬ FiresInDueOrder s s' := by
  have hsome : (exec step Allowed initial overtaken).isSome = true := by decide +kernel
  obtain ⟨evs, h⟩ := Run.final hsome
  have hidle : (final step Allowed initial overtaken).wheel.frame = .idle := by decide +kernel
  have hlog : (NR_async_timer_update_time (final step Allowed initial overtaken) ⟨6, 0⟩).2.log =
      (final step Allowed initial overtaken).log ++ [.updating 5000] := by decide +kernel
  have hlen : (final step Allowed initial overtaken).log.length = 2 := by decide +kernel
  have hsome₂ : (exec step Quiet (NR_async_timer_update_time (final step Allowed initial overtaken) ⟨6, 0⟩).2
      (List.replicate 6 .timer)).isSome = true := by decide +kernel
  have hlog₂ : (final step Quiet (NR_async_timer_update_time (final step Allowed initial overtaken) ⟨6, 0⟩).2
      (List.replicate 6 .timer)).log = [.timerSet ⟨0, 7, 0⟩ 4097 0, .timerSet ⟨1, 8, 0⟩ 2 1, .updating 5000,
        .timerFired ⟨0, 7, 0⟩, .timerFired ⟨1, 8, 0⟩] := by decide +kernel
  obtain ⟨⟨r, s'⟩, hst⟩ : ∃ u, NR_async_timer_update_time (final step Allowed initial overtaken) ⟨6, 0⟩ = u := ⟨_, rfl⟩
  rw [hst] at hlog hsome₂ hlog₂
  refine ⟨evs, _, r, s', h, hidle, hst, hlog, fun hfires => ?_⟩
  obtain ⟨evs₂, h₂⟩ := Run.final hsome₂
  obtain ⟨k, D, p, k', D', p', hk, hk', hdue⟩ := hfires evs₂ _ h₂ 3 4 ⟨0, 7, 0⟩ ⟨1, 8, 0⟩ (by rw [hlen]; decide)
    (by decide) (by rw [hlog₂]; decide) (by rw [hlog₂]; decide)
  have hD := List.mem_of_getElem? hk
  have hD' := List.mem_of_getElem? hk'
  rw [hlog₂] at hD hD'
  simp at hD hD'
  dsimp only [id] at hdue
  omega

/-- Two timers of one offset, and one that is due before them. -/
def inTurn : List Op := [.update_time ⟨1, 0⟩, .timer_set 9 7 0, .timer_set 5 8 0, .timer_set 9 9 0]

theorem fires_in_due_order_in_turn : ∃ evs s r s', ReachesSmall evs s ∧
    NR_async_timer_update_time s ⟨1, 20000⟩ = (r, s') ∧ FiresInDueOrder s s' := by
  have hsome : (exec step Allowed initial inTurn).isSome = true := by decide +kernel
  obtain ⟨evs, h⟩ := Run.final hsome
  have hidle : (final step Allowed initial inTurn).wheel.frame = .idle := by decide +kernel
  have hlog : (NR_async_timer_update_time (final step Allowed initial inTurn) ⟨1, 20000⟩).2.log =
      (final step Allowed initial inTurn).log ++ [.updating 20] := by decide +kernel
  have hnow : (final step Allowed initial inTurn).wheel.current_offset = 0 := by decide +kernel
  obtain ⟨⟨r, s'⟩, hst⟩ : ∃ u, NR_async_timer_update_time (final step Allowed initial inTurn) ⟨1, 20000⟩ = u := ⟨_, rfl⟩
  rw [hst] at hlog
  have hnear := visits_in_order_near (c := 20) h hidle (by rw [hnow]; decide)
  exact ⟨evs, _, r, s', h, hst, (fires_in_due_order_iff h hidle hst hlog).2 hnear⟩

end Nrappkit.Event
