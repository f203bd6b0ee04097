import Nrappkit.Event.Timers
import Mathlib.Data.Prod.Lex
import Mathlib.Data.Set.Card
import Mathlib.Order.WellFounded
/-!
# Timers fire once, on time

An update under way returns, however many calls its callbacks make: what they
set is not due, so the due timers only get fewer, and between two calls the
walks come closer to their end.
-/
open Lib

namespace Nrappkit.Event

section
variable {s s' : Async}

/-! ## The due timers -/

/-- The records of the timers that are due and still have their callback. -/
def dueNow (s : Async) : Set Ptr :=
  {p | ∃ i, p ∈ s.wheel.callwheel i ∧ (s.pool.recs p).cb ≠ 0 ∧ dueOf (s.pool.recs p) ≤ s.wheel.current_offset}

theorem mem_entries (h : WheelOk s.wheel s.pool.recs) {p : Ptr} :
    p ∈ s.wheel.entries ↔ ∃ i, p ∈ s.wheel.callwheel i := by
  simp only [Wheel.entries, List.mem_flatMap, List.mem_range]
  constructor
  · rintro ⟨i, -, hp⟩
    exact ⟨i, hp⟩
  · rintro ⟨i, hp⟩
    exact ⟨i, (h.inWheel i p hp).lt, hp⟩

theorem dueNow_finite (h : WheelOk s.wheel s.pool.recs) : (dueNow s).Finite := by
  refine s.wheel.entries.toFinset.finite_toSet.subset ?_
  rintro p ⟨i, hp, -⟩
  exact Finset.mem_coe.2 (List.mem_toFinset.2 ((mem_entries h).2 ⟨i, hp⟩))

/-- A step that leaves the wheel and its records alone. -/
theorem dueNow_congr (hw : s'.wheel = s.wheel)
    (hr : ∀ i, ∀ p ∈ s.wheel.callwheel i, s'.pool.recs p = s.pool.recs p) : dueNow s' ⊆ dueNow s := by
  rintro p ⟨i, hp, hdue⟩
  rw [hw] at hp hdue
  rw [hr i p hp] at hdue
  exact ⟨i, hp, hdue⟩

/-- A step of a walk that moves no record. -/
theorem dueNow_congr_offset (hcw : s'.wheel.callwheel = s.wheel.callwheel)
    (hoff : s'.wheel.current_offset = s.wheel.current_offset) (hr : s'.pool.recs = s.pool.recs) :
    dueNow s' ⊆ dueNow s := by
  rintro p ⟨i, hp, hdue⟩
  rw [hcw] at hp
  rw [hr, hoff] at hdue
  exact ⟨i, hp, hdue⟩

/-- The calls that are not about timers. -/
def Op.isTimer : Op → Bool
  | .timer_set .. | .timer_cancel .. | .update_time .. | .timer => true
  | _ => false

theorem other_frame (h : Sound s) {op : Op} {r : Status} (hop : op.isTimer = false)
    (hst : step s op = some (r, s')) :
    s'.wheel = s.wheel ∧ ∀ i, ∀ p ∈ s.wheel.callwheel i, s'.pool.recs p = s.pool.recs p := by
  cases op with
  | wait sock how cb cb_arg =>
    obtain ⟨hw, hr, -⟩ := wait_frame h hst
    exact ⟨hw, hr⟩
  | cancel sock how =>
    obtain ⟨hw, hr, -⟩ := cancel_frame h hst
    exact ⟨hw, hr⟩
  | schedule cb cb_arg =>
    obtain ⟨p, pool', hc, rfl⟩ := schedule_cases hst
    exact ⟨rfl, created_frame h.owned hc⟩
  | event_wait2 tv sel =>
    rcases event_wait2_cases (Option.some.inj hst) with rfl | rfl | ⟨m, -, rfl⟩
    · exact ⟨rfl, fun _ _ _ => rfl⟩
    · exact ⟨rfl, fun _ _ _ => rfl⟩
    · exact ⟨rfl, fun _ _ _ => rfl⟩
  | loop =>
    rcases loop_step_cases h.loop hst with ⟨_, -, -, -, rfl⟩ | ⟨_, _, _, -, -, -, -, rfl⟩ | ⟨_, _, _, -, -, -, _, rfl⟩
    · exact ⟨rfl, fun _ _ _ => rfl⟩
    · exact ⟨rfl, fun _ _ _ => rfl⟩
    · exact ⟨rfl, fun _ _ _ => rfl⟩
  | timer_set delay_ms cb cb_arg => cases hop
  | timer_cancel p => cases hop
  | update_time tv => cases hop
  | timer => cases hop

/-- The calls that are not about timers log no event that is. -/
theorem other_log (h : Sound s) {op : Op} {r : Status} (hop : op.isTimer = false) (hst : step s op = some (r, s')) :
    s.pool.serial ≤ s'.pool.serial ∧ (s'.log = s.log ∨ ∃ e, e.isTimer = false ∧ s'.log = s.log ++ [e]) := by
  cases op with
  | wait sock how cb cb_arg =>
    obtain ⟨-, -, rfl | ⟨hserial, x, i, j, hlog⟩, -⟩ := wait_frame h hst
    · exact ⟨Nat.le_refl _, .inl rfl⟩
    · exact ⟨hserial ▸ Nat.le_succ _, .inr ⟨_, rfl, hlog⟩⟩
  | cancel sock how =>
    obtain ⟨-, -, hserial, rfl | ⟨i, j, hlog⟩, -⟩ := cancel_frame h hst
    · exact ⟨Nat.le_refl _, .inl rfl⟩
    · exact ⟨Nat.le_of_eq hserial.symm, .inr ⟨_, rfl, hlog⟩⟩
  | schedule cb cb_arg =>
    obtain ⟨p, pool', hc, rfl⟩ := schedule_cases hst
    exact ⟨hc.serial ▸ Nat.le_succ _, .inr ⟨_, rfl, rfl⟩⟩
  | event_wait2 tv sel =>
    rcases event_wait2_cases (Option.some.inj hst) with rfl | rfl | ⟨m, -, rfl⟩
    · exact ⟨Nat.le_refl _, .inl rfl⟩
    · exact ⟨Nat.le_refl _, .inr ⟨_, rfl, rfl⟩⟩
    · exact ⟨Nat.le_refl _, .inr ⟨_, rfl, rfl⟩⟩
  | loop =>
    rcases loop_step_cases h.loop hst with ⟨_, -, -, -, rfl⟩ | ⟨_, _, _, -, -, -, -, rfl⟩ | ⟨_, _, _, -, -, -, _, rfl⟩
    · exact ⟨Nat.le_refl _, .inr ⟨_, rfl, rfl⟩⟩
    · exact ⟨Nat.le_refl _, .inr ⟨_, rfl, rfl⟩⟩
    · exact ⟨Nat.le_refl _, .inl rfl⟩
  | timer_set delay_ms cb cb_arg => cases hop
  | timer_cancel p => cases hop
  | update_time tv => cases hop
  | timer => cases hop

/-- A record that is marked is not due any more. -/
theorem dueNow_mark {p : Ptr} (hcw : s'.wheel.callwheel = s.wheel.callwheel)
    (hoff : s'.wheel.current_offset = s.wheel.current_offset)
    (hr : s'.pool.recs = Function.update s.pool.recs p { s.pool.recs p with cb := 0 }) :
    dueNow s' ⊆ dueNow s ∧ p ∉ dueNow s' := by
  refine ⟨?_, ?_⟩
  · rintro q ⟨i, hq, hcb, hdue⟩
    rw [hr] at hcb hdue
    have hqp : q ≠ p := by
      rintro rfl
      rw [Function.update_self] at hcb
      exact hcb rfl
    rw [Function.update_of_ne hqp] at hcb hdue
    rw [hcw] at hq
    exact ⟨i, hq, hcb, hoff ▸ hdue⟩
  · rintro ⟨i, -, hcb, -⟩
    rw [hr, Function.update_self] at hcb
    exact hcb rfl

theorem dueNow_remove (hn : ∀ i, (s.wheel.callwheel i).Nodup) (i : Nat) (p : Ptr)
    (hcw : s'.wheel.callwheel = Function.update s.wheel.callwheel i ((s.wheel.callwheel i).erase p))
    (hoff : s'.wheel.current_offset = s.wheel.current_offset) (hr : s'.pool.recs = s.pool.recs) :
    dueNow s' ⊆ dueNow s := by
  rintro q ⟨k, hq, hdue⟩
  rw [hcw] at hq
  rw [hr, hoff] at hdue
  exact ⟨k, ((mem_removed (hn i)).1 hq).1, hdue⟩

/-- What client code does makes no timer due. -/
theorem client_due (h : Good s) {op : Op} {r : Status} (hok : Allowed s op = true) (hst : step s op = some (r, s'))
    (hrun : s.wheel.frame ≠ .idle) (hop : op ≠ .timer) : dueNow s' ⊆ dueNow s := by
  cases hopt : op.isTimer with
  | false =>
    obtain ⟨hw, hr⟩ := other_frame h.sound hopt hst
    exact dueNow_congr hw hr
  | true =>
    cases op with
    | timer_set delay_ms cb cb_arg =>
      simp only [Allowed, Bool.and_eq_true, decide_eq_true_eq] at hok
      obtain ⟨⟨⟨hcl, hd⟩, hcb⟩, hsmall⟩ := hok
      have hduei := dueOffset_small hd hsmall
      obtain ⟨due, p, pool', hdue, hc, rfl⟩ := timer_set_cases hst
      rw [← hdue] at hduei
      have hdlt : due < 2 ^ 31 := by omega
      have hres : toInt due = due := toInt_small hdlt
      rintro q ⟨i, hq, hqcb, hqdue⟩
      rcases mem_added.1 hq with hold | ⟨-, rfl⟩
      · have hne : q ≠ p := by
          rintro rfl
          exact h.sound.owned.created_not_wheel hc i hold
        simp only [Pool.write, hc.recs, Function.update_of_ne hne] at hqcb hqdue
        exact ⟨i, hold, hqcb, hqdue⟩
      · simp only [Pool.write, hc.recs, Function.update_self, dueOf, Pool.fill, hres] at hqdue
        omega
    | timer_cancel p =>
      simp only [Allowed, Bool.and_eq_true, Bool.or_eq_true] at hok
      rcases timer_cancel_cases h.sound hok.2 hst with rfl | ⟨i, -, hmem, ⟨-, rfl⟩ | ⟨-, rfl⟩⟩
      · exact Set.Subset.refl _
      · exact And.left (dueNow_mark rfl rfl rfl)
      · exact dueNow_remove h.sound.owned.wheel i p rfl rfl rfl
    | update_time tv =>
      simp only [Allowed, Bool.and_eq_true, decide_eq_true_eq] at hok
      exact absurd hok.1.1.2 hrun
    | timer => exact absurd rfl hop
    | wait sock how cb cb_arg => cases hopt
    | cancel sock how => cases hopt
    | schedule cb cb_arg => cases hopt
    | event_wait2 tv sel => cases hopt
    | loop => cases hopt

/-! ## The walks come to an end -/

/-- The records a walk has still to visit. -/
def ahead (slot : List Ptr) : Option Ptr → Nat
  | none => 0
  | some p => (after p slot).length + 1

/-- The offsets, the loops over a slot and the records that are left. -/
def stepsLeft (w : Wheel) : Nat ×ₗ Nat ×ₗ Nat :=
  match w.frame with
  | .idle => toLex (0, toLex (0, 0))
  | .slot o => toLex (w.current_offset + 1 - o, toLex (3, 0))
  | .walk o cb => toLex (w.current_offset + 1 - o, toLex (2, ahead (w.callwheel (o % WHEEL_SIZE)) cb))
  | .call o _ cb2 => toLex (w.current_offset + 1 - o, toLex (2, ahead (w.callwheel (o % WHEEL_SIZE)) cb2 + 1))
  | .purge o cb => toLex (w.current_offset + 1 - o, toLex (1, ahead (w.callwheel (o % WHEEL_SIZE)) cb))

/-- What is behind the next record, with and without the one before it. -/
theorem after_next {p q : Ptr} {pre post : List Ptr} (hn : (pre ++ p :: q :: post).Nodup) :
    after q (pre ++ p :: q :: post) = post ∧ after q (pre ++ q :: post) = post := by
  have hq : q ∉ pre := by
    intro hq
    exact (List.nodup_append.1 hn).2.2 q hq q (by simp) rfl
  rw [List.append_cons] at hn ⊢
  exact ⟨after_split (not_mem_left hn), after_split hq⟩

theorem ahead_next {slot : List Ptr} {p : Ptr} (hp : p ∈ slot) (hn : slot.Nodup) :
    ahead slot (nextOf slot p) < ahead slot (some p) ∧
      ahead (slot.erase p) (nextOf slot p) < ahead slot (some p) := by
  obtain ⟨pre, post, rfl⟩ := List.append_of_mem hp
  have hp := not_mem_left hn
  rw [nextOf_split hp, erase_split hp, ahead, after_split hp]
  cases post with
  | nil => simp [ahead]
  | cons q post => simp [ahead, after_next hn]

/-- The last step within an offset. -/
theorem left_offset {c o : Nat} (ho : o ≤ c) (n m n' m' : Nat) :
    (toLex (c + 1 - (o + 1), toLex (n', m')) : Nat ×ₗ Nat ×ₗ Nat) < toLex (c + 1 - o, toLex (n, m)) :=
  Prod.Lex.toLex_lt_toLex.2 (.inl (by dsimp only; omega))

/-- A step within a loop over a slot. -/
theorem left_record {c n m m' : Nat} (hm : m' < m) :
    (toLex (c, toLex (n, m')) : Nat ×ₗ Nat ×ₗ Nat) < toLex (c, toLex (n, m)) :=
  Prod.Lex.toLex_lt_toLex.2 (.inr ⟨rfl, Prod.Lex.toLex_lt_toLex.2 (.inr ⟨rfl, hm⟩)⟩)

/-- The step to the next loop over a slot. -/
theorem left_loop {c n n' : Nat} (hn : n' < n) (m m' : Nat) :
    (toLex (c, toLex (n', m')) : Nat ×ₗ Nat ×ₗ Nat) < toLex (c, toLex (n, m)) :=
  Prod.Lex.toLex_lt_toLex.2 (.inr ⟨rfl, Prod.Lex.toLex_lt_toLex.2 (.inl hn)⟩)

/-- A step of the update fires a timer, or comes closer to the end. -/
theorem timer_step_left (h : Good s) {r : Status} (hst : timer_step s = some (r, s')) :
    dueNow s' ⊆ dueNow s ∧ ((∃ p ∈ dueNow s, p ∉ dueNow s') ∨
      stepsLeft s'.wheel < stepsLeft s.wheel ∧ ∀ o p cb2, s'.wheel.frame ≠ .call o p cb2) := by
  have hw := h.wheel.frame
  have hn := h.sound.owned.wheel
  unfold FrameOk at hw
  unfold stepsLeft
  cases timer_step_inv hst with
  | enter hf hle =>
    rw [hf]
    exact ⟨dueNow_congr_offset rfl rfl rfl, .inr ⟨left_loop (by decide) _ _, by simp⟩⟩
  | @finish o hf hlt =>
    rw [hf]
    refine ⟨dueNow_congr_offset rfl rfl rfl, .inr ⟨?_, by simp⟩⟩
    have hzero : s.wheel.current_offset + 1 - o = 0 := by omega
    dsimp only
    rw [hzero]
    exact left_loop (by decide) _ _
  | sweep hf hpend =>
    rw [hf]
    exact ⟨dueNow_congr_offset rfl rfl rfl, .inr ⟨left_loop (by decide) _ _, by simp [Async.atFrame]⟩⟩
  | leave hf hpend =>
    rw [hf] at hw ⊢
    exact ⟨dueNow_congr_offset rfl rfl rfl, .inr ⟨left_offset hw.1.1.1 _ _ _ _, by simp [Async.atFrame]⟩⟩
  | @fire o p hf hdue hcb =>
    have hp := h.sound.walk_mem hf
    rw [(h.wheel.inWheel _ p hp).isDue, decide_eq_true_eq] at hdue
    exact ⟨And.left (dueNow_mark rfl rfl rfl),
      .inl ⟨p, ⟨_, hp, hcb, hdue⟩, And.right (dueNow_mark (s := s) rfl rfl rfl)⟩⟩
  | @drop o p hf hcb =>
    rw [hf] at hw ⊢
    refine ⟨dueNow_remove hn _ p rfl rfl rfl, .inr ⟨left_record ?_, by simp [Async.atFrame]⟩⟩
    simpa [Async.removeTimer, Async.atFrame] using (ahead_next hw.2.2.mem (hn _)).2
  | skip hf hdue =>
    rw [hf] at hw ⊢
    exact ⟨dueNow_congr_offset rfl rfl rfl, .inr ⟨left_record (ahead_next hw.2.2.mem (hn _)).1, by simp [Async.atFrame]⟩⟩
  | @resume o p cb2 hf =>
    rw [hf] at hw ⊢
    obtain ⟨-, -, pre, post, hs, -, -, -, hnext⟩ := hw
    refine ⟨dueNow_remove hn _ p rfl rfl rfl, .inr ⟨?_, by simp [Async.atFrame]⟩⟩
    refine left_record (Nat.lt_succ_of_le ?_)
    have hnd := hn (o % WHEEL_SIZE)
    have hp : p ∉ pre := not_mem_left (hs ▸ hnd)
    show ahead (Function.update s.wheel.callwheel (o % WHEEL_SIZE) _ (o % WHEEL_SIZE)) cb2 ≤ _
    rw [Function.update_self, hs, erase_split hp]
    rw [hs] at hnd
    cases cb2 with
    | none => exact Nat.le_refl _
    | some q =>
      obtain ⟨post', rfl⟩ := List.head?_eq_some_iff.1 (hnext q rfl)
      simp [ahead, after_next hnd]
  | swept hf =>
    rw [hf] at hw ⊢
    exact ⟨dueNow_congr_offset rfl rfl rfl, .inr ⟨left_offset hw.1.1.1 _ _ _ _, by simp [Async.atFrame]⟩⟩
  | @purge o p hf hcb =>
    rw [hf] at hw ⊢
    refine ⟨dueNow_remove hn _ p rfl rfl rfl, .inr ⟨left_record ?_, by simp [Async.atFrame]⟩⟩
    simpa [Async.removeTimer, Async.atFrame] using (ahead_next hw.2.2.mem (hn _)).2
  | keep hf hcb =>
    rw [hf] at hw ⊢
    exact ⟨dueNow_congr_offset rfl rfl rfl, .inr ⟨left_record (ahead_next hw.2.2.mem (hn _)).1, by simp [Async.atFrame]⟩⟩

/-! ## An update returns -/

/-- While a walk goes on only the other walk can take steps. -/
theorem outside_client (h : Sound s) {op : Op} {r : Status} (hok : Allowed s op = true)
    (hst : step s op = some (r, s')) (hcl : s.wheel.frame.inClient = false) (hop : op ≠ .timer) :
    s'.wheel = s.wheel := by
  have hcl' : s.inClient = false := by simp [Async.inClient, hcl]
  cases op with
  | loop => exact (other_frame h rfl hst).1
  | timer => exact absurd rfl hop
  | _ => simp [Allowed, hcl'] at hok

theorem not_client {f : TimerFrame} (hidle : f ≠ .idle) (hcall : ∀ o p cb2, f ≠ .call o p cb2) :
    f.inClient = false := by
  cases f with
  | idle => exact absurd rfl hidle
  | call o p cb2 => exact absurd rfl (hcall o p cb2)
  | _ => rfl

/-- In an endless run in which callbacks return, so that the update goes on
again and again, there is always a later state with no update under way. -/
theorem update_returns {f : Nat → Async} {op : Nat → Op} {r : Nat → Status} (h : Good (f 0))
    (hrun : ∀ n, Allowed (f n) (op n) = true ∧ step (f n) (op n) = some (r n, f (n + 1)))
    (hgo : ∀ m, ∃ n ≥ m, op n = .timer) (m : Nat) : ∃ n ≥ m, (f n).wheel.frame = .idle := by
  have hgood : ∀ n, Good (f n) := by
    intro n
    induction n with
    | zero => exact h
    | succ n ih => exact step_good ih (hrun n).1 (hrun n).2
  by_contra hno
  simp only [ge_iff_le, not_exists, not_and] at hno
  have hcase : ∀ n ≥ m, op n = .timer → dueNow (f (n + 1)) ⊆ dueNow (f n) ∧
      ((∃ p ∈ dueNow (f n), p ∉ dueNow (f (n + 1))) ∨ stepsLeft (f (n + 1)).wheel < stepsLeft (f n).wheel ∧
        ∀ o p cb2, (f (n + 1)).wheel.frame ≠ .call o p cb2) := by
    intro n hn hop
    have hst := (hrun n).2
    rw [hop] at hst
    exact timer_step_left (hgood n) hst
  -- the due timers get fewer whenever one fires
  have hsub : ∀ n ≥ m, dueNow (f (n + 1)) ⊆ dueNow (f n) := by
    intro n hn
    by_cases hop : op n = .timer
    · exact (hcase n hn hop).1
    · exact client_due (hgood n) (hrun n).1 (hrun n).2 (hno n hn) hop
  obtain ⟨N, hN⟩ := falls_finitely (f := fun n => (dueNow (f (m + n))).ncard)
    fun n => Set.ncard_le_ncard (hsub _ (Nat.le_add_right m n)) (dueNow_finite (hgood _).wheel)
  have hleft : ∀ n ≥ m + N, op n = .timer → stepsLeft (f (n + 1)).wheel < stepsLeft (f n).wheel ∧
      ∀ o p cb2, (f (n + 1)).wheel.frame ≠ .call o p cb2 := by
    intro n hn hop
    obtain ⟨k, rfl⟩ := Nat.exists_eq_add_of_le (Nat.le_trans (Nat.le_add_right m N) hn)
    rcases (hcase _ (Nat.le_add_right m k) hop).2 with ⟨p, hp, hnp⟩ | hleft
    · refine absurd (Set.ncard_lt_ncard ?_ (dueNow_finite (hgood _).wheel)) (hN k (by omega))
      exact ⟨hsub _ (Nat.le_add_right m k), fun hsup => hnp (hsup hp)⟩
    · exact hleft
  -- after the callback that runs has returned, there is none to call
  obtain ⟨n₀, hn₀, hop₀⟩ := hgo (m + N)
  have hquiet : ∀ k, (∀ o p cb2, (f (n₀ + 1 + k)).wheel.frame ≠ .call o p cb2) ∧
      (op (n₀ + 1 + k) ≠ .timer → (f (n₀ + 1 + k + 1)).wheel = (f (n₀ + 1 + k)).wheel) := by
    have hsame : ∀ k, (∀ o p cb2, (f (n₀ + 1 + k)).wheel.frame ≠ .call o p cb2) → op (n₀ + 1 + k) ≠ .timer →
        (f (n₀ + 1 + k + 1)).wheel = (f (n₀ + 1 + k)).wheel := fun k hcall hop =>
      outside_client (hgood _).sound (hrun _).1 (hrun _).2 (not_client (hno _ (by omega)) hcall) hop
    intro k
    induction k with
    | zero =>
      have hcall := (hleft n₀ hn₀ hop₀).2
      exact ⟨hcall, hsame 0 hcall⟩
    | succ k ih =>
      have hcall : ∀ o p cb2, (f (n₀ + 1 + (k + 1))).wheel.frame ≠ .call o p cb2 := by
        by_cases hop : op (n₀ + 1 + k) = .timer
        · exact (hleft _ (by omega) hop).2
        · intro o p cb2
          rw [← Nat.add_assoc, ih.2 hop]
          exact ih.1 o p cb2
      exact ⟨hcall, hsame (k + 1) hcall⟩
  obtain ⟨K, hK⟩ := falls_finitely (f := fun k => stepsLeft (f (n₀ + 1 + k)).wheel) fun k => by
    by_cases hop : op (n₀ + 1 + k) = .timer
    · exact le_of_lt (hleft _ (by omega) hop).1
    · exact le_of_eq (congrArg stepsLeft ((hquiet k).2 hop))
  obtain ⟨n, hn, hop⟩ := hgo (n₀ + 1 + K)
  obtain ⟨k, rfl⟩ := Nat.exists_eq_add_of_le (Nat.le_trans (Nat.le_add_right (n₀ + 1) K) hn)
  exact hK k (by omega) (hleft _ (by omega) hop).1

/-! ## The wheel is exact -/

/-- A timer is due at the current offset plus its delay, at least 1. -/
theorem timer_set_due {delay_ms : Int} {cb cb_arg : UInt64} {r : Status}
    (hok : Allowed s (.timer_set delay_ms cb cb_arg) = true)
    (hst : step s (.timer_set delay_ms cb cb_arg) = some (r, s')) :
    ∃ (x : Use) (D : Nat) (p : Ptr), x.cb = cb ∧ x.arg = cb_arg ∧ (D : Int) = s.wheel.current_offset + max delay_ms 1 ∧
      s'.log = s.log ++ [.timerSet x D p] := by
  simp only [Allowed, Bool.and_eq_true, decide_eq_true_eq] at hok
  obtain ⟨⟨⟨-, hd⟩, -⟩, hsmall⟩ := hok
  obtain ⟨due, p, pool', hdue, hc, rfl⟩ := timer_set_cases hst
  refine ⟨(pool'.recs p).use, due, p, ?_, ?_, ?_, rfl⟩
  · simp [hc.recs, Pool.fill, callback.use]
  · simp [hc.recs, Pool.fill, callback.use]
  · rw [hdue]
    exact dueOffset_small hd hsmall

/-- A timer set after an update has started does not fire before the update
has returned. -/
theorem set_in_update (h : Good s) {m c k D j : Nat} {x : Use} {p : Ptr} (hm : Logged s.log m (.updating c))
    (hmk : m < k) (hk : Logged s.log k (.timerSet x D p)) (hj : Logged s.log j (.timerFired x)) :
    ∃ n, m < n ∧ n < j ∧ Logged s.log n .updated := by
  obtain ⟨m', c', hkm, hmj, hm', -⟩ := h.timers.exact.first k x D p j hk hj
  obtain ⟨n, x, hmn, hnm, hn, rfl⟩ :=
    h.timers.nested.apart m m' _ _ (Nat.lt_trans hmk hkm) hm ⟨c, rfl⟩ hm' ⟨c', rfl⟩
  exact ⟨n, hmn, Nat.lt_trans hnm hmj, hn⟩

/-- In every run with due offsets below `2 ^ 31` the log of the timers is
`Exact`, a timer that is set from a callback waits for a later update, the
wheel holds just the live timers when no update is under way, and no update
goes on for ever. -/
theorem timers_exact {evs : List (Op × Status)} (h : ReachesSmall evs s) :
    Exact s.log ∧
      (∀ delay_ms cb cb_arg r s', Allowed s (.timer_set delay_ms cb cb_arg) = true →
        step s (.timer_set delay_ms cb cb_arg) = some (r, s') →
        ∃ (x : Use) (D : Nat) (p : Ptr), x.cb = cb ∧ x.arg = cb_arg ∧ (D : Int) = s.wheel.current_offset + max delay_ms 1 ∧
          s'.log = s.log ++ [.timerSet x D p]) ∧
      (∀ m c k x D p j, Logged s.log m (.updating c) → m < k → Logged s.log k (.timerSet x D p) →
        Logged s.log j (.timerFired x) → ∃ n, m < n ∧ n < j ∧ Logged s.log n .updated) ∧
      (s.wheel.frame = .idle → s.wheel.timers_set = s.wheel.entries.length ∧
        ∀ p ∈ s.wheel.entries, (s.pool.recs p).cb ≠ 0 ∧ s.wheel.current_offset < dueOf (s.pool.recs p)) ∧
      ∀ (f : Nat → Async) (op : Nat → Op) (r : Nat → Status), f 0 = s →
        (∀ n, Allowed (f n) (op n) = true ∧ step (f n) (op n) = some (r n, f (n + 1))) →
        (∀ m, ∃ n ≥ m, op n = .timer) → ∀ m, ∃ n ≥ m, (f n).wheel.frame = .idle := by
  have hg := h.good
  refine ⟨hg.timers.exact, fun delay_ms cb cb_arg r s' hok hst => timer_set_due hok hst,
    fun m c k x D p j hm hmk hk hj => set_in_update hg hm hmk hk hj, fun hidle => ?_, ?_⟩
  · have hf := hg.wheel.frame
    unfold FrameOk at hf
    rw [hidle] at hf
    refine ⟨hg.wheel.count, fun p hp => ?_⟩
    obtain ⟨i, hi⟩ := (mem_entries hg.wheel).1 hp
    exact hf.2 i p hi
  · rintro f op r rfl hrun hgo
    exact update_returns hg hrun hgo

/-- Two timers of one slot; the callback of the first cancels the second and
sets a third, which the next update fires. -/
def twoTimers : List Op :=
  [.update_time ⟨1, 0⟩, .timer_set 5 7 0, .timer_set 5 8 0, .update_time ⟨1, 5000⟩] ++ List.replicate 10 .timer ++
    [.timer_cancel 1, .timer_set 0 9 0] ++ List.replicate 5 .timer ++ [.update_time ⟨1, 6000⟩] ++
    List.replicate 5 .timer

theorem timers_exact_two_timers :
    ∃ evs s, ReachesSmall evs s ∧ s.wheel.frame = .idle ∧ s.wheel.entries = [] ∧ s.log =
      [.timerSet ⟨0, 7, 0⟩ 5 0, .timerSet ⟨1, 8, 0⟩ 5 1, .updating 5, .timerFired ⟨0, 7, 0⟩, .timerCancelled ⟨1, 8, 0⟩,
        .timerSet ⟨2, 9, 0⟩ 6 2, .updated, .updating 6, .timerFired ⟨2, 9, 0⟩, .updated] ∧ Exact s.log := by
  have hsome : (exec step Allowed initial twoTimers).isSome = true := by decide +kernel
  obtain ⟨evs, h⟩ := Run.final hsome
  exact ⟨evs, _, h, by decide +kernel, by decide +kernel, by decide +kernel, (timers_exact h).1⟩

/-! ## Uptime -/

/-- The largest offset that fits: a 64-bit number of microseconds. -/
def MAX_OFFSET : Nat := (2 ^ 64 - 1) / 1000

/-- A value that `NR_async_timer_update_time` computes for normalized times. -/
def Computed (c : Nat) : Prop :=
  ∃ first_time tv : timeval, first_time.normalized = true ∧ tv.normalized = true ∧ offsetAt first_time tv = .ok c

theorem offsetAt_le {first_time tv : timeval} {c : Nat} (h : offsetAt first_time tv = .ok c) : c ≤ MAX_OFFSET := by
  unfold offsetAt at h
  cases hd : r_timeval_diff tv first_time with
  | error r =>
    rw [hd] at h
    cases h
  | ok diff =>
    rw [hd] at h
    cases h
    refine Nat.div_le_div_right ?_
    unfold r_timeval2int toUINT8
    omega

/-- A difference of `c` milliseconds. -/
theorem offsetAt_ms {first_time tv : timeval} {c : Nat} (hc : c ≤ MAX_OFFSET)
    (hdiff : r_timeval_diff tv first_time = .ok ⟨(c / 1000 : Nat), (c % 1000 * 1000 : Nat)⟩) :
    offsetAt first_time tv = .ok c := by
  have hus : r_timeval2int ⟨(c / 1000 : Nat), (c % 1000 * 1000 : Nat)⟩ = c * 1000 := by
    have hsum : ((c / 1000 : Nat) : Int) * 1000000 + (c % 1000 * 1000 : Nat) = (c * 1000 : Nat) := by omega
    have hmax : MAX_OFFSET = 18446744073709551 := by decide
    have hlt : ((c * 1000 : Nat) : Int) < 2 ^ 64 := by omega
    rw [r_timeval2int, hsum, toUINT8, Int.emod_eq_of_lt (Int.natCast_nonneg _) hlt, Int.toNat_natCast]
  unfold offsetAt
  rw [hdiff]
  show Except.ok (r_timeval2int _ / 1000) = _
  rw [hus, Nat.mul_div_cancel _ (by decide)]

/-- They are the values up to `MAX_OFFSET`. -/
theorem computed_iff {c : Nat} : Computed c ↔ c ≤ MAX_OFFSET := by
  constructor
  · rintro ⟨first_time, tv, -, -, h⟩
    exact offsetAt_le h
  · intro h
    have hdiff := r_timeval_diff_add ⟨1, 0⟩ (Int.natCast_nonneg (c / 1000)) (Int.natCast_nonneg (c % 1000 * 1000))
    refine ⟨⟨1, 0⟩, ⟨1 + (c / 1000 : Nat), 0 + (c % 1000 * 1000 : Nat)⟩, by decide, ?_, ?_⟩
    · simp only [timeval.normalized, Bool.and_eq_true, decide_eq_true_eq]
      omega
    · exact offsetAt_ms h hdiff

/-- Runs whose updates are given normalized times. -/
def Timely (s : Async) (op : Op) : Bool :=
  Permitted s op && match op with
    | .update_time tv => tv.normalized
    | _ => true

/-- The current offset is one that was computed. -/
theorem offset_le (h : Sound s) {op : Op} {r : Status} (hok : Permitted s op = true) (hst : step s op = some (r, s'))
    (hle : s.wheel.current_offset ≤ MAX_OFFSET) : s'.wheel.current_offset ≤ MAX_OFFSET := by
  cases hopt : op.isTimer with
  | false =>
    rw [(other_frame h hopt hst).1]
    exact hle
  | true =>
    cases op with
    | timer_set delay_ms cb cb_arg =>
      obtain ⟨due, p, pool', -, -, rfl⟩ := timer_set_cases hst
      exact hle
    | timer_cancel p =>
      simp only [Permitted, Bool.and_eq_true, Bool.or_eq_true] at hok
      rcases timer_cancel_cases h hok.2 hst with rfl | ⟨i, -, -, ⟨-, rfl⟩ | ⟨-, rfl⟩⟩
      · exact hle
      · exact hle
      · exact hle
    | update_time tv =>
      rcases update_time_cases (Option.some.inj hst) with rfl | rfl | ⟨c, hc, ⟨-, rfl⟩ | ⟨-, rfl⟩⟩
      · exact hle
      · exact hle
      · exact hle
      · exact offsetAt_le hc
    | timer =>
      rw [(timer_step_cases hst).2.1]
      exact hle
    | wait sock how cb cb_arg => cases hopt
    | cancel sock how => cases hopt
    | schedule cb cb_arg => cases hopt
    | event_wait2 tv sel => cases hopt
    | loop => cases hopt

theorem timely_offset {evs : List (Op × Status)} (h : Run step (fun s op => Timely s op) initial evs s) :
    Sound s ∧ s.wheel.current_offset ≤ MAX_OFFSET := by
  refine h.inv (fun s => Sound s ∧ s.wheel.current_offset ≤ MAX_OFFSET) ⟨initial_sound, Nat.zero_le _⟩ ?_
  intro s op r s' hI hok hst
  have hper : Permitted s op = true := (Bool.and_eq_true_iff.1 hok).1
  exact ⟨step_sound hI.1 hper hst, offset_le hI.1 hper hst hI.2⟩

/-- Conversion to an `int` keeps the lower 32 bits. -/
theorem toInt_eq (n : Nat) :
    toInt n = if n % 2 ^ 32 < 2 ^ 31 then ((n % 2 ^ 32 : Nat) : Int) else (n % 2 ^ 32 : Nat) - 2 ^ 32 := by
  have hmod : (n : Int) % ((2 ^ 32 : Nat) : Int) = (n % 2 ^ 32 : Nat) := (Int.natCast_emod n (2 ^ 32)).symm
  unfold toInt
  rw [Int.bmod_def, hmod]
  generalize n % 2 ^ 32 = m
  split <;> split <;> omega

/-- The stored offset against a later one: a negative one is never reached. -/
theorem isDue_iff {c : callback} {D : Nat} (hres : c.resource = toInt D) {c' : Nat} (hc' : c' ≤ MAX_OFFSET) :
    isDue c c' = true ↔ D % 2 ^ 32 < 2 ^ 31 ∧ D % 2 ^ 32 ≤ c' := by
  have hlt : D % 2 ^ 32 < 2 ^ 32 := Nat.mod_lt _ (by decide)
  unfold isDue toUINT8
  unfold MAX_OFFSET at hc'
  rw [decide_eq_true_eq, hres, toInt_eq]
  generalize D % 2 ^ 32 = m at *
  split <;> omega

/-- The due offset of a timer compares like `current_offset + max(delay, 1)`
with all later offsets if and only if this number is below `2 ^ 31`, or none of
them reaches it and the stored one is negative. -/
theorem due_compares_iff {evs : List (Op × Status)} (h : Run step (fun s op => Timely s op) initial evs s)
    {delay_ms : Int} (hd : 0 ≤ delay_ms) (hint : delay_ms ≤ INT_MAX) {cb cb_arg : UInt64} {r : Status}
    (hst : NR_async_timer_set s delay_ms cb cb_arg = some (r, s')) {x : Use} {D : Nat} {p : Ptr}
    (hlog : s'.log = s.log ++ [.timerSet x D p]) :
    (∀ c', Computed c' → s.wheel.current_offset ≤ c' →
      (isDue (s'.pool.recs p) c' = true ↔ s.wheel.current_offset + max delay_ms 1 ≤ c')) ↔
    s.wheel.current_offset + max delay_ms 1 < 2 ^ 31 ∨
      (2 ^ 31 ≤ (s.wheel.current_offset + max delay_ms 1) % 2 ^ 32 ∧
        MAX_OFFSET < s.wheel.current_offset + max delay_ms 1) := by
  obtain ⟨hsound, hle⟩ := timely_offset h
  obtain ⟨due, q, pool', hdue, hc, rfl⟩ := timer_set_cases hst
  have hev := List.append_cancel_left hlog
  cases hev
  have hmax : MAX_OFFSET = 18446744073709551 := by decide
  unfold INT_MAX at hint
  have hD : (D : Int) = s.wheel.current_offset + max delay_ms 1 := by
    rw [hdue]
    unfold dueOffset toUINT8
    split <;> omega
  have hres : ((pool'.write p fun c => { c with backptr := some (D % WHEEL_SIZE) }).recs p).resource = toInt D := by
    simp [Pool.write, hc.recs, Pool.fill]
  rw [← hD]
  constructor
  · intro hall
    by_contra hcond
    rw [not_or, not_and] at hcond
    by_cases hneg : D % 2 ^ 32 < 2 ^ 31
    · -- it has wrapped around to a small number and is due at once
      have hnow := hall s.wheel.current_offset (computed_iff.2 hle) (Nat.le_refl _)
      rw [isDue_iff hres hle] at hnow
      have := hnow.1 ⟨hneg, by omega⟩
      omega
    · -- it is negative, and never reached
      have hnow := hall MAX_OFFSET (computed_iff.2 (Nat.le_refl _)) hle
      rw [isDue_iff hres (Nat.le_refl _)] at hnow
      have := hnow.2 (by omega)
      omega
  · intro hcond c' hc' hcc'
    have hc' := computed_iff.1 hc'
    rw [isDue_iff hres hc']
    omega

end

/-- A timer whose callback is called at the last offset that fits an `int`. -/
def lateCallback : List Op :=
  [.update_time ⟨1, 0⟩, .timer_set 1 7 0, .update_time ⟨2147484, 647000⟩, .timer, .timer]

/-- After 25 days of uptime a timer set for the next millisecond is not due
when it is reached. -/
theorem due_compares_negative :
    ∃ evs s r s' x D p, Run step (fun s op => Timely s op) initial evs s ∧
      NR_async_timer_set s 1 8 0 = some (r, s') ∧ s'.log = s.log ++ [.timerSet x D p] ∧
      Computed (2 ^ 31) ∧ s.wheel.current_offset ≤ 2 ^ 31 ∧
      ¬ (isDue (s'.pool.recs p) (2 ^ 31) = true ↔ s.wheel.current_offset + max (1 : Int) 1 ≤ (2 ^ 31 : Nat)) := by
  have hrun : (exec step Timely initial lateCallback).isSome = true := by decide +kernel
  have hnow : (final step Timely initial lateCallback).wheel.current_offset = 2147483647 := by decide +kernel
  have hset : (NR_async_timer_set (final step Timely initial lateCallback) 1 8 0).isSome = true := by decide +kernel
  obtain ⟨evs, h⟩ := Run.final hrun
  obtain ⟨⟨r, s'⟩, hst⟩ := Option.isSome_iff_exists.1 hset
  have hmax : MAX_OFFSET = 18446744073709551 := by decide
  have hle : 2 ^ 31 ≤ MAX_OFFSET := by omega
  obtain ⟨due, p, pool', hdue, hc, rfl⟩ := timer_set_cases hst
  refine ⟨evs, _, r, _, _, due, p, h, hst, rfl, computed_iff.2 hle, by omega, ?_⟩
  have hres : ((pool'.write p fun c => { c with backptr := some (due % WHEEL_SIZE) }).recs p).resource = toInt due := by
    simp [Pool.write, hc.recs, Pool.fill]
  have hD : due = 2147483648 := by
    rw [hdue, hnow]
    decide
  rw [isDue_iff hres hle, hD, hnow]
  omega

theorem due_compares_early :
    ∃ evs s r s' p, Run step (fun s op => Timely s op) initial evs s ∧ NR_async_timer_set s 5 8 0 = some (r, s') ∧
      isDue (s'.pool.recs p) 4 = false ∧ isDue (s'.pool.recs p) 5 = true := by
  have hrun : (exec step Timely initial [.update_time ⟨1, 0⟩]).isSome = true := by decide +kernel
  have hset : (NR_async_timer_set (final step Timely initial [.update_time ⟨1, 0⟩]) 5 8 0).isSome = true := by
    decide +kernel
  have hnow : (final step Timely initial [.update_time ⟨1, 0⟩]).wheel.current_offset = 0 := by decide +kernel
  obtain ⟨evs, h⟩ := Run.final hrun
  obtain ⟨⟨r, s'⟩, hst⟩ := Option.isSome_iff_exists.1 hset
  obtain ⟨due, p, pool', -, -, hs'⟩ := timer_set_cases hst
  have hlog : s'.log = (final step Timely initial [.update_time ⟨1, 0⟩]).log ++ [.timerSet (pool'.recs p).use due p] := by
    rw [hs']
  have hall := (due_compares_iff h (show (0 : Int) ≤ 5 by decide) (by decide) hst hlog).2 (.inl (by rw [hnow]; decide))
  have hmax : MAX_OFFSET = 18446744073709551 := by decide
  refine ⟨evs, _, r, s', p, h, hst, ?_, ?_⟩
  · have hdue := hall 4 (computed_iff.2 (by omega)) (by omega)
    rw [hnow] at hdue
    simpa using hdue
  · have hdue := hall 5 (computed_iff.2 (by omega)) (by omega)
    rw [hnow] at hdue
    simpa using hdue

end Nrappkit.Event
