import Nrappkit.Event.Loops
/-!
# The event loop keeps its contract

What the log of every run says about registrations and scheduled callbacks,
and that a batch is run to its end.
-/
open Lib

namespace Nrappkit.Event

section
variable {s s' : Async}

/-! ## A batch is run to its end -/

/-- The steps the walk has left. -/
def loopLeft (l : Loop) : Nat :=
  match l.frame with
  | .idle => 0
  | .head _ => 2 * l.w_q.length + 1
  | .call _ _ => 2 * l.w_q.length

theorem loop_step_left (h : Sound s) {r : Status} (hst : loop_step s = some (r, s')) :
    loopLeft s'.loop < loopLeft s.loop := by
  rcases loop_step_cases h.loop hst with ⟨events, hf, hw, -, rfl⟩ | ⟨events, n1, rest, hf, hw, -, -, rfl⟩ |
    ⟨events, n1, rest, hf, hw, -, events', rfl⟩
  · simp [loopLeft, hf]
  · simp [loopLeft, hf]
  · rcases hf with ⟨hf, -⟩ | ⟨n2, hf⟩
    · simp only [loopLeft, finishCallback, hf, hw, List.erase_cons_head, List.length_cons]
      omega
    · simp only [loopLeft, finishCallback, hf, hw, List.erase_cons_head, List.length_cons]
      omega

/-- Nothing else moves the walk. -/
theorem other_left (h : Sound s) {op : Op} {r : Status} (hok : Permitted s op = true)
    (hst : step s op = some (r, s')) (hrun : s.loop.frame ≠ .idle) (hop : op ≠ .loop) :
    loopLeft s'.loop = loopLeft s.loop := by
  cases op with
  | wait sock how cb cb_arg =>
    rcases wait_cases hst with rfl | ⟨i, j, p, pool', -, -, -, -, -, rfl⟩
    · rfl
    · obtain ⟨-, -, -, -, -, hwq, -, hf⟩ := clearSlot_frame s i j
      simp [loopLeft, Loop.setSlot, hwq, hf]
  | cancel sock how =>
    rcases cancel_cases hst with rfl | ⟨i, j, -, -, ⟨-, rfl⟩ | ⟨c, -, rfl⟩⟩
    · rfl
    · obtain ⟨-, -, -, -, -, hwq, -, hf⟩ := clearSlot_frame s i j
      simp [loopLeft, hwq, hf]
    · obtain ⟨-, -, -, -, -, hwq, -, hf⟩ := clearSlot_frame s i j
      simp [loopLeft, hwq, hf]
  | schedule cb cb_arg =>
    obtain ⟨p, pool', -, rfl⟩ := schedule_cases hst
    rfl
  | event_wait2 tv sel =>
    simp only [Permitted, Bool.and_eq_true, decide_eq_true_eq] at hok
    exact absurd hok.2 hrun
  | loop => exact absurd rfl hop
  | timer_set delay_ms cb cb_arg =>
    obtain ⟨due, p, pool', -, -, rfl⟩ := timer_set_cases hst
    rfl
  | timer_cancel p =>
    simp only [Permitted, Bool.and_eq_true, Bool.or_eq_true] at hok
    rcases timer_cancel_cases h hok.2 hst with rfl | ⟨i, -, -, ⟨-, rfl⟩ | ⟨-, rfl⟩⟩
    · rfl
    · rfl
    · rfl
  | update_time tv =>
    rcases update_time_cases (Option.some.inj hst) with rfl | rfl | ⟨c, -, ⟨-, rfl⟩ | ⟨-, rfl⟩⟩
    · rfl
    · rfl
    · rfl
    · rfl
  | timer => rw [(timer_step_cases hst).1]

/-- In an endless run in which callbacks return, so that the walk goes on again
and again, there is always a later state with no batch under way. -/
theorem batch_returns {f : Nat → Async} {op : Nat → Op} {r : Nat → Status} (h : Sound (f 0))
    (hrun : ∀ n, Permitted (f n) (op n) = true ∧ step (f n) (op n) = some (r n, f (n + 1)))
    (hgo : ∀ m, ∃ n ≥ m, op n = .loop) (m : Nat) : ∃ n ≥ m, (f n).loop.frame = .idle := by
  have hsound : ∀ n, Sound (f n) := by
    intro n
    induction n with
    | zero => exact h
    | succ n ih => exact step_sound ih (hrun n).1 (hrun n).2
  by_contra hno
  simp only [ge_iff_le, not_exists, not_and] at hno
  have hfall : ∀ n, op n = .loop → loopLeft (f (n + 1)).loop < loopLeft (f n).loop := by
    intro n hop
    have hst := (hrun n).2
    rw [hop] at hst
    exact loop_step_left (hsound n) hst
  obtain ⟨N, hN⟩ := falls_finitely (f := fun n => loopLeft (f (m + n)).loop) fun n => by
    by_cases hop : op (m + n) = .loop
    · exact Nat.le_of_lt (hfall _ hop)
    · exact Nat.le_of_eq (other_left (hsound _) (hrun _).1 (hrun _).2 (hno _ (Nat.le_add_right m n)) hop)
  obtain ⟨n, hn, hop⟩ := hgo (m + N)
  obtain ⟨k, rfl⟩ := Nat.exists_eq_add_of_le (Nat.le_trans (Nat.le_add_right m N) hn)
  exact hN k (by omega) (hfall _ hop)

/-! ## The contract -/

/-- What was registered before a cancel does not fire after it. -/
theorem cancelled_never_fires (h : LoopGood s) {k n m i j : Nat} {x : Use} (hk : Logged s.log k (.registered x i j))
    (hkn : k < n) (hn : Logged s.log n (.cancelled i j)) (hnm : n < m) : ¬ Logged s.log m (.fired x) := by
  intro hm
  have htake : ∀ {l e}, Logged (s.log.take m) l e → Logged s.log l e := logged_of_take
  obtain ⟨o, ho⟩ := h.inv.orderly.due x m hm
  cases o with
  | none =>
    obtain ⟨k', -, hk', -⟩ := ho
    exact h.inv.not_both (htake hk') hk rfl
  | some ij =>
    obtain ⟨k', -, hk', -, -, -, hcan, -⟩ := ho
    obtain rfl := h.inv.born_inj (.inr ⟨_, _, htake hk'⟩) (.inr ⟨i, j, hk⟩) rfl
    obtain ⟨-, rfl, rfl⟩ := Ev.registered.inj ((htake hk').unique hk)
    exact hcan n _ hkn (logged_take hn hnm) rfl

/-- What is registered or scheduled during a batch does not run in it. -/
theorem born_in_batch (h : LoopGood s) {m k j : Nat} {e : Ev} {x : Use} (hm : Logged s.log m e) (he : e.IsPolled)
    (hmk : m < k) (hk : Born s.log k x) (hj : Logged s.log j (.fired x)) :
    ∃ n, m < n ∧ n < j ∧ Logged s.log n .returned := by
  have htake : ∀ {l e}, Logged (s.log.take j) l e → Logged s.log l e := logged_of_take
  -- the batch it fires in began after it was created
  have hlater : ∃ m' e', k < m' ∧ m' < j ∧ Logged s.log m' e' ∧ e'.IsPolled := by
    obtain ⟨o, ho⟩ := h.inv.orderly.due x j hj
    cases o with
    | none =>
      obtain ⟨k', m', hk', hkm, ⟨fr, fw, hm'⟩, -⟩ := ho
      obtain rfl := h.inv.born_inj (.inl (htake hk')) hk rfl
      exact ⟨m', _, hkm, lt_of_logged_take hm', htake hm', fr, fw, rfl⟩
    | some ij =>
      obtain ⟨k', m', hk', hkm, ⟨fr, fw, hm', -⟩, -⟩ := ho
      obtain rfl := h.inv.born_inj (.inr ⟨_, _, htake hk'⟩) hk rfl
      exact ⟨m', _, hkm, lt_of_logged_take hm', htake hm', fr, fw, rfl⟩
  obtain ⟨m', e', hkm, hmj, hm', he'⟩ := hlater
  obtain ⟨n, y, hmn, hnm, hn, rfl⟩ := h.inv.nested.apart m m' e e' (Nat.lt_trans hmk hkm) hm he hm' he'
  exact ⟨n, hmn, Nat.lt_trans hnm hmj, hn⟩

/-- In every run the log of the event loop is `Orderly`; what is cancelled never
fires, what is created during a batch waits for a later one, a registration that
nothing ended is in its slot, and no batch goes on for ever. -/
theorem event_loop_contract {evs : List (Op × Status)} (h : Reaches evs s) :
    Orderly s.log ∧
      (∀ k x i j n m, Logged s.log k (.registered x i j) → k < n → Logged s.log n (.cancelled i j) → n < m →
        ¬ Logged s.log m (.fired x)) ∧
      (∀ m e k x j, Logged s.log m e → e.IsPolled → m < k → Born s.log k x → Logged s.log j (.fired x) →
        ∃ n, m < n ∧ n < j ∧ Logged s.log n .returned) ∧
      (∀ k x i j, Logged s.log k (.registered x i j) → Since s.log k (Ends i j) →
        ∃ p, s.loop.socket_vec i j = some p ∧ (s.pool.recs p).use = x) ∧
      ∀ (f : Nat → Async) (op : Nat → Op) (r : Nat → Status), f 0 = s →
        (∀ n, Permitted (f n) (op n) = true ∧ step (f n) (op n) = some (r n, f (n + 1))) →
        (∀ m, ∃ n ≥ m, op n = .loop) → ∀ m, ∃ n ≥ m, (f n).loop.frame = .idle := by
  obtain ⟨hs, hl⟩ := h.loop
  refine ⟨hl.inv.orderly, fun k x i j n m hk hkn hn hnm => cancelled_never_fires hl hk hkn hn hnm,
    fun m e k x j hm he hmk hk hj => born_in_batch hl hm he hmk hk hj, fun k x i j hk hsince => ?_, ?_⟩
  · exact Option.map_eq_some_iff.1 (hl.inv.slots.kept k x i j hk hsince)
  · rintro f op r rfl hrun hgo
    exact batch_returns hs hrun hgo

end

/-- A scheduled callback and two ready sockets; the callback of the first
cancels the second. -/
def cancelInBatch : List Op :=
  [.wait 3 0 7 0, .wait 4 0 8 0, .schedule 9 0, .event_wait2 none ⟨2, [3, 4], [], false⟩, .loop, .loop, .loop,
    .cancel 4 0, .loop, .loop, .loop]

theorem event_loop_contract_cancel_in_batch :
    ∃ evs s, Reaches evs s ∧ s.log =
      [.registered ⟨0, 7, 0⟩ 3 0, .registered ⟨1, 8, 0⟩ 4 0, .scheduled ⟨2, 9, 0⟩, .polled [3, 4] [],
        .fired ⟨2, 9, 0⟩, .fired ⟨0, 7, 0⟩, .cancelled 4 0, .returned] ∧ Orderly s.log := by
  have hexec : ((exec step Permitted initial cancelInBatch).map fun a => a.2.log) = some
      [.registered ⟨0, 7, 0⟩ 3 0, .registered ⟨1, 8, 0⟩ 4 0, .scheduled ⟨2, 9, 0⟩, .polled [3, 4] [],
        .fired ⟨2, 9, 0⟩, .fired ⟨0, 7, 0⟩, .cancelled 4 0, .returned] := by decide +kernel
  obtain ⟨⟨rs, s⟩, hs, hlog⟩ := Option.map_eq_some_iff.1 hexec
  have hrun : Reaches _ s := Run.nil.exec hs
  exact ⟨_, s, hrun, hlog, (event_loop_contract hrun).1⟩

end Nrappkit.Event
