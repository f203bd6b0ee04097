import Nrappkit.Event.TimedWheel
import Mathlib.Order.Bounds.Basic
/-!
# The next timeout

`NR_async_timer_next_timeout` scans the wheel for the earliest live timer. The
scan starts at `INT_MAX` and takes what is left of that at its end to mean that
nothing was found, so a timer that is due just `INT_MAX` ms ahead is not
reported.
-/
open Lib

namespace Nrappkit.Event

/-! ## The scan -/

/-- `cb->resource-(current_offset/MS_PER_ENTRY)`, an unsigned 64-bit difference
stored in an `int`. -/
def this_delay_ms (c : callback) (current_offset : Nat) : Int := toInt (toUINT8 (c.resource - current_offset))

/-- A visit of the scan. -/
def scanned (s : Async) (min_delay_ms : Int) (cb : Ptr) : Int :=
  let c := s.pool.recs cb
  if c.cb ≠ 0 then
    if this_delay_ms c s.wheel.current_offset < min_delay_ms then this_delay_ms c s.wheel.current_offset
    else min_delay_ms
  else min_delay_ms

def NR_async_timer_next_timeout (s : Async) : Except Status Int :=
  let min_delay_ms := (List.range WHEEL_SIZE).foldl (fun m i => (s.wheel.callwheel i).foldl (scanned s) m) INT_MAX
  if min_delay_ms = INT_MAX then .error .R_NOT_FOUND else .ok min_delay_ms

/-! ## What is claimed -/

/-- The numbers of ms until the live timers are due. -/
def remaining (s : Async) : Set Int := {v | ∃ x D h, LiveTimer s x D h ∧ v = D - s.wheel.current_offset}

/-- Steps of an update, none of which calls a callback before the last. -/
inductive Walks : Async → Async → Prop
  | refl (s : Async) : Walks s s
  | step {s s₁ s₂ : Async} {r : Status} : s.wheel.frame.inClient = false → timer_step s = some (r, s₁) →
      Walks s₁ s₂ → Walks s s₂

/-- The update that has just started returns and fires nothing. -/
def FiresNothing (s : Async) : Prop :=
  ∃ s', Walks s s' ∧ s'.wheel.frame = .idle ∧ s'.log = s.log ++ [.updated]

/-- The update that has just started fires a timer. -/
def FiresOne (s : Async) : Prop :=
  ∃ s' x o p cb2, Walks s s' ∧ s'.wheel.frame = .call o p cb2 ∧ s'.log = s.log ++ [.timerFired x]

/-- The earliest live timer is reported, and an update that reaches an offset
of `range` is what the report says it is. -/
def NextTimeoutExact (range : Nat → Prop) (s : Async) : Prop :=
  (NR_async_timer_next_timeout s = .error .R_NOT_FOUND ↔ remaining s = ∅) ∧
    ∀ v, IsLeast (remaining s) v → 0 < v ∧ NR_async_timer_next_timeout s = .ok v ∧
      ∀ tv s' (c : Nat), NR_async_timer_update_time s tv = (.ok, s') → s'.log = s.log ++ [.updating c] → range c →
        ((c : Int) - s.wheel.current_offset < v → FiresNothing s') ∧
        ((c : Int) - s.wheel.current_offset = v → FiresOne s')

/-! ## What the scan finds -/

theorem scanned_le (s : Async) (m : Int) (p : Ptr) : scanned s m p ≤ m := by
  unfold scanned
  dsimp only
  split
  · split <;> omega
  · exact le_refl m

/-- The result of the scan is below what every record with a callback has left,
and it is one of these or what the scan started with. -/
theorem scan_spec (s : Async) (l : List Ptr) (m : Int) :
    l.foldl (scanned s) m ≤ m ∧
      (∀ p ∈ l, (s.pool.recs p).cb ≠ 0 →
        l.foldl (scanned s) m ≤ this_delay_ms (s.pool.recs p) s.wheel.current_offset) ∧
      (l.foldl (scanned s) m = m ∨ ∃ p ∈ l, (s.pool.recs p).cb ≠ 0 ∧
        l.foldl (scanned s) m = this_delay_ms (s.pool.recs p) s.wheel.current_offset) := by
  induction l generalizing m with
  | nil => exact ⟨le_refl m, fun p hp => (by cases hp), .inl rfl⟩
  | cons q l ih =>
    rw [List.foldl_cons]
    obtain ⟨hle, hall, hone⟩ := ih (scanned s m q)
    refine ⟨le_trans hle (scanned_le s m q), fun p hp hcb => ?_, ?_⟩
    · rcases List.mem_cons.1 hp with rfl | hp
      · refine le_trans hle ?_
        unfold scanned
        rw [if_pos hcb]
        split <;> omega
      · exact hall p hp hcb
    · rcases hone with heq | ⟨p, hp, hcb, heq⟩
      · rw [heq]
        unfold scanned
        dsimp only
        split
        · rename_i hcb
          split
          · exact .inr ⟨q, by simp, hcb, rfl⟩
          · exact .inl rfl
        · exact .inl rfl
      · exact .inr ⟨p, List.mem_cons_of_mem q hp, hcb, heq⟩

/-- The scan of the slots is one of all records. -/
theorem scan_entries (s : Async) (m : Int) :
    (List.range WHEEL_SIZE).foldl (fun m i => (s.wheel.callwheel i).foldl (scanned s) m) m =
      s.wheel.entries.foldl (scanned s) m := by
  rw [Wheel.entries, List.foldl_flatMap]

section
variable {s s' : Async}

/-! ## What is reported -/

/-- A live timer has its record in the wheel. -/
theorem LiveTimer.entry (h : Timed s) {x : Use} {D : Nat} {p : Ptr} (hl : LiveTimer s x D p) :
    ∃ i, p ∈ s.wheel.callwheel i ∧ (s.pool.recs p).cb ≠ 0 ∧ Entry s i p D := by
  obtain ⟨hset, hpend⟩ := hl
  obtain ⟨⟨i, hi⟩, huse⟩ := h.sound.pending x p hpend
  have hcb : (s.pool.recs p).cb ≠ 0 := by
    have := hpend.1
    rwa [← huse] at this
  obtain ⟨D', hD⟩ := h.entry i p hi hcb
  have hset' := hD.live.1
  rw [huse] at hset'
  obtain ⟨rfl, -⟩ := h.unique _ _ _ _ _ hset hset'
  exact ⟨i, hi, hcb, hD⟩

/-- With no update under way the timers are due later. -/
theorem Entry.pos (h : Timed s) (hidle : s.wheel.frame = .idle) {i : Nat} {p : Ptr} {D : Nat} (hD : Entry s i p D)
    (hp : p ∈ s.wheel.callwheel i) : s.wheel.current_offset < D := by
  have hvis := h.visited
  unfold Visited at hvis
  rw [hidle] at hvis
  have := hvis i p hp hD.live.2.1
  rwa [hD.offset h.small] at this

/-- The unsigned difference is stored as what is left of the delay. -/
theorem Entry.delay (h : Timed s) {i : Nat} {p : Ptr} {D : Nat} (hD : Entry s i p D)
    (hpos : s.wheel.current_offset < D) :
    this_delay_ms (s.pool.recs p) s.wheel.current_offset = D - s.wheel.current_offset := by
  have hsmall := h.small
  have hnear := hD.near
  have hlt := hD.lt hsmall
  unfold INT_MAX at hnear
  have hdiff : toUINT8 ((s.pool.recs p).resource - s.wheel.current_offset) % 2 ^ 32 = D - s.wheel.current_offset := by
    rw [hD.resource, toInt_eq, Nat.mod_eq_of_lt hlt]
    unfold toUINT8
    split <;> omega
  rw [this_delay_ms, toInt_eq, hdiff]
  split <;> omega

/-- What is left of the delays of the live timers is what the scan reads. -/
theorem mem_remaining (h : Timed s) (hidle : s.wheel.frame = .idle) {v : Int} :
    v ∈ remaining s ↔ ∃ p ∈ s.wheel.entries, (s.pool.recs p).cb ≠ 0 ∧
      v = this_delay_ms (s.pool.recs p) s.wheel.current_offset := by
  constructor
  · rintro ⟨x, D, p, hl, rfl⟩
    obtain ⟨i, hi, hcb, hD⟩ := hl.entry h
    refine ⟨p, ?_, hcb, (hD.delay h (hD.pos h hidle hi)).symm⟩
    have hlt : i < WHEEL_SIZE := by
      rw [hD.slot]
      exact Nat.mod_lt D (by decide)
    simp only [Wheel.entries, List.mem_flatMap, List.mem_range]
    exact ⟨i, hlt, hi⟩
  · rintro ⟨p, hp, hcb, heq⟩
    simp only [Wheel.entries, List.mem_flatMap, List.mem_range] at hp
    obtain ⟨i, -, hi⟩ := hp
    obtain ⟨D, hD⟩ := h.entry i p hi hcb
    rw [heq]
    exact ⟨_, D, p, hD.live, hD.delay h (hD.pos h hidle hi)⟩

theorem remaining_bounds (h : Timed s) (hidle : s.wheel.frame = .idle) {v : Int} (hv : v ∈ remaining s) :
    0 < v ∧ v ≤ INT_MAX := by
  obtain ⟨x, D, p, hl, rfl⟩ := hv
  obtain ⟨i, hi, -, hD⟩ := hl.entry h
  have := hD.pos h hidle hi
  exact ⟨by omega, hD.near⟩

/-- The earliest live timer is reported, unless it is due `INT_MAX` ms ahead. -/
theorem next_timeout_eq (h : Timed s) (hidle : s.wheel.frame = .idle) :
    (remaining s = ∅ → NR_async_timer_next_timeout s = .error .R_NOT_FOUND) ∧
      (remaining s ≠ ∅ → ∃ v, IsLeast (remaining s) v) ∧
      ∀ v, IsLeast (remaining s) v →
        NR_async_timer_next_timeout s = if v = INT_MAX then .error .R_NOT_FOUND else .ok v := by
  obtain ⟨hle, hall, hone⟩ := scan_spec s s.wheel.entries INT_MAX
  have hlow : ∀ v ∈ remaining s, s.wheel.entries.foldl (scanned s) INT_MAX ≤ v := by
    intro v hv
    obtain ⟨p, hp, hcb, heq⟩ := (mem_remaining h hidle).1 hv
    rw [heq]
    exact hall p hp hcb
  have hin : s.wheel.entries.foldl (scanned s) INT_MAX = INT_MAX ∨
      s.wheel.entries.foldl (scanned s) INT_MAX ∈ remaining s :=
    hone.imp_right fun ⟨p, hp, hcb, heq⟩ => (mem_remaining h hidle).2 ⟨p, hp, hcb, heq⟩
  have hleast : ∀ v ∈ remaining s, IsLeast (remaining s) (s.wheel.entries.foldl (scanned s) INT_MAX) := by
    intro v hv
    refine ⟨?_, hlow⟩
    rcases hin with heq | hmem
    · -- nothing was below `INT_MAX`, so this one is `INT_MAX` itself
      have hv₁ := hlow v hv
      have hv₂ := (remaining_bounds h hidle hv).2
      have : s.wheel.entries.foldl (scanned s) INT_MAX = v := by omega
      rwa [this]
    · exact hmem
  unfold NR_async_timer_next_timeout
  dsimp only
  rw [scan_entries]
  refine ⟨fun hempty => ?_, fun hne => ?_, fun v hv => ?_⟩
  · rcases hin with heq | hmem
    · rw [if_pos heq]
    · rw [hempty] at hmem
      cases hmem
  · obtain ⟨v, hv⟩ := Set.nonempty_iff_ne_empty.2 hne
    exact ⟨_, hleast v hv⟩
  · rw [(hleast v hv.1).unique hv]

/-! ## The update that follows -/

/-- The offset of a walk has been reached. -/
def InUpdate (w : Wheel) : Prop :=
  match w.frame with
  | .idle | .call _ _ _ => False
  | .slot _ => True
  | .walk o _ | .purge o _ => o ≤ w.current_offset

/-- A step of an update before the first callback: it comes closer to the end,
returns, or finds a timer to fire. -/
theorem walk_step (h : Sound s) (hin : InUpdate s.wheel) :
    ∃ r s₁, timer_step s = some (r, s₁) ∧ s₁.wheel.current_offset = s.wheel.current_offset ∧
      (s₁.pool.recs = s.pool.recs ∧ (∀ i, ∀ p ∈ s₁.wheel.callwheel i, p ∈ s.wheel.callwheel i) ∧
          s₁.log = s.log ∧ InUpdate s₁.wheel ∧ stepsLeft s₁.wheel < stepsLeft s.wheel ∨
        s₁.wheel.frame = .idle ∧ s₁.log = s.log ++ [.updated] ∨
        ∃ o p cb2, p ∈ s.wheel.callwheel (o % WHEEL_SIZE) ∧ (s.pool.recs p).cb ≠ 0 ∧
          isDue (s.pool.recs p) s.wheel.current_offset = true ∧
          s₁.wheel.frame = .call o p cb2 ∧ s₁.log = s.log ++ [.timerFired (s.pool.recs p).use]) := by
  have hwalk := h.walk
  have hn := h.owned.wheel
  have hsub : ∀ o p f i, ∀ q ∈ ((s.removeTimer (o % WHEEL_SIZE) p).atFrame f).wheel.callwheel i,
      q ∈ s.wheel.callwheel i := fun o p f i q hq => ((mem_removed (hn _)).1 hq).1
  unfold InUpdate at hin
  unfold WalkOk at hwalk
  unfold timer_step stepsLeft
  cases hf : s.wheel.frame with
  | idle =>
    rw [hf] at hin
    exact hin.elim
  | call o p cb2 =>
    rw [hf] at hin
    exact hin.elim
  | slot o =>
    dsimp only
    split
    · rename_i hle
      exact ⟨_, _, rfl, rfl, .inl ⟨rfl, fun _ _ hp => hp, rfl, hle, left_loop (by decide) _ _⟩⟩
    · exact ⟨_, _, rfl, rfl, .inr (.inl ⟨rfl, rfl⟩)⟩
  | walk o cb =>
    rw [hf] at hin hwalk
    cases cb with
    | none =>
      dsimp only
      split
      · exact ⟨_, _, rfl, rfl, .inl ⟨rfl, fun _ _ hp => hp, rfl, hin, left_loop (by decide) _ _⟩⟩
      · exact ⟨_, _, rfl, rfl, .inl ⟨rfl, fun _ _ hp => hp, rfl, trivial, left_offset hin _ _ _ _⟩⟩
    | some p =>
      have hp := hwalk.2 p rfl
      obtain ⟨hstay, herase⟩ := ahead_next hp (hn _)
      dsimp only
      split
      · rename_i hdue
        split
        · rename_i hcb
          exact ⟨_, _, rfl, rfl, .inr (.inr ⟨o, p, _, hp, hcb, hdue, rfl, rfl⟩)⟩
        · refine ⟨_, _, rfl, rfl, .inl ⟨rfl, hsub o p _, rfl, hin, left_record ?_⟩⟩
          rw [removed_slot]
          exact herase
      · exact ⟨_, _, rfl, rfl, .inl ⟨rfl, fun _ _ hp => hp, rfl, hin, left_record hstay⟩⟩
  | purge o cb =>
    rw [hf] at hin hwalk
    cases cb with
    | none => exact ⟨_, _, rfl, rfl, .inl ⟨rfl, fun _ _ hp => hp, rfl, trivial, left_offset hin _ _ _ _⟩⟩
    | some p =>
      have hp := hwalk.2 p rfl
      obtain ⟨hstay, herase⟩ := ahead_next hp (hn _)
      dsimp only
      split
      · refine ⟨_, _, rfl, rfl, .inl ⟨rfl, hsub o p _, rfl, hin, left_record ?_⟩⟩
        rw [removed_slot]
        exact herase
      · exact ⟨_, _, rfl, rfl, .inl ⟨rfl, fun _ _ hp => hp, rfl, hin, left_record hstay⟩⟩

theorem InUpdate.not_client {w : Wheel} (h : InUpdate w) : w.frame.inClient = false := by
  unfold InUpdate at h
  cases hf : w.frame with
  | idle => simp [hf] at h
  | call o p cb2 => simp [hf] at h
  | slot o => rfl
  | walk o cb => rfl
  | purge o cb => rfl

/-- An update returns, or reaches a record that is due. -/
theorem walk_runs (h : Sound s) (hin : InUpdate s.wheel) :
    FiresNothing s ∨ FiresOne s ∧ ∃ i, ∃ p ∈ s.wheel.callwheel i, (s.pool.recs p).cb ≠ 0 ∧
      isDue (s.pool.recs p) s.wheel.current_offset = true := by
  obtain ⟨n, hn⟩ : ∃ n, stepsLeft s.wheel = n := ⟨_, rfl⟩
  induction n using WellFoundedLT.induction generalizing s with
  | ind n ih =>
    obtain ⟨r, s₁, hst, hoff, ⟨hrecs, hsub, hlog, hin₁, hleft⟩ | ⟨hidle, hlog⟩ | ⟨o, p, cb2, hp, hcb, hdue, hf, hlog⟩⟩ :=
      walk_step h hin
    · have hcl := hin.not_client
      rcases ih _ (hn ▸ hleft) (timer_step_sound h hst) hin₁ rfl with ⟨s₂, hw, hidle, hlog₂⟩ |
        ⟨⟨s₂, x, o, p, cb2, hw, hf, hlog₂⟩, i, p', hp', hcb, hdue⟩
      · exact .inl ⟨s₂, .step hcl hst hw, hidle, by rw [hlog₂, hlog]⟩
      · refine .inr ⟨⟨s₂, x, o, p, cb2, .step hcl hst hw, hf, by rw [hlog₂, hlog]⟩, i, p', hsub i p' hp', ?_, ?_⟩
        · rwa [hrecs] at hcb
        · rwa [hrecs, hoff] at hdue
    · exact .inl ⟨s₁, .step hin.not_client hst (.refl s₁), hidle, hlog⟩
    · exact .inr ⟨⟨s₁, _, o, p, cb2, .step hin.not_client hst (.refl s₁), hf, hlog⟩, _, p, hp, hcb, hdue⟩

/-- An update stops at the first callback it calls, or at its end. -/
theorem Walks.unique {s₁ s₂ : Async} (h₁ : Walks s s₁) (h₂ : Walks s s₂) (hc₁ : s₁.wheel.frame.inClient = true)
    (hc₂ : s₂.wheel.frame.inClient = true) : s₁ = s₂ := by
  induction h₁ with
  | refl s =>
    cases h₂ with
    | refl => rfl
    | step hcl _ _ =>
      rw [hcl] at hc₁
      cases hc₁
  | step hcl hst _ ih =>
    cases h₂ with
    | refl =>
      rw [hcl] at hc₂
      cases hc₂
    | step hcl' hst' hw =>
      rw [hst] at hst'
      cases hst'
      exact ih hw hc₁

theorem FiresNothing.not_one (h : FiresNothing s) : ¬ FiresOne s := by
  rintro ⟨s₂, x, o, p, cb2, hw₂, hf, hlog₂⟩
  obtain ⟨s₁, hw₁, hidle, hlog₁⟩ := h
  have heq := hw₁.unique hw₂ (by rw [hidle]; rfl) (by rw [hf]; rfl)
  rw [heq, hf] at hidle
  cases hidle

theorem Walks.timed {s₂ : Async} (hw : Walks s s₂) (h : Timed s) : Timed s₂ := by
  induction hw with
  | refl s => exact h
  | step hcl hst _ ih => exact ih (timer_step_timed h hst)

theorem Walks.offset {s₂ : Async} (hw : Walks s s₂) : s₂.wheel.current_offset = s.wheel.current_offset := by
  induction hw with
  | refl s => rfl
  | step hcl hst _ ih => rw [ih, (timer_step_cases hst).2.1]

/-- An update that reaches no live timer, or one that is stored as a negative
offset, fires nothing. -/
theorem update_fires_nothing (h : Timed s) (hidle : s.wheel.frame = .idle) {tv : timeval} {r : Status} {c : Nat}
    (hst : NR_async_timer_update_time s tv = (r, s')) (hlog : s'.log = s.log ++ [.updating c])
    (hlate : ∀ v ∈ remaining s, (c : Int) - s.wheel.current_offset < v ∨
      2 ^ 31 ≤ (s.wheel.current_offset : Int) + v) : FiresNothing s' := by
  have hsound := update_time_sound h.sound hidle hst
  obtain ⟨hc, hle, rfl⟩ := update_started hst hlog
  rcases walk_runs hsound trivial with hno | ⟨-, i, p, hp, hcb, hdue⟩
  · exact hno
  · obtain ⟨D, hD⟩ := h.entry i p hp hcb
    have hlt := hD.lt h.small
    have hv := hlate _ ⟨_, D, p, hD.live, rfl⟩
    rw [isDue_iff hD.resource (offsetAt_le hc), Nat.mod_eq_of_lt hlt] at hdue
    omega

/-- An update that reaches a live timer fires one. -/
theorem update_fires_one (h : Timed s) (hidle : s.wheel.frame = .idle) {tv : timeval} {r : Status} {c : Nat}
    (hst : NR_async_timer_update_time s tv = (r, s')) (hlog : s'.log = s.log ++ [.updating c]) (hsmall : c < 2 ^ 31)
    {v : Int} (hv : v ∈ remaining s) (hreach : v ≤ (c : Int) - s.wheel.current_offset) : FiresOne s' := by
  have hsmall' : s'.wheel.current_offset < 2 ^ 31 := by
    obtain ⟨-, -, rfl⟩ := update_started hst hlog
    exact hsmall
  have htimed := update_time_timed h hidle hsmall' hst
  obtain ⟨-, hle, rfl⟩ := update_started hst hlog
  rcases walk_runs htimed.sound trivial with ⟨s₂, hw, hidle₂, hlog₂⟩ | ⟨hone, -⟩
  · -- the timer would still be live, and due later
    obtain ⟨x, D, p, ⟨hset, hcb, -, hnf, hnc⟩, rfl⟩ := hv
    have hset₂ : Ev.timerSet x D p ∈ s₂.log := by simp [hlog₂, hset]
    have hlive : LiveTimer s₂ x D p := ⟨hset₂, hcb, ⟨D, hset₂⟩, by simp [hlog₂, hnf], by simp [hlog₂, hnc]⟩
    have htimed₂ := hw.timed htimed
    obtain ⟨i, hi, -, hD⟩ := hlive.entry htimed₂
    have hpos := hD.pos htimed₂ hidle₂ hi
    have hoff : s₂.wheel.current_offset = c := hw.offset
    omega
  · exact hone

/-- Every offset can be computed. -/
theorem offset_reached (first_time : timeval) {c : Nat} (hc : c ≤ MAX_OFFSET) :
    ∃ tv, offsetAt first_time tv = .ok c := by
  have hdiff := r_timeval_diff_add first_time (Int.natCast_nonneg (c / 1000)) (Int.natCast_nonneg (c % 1000 * 1000))
  exact ⟨_, offsetAt_ms hc hdiff⟩

/-- With a first time the update starts at any later offset. -/
theorem update_starts (hfirst : s.wheel.first_time.tv_sec ≠ 0) {c : Nat} (hle : s.wheel.current_offset ≤ c)
    (hc : c ≤ MAX_OFFSET) :
    ∃ tv s', NR_async_timer_update_time s tv = (.ok, s') ∧ s'.log = s.log ++ [.updating c] := by
  obtain ⟨tv, htv⟩ := offset_reached s.wheel.first_time hc
  have hst : NR_async_timer_update_time s tv = (.ok, { s with
      wheel := { s.wheel with current_offset := c, frame := .slot (s.wheel.current_offset + 1) }
      log := s.log ++ [.updating c] }) := by
    unfold NR_async_timer_update_time
    rw [if_neg hfirst, htv]
    dsimp only
    rw [if_neg (Nat.not_lt.2 hle)]
  exact ⟨tv, _, hst, rfl⟩

/-- In every state outside an update the next timeout is exact if and only if
the earliest live timer is not due `INT_MAX` ms ahead; if updates may reach
`2 ^ 31`, if and only if it is also due below that. -/
theorem next_timeout_exact_iff {evs : List (Op × Status)} (h : MeasuredReaches evs s) (hidle : s.wheel.frame = .idle) :
    (NextTimeoutExact (· < 2 ^ 31) s ↔ ∀ v, IsLeast (remaining s) v → v ≠ INT_MAX) ∧
      (NextTimeoutExact (fun _ => True) s ↔
        ∀ v, IsLeast (remaining s) v → v ≠ INT_MAX ∧ (s.wheel.current_offset : Int) + v < 2 ^ 31) := by
  have ht := h.timed
  obtain ⟨hnone, hsome, hnext⟩ := next_timeout_eq ht hidle
  have hmax : ∀ range, NextTimeoutExact range s → ∀ v, IsLeast (remaining s) v → v ≠ INT_MAX := by
    rintro range hexact v hv rfl
    have hok := (hexact.2 _ hv).2.1
    rw [hnext _ hv, if_pos rfl] at hok
    cases hok
  have hexact : ∀ range : Nat → Prop, (∀ v, IsLeast (remaining s) v → v ≠ INT_MAX) →
      (∀ v (c : Nat), IsLeast (remaining s) v → range c → (c : Int) - s.wheel.current_offset = v → c < 2 ^ 31) →
      NextTimeoutExact range s := by
    intro range hne hin
    refine ⟨⟨fun herr => ?_, hnone⟩, fun v hv => ⟨(remaining_bounds ht hidle hv.1).1, ?_, ?_⟩⟩
    · by_contra hrem
      obtain ⟨v, hv⟩ := hsome hrem
      rw [hnext v hv, if_neg (hne v hv)] at herr
      cases herr
    · rw [hnext v hv, if_neg (hne v hv)]
    · intro tv s' c hst hlog hc
      refine ⟨fun hlt => update_fires_nothing ht hidle hst hlog fun u hu => .inl ?_, fun heq => ?_⟩
      · have := hv.2 hu
        omega
      · exact update_fires_one ht hidle hst hlog (hin v c hv hc heq) hv.1 (le_of_eq heq.symm)
  refine ⟨⟨hmax _, fun hne => hexact _ hne fun v c _ hc _ => hc⟩, ⟨fun hex v hv => ⟨hmax _ hex v hv, ?_⟩, fun hne => ?_⟩⟩
  · by_contra hge
    obtain ⟨hpos, hle⟩ := remaining_bounds ht hidle hv.1
    have hsmall := ht.small
    have hlast : MAX_OFFSET = 18446744073709551 := by decide
    unfold INT_MAX at hle
    obtain ⟨c, hc⟩ : ∃ c : Nat, (c : Int) = s.wheel.current_offset + v := ⟨(s.wheel.current_offset + v).toNat, by omega⟩
    obtain ⟨tv, s', hst, hlog⟩ := update_starts (c := c) (ht.started (by omega)) (by omega) (by omega)
    have hone := ((hex.2 v hv).2.2 tv s' c hst hlog trivial).2 (by omega)
    refine (update_fires_nothing ht hidle hst hlog fun u hu => .inr ?_).not_one hone
    have := hv.2 hu
    omega
  · refine hexact _ (fun v hv => (hne v hv).1) fun v c hv _ heq => ?_
    have := (hne v hv).2
    omega

end

/-- A timer with the largest delay is set. -/
def longest : List Op := [.timer_set 2147483647 7 0]

/-- The wheel holds a live timer and none is found. -/
theorem next_timeout_not_found : ∃ evs s, MeasuredReaches evs s ∧ s.wheel.frame = .idle ∧
    ¬ NextTimeoutExact (· < 2 ^ 31) s := by
  have hsome : (exec step Measured initial longest).isSome = true := by decide +kernel
  obtain ⟨evs, h⟩ := Run.final hsome
  refine ⟨evs, _, h, by decide +kernel, fun hexact => ?_⟩
  have herr : NR_async_timer_next_timeout (final step Measured initial longest) = .error .R_NOT_FOUND := by
    decide +kernel
  have hempty := hexact.1.1 herr
  have hlive : ((2147483647 : Nat) : Int) - (final step Measured initial longest).wheel.current_offset ∈
      remaining (final step Measured initial longest) := by
    refine ⟨⟨0, 7, 0⟩, 2147483647, 0, ⟨?_, by decide, ⟨2147483647, ?_⟩, ?_, ?_⟩, rfl⟩
    all_goals decide +kernel
  rw [hempty] at hlive
  cases hlive

/-- Two timers, and an update that reaches neither. -/
def fewTimers : List Op := [.update_time ⟨1, 0⟩, .timer_set 9 7 0, .timer_set 5 8 0, .update_time ⟨1, 3000⟩] ++
  List.replicate 7 .timer

theorem next_timeout_exact_few : ∃ evs s, MeasuredReaches evs s ∧ s.wheel.frame = .idle ∧
    NR_async_timer_next_timeout s = .ok 2 ∧ NextTimeoutExact (fun _ => True) s := by
  have hsome : (exec step Measured initial fewTimers).isSome = true := by decide +kernel
  obtain ⟨evs, h⟩ := Run.final hsome
  have hidle : (final step Measured initial fewTimers).wheel.frame = .idle := by decide +kernel
  have hnow : (final step Measured initial fewTimers).wheel.current_offset = 3 := by decide +kernel
  refine ⟨evs, _, h, hidle, by decide +kernel, (next_timeout_exact_iff h hidle).2.2 fun v hv => ?_⟩
  have hlive : ((5 : Nat) : Int) - (final step Measured initial fewTimers).wheel.current_offset ∈
      remaining (final step Measured initial fewTimers) := by
    refine ⟨⟨1, 8, 0⟩, 5, 1, ⟨?_, by decide, ⟨5, ?_⟩, ?_, ?_⟩, rfl⟩
    all_goals decide +kernel
  have hle := hv.2 hlive
  rw [hnow] at hle ⊢
  unfold INT_MAX
  omega

end Nrappkit.Event
