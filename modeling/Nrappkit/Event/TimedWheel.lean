import Nrappkit.Event.TimerTheorems
/-!
# The wheel with large delays

Delays go up to `INT_MAX`, so a due offset may lie beyond the largest `int` and
be stored as a negative one. `Timed` is what holds of the wheel all the same,
as long as the current offset itself fits: every record that still has its
callback is that of a live timer, in the slot of the offset it was set for, and
no timer that is due is left behind.
-/
open Lib

namespace Nrappkit.Event

/-- A timer that was set for the offset `D`, and has neither fired nor been
cancelled. -/
def LiveTimer (s : Async) (x : Use) (D : Nat) (h : Ptr) : Prop := .timerSet x D h ∈ s.log ∧ Pending s.log x h

/-! ## The invariant -/

/-- The offset below `2 ^ 32` that is stored as an `int`. -/
def storedOffset (c : callback) : Nat := (c.resource % 2 ^ 32).toNat

/-- A record whose callback is still to be called is due later. -/
def Ahead (current_offset : Nat) (c : callback) : Prop := c.cb ≠ 0 → current_offset < storedOffset c

/-- It is due later, or at an offset from `o` on. -/
def Coming (current_offset o : Nat) (c : callback) : Prop :=
  c.cb ≠ 0 → current_offset < storedOffset c ∨ o ≤ storedOffset c

/-- The other slots have only records that are due later or will be visited. -/
def Others (w : Wheel) (recs : Ptr → callback) (o : Nat) : Prop :=
  o ≤ w.current_offset ∧ ∀ i ≠ o % WHEEL_SIZE, ∀ p ∈ w.callwheel i, Coming w.current_offset o (recs p)

/-- No record that is due is left behind. -/
def Visited (w : Wheel) (recs : Ptr → callback) : Prop :=
  match w.frame with
  | .idle => ∀ i, ∀ p ∈ w.callwheel i, Ahead w.current_offset (recs p)
  | .slot o => ∀ i, ∀ p ∈ w.callwheel i, Coming w.current_offset o (recs p)
  | .walk o cb | .call o _ cb => Others w recs o ∧
    Rest (w.callwheel (o % WHEEL_SIZE)) (fun q => Ahead w.current_offset (recs q)) cb
  | .purge o _ => Others w recs o ∧ ∀ p ∈ w.callwheel (o % WHEEL_SIZE), Ahead w.current_offset (recs p)

/-- A record of the wheel is that of a timer which was set for `D` and is
pending. -/
structure Entry (s : Async) (i : Nat) (p : Ptr) (D : Nat) : Prop where
  live : LiveTimer s (s.pool.recs p).use D p
  resource : (s.pool.recs p).resource = toInt D
  slot : i = D % WHEEL_SIZE
  near : (D : Int) - s.wheel.current_offset ≤ INT_MAX

structure Timed (s : Async) : Prop where
  sound : Sound s
  small : s.wheel.current_offset < 2 ^ 31
  started : s.wheel.current_offset ≠ 0 → s.wheel.first_time.tv_sec ≠ 0
  visited : Visited s.wheel s.pool.recs
  entry : ∀ i, ∀ p ∈ s.wheel.callwheel i, (s.pool.recs p).cb ≠ 0 → ∃ D, Entry s i p D
  unique : ∀ x D h D' h', .timerSet x D h ∈ s.log → .timerSet x D' h' ∈ s.log → D = D' ∧ h = h'
  serial : ∀ x D h, .timerSet x D h ∈ s.log → x.serial < s.pool.serial
  known : ∀ x, .timerFired x ∈ s.log ∨ .timerCancelled x ∈ s.log → x.serial < s.pool.serial

theorem Ahead.null {n : Nat} {c : callback} (h : c.cb = 0) : Ahead n c := fun hcb => absurd h hcb

theorem Ahead.coming {n o : Nat} {c : callback} (h : Ahead n c) : Coming n o c := fun hcb => .inl (h hcb)

/-- A record that is visited at the offset it is due at. -/
theorem Coming.next {n o : Nat} {c : callback} (h : Coming n o c) (hne : c.cb ≠ 0 → storedOffset c ≠ o) :
    Coming n (o + 1) c := fun hcb => (h hcb).imp_right fun hle => Nat.lt_of_le_of_ne hle (Ne.symm (hne hcb))

theorem storedOffset_eq {c : callback} {D : Nat} (hr : c.resource = toInt D) (hD : D < 2 ^ 32) : storedOffset c = D := by
  have hmod : toInt D % 2 ^ 32 = D := by
    rw [toInt_eq, Nat.mod_eq_of_lt hD]
    split <;> omega
  rw [storedOffset, hr, hmod, Int.toNat_natCast]

section
variable {s s' : Async}

theorem Entry.lt {i : Nat} {p : Ptr} {D : Nat} (h : Entry s i p D) (hs : s.wheel.current_offset < 2 ^ 31) :
    D < 2 ^ 32 := by
  have := h.near
  unfold INT_MAX at this
  omega

theorem Entry.offset {i : Nat} {p : Ptr} {D : Nat} (h : Entry s i p D) (hs : s.wheel.current_offset < 2 ^ 31) :
    storedOffset (s.pool.recs p) = D := storedOffset_eq h.resource (h.lt hs)

/-- The test of the walk, at an offset that fits an `int`. -/
theorem Entry.isDue {i : Nat} {p : Ptr} {D : Nat} (h : Entry s i p D) (hs : s.wheel.current_offset < 2 ^ 31) :
    isDue (s.pool.recs p) s.wheel.current_offset = true ↔ D ≤ s.wheel.current_offset := by
  have hmax : MAX_OFFSET = 18446744073709551 := by decide
  rw [isDue_iff h.resource (by omega), Nat.mod_eq_of_lt (h.lt hs)]
  omega

end

/-! ### Walks over a slot -/

section
variable {slot : List Ptr} {done done' : Ptr → Prop} {cb : Option Ptr} {p : Ptr}

theorem Rest.mono (h : Rest slot done cb) (hd : ∀ q ∈ slot, done q → done' q) : Rest slot done' cb := by
  cases cb with
  | none => exact fun q hq => hd q hq (h q hq)
  | some p =>
    obtain ⟨pre, post, rfl, hpre⟩ := h
    exact ⟨pre, post, rfl, fun q hq => hd q (by simp [hq]) (hpre q hq)⟩

theorem Rest.add (h : Rest slot done cb) (hp : done p) : Rest (slot ++ [p]) done cb := by
  cases cb with
  | none =>
    intro q hq
    rcases List.mem_append.1 hq with hq | hq
    · exact h q hq
    · rwa [List.mem_singleton.1 hq]
  | some c =>
    obtain ⟨pre, post, rfl, hpre⟩ := h
    exact ⟨pre, post ++ [p], by simp, hpre⟩

/-- A record the walk is not at leaves the slot. -/
theorem Rest.erase (h : Rest slot done cb) (hp : cb ≠ some p) : Rest (slot.erase p) done cb := by
  cases cb with
  | none => exact fun q hq => h q (List.mem_of_mem_erase hq)
  | some c =>
    obtain ⟨pre, post, rfl, hpre⟩ := h
    have hcp : c ≠ p := fun heq => hp (by rw [heq])
    rw [List.erase_append]
    split
    · exact ⟨pre.erase p, post, rfl, fun q hq => hpre q (List.mem_of_mem_erase hq)⟩
    · rw [List.erase_cons_tail (by simpa using hcp)]
      exact ⟨pre, post.erase p, rfl, hpre⟩

end

/-! ### What a step leaves behind -/

section
variable {w w' : Wheel} {recs recs' : Ptr → callback} {o : Nat} {p : Ptr}

/-- The records of the wheel stay as they are, or lose their callbacks. -/
theorem Visited.mono (h : Visited w recs) (hcw : w'.callwheel = w.callwheel)
    (hoff : w'.current_offset = w.current_offset) (hf : w'.frame = w.frame)
    (hr : ∀ i, ∀ p ∈ w.callwheel i, (recs' p).cb ≠ 0 → recs' p = recs p) : Visited w' recs' := by
  have hahead : ∀ i, ∀ q ∈ w.callwheel i, Ahead w.current_offset (recs q) → Ahead w.current_offset (recs' q) := by
    intro i q hq ha hcb
    have hsame := hr i q hq hcb
    rw [hsame] at hcb ⊢
    exact ha hcb
  have hcoming : ∀ o i, ∀ q ∈ w.callwheel i, Coming w.current_offset o (recs q) →
      Coming w.current_offset o (recs' q) := by
    intro o i q hq hc hcb
    have hsame := hr i q hq hcb
    rw [hsame] at hcb ⊢
    exact hc hcb
  have hothers : ∀ o, Others w recs o → Others w' recs' o := by
    rintro o ⟨hle, ho⟩
    rw [Others, hcw, hoff]
    exact ⟨hle, fun i hi q hq => hcoming o i q hq (ho i hi q hq)⟩
  unfold Visited at *
  rw [hf, hcw, hoff]
  cases hw : w.frame with
  | idle =>
    rw [hw] at h
    exact fun i q hq => hahead i q hq (h i q hq)
  | slot o =>
    rw [hw] at h
    exact fun i q hq => hcoming o i q hq (h i q hq)
  | walk o cb =>
    rw [hw] at h
    exact ⟨hothers o h.1, h.2.mono (hahead _)⟩
  | call o p cb2 =>
    rw [hw] at h
    exact ⟨hothers o h.1, h.2.mono (hahead _)⟩
  | purge o cb =>
    rw [hw] at h
    exact ⟨hothers o h.1, fun q hq => hahead _ q hq (h.2 q hq)⟩

/-- A timer is set while client code runs. -/
theorem Visited.add (h : Visited w recs) (hc : w.frame.inClient = true) (hp : Ahead w.current_offset (recs p))
    {i : Nat} {m : Int} :
    Visited { w with callwheel := Function.update w.callwheel i (w.callwheel i ++ [p]), timers_set := m } recs := by
  unfold Visited at *
  dsimp only
  rcases TimerFrame.client_cases hc with hw | ⟨o, r, cb2, hw⟩
  · rw [hw] at h ⊢
    intro k q hq
    rcases mem_added.1 hq with hq | ⟨-, rfl⟩
    · exact h k q hq
    · exact hp
  · rw [hw] at h ⊢
    obtain ⟨⟨hle, ho⟩, hrest⟩ := h
    refine ⟨⟨hle, fun k hk q hq => ?_⟩, ?_⟩
    · rcases mem_added.1 hq with hq | ⟨-, rfl⟩
      · exact ho k hk q hq
      · exact hp.coming
    · by_cases hi : o % WHEEL_SIZE = i
      · rw [hi] at hrest ⊢
        rw [Function.update_self]
        exact hrest.add hp
      · rw [Function.update_of_ne hi]
        exact hrest

/-- A record leaves another slot than the one being walked. -/
theorem Visited.drop (h : Visited w recs) (hc : w.frame.inClient = true) {i : Nat} {m : Int}
    (hi : ∀ o r cb2, w.frame = .call o r cb2 → o % WHEEL_SIZE ≠ i) :
    Visited { w with callwheel := Function.update w.callwheel i ((w.callwheel i).erase p), timers_set := m } recs := by
  have hsub : ∀ k, ∀ q ∈ Function.update w.callwheel i ((w.callwheel i).erase p) k, q ∈ w.callwheel k := by
    intro k q hq
    by_cases hk : k = i
    · subst hk
      rw [Function.update_self] at hq
      exact List.mem_of_mem_erase hq
    · rwa [Function.update_of_ne hk] at hq
  unfold Visited at *
  dsimp only
  rcases TimerFrame.client_cases hc with hw | ⟨o, r, cb2, hw⟩
  · rw [hw] at h ⊢
    exact fun k q hq => h k q (hsub k q hq)
  · rw [hw] at h ⊢
    refine ⟨⟨h.1.1, fun k hk q hq => h.1.2 k hk q (hsub k q hq)⟩, ?_⟩
    rw [Function.update_of_ne (hi o r cb2 hw)]
    exact h.2

end

/-! ## Every step keeps the invariant -/

section
variable {s s' : Async}

/-- A step that sets no timer keeps the invariant, if the records that keep
their callbacks stay where they are, and those of the timers it resolves do
not. -/
theorem Timed.next (h : Timed s) (hsound : Sound s') (hsmall : s'.wheel.current_offset < 2 ^ 31)
    (hstarted : s'.wheel.current_offset ≠ 0 → s'.wheel.first_time.tv_sec ≠ 0)
    (hvisited : Visited s'.wheel s'.pool.recs) (hoff : s.wheel.current_offset ≤ s'.wheel.current_offset)
    (hmem : ∀ i, ∀ p ∈ s'.wheel.callwheel i, (s'.pool.recs p).cb ≠ 0 →
      p ∈ s.wheel.callwheel i ∧ s'.pool.recs p = s.pool.recs p)
    (hserial : s.pool.serial ≤ s'.pool.serial) {l : List Ev} (hlog : s'.log = s.log ++ l)
    (hset : ∀ x D h, .timerSet x D h ∉ l)
    (hres : ∀ x, .timerFired x ∈ l ∨ .timerCancelled x ∈ l → ∃ i, ∃ p ∈ s.wheel.callwheel i,
      x = (s.pool.recs p).use ∧ (s.pool.recs p).cb ≠ 0 ∧ ∀ k, p ∈ s'.wheel.callwheel k → (s'.pool.recs p).cb = 0) :
    Timed s' := by
  have hold : ∀ x D q, .timerSet x D q ∈ s'.log → .timerSet x D q ∈ s.log := by
    intro x D q hq
    rw [hlog, List.mem_append] at hq
    exact hq.resolve_right (hset x D q)
  have hresolved : ∀ x, .timerFired x ∈ s'.log ∨ .timerCancelled x ∈ s'.log →
      (.timerFired x ∈ s.log ∨ .timerCancelled x ∈ s.log) ∨ .timerFired x ∈ l ∨ .timerCancelled x ∈ l := by
    intro x hx
    rw [hlog, List.mem_append, List.mem_append] at hx
    tauto
  refine ⟨hsound, hsmall, hstarted, hvisited, fun i p hp hcb => ?_,
    fun x D q D' q' hq hq' => h.unique x D q D' q' (hold _ _ _ hq) (hold _ _ _ hq'),
    fun x D q hq => Nat.lt_of_lt_of_le (h.serial x D q (hold _ _ _ hq)) hserial, fun x hx => ?_⟩
  · obtain ⟨hp₀, hrec⟩ := hmem i p hp hcb
    obtain ⟨D, ⟨hset₀, hpend⟩, hres₀, hslot, hnear⟩ := h.entry i p hp₀ (hrec ▸ hcb)
    have hnot : ¬ (.timerFired (s.pool.recs p).use ∈ s'.log ∨ .timerCancelled (s.pool.recs p).use ∈ s'.log) := by
      intro hx
      rcases hresolved _ hx with hx | hx
      · exact hx.elim hpend.2.2.1 hpend.2.2.2
      · -- the timer that was resolved would be this one
        obtain ⟨k, q, hq, heq, hqcb, hgone⟩ := hres _ hx
        obtain ⟨D', ⟨hset', -⟩, -⟩ := h.entry k q hq hqcb
        rw [← heq] at hset'
        obtain ⟨-, rfl⟩ := h.unique _ _ _ _ _ hset₀ hset'
        exact hcb (hgone i hp)
    have hin : Ev.timerSet (s.pool.recs p).use D p ∈ s'.log := by
      rw [hlog]
      exact List.mem_append_left l hset₀
    refine ⟨D, ⟨?_, ?_⟩, by rw [hrec]; exact hres₀, hslot, by omega⟩
    · rw [hrec]
      exact hin
    · rw [hrec]
      exact ⟨hpend.1, ⟨D, hin⟩, fun hx => hnot (.inl hx), fun hx => hnot (.inr hx)⟩
  · rcases hresolved x hx with hx | hx
    · exact Nat.lt_of_lt_of_le (h.known x hx) hserial
    · obtain ⟨k, q, hq, rfl, hqcb, -⟩ := hres x hx
      obtain ⟨D, ⟨hset₀, -⟩, -⟩ := h.entry k q hq hqcb
      exact Nat.lt_of_lt_of_le (h.serial _ _ _ hset₀) hserial

theorem other_timed (h : Timed s) {op : Op} {r : Status} (hok : Permitted s op = true) (hop : op.isTimer = false)
    (hst : step s op = some (r, s')) : Timed s' := by
  obtain ⟨hw, hr⟩ := other_frame h.sound hop hst
  obtain ⟨hserial, hlog⟩ := other_log h.sound hop hst
  have hsound := step_sound h.sound hok hst
  have hmem : ∀ i, ∀ p ∈ s'.wheel.callwheel i, (s'.pool.recs p).cb ≠ 0 →
      p ∈ s.wheel.callwheel i ∧ s'.pool.recs p = s.pool.recs p := by
    intro i p hp _
    rw [hw] at hp
    exact ⟨hp, hr i p hp⟩
  have hvis : Visited s'.wheel s'.pool.recs := by
    rw [hw]
    exact h.visited.mono rfl rfl rfl fun i p hp _ => hr i p hp
  have hsmall := h.small
  have hstarted := h.started
  rw [← hw] at hsmall hstarted
  have hoff : s.wheel.current_offset ≤ s'.wheel.current_offset := by rw [hw]
  rcases hlog with hlog | ⟨e, he, hlog⟩
  · rw [← List.append_nil s.log] at hlog
    exact h.next hsound hsmall hstarted hvis hoff hmem hserial hlog (by simp) (by simp)
  · refine h.next hsound hsmall hstarted hvis hoff hmem hserial hlog ?_ ?_
    · intro x D q hq
      rw [List.mem_singleton] at hq
      rw [← hq] at he
      cases he
    · rintro x (hx | hx) <;> rw [List.mem_singleton] at hx <;> rw [← hx] at he <;> cases he

/-- A due offset below `2 ^ 32`. -/
theorem dueOffset_near {c : Nat} {delay : Int} (hc : c < 2 ^ 31) (hd : 0 ≤ delay) (hmax : delay ≤ INT_MAX) :
    (dueOffset c delay : Int) = c + max delay 1 := by
  unfold INT_MAX at hmax
  unfold dueOffset toUINT8
  split <;> omega

theorem timer_set_timed (h : Timed s) {delay_ms : Int} {cb cb_arg : UInt64} {r : Status} (hcl : s.inClient = true)
    (hd : 0 ≤ delay_ms) (hmax : delay_ms ≤ INT_MAX) (hst : NR_async_timer_set s delay_ms cb cb_arg = some (r, s')) :
    Timed s' := by
  have hsound := timer_set_sound h.sound hcl hst
  have hsmall := h.small
  have hduei := dueOffset_near hsmall hd hmax
  obtain ⟨due, p, pool', hdue, hc, rfl⟩ := timer_set_cases hst
  rw [← hdue] at hduei
  have hnear : (due : Int) - s.wheel.current_offset ≤ INT_MAX := by
    unfold INT_MAX at *
    omega
  have hlt : due < 2 ^ 32 := by
    unfold INT_MAX at hnear
    omega
  obtain ⟨c, hrecs, -, hres, -, huse, hx⟩ := timer_record hc (due % WHEEL_SIZE)
  have hself : Function.update s.pool.recs p c p = c := Function.update_self ..
  have hkeep : ∀ k, ∀ q ∈ s.wheel.callwheel k, Function.update s.pool.recs p c q = s.pool.recs q := fun _ _ hq =>
    Function.update_of_ne (h.sound.owned.ne_created hc hq) _ _
  -- the serial is new
  have hfresh : ∀ x, .timerFired x ∈ s.log ∨ .timerCancelled x ∈ s.log → x ≠ c.use := by
    rintro x hx' rfl
    exact absurd (h.known _ hx') (by omega)
  have hold : ∀ x D q, .timerSet x D q ∈ s.log → x ≠ c.use := by
    rintro x D q hq rfl
    exact absurd (h.serial _ _ _ hq) (by omega)
  refine ⟨hsound, hsmall, h.started, ?_, fun i q hq hcb => ?_, fun x D q D' q' hq hq' => ?_, fun x D q hq => ?_,
    fun x hx => ?_⟩
  all_goals dsimp only at *
  · rw [hrecs]
    have hvis : Visited s.wheel (Function.update s.pool.recs p c) := h.visited.mono rfl rfl rfl fun i q hq _ => hkeep i q hq
    refine hvis.add (Bool.and_eq_true_iff.1 hcl).2 fun _ => ?_
    rw [hself, storedOffset_eq hres hlt]
    omega
  · rw [hrecs] at hcb
    rcases mem_added.1 hq with hq | ⟨rfl, rfl⟩
    · rw [hkeep i q hq] at hcb
      obtain ⟨D, ⟨hset, hpend⟩, hr, hslot, hn⟩ := h.entry i q hq hcb
      refine ⟨D, ⟨?_, ?_⟩, ?_, hslot, hn⟩
      all_goals dsimp only
      all_goals rw [hrecs, hkeep i q hq]
      · exact List.mem_append_left _ hset
      · refine ⟨hcb, ⟨D, List.mem_append_left _ hset⟩, ?_, ?_⟩
        · simpa using hpend.2.2.1
        · simpa using hpend.2.2.2
      · exact hr
    · rw [hself] at hcb
      have hin : Ev.timerSet c.use due q ∈ s.log ++ [.timerSet c.use due q] := by simp
      refine ⟨due, ⟨?_, ?_⟩, ?_, rfl, hnear⟩
      all_goals dsimp only
      all_goals rw [hrecs, hself]
      · rw [huse]
        exact hin
      · rw [huse]
        refine ⟨hcb, ⟨due, hin⟩, fun hf => ?_, fun hf => ?_⟩
        · exact hfresh _ (.inl (by simpa using hf)) rfl
        · exact hfresh _ (.inr (by simpa using hf)) rfl
      · exact hres
  · rw [huse] at hq hq'
    simp only [List.mem_append, List.mem_singleton, Ev.timerSet.injEq] at hq hq'
    rcases hq with hq | ⟨rfl, rfl, rfl⟩
    · rcases hq' with hq' | ⟨rfl, -, -⟩
      · exact h.unique _ _ _ _ _ hq hq'
      · exact absurd rfl (hold _ _ _ hq)
    · rcases hq' with hq' | ⟨-, rfl, rfl⟩
      · exact absurd rfl (hold _ _ _ hq')
      · exact ⟨rfl, rfl⟩
  · show x.serial < pool'.serial
    rw [hc.serial]
    rw [huse] at hq
    simp only [List.mem_append, List.mem_singleton, Ev.timerSet.injEq] at hq
    rcases hq with hq | ⟨rfl, -, -⟩
    · exact Nat.lt_succ_of_lt (h.serial _ _ _ hq)
    · omega
  · show x.serial < pool'.serial
    rw [hc.serial]
    exact Nat.lt_succ_of_lt (h.known x (by simpa using hx))

/-- A record that is marked has no callback; the others are as they were. -/
theorem write_null (pool : Pool) (p : Ptr) :
    ((pool.write p fun c => { c with cb := 0 }).recs p).cb = 0 ∧
      ∀ q, ((pool.write p fun c => { c with cb := 0 }).recs q).cb ≠ 0 →
        (pool.write p fun c => { c with cb := 0 }).recs q = pool.recs q := by
  have hself : (pool.write p fun c => { c with cb := 0 }).recs p = { pool.recs p with cb := 0 } :=
    Function.update_self ..
  refine ⟨by rw [hself], fun q hq => ?_⟩
  by_cases hqp : q = p
  · subst hqp
    rw [hself] at hq
    exact absurd rfl hq
  · exact Function.update_of_ne hqp ..

theorem timer_cancel_timed (h : Timed s) {p : Ptr} {r : Status} (hcl : s.inClient = true)
    (hp : s.liveHandle p = true ∨ s.runningHandle p = true)
    (hst : NR_async_timer_cancel s p = some (r, s')) : Timed s' := by
  have hsound := timer_cancel_sound h.sound hcl hp hst
  have hcl' : s.wheel.frame.inClient = true := (Bool.and_eq_true_iff.1 hcl).2
  rcases timer_cancel_cases h.sound hp hst with rfl | ⟨i, hcb, hmem, ⟨-, rfl⟩ | ⟨hwork, rfl⟩⟩
  · exact h
  · have hnull := write_null s.pool p
    refine h.next hsound h.small h.started (h.visited.mono rfl rfl rfl fun i q _ hq => hnull.2 q hq) (Nat.le_refl _)
      (fun k q hq hq0 => ⟨hq, hnull.2 q hq0⟩) (Nat.le_refl _) rfl (by simp) ?_
    rintro x (hx | hx) <;> rw [List.mem_singleton] at hx <;> cases hx
    exact ⟨i, p, hmem, rfl, hcb, fun k _ => hnull.1⟩
  · have hn := h.sound.owned.wheel i
    have hwalk := h.sound.walk
    refine h.next hsound h.small h.started (h.visited.drop hcl' fun o q cb2 hf => ?_) (Nat.le_refl _)
      (fun k q hq hq0 => ⟨((mem_removed hn).1 hq).1, rfl⟩) (Nat.le_refl _) rfl (by simp) ?_
    · unfold WalkOk at hwalk
      rw [hf] at hwalk
      rintro rfl
      exact hwork hwalk.1
    · rintro x (hx | hx) <;> rw [List.mem_singleton] at hx <;> cases hx
      refine ⟨i, p, hmem, rfl, hcb, fun k hk => ?_⟩
      obtain ⟨hold, hne⟩ := (mem_removed hn).1 hk
      exact absurd ⟨h.sound.owned.one_slot hmem hold, rfl⟩ hne

/-- The offset only moves once there is a first time. -/
theorem update_time_started {tv : timeval} {r : Status}
    (h : s.wheel.current_offset ≠ 0 → s.wheel.first_time.tv_sec ≠ 0)
    (hst : NR_async_timer_update_time s tv = (r, s')) : s'.wheel.current_offset ≠ 0 → s'.wheel.first_time.tv_sec ≠ 0 := by
  unfold NR_async_timer_update_time at hst
  split at hst
  · rename_i hfirst
    cases hst
    exact fun hne => absurd hfirst (h hne)
  rename_i hfirst
  split at hst
  · cases hst
    exact h
  split at hst
  · cases hst
    exact h
  · cases hst
    exact fun _ => hfirst

theorem update_time_timed (h : Timed s) {tv : timeval} {r : Status} (hidle : s.wheel.frame = .idle)
    (hsmall : s'.wheel.current_offset < 2 ^ 31) (hst : NR_async_timer_update_time s tv = (r, s')) : Timed s' := by
  have hsound := update_time_sound h.sound hidle hst
  have hvis := h.visited
  unfold Visited at hvis
  rw [hidle] at hvis
  have hfirst := update_time_started h.started hst
  rcases update_time_cases hst with rfl | rfl | ⟨c, -, ⟨hlt, rfl⟩ | ⟨hle, rfl⟩⟩
  · exact h.next hsound h.small hfirst (h.visited.mono rfl rfl rfl fun _ _ _ _ => rfl) (Nat.le_refl _)
      (fun i p hp _ => ⟨hp, rfl⟩) (Nat.le_refl _) (List.append_nil _).symm (by simp) (by simp)
  · exact h
  · exact h.next hsound h.small h.started h.visited (Nat.le_refl _) (fun i p hp _ => ⟨hp, rfl⟩) (Nat.le_refl _) rfl
      (by simp) (by simp)
  · exact h.next hsound hsmall hfirst (fun i p hp hcb => .inr (hvis i p hp hcb)) hle (fun i p hp _ => ⟨hp, rfl⟩)
      (Nat.le_refl _) rfl (by simp) (by simp)

/-- A step of the update that moves no record. -/
theorem Timed.reframe (h : Timed s) {l : List Ev} (hsound : Sound s') (hpool : s'.pool = s.pool)
    (hcw : s'.wheel.callwheel = s.wheel.callwheel) (hoff : s'.wheel.current_offset = s.wheel.current_offset)
    (hfirst : s'.wheel.first_time = s.wheel.first_time) (hlog : s'.log = s.log ++ l) (hl : l = [] ∨ l = [.updated])
    (hvis : Visited s'.wheel s.pool.recs) : Timed s' := by
  have hsmall := h.small
  have hstarted := h.started
  rw [← hoff] at hsmall hstarted
  rw [← hfirst] at hstarted
  rw [← hpool] at hvis
  refine h.next hsound hsmall hstarted hvis (Nat.le_of_eq hoff.symm) (fun i p hp _ => ⟨?_, ?_⟩) ?_ hlog ?_ ?_
  · rwa [hcw] at hp
  · rw [hpool]
  · rw [hpool]
  · rcases hl with rfl | rfl <;> simp
  · rcases hl with rfl | rfl <;> simp

/-- A record without a callback leaves the slot being walked. -/
theorem Timed.purged (h : Timed s) {o : Nat} {p : Ptr} {f : TimerFrame}
    (hsound : Sound ((s.removeTimer (o % WHEEL_SIZE) p).atFrame f))
    (hvis : Visited ((s.removeTimer (o % WHEEL_SIZE) p).atFrame f).wheel s.pool.recs) :
    Timed ((s.removeTimer (o % WHEEL_SIZE) p).atFrame f) := by
  refine h.next hsound h.small h.started hvis (Nat.le_refl _) (fun i q hq _ => ⟨?_, rfl⟩) (Nat.le_refl _)
    (List.append_nil _).symm (by simp) (by simp)
  exact ((mem_removed (h.sound.owned.wheel _)).1 hq).1

theorem removed_slot {i : Nat} {p : Ptr} {f : TimerFrame} :
    ((s.removeTimer i p).atFrame f).wheel.callwheel i = (s.wheel.callwheel i).erase p := by
  show Function.update s.wheel.callwheel i _ i = _
  rw [Function.update_self]

/-- The walk takes a record out of its slot. -/
theorem Others.remove {o : Nat} (h : Others s.wheel s.pool.recs o) (p : Ptr) (f : TimerFrame) :
    Others ((s.removeTimer (o % WHEEL_SIZE) p).atFrame f).wheel s.pool.recs o := by
  refine ⟨h.1, fun k hk q hq => h.2 k hk q ?_⟩
  have hq : q ∈ Function.update s.wheel.callwheel (o % WHEEL_SIZE) _ k := hq
  rwa [Function.update_of_ne hk] at hq

/-- The walk leaves a slot in which no record is due. -/
theorem Others.leave (h : Timed s) {o : Nat} (ho : Others s.wheel s.pool.recs o)
    (hslot : ∀ p ∈ s.wheel.callwheel (o % WHEEL_SIZE), Ahead s.wheel.current_offset (s.pool.recs p)) :
    ∀ i, ∀ p ∈ s.wheel.callwheel i, Coming s.wheel.current_offset (o + 1) (s.pool.recs p) := by
  intro i p hp
  by_cases hi : i = o % WHEEL_SIZE
  · rw [hi] at hp
    exact (hslot p hp).coming
  · refine (ho.2 i hi p hp).next fun hcb heq => ?_
    obtain ⟨D, hD⟩ := h.entry i p hp hcb
    rw [hD.offset h.small] at heq
    rw [heq] at hD
    exact hi hD.slot

theorem timer_step_timed (h : Timed s) {r : Status} (hst : timer_step s = some (r, s')) : Timed s' := by
  have hsound := timer_step_sound h.sound hst
  have hvis := h.visited
  have hwalk := h.sound.walk
  have hn := h.sound.owned.wheel
  unfold Visited at hvis
  unfold WalkOk at hwalk
  have hnil : s.log = s.log ++ [] := (List.append_nil s.log).symm
  cases timer_step_inv hst with
  | enter hf hle =>
    rw [hf] at hvis
    exact h.reframe hsound rfl rfl rfl rfl hnil (.inl rfl) ⟨⟨hle, fun i _ p hp => hvis i p hp⟩, rest_head _ _⟩
  | finish hf hlt =>
    rw [hf] at hvis
    refine h.reframe hsound rfl rfl rfl rfl rfl (.inr rfl) fun i p hp hcb => ?_
    rcases hvis i p hp hcb with hdue | hdue
    · exact hdue
    · dsimp only
      omega
  | sweep hf hpend =>
    rw [hf] at hvis
    exact h.reframe hsound rfl rfl rfl rfl hnil (.inl rfl) hvis
  | leave hf hpend =>
    rw [hf] at hvis
    exact h.reframe hsound rfl rfl rfl rfl hnil (.inl rfl) (hvis.1.leave h hvis.2)
  | @fire o p hf hdue hcb =>
    have hp := h.sound.walk_mem hf
    have hnull := write_null s.pool p
    have hmark : Visited s.wheel (s.pool.write p fun c => { c with cb := 0 }).recs :=
      h.visited.mono rfl rfl rfl fun i q _ hq => hnull.2 q hq
    unfold Visited at hmark
    rw [hf] at hmark
    refine h.next hsound h.small h.started ⟨hmark.1, hmark.2.next (hn _) (Ahead.null hnull.1)⟩ (Nat.le_refl _)
      (fun k q hq hq0 => ⟨hq, hnull.2 q hq0⟩) (Nat.le_refl _) rfl (by simp) ?_
    rintro x (hx | hx) <;> rw [List.mem_singleton] at hx <;> cases hx
    exact ⟨_, p, hp, rfl, hcb, fun k _ => hnull.1⟩
  | @drop o p hf hcb =>
    rw [hf] at hvis
    have hnext := hvis.2.next (hn _) (Ahead.null hcb)
    refine h.purged hsound ⟨hvis.1.remove p _, ?_⟩
    rw [removed_slot]
    exact hnext.erase fun heq => ne_of_nextOf (hn _) heq rfl
  | @skip o p hf hdue =>
    rw [hf] at hvis
    refine h.reframe hsound rfl rfl rfl rfl hnil (.inl rfl) ⟨hvis.1, hvis.2.next (hn _) fun hcb => ?_⟩
    obtain ⟨D, hD⟩ := h.entry _ p (h.sound.walk_mem hf) hcb
    rw [hD.offset h.small]
    exact Nat.lt_of_not_le fun hle => hdue ((hD.isDue h.small).2 hle)
  | @resume o p cb2 hf =>
    rw [hf] at hvis hwalk
    refine h.purged hsound ⟨hvis.1.remove p _, ?_⟩
    rw [removed_slot]
    exact hvis.2.erase fun heq => (hwalk.2.2.2 p heq).2 rfl
  | swept hf =>
    rw [hf] at hvis
    exact h.reframe hsound rfl rfl rfl rfl hnil (.inl rfl) (hvis.1.leave h hvis.2)
  | @purge o p hf hcb =>
    rw [hf] at hvis
    refine h.purged hsound ⟨hvis.1.remove p _, fun q hq => hvis.2 q ?_⟩
    rw [removed_slot] at hq
    exact List.mem_of_mem_erase hq
  | keep hf hcb =>
    rw [hf] at hvis
    exact h.reframe hsound rfl rfl rfl rfl hnil (.inl rfl) hvis

end

/-! ## Every run -/

/-- Runs with delays from 0 to `INT_MAX`, handles of live timers and offsets
below `2 ^ 31`. -/
def Measured (s : Async) (op : Op) : Bool :=
  Permitted s op && match op with
    | .timer_set delay_ms _ _ => 0 ≤ delay_ms && delay_ms ≤ INT_MAX
    | .update_time tv => (NR_async_timer_update_time s tv).2.wheel.current_offset < 2 ^ 31
    | _ => true

section
variable {s s' : Async}

theorem step_timed (h : Timed s) {op : Op} {r : Status} (hok : Measured s op = true)
    (hst : step s op = some (r, s')) : Timed s' := by
  obtain ⟨hper, hin⟩ := Bool.and_eq_true_iff.1 hok
  cases op with
  | timer_set delay_ms cb cb_arg =>
    simp only [Bool.and_eq_true, decide_eq_true_eq] at hin
    exact timer_set_timed h hper hin.1 hin.2 hst
  | timer_cancel p =>
    simp only [Permitted, Bool.and_eq_true, Bool.or_eq_true] at hper
    exact timer_cancel_timed h hper.1 hper.2 hst
  | update_time tv =>
    simp only [Permitted, Bool.and_eq_true, decide_eq_true_eq] at hper hin
    have hst : NR_async_timer_update_time s tv = (r, s') := Option.some.inj hst
    rw [hst] at hin
    exact update_time_timed h hper.2 hin hst
  | timer => exact timer_step_timed h hst
  | wait sock how cb cb_arg => exact other_timed h hper rfl hst
  | cancel sock how => exact other_timed h hper rfl hst
  | schedule cb cb_arg => exact other_timed h hper rfl hst
  | event_wait2 tv sel => exact other_timed h hper rfl hst
  | loop => exact other_timed h hper rfl hst

theorem initial_timed : Timed initial := by
  refine ⟨initial_sound, by decide, by decide, fun i p hp => (by cases hp), fun i p hp => (by cases hp),
    fun x D q D' q' hq => (by cases hq), fun x D q hq => (by cases hq), ?_⟩
  rintro x (hx | hx)
  · cases hx
  · cases hx

abbrev MeasuredReaches (evs : List (Op × Status)) (s : Async) : Prop :=
  Run step (fun s op => Measured s op) initial evs s

theorem MeasuredReaches.timed {evs : List (Op × Status)} (h : MeasuredReaches evs s) : Timed s :=
  h.inv Timed initial_timed fun _ _ _ _ ht hok hst => step_timed ht hok hst

end

end Nrappkit.Event
