import Nrappkit.Event.Async
/-!
# The offset of a time

The wheel's notion of now is the number of milliseconds since its first time. A
later time gives a later one, or the same.
-/

namespace Nrappkit.Event

/-- Given the time `tv`, `NR_async_timer_update_time` computes the offset `c`. -/
def ComputesOffset (s : Async) (tv : timeval) (c : Nat) : Prop :=
  ∃ evs, (NR_async_timer_update_time s tv).2.log = s.log ++ .updating c :: evs

theorem computesOffset_iff {s : Async} {tv : timeval} {c : Nat} :
    ComputesOffset s tv c ↔ s.wheel.first_time.tv_sec ≠ 0 ∧ offsetAt s.wheel.first_time tv = .ok c := by
  unfold ComputesOffset NR_async_timer_update_time
  split
  · rename_i hfirst
    refine iff_of_false ?_ fun h => h.1 hfirst
    simp
  · rename_i hfirst
    rw [and_iff_right hfirst]
    split
    · rename_i r hr
      rw [hr]
      simp
    · rename_i c' hc'
      rw [hc']
      split
      · simp [eq_comm]
      · simp [eq_comm]

theorem offsetAt_eq {t0 t1 : timeval} (h1 : t1.normalized = true) (h0 : t0.normalized = true)
    (hle : t0.micros ≤ t1.micros) (hfits : t1.micros - t0.micros < 18446744073709551616) :
    offsetAt t0 t1 = .ok ((t1.micros - t0.micros).toNat / 1000) := by
  obtain ⟨diff, hdiff, hnorm, hmicros⟩ := r_timeval_diff_ok h1 h0 hle
  have hint := r_timeval2int_fits hnorm (hmicros ▸ hfits)
  have hnat : r_timeval2int diff = (t1.micros - t0.micros).toNat := by omega
  rw [offsetAt, hdiff, Except.map, hnat]

/-- A later time gives a later offset, or the same. -/
theorem offset_monotone {s : Async} {t1 t2 : timeval} {c : Nat} (h0 : s.wheel.first_time.normalized = true)
    (h1 : t1.normalized = true) (h2 : t2.normalized = true) (hle : t1.micros ≤ t2.micros)
    (hfits : t2.micros - s.wheel.first_time.micros < 18446744073709551616) (hc : ComputesOffset s t1 c) :
    ∃ c', ComputesOffset s t2 c' ∧ c ≤ c' := by
  obtain ⟨hset, hc⟩ := computesOffset_iff.1 hc
  have hfirst : s.wheel.first_time.micros ≤ t1.micros := by
    by_contra hlt
    rw [offsetAt, r_timeval_diff_before h1 h0 (by omega)] at hc
    cases hc
  rw [offsetAt_eq h1 h0 hfirst (by omega)] at hc
  cases hc
  refine ⟨_, computesOffset_iff.2 ⟨hset, offsetAt_eq h2 h0 (by omega) hfits⟩, Nat.div_le_div_right ?_⟩
  omega

/-- The differences of two times whose distance in microseconds fits: the
difference itself, if the first one is not earlier, and the signed ones in
microseconds and in milliseconds, which rounds toward zero. For a wheel that
started at `t0` a time that is no earlier than `t1` gives an offset that is no
smaller. -/
theorem time_differences {t1 t0 : timeval} (h1 : t1.normalized = true) (h0 : t0.normalized = true)
    (hfits : (t1.micros - t0.micros).natAbs < 9223372036854775808) :
    ((∃ diff, r_timeval_diff t1 t0 = .ok diff) ↔ 0 ≤ r_timeval_cmp t1 t0) ∧
      (∀ diff, r_timeval_diff t1 t0 = .ok diff → diff.normalized = true ∧
        diff = r_int2timeval (toUINT8 ((r_timeval2int t1 : Int) - r_timeval2int t0))) ∧
      r_timeval_diff_usec t1 t0 = some (.ok (t1.micros - t0.micros)) ∧
      r_timeval_diff_usec t0 t1 = some (.ok (-(t1.micros - t0.micros))) ∧
      r_timeval_diff_ms t1 t0 = some (.ok ((t1.micros - t0.micros).tdiv 1000)) ∧
      r_timeval_diff_ms t0 t1 = some (.ok (-(t1.micros - t0.micros).tdiv 1000)) ∧
      ∀ (s : Async) (c : Nat) (t2 : timeval), s.wheel.first_time = t0 → ComputesOffset s t1 c →
        t2.normalized = true → 0 ≤ r_timeval_cmp t2 t1 → t2.micros - t0.micros < 18446744073709551616 →
        ∃ c', ComputesOffset s t2 c' ∧ c ≤ c' := by
  have hswap : -(t1.micros - t0.micros) = t0.micros - t1.micros := by omega
  have hfits' : (t0.micros - t1.micros).natAbs < 9223372036854775808 := by omega
  refine ⟨?_, fun diff hdiff => ?_, r_timeval_diff_usec_eq h1 h0 hfits, ?_, r_timeval_diff_ms_eq h1 h0 hfits, ?_, ?_⟩
  · rw [r_timeval_cmp_eq h1 h0, Int.sign_nonneg_iff]
    constructor
    · rintro ⟨diff, hdiff⟩
      obtain ⟨hnorm, hmicros⟩ := (r_timeval_diff_iff h1 h0).1 hdiff
      exact hmicros ▸ timeval.micros_nonneg hnorm
    · intro hle
      obtain ⟨diff, hdiff, -⟩ := r_timeval_diff_ok h1 h0 (by omega)
      exact ⟨diff, hdiff⟩
  · obtain ⟨hnorm, hmicros⟩ := (r_timeval_diff_iff h1 h0).1 hdiff
    rw [r_timeval2int_diff hmicros]
    exact ⟨hnorm, ((r_int2timeval_iff hnorm).2 (by omega)).symm⟩
  · rw [hswap]
    exact r_timeval_diff_usec_eq h0 h1 hfits'
  · rw [← Int.neg_tdiv, hswap]
    exact r_timeval_diff_ms_eq h0 h1 hfits'
  · rintro s c t2 rfl hc h2 hle hfits2
    rw [r_timeval_cmp_eq h2 h1, Int.sign_nonneg_iff] at hle
    exact offset_monotone h0 h1 h2 (by omega) hfits2 hc

/-- A wheel that started at a time. -/
def startedAt (first_time : timeval) : Async := { initial with wheel := { initial.wheel with first_time } }

/-- A second is borrowed, and the milliseconds are rounded. -/
theorem time_differences_borrow :
    r_timeval_diff ⟨7, 200⟩ ⟨5, 1700⟩ = .ok ⟨1, 998500⟩ ∧
      r_timeval_diff_usec ⟨7, 200⟩ ⟨5, 1700⟩ = some (.ok 1998500) ∧
      r_timeval_diff_ms ⟨5, 1700⟩ ⟨7, 200⟩ = some (.ok (-1998)) ∧
      ComputesOffset (startedAt ⟨5, 1700⟩) ⟨7, 200⟩ 1998 ∧
      ∃ c', ComputesOffset (startedAt ⟨5, 1700⟩) ⟨7, 700⟩ c' ∧ 1998 ≤ c' := by
  have hc : ComputesOffset (startedAt ⟨5, 1700⟩) ⟨7, 200⟩ 1998 := computesOffset_iff.2 ⟨by decide, by decide⟩
  obtain ⟨-, -, husec, -, -, hms, hoffset⟩ :=
    @time_differences ⟨7, 200⟩ ⟨5, 1700⟩ (by decide) (by decide) (by decide)
  exact ⟨by decide, husec, hms, hc, hoffset _ _ ⟨7, 700⟩ rfl hc (by decide) (by decide) (by decide)⟩

end Nrappkit.Event
