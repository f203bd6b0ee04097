import Nrappkit.Common
/-!
# Times

`r_time.c`: a time is seconds and microseconds, normalized when these are below
a million. Both are `long`; of normalized times only a sum can overflow, which
is undefined. In microseconds a time is an unsigned 64-bit integer.

`r_timeval_add` carries when there is more than a second of microseconds, and
not when there is exactly one.
-/

namespace Nrappkit.Event

/-! ## The functions -/

structure timeval where
  tv_sec : Int
  tv_usec : Int
  deriving DecidableEq, Repr

def timeval.normalized (tv : timeval) : Bool := 0 ≤ tv.tv_sec && 0 ≤ tv.tv_usec && tv.tv_usec < 1000000

def r_timeval_diff (t1 t0 : timeval) : Except Status timeval :=
  if t0.tv_sec > t1.tv_sec then .error .R_BAD_ARGS
  else if t0.tv_sec = t1.tv_sec ∧ t0.tv_usec > t1.tv_usec then .error .R_BAD_ARGS
  -- easy case
  else if t0.tv_usec ≤ t1.tv_usec then .ok ⟨t1.tv_sec - t0.tv_sec, t1.tv_usec - t0.tv_usec⟩
  -- hard case
  else if t1.tv_sec < t0.tv_sec + 1 then .error .R_BAD_ARGS
  else .ok ⟨t1.tv_sec - (t0.tv_sec + 1), 1000000 - (t0.tv_usec - t1.tv_usec)⟩

/-- Conversion to `UINT8`, an unsigned 64-bit integer. -/
def toUINT8 (i : Int) : Nat := (i % 2 ^ 64).toNat

def r_timeval2int (tv : timeval) : Nat := toUINT8 (tv.tv_sec * 1000000 + tv.tv_usec)

def r_int2timeval (t : Nat) : timeval := ⟨(t / 1000000 : Nat), (t % 1000000 : Nat)⟩

/-- A result of `long` arithmetic. -/
def long (i : Int) : Option Int := if -9223372036854775808 ≤ i ∧ i < 9223372036854775808 then some i else none

def r_timeval_add (t1 t2 : timeval) : Option timeval := do
  let tv_sec ← long (t1.tv_sec + t2.tv_sec)
  let d ← long (t1.tv_usec + t2.tv_usec)
  if d > 1000000 then
    let tv_sec ← long (tv_sec + 1)
    let tv_usec ← long (d - 1000000)
    some ⟨tv_sec, tv_usec⟩
  else some ⟨tv_sec, d⟩

def r_timeval_cmp (t1 t2 : timeval) : Int :=
  if t1.tv_sec > t2.tv_sec then 1
  else if t1.tv_sec < t2.tv_sec then -1
  else if t1.tv_usec > t2.tv_usec then 1
  else if t1.tv_usec < t2.tv_usec then -1
  else 0

/-- The difference of two times, in a unit that `inUnit` counts in. Where the
first time is the earlier one the two are swapped, and so is the sign. -/
def r_timeval_diff_in (inUnit : timeval → Option Int) (t1 t0 : timeval) : Option (Except Status Int) :=
  match r_timeval_diff t1 t0 with
  | .ok tmp => do
    let diff ← inUnit tmp
    let diff ← long (diff * 1)
    some (.ok diff)
  | .error .R_BAD_ARGS =>
    match r_timeval_diff t0 t1 with
    | .error r => some (.error r)
    | .ok tmp => do
      let diff ← inUnit tmp
      let diff ← long (diff * -1)
      some (.ok diff)
  -- `tmp` is not set
  | .error _ => none

def r_timeval_diff_usec : timeval → timeval → Option (Except Status Int) :=
  r_timeval_diff_in fun tmp => do
    let us ← long (tmp.tv_sec * (1000 * 1000))
    long (us + tmp.tv_usec)

def r_timeval_diff_ms : timeval → timeval → Option (Except Status Int) :=
  r_timeval_diff_in fun tmp => do
    let ms ← long (tmp.tv_sec * 1000)
    long (ms + tmp.tv_usec.tdiv 1000)

/-! ## Times in microseconds -/

def timeval.micros (tv : timeval) : Int := tv.tv_sec * 1000000 + tv.tv_usec

variable {a b c x y : timeval}

theorem timeval.normalized_iff : x.normalized = true ↔ 0 ≤ x.tv_sec ∧ 0 ≤ x.tv_usec ∧ x.tv_usec < 1000000 := by
  simp [timeval.normalized, and_assoc]

theorem timeval.micros_nonneg (h : x.normalized = true) : 0 ≤ x.micros := by
  obtain ⟨hsec, husec, -⟩ := normalized_iff.1 h
  unfold micros
  omega

/-- A normalized time is its microseconds. -/
theorem timeval.eq_of_micros (hx : x.normalized = true) (hy : y.normalized = true) (h : x.micros = y.micros) : x = y := by
  obtain ⟨-, hx0, hx1⟩ := normalized_iff.1 hx
  obtain ⟨-, hy0, hy1⟩ := normalized_iff.1 hy
  obtain ⟨xs, xu⟩ := x
  obtain ⟨ys, yu⟩ := y
  simp only [micros] at h hx0 hx1 hy0 hy1
  have hsec : xs = ys := by omega
  have husec : xu = yu := by omega
  rw [hsec, husec]

/-- The order of normalized times is that of their microseconds. -/
theorem r_timeval_cmp_eq (hx : x.normalized = true) (hy : y.normalized = true) :
    r_timeval_cmp x y = (x.micros - y.micros).sign := by
  obtain ⟨-, hx0, hx1⟩ := timeval.normalized_iff.1 hx
  obtain ⟨-, hy0, hy1⟩ := timeval.normalized_iff.1 hy
  unfold r_timeval_cmp timeval.micros
  split
  · exact (Int.sign_eq_one_of_pos (by omega)).symm
  · split
    · exact (Int.sign_eq_neg_one_of_neg (by omega)).symm
    · split
      · exact (Int.sign_eq_one_of_pos (by omega)).symm
      · split
        · exact (Int.sign_eq_neg_one_of_neg (by omega)).symm
        · have heq : x.tv_sec * 1000000 + x.tv_usec - (y.tv_sec * 1000000 + y.tv_usec) = 0 := by omega
          rw [heq, Int.sign_zero]

theorem r_timeval2int_cast (x : timeval) : (r_timeval2int x : Int) = x.micros % 18446744073709551616 :=
  Int.toNat_of_nonneg (Int.emod_nonneg _ (by decide))

/-- A time that fits is its microseconds. -/
theorem r_timeval2int_fits (h : x.normalized = true) (hfits : x.micros < 18446744073709551616) :
    (r_timeval2int x : Int) = x.micros := by
  rw [r_timeval2int_cast, Int.emod_eq_of_lt (timeval.micros_nonneg h) hfits]

/-- Only what fits comes back. -/
theorem r_int2timeval_iff (h : x.normalized = true) :
    r_int2timeval (r_timeval2int x) = x ↔ x.micros < 18446744073709551616 := by
  obtain ⟨-, husec, hlt⟩ := timeval.normalized_iff.1 h
  have hcast := r_timeval2int_cast x
  constructor
  · intro hback
    have hsec : ((r_timeval2int x / 1000000 : Nat) : Int) = x.tv_sec := congrArg timeval.tv_sec hback
    have husec : ((r_timeval2int x % 1000000 : Nat) : Int) = x.tv_usec := congrArg timeval.tv_usec hback
    unfold timeval.micros at hcast ⊢
    omega
  · intro hfits
    have hint := r_timeval2int_fits h hfits
    unfold timeval.micros at hint
    have hsec : ((r_timeval2int x / 1000000 : Nat) : Int) = x.tv_sec := by omega
    have husec : ((r_timeval2int x % 1000000 : Nat) : Int) = x.tv_usec := by omega
    rw [r_int2timeval, hsec, husec]

/-! ## Adding -/

theorem long_of_lt {i : Int} (h : 0 ≤ i) (hlt : i < 9223372036854775808) : long i = some i := by
  unfold long
  rw [if_pos]
  omega

/-- A second of microseconds is carried, but not when it is exactly one. -/
theorem r_timeval_add_eq (ha : a.normalized = true) (hb : b.normalized = true)
    (hfits : a.micros + b.micros < 18446744073709551616) :
    r_timeval_add a b = some (if a.tv_usec + b.tv_usec > 1000000
      then ⟨a.tv_sec + b.tv_sec + 1, a.tv_usec + b.tv_usec - 1000000⟩
      else ⟨a.tv_sec + b.tv_sec, a.tv_usec + b.tv_usec⟩) := by
  obtain ⟨hasec, hausec, halt⟩ := timeval.normalized_iff.1 ha
  obtain ⟨hbsec, hbusec, hblt⟩ := timeval.normalized_iff.1 hb
  unfold timeval.micros at hfits
  unfold r_timeval_add
  rw [long_of_lt (i := a.tv_sec + b.tv_sec) (by omega) (by omega), Option.bind_eq_bind, Option.bind_some,
    long_of_lt (i := a.tv_usec + b.tv_usec) (by omega) (by omega), Option.bind_some]
  split
  · rw [long_of_lt (by omega) (by omega), Option.bind_some, long_of_lt (by omega) (by omega)]
    rfl
  · rfl

/-- Otherwise the sum is normalized and right. -/
theorem r_timeval_add_spec (ha : a.normalized = true) (hb : b.normalized = true) (husec : a.tv_usec + b.tv_usec ≠ 1000000)
    (hfits : a.micros + b.micros < 18446744073709551616) :
    ∃ sum, r_timeval_add a b = some sum ∧ sum.normalized = true ∧ sum.micros = a.micros + b.micros := by
  obtain ⟨hasec, hausec, halt⟩ := timeval.normalized_iff.1 ha
  obtain ⟨hbsec, hbusec, hblt⟩ := timeval.normalized_iff.1 hb
  refine ⟨_, r_timeval_add_eq ha hb hfits, ?_⟩
  rw [timeval.normalized_iff]
  unfold timeval.micros
  split
  · dsimp only
    omega
  · dsimp only
    omega

/-- The sum of two times is normalized and right, stands to a third time as its
microseconds do, and comes back from them. -/
def AddsUp (a b c : timeval) : Prop :=
  ∃ sum, r_timeval_add a b = some sum ∧ sum.normalized = true ∧ sum.micros = a.micros + b.micros ∧
    (r_timeval_cmp sum c).sign = ((r_timeval2int a + r_timeval2int b : Int) - r_timeval2int c).sign ∧
    r_int2timeval (r_timeval2int sum) = sum

/-- A number that fits stands to another as to its remainder when that one fits
too, or is below its remainder anyhow. -/
theorem sign_sub_emod {s n : Int} (hn : 0 ≤ n) (hs : s < 18446744073709551616) :
    (s - n).sign = (s - n % 18446744073709551616).sign ↔
      n < 18446744073709551616 ∨ s < n % 18446744073709551616 := by
  by_cases hfits : n < 18446744073709551616
  · rw [Int.emod_eq_of_lt hn hfits]
    exact iff_of_true rfl (.inl hfits)
  · have hneg : (s - n).sign = -1 := Int.sign_eq_neg_one_of_neg (by omega)
    rw [hneg, eq_comm, Int.sign_eq_neg_one_iff_neg, or_iff_right hfits]
    omega

/-- It is so unless the microseconds add up to exactly a second, or times do
not fit 64 bits; one that does not may still be compared with by luck. -/
theorem adds_up_iff (ha : a.normalized = true) (hb : b.normalized = true) (hc : c.normalized = true) :
    AddsUp a b c ↔ a.tv_usec + b.tv_usec ≠ 1000000 ∧ a.micros + b.micros < 18446744073709551616 ∧
      (c.micros < 18446744073709551616 ∨ a.micros + b.micros < c.micros % 18446744073709551616) := by
  have ha0 := timeval.micros_nonneg ha
  have hb0 := timeval.micros_nonneg hb
  have hcompare : ∀ sum : timeval, sum.normalized = true → sum.micros = a.micros + b.micros →
      a.micros + b.micros < 18446744073709551616 →
      ((r_timeval_cmp sum c).sign = ((r_timeval2int a + r_timeval2int b : Int) - r_timeval2int c).sign ↔
        c.micros < 18446744073709551616 ∨ a.micros + b.micros < c.micros % 18446744073709551616) := by
    intro sum hnorm hmicros hfits
    rw [r_timeval_cmp_eq hnorm hc, Int.sign_sign, r_timeval2int_fits ha (by omega), r_timeval2int_fits hb (by omega),
      r_timeval2int_cast, hmicros]
    exact sign_sub_emod (timeval.micros_nonneg hc) hfits
  constructor
  · rintro ⟨sum, hadd, hnorm, hmicros, hcmp, hback⟩
    have hfits := (r_int2timeval_iff hnorm).1 hback
    rw [hmicros] at hfits
    refine ⟨fun husec => ?_, hfits, (hcompare sum hnorm hmicros hfits).1 hcmp⟩
    rw [r_timeval_add_eq ha hb hfits, husec, if_neg (Int.lt_irrefl _)] at hadd
    cases hadd
    exact absurd (timeval.normalized_iff.1 hnorm).2.2 (Int.lt_irrefl _)
  · rintro ⟨husec, hfits, hc64⟩
    obtain ⟨sum, hadd, hnorm, hmicros⟩ := r_timeval_add_spec ha hb husec hfits
    refine ⟨sum, hadd, hnorm, hmicros, (hcompare sum hnorm hmicros hfits).2 hc64, ?_⟩
    rw [r_int2timeval_iff hnorm, hmicros]
    exact hfits

theorem adds_up_carry : AddsUp ⟨1, 700000⟩ ⟨2, 400000⟩ ⟨4, 100000⟩ :=
  (adds_up_iff (by decide) (by decide) (by decide)).2 (by decide)

/-- The microseconds add up to a second, which is not carried. -/
theorem second_not_carried : ¬ AddsUp ⟨0, 999999⟩ ⟨0, 1⟩ ⟨1, 0⟩ := by
  rintro ⟨sum, hadd, hnorm, -⟩
  cases hadd
  revert hnorm
  decide

/-! ## Differences -/

section Differences
variable {t1 t0 diff : timeval}

theorem r_timeval_diff_ok (h1 : t1.normalized = true) (h0 : t0.normalized = true) (hle : t0.micros ≤ t1.micros) :
    ∃ diff, r_timeval_diff t1 t0 = .ok diff ∧ diff.normalized = true ∧ diff.micros = t1.micros - t0.micros := by
  obtain ⟨-, h1u, h1l⟩ := timeval.normalized_iff.1 h1
  obtain ⟨-, h0u, h0l⟩ := timeval.normalized_iff.1 h0
  unfold timeval.micros at hle
  unfold r_timeval_diff
  rw [if_neg (by omega), if_neg (by omega)]
  split
  · refine ⟨_, rfl, timeval.normalized_iff.2 ?_, ?_⟩
    · dsimp only
      omega
    · unfold timeval.micros
      dsimp only
      omega
  · -- A second is borrowed, so the seconds differ.
    rw [if_neg (by omega)]
    refine ⟨_, rfl, timeval.normalized_iff.2 ?_, ?_⟩
    · dsimp only
      omega
    · unfold timeval.micros
      dsimp only
      omega

/-- Back to what was added. -/
theorem r_timeval_diff_add (t0 : timeval) {a b : Int} (ha : 0 ≤ a) (hb : 0 ≤ b) :
    r_timeval_diff ⟨t0.tv_sec + a, t0.tv_usec + b⟩ t0 = .ok ⟨a, b⟩ := by
  have hsec : t0.tv_sec + a - t0.tv_sec = a := by omega
  have husec : t0.tv_usec + b - t0.tv_usec = b := by omega
  unfold r_timeval_diff
  dsimp only
  rw [if_neg (by omega), if_neg (by omega), if_pos (by omega), hsec, husec]

theorem r_timeval_diff_before (h1 : t1.normalized = true) (h0 : t0.normalized = true) (hlt : t1.micros < t0.micros) :
    r_timeval_diff t1 t0 = .error .R_BAD_ARGS := by
  obtain ⟨-, h1u, h1l⟩ := timeval.normalized_iff.1 h1
  obtain ⟨-, h0u, h0l⟩ := timeval.normalized_iff.1 h0
  unfold timeval.micros at hlt
  unfold r_timeval_diff
  split
  · rfl
  · rw [if_pos (by omega)]

/-- The difference, if it is one: the normalized time of that many microseconds. -/
theorem r_timeval_diff_iff (h1 : t1.normalized = true) (h0 : t0.normalized = true) :
    r_timeval_diff t1 t0 = .ok diff ↔ diff.normalized = true ∧ diff.micros = t1.micros - t0.micros := by
  constructor
  · intro hdiff
    by_cases hle : t0.micros ≤ t1.micros
    · obtain ⟨diff', hdiff', hspec⟩ := r_timeval_diff_ok h1 h0 hle
      rw [hdiff] at hdiff'
      cases hdiff'
      exact hspec
    · rw [r_timeval_diff_before h1 h0 (by omega)] at hdiff
      cases hdiff
  · rintro ⟨hnorm, hmicros⟩
    have hnonneg := timeval.micros_nonneg hnorm
    obtain ⟨diff', hdiff', hnorm', hmicros'⟩ := r_timeval_diff_ok h1 h0 (by omega)
    rw [hdiff', timeval.eq_of_micros hnorm hnorm' (hmicros.trans hmicros'.symm)]

/-- In 64 bits the numbers of microseconds are subtracted right, also where they
do not fit themselves. -/
theorem r_timeval2int_diff (hmicros : diff.micros = t1.micros - t0.micros) :
    toUINT8 ((r_timeval2int t1 : Int) - r_timeval2int t0) = r_timeval2int diff := by
  rw [r_timeval2int_cast, r_timeval2int_cast, toUINT8, r_timeval2int, toUINT8]
  unfold timeval.micros at hmicros ⊢
  rw [hmicros]
  congr 1
  omega

/-- A count of units that fits, for times in both orders. `q` turns microseconds
into units. -/
theorem r_timeval_diff_in_eq (h1 : t1.normalized = true) (h0 : t0.normalized = true)
    (hfits : (t1.micros - t0.micros).natAbs < 9223372036854775808) {inUnit : timeval → Option Int} {q : Int → Int}
    (hunit : ∀ tmp : timeval, tmp.normalized = true → tmp.micros < 9223372036854775808 → inUnit tmp = some (q tmp.micros))
    (hq : ∀ us, 0 ≤ us → 0 ≤ q us ∧ q us ≤ us) (hneg : ∀ us, q (-us) = -q us) :
    r_timeval_diff_in inUnit t1 t0 = some (.ok (q (t1.micros - t0.micros))) := by
  unfold r_timeval_diff_in
  by_cases hle : t0.micros ≤ t1.micros
  · obtain ⟨tmp, hdiff, hnorm, hmicros⟩ := r_timeval_diff_ok h1 h0 hle
    have hrange := hq tmp.micros (timeval.micros_nonneg hnorm)
    rw [hdiff, ← hmicros]
    simp only [hunit tmp hnorm (by omega), Option.bind_eq_bind, Option.bind_some, Int.mul_one]
    rw [long_of_lt (by omega) (by omega), Option.bind_some]
  · obtain ⟨tmp, hdiff, hnorm, hmicros⟩ := r_timeval_diff_ok h0 h1 (by omega)
    have hrange := hq tmp.micros (timeval.micros_nonneg hnorm)
    have hswap : t1.micros - t0.micros = -tmp.micros := by omega
    have hlong : long (-q tmp.micros) = some (-q tmp.micros) := by
      unfold long
      rw [if_pos]
      omega
    rw [r_timeval_diff_before h1 h0 (by omega), hswap, hneg]
    simp only [hdiff, hunit tmp hnorm (by omega), Option.bind_eq_bind, Option.bind_some, Int.mul_neg, Int.mul_one, hlong]

theorem r_timeval_diff_usec_eq (h1 : t1.normalized = true) (h0 : t0.normalized = true)
    (hfits : (t1.micros - t0.micros).natAbs < 9223372036854775808) :
    r_timeval_diff_usec t1 t0 = some (.ok (t1.micros - t0.micros)) := by
  refine r_timeval_diff_in_eq (q := id) h1 h0 hfits ?_ (fun us hus => ⟨hus, Int.le_refl us⟩) fun us => rfl
  intro tmp hnorm hlt
  obtain ⟨hsec, husec, hmillion⟩ := timeval.normalized_iff.1 hnorm
  unfold timeval.micros at hlt ⊢
  simp only [id]
  rw [long_of_lt (by omega) (by omega), Option.bind_eq_bind, Option.bind_some, long_of_lt (by omega) (by omega)]
  rfl

theorem r_timeval_diff_ms_eq (h1 : t1.normalized = true) (h0 : t0.normalized = true)
    (hfits : (t1.micros - t0.micros).natAbs < 9223372036854775808) :
    r_timeval_diff_ms t1 t0 = some (.ok ((t1.micros - t0.micros).tdiv 1000)) := by
  refine r_timeval_diff_in_eq (q := (Int.tdiv · 1000)) h1 h0 hfits ?_ ?_ fun us => Int.neg_tdiv us 1000
  · intro tmp hnorm hlt
    obtain ⟨hsec, husec, hmillion⟩ := timeval.normalized_iff.1 hnorm
    unfold timeval.micros at hlt ⊢
    have hdiv : tmp.tv_usec.tdiv 1000 = tmp.tv_usec / 1000 := Int.tdiv_eq_ediv_of_nonneg husec
    have hsum : (tmp.tv_sec * 1000000 + tmp.tv_usec).tdiv 1000 = tmp.tv_sec * 1000 + tmp.tv_usec / 1000 := by
      rw [Int.tdiv_eq_ediv_of_nonneg (by omega)]
      omega
    simp only [hdiv, hsum]
    rw [long_of_lt (by omega) (by omega), Option.bind_eq_bind, Option.bind_some, long_of_lt (by omega) (by omega)]
  · intro us hus
    rw [Int.tdiv_eq_ediv_of_nonneg hus]
    omega

end Differences

end Nrappkit.Event
